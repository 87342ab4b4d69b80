import CharDriver.RwFileModel

/-! Sessions one after the other: open, transfers, release. The buffer of a session may be a block an
earlier session used, and is not cleared. What a session reads depends on nothing before it exactly
when each of its reads moves at most as many bytes as one of its earlier writes offered. -/

namespace CharDriver.RwFile

open Base

/-- The count of a transfer is at most `mem_size`. -/
def Op.Bounded : Op → Prop
  | .deviceRead len _ => len ≤ memSize
  | .deviceWrite buff _ => buff.length ≤ memSize

instance boundedDecidable : ∀ op : Op, Decidable op.Bounded
  | .deviceRead .. => inferInstanceAs (Decidable (_ ≤ _))
  | .deviceWrite .. => inferInstanceAs (Decidable (_ ≤ _))

structure Session where
  block : Nat
  ops : List Op
  bounded : ∀ op ∈ ops, op.Bounded

def Session.calls (session : Session) : List Call :=
  .deviceOpen 0 (some session.block) :: (session.ops.map (.transfer 0) ++ [.deviceRelease 0])

def Op.SameButData : Op → Op → Prop
  | .deviceRead len fault, .deviceRead len' fault' => len = len' ∧ fault = fault'
  | .deviceWrite buff fault, .deviceWrite buff' fault' => buff.length = buff'.length ∧ fault = fault'
  | _, _ => False

def Session.SameButData (s s' : Session) : Prop :=
  s.block = s'.block ∧ List.Forall₂ Op.SameButData s.ops s'.ops

/-- The replies of a session that runs after others. -/
def repliesOfLast (mem : Nat → Nat → UInt8) (earlier : List Session) (last : Session) :
    Except Oops (List Reply) := do
  let (s, _) ← runSteps step (initial mem) (earlier.flatMap Session.calls)
  let (_, rs) ← runSteps step s last.calls
  return rs

/-- Whatever the earlier sessions wrote and the heap held at first, the last session gets the same
replies. -/
def Isolated (last : Session) : Prop :=
  ∀ mem mem' earlier earlier', List.Forall₂ Session.SameButData earlier earlier' →
    ∃ rs, repliesOfLast mem earlier last = .ok rs ∧ repliesOfLast mem' earlier' last = .ok rs

/-- With the first `filled` bytes of the buffer stored, each read moves no more than were stored when
it runs. A write stores as many bytes as it is offered: where its copy faults, zeros. -/
def ReadsStored (filled : Nat) : List Op → Prop
  | [] => True
  | .deviceRead _ fault :: ops => copied fault memSize ≤ filled ∧ ReadsStored filled ops
  | .deviceWrite buff _ :: ops => ReadsStored (max filled buff.length) ops

instance readsStoredDecidable (filled : Nat) : ∀ ops, Decidable (ReadsStored filled ops)
  | [] => inferInstanceAs (Decidable True)
  | .deviceRead _ _ :: ops =>
      have := readsStoredDecidable filled ops
      inferInstanceAs (Decidable (_ ∧ _))
  | .deviceWrite buff _ :: ops => readsStoredDecidable (max filled buff.length) ops

/-- The replies to transfers on a buffer that holds `f`. -/
def replies (f : Nat → UInt8) : List Op → List Reply
  | [] => []
  | op :: ops => op.reply f :: replies (op.contents f) ops

/-- No file is open and no block is live. -/
structure Idle (s : State) : Prop where
  files : s.files = ∅
  live : s.kernel.slab.live = fun _ => false

/-- The one open file has the block, and no other block is live. -/
structure InUse (b : Nat) (s : State) : Prop where
  files : s.files = {0}
  kernelBuffer : s.kernel.kernelBuffer = some b
  live : s.kernel.slab.live = Function.update (fun _ => false) b true

theorem InUse.live_self {b : Nat} {s : State} (h : InUse b s) : s.kernel.slab.live b = true := by
  rw [h.live, Function.update_self]

theorem idle_initial (mem : Nat → Nat → UInt8) : Idle (initial mem) := ⟨rfl, rfl⟩

theorem open_run {s : State} (hidle : Idle s) (b : Nat) :
    ∃ s', step s (.deviceOpen 0 (some b)) = .ok (s', ⟨0, [], 0, 0⟩) ∧ InUse b s' ∧
      s'.kernel.slab.mem b = s.kernel.slab.mem b := by
  have hfiles : insert 0 s.files = {0} := by rw [hidle.files, insert_empty_eq]
  have hlive : (s.kernel.slab.setLive b true).live = Function.update (fun _ => false) b true := by
    rw [Slab.setLive, hidle.live]
  exact ⟨_, rfl, ⟨hfiles, rfl, hlive⟩, rfl⟩

theorem InUse.transfer {b : Nat} {s : State} (h : InUse b s) (f : Nat → UInt8) :
    InUse b ⟨⟨s.kernel.slab.put b f, s.kernel.kernelBuffer⟩, s.files⟩ :=
  ⟨h.files, h.kernelBuffer, h.live⟩

theorem ops_run {b : Nat} (ops : List Op) {s : State} (hs : InUse b s) :
    ∃ s', runSteps step s (ops.map (.transfer 0)) = .ok (s', replies (s.kernel.slab.mem b) ops) ∧
      InUse b s' := by
  induction ops generalizing s with
  | nil => exact ⟨s, rfl, hs⟩
  | cons op ops ih =>
      have hstep := step_transfer 0 op hs.kernelBuffer hs.live_self
      obtain ⟨s', hrun, hs'⟩ := ih (hs.transfer (op.contents (s.kernel.slab.mem b)))
      simp only [Slab.put, Function.update_self] at hrun
      exact ⟨s', runSteps_cons_ok hstep _ hrun, hs'⟩

theorem release_run {b : Nat} {s : State} (hs : InUse b s) :
    ∃ s', step s (.deviceRelease 0) = .ok (s', ⟨0, [], 0, 0⟩) ∧ Idle s' := by
  have hfiles : s.files.erase 0 = ∅ := by rw [hs.files, Finset.erase_singleton]
  have hlive : (s.kernel.slab.setLive b false).live = fun _ => false := by
    rw [Slab.setLive, hs.live, Function.update_idem, Function.update_eq_self_iff]
  exact ⟨_, step_release 0 hs.kernelBuffer hs.live_self, ⟨hfiles, hlive⟩⟩

/-- The replies of a session depend on the past through what its block held. -/
theorem session_run (session : Session) {s : State} (hidle : Idle s) :
    ∃ s', runSteps step s session.calls = .ok (s', ⟨0, [], 0, 0⟩ ::
      (replies (s.kernel.slab.mem session.block) session.ops ++ [⟨0, [], 0, 0⟩])) ∧ Idle s' := by
  obtain ⟨s₁, hopen, hs₁, hmem⟩ := open_run hidle session.block
  obtain ⟨s₂, hops, hs₂⟩ := ops_run session.ops hs₁
  obtain ⟨s₃, hrelease, hs₃⟩ := release_run hs₂
  rw [hmem] at hops
  have hlast : runSteps step s₂ [.deviceRelease 0] = .ok (s₃, [⟨0, [], 0, 0⟩]) :=
    runSteps_cons_ok hrelease [] rfl
  exact ⟨s₃, runSteps_cons_ok hopen _ (runSteps_append_ok hops hlast), hs₃⟩

theorem sessions_run (sessions : List Session) {s : State} (hidle : Idle s) :
    ∃ s' rs, runSteps step s (sessions.flatMap Session.calls) = .ok (s', rs) ∧ Idle s' := by
  induction sessions generalizing s with
  | nil => exact ⟨s, [], rfl, hidle⟩
  | cons session sessions ih =>
      obtain ⟨s', hsession, hidle'⟩ := session_run session hidle
      obtain ⟨s'', rs, hrest, hidle''⟩ := ih hidle'
      exact ⟨s'', _, runSteps_append_ok hsession hrest, hidle''⟩

theorem repliesOfLast_eq (mem : Nat → Nat → UInt8) (earlier : List Session) (last : Session) :
    ∃ f, repliesOfLast mem earlier last =
      .ok (⟨0, [], 0, 0⟩ :: (replies f last.ops ++ [⟨0, [], 0, 0⟩])) := by
  obtain ⟨s, rs, hearlier, hidle⟩ := sessions_run earlier (idle_initial mem)
  obtain ⟨s', hlast, -⟩ := session_run last hidle
  refine ⟨s.kernel.slab.mem last.block, ?_⟩
  simp only [repliesOfLast, hearlier, hlast, ok_bind, pure_eq_ok]

/-- The first session finds the old contents of its block. -/
theorem repliesOfLast_nil (mem : Nat → Nat → UInt8) (last : Session) :
    repliesOfLast mem [] last =
      .ok (⟨0, [], 0, 0⟩ :: (replies (mem last.block) last.ops ++ [⟨0, [], 0, 0⟩])) := by
  obtain ⟨s', hlast, -⟩ := session_run last (idle_initial mem)
  simp only [repliesOfLast, List.flatMap_nil, runSteps, hlast, ok_bind, pure_eq_ok]
  rfl

/-- A write makes its bytes agree, and keeps those that agree. -/
theorem contents_agree {f f' : Nat → UInt8} {filled : Nat} (hagree : ∀ i < filled, f i = f' i)
    (buff : List UInt8) (fault : Option Nat) :
    ∀ i < max filled buff.length,
      (Op.deviceWrite buff fault).contents f i = (Op.deviceWrite buff fault).contents f' i := by
  intro i hi
  have hlength := length_received fault buff
  simp only [Op.contents]
  by_cases hin : i < buff.length
  · rw [overlay_of_inside f ⟨Nat.zero_le i, by omega⟩, overlay_of_inside f' ⟨Nat.zero_le i, by omega⟩]
  · rw [overlay_of_le f _ (by omega), overlay_of_le f' _ (by omega), hagree i (by omega)]

theorem contents_differ {f f' : Nat → UInt8} {filled : Nat} (hdiffer : ∀ i, filled ≤ i → f i ≠ f' i)
    (buff : List UInt8) (fault : Option Nat) :
    ∀ i, max filled buff.length ≤ i →
      (Op.deviceWrite buff fault).contents f i ≠ (Op.deviceWrite buff fault).contents f' i := by
  intro i hi
  have hlength := length_received fault buff
  simp only [Op.contents]
  rw [overlay_of_le f _ (by omega), overlay_of_le f' _ (by omega)]
  exact hdiffer i (by omega)

/-- Reads of stored bytes only do not see what the buffer held before. -/
theorem replies_eq (ops : List Op) {filled : Nat} (hstored : ReadsStored filled ops)
    {f f' : Nat → UInt8} (hagree : ∀ i < filled, f i = f' i) : replies f ops = replies f' ops := by
  induction ops generalizing filled f f' with
  | nil => rfl
  | cons op ops ih =>
      cases op with
      | deviceRead len fault =>
          have hbytes : (List.range (copied fault memSize)).map f =
              (List.range (copied fault memSize)).map f' :=
            List.map_congr_left fun i hi =>
              hagree i ((List.mem_range.mp hi).trans_le hstored.1)
          simp only [replies, Op.reply, Op.contents, hbytes, ih hstored.2 hagree]
      | deviceWrite buff fault =>
          have hrest := ih hstored (contents_agree hagree buff fault)
          simp only [replies, Op.reply, hrest]

theorem readsStored_of_replies_eq (ops : List Op) {filled : Nat} {f f' : Nat → UInt8}
    (hdiffer : ∀ i, filled ≤ i → f i ≠ f' i) (heq : replies f ops = replies f' ops) :
    ReadsStored filled ops := by
  induction ops generalizing filled f f' with
  | nil => trivial
  | cons op ops ih =>
      obtain ⟨hreply, hrest⟩ := List.cons.inj heq
      cases op with
      | deviceRead len fault =>
          refine ⟨?_, ih hdiffer hrest⟩
          by_contra hlong
          have hbytes := congrArg (fun r : Reply => r.bytes[filled]?) hreply
          have hin : filled < copied fault memSize := by omega
          simp only [Op.reply, List.getElem?_map, List.getElem?_range hin, Option.map_some,
            Option.some.injEq] at hbytes
          exact hdiffer filled (Nat.le_refl filled) hbytes
      | deviceWrite buff fault => exact ih (contents_differ hdiffer buff fault) hrest

theorem Isolated.readsStored {last : Session} (h : Isolated last) : ReadsStored 0 last.ops := by
  obtain ⟨rs, hzeros, hones⟩ := h (fun _ _ => 0) (fun _ _ => 1) [] [] List.Forall₂.nil
  have heq := hzeros.trans hones.symm
  rw [repliesOfLast_nil, repliesOfLast_nil, Except.ok.injEq, List.cons.injEq,
    List.append_left_inj] at heq
  exact readsStored_of_replies_eq last.ops (fun i _ => by decide) heq.2

/-- A session is isolated exactly when it reads only what it has stored. -/
theorem isolated_iff (last : Session) : Isolated last ↔ ReadsStored 0 last.ops := by
  refine ⟨Isolated.readsStored, ?_⟩
  intro hstored mem mem' earlier earlier' _
  obtain ⟨f, hrun⟩ := repliesOfLast_eq mem earlier last
  obtain ⟨f', hrun'⟩ := repliesOfLast_eq mem' earlier' last
  rw [replies_eq last.ops hstored fun i hi => absurd hi (Nat.not_lt_zero i)] at hrun
  exact ⟨_, hrun, hrun'⟩

/-- A short string is written, and the whole buffer is read. -/
def shortWrite : Session where
  block := 5
  ops := [.deviceWrite [104, 105, 0] none, .deviceRead 1024 none]
  bounded := by decide

theorem not_isolated_shortWrite : ¬ Isolated shortWrite :=
  fun h => absurd h.readsStored (by decide)

end CharDriver.RwFile
