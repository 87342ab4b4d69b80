import CharDriver.ChardevAllocations

/-! What a reader can learn about old heap contents. Two runs of the same calls differ only in what
`kmalloc` leaves in the blocks it hands out, and the views of a run are what its reads deliver below
the size. A quantum is not cleared when it is allocated, so a read of it tells the runs apart unless
every offset it covers has been written since the last trim. -/

namespace CharDriver.Chardev

open Base

def Kmem.withOld (env : Kmem) (old : Nat → Nat → UInt8) : Kmem := { env with old }

/-- What a read shows: its return value and the bytes below the size of the device. -/
def view (s : Kernel) (c : Call) (r : Reply) : Option (Int × List UInt8) :=
  match c with
  | .deviceRead ppos .. => some (r.ret, r.bytes.take (s.dev.size - ppos))
  | _ => none

def seenStep (env : Kmem) (s : Kernel) (c : Call) :
    Except Oops (Kernel × Option (Int × List UInt8)) :=
  (step env s c).map fun r => (r.1, view s c r.2)

def views (env : Kmem) (quantum qset : Nat) (calls : List Call) :
    Except Oops (List (Option (Int × List UInt8))) :=
  (runSteps (seenStep env) (emptyDevice quantum qset) calls).map Prod.snd

/-- The run goes through, and whatever the blocks held before, the views are the same. -/
def NoLeak (env : Kmem) (quantum qset : Nat) (calls : List Call) : Prop :=
  ∃ vs, views env quantum qset calls = .ok vs ∧
    ∀ old, views (env.withOld old) quantum qset calls = .ok vs

/-- What the writes since the last trim have done: the quanta they got and the offsets they stored. -/
structure History where
  reached : Nat → Bool
  written : Nat → Bool

namespace History

def empty : History := ⟨fun _ => false, fun _ => false⟩

def reach (h : History) (k : Nat) : History :=
  { h with reached := fun j => h.reached j || j == k }

def store (h : History) (p n : Nat) : History :=
  { h with written := overlay h.written p (List.replicate n true) }

/-- A write in the state `s` that no signal and no failed allocation stops gets its quantum and stores
all of its piece: where the copy faults, zeros. An open that trims forgets. -/
def after (env : Kmem) (s : Kernel) (h : History) : Call → History
  | .deviceOpen flags signal => if isWronly flags ∧ signal = false then empty else h
  | .deviceWrite ppos buff signal _ =>
      if signal = true ∨ env.Fails s.heap.calls (s.missing ppos) then h
      else (h.reach (ppos / s.dev.quantum.toNat)).store ppos (s.clamped ppos buff.length)
  | _ => h

/-- A read from a quantum that was reached covers, below the size, only offsets that were stored. -/
def Covers (h : History) (dev : DeviceDev) : Call → Prop
  | .deviceRead ppos len signal fault =>
      signal = false → h.reached (ppos / dev.quantum.toNat) = true →
        ∀ i < copied fault (Store.piece dev.quantum.toNat ppos len), ppos + i < dev.size →
          h.written (ppos + i) = true
  | _ => True

instance coversDecidable (h : History) (dev : DeviceDev) : ∀ c : Call, Decidable (h.Covers dev c)
  | .deviceRead .. => inferInstanceAs (Decidable (_ → _ → _))
  | .deviceOpen .. => inferInstanceAs (Decidable True)
  | .deviceWrite .. => inferInstanceAs (Decidable True)
  | .deviceRelease => inferInstanceAs (Decidable True)

end History

def watchedStep (env : Kmem) (s : Kernel × History) (c : Call) :
    Except Oops ((Kernel × History) × Option (Int × List UInt8)) :=
  (step env s.1 c).map fun r =>
    ((r.1, s.2.after env s.1 c), view s.1 c r.2)

def ReadsCovered (env : Kmem) (quantum qset : Nat) (calls : List Call) : Prop :=
  Admissible (watchedStep env) (fun s c => s.2.Covers s.1.dev c)
    (emptyDevice quantum qset, .empty) calls

instance readsCoveredDecidable (env : Kmem) (quantum qset : Nat) (calls : List Call) :
    Decidable (ReadsCovered env quantum qset calls) :=
  inferInstanceAs (Decidable (Admissible _ _ _ calls))

namespace Store

def withByte (st : Store) (byte : Nat → UInt8) : Store := { st with byte }

/-- The bytes after quantum `k` was prepared: a new quantum holds what was found in its block. -/
def found (st : Store) (k : Nat) (ok : Bool) (old byte : Nat → UInt8) (a : Nat) : UInt8 :=
  if ok ∧ st.block k = false ∧ a / st.quantum = k then old (a % st.quantum) else byte a

theorem grow_withOld (env : Kmem) (old : Nat → Nat → UInt8) (missing nodes calls : Nat) :
    grow (env.withOld old) missing nodes calls = grow env missing nodes calls := by
  induction missing generalizing nodes calls with
  | zero => rfl
  | succ missing ih =>
      rw [grow, grow, ih]
      rfl

/-- What `ensureBlock` does beside the bytes depends neither on the bytes nor on old contents. -/
theorem ensureBlock_withOld (env : Kmem) (k : Nat) (st : Store) :
    ∃ ok calls n, ∀ old byte, (st.withByte byte).ensureBlock (env.withOld old) k =
      (ok, { st with calls, block := fun j => st.block j || (ok && j == k),
                     byte := st.found k ok (old n) byte }) := by
  by_cases hk : st.block k = true
  · refine ⟨true, st.calls, 0, fun old byte => ?_⟩
    have hblock : (fun j => st.block j || (true && j == k)) = st.block := by
      ext j
      by_cases hj : j = k <;> simp [hj, hk]
    have hfound : st.found k true (old 0) byte = byte := by
      ext a
      simp [found, hk]
    rw [hblock, hfound]
    exact if_pos hk
  by_cases hf : env.fails st.calls = true
  · refine ⟨false, st.calls + 1, 0, fun old byte => ?_⟩
    have hfound : st.found k false (old 0) byte = byte := by
      ext a
      simp [found]
    simp only [Bool.false_and, Bool.or_false, hfound]
    exact (if_neg hk).trans (if_pos hf)
  · refine ⟨true, st.calls + 1, st.calls, fun old byte => ?_⟩
    have hblock : (fun j => st.block j || (true && j == k)) = Function.update st.block k true := by
      ext j
      by_cases hj : j = k <;> simp [Function.update, hj]
    have hfound : st.found k true (old st.calls) byte =
        fun a => if a / st.quantum = k then old st.calls (a % st.quantum) else byte a := by
      ext a
      simp [found, hk]
    rw [hblock, hfound]
    exact (if_neg hk).trans (if_neg hf)

theorem ensureArray_withOld (env : Kmem) (i : Nat) (st : Store) :
    ∃ ok calls array, ∀ old byte, (st.withByte byte).ensureArray (env.withOld old) i =
      (ok, { st with calls, array, byte }) := by
  by_cases hi : st.array i = true
  · exact ⟨true, st.calls, st.array, fun _ _ => if_pos hi⟩
  by_cases hf : env.fails st.calls = true
  · exact ⟨false, st.calls + 1, st.array, fun _ _ => (if_neg hi).trans (if_pos hf)⟩
  · exact ⟨true, st.calls + 1, Function.update st.array i true,
      fun _ _ => (if_neg hi).trans (if_neg hf)⟩

theorem follow_withOld (env : Kmem) (i : Nat) (st : Store) :
    ∃ ok nodes calls, ∀ old byte, (st.withByte byte).follow (env.withOld old) i =
      (ok, { st with nodes, calls, byte }) := by
  rcases hgrow : grow env (i + 1 - st.nodes) st.nodes st.calls with ⟨ok, nodes, calls⟩
  refine ⟨ok, nodes, calls, fun old byte => ?_⟩
  simp only [follow, withByte, grow_withOld, hgrow]

theorem prepare_withOld (env : Kmem) (p : Nat) (st : Store) :
    ∃ ok nodes calls array n, ∀ old byte, (st.withByte byte).prepare (env.withOld old) p =
      (ok, { st with
        nodes, calls, array, block := fun j => st.block j || (ok && j == p / st.quantum),
        byte := st.found (p / st.quantum) ok (old n) byte }) := by
  have hkeep : ∀ old byte, st.found (p / st.quantum) false old byte = byte := fun old byte => by
    ext a
    simp [found]
  obtain ⟨ok, nodes, calls, hfollow⟩ := follow_withOld env (st.item p) st
  cases ok with
  | false =>
      refine ⟨false, nodes, calls, st.array, 0, fun old byte => ?_⟩
      simp only [Bool.false_and, Bool.or_false, hkeep]
      exact prepare_of_follow_fails (hfollow old byte)
  | true =>
      obtain ⟨ok, calls₂, array, harray⟩ :=
        ensureArray_withOld env (st.item p) { st with nodes, calls }
      cases ok with
      | false =>
          refine ⟨false, nodes, calls₂, array, 0, fun old byte => ?_⟩
          simp only [Bool.false_and, Bool.or_false, hkeep]
          exact prepare_of_array_fails (hfollow old byte) (harray old byte)
      | true =>
          obtain ⟨ok, calls₃, n, hblock⟩ := ensureBlock_withOld env (p / st.quantum)
            { st with nodes, calls := calls₂, array }
          refine ⟨ok, nodes, calls₃, array, n, fun old byte => ?_⟩
          have hprepare := @prepare_of_array (env.withOld old) p (st.withByte byte) _ _
            (hfollow old byte) (harray old byte)
          exact hprepare.trans (hblock old byte)

end Store

/-- Beside the store runs a second one with other bytes. The two agree where the history says written
and hold old contents of the same place elsewhere. -/
structure Tracks (env : Kmem) (old : Nat → Nat → UInt8) (st : Store) (byte : Nat → UInt8)
    (h : History) : Prop where
  reached : ∀ k, h.reached k = st.block k
  block : ∀ a, h.written a = true → st.block (a / st.quantum) = true
  written : ∀ a, h.written a = true → byte a = st.byte a
  unwritten : ∀ a, st.block (a / st.quantum) = true → h.written a = false →
    ∃ n i, st.byte a = env.old n i ∧ byte a = old n i

theorem tracks_empty (env : Kmem) (old : Nat → Nat → UInt8) (st : Store)
    (hblock : ∀ k, st.block k = false) (byte : Nat → UInt8) : Tracks env old st byte .empty where
  reached k := (hblock k).symm
  block _ h := absurd h Bool.false_ne_true
  written _ h := absurd h Bool.false_ne_true
  unwritten a h := by
    rw [hblock] at h
    exact absurd h Bool.false_ne_true

section

variable {env : Kmem} {old : Nat → Nat → UInt8} {st : Store} {byte : Nat → UInt8} {h : History}

theorem Tracks.prepare (ht : Tracks env old st byte h) (p : Nat) :
    ∃ byte', (st.withByte byte).prepare (env.withOld old) p =
        ((st.prepare env p).1, (st.prepare env p).2.withByte byte') ∧
      Tracks env old (st.prepare env p).2 byte'
        (if (st.prepare env p).1 then h.reach (p / st.quantum) else h) := by
  obtain ⟨ok, nodes, calls, array, n, hall⟩ := Store.prepare_withOld env p st
  have hself : st.prepare env p = _ := hall env.old st.byte
  refine ⟨st.found (p / st.quantum) ok (old n) byte, ?_⟩
  rw [hall old byte, hself]
  have hw : (if ok then h.reach (p / st.quantum) else h).written = h.written := by
    cases ok <;> rfl
  refine ⟨rfl, fun k => ?_, fun a ha => ?_, fun a ha => ?_, fun a hb ha => ?_⟩
  · simp only [← ht.reached]
    cases ok <;> simp [History.reach]
  all_goals rw [hw] at ha
  · simp only [ht.block a ha, Bool.true_or]
  · have hnot : ¬(ok ∧ st.block (p / st.quantum) = false ∧ a / st.quantum = p / st.quantum) :=
      fun hnew => by
        have hb := ht.block a ha
        rw [hnew.2.2, hnew.2.1] at hb
        exact absurd hb Bool.false_ne_true
    simp only [Store.found, if_neg hnot]
    exact ht.written a ha
  · by_cases hnew : ok ∧ st.block (p / st.quantum) = false ∧ a / st.quantum = p / st.quantum
    · simp only [Store.found, if_pos hnew]
      exact ⟨n, a % st.quantum, rfl, rfl⟩
    · simp only [Store.found, if_neg hnew]
      refine ht.unwritten a ?_ ha
      by_contra hold
      rw [Bool.not_eq_true] at hold
      simp only [hold, Bool.false_or, Bool.and_eq_true, beq_iff_eq] at hb
      exact hnew ⟨hb.1, hb.2 ▸ hold, hb.2⟩

theorem Tracks.fill (ht : Tracks env old st byte h) {p : Nat} (data : List UInt8)
    (hblock : ∀ a, p ≤ a → a < p + data.length → st.block (a / st.quantum) = true) :
    Tracks env old (st.fill p data) (overlay byte p data) (h.store p data.length) := by
  have hwritten : ∀ a, (h.store p data.length).written a =
      if p ≤ a ∧ a < p + data.length then true else h.written a := fun a => by
    split
    · rename_i hin
      rw [← List.length_replicate (n := data.length) (a := true)] at hin
      exact (overlay_of_inside h.written hin).trans (List.getElem_replicate _)
    · rename_i hout
      rw [← List.length_replicate (n := data.length) (a := true)] at hout
      exact overlay_of_outside h.written hout
  refine ⟨ht.reached, fun a ha => ?_, fun a ha => ?_, fun a hb ha => ?_⟩
  · rw [hwritten] at ha
    split at ha
    · rename_i hin
      exact hblock a hin.1 hin.2
    · exact ht.block a ha
  · rw [hwritten] at ha
    simp only [Store.fill]
    split at ha
    · rename_i hin
      rw [overlay_of_inside byte hin, overlay_of_inside st.byte hin]
    · rename_i hout
      rw [overlay_of_outside byte hout, overlay_of_outside st.byte hout]
      exact ht.written a ha
  · rw [hwritten] at ha
    split at ha
    · exact absurd ha Bool.noConfusion
    · rename_i hout
      simp only [Store.fill]
      rw [overlay_of_outside byte hout, overlay_of_outside st.byte hout]
      exact ht.unwritten a hb ha

theorem Store.read_withByte (st : Store) (byte : Nat → UInt8) (len : Nat) (fault : Option Nat)
    (p : Nat) : (st.withByte byte).read len fault p = { st.read len fault p with
      bytes := if st.size ≤ p ∨ st.block (p / st.quantum) = false then []
        else (List.range (copied fault (Store.piece st.quantum p len))).map fun i =>
          byte (p + i) } := by
  by_cases hempty : st.size ≤ p ∨ st.block (p / st.quantum) = false
  · have hst : st.read len fault p = ⟨0, [], p⟩ := if_pos hempty
    rw [if_pos hempty, hst]
    exact if_pos hempty
  rw [if_neg hempty]
  by_cases hfault : copied fault (piece st.quantum p len) < piece st.quantum p len
  · have hst : st.read len fault p = ⟨-eFAULT, _, p⟩ := (if_neg hempty).trans (if_pos hfault)
    rw [hst]
    exact (if_neg hempty).trans (if_pos hfault)
  · have hst : st.read len fault p = ⟨piece st.quantum p len, _, (p + piece st.quantum p len : Nat)⟩ :=
      (if_neg hempty).trans (if_neg hfault)
    rw [hst]
    exact (if_neg hempty).trans (if_neg hfault)

/-- The two stores show a reader the same if and only if they hold the same where it looks. -/
theorem Store.read_take_iff (st : Store) (byte : Nat → UInt8) (len : Nat) (fault : Option Nat)
    (p : Nat) : (st.read len fault p).bytes.take (st.size - p) =
        ((st.withByte byte).read len fault p).bytes.take (st.size - p) ↔
      (st.block (p / st.quantum) = true → ∀ i < copied fault (Store.piece st.quantum p len),
        p + i < st.size → st.byte (p + i) = byte (p + i)) := by
  have hself := st.read_withByte st.byte len fault p
  rw [show st.withByte st.byte = st from rfl] at hself
  rw [hself, st.read_withByte byte]
  by_cases hempty : st.size ≤ p ∨ st.block (p / st.quantum) = false
  · simp only [if_pos hempty, true_iff]
    intro hb i _ hi
    rcases hempty with hle | hnone
    · omega
    · rw [hb] at hnone
      exact absurd hnone Bool.noConfusion
  · rw [not_or, Nat.not_le, Bool.not_eq_false] at hempty
    simp only [hempty.2, Nat.not_le_of_lt hempty.1, or_self, if_false, ← List.map_take,
      List.take_range, List.map_inj_left, List.mem_range, Bool.true_eq_false]
    constructor
    · exact fun h _ i hi hsize => h i (Nat.lt_min.mpr ⟨by omega, hi⟩)
    · intro h i hi
      have := Nat.lt_min.mp hi
      exact h trivial i this.2 (by omega)

section

variable {dev : DeviceDev} (ht : Tracks env old st byte h) (hsize : dev.size = st.size)
  (hquantum : dev.quantum = st.quantum)
include ht hsize hquantum

theorem Tracks.read_of_covers {p len : Nat} {fault : Option Nat}
    (hc : h.Covers dev (.deviceRead p len false fault)) :
    (st.read len fault p).bytes.take (st.size - p) =
      ((st.withByte byte).read len fault p).bytes.take (st.size - p) := by
  rw [Store.read_take_iff]
  intro hb i hi hlt
  simp only [History.Covers, hquantum, hsize, Int.toNat_natCast, ht.reached] at hc
  exact (ht.written _ (hc trivial hb i hi hlt)).symm

theorem Tracks.covers_of_read (hq : 0 < st.quantum) (hdiff : ∀ n i, env.old n i ≠ old n i)
    {p len : Nat} {fault : Option Nat}
    (heq : (st.read len fault p).bytes.take (st.size - p) =
      ((st.withByte byte).read len fault p).bytes.take (st.size - p)) :
    h.Covers dev (.deviceRead p len false fault) := by
  rw [Store.read_take_iff] at heq
  simp only [History.Covers, hquantum, hsize, Int.toNat_natCast, ht.reached]
  intro _ hb i hi hlt
  by_contra hnot
  have hle := copied_le fault (Store.piece st.quantum p len)
  have hsame := div_of_lt_piece hq (Nat.le_add_right p i)
    (Nat.add_lt_add_left (Nat.lt_of_lt_of_le hi hle) p)
  obtain ⟨n, k, h₁, h₂⟩ := ht.unwritten (p + i) (hsame.symm ▸ hb) (Bool.not_eq_true _ ▸ hnot)
  exact hdiff n k (h₁.symm.trans ((heq hb i hi hlt).trans h₂))

end

theorem Tracks.transfer (ht : Tracks env old st byte h) (buff : List UInt8) (fault : Option Nat)
    {p : Nat} (hblock : ∀ a, p ≤ a → a < p + Store.piece st.quantum p buff.length →
      st.block (a / st.quantum) = true) :
    ∃ byte', (st.withByte byte).transfer buff fault p =
        ((st.transfer buff fault p).1, (st.transfer buff fault p).2.withByte byte') ∧
      Tracks env old (st.transfer buff fault p).2 byte'
        (h.store p (Store.piece st.quantum p buff.length)) := by
  have hlength (data : List UInt8) (hdata : data.length = Store.piece st.quantum p buff.length) :
      Tracks env old (st.fill p data) (overlay byte p data)
        (h.store p (Store.piece st.quantum p buff.length)) := by
    rw [← hdata] at hblock ⊢
    exact ht.fill data hblock
  have hpiece : (buff.take (Store.piece st.quantum p buff.length)).length =
      Store.piece st.quantum p buff.length := List.length_take_of_le (piece_le p buff.length)
  by_cases hfault : copied fault (Store.piece st.quantum p buff.length) <
      Store.piece st.quantum p buff.length
  · rw [Store.transfer_fault hfault]
    exact ⟨_, Store.transfer_fault hfault, hlength _ ((length_received fault _).trans hpiece)⟩
  · rw [Store.transfer_whole hfault]
    exact ⟨_, Store.transfer_whole hfault, { hlength _ hpiece with }⟩

theorem Tracks.write (ht : Tracks env old st byte h) (hq : 0 < st.quantum) (buff : List UInt8)
    (fault : Option Nat) (p : Nat) :
    ∃ byte', (st.withByte byte).write (env.withOld old) buff fault p =
        ((st.write env buff fault p).1, (st.write env buff fault p).2.withByte byte') ∧
      Tracks env old (st.write env buff fault p).2 byte' (if (st.prepare env p).1 then
        (h.reach (p / st.quantum)).store p (Store.piece st.quantum p buff.length) else h) := by
  obtain ⟨byte', heq, ht'⟩ := ht.prepare p
  have hprep := Store.prepare_spec env p st
  simp only [Store.write, heq]
  generalize st.prepare env p = r at ht' hprep
  obtain ⟨ok, st'⟩ := r
  cases ok with
  | false => exact ⟨byte', rfl, ht'⟩
  | true =>
      have hq' : st'.quantum = st.quantum := hprep.quantum
      obtain ⟨byte'', hrun, ht''⟩ := ht'.transfer buff fault fun a hpa ha => by
        rw [div_of_lt_piece (hq'.symm ▸ hq) hpa ha, hq']
        exact hprep.block_self
      rw [hq'] at ht''
      exact ⟨byte'', hrun, ht''⟩

/-- The history a write leaves is that of the store. -/
theorem History.after_write {s : Kernel} (hs : Held s st) {p : Nat} (hp : st.item p ≤ intMax)
    (buff : List UInt8) (fault : Option Nat) :
    h.after env s (.deviceWrite p buff false fault) = if (st.prepare env p).1 then
      (h.reach (p / st.quantum)).store p (Store.piece st.quantum p buff.length) else h := by
  have hquantum : s.dev.quantum.toNat = st.quantum := by rw [hs.dev.1, Int.toNat_natCast]
  simp only [History.after, Bool.false_eq_true, false_or, hs.fails_iff env hp, hquantum, hs.clamped]
  cases (st.prepare env p).1 <;> rfl

theorem Tracks.step (ht : Tracks env old st byte h) {s : Kernel} (hs : Held s st) {c : Call}
    (hc : c.InRange s.dev) :
    ∃ byte', ((st.withByte byte).step (env.withOld old) c).2 = (st.step env c).2.withByte byte' ∧
      Tracks env old (st.step env c).2 byte' (h.after env s c) := by
  cases c with
  | deviceOpen flags signal =>
      by_cases hw : isWronly flags = true <;> cases signal
      · refine ⟨byte, by simp only [Store.step, hw]; rfl, ?_⟩
        simpa [Store.step, History.after, hw] using
          tracks_empty env old st.trim (fun _ => rfl) byte
      all_goals
        refine ⟨byte, by simp [Store.step, hw], ?_⟩
        simpa [Store.step, History.after, hw] using ht
  | deviceRead ppos len signal fault =>
      cases signal <;> exact ⟨byte, rfl, ht⟩
  | deviceWrite ppos buff signal fault =>
      cases signal with
      | true => exact ⟨byte, rfl, by simpa [Store.step, History.after] using ht⟩
      | false =>
          obtain ⟨byte', heq, ht'⟩ := ht.write hs.geometry.quantum_pos buff fault ppos
          rw [History.after_write hs (hs.item_le hc)]
          exact ⟨byte', congrArg Prod.snd heq, ht'⟩
  | deviceRelease => exact ⟨byte, rfl, ht⟩

/-- What a call shows is the same on both sides when the history covers it, and only then if the old
contents differ everywhere. -/
theorem Tracks.view (ht : Tracks env old st byte h) (hq : 0 < st.quantum) {s s' : Kernel}
    (hsize : s.dev.size = st.size) (hsize' : s'.dev.size = st.size)
    (hquantum : s.dev.quantum = st.quantum) (c : Call) :
    let o₁ := view s c (st.step env c).1
    let o₂ := view s' c ((st.withByte byte).step (env.withOld old) c).1
    (h.Covers s.dev c → o₁ = o₂) ∧
      ((∀ n i, env.old n i ≠ old n i) → o₁ = o₂ → h.Covers s.dev c) := by
  cases c with
  | deviceRead p len signal fault =>
      cases signal with
      | true => exact ⟨fun _ => by simp [Chardev.view, Store.step], fun _ _ hsig => by simp at hsig⟩
      | false =>
          have hret : ((st.withByte byte).read len fault p).ret = (st.read len fault p).ret := by
            rw [Store.read_withByte]
          simp only [Chardev.view, Store.step, hsize, hsize', Option.some.injEq, Prod.mk.injEq,
            Bool.false_eq_true, if_false, hret, true_and]
          exact ⟨fun hc => ht.read_of_covers hsize hquantum hc,
            fun hdiff heq => ht.covers_of_read hsize hquantum hq hdiff heq⟩
  | _ => exact ⟨fun _ => rfl, fun _ _ => trivial⟩

end

/-- The device with its history, and the device over other old contents. -/
def Paired (env : Kmem) (old : Nat → Nat → UInt8) (quantum : Nat) (s : Kernel × History)
    (s' : Kernel) : Prop :=
  ∃ st byte, Refined s.1 st ∧ Refined s' (st.withByte byte) ∧ st.quantum = quantum ∧
    Tracks env old st byte s.2

theorem paired_step (env : Kmem) (old : Nat → Nat → UInt8) {quantum : Nat}
    (hfits : quantum * deviceQset ≤ intMax) :
    StepsTogether (watchedStep env) (seenStep (env.withOld old)) (fun s c => c.InRange s.1.dev)
      (Paired env old quantum) fun s c o₁ o₂ => (s.2.Covers s.1.dev c → o₁ = o₂) ∧
        ((∀ n i, env.old n i ≠ old n i) → o₁ = o₂ → s.2.Covers s.1.dev c) := by
  rintro ⟨s, h⟩ s' c ⟨st, byte, hs, hs', rfl, ht⟩ hc
  have hq := hs.geometry.quantum_pos
  obtain ⟨⟨L, hL⟩, -⟩ := id hs
  obtain ⟨⟨L', hL'⟩, -⟩ := id hs'
  have hc' : c.InRange s'.dev := by
    have hdev : s'.dev.quantum = s.dev.quantum ∧ s'.dev.qset = s.dev.qset :=
      ⟨hL'.quantum.trans hL.quantum.symm, hL'.qset.trans hL.qset.symm⟩
    cases c <;> simp only [Call.InRange, hdev] <;> exact hc
  obtain ⟨t, hstep, ht₁⟩ := step_refines env hs hfits hc
  obtain ⟨t', hstep', ht₂⟩ := step_refines (env.withOld old) hs' hfits hc'
  obtain ⟨byte', heq, hnext⟩ := ht.step hs.held hc
  rw [heq] at ht₂
  refine ⟨(t, h.after env s c), view s c (st.step env c).1, t',
    view s' c ((st.withByte byte).step (env.withOld old) c).1, ?_, ?_, ?_,
    ht.view hq hL.size hL'.size hL.quantum c⟩
  · simp only [watchedStep, hstep, Except.map]
  · simp only [seenStep, hstep', Except.map]
  · exact ⟨_, byte', ht₁, ht₂, Store.step_quantum env st c, hnext⟩

theorem paired_empty (env : Kmem) (old : Nat → Nat → UInt8) {quantum qset : Nat}
    (hg : Geometry quantum qset) :
    Paired env old quantum (emptyDevice quantum qset, .empty) (emptyDevice quantum qset) :=
  ⟨.empty quantum qset, fun _ => 0, refined_empty hg, refined_empty hg, rfl,
    tracks_empty env old _ (fun _ => rfl) _⟩

theorem views_eq (env : Kmem) (quantum qset : Nat) (calls : List Call) :
    views env quantum qset calls =
      (runSteps (watchedStep env) (emptyDevice quantum qset, History.empty) calls).map Prod.snd := by
  have hstep : ∀ (s : Kernel × History) c,
      seenStep env s.1 c = (watchedStep env s c).map fun r => (r.1.1, r.2) := fun s c => by
    simp only [watchedStep, seenStep]
    cases step env s.1 c <;> rfl
  rw [views, runSteps_project hstep calls (emptyDevice quantum qset, History.empty)]
  cases runSteps (watchedStep env) (emptyDevice quantum qset, History.empty) calls <;> rfl

theorem InRange.watched {env : Kmem} {s : Kernel} {calls : List Call} (hin : InRange env s calls)
    (h : History) :
    Admissible (watchedStep env) (fun s c => c.InRange s.1.dev) (s, h) calls := by
  have hstep : ∀ (s : Kernel × History) c s' o, watchedStep env s c = .ok (s', o) →
      ∃ o', step env s.1 c = .ok (s'.1, o') := fun s c s' o hrun => by
    obtain ⟨r, hr, heq⟩ := map_eq_ok hrun
    exact ⟨r.2, hr.trans (by rw [← (Prod.mk.inj heq).1])⟩
  have hlow : Admissible (step env) (fun s c => c.InRange s.dev) (Prod.fst (s, h)) calls := hin
  exact hlow.lift hstep

/-- A run leaks nothing exactly when each of its reads covers only what was written. -/
theorem noLeak_iff (env : Kmem) {quantum qset : Nat} (hg : Geometry quantum qset)
    (hfits : quantum * deviceQset ≤ intMax) {calls : List Call}
    (hin : InRange env (emptyDevice quantum qset) calls) :
    NoLeak env quantum qset calls ↔ ReadsCovered env quantum qset calls := by
  have hpair := fun old => paired_empty env old hg
  constructor
  · rintro ⟨vs, hvs, hall⟩
    -- other old contents, different at every place
    let old : Nat → Nat → UInt8 := fun n i => if env.old n i = 0 then 1 else 0
    have hdiff : ∀ n i, env.old n i ≠ old n i := by
      intro n i
      simp only [old]
      split
      · rename_i hzero
        rw [hzero]
        decide
      · assumption
    rw [views_eq] at hvs
    obtain ⟨⟨s₁, os₁⟩, hrun₁, rfl⟩ := map_eq_ok hvs
    obtain ⟨⟨s₂, os₂⟩, hrun₂, rfl⟩ := map_eq_ok (hall old)
    exact admissible_of_agree ((paired_step env old hfits).mono
      fun _ _ _ _ hlink => hlink.2 hdiff) calls _ _ _ _ _ (hpair old) (hin.watched _) hrun₁ hrun₂
  · intro hcov
    have hagree := fun old => runSteps_agree ((paired_step env old hfits).mono
      fun _ _ _ _ hlink => hlink.1) calls _ _ (hpair old) (hin.watched _) hcov
    obtain ⟨s₁, s₂, vs, hrun, -⟩ := hagree env.old
    refine ⟨vs, by rw [views_eq, hrun]; rfl, fun old => ?_⟩
    obtain ⟨t₁, t₂, vs', hrun', hother⟩ := hagree old
    obtain rfl : vs' = vs := by
      have heq := hrun'.symm.trans hrun
      simp only [Except.ok.injEq, Prod.mk.injEq] at heq
      exact heq.2
    rw [views, hother]
    rfl

/-- Reading back what was written leaks nothing. -/
theorem noLeak_readBack :
    NoLeak (.filled 7) 4 2 [.deviceWrite 0 [1, 2] false none, .deviceRead 0 2 false none] :=
  (noLeak_iff (.filled 7) ⟨by decide, by decide, by decide⟩ (by decide) (by decide)).mpr (by decide)

/-- A write in the middle of a quantum, and a read of its start: one byte of the block's old contents. -/
theorem not_noLeak_sparse :
    views (.filled 7) 4 2 [.deviceWrite 2 [9] false none, .deviceRead 0 1 false none] =
        .ok [none, some (1, [7])] ∧
      views (.filled 5) 4 2 [.deviceWrite 2 [9] false none, .deviceRead 0 1 false none] =
        .ok [none, some (1, [5])] ∧
      ¬NoLeak (.filled 7) 4 2 [.deviceWrite 2 [9] false none, .deviceRead 0 1 false none] := by
  have h₇ : views (.filled 7) 4 2 [.deviceWrite 2 [9] false none, .deviceRead 0 1 false none] =
      .ok [none, some (1, [7])] := by decide +kernel
  have h₅ : views (.filled 5) 4 2 [.deviceWrite 2 [9] false none, .deviceRead 0 1 false none] =
      .ok [none, some (1, [5])] := by decide +kernel
  refine ⟨h₇, h₅, ?_⟩
  rintro ⟨vs, hvs, hall⟩
  have heq := (hvs.symm.trans h₇).symm.trans ((hall fun _ _ => 5).symm.trans h₅)
  exact absurd heq (by decide)

end CharDriver.Chardev
