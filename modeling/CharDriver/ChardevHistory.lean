import CharDriver.ChardevInvisible
import CharDriver.ChardevReadOnly

/-! What the device remembers of the calls made to it. An open for writing only that gets the
semaphore makes it forget all of them: from then on it answers as a new device, for which the
allocator goes on where it was. Of the other calls only the writes that get the semaphore leave
anything behind: without the rest the same device is reached, with the same replies. -/

namespace CharDriver.Chardev

open Base

/-- The choices of the allocator from its `n`-th call on. -/
def Kmem.after (env : Kmem) (n : Nat) : Kmem :=
  ⟨fun i => env.fails (n + i), fun i => env.old (n + i)⟩

namespace Store

/-- The first store made `n` allocation calls more. -/
structure Alike (n : Nat) (st st' : Store) : Prop extends Akin st st' where
  calls : st.calls = n + st'.calls
  nodes : st.nodes = st'.nodes
  array : st.array = st'.array

section

variable (env : Kmem) {n : Nat} {st st' : Store}

theorem grow_after (n missing nodes calls : Nat) :
    grow env missing nodes (n + calls) =
      ((grow (env.after n) missing nodes calls).1, (grow (env.after n) missing nodes calls).2.1,
        n + (grow (env.after n) missing nodes calls).2.2) := by
  induction missing generalizing nodes calls with
  | zero => rfl
  | succ missing ih =>
      have hfails : (env.after n).fails calls = env.fails (n + calls) := rfl
      rw [grow, grow, hfails]
      split
      · rfl
      · exact ih (nodes + 1) (calls + 1)

theorem Alike.follow (h : Alike n st st') (i : Nat) :
    (st.follow env i).1 = (st'.follow (env.after n) i).1 ∧
      Alike n (st.follow env i).2 (st'.follow (env.after n) i).2 := by
  simp only [Store.follow, h.nodes, h.calls, grow_after, true_and]
  exact { h with calls := rfl, nodes := rfl }

theorem Alike.ensureArray (h : Alike n st st') (i : Nat) :
    (st.ensureArray env i).1 = (st'.ensureArray (env.after n) i).1 ∧
      Alike n (st.ensureArray env i).2 (st'.ensureArray (env.after n) i).2 := by
  have hfails : (env.after n).fails st'.calls = env.fails (n + st'.calls) := rfl
  simp only [Store.ensureArray, h.array, h.calls, hfails]
  split
  · exact ⟨rfl, h⟩
  · split
    · exact ⟨rfl, { h with calls := Nat.add_assoc n _ 1, array := rfl }⟩
    · exact ⟨rfl, { h with calls := Nat.add_assoc n _ 1, array := rfl }⟩

theorem Alike.ensureBlock (h : Alike n st st') (k : Nat) :
    (st.ensureBlock env k).1 = (st'.ensureBlock (env.after n) k).1 ∧
      Alike n (st.ensureBlock env k).2 (st'.ensureBlock (env.after n) k).2 := by
  have hfails : (env.after n).fails st'.calls = env.fails (n + st'.calls) := rfl
  simp only [Store.ensureBlock, h.block, h.calls, hfails]
  split
  · exact ⟨rfl, h⟩
  split
  · exact ⟨rfl, { h with calls := Nat.add_assoc n _ 1, block := rfl }⟩
  · refine ⟨rfl, { h with calls := Nat.add_assoc n _ 1, block := rfl, byte := fun a ha => ?_ }⟩
    simp only [h.quantum] at ha ⊢
    by_cases hk : a / st'.quantum = k
    · rw [if_pos hk, if_pos hk]
      rfl
    · rw [if_neg hk, if_neg hk]
      exact h.byte a (by rwa [Function.update_of_ne hk] at ha)

theorem Alike.prepare (h : Alike n st st') (p : Nat) :
    (st.prepare env p).1 = (st'.prepare (env.after n) p).1 ∧
      Alike n (st.prepare env p).2 (st'.prepare (env.after n) p).2 := by
  obtain ⟨hok, h₁⟩ := h.follow env (st'.item p)
  unfold Store.prepare
  rw [h.toAkin.item]
  generalize st.follow env (st'.item p) = f at hok h₁
  generalize st'.follow (env.after n) (st'.item p) = f' at hok h₁
  obtain ⟨ok, st₁⟩ := f
  obtain ⟨ok', st₁'⟩ := f'
  obtain rfl : ok = ok' := hok
  cases ok with
  | false => exact ⟨rfl, h₁⟩
  | true =>
      obtain ⟨hok, h₂⟩ := h₁.ensureArray env (st'.item p)
      simp only at hok h₂ ⊢
      generalize st₁.ensureArray env (st'.item p) = f at hok h₂
      generalize st₁'.ensureArray (env.after n) (st'.item p) = f' at hok h₂
      obtain ⟨ok, st₂⟩ := f
      obtain ⟨ok', st₂'⟩ := f'
      obtain rfl : ok = ok' := hok
      cases ok with
      | false => exact ⟨rfl, h₂⟩
      | true =>
          simp only [h.quantum]
          exact h₂.ensureBlock env (p / st'.quantum)

theorem Alike.transferAt (h : Alike n st st') (buff : List UInt8) (fault : Option Nat) (p : Nat) :
    (st.transferAt buff fault p).1 = (st'.transferAt buff fault p).1 ∧
      Alike n (st.transferAt buff fault p).2 (st'.transferAt buff fault p).2 := by
  obtain ⟨hreply, hakin⟩ := h.toAkin.transferAt buff fault p
  refine ⟨hreply, { hakin with calls := ?_, nodes := ?_, array := ?_ }⟩
  all_goals
    simp only [Store.transferAt, h.quantum]
    split
  · exact h.calls
  · exact h.calls
  · exact h.nodes
  · exact h.nodes
  · exact h.array
  · exact h.array

theorem Alike.writeAt (h : Alike n st st') (buff : List UInt8) (fault : Option Nat) (p : Nat) :
    (st.writeAt env buff fault p).1 = (st'.writeAt (env.after n) buff fault p).1 ∧
      Alike n (st.writeAt env buff fault p).2 (st'.writeAt (env.after n) buff fault p).2 := by
  obtain ⟨hok, h₁⟩ := h.prepare env (st'.wrapped p)
  unfold Store.writeAt
  rw [h.toAkin.wrapped]
  generalize st.prepare env (st'.wrapped p) = f at hok h₁
  generalize st'.prepare (env.after n) (st'.wrapped p) = f' at hok h₁
  obtain ⟨ok, st₁⟩ := f
  obtain ⟨ok', st₁'⟩ := f'
  obtain rfl : ok = ok' := hok
  cases ok with
  | false => exact ⟨rfl, h₁⟩
  | true => exact h₁.transferAt buff fault p

theorem Alike.walk (h : Alike n st st') (p : Nat) :
    Alike n (st.walk env p) (st'.walk (env.after n) p) := by
  unfold Store.walk
  rw [h.size, h.toAkin.item]
  split
  · exact h
  · exact (h.follow env _).2

theorem Alike.trim (h : Alike n st st') : Alike n st.trim st'.trim :=
  { h.toAkin.trim with calls := h.calls, nodes := rfl, array := rfl }

theorem Alike.stepAt (h : Alike n st st') (hq : 0 < st'.quantum) (c : Call) :
    (st.stepAt env c).1 = (st'.stepAt (env.after n) c).1 ∧
      Alike n (st.stepAt env c).2 (st'.stepAt (env.after n) c).2 := by
  cases c with
  | deviceOpen flags signal =>
      simp only [Store.stepAt, Store.step]
      split
      · split
        · exact ⟨rfl, h⟩
        · exact ⟨rfl, h.trim⟩
      · exact ⟨rfl, h⟩
  | deviceRead ppos len signal fault =>
      simp only [Store.stepAt]
      split
      · exact ⟨rfl, h⟩
      · exact ⟨h.toAkin.readAt hq len fault ppos, h.walk env ppos⟩
  | deviceWrite ppos buff signal fault =>
      simp only [Store.stepAt]
      split
      · exact ⟨rfl, h⟩
      · exact h.writeAt env buff fault ppos
  | deviceRelease => exact ⟨rfl, h⟩

end

/-- A store that was just trimmed is like a new one. -/
theorem alike_trim (st : Store) : Alike st.calls st.trim (empty st.quantum deviceQset) where
  quantum := rfl
  qset := rfl
  size := rfl
  calls := rfl
  nodes := rfl
  array := rfl
  block := rfl
  byte _ h := absurd h Bool.false_ne_true

end Store

section

variable (env : Kmem) {s : Kernel} {st : Store}

def HeldAlike (n quantum : Nat) (s s' : Kernel) : Prop :=
  ∃ st st', Held s st ∧ Held s' st' ∧ st.Alike n st' ∧ st'.quantum = quantum

theorem stepsTogether_alike {n quantum : Nat} (hfits : quantum * deviceQset ≤ intMax) :
    StepsTogether (Chardev.step env) (Chardev.step (env.after n)) (fun _ c => c.Offset)
      (HeldAlike n quantum) fun _ _ r r' => True → r = r' := by
  rintro s s' c ⟨st, st', hs, hs', hlike, rfl⟩ hc
  obtain ⟨hreply, hlike'⟩ := hlike.stepAt env hs'.geometry.quantum_pos c
  have hfits' : (st'.quantum : Int) * deviceQset ≤ intMax := by exact_mod_cast hfits
  obtain ⟨s₁, hrun, h₁⟩ := hs.step env (hc.keeps (by rwa [hs.dev.1, hlike.quantum]))
  obtain ⟨s₁', hrun', h₁'⟩ := hs'.step (env.after n) (hc.keeps (by rwa [hs'.dev.1]))
  exact ⟨s₁, _, s₁', _, hrun, hrun',
    ⟨_, _, h₁, h₁', hlike', Store.stepAt_quantum (env.after n) st' c⟩, fun _ => hreply⟩

/-- Devices whose stores are alike give the same answers to the same calls. -/
theorem run_alike {n quantum : Nat} (hfits : quantum * deviceQset ≤ intMax) {calls : List Call}
    (hcalls : ∀ c ∈ calls, c.Offset) {s s' : Kernel} (hs : HeldAlike n quantum s s') :
    ∃ s₁ s₁' rs, run env s calls = .ok (s₁, rs) ∧ run (env.after n) s' calls = .ok (s₁', rs) :=
  runSteps_agree (stepsTogether_alike env hfits) calls s s' hs (admissible_of_forall s hcalls)
    (admissible_of_forall s fun _ _ => trivial)

/-- A truncating open goes through, and to the calls after it the device gives the answers of a new
one that lists `device_qset` quanta in an item. -/
def Forgets (s : Kernel) (flags : UInt32) (calls : List Call) : Prop :=
  ∃ s₁ s₂ rs, run env s (.deviceOpen flags false :: calls) = .ok (s₁, ⟨0, [], 0⟩ :: rs) ∧
    run (env.after s.heap.calls) (emptyDevice s.dev.quantum.toNat deviceQset) calls = .ok (s₂, rs)

/-- Whatever calls led to the state, a truncating open makes the device forget them. What the device
held before comes back only as far as the allocator hands out blocks with old contents. -/
theorem open_forgets (hs : Reachable s) (hfits : s.dev.quantum * deviceQset ≤ intMax)
    {flags : UInt32} (hw : isWronly flags = true) {calls : List Call}
    (hcalls : ∀ c ∈ calls, c.Offset) : Forgets env s flags calls := by
  obtain ⟨st, hst⟩ := hs.held
  have hfits' : st.quantum * deviceQset ≤ intMax := by
    rw [hst.dev.1] at hfits
    exact_mod_cast hfits
  have hempty : Geometry st.quantum deviceQset :=
    ⟨hst.geometry.quantum_pos, deviceQset_pos, hfits'⟩
  obtain ⟨s₀, hopen, h₀⟩ := hst.step env (c := .deviceOpen flags false) fun _ => hfits
  obtain ⟨s₁, s₂, rs, hrun, hrun'⟩ := run_alike env hfits' hcalls
    ⟨_, _, h₀, held_empty hempty, by simpa [Store.stepAt, Store.step, hw] using st.alike_trim, rfl⟩
  refine ⟨s₁, s₂, rs, runSteps_cons_ok ?_ calls hrun, ?_⟩
  · simpa [Store.stepAt, Store.step, hw] using hopen
  · rwa [hst.calls, hst.dev.1, Int.toNat_natCast]

end

/-- A device with a hole, opened for writing only, then read, written and read again. -/
theorem holed_forgets : Forgets (.filled 7) holed 1
    [.deviceRead 8 4 false none, .deviceWrite 9 [5] false none, .deviceRead 8 4 false none] :=
  open_forgets _ reachable_holed (by decide) (by decide) (by decide)

/-! ### Calls that leave nothing behind -/

/-- The calls that can change the device: a write or a truncating open that gets the semaphore. -/
def Call.acts : Call → Bool
  | .deviceOpen flags signal => isWronly flags && !signal
  | .deviceWrite _ _ signal _ => !signal
  | _ => false

def repliesToActs (calls : List Call) (rs : List Reply) : List Reply :=
  trace (fun c r => if c.acts then some r else none) calls rs

/-- The run goes through, and without the calls that cannot change the device it ends in the same
state and answers the calls that are left in the same way. -/
def ErasesIdle (env : Kmem) (quantum qset : Nat) (calls : List Call) : Prop :=
  ∃ s rs, run env (emptyDevice quantum qset) calls = .ok (s, rs) ∧
    run env (emptyDevice quantum qset) (calls.filter Call.acts) = .ok (s, repliesToActs calls rs)

/-- Such a call changes neither the heap nor the device. -/
theorem step_idle (env : Kmem) {s : Kernel} {st : Store} (hs : Refined s st) {c : Call}
    (hc : c.InRange s.dev) (hidle : c.acts = false) : ∃ r, step env s c = .ok (s, r) := by
  cases c with
  | deviceOpen flags signal =>
      by_cases hw : isWronly flags = true
      · obtain rfl : signal = true := by simpa [Call.acts, hw] using hidle
        exact ⟨_, by simp [step, deviceOpen, hw, locked_signal]; rfl⟩
      · exact ⟨_, by simp [step, deviceOpen, hw]; rfl⟩
  | deviceRead ppos len signal fault =>
      cases signal with
      | true => exact ⟨_, by rw [step, deviceRead, deviceReadLocked, locked_signal]; rfl⟩
      | false =>
          obtain ⟨⟨L, hL⟩, -⟩ := id hs
          exact ⟨_, by rw [step, deviceRead_same env hs (Call.item_le hL hc)]; rfl⟩
  | deviceWrite ppos buff signal fault =>
      obtain rfl : signal = true := by simpa [Call.acts] using hidle
      exact ⟨_, by rw [step, deviceWrite, deviceWriteLocked, locked_signal]; rfl⟩
  | deviceRelease => exact ⟨_, rfl⟩

/-- Reads, signals and opens that do not truncate can be left out of every run over offsets in range,
whatever allocations and copies fail in it. -/
theorem run_erasesIdle (env : Kmem) {quantum qset : Nat} (hg : Geometry quantum qset)
    (hfits : quantum * deviceQset ≤ intMax) {calls : List Call}
    (hin : InRange env (emptyDevice quantum qset) calls) : ErasesIdle env quantum qset calls := by
  refine runSteps_filter (fun s => ∃ st, Refined s st ∧ st.quantum = quantum) ?_ calls _
    ⟨_, refined_empty hg, rfl⟩ hin
  rintro s c ⟨st, hs, rfl⟩ hc
  obtain ⟨s', hstep, hs'⟩ := step_refines env hs hfits hc
  refine ⟨s', _, hstep, ⟨_, hs', Store.step_quantum env st c⟩, fun hidle => ?_⟩
  obtain ⟨r, hsame⟩ := step_idle env hs hc hidle
  exact (Prod.mk.inj (Except.ok.inj (hstep.symm.trans hsame))).1

/-- A failed and an interrupted write, with reads and opens between them. -/
theorem erasesIdle_mixed : ErasesIdle ⟨fun n => n == 2, fun _ _ => 0⟩ 4 2
    [.deviceWrite 0 [1] false none, .deviceRead 0 4 false none, .deviceOpen 0 false,
      .deviceWrite 0 [2, 3] false none, .deviceWrite 1 [4] true none, .deviceRead 0 4 false (some 1),
      .deviceOpen 1 false, .deviceRead 0 4 false none] :=
  run_erasesIdle _ ⟨by decide, by decide, by decide⟩ (by decide) (by decide)

end CharDriver.Chardev
