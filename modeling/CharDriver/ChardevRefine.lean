import CharDriver.ChardevOffsets

/-! The device while the offsets stay in the exact range of `int item`. Then no offset is wrapped, and
the nodes of the list cover every offset below the size: each call, on a state that represents a
store, gives the store's reply and leaves a state that represents the store after the call. -/

namespace CharDriver.Chardev

open Base

/-- The kernel state represents the store, and its nodes cover the data. -/
structure Refines (s : Kernel) (st : Store) (L : Layout) : Prop where
  heap : Represents s.heap L st.quantum st.qset st.byte
  data : s.dev.data = L.nodes[0]?
  quantum : s.dev.quantum = st.quantum
  qset : s.dev.qset = st.qset
  size : s.dev.size = st.size
  calls : s.heap.calls = st.calls
  nodes : L.nodes.length = st.nodes
  array : ∀ i, (L.arr i).isSome = st.array i
  block : ∀ k, (L.blk k).isSome = st.block k
  geometry : Geometry st.quantum st.qset
  size_le : st.size ≤ st.nodes * (st.quantum * st.qset)

section

variable (env : Kmem) {s : Kernel} {st : Store} {L : Layout}

theorem Refines.backs (hs : Refines s st L) : Backs s.heap s.dev.data st L := { hs with }

theorem Refines.holds (hs : Refines s st L) : Holds s st L :=
  ⟨hs.backs, hs.quantum, hs.qset, hs.size⟩

theorem Holds.refines (hs : Holds s st L) (hsize : st.size ≤ st.nodes * (st.quantum * st.qset)) :
    Refines s st L :=
  { hs.backs with quantum := hs.quantum, qset := hs.qset, size := hs.size, size_le := hsize }

theorem Refines.isList (hs : Refines s st L) : IsList s.heap s.dev.data L.list := hs.backs.isList

theorem offset_lt {quantum qset p : Nat} (hg : Geometry quantum qset)
    (hp : p / (quantum * qset) ≤ intMax) : p < 2 ^ 62 := by
  have hpos : 0 < quantum * qset := Nat.mul_pos hg.quantum_pos hg.qset_pos
  have hdiv := Nat.div_add_mod p (quantum * qset)
  have hmod := Nat.mod_lt p hpos
  calc p < quantum * qset * (p / (quantum * qset)) + quantum * qset := by omega
    _ ≤ intMax * intMax + intMax :=
        Nat.add_le_add (Nat.mul_le_mul hg.fits hp) hg.fits
    _ < 2 ^ 62 := by decide

theorem locate_store (hg : Geometry st.quantum st.qset) {p : Nat} (hp : st.item p ≤ intMax) :
    locate st.quantum (toInt ((st.quantum : Int) * st.qset)) p =
      .ok ⟨st.item p, (p / st.quantum % st.qset : Nat), (p % st.quantum : Nat)⟩ := by
  have hmax := offset_lt hg hp
  rw [locate_spec hg (by omega), ← Store.item, toInt_natCast hp]

/-- An offset below the size lies in a node of the list. -/
theorem Refines.item_lt (hs : Refines s st L) {p : Nat} (hp : p < st.size) : st.item p < st.nodes := by
  apply Nat.div_lt_of_lt_mul
  rw [Nat.mul_comm]
  exact Nat.lt_of_lt_of_le hp hs.size_le

theorem Store.wrapped_of_fits {p : Nat} (hp : st.item p ≤ intMax) : st.wrapped p = p := by
  have hmax : intMax < 2 ^ 32 := by decide
  exact Store.wrapped_of_lt (by omega)

theorem Store.readAt_of_fits (hg : Geometry st.quantum st.qset) {p : Nat} (hp : st.item p ≤ intMax)
    (len : Nat) (fault : Option Nat) : st.readAt len fault p = st.read len fault p := by
  have hp62 := offset_lt hg hp
  have hmax := piece_le_intMax hg p len
  have hint : intMax < 2 ^ 31 := by decide
  simp only [Store.readAt, Store.read, Store.wrapped_of_fits hp]
  rw [← Int.natCast_add, toLong_natCast (by omega)]

theorem Store.writeAt_of_fits (hg : Geometry st.quantum st.qset) {p : Nat} (hp : st.item p ≤ intMax)
    (buff : List UInt8) (fault : Option Nat) :
    st.writeAt env buff fault p = st.write env buff fault p := by
  have hp62 := offset_lt hg hp
  have hprep := Store.prepare_spec env p st
  rw [Store.writeAt, Store.write, Store.wrapped_of_fits hp]
  generalize st.prepare env p = r at hprep
  obtain ⟨ok, st'⟩ := r
  simp only at hprep
  cases ok with
  | false => rfl
  | true =>
      have hitem : st'.item p = st.item p := by rw [Store.item, hprep.quantum, hprep.qset, Store.item]
      have hmax := piece_le_intMax hg p buff.length
      have hint : intMax < 2 ^ 31 := by decide
      rw [← hprep.quantum] at hmax
      simp only [Store.transferAt, Store.transfer, Store.wrapped_of_fits (hitem ▸ hp)]
      rw [← Int.natCast_add, toLong_natCast (by omega)]

/-- Below the end of the data the node exists, so a read allocates nothing. -/
theorem Refines.walk (hs : Refines s st L) {p : Nat} (hp : st.item p ≤ intMax) :
    st.walk env p = st := by
  have hmax : intMax < 2 ^ 32 := by decide
  rw [Store.walk]
  split
  · rfl
  · rename_i hsize
    rw [Nat.mod_eq_of_lt (by omega), Store.follow_of_lt env (hs.item_lt (Nat.lt_of_not_le hsize))]

/-- `device_read` gives the store's reply and leaves the kernel state exactly as it was. -/
theorem deviceReadBody_refines (hs : Refines s st L) {p : Nat} (hp : st.item p ≤ intMax)
    (len : Nat) (fault : Option Nat) :
    deviceReadBody env st.quantum (toInt ((st.quantum : Int) * st.qset)) len fault p s =
      .ok (st.read len fault p, s) := by
  have hp62 := offset_lt hs.geometry hp
  obtain ⟨s', L', hrun, -, -, hsame⟩ := deviceReadBody_holds env hs.holds (p := p) (by omega) len fault
  rw [Store.wrapped_of_fits hp] at hsame
  obtain rfl := hsame ((Nat.lt_or_ge p st.size).symm.imp_right hs.item_lt)
  rw [hrun, Store.readAt_of_fits hs.geometry hp]

/-- A piece written into a node that exists ends inside the node. -/
theorem piece_end_le (hg : Geometry st.quantum st.qset) {p : Nat} (hnode : st.item p < st.nodes)
    (len : Nat) : p + Store.piece st.quantum p len ≤ st.nodes * (st.quantum * st.qset) := by
  have hpiece := mod_add_piece_le hg.quantum_pos p len
  have hdiv := Nat.div_add_mod p st.quantum
  have hslot : p / st.quantum < st.nodes * st.qset := by
    rw [← Nat.div_lt_iff_lt_mul hg.qset_pos, item_eq]
    exact hnode
  calc p + Store.piece st.quantum p len
      ≤ st.quantum * (p / st.quantum + 1) := by rw [Nat.mul_succ]; omega
    _ ≤ st.quantum * (st.nodes * st.qset) := Nat.mul_le_mul_left _ hslot
    _ = st.nodes * (st.quantum * st.qset) := Nat.mul_left_comm _ _ _

/-- A write takes no node away, and one that could allocate has its node. -/
theorem Store.prepare_nodes (env : Kmem) (p : Nat) (st : Store) :
    st.nodes ≤ (st.prepare env p).2.nodes ∧
      ((st.prepare env p).1 = true → st.item p < (st.prepare env p).2.nodes) := by
  have hmono : st.nodes ≤ (st.follow env (st.item p)).2.nodes :=
    (Store.grow_spec env (st.item p + 1 - st.nodes) st.nodes st.calls).1
  have hlong := Store.follow_spec env (st.item p) st
  unfold Store.prepare
  generalize st.follow env (st.item p) = f at hmono hlong
  obtain ⟨ok, st₁⟩ := f
  cases ok with
  | false => exact ⟨hmono, by simp⟩
  | true =>
      have hkeep := (Store.ensureArray_spec env (st.item p) st₁).2.2
      simp only at hmono ⊢
      generalize st₁.ensureArray env (st.item p) = f at hkeep
      obtain ⟨ok, st₂⟩ := f
      simp only at hkeep
      cases ok with
      | false => exact ⟨Nat.le_trans hmono (Nat.le_of_eq hkeep.symm), by simp⟩
      | true =>
          simp only
          rw [(Store.ensureBlock_spec env (p / st.quantum) st₂).2.2, hkeep]
          exact ⟨hmono, fun _ => hlong rfl⟩

/-- A write in range ends in a node of the list. -/
theorem Store.write_covered (hg : Geometry st.quantum st.qset) {p : Nat}
    (hsize : st.size ≤ st.nodes * (st.quantum * st.qset)) (buff : List UInt8) (fault : Option Nat) :
    (st.write env buff fault p).2.size ≤ (st.write env buff fault p).2.nodes *
      ((st.write env buff fault p).2.quantum * (st.write env buff fault p).2.qset) := by
  have hprep := Store.prepare_spec env p st
  obtain ⟨hnodes, hfound⟩ := Store.prepare_nodes env p st
  rw [Store.write]
  generalize st.prepare env p = r at hprep hnodes hfound
  obtain ⟨ok, st'⟩ := r
  simp only at hprep hnodes hfound
  have hsize' : st'.size ≤ st'.nodes * (st'.quantum * st'.qset) := by
    rw [hprep.size, hprep.quantum, hprep.qset]
    exact Nat.le_trans hsize (Nat.mul_le_mul_right _ hnodes)
  cases ok with
  | false => exact hsize'
  | true =>
      have hg' : Geometry st'.quantum st'.qset := by rwa [hprep.quantum, hprep.qset]
      have hitem : st'.item p = st.item p := by rw [Store.item, hprep.quantum, hprep.qset, Store.item]
      simp only [Store.transfer]
      split
      · exact hsize'
      · exact Nat.max_le.mpr ⟨hsize', piece_end_le hg' (hitem ▸ hfound rfl) buff.length⟩

/-- The kernel state represents the store and no call is in progress. -/
def Refined (s : Kernel) (st : Store) : Prop := (∃ L, Refines s st L) ∧ s.dev.sem = 1

theorem Refined.held (hs : Refined s st) : Held s st := by
  obtain ⟨⟨L, hL⟩, hsem⟩ := hs
  exact ⟨⟨L, hL.holds⟩, hsem⟩

theorem Held.refined (hs : Held s st) (hsize : st.size ≤ st.nodes * (st.quantum * st.qset)) :
    Refined s st := by
  obtain ⟨⟨L, hL⟩, hsem⟩ := hs
  exact ⟨⟨L, hL.refines hsize⟩, hsem⟩

theorem refined_empty {quantum qset : Nat} (hg : Geometry quantum qset) :
    Refined (emptyDevice quantum qset) (Store.empty quantum qset) :=
  (held_empty hg).refined (Nat.zero_le _)

theorem Refined.geometry (hs : Refined s st) : Geometry st.quantum st.qset := by
  obtain ⟨⟨L, hL⟩, -⟩ := hs
  exact hL.geometry

theorem Refined.size_le (hs : Refined s st) : st.size ≤ st.nodes * (st.quantum * st.qset) := by
  obtain ⟨⟨L, hL⟩, -⟩ := hs
  exact hL.size_le

theorem deviceRead_refines (hs : Refined s st) {p : Nat} (hp : st.item p ≤ intMax) (len : Nat)
    (fault : Option Nat) :
    ∃ s', deviceRead env len false fault p s = .ok (st.read len fault p, s') ∧ Refined s' st := by
  obtain ⟨⟨L, hL⟩, -⟩ := id hs
  have hp62 := offset_lt hL.geometry hp
  obtain ⟨s', hrun, hs'⟩ := deviceRead_held env hs.held (p := p) (by omega) len fault
  rw [Store.readAt_of_fits hL.geometry hp] at hrun
  rw [hL.walk env hp] at hs'
  exact ⟨s', hrun, hs'.refined hL.size_le⟩

/-- At the end of the data a read returns before it looks at the list. -/
theorem deviceRead_eof (hs : Refined s st) {p : Nat} (hp : st.size ≤ p) (hmax : p < 2 ^ 64)
    (len : Nat) (fault : Option Nat) :
    ∃ s', deviceRead env len false fault p s = .ok (⟨0, [], p⟩, s') ∧ Refined s' st := by
  have hbody : ∀ s₀ L₀, Holds s₀ st L₀ → ∃ s' L', deviceReadBody env (loadGeometry s.dev).quantum
      (loadGeometry s.dev).itemsize len fault p s₀ = .ok (⟨0, [], p⟩, s') ∧ Holds s' st L' ∧
      s'.dev.sem = s₀.dev.sem := by
    intro s₀ L₀ h₀
    refine ⟨s₀, L₀, ?_, h₀, rfl⟩
    rw [deviceReadBody, if_pos]
    rwa [h₀.size, toULong_natCast hmax]
  obtain ⟨s', hrun, hs'⟩ := locked_held hs.held p hbody
  exact ⟨s', hrun, hs'.refined hs.size_le⟩

theorem deviceWrite_refines (hs : Refined s st) {p : Nat} (hp : st.item p ≤ intMax)
    (buff : List UInt8) (fault : Option Nat) :
    ∃ s', deviceWrite env buff false fault p s = .ok ((st.write env buff fault p).1, s') ∧
      Refined s' (st.write env buff fault p).2 := by
  have hp62 := offset_lt hs.geometry hp
  obtain ⟨s', hrun, hs'⟩ := deviceWrite_held env hs.held (p := p) (by omega) buff fault
  rw [Store.writeAt_of_fits env hs.geometry hp] at hrun hs'
  exact ⟨s', hrun, hs'.refined (Store.write_covered env hs.geometry hs.size_le buff fault)⟩

theorem deviceOpen_refines (hs : Refined s st) (hfits : st.quantum * deviceQset ≤ intMax)
    {flags : UInt32} (hw : isWronly flags = true) :
    ∃ s', deviceOpen flags false s = .ok (⟨0, [], 0⟩, s') ∧ Refined s' st.trim := by
  obtain ⟨s', hrun, hs'⟩ := deviceOpen_held hs.held hfits hw
  exact ⟨s', hrun, hs'.refined (Nat.zero_le _)⟩

theorem Call.item_le (hs : Refines s st L) {p : Nat}
    (hp : (p : Int) / (s.dev.quantum * s.dev.qset) ≤ intMax) : st.item p ≤ intMax := by
  rw [hs.quantum, hs.qset] at hp
  rw [Store.item]
  exact_mod_cast hp

/-- One call, made while no other is in progress. -/
theorem step_refines (hs : Refined s st) (hfits : st.quantum * deviceQset ≤ intMax) {c : Call}
    (hc : c.InRange s.dev) :
    ∃ s', step env s c = .ok (s', (st.step env c).1) ∧ Refined s' (st.step env c).2 := by
  obtain ⟨⟨L, hL⟩, -⟩ := id hs
  cases c with
  | deviceOpen flags signal =>
      by_cases hw : isWronly flags = true
      · cases signal with
        | true =>
            refine ⟨s, ?_, ?_⟩ <;> simp [step, deviceOpen, Store.step, hw, locked_signal, hs]
            rfl
        | false =>
            obtain ⟨s', hrun, hs'⟩ := deviceOpen_refines hs hfits hw
            refine ⟨s', ?_, ?_⟩ <;> simp [step, Store.step, hw, hrun, hs']
            rfl
      · refine ⟨s, ?_, ?_⟩ <;> simp [step, deviceOpen, Store.step, hw, hs]
        rfl
  | deviceRead ppos len signal fault =>
      cases signal with
      | true =>
          refine ⟨s, ?_, hs⟩
          rw [step, deviceRead, deviceReadLocked, locked_signal]
          rfl
      | false =>
          obtain ⟨s', hrun, hs'⟩ := deviceRead_refines env hs (Call.item_le hL hc) len fault
          refine ⟨s', ?_, hs'⟩
          rw [step, hrun]
          rfl
  | deviceWrite ppos buff signal fault =>
      cases signal with
      | true =>
          refine ⟨s, ?_, hs⟩
          rw [step, deviceWrite, deviceWriteLocked, locked_signal]
          rfl
      | false =>
          obtain ⟨s', hrun, hs'⟩ := deviceWrite_refines env hs (Call.item_le hL hc) buff fault
          refine ⟨s', ?_, hs'⟩
          rw [step, hrun]
          rfl
  | deviceRelease => exact ⟨s, rfl, hs⟩

/-- A run from the empty device goes through, and leaves a device that is in order. -/
theorem run_refined {quantum qset : Nat} (hg : Geometry quantum qset)
    (hfits : quantum * deviceQset ≤ intMax) {calls : List Call}
    (hin : InRange env (emptyDevice quantum qset) calls) :
    ∃ s rs st, run env (emptyDevice quantum qset) calls = .ok (s, rs) ∧ Refined s st := by
  obtain ⟨s, rs, hrun, st, hs, -⟩ := runSteps_invariant
    (fun s => ∃ st, Refined s st ∧ st.quantum = quantum)
    (fun s c ⟨st, hs, hq⟩ hc => by
      obtain ⟨s', hstep, hs'⟩ := step_refines env hs (hq ▸ hfits) hc
      exact ⟨s', _, hstep, _, hs', (Store.step_quantum env st c).trans hq⟩)
    ⟨_, refined_empty hg, rfl⟩ hin
  exact ⟨s, rs, st, hrun, hs⟩

end

end CharDriver.Chardev
