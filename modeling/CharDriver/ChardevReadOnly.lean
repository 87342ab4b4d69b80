import CharDriver.ChardevRefine

/-! Reads leave the device alone. `device_read` walks the list with the function that extends it, so
that a read changes nothing rests on an invariant between the size and the length of the list: the
nodes that are there cover every offset below the size. -/

namespace CharDriver.Chardev

open Base

/-- The nodes of the list cover the data, and a read, with whatever allocator, finds its node and
leaves every block and every field as it was. -/
structure ReadOnly (s : Kernel) : Prop where
  covered : ∃ l, IsList s.heap s.dev.data l ∧
    (s.dev.size : Int) ≤ l.length * (s.dev.quantum * s.dev.qset)
  follow : ∀ (env : Kmem) (p : Nat), (p : Int) / (s.dev.quantum * s.dev.qset) ≤ intMax →
    ¬s.dev.size ≤ toULong p → ∃ place a,
      locate s.dev.quantum (toInt (s.dev.quantum * s.dev.qset)) p = .ok place ∧
      deviceFollow env place.item s = .ok (some a, s)
  read : ∀ (env : Kmem) (p len : Nat) (signal : Bool) (fault : Option Nat),
    (Call.deviceRead p len signal fault).InRange s.dev → ∃ r,
      step env s (.deviceRead p len signal fault) = .ok (s, r) ∧ r.ret ≠ -eNOMEM

section

variable (env : Kmem) {s : Kernel} {st : Store} {L : Layout}

theorem Refines.covered (hs : Refines s st L) : ∃ l, IsList s.heap s.dev.data l ∧
    (s.dev.size : Int) ≤ l.length * (s.dev.quantum * s.dev.qset) := by
  refine ⟨L.list, hs.isList, ?_⟩
  rw [Layout.length_list, hs.nodes, hs.size, hs.quantum, hs.qset]
  exact_mod_cast hs.size_le

theorem Refines.follow_of_lt (hs : Refines s st L) {p : Nat}
    (hp : (p : Int) / (s.dev.quantum * s.dev.qset) ≤ intMax) (hsize : ¬s.dev.size ≤ toULong p) :
    ∃ place a, locate s.dev.quantum (toInt (s.dev.quantum * s.dev.qset)) p = .ok place ∧
      deviceFollow env place.item s = .ok (some a, s) := by
  have hitem := Call.item_le hs hp
  have hmax := offset_lt hs.geometry hitem
  rw [hs.size, toULong_natCast (by omega)] at hsize
  have hnode := hs.item_lt (Nat.lt_of_not_le hsize)
  obtain ⟨a, ha⟩ : ∃ a, L.nodes[st.item p]? = some a :=
    ⟨_, List.getElem?_eq_getElem (hs.nodes.symm ▸ hnode)⟩
  have hfollow := deviceFollow_of_lt env hs.backs (count_natCast hitem) hnode
  rw [ha] at hfollow
  rw [hs.quantum, hs.qset]
  exact ⟨_, a, locate_store hs.geometry hitem, hfollow⟩

theorem Store.read_ret (len : Nat) (fault : Option Nat) (p : Nat) (st : Store) :
    (st.read len fault p).ret ≠ -eNOMEM := by
  unfold Store.read
  split
  · show (0 : Int) ≠ -eNOMEM
    decide
  · simp only
    split
    · show (-eFAULT : Int) ≠ -eNOMEM
      decide
    · show ((Store.piece st.quantum p len : Nat) : Int) ≠ -eNOMEM
      simp only [eNOMEM]
      omega

/-- A read that runs through leaves the kernel state it found. -/
theorem deviceRead_same (hs : Refined s st) {p : Nat} (hp : st.item p ≤ intMax) (len : Nat)
    (fault : Option Nat) : deviceRead env len false fault p s = .ok (st.read len fault p, s) := by
  obtain ⟨⟨L, hL⟩, hsem⟩ := hs
  simp only [deviceRead, deviceReadLocked, loadGeometry, hL.quantum, hL.qset]
  have h₀ : Refines { s with dev := { s.dev with sem := 0 } } st L := { hL with }
  rw [locked_run hsem p (deviceReadBody_refines env h₀ hp len fault) rfl, ← hsem]

theorem Refined.readOnly (hs : Refined s st) : ReadOnly s := by
  obtain ⟨⟨L, hL⟩, -⟩ := id hs
  refine ⟨hL.covered, fun env p => hL.follow_of_lt env, fun env p len signal fault hp => ?_⟩
  cases signal with
  | true =>
      refine ⟨⟨-eRESTARTSYS, [], p⟩, ?_, show (-eRESTARTSYS : Int) ≠ -eNOMEM by decide⟩
      rw [step, deviceRead, deviceReadLocked, locked_signal]
      rfl
  | false =>
      refine ⟨st.read len fault p, ?_, Store.read_ret len fault p st⟩
      rw [step, deviceRead_same env hs (Call.item_le hL hp)]
      rfl

/-- The calls run through, and leave a device that reads do not change. -/
def ReadOnlyAfter (env : Kmem) (quantum qset : Nat) (calls : List Call) : Prop :=
  ∃ s rs, run env (emptyDevice quantum qset) calls = .ok (s, rs) ∧ ReadOnly s

/-- In every state a run over offsets in range can reach, whatever allocations and copies failed on
the way, a read is read-only. -/
theorem run_readOnlyAfter {quantum qset : Nat} (hg : Geometry quantum qset)
    (hfits : quantum * deviceQset ≤ intMax) {calls : List Call}
    (hin : InRange env (emptyDevice quantum qset) calls) :
    ReadOnlyAfter env quantum qset calls := by
  obtain ⟨s, rs, st, hrun, hs⟩ := run_refined env hg hfits hin
  exact ⟨s, rs, hrun, hs.readOnly⟩

theorem readOnlyAfter_failed : ReadOnlyAfter ⟨fun n => n == 6, fun _ _ => 0⟩ 4 2
    [.deviceWrite 0 [1] false none, .deviceWrite 20 [2] false none, .deviceRead 9 4 false none] :=
  run_readOnlyAfter _ ⟨by decide, by decide, by decide⟩ (by decide) (by decide)

end

end CharDriver.Chardev
