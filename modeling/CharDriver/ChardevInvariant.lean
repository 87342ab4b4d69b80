import CharDriver.ChardevRefine

/-! Who owns the blocks. A path names a block by the pointers that lead to it from `dev->data`. In
every reachable state each live block is on exactly one path, and the block at the end of a path is
of the kind and size the path says; so a trim frees every block once and leaves none. -/

namespace CharDriver.Chardev

open Base

/-- The `i`-th node, its slot array, or the quantum in its `j`-th slot. -/
inductive Path where
  | node (i : Nat)
  | array (i : Nat)
  | quantum (i j : Nat)
  deriving DecidableEq, Repr

def nextOf (h : Heap Block) (a : Nat) : Ptr :=
  match h.get a with
  | some (.deviceQset _ next) => next
  | _ => none

def dataOf (h : Heap Block) (a : Nat) : Ptr :=
  match h.get a with
  | some (.deviceQset data _) => data
  | _ => none

def slotIn (h : Heap Block) (j : Nat) (a : Nat) : Ptr :=
  match h.get a with
  | some (.slots ptrs) => ptrs[j]?.join
  | _ => none

/-- The `i`-th node from a pointer on. -/
def nodeAt (h : Heap Block) (p : Ptr) : Nat → Ptr
  | 0 => p
  | i + 1 => (nodeAt h p i).bind (nextOf h)

/-- The block a path leads to. -/
def Kernel.at (s : Kernel) : Path → Ptr
  | .node i => nodeAt s.heap s.dev.data i
  | .array i => (nodeAt s.heap s.dev.data i).bind (dataOf s.heap)
  | .quantum i j => ((nodeAt s.heap s.dev.data i).bind (dataOf s.heap)).bind (slotIn s.heap j)

/-- The block at the end of a path is what the path says, and as large as `dev` says. -/
def Path.Fits (dev : DeviceDev) : Path → Block → Prop
  | .node _, .deviceQset _ _ => True
  | .array _, .slots ptrs => (ptrs.length : Int) = dev.qset
  | .quantum _ _, .quantum bytes => (bytes.length : Int) = dev.quantum
  | _, _ => False

/-- The list ends, every path leads to a live block of its kind, no block is on two paths, and every
live block is on one. -/
structure Owned (s : Kernel) : Prop where
  ends : ∃ i, s.at (.node i) = none
  fits : ∀ path a, s.at path = some a → ∃ b, s.heap.get a = some b ∧ path.Fits s.dev b
  unique : ∀ path path' a, s.at path = some a → s.at path' = some a → path = path'
  live : ∀ a b, s.heap.get a = some b → ∃ path, s.at path = some a

theorem slot_inj {n i i' j j' : Nat} (hj : j < n) (hj' : j' < n) (h : i * n + j = i' * n + j') :
    i = i' ∧ j = j' := by
  have hpos : 0 < n := Nat.zero_lt_of_lt hj
  have hdiv := congrArg (· / n) h
  simp only [Nat.mul_comm _ n, Nat.mul_add_div hpos, Nat.div_eq_of_lt hj, Nat.div_eq_of_lt hj',
    Nat.add_zero] at hdiv
  subst hdiv
  exact ⟨rfl, Nat.add_left_cancel h⟩

section

variable {s : Kernel} {st : Store} {L : Layout} (hs : Holds s st L)
include hs

theorem Holds.at_node (i : Nat) : s.at (.node i) = L.nodes[i]? := by
  induction i with
  | zero => exact hs.backs.data
  | succ i ih =>
      have hstep : s.at (.node (i + 1)) = (s.at (.node i)).bind (nextOf s.heap) := rfl
      rw [hstep, ih]
      cases hi : L.nodes[i]? with
      | none =>
          have := List.getElem?_eq_none_iff.mp hi
          rw [List.getElem?_eq_none (by omega)]
          rfl
      | some a => simp [nextOf, hs.backs.heap.node i a hi]

theorem Holds.at_array (i : Nat) : s.at (.array i) = L.arr i := by
  have hstep : s.at (.array i) = (s.at (.node i)).bind (dataOf s.heap) := rfl
  rw [hstep, hs.at_node]
  cases hi : L.nodes[i]? with
  | none =>
      cases harr : L.arr i with
      | none => rfl
      | some a =>
          have hlt := hs.backs.heap.arr_node i a harr
          exact absurd (List.getElem?_eq_none_iff.mp hi) (Nat.not_le_of_lt hlt)
  | some a => simp [dataOf, hs.backs.heap.node i a hi]

theorem Holds.at_quantum (i j : Nat) :
    s.at (.quantum i j) = if j < st.qset then L.blk (i * st.qset + j) else none := by
  have hstep : s.at (.quantum i j) = (s.at (.array i)).bind (slotIn s.heap j) := rfl
  rw [hstep, hs.at_array]
  cases hi : L.arr i with
  | none =>
      split
      · rename_i hj
        cases hblk : L.blk (i * st.qset + j) with
        | none => rfl
        | some a =>
            obtain ⟨b, hb⟩ := hs.backs.heap.blk_arr _ a hblk
            rw [Nat.mul_comm, Nat.mul_add_div hs.backs.geometry.qset_pos, Nat.div_eq_of_lt hj,
              Nat.add_zero, hi] at hb
            exact absurd hb (by simp)
      · rfl
  | some a =>
      by_cases hj : j < st.qset
      · simp [slotIn, hs.backs.heap.slots i a hi, hj]
      · simp [slotIn, hs.backs.heap.slots i a hi, hj]

theorem Holds.at_fits {path : Path} {a : Nat} (ha : s.at path = some a) :
    ∃ b, s.heap.get a = some b ∧ path.Fits s.dev b := by
  cases path with
  | node i =>
      rw [hs.at_node] at ha
      exact ⟨_, hs.backs.heap.node i a ha, trivial⟩
  | array i =>
      rw [hs.at_array] at ha
      exact ⟨_, hs.backs.heap.slots i a ha, by simp [Path.Fits, hs.qset]⟩
  | quantum i j =>
      rw [hs.at_quantum] at ha
      split at ha
      · exact ⟨_, hs.backs.heap.bytes _ a ha, by simp [Path.Fits, hs.quantum]⟩
      · exact absurd ha (by simp)

theorem Holds.at_unique {path path' : Path} {a : Nat} (h : s.at path = some a)
    (h' : s.at path' = some a) : path = path' := by
  obtain ⟨b, hb, hfit⟩ := hs.at_fits h
  obtain ⟨b', hb', hfit'⟩ := hs.at_fits h'
  obtain rfl : b = b' := Option.some.inj (hb.symm.trans hb')
  cases path with
  | node i =>
      cases path' with
      | node i' =>
          rw [hs.at_node] at h h'
          rw [hs.backs.heap.node_index h h']
      | _ => cases b <;> simp [Path.Fits] at hfit hfit'
  | array i =>
      cases path' with
      | array i' =>
          rw [hs.at_array] at h h'
          rw [hs.backs.heap.arr_inj i i' a h h']
      | _ => cases b <;> simp [Path.Fits] at hfit hfit'
  | quantum i j =>
      cases path' with
      | quantum i' j' =>
          rw [hs.at_quantum] at h h'
          split at h
          · split at h'
            · rename_i hj hj'
              obtain ⟨rfl, rfl⟩ := slot_inj hj hj' (hs.backs.heap.blk_inj _ _ a h h')
              rfl
            · exact absurd h' (by simp)
          · exact absurd h (by simp)
      | _ => cases b <;> simp [Path.Fits] at hfit hfit'

theorem Holds.at_live {a : Nat} {b : Block} (hab : s.heap.get a = some b) :
    ∃ path, s.at path = some a := by
  rcases hs.backs.heap.live a b hab with hnode | ⟨i, hi⟩ | ⟨k, hk⟩
  · obtain ⟨i, hi⟩ := List.mem_iff_getElem?.mp hnode
    exact ⟨.node i, (hs.at_node i).trans hi⟩
  · exact ⟨.array i, (hs.at_array i).trans hi⟩
  · refine ⟨.quantum (k / st.qset) (k % st.qset), ?_⟩
    rw [hs.at_quantum, if_pos (Nat.mod_lt _ hs.backs.geometry.qset_pos), Nat.mul_comm, Nat.div_add_mod]
    exact hk

theorem Holds.owned : Owned s where
  ends := ⟨L.nodes.length, by rw [hs.at_node, List.getElem?_length]⟩
  fits _ _ := hs.at_fits
  unique _ _ _ := hs.at_unique
  live _ _ := hs.at_live

end

/-- The calls run through, each live block has one owner, and a trim frees all of them: it goes
through, though a second `kfree` of a block or a use after it would stop it, and nothing stays live. -/
def OwnedAfter (env : Kmem) (quantum qset : Nat) (calls : List Call) : Prop :=
  ∃ s rs, run env (emptyDevice quantum qset) calls = .ok (s, rs) ∧ Owned s ∧
    ∃ s', deviceTrim s = .ok s' ∧ ∀ a, s'.heap.get a = none

/-- Ownership holds after every run over offsets in range, whatever allocations and copies fail. -/
theorem run_ownedAfter (env : Kmem) {quantum qset : Nat} (hg : Geometry quantum qset)
    (hfits : quantum * deviceQset ≤ intMax) {calls : List Call}
    (hin : InRange env (emptyDevice quantum qset) calls) : OwnedAfter env quantum qset calls := by
  obtain ⟨s, rs, st, hrun, ⟨L, hs⟩, -⟩ := run_refined env hg hfits hin
  obtain ⟨heap, htrim, -, hnone⟩ := deviceTrim_spec hs.heap hs.geometry.qset_pos hs.data hs.qset
  exact ⟨s, rs, hrun, hs.holds.owned, _, htrim, hnone⟩

/-- A list that was extended only part of the way: the second node of the write at 20 fails. -/
theorem ownedAfter_partial : OwnedAfter ⟨fun n => n == 4, fun _ _ => 0⟩ 4 2
    [.deviceWrite 0 [1] false none, .deviceWrite 20 [2] false none, .deviceOpen 1 false] :=
  run_ownedAfter _ ⟨by decide, by decide, by decide⟩ (by decide) (by decide)

end CharDriver.Chardev
