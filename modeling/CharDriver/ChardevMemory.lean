import CharDriver.ChardevRefine
import Mathlib.Data.Finset.Union

/-! The memory of the device. Only writes make the list longer, and only as far as their offset: so what
the device takes up after a run can be read off the offsets written since the last trim, whatever the
run did besides. One byte far out takes up all the nodes before it; a hole in between takes up no array
and no quantum; a write that copies nothing, or faults, takes up as much as one that stores a byte. -/

namespace CharDriver.Chardev

open Base

/-- What a block takes up on a machine with 64-bit pointers: the size its `kmalloc` asked for. -/
def Block.bytes : Block → ℕ
  | .deviceQset _ _ => 16
  | .slots ptrs => 8 * ptrs.length
  | .quantum bytes => bytes.length

/-- The geometry since the last trim, and the offsets of the writes since then. -/
structure Demand where
  qset : Nat
  offsets : Finset Nat
  deriving DecidableEq

def Demand.initial (qset : Nat) : Demand := ⟨qset, ∅⟩

/-- A call that a signal interrupts demands nothing. -/
def Demand.after (d : Demand) : Call → Demand
  | .deviceOpen flags signal => if isWronly flags && !signal then ⟨deviceQset, ∅⟩ else d
  | .deviceWrite ppos _ signal _ => if signal then d else { d with offsets := insert ppos d.offsets }
  | _ => d

/-- A node for each item up to that of an offset, an array for each item and a quantum for each quantum
of the offsets. -/
def Demand.bytes (quantum : Nat) (d : Demand) : ℕ :=
  (d.offsets.biUnion fun p => Finset.range (p / (quantum * d.qset) + 1)).card * 16 +
    (d.offsets.image (· / (quantum * d.qset))).card * (8 * d.qset) +
    (d.offsets.image (· / quantum)).card * quantum

section Blocks

variable {h : Heap Block} {data : Ptr} {st : Store} {L : Layout}

theorem Backs.array_lt (hs : Backs h data st L) {i : Nat} (hi : st.array i = true) : i < st.nodes := by
  obtain ⟨a, ha⟩ := Option.isSome_iff_exists.mp ((hs.array i).trans hi)
  exact hs.nodes ▸ hs.heap.arr_node i a ha

theorem Backs.block_lt (hs : Backs h data st L) {k : Nat} (hk : st.block k = true) :
    k < st.nodes * st.qset := by
  obtain ⟨a, ha⟩ := Option.isSome_iff_exists.mp ((hs.block k).trans hk)
  obtain ⟨b, hb⟩ := hs.heap.blk_arr k a ha
  have hlt := hs.heap.arr_node _ b hb
  rw [hs.nodes, Nat.div_lt_iff_lt_mul hs.geometry.qset_pos] at hlt
  exact hlt

/-- The nodes, the items that have an array, and the quanta. -/
def Store.items (st : Store) : Finset ℕ := Finset.range st.nodes

def Store.arrays (st : Store) : Finset ℕ := st.items.filter fun i => st.array i = true

def Store.quanta (st : Store) : Finset ℕ :=
  (Finset.range (st.nodes * st.qset)).filter fun k => st.block k = true

theorem Backs.items_some (hs : Backs h data st L) : ∀ i ∈ st.items, (L.nodes[i]?).isSome := by
  intro i hi
  rw [Store.items, Finset.mem_range, ← hs.nodes] at hi
  simp [hi]

theorem Backs.arrays_some (hs : Backs h data st L) : ∀ i ∈ st.arrays, (L.arr i).isSome :=
  fun i hi => (hs.array i).trans (Finset.mem_filter.mp hi).2

theorem Backs.quanta_some (hs : Backs h data st L) : ∀ k ∈ st.quanta, (L.blk k).isSome :=
  fun k hk => (hs.block k).trans (Finset.mem_filter.mp hk).2

theorem Backs.mem_items (hs : Backs h data st L) {a : ℕ} :
    a ∈ blocksAt (L.nodes[·]?) st.items ↔ ∃ d next, h.get a = some (.deviceQset d next) := by
  rw [mem_blocksAt hs.items_some]
  constructor
  · rintro ⟨i, -, hi⟩
    exact ⟨_, _, hs.heap.node i a hi⟩
  · rintro ⟨d, next, ha⟩
    rcases hs.heap.live a _ ha with hmem | ⟨i, hi⟩ | ⟨k, hk⟩
    · obtain ⟨i, hi⟩ := List.mem_iff_getElem?.mp hmem
      have hlt := (List.getElem?_eq_some_iff.mp hi).1
      exact ⟨i, Finset.mem_range.mpr (hs.nodes ▸ hlt), hi⟩
    · simp [hs.heap.slots i a hi] at ha
    · simp [hs.heap.bytes k a hk] at ha

theorem Backs.mem_arrays (hs : Backs h data st L) {a : ℕ} :
    a ∈ blocksAt L.arr st.arrays ↔ ∃ ptrs, h.get a = some (.slots ptrs) := by
  rw [mem_blocksAt hs.arrays_some]
  constructor
  · rintro ⟨i, -, hi⟩
    exact ⟨_, hs.heap.slots i a hi⟩
  · rintro ⟨ptrs, ha⟩
    rcases hs.heap.live a _ ha with hmem | ⟨i, hi⟩ | ⟨k, hk⟩
    · obtain ⟨i, hi⟩ := List.mem_iff_getElem?.mp hmem
      simp [hs.heap.node i a hi] at ha
    · have harray : st.array i = true := by rw [← hs.array i, hi, Option.isSome_some]
      exact ⟨i, Finset.mem_filter.mpr ⟨Finset.mem_range.mpr (hs.array_lt harray), harray⟩, hi⟩
    · simp [hs.heap.bytes k a hk] at ha

theorem Backs.mem_quanta (hs : Backs h data st L) {a : ℕ} :
    a ∈ blocksAt L.blk st.quanta ↔ ∃ bytes, h.get a = some (.quantum bytes) := by
  rw [mem_blocksAt hs.quanta_some]
  constructor
  · rintro ⟨k, -, hk⟩
    exact ⟨_, hs.heap.bytes k a hk⟩
  · rintro ⟨bytes, ha⟩
    rcases hs.heap.live a _ ha with hmem | ⟨i, hi⟩ | ⟨k, hk⟩
    · obtain ⟨i, hi⟩ := List.mem_iff_getElem?.mp hmem
      simp [hs.heap.node i a hi] at ha
    · simp [hs.heap.slots i a hi] at ha
    · have hblock : st.block k = true := by rw [← hs.block k, hk, Option.isSome_some]
      exact ⟨k, Finset.mem_filter.mpr ⟨Finset.mem_range.mpr (hs.block_lt hblock), hblock⟩, hk⟩

/-- The heap is as large as its nodes, its arrays and its quanta. -/
theorem Backs.total (hs : Backs h data st L) : h.total Block.bytes =
    st.items.card * 16 + st.arrays.card * (8 * st.qset) + st.quanta.card * st.quantum := by
  have hlive (a : ℕ) : a ∈ blocksAt (L.nodes[·]?) st.items ∪
      (blocksAt L.arr st.arrays ∪ blocksAt L.blk st.quanta) ↔ ∃ b, h.get a = some b := by
    rw [Finset.mem_union, Finset.mem_union, hs.mem_items, hs.mem_arrays, hs.mem_quanta]
    constructor
    · rintro (⟨d, next, ha⟩ | ⟨ptrs, ha⟩ | ⟨bytes, ha⟩) <;> exact ⟨_, ha⟩
    · rintro ⟨b, ha⟩
      cases b with
      | deviceQset d next => exact Or.inl ⟨d, next, ha⟩
      | slots ptrs => exact Or.inr (Or.inl ⟨ptrs, ha⟩)
      | quantum bytes => exact Or.inr (Or.inr ⟨bytes, ha⟩)
  have harrays : Disjoint (blocksAt L.arr st.arrays) (blocksAt L.blk st.quanta) := by
    refine Finset.disjoint_left.mpr fun a ha ha' => ?_
    obtain ⟨ptrs, hptrs⟩ := hs.mem_arrays.mp ha
    obtain ⟨bytes, hbytes⟩ := hs.mem_quanta.mp ha'
    cases hptrs.symm.trans hbytes
  have hitems : Disjoint (blocksAt (L.nodes[·]?) st.items)
      (blocksAt L.arr st.arrays ∪ blocksAt L.blk st.quanta) := by
    refine Finset.disjoint_left.mpr fun a ha ha' => ?_
    obtain ⟨d, next, hnode⟩ := hs.mem_items.mp ha
    rcases Finset.mem_union.mp ha' with ha' | ha'
    · obtain ⟨ptrs, hptrs⟩ := hs.mem_arrays.mp ha'
      cases hnode.symm.trans hptrs
    · obtain ⟨bytes, hbytes⟩ := hs.mem_quanta.mp ha'
      cases hnode.symm.trans hbytes
  rw [Heap.total_eq_sum hlive, Finset.sum_union hitems, Finset.sum_union harrays,
    sum_blocksAt hs.items_some (fun _ _ _ => hs.heap.node_index) (n := 16),
    sum_blocksAt hs.arrays_some hs.heap.arr_inj (n := 8 * st.qset),
    sum_blocksAt hs.quanta_some hs.heap.blk_inj (n := st.quantum), Nat.add_assoc]
  · intro k _ a ha
    simp [hs.heap.bytes k a ha, Block.bytes]
  · intro i _ a ha
    simp [hs.heap.slots i a ha, Block.bytes]
  · intro i _ a ha
    simp [hs.heap.node i a ha, Block.bytes]

end Blocks

/-- The outcome of the allocations for an offset in item `i`, as far as memory goes. -/
structure Allocated (env : Kmem) (i : Nat) (st : Store) (ok : Bool) (st' : Store) : Prop where
  calls : st.calls ≤ st'.calls
  nodes : st'.nodes ≤ max st.nodes (i + 1)
  array : ∀ j, st'.array j = true → st.array j = true ∨ j = i
  keeps : ∀ j, st.array j = true → st'.array j = true
  fulfilled : (∀ n < st'.calls, env.fails n = false) → ok = true
  done : ok = true → i < st'.nodes ∧ st'.array i = true

section Store

variable (env : Kmem) (st : Store)

theorem Store.grow_allocates (missing nodes calls : Nat) :
    calls ≤ (Store.grow env missing nodes calls).2.2 ∧
      (Store.grow env missing nodes calls).2.1 ≤ nodes + missing ∧
      ((∀ n < (Store.grow env missing nodes calls).2.2, env.fails n = false) →
        (Store.grow env missing nodes calls).1 = true) := by
  induction missing generalizing nodes calls with
  | zero => exact ⟨Nat.le_refl _, Nat.le_refl _, fun _ => rfl⟩
  | succ missing ih =>
      rw [Store.grow]
      by_cases hfails : env.fails calls = true
      · rw [if_pos hfails]
        refine ⟨Nat.le_succ _, Nat.le_add_right _ _, fun hall => ?_⟩
        exact absurd (hfails.symm.trans (hall calls (Nat.lt_succ_self _))) Bool.noConfusion
      · rw [if_neg hfails]
        obtain ⟨hcalls, hnodes, hok⟩ := ih (nodes + 1) (calls + 1)
        exact ⟨by omega, by omega, hok⟩

theorem Store.ensureArray_allocates (i : Nat) :
    st.calls ≤ (st.ensureArray env i).2.calls ∧
      (∀ j, (st.ensureArray env i).2.array j = true → st.array j = true ∨ j = i) ∧
      (∀ j, st.array j = true → (st.ensureArray env i).2.array j = true) ∧
      ((∀ n < (st.ensureArray env i).2.calls, env.fails n = false) → (st.ensureArray env i).1 = true) ∧
      ((st.ensureArray env i).1 = true → (st.ensureArray env i).2.array i = true) := by
  unfold Store.ensureArray
  by_cases harray : st.array i = true
  · rw [if_pos harray]
    exact ⟨Nat.le_refl _, fun _ => Or.inl, fun _ => id, fun _ => rfl, fun _ => harray⟩
  · rw [if_neg harray]
    by_cases hfails : env.fails st.calls = true
    · rw [if_pos hfails]
      refine ⟨Nat.le_succ _, fun _ => Or.inl, fun _ => id, fun hall => ?_, Bool.noConfusion⟩
      exact absurd (hfails.symm.trans (hall st.calls (Nat.lt_succ_self _))) Bool.noConfusion
    · rw [if_neg hfails]
      refine ⟨Nat.le_succ _, fun j hj => ?_, fun j hj => ?_, fun _ => rfl, fun _ => by simp⟩
      · by_cases hji : j = i
        · exact Or.inr hji
        · exact Or.inl (by simpa only [Function.update_of_ne hji] using hj)
      · have hji : j ≠ i := fun heq => harray (heq ▸ hj)
        simpa only [Function.update_of_ne hji] using hj

theorem Store.ensureBlock_allocates (k : Nat) :
    st.calls ≤ (st.ensureBlock env k).2.calls ∧ (st.ensureBlock env k).2.array = st.array ∧
      ((∀ n < (st.ensureBlock env k).2.calls, env.fails n = false) →
        (st.ensureBlock env k).1 = true) := by
  unfold Store.ensureBlock
  by_cases hblock : st.block k = true
  · rw [if_pos hblock]
    exact ⟨Nat.le_refl _, rfl, fun _ => rfl⟩
  · rw [if_neg hblock]
    by_cases hfails : env.fails st.calls = true
    · rw [if_pos hfails]
      refine ⟨Nat.le_succ _, rfl, fun hall => ?_⟩
      exact absurd (hfails.symm.trans (hall st.calls (Nat.lt_succ_self _))) Bool.noConfusion
    · rw [if_neg hfails]
      exact ⟨Nat.le_succ _, rfl, fun _ => rfl⟩

theorem Store.prepare_allocates (p : Nat) :
    Allocated env (st.item p) st (st.prepare env p).1 (st.prepare env p).2 := by
  obtain ⟨hcalls, hnodes, hok⟩ :=
    Store.grow_allocates env (st.item p + 1 - st.nodes) st.nodes st.calls
  have hlong := Store.follow_spec env (st.item p) st
  have hfollow : (st.follow env (st.item p)).2.array = st.array := rfl
  have hnodes' : (st.follow env (st.item p)).2.nodes ≤ max st.nodes (st.item p + 1) :=
    Nat.le_trans hnodes (by omega)
  change st.calls ≤ (st.follow env (st.item p)).2.calls at hcalls
  change (∀ n < (st.follow env (st.item p)).2.calls, env.fails n = false) →
    (st.follow env (st.item p)).1 = true at hok
  unfold Store.prepare
  generalize st.follow env (st.item p) = f at *
  obtain ⟨ok, st₁⟩ := f
  cases ok with
  | false =>
      exact ⟨hcalls, hnodes', fun j hj => Or.inl (hfollow ▸ hj), fun j hj => hfollow ▸ hj,
        fun hall => hok hall, Bool.noConfusion⟩
  | true =>
      obtain ⟨hcalls₂, harray, hkeeps, hok₂, hdone⟩ := Store.ensureArray_allocates env st₁ (st.item p)
      have hkeep := (Store.ensureArray_spec env (st.item p) st₁).2.2
      simp only at hcalls hfollow hnodes' ⊢
      rw [hfollow] at harray hkeeps
      generalize st₁.ensureArray env (st.item p) = f at *
      obtain ⟨ok, st₂⟩ := f
      simp only at hcalls₂ harray hkeeps hok₂ hkeep
      cases ok with
      | false =>
          exact ⟨Nat.le_trans hcalls hcalls₂, hkeep ▸ hnodes', harray, hkeeps, hok₂, Bool.noConfusion⟩
      | true =>
          obtain ⟨hcalls₃, hsame, hok₃⟩ := Store.ensureBlock_allocates env st₂ (p / st.quantum)
          have hnodes₃ := (Store.ensureBlock_spec env (p / st.quantum) st₂).2.2
          refine ⟨Nat.le_trans hcalls (Nat.le_trans hcalls₂ hcalls₃), ?_, ?_, ?_, hok₃, fun _ => ⟨?_, ?_⟩⟩
          · rw [hnodes₃, hkeep]
            exact hnodes'
          · rw [hsame]
            exact harray
          · rw [hsame]
            exact hkeeps
          · rw [hnodes₃, hkeep]
            exact hlong rfl
          · rw [hsame]
            exact hdone rfl

end Store

/-- The store has no more than is demanded of it, and no less while no allocation failed. -/
structure Supplied (env : Kmem) (d : Demand) (st : Store) : Prop where
  qset : st.qset = d.qset
  node : ∀ i < st.nodes, ∃ p ∈ d.offsets, i ≤ st.item p
  array : ∀ i, st.array i = true → ∃ p ∈ d.offsets, st.item p = i
  block : ∀ k, st.block k = true → ∃ p ∈ d.offsets, p / st.quantum = k
  fulfilled : (∀ n < st.calls, env.fails n = false) → ∀ p ∈ d.offsets,
    st.item p < st.nodes ∧ st.array (st.item p) = true ∧ st.block (p / st.quantum) = true

theorem supplied_empty (env : Kmem) (quantum qset : Nat) :
    Supplied env (.initial qset) (Store.empty quantum qset) where
  qset := rfl
  node _ h := absurd h (Nat.not_lt_zero _)
  array _ h := by cases h
  block _ h := by cases h
  fulfilled _ _ hp := absurd hp (Finset.notMem_empty _)

section

variable {env : Kmem} {d : Demand} {st : Store}

theorem supplied_trim (env : Kmem) (st : Store) : Supplied env ⟨deviceQset, ∅⟩ st.trim where
  qset := rfl
  node _ h := absurd h (Nat.not_lt_zero _)
  array _ h := by cases h
  block _ h := by cases h
  fulfilled _ _ hp := absurd hp (Finset.notMem_empty _)

/-- What a write does after its allocations does not matter. -/
theorem Store.write_memory (env : Kmem) (buff : List UInt8) (fault : Option Nat) (p : Nat) (st : Store) :
    ∃ size byte, (st.write env buff fault p).2 = { (st.prepare env p).2 with size, byte } := by
  unfold Store.write
  generalize st.prepare env p = r
  obtain ⟨ok, st'⟩ := r
  cases ok with
  | false => exact ⟨st'.size, st'.byte, rfl⟩
  | true =>
      simp only [Store.transfer]
      split <;> exact ⟨_, _, rfl⟩

theorem Supplied.write (h : Supplied env d st) (buff : List UInt8) (fault : Option Nat) (p : Nat) :
    Supplied env { d with offsets := insert p d.offsets } (st.write env buff fault p).2 := by
  obtain ⟨size, byte, hwrite⟩ := Store.write_memory env buff fault p st
  have hprepared := Store.prepare_spec env p st
  have hallocated := Store.prepare_allocates env st p
  rw [hwrite]
  have hnodes := (Store.prepare_nodes env p st).1
  generalize st.prepare env p = r at hprepared hallocated hnodes
  obtain ⟨ok, st'⟩ := r
  simp only at hprepared hallocated hnodes ⊢
  have hitem (q : Nat) : st'.item q = st.item q := by
    rw [Store.item, hprepared.quantum, hprepared.qset, Store.item]
  constructor
  · exact hprepared.qset.trans h.qset
  · intro i hi
    change i < st'.nodes at hi
    show ∃ q ∈ insert p d.offsets, i ≤ st'.item q
    simp only [hitem, Finset.exists_mem_insert]
    have hle := hallocated.nodes
    by_cases hold : i < st.nodes
    · exact Or.inr (h.node i hold)
    · exact Or.inl (by omega)
  · intro i hi
    show ∃ q ∈ insert p d.offsets, st'.item q = i
    simp only [hitem, Finset.exists_mem_insert]
    rcases hallocated.array i hi with hold | rfl
    · exact Or.inr (h.array i hold)
    · exact Or.inl rfl
  · intro k hk
    simp only [hprepared.quantum, Finset.exists_mem_insert]
    rw [hprepared.block, Bool.or_eq_true, Bool.and_eq_true, beq_iff_eq] at hk
    rcases hk with hold | ⟨-, rfl⟩
    · exact Or.inr (h.block k hold)
    · exact Or.inl rfl
  · intro hall q hq
    obtain rfl := hallocated.fulfilled hall
    have hbefore : ∀ n < st.calls, env.fails n = false :=
      fun n hn => hall n (Nat.lt_of_lt_of_le hn hallocated.calls)
    show st'.item q < st'.nodes ∧ st'.array (st'.item q) = true ∧ st'.block (q / st'.quantum) = true
    rw [hitem, hprepared.quantum]
    rcases Finset.mem_insert.mp hq with rfl | hq
    · obtain ⟨hnode, harray⟩ := hallocated.done rfl
      exact ⟨hnode, harray, hprepared.block_self⟩
    · obtain ⟨hnode, harray, hblock⟩ := h.fulfilled hbefore q hq
      exact ⟨Nat.lt_of_lt_of_le hnode hnodes, hallocated.keeps _ harray, hprepared.block_of hblock⟩

theorem Supplied.step (h : Supplied env d st) (c : Call) :
    Supplied env (d.after c) (st.step env c).2 := by
  cases c with
  | deviceOpen flags signal =>
      by_cases hw : isWronly flags = true
      · cases signal with
        | true => simpa [Demand.after, Store.step, hw] using h
        | false => simpa [Demand.after, Store.step, hw] using supplied_trim env st
      · simpa [Demand.after, Store.step, hw] using h
  | deviceRead ppos len signal fault => cases signal <;> exact h
  | deviceWrite ppos buff signal fault =>
      cases signal with
      | true => exact h
      | false => exact h.write buff fault ppos
  | deviceRelease => exact h

/-- The memory of a store that was supplied is what was demanded, or less. -/
theorem Supplied.bytes {h : Heap Block} {data : Ptr} {L : Layout} (hd : Supplied env d st)
    (hs : Backs h data st L) : h.total Block.bytes ≤ d.bytes st.quantum ∧
      ((∀ n < h.calls, env.fails n = false) → h.total Block.bytes = d.bytes st.quantum) := by
  have hitem (p : Nat) : p / (st.quantum * d.qset) = st.item p := by rw [Store.item, hd.qset]
  have hitems : st.items ⊆ d.offsets.biUnion fun p => Finset.range (st.item p + 1) := by
    intro i hi
    obtain ⟨p, hp, hip⟩ := hd.node i (Finset.mem_range.mp hi)
    exact Finset.mem_biUnion.mpr ⟨p, hp, Finset.mem_range.mpr (Nat.lt_succ_of_le hip)⟩
  have harrays : st.arrays ⊆ d.offsets.image st.item := by
    intro i hi
    obtain ⟨p, hp, hpi⟩ := hd.array i (Finset.mem_filter.mp hi).2
    exact Finset.mem_image.mpr ⟨p, hp, hpi⟩
  have hquanta : st.quanta ⊆ d.offsets.image (· / st.quantum) := by
    intro k hk
    obtain ⟨p, hp, hpk⟩ := hd.block k (Finset.mem_filter.mp hk).2
    exact Finset.mem_image.mpr ⟨p, hp, hpk⟩
  rw [hs.total, Demand.bytes]
  simp only [hitem, hd.qset]
  constructor
  · have hnodes := Nat.mul_le_mul_right 16 (Finset.card_le_card hitems)
    have hslots := Nat.mul_le_mul_right (8 * d.qset) (Finset.card_le_card harrays)
    have hblocks := Nat.mul_le_mul_right st.quantum (Finset.card_le_card hquanta)
    exact Nat.add_le_add (Nat.add_le_add hnodes hslots) hblocks
  · intro hall
    have hfulfilled := hd.fulfilled (hs.calls ▸ hall)
    have hitems' : st.items = d.offsets.biUnion fun p => Finset.range (st.item p + 1) := by
      refine hitems.antisymm fun i hi => ?_
      obtain ⟨p, hp, hip⟩ := Finset.mem_biUnion.mp hi
      have hlt := (hfulfilled p hp).1
      exact Finset.mem_range.mpr (by rw [Finset.mem_range] at hip; omega)
    have harrays' : st.arrays = d.offsets.image st.item := by
      refine harrays.antisymm fun i hi => ?_
      obtain ⟨p, hp, rfl⟩ := Finset.mem_image.mp hi
      exact Finset.mem_filter.mpr
        ⟨Finset.mem_range.mpr (hfulfilled p hp).1, (hfulfilled p hp).2.1⟩
    have hquanta' : st.quanta = d.offsets.image (· / st.quantum) := by
      refine hquanta.antisymm fun k hk => ?_
      obtain ⟨p, hp, rfl⟩ := Finset.mem_image.mp hk
      have hblock := (hfulfilled p hp).2.2
      exact Finset.mem_filter.mpr ⟨Finset.mem_range.mpr (hs.block_lt hblock), hblock⟩
    rw [hitems', harrays', hquanta']

/-- A run supplies what it demands. -/
theorem run_supplied (hd : Supplied env d st) {s : Kernel} (hs : Refined s st)
    (hfits : st.quantum * deviceQset ≤ intMax) {calls : List Call} (hin : InRange env s calls) :
    ∃ s' rs st', run env s calls = .ok (s', rs) ∧ Refined s' st' ∧ st'.quantum = st.quantum ∧
      Supplied env (calls.foldl Demand.after d) st' := by
  induction calls generalizing s st d with
  | nil => exact ⟨s, [], st, rfl, hs, rfl, hd⟩
  | cons c calls ih =>
      obtain ⟨s₁, hstep, hs₁⟩ := step_refines env hs hfits hin.1
      have hquantum := Store.step_quantum env st c
      obtain ⟨s', rs, st', hrun, hs', hquantum', hd'⟩ :=
        ih (hd.step c) hs₁ (hquantum.symm ▸ hfits) (hin.tail hstep)
      exact ⟨s', _ :: rs, st', runSteps_cons_ok hstep calls hrun, hs', hquantum'.trans hquantum, hd'⟩

end

/-- After the run the device takes up no more than the writes since the last trim demand, and exactly
that if no allocation failed. -/
def TakesUp (env : Kmem) (quantum qset : Nat) (calls : List Call) : Prop :=
  ∃ s rs, run env (emptyDevice quantum qset) calls = .ok (s, rs) ∧
    let demanded := (calls.foldl Demand.after (.initial qset)).bytes quantum
    s.heap.total Block.bytes ≤ demanded ∧
      ((∀ n < s.heap.calls, env.fails n = false) → s.heap.total Block.bytes = demanded)

theorem run_takesUp (env : Kmem) {quantum qset : Nat} (hg : Geometry quantum qset)
    (hfits : quantum * deviceQset ≤ intMax) {calls : List Call}
    (hin : InRange env (emptyDevice quantum qset) calls) : TakesUp env quantum qset calls := by
  obtain ⟨s, rs, st, hrun, ⟨⟨L, hs⟩, -⟩, hquantum, hd⟩ :=
    run_supplied (supplied_empty env quantum qset) (refined_empty hg) hfits hin
  obtain ⟨hle, heq⟩ := hd.bytes hs.backs
  obtain rfl : st.quantum = quantum := hquantum
  exact ⟨s, rs, hrun, hle, heq⟩

/-- A byte in the third item, an empty write in the second, and a read: three nodes, two arrays and two
quanta. -/
theorem takesUp_sparse :
    ∃ calls : List Call, calls = [.deviceWrite 17 [5] false none, .deviceWrite 9 [] false none,
        .deviceRead 0 8 false none] ∧
      TakesUp (.filled 7) 4 2 calls ∧
      (calls.foldl Demand.after (.initial 2)).bytes 4 = 3 * 16 + 2 * 16 + 2 * 4 := by
  refine ⟨_, rfl, ?_, by decide⟩
  exact run_takesUp (.filled 7) ⟨by decide, by decide, by decide⟩ (by decide) (by decide)

end CharDriver.Chardev
