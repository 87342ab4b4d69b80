import CharDriver.BaseOverlay
import CharDriver.ChardevList
import Mathlib.Logic.Function.Basic

/-! Where the blocks of the store lie in the heap. A layout names the block of every node, of every
slot array and of every quantum; a heap represents it when these blocks link up as the layout says,
hold the given bytes, and are all the blocks there are. Each lemma below is one store the driver
makes into the heap: what was represented before is represented after, with the layout changed in
one place. -/

namespace CharDriver.Chardev

open Base

/-- The identities of the list nodes in order, of the slot array of the `i`-th node and of the
quantum of the `k`-th quantum's worth of offsets. -/
structure Layout where
  nodes : List Nat
  arr : Nat → Ptr
  blk : Nat → Ptr

def Layout.empty : Layout := ⟨[], fun _ => none, fun _ => none⟩

def Layout.list (L : Layout) : List Node := L.nodes.mapIdx fun i a => (a, L.arr i)

theorem Layout.getElem?_list (L : Layout) (i : Nat) :
    L.list[i]? = L.nodes[i]?.map fun a => (a, L.arr i) := by
  rw [Layout.list, List.getElem?_mapIdx]

@[simp] theorem Layout.length_list (L : Layout) : L.list.length = L.nodes.length := by
  simp [Layout.list]

theorem Layout.list_addresses (L : Layout) : L.list.map Prod.fst = L.nodes := by
  apply List.ext_getElem?
  intro i
  simp [Layout.getElem?_list, Function.comp_def]

@[simp] theorem Layout.address_list (L : Layout) (i : Nat) :
    L.list[i]?.map Prod.fst = L.nodes[i]? := by
  rw [← List.getElem?_map, Layout.list_addresses]

/-- The heap consists of exactly the blocks of the layout. The `next` pointer of a node is the node
after it, so the list ends; the identities are distinct, so no block is reached twice. -/
structure Represents (h : Heap Block) (L : Layout) (quantum qset : Nat) (byte : Nat → UInt8) :
    Prop where
  node : ∀ i a, L.nodes[i]? = some a → h.get a = some (.deviceQset (L.arr i) L.nodes[i + 1]?)
  slots : ∀ i a, L.arr i = some a →
    h.get a = some (.slots ((List.range qset).map fun j => L.blk (i * qset + j)))
  bytes : ∀ k a, L.blk k = some a →
    h.get a = some (.quantum ((List.range quantum).map fun t => byte (k * quantum + t)))
  nodes_nodup : L.nodes.Nodup
  arr_inj : ∀ i i' a, L.arr i = some a → L.arr i' = some a → i = i'
  blk_inj : ∀ k k' a, L.blk k = some a → L.blk k' = some a → k = k'
  arr_node : ∀ i a, L.arr i = some a → i < L.nodes.length
  blk_arr : ∀ k a, L.blk k = some a → ∃ b, L.arr (k / qset) = some b
  live : ∀ a b, h.get a = some b → a ∈ L.nodes ∨ (∃ i, L.arr i = some a) ∨ ∃ k, L.blk k = some a

/-- A heap without live blocks. -/
theorem represents_of_dead {h : Heap Block} (hdead : ∀ a, h.get a = none) (quantum qset : Nat)
    (byte : Nat → UInt8) : Represents h Layout.empty quantum qset byte := by
  constructor <;> simp [Layout.empty, hdead]

namespace Represents

variable {h : Heap Block} {L : Layout} {quantum qset : Nat} {byte : Nat → UInt8}

theorem fail (hR : Represents h L quantum qset byte) : Represents h.fail L quantum qset byte where
  node := by simpa using hR.node
  slots := by simpa using hR.slots
  bytes := by simpa using hR.bytes
  nodes_nodup := hR.nodes_nodup
  arr_inj := hR.arr_inj
  blk_inj := hR.blk_inj
  arr_node := hR.arr_node
  blk_arr := hR.blk_arr
  live := by simpa using hR.live

theorem node_live (hR : Represents h L quantum qset byte) {a : Nat} (ha : a ∈ L.nodes) :
    ∃ b, h.get a = some b := by
  obtain ⟨i, hi⟩ := List.mem_iff_getElem?.mp ha
  exact ⟨_, hR.node i a hi⟩

theorem nodes_length_le (hR : Represents h L quantum qset byte) : L.nodes.length ≤ h.calls :=
  Heap.length_le_calls hR.nodes_nodup fun _ => hR.node_live

theorem node_index (hR : Represents h L quantum qset byte) {i i' a : Nat}
    (hi : L.nodes[i]? = some a) (hi' : L.nodes[i']? = some a) : i = i' := by
  obtain ⟨hlt, -⟩ := List.getElem?_eq_some_iff.mp hi
  exact (List.getElem?_inj hlt hR.nodes_nodup).mp (hi.trans hi'.symm)

/-- Every live slot array has `qset` slots. -/
theorem slots_length (hR : Represents h L quantum qset byte) {a : Nat} {ptrs : List Ptr}
    (ha : h.get a = some (.slots ptrs)) : ptrs.length = qset := by
  rcases hR.live a _ ha with hnode | ⟨i, hi⟩ | ⟨k, hk⟩
  · obtain ⟨i, hi⟩ := List.mem_iff_getElem?.mp hnode
    simp [hR.node i a hi] at ha
  · obtain rfl : _ = ptrs := by simpa [hR.slots i a hi] using ha
    simp
  · simp [hR.bytes k a hk] at ha

theorem arr_length (hR : Represents h L quantum qset byte) (k : Nat) :
    L.arr (L.nodes.length + k) = none := by
  cases harr : L.arr (L.nodes.length + k) with
  | none => rfl
  | some a =>
      have hlt := hR.arr_node _ a harr
      omega

theorem isList (hR : Represents h L quantum qset byte) : IsList h L.nodes[0]? L.list := by
  refine IsList.iff_getElem?.mpr ⟨by simp, fun i a data hi => ?_⟩
  rw [Layout.getElem?_list] at hi
  obtain ⟨a', ha', heq⟩ := Option.map_eq_some_iff.mp hi
  obtain ⟨rfl, rfl⟩ := Prod.mk.inj heq
  rw [Layout.address_list]
  exact hR.node i a' ha'

/-- Zeroed nodes behind the last one. -/
theorem extend (hR : Represents h L quantum qset byte) {h' : Heap Block} {p : Ptr} {k : Nat}
    (hlist : IsList h' p (L.list ++ newNodes h.calls k))
    (hframe : ∀ a, a ∉ (L.list ++ newNodes h.calls k).map Prod.fst → h'.get a = h.get a) :
    Represents h' { L with nodes := L.nodes ++ List.range' h.calls k } quantum qset byte ∧
      p = (L.nodes ++ List.range' h.calls k)[0]? := by
  have hnodes : L.list ++ newNodes h.calls k =
      Layout.list { L with nodes := L.nodes ++ List.range' h.calls k } := by
    rw [Layout.list, Layout.list, List.mapIdx_append, newNodes]
    congr 1
    apply List.ext_getElem (by simp)
    intro i hi hi'
    simp [Nat.add_comm i, hR.arr_length]
  have haddr := congrArg (List.map Prod.fst) hnodes
  rw [Layout.list_addresses] at haddr
  have hold {a : Nat} {b : Block} (ha : h.get a = some b) (hmem : a ∉ L.nodes) :
      h'.get a = some b := by
    rw [hframe a, ha]
    have hlt := Heap.lt_calls_of_get ha
    rw [haddr, List.mem_append, List.mem_range'_1, not_or]
    exact ⟨hmem, by omega⟩
  rw [hnodes] at hlist
  have hlinks := IsList.iff_getElem?.mp hlist
  constructor
  · constructor
    · intro i a ha
      have hlink := hlinks.2 i a (L.arr i) (by rw [Layout.getElem?_list, ha]; rfl)
      rwa [Layout.address_list] at hlink
    · intro i a hi
      have hs := hR.slots i a hi
      refine hold hs fun hmem => ?_
      obtain ⟨i', hi'⟩ := List.mem_iff_getElem?.mp hmem
      simp [hR.node i' a hi'] at hs
    · intro b a hb
      have hbytes := hR.bytes b a hb
      refine hold hbytes fun hmem => ?_
      obtain ⟨i', hi'⟩ := List.mem_iff_getElem?.mp hmem
      simp [hR.node i' a hi'] at hbytes
    · have hnodup := hlist.nodup
      rwa [Layout.list_addresses] at hnodup
    · exact hR.arr_inj
    · exact hR.blk_inj
    · intro i a hi
      have hlt := hR.arr_node i a hi
      rw [List.length_append]
      omega
    · exact hR.blk_arr
    · intro a b hab
      by_cases hmem : a ∈ L.nodes ++ List.range' h.calls k
      · exact Or.inl hmem
      · rw [hframe a (haddr ▸ hmem)] at hab
        exact (hR.live a b hab).imp_left (List.mem_append_left _)
  · rw [hlinks.1, Layout.address_list]

/-- A slot array, all `NULL`, for a node that has none. -/
theorem addArray (hR : Represents h L quantum qset byte) {i a : Nat}
    (ha : L.nodes[i]? = some a) (hnone : L.arr i = none) (hqset : 0 < qset) :
    Represents ((h.alloc (.slots (List.replicate qset none))).put a
        (.deviceQset (some h.calls) L.nodes[i + 1]?))
      { L with arr := Function.update L.arr i (some h.calls) } quantum qset byte := by
  have hold := hR.node i a ha
  have hne : h.calls ≠ a := (Heap.ne_calls_of_get hold).symm
  have hfresh {i' : Nat} : L.arr i' ≠ some h.calls := fun heq =>
    Heap.ne_calls_of_get (hR.slots i' _ heq) rfl
  have hblk {j : Nat} (hj : j < qset) : L.blk (i * qset + j) = none := by
    cases hblk : L.blk (i * qset + j) with
    | none => rfl
    | some b =>
        obtain ⟨c, hc⟩ := hR.blk_arr _ b hblk
        rw [Nat.mul_comm, Nat.mul_add_div hqset, Nat.div_eq_of_lt hj, Nat.add_zero, hnone] at hc
        simp at hc
  constructor
  · intro i' a' hi'
    by_cases heq : i' = i
    · subst heq
      have haa : a' = a := Option.some.inj (hi'.symm.trans ha)
      simp [Heap.get_alloc_put hold, haa]
    · simp only [Function.update_of_ne heq]
      exact Heap.get_alloc_put_of_ne hold _ _ (hR.node i' a' hi')
        fun haa => heq (hR.node_index hi' (haa ▸ ha))
  · intro i' a' hi'
    by_cases heq : i' = i
    · subst heq
      obtain rfl : h.calls = a' := by simpa using hi'
      rw [Heap.get_alloc_put hold, if_neg hne, if_pos rfl]
      congr 2
      apply List.ext_getElem (by simp)
      intro j h₁ h₂
      simp only [List.length_replicate] at h₁
      simp [hblk h₁]
    · simp only [Function.update_of_ne heq] at hi'
      have hs := hR.slots i' a' hi'
      exact Heap.get_alloc_put_of_ne hold _ _ hs fun haa => by simp [haa, hold] at hs
  · intro k a' hk
    have hb := hR.bytes k a' hk
    exact Heap.get_alloc_put_of_ne hold _ _ hb fun haa => by simp [haa, hold] at hb
  · exact hR.nodes_nodup
  · intro i₁ i₂ a' h₁ h₂
    simp only [Function.update_apply] at h₁ h₂
    split_ifs at h₁ h₂ with e₁ e₂ e₂
    · omega
    · exact absurd (h₂.trans h₁.symm) hfresh
    · exact absurd (h₁.trans h₂.symm) hfresh
    · exact hR.arr_inj i₁ i₂ a' h₁ h₂
  · exact hR.blk_inj
  · intro i' a' hi'
    by_cases heq : i' = i
    · exact heq ▸ (List.getElem?_eq_some_iff.mp ha).1
    · simp only [Function.update_of_ne heq] at hi'
      exact hR.arr_node i' a' hi'
  · intro k a' hk
    by_cases heq : k / qset = i
    · exact ⟨h.calls, by simp [heq]⟩
    · simp only [Function.update_of_ne heq]
      exact hR.blk_arr k a' hk
  · intro a' b hab
    rw [Heap.get_alloc_put hold] at hab
    split_ifs at hab with haa hcalls
    · exact Or.inl (haa ▸ List.mem_of_getElem? ha)
    · exact Or.inr (Or.inl ⟨i, by simp [hcalls]⟩)
    · refine (hR.live a' b hab).imp_right (Or.imp_left ?_)
      rintro ⟨i', hi'⟩
      have hii : i' ≠ i := fun heq => by simp [heq, hnone] at hi'
      exact ⟨i', by simpa only [Function.update_of_ne hii] using hi'⟩

/-- A quantum for an empty slot; its bytes are what the allocator left there. -/
theorem addBlock (hR : Represents h L quantum qset byte) {i j a : Nat} (old : Nat → UInt8)
    (ha : L.arr i = some a) (hj : j < qset) (hnone : L.blk (i * qset + j) = none) :
    Represents ((h.alloc (.quantum ((List.range quantum).map old))).put a
        (.slots (((List.range qset).map fun j => L.blk (i * qset + j)).set j (some h.calls))))
      { L with blk := Function.update L.blk (i * qset + j) (some h.calls) } quantum qset
      (fun p => if p / quantum = i * qset + j then old (p % quantum) else byte p) := by
  have hold := hR.slots i a ha
  have hne : h.calls ≠ a := (Heap.ne_calls_of_get hold).symm
  have hfresh {k : Nat} : L.blk k ≠ some h.calls := fun heq =>
    Heap.ne_calls_of_get (hR.bytes k _ heq) rfl
  constructor
  · intro i' a' hi'
    have hn := hR.node i' a' hi'
    exact Heap.get_alloc_put_of_ne hold _ _ hn fun haa => by simp [haa, hold] at hn
  · intro i' a' hi'
    by_cases heq : i' = i
    · subst heq
      obtain rfl : a = a' := Option.some.inj (ha.symm.trans hi')
      rw [Heap.get_alloc_put hold, if_pos rfl]
      congr 2
      apply List.ext_getElem (by simp)
      intro j' h₁ h₂
      simp only [List.length_set, List.length_map, List.length_range] at h₁
      simp [List.getElem_set, Function.update_apply, eq_comm]
    · have hs := hR.slots i' a' hi'
      rw [Heap.get_alloc_put_of_ne hold _ _ hs fun haa => heq (hR.arr_inj i' i a' hi' (haa ▸ ha))]
      congr 2
      apply List.map_congr_left
      intro j' hj'
      have hk : i' * qset + j' ≠ i * qset + j := fun hk => heq (by
        have hdiv := congrArg (· / qset) hk
        simpa [Nat.mul_comm _ qset, Nat.mul_add_div (Nat.zero_lt_of_lt hj),
          Nat.div_eq_of_lt (List.mem_range.mp hj'), Nat.div_eq_of_lt hj] using hdiv)
      simp [Function.update_of_ne hk]
  · intro k a' hk
    by_cases heq : k = i * qset + j
    · obtain rfl : h.calls = a' := by simpa [heq] using hk
      rw [Heap.get_alloc_put hold, if_neg hne, if_pos rfl]
      congr 2
      apply List.map_congr_left
      intro t ht
      have ht := List.mem_range.mp ht
      rw [if_pos (by rw [Nat.mul_comm, Nat.mul_add_div (by omega), Nat.div_eq_of_lt ht, heq]; rfl),
        Nat.mul_comm, Nat.mul_add_mod, Nat.mod_eq_of_lt ht]
    · simp only [Function.update_of_ne heq] at hk
      have hb := hR.bytes k a' hk
      rw [Heap.get_alloc_put_of_ne hold _ _ hb fun haa => by simp [haa, hold] at hb]
      congr 2
      apply List.map_congr_left
      intro t ht
      have ht := List.mem_range.mp ht
      rw [if_neg (by
        rwa [Nat.mul_comm, Nat.mul_add_div (by omega), Nat.div_eq_of_lt ht, Nat.add_zero])]
  · exact hR.nodes_nodup
  · exact hR.arr_inj
  · intro k₁ k₂ a' h₁ h₂
    simp only [Function.update_apply] at h₁ h₂
    split_ifs at h₁ h₂ with e₁ e₂ e₂
    · omega
    · exact absurd (h₂.trans h₁.symm) hfresh
    · exact absurd (h₁.trans h₂.symm) hfresh
    · exact hR.blk_inj k₁ k₂ a' h₁ h₂
  · exact hR.arr_node
  · intro k a' hk
    by_cases heq : k = i * qset + j
    · exact ⟨a, by rwa [heq, Nat.mul_comm, Nat.mul_add_div (by omega), Nat.div_eq_of_lt hj]⟩
    · simp only [Function.update_of_ne heq] at hk
      exact hR.blk_arr k a' hk
  · intro a' b hab
    rw [Heap.get_alloc_put hold] at hab
    split_ifs at hab with haa hcalls
    · exact Or.inr (Or.inl ⟨i, haa ▸ ha⟩)
    · exact Or.inr (Or.inr ⟨i * qset + j, by simp [hcalls]⟩)
    · refine (hR.live a' b hab).imp_right (Or.imp_right ?_)
      rintro ⟨k, hk⟩
      have hkk : k ≠ i * qset + j := fun heq => by simp [heq, hnone] at hk
      exact ⟨k, by simpa only [Function.update_of_ne hkk] using hk⟩

/-- Bytes stored into a quantum. -/
theorem writeBytes (hR : Represents h L quantum qset byte) {k a off : Nat} {data : List UInt8}
    (ha : L.blk k = some a) (hfit : off + data.length ≤ quantum) :
    Represents (h.put a (.quantum
        (((List.range quantum).map fun t => byte (k * quantum + t)).take off ++ data ++
          ((List.range quantum).map fun t => byte (k * quantum + t)).drop (off + data.length))))
      L quantum qset (overlay byte (k * quantum + off) data) := by
  have hold := hR.bytes k a ha
  constructor
  · intro i' a' hi'
    have hn := hR.node i' a' hi'
    rw [Heap.get_put hold, if_neg fun haa => by simp [haa, hold] at hn, hn]
  · intro i' a' hi'
    have hs := hR.slots i' a' hi'
    rw [Heap.get_put hold, if_neg fun haa => by simp [haa, hold] at hs, hs]
  · intro k' a' hk'
    by_cases heq : k' = k
    · subst heq
      obtain rfl : a = a' := Option.some.inj (ha.symm.trans hk')
      rw [Heap.get_put hold, if_pos rfl, map_range_overlay byte (k' * quantum) off quantum data hfit]
    · have hb := hR.bytes k' a' hk'
      have hne : a' ≠ a := fun haa => heq (hR.blk_inj k' k a' hk' (haa ▸ ha))
      rw [Heap.get_put hold, if_neg hne, hb]
      congr 2
      apply List.map_congr_left
      intro t ht
      have ht := List.mem_range.mp ht
      rcases Nat.lt_or_gt_of_ne heq with hlt | hgt
      · have := Nat.mul_le_mul_right quantum hlt
        rw [overlay_of_lt _ _ (by rw [Nat.succ_mul] at this; omega)]
      · have := Nat.mul_le_mul_right quantum hgt
        rw [overlay_of_le _ _ (by rw [Nat.succ_mul] at this; omega)]
  · exact hR.nodes_nodup
  · exact hR.arr_inj
  · exact hR.blk_inj
  · exact hR.arr_node
  · exact hR.blk_arr
  · intro a' b hab
    rw [Heap.get_put hold] at hab
    split_ifs at hab with haa
    · exact Or.inr (Or.inr ⟨k, haa ▸ ha⟩)
    · exact hR.live a' b hab

end Represents

end CharDriver.Chardev
