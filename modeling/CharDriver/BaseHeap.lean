import Mathlib.Algebra.BigOperators.Group.Finset.Basic
import Mathlib.Data.List.Nodup
import Mathlib.Data.Finset.Card
import Mathlib.Data.Finset.Range

/-! A heap of blocks with identities. Entry `a` of the heap is the block handed out by the `a`-th
allocation call while it is live; a call that failed and a block that was freed both leave `none`.
An identity is never handed out twice, so an access through a stale pointer always finds `none`. -/

namespace CharDriver.Base

/-- The blocks of the heap, one entry for each allocation call so far. -/
structure Heap (β : Type) where
  cells : List (Option β)
  deriving DecidableEq, Repr

namespace Heap

variable {β : Type} (h : Heap β)

def empty : Heap β := ⟨[]⟩

def calls : Nat := h.cells.length

def get (a : Nat) : Option β := (h.cells[a]?).join

/-- A successful allocation call; the new block has identity `h.calls`. -/
def alloc (b : β) : Heap β := ⟨h.cells ++ [some b]⟩

/-- A failed allocation call. -/
def fail : Heap β := ⟨h.cells ++ [none]⟩

/-- Change the contents of a block. -/
def put (a : Nat) (b : β) : Heap β := ⟨h.cells.set a (some b)⟩

def free (a : Nat) : Heap β := ⟨h.cells.set a none⟩

@[simp] theorem get_empty (a : Nat) : (empty : Heap β).get a = none := rfl

@[simp] theorem calls_alloc (b : β) : (h.alloc b).calls = h.calls + 1 := by
  simp [calls, alloc]

@[simp] theorem calls_fail : h.fail.calls = h.calls + 1 := by
  simp [calls, fail]

@[simp] theorem calls_put (a : Nat) (b : β) : (h.put a b).calls = h.calls := by
  simp [calls, put]

@[simp] theorem calls_free (a : Nat) : (h.free a).calls = h.calls := by
  simp [calls, free]

variable {h}

theorem lt_calls_of_get {a : Nat} {b : β} (ha : h.get a = some b) : a < h.calls := by
  by_contra hge
  have hnone : h.cells[a]? = none := List.getElem?_eq_none (Nat.le_of_not_lt hge)
  simp [get, hnone] at ha

/-- A live identity is not the one the next allocation hands out. -/
theorem ne_calls_of_get {a : Nat} {b : β} (ha : h.get a = some b) : a ≠ h.calls :=
  Nat.ne_of_lt (lt_calls_of_get ha)

variable (h)

theorem get_alloc (b : β) (a : Nat) : (h.alloc b).get a = if a = h.calls then some b else h.get a := by
  rcases Nat.lt_trichotomy a h.cells.length with hlt | heq | hgt
  · simp [get, alloc, calls, List.getElem?_append_left hlt, Nat.ne_of_lt hlt]
  · simp [get, alloc, calls, heq]
  · have hne : a ≠ h.calls := Nat.ne_of_gt hgt
    rw [if_neg hne, get, get, alloc, List.getElem?_eq_none (by simp; omega),
      List.getElem?_eq_none (Nat.le_of_lt hgt)]

@[simp] theorem get_fail (a : Nat) : h.fail.get a = h.get a := by
  rcases Nat.lt_trichotomy a h.cells.length with hlt | heq | hgt
  · simp [get, fail, List.getElem?_append_left hlt]
  · simp [get, fail, heq]
  · rw [get, get, fail, List.getElem?_eq_none (by simp; omega),
      List.getElem?_eq_none (Nat.le_of_lt hgt)]

variable {h}

theorem get_put {a : Nat} {b₀ : β} (ha : h.get a = some b₀) (b : β) (a' : Nat) :
    (h.put a b).get a' = if a' = a then some b else h.get a' := by
  have hlt : a < h.cells.length := lt_calls_of_get ha
  by_cases heq : a' = a
  · subst heq
    simp [get, put, hlt]
  · simp [get, put, List.getElem?_set_ne (Ne.symm heq), heq]

theorem get_alloc_of_get {a : Nat} {b₀ : β} (ha : h.get a = some b₀) (b : β) :
    (h.alloc b).get a = some b₀ := by
  rw [get_alloc, if_neg (ne_calls_of_get ha), ha]

/-- A new block linked into a live one. -/
theorem get_alloc_put {a : Nat} {b₀ : β} (ha : h.get a = some b₀) (b b₁ : β) (a' : Nat) :
    ((h.alloc b).put a b₁).get a' =
      if a' = a then some b₁ else if a' = h.calls then some b else h.get a' := by
  rw [get_put (get_alloc_of_get ha b), get_alloc]

/-- Every other live block is as it was. -/
theorem get_alloc_put_of_ne {a a' : Nat} {b₀ b' : β} (ha : h.get a = some b₀) (b b₁ : β)
    (hb : h.get a' = some b') (hne : a' ≠ a) : ((h.alloc b).put a b₁).get a' = some b' := by
  rw [get_alloc_put ha, if_neg hne, if_neg (ne_calls_of_get hb), hb]

theorem get_free (a a' : Nat) : (h.free a).get a' = if a' = a then none else h.get a' := by
  by_cases heq : a' = a
  · subst heq
    rw [if_pos rfl, get, free, List.getElem?_set_self']
    cases h.cells[a']? <;> rfl
  · simp [get, free, List.getElem?_set_ne (Ne.symm heq), heq]

/-- A heap is its number of calls and its live blocks. -/
theorem ext_get {h' : Heap β} (hcalls : h.calls = h'.calls) (hget : ∀ a, h.get a = h'.get a) :
    h = h' := by
  obtain ⟨cells⟩ := h
  obtain ⟨cells'⟩ := h'
  congr 1
  apply List.ext_getElem hcalls
  intro a ha ha'
  simpa [get, ha, ha'] using hget a

/-- Distinct live identities are at most as many as the allocation calls. -/
theorem length_le_calls {l : List Nat} (hnodup : l.Nodup) (hlive : ∀ a ∈ l, ∃ b, h.get a = some b) :
    l.length ≤ h.calls := by
  have hsub : l.toFinset ⊆ Finset.range h.calls := by
    intro a ha
    obtain ⟨b, hb⟩ := hlive a (List.mem_toFinset.mp ha)
    exact Finset.mem_range.mpr (lt_calls_of_get hb)
  have hcard := Finset.card_le_card hsub
  rwa [List.toFinset_card_of_nodup hnodup, Finset.card_range] at hcard

def live (h : Heap β) : Nat := h.cells.countP Option.isSome

theorem live_set {a : Nat} (ha : (h.get a).isSome) (cell : Option β) :
    (Heap.mk (h.cells.set a cell)).live + 1 = h.live + if cell.isSome then 1 else 0 := by
  have hlt : a < h.cells.length := by
    obtain ⟨b, hb⟩ := Option.isSome_iff_exists.mp ha
    exact lt_calls_of_get hb
  have hcell : h.cells[a].isSome := by simpa [get, hlt] using ha
  have hpos : 0 < h.cells.countP Option.isSome :=
    List.countP_pos_iff.mpr ⟨_, List.getElem_mem hlt, hcell⟩
  rw [live, live, List.countP_set hlt, if_pos hcell]
  omega

theorem live_put {a : Nat} (ha : (h.get a).isSome) (b : β) : (h.put a b).live = h.live :=
  Nat.succ.inj (live_set ha (some b))

theorem live_free {a : Nat} (ha : (h.get a).isSome) : (h.free a).live + 1 = h.live :=
  live_set ha none

/-- What the live blocks take up, all together. -/
def total (size : β → ℕ) (h : Heap β) : ℕ := ∑ a ∈ Finset.range h.calls, (h.get a).elim 0 size

theorem total_eq_sum {size : β → ℕ} {S : Finset ℕ} (hS : ∀ a, a ∈ S ↔ ∃ b, h.get a = some b) :
    h.total size = ∑ a ∈ S, (h.get a).elim 0 size := by
  symm
  refine Finset.sum_subset (fun a ha => ?_) fun a _ ha => ?_
  · obtain ⟨b, hb⟩ := (hS a).mp ha
    exact Finset.mem_range.mpr (lt_calls_of_get hb)
  · cases hget : h.get a with
    | none => rfl
    | some b => exact absurd ((hS a).mpr ⟨b, hget⟩) ha

end Heap

section Places

variable {place : ℕ → Option ℕ} {I : Finset ℕ}

/-- The blocks at the places of `I`. -/
def blocksAt (place : ℕ → Option ℕ) (I : Finset ℕ) : Finset ℕ := I.image fun i => (place i).getD 0

theorem mem_blocksAt (hsome : ∀ i ∈ I, (place i).isSome) {a : ℕ} :
    a ∈ blocksAt place I ↔ ∃ i ∈ I, place i = some a := by
  simp only [blocksAt, Finset.mem_image]
  refine exists_congr fun i => and_congr_right fun hi => ?_
  obtain ⟨b, hb⟩ := Option.isSome_iff_exists.mp (hsome i hi)
  simp [hb]

/-- Blocks of one size, each at a place of its own. -/
theorem sum_blocksAt (hsome : ∀ i ∈ I, (place i).isSome)
    (hinj : ∀ i i' a, place i = some a → place i' = some a → i = i') {size : ℕ → ℕ} {n : ℕ}
    (hsize : ∀ i ∈ I, ∀ a, place i = some a → size a = n) :
    ∑ a ∈ blocksAt place I, size a = I.card * n := by
  have hcard : (blocksAt place I).card = I.card := by
    refine Finset.card_image_of_injOn fun i hi i' hi' heq => ?_
    obtain ⟨b, hb⟩ := Option.isSome_iff_exists.mp (hsome i hi)
    obtain ⟨b', hb'⟩ := Option.isSome_iff_exists.mp (hsome i' hi')
    obtain rfl : b = b' := by simpa [hb, hb'] using heq
    exact hinj i i' b hb hb'
  rw [← hcard]
  refine Finset.sum_const_nat fun a ha => ?_
  obtain ⟨i, hi, hplace⟩ := (mem_blocksAt hsome).mp ha
  exact hsize i hi a hplace

end Places

end CharDriver.Base
