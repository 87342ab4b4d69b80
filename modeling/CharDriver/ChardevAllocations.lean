import CharDriver.ChardevBytes

/-! What stands between a write and its copy: the blocks it allocates on its way to the quantum, and
the clamp of its count to the end of it. Which blocks are missing can be read off the pointers, so the
state before a write tells whether the write gets its quantum. -/

namespace CharDriver.Chardev

open Base

/-- The allocations a write at `p` makes when none of them fails. -/
def Store.missing (st : Store) (p : Nat) : Nat :=
  st.item p + 1 - st.nodes + (if st.array (st.item p) then 0 else 1) +
    (if st.block (p / st.quantum) then 0 else 1)

/-- The nodes, the slot array and the quantum that are not there yet on the way to the place of an
offset. -/
def Kernel.missing (s : Kernel) (p : Nat) : Nat :=
  match locate s.dev.quantum (toInt (s.dev.quantum * s.dev.qset)) p with
  | .error _ => 0
  | .ok place =>
      let item := (place.item % 2 ^ 32).toNat
      ((List.range (item + 1)).countP fun i => (s.at (.node i)).isNone) +
        (if (s.at (.array item)).isSome then 0 else 1) +
        (if (s.at (.quantum item place.sPos.toNat)).isSome then 0 else 1)

theorem countP_range_le (m n : Nat) : (List.range m).countP (fun i => decide (n ≤ i)) = m - n := by
  induction m with
  | zero => simp
  | succ m ih =>
      rw [List.range_succ, List.countP_append, ih]
      by_cases h : n ≤ m
      · simp [h]
        omega
      · simp [h]
        omega

theorem Held.missing {s : Kernel} {st : Store} (hs : Held s st) {p : Nat} (hp : st.item p ≤ intMax) :
    s.missing p = st.missing p := by
  obtain ⟨⟨L, hL⟩, -⟩ := id hs
  have hg := hs.geometry
  have hslot : st.item p * st.qset + p / st.quantum % st.qset = p / st.quantum := item_slot p
  have hnodes : (fun i => (s.at (.node i)).isNone) = fun i => decide (st.nodes ≤ i) := by
    funext i
    rw [hL.at_node, ← hL.backs.nodes, Bool.eq_iff_iff, Option.isNone_iff_eq_none,
      List.getElem?_eq_none_iff, decide_eq_true_iff]
  rw [Kernel.missing, hL.quantum, hL.qset, locate_store hg hp]
  simp only [count_natCast hp, Int.toNat_natCast, hnodes, countP_range_le]
  rw [hL.at_array, hL.at_quantum, if_pos (Nat.mod_lt _ hg.qset_pos), hslot, hL.backs.array,
    hL.backs.block, Store.missing]

/-- One of the `n` allocations from the `calls`-th on fails. -/
def Kmem.Fails (env : Kmem) (calls n : Nat) : Prop := ∃ i < n, env.fails (calls + i) = true

instance (env : Kmem) (calls n : Nat) : Decidable (env.Fails calls n) :=
  inferInstanceAs (Decidable (∃ i < n, _))

theorem Kmem.fails_add (env : Kmem) (calls m n : Nat) :
    env.Fails calls (m + n) ↔ env.Fails calls m ∨ env.Fails (calls + m) n := by
  constructor
  · rintro ⟨i, hi, hfail⟩
    rcases Nat.lt_or_ge i m with hlt | hge
    · exact Or.inl ⟨i, hlt, hfail⟩
    · refine Or.inr ⟨i - m, by omega, ?_⟩
      rwa [show calls + m + (i - m) = calls + i by omega]
  · rintro (⟨i, hi, hfail⟩ | ⟨i, hi, hfail⟩)
    · exact ⟨i, by omega, hfail⟩
    · exact ⟨m + i, by omega, by rwa [← Nat.add_assoc]⟩

theorem Kmem.fails_one (env : Kmem) (calls : Nat) : env.Fails calls 1 ↔ env.fails calls = true := by
  constructor
  · rintro ⟨i, hi, hfail⟩
    obtain rfl : i = 0 := by omega
    exact hfail
  · intro hfail
    exact ⟨0, Nat.one_pos, hfail⟩

theorem Kmem.not_fails_zero (env : Kmem) (calls : Nat) : ¬env.Fails calls 0 := by
  rintro ⟨i, hi, -⟩
  exact Nat.not_lt_zero i hi

namespace Store

theorem grow_cases (env : Kmem) (missing nodes calls : Nat) :
    env.Fails calls missing ∧ (grow env missing nodes calls).1 = false ∨
      ¬env.Fails calls missing ∧
        grow env missing nodes calls = (true, nodes + missing, calls + missing) := by
  induction missing generalizing nodes calls with
  | zero => exact Or.inr ⟨env.not_fails_zero calls, rfl⟩
  | succ missing ih =>
      rw [Nat.add_comm missing 1, env.fails_add, env.fails_one, Nat.add_comm 1 missing, grow]
      by_cases hf : env.fails calls = true
      · rw [if_pos hf]
        exact Or.inl ⟨Or.inl hf, rfl⟩
      · rw [if_neg hf, show nodes + (missing + 1) = nodes + 1 + missing by omega,
          show calls + (missing + 1) = calls + 1 + missing by omega]
        refine (ih (nodes + 1) (calls + 1)).imp (And.imp_left Or.inr) (And.imp_left fun h => ?_)
        exact not_or.mpr ⟨hf, h⟩

theorem ensureArray_cases (env : Kmem) (i : Nat) (st : Store) :
    env.Fails st.calls (if st.array i then 0 else 1) ∧ (st.ensureArray env i).1 = false ∨
      ¬env.Fails st.calls (if st.array i then 0 else 1) ∧ (st.ensureArray env i).1 = true ∧
        (st.ensureArray env i).2.calls = st.calls + (if st.array i then 0 else 1) ∧
        (st.ensureArray env i).2.block = st.block := by
  unfold ensureArray
  by_cases harray : st.array i = true
  · rw [if_pos harray, if_pos harray]
    exact Or.inr ⟨env.not_fails_zero _, rfl, rfl, rfl⟩
  · rw [if_neg harray, if_neg harray, env.fails_one]
    by_cases hf : env.fails st.calls = true
    · rw [if_pos hf]
      exact Or.inl ⟨hf, rfl⟩
    · rw [if_neg hf]
      exact Or.inr ⟨hf, rfl, rfl, rfl⟩

theorem ensureBlock_fails_iff (env : Kmem) (k : Nat) (st : Store) :
    (st.ensureBlock env k).1 = false ↔ env.Fails st.calls (if st.block k then 0 else 1) := by
  unfold ensureBlock
  by_cases hblock : st.block k = true
  · rw [if_pos hblock, if_pos hblock]
    simp [env.not_fails_zero]
  · rw [if_neg hblock, if_neg hblock, env.fails_one]
    by_cases hf : env.fails st.calls = true
    · simp [hf]
    · simp [hf]

/-- A write gets its quantum unless one of the allocations it needs fails. -/
theorem prepare_fails_iff (env : Kmem) (p : Nat) (st : Store) :
    (st.prepare env p).1 = false ↔ env.Fails st.calls (st.missing p) := by
  rw [missing, env.fails_add, env.fails_add]
  rcases grow_cases env (st.item p + 1 - st.nodes) st.nodes st.calls with ⟨hf, hgrow⟩ | ⟨hf, hgrow⟩
  · have hfollow : (st.follow env (st.item p)).1 = false := hgrow
    rw [prepare_of_follow_fails (Prod.ext hfollow rfl)]
    exact iff_of_true rfl (Or.inl (Or.inl hf))
  · have hfollow : st.follow env (st.item p) = (true, { st with
        nodes := st.nodes + (st.item p + 1 - st.nodes)
        calls := st.calls + (st.item p + 1 - st.nodes) }) := by
      simp only [follow, hgrow]
    generalize hst₁ : ({ st with
        nodes := st.nodes + (st.item p + 1 - st.nodes)
        calls := st.calls + (st.item p + 1 - st.nodes) } : Store) = st₁ at hfollow
    have hcalls : st.calls + (st.item p + 1 - st.nodes) = st₁.calls := hst₁ ▸ rfl
    have harr : st.array = st₁.array := hst₁ ▸ rfl
    have hblk : st.block = st₁.block := hst₁ ▸ rfl
    rw [← Nat.add_assoc, hcalls, harr, hblk, or_iff_right hf]
    rcases ensureArray_cases env (st.item p) st₁ with ⟨hf, harray⟩ | ⟨hf, harray, hcalls', hblock⟩
    · rw [prepare_of_array_fails hfollow (Prod.ext harray rfl)]
      exact iff_of_true rfl (Or.inl hf)
    · rw [prepare_of_array hfollow (Prod.ext harray rfl), ensureBlock_fails_iff, hcalls', hblock,
        or_iff_right hf]

end Store

/-- What is left of a count at `p` after the clamp to the end of the quantum. -/
def Kernel.clamped (s : Kernel) (p len : Nat) : Nat :=
  clampLen s.dev.quantum ((p : Int) % s.dev.quantum) len

section

variable {s : Kernel} {st : Store} (hs : Held s st)
include hs

theorem Held.clamped (p len : Nat) : s.clamped p len = Store.piece st.quantum p len := by
  rw [Kernel.clamped, hs.dev.1, ← Int.natCast_emod, clampLen_spec hs.geometry]

theorem Held.calls : s.heap.calls = st.calls := by
  obtain ⟨⟨L, hL⟩, -⟩ := hs
  exact hL.backs.calls

/-- Whether a write gets its quantum can be told from the state before it. -/
theorem Held.fails_iff (env : Kmem) {p : Nat} (hp : st.item p ≤ intMax) :
    env.Fails s.heap.calls (s.missing p) ↔ (st.prepare env p).1 = false := by
  rw [hs.missing hp, hs.calls, Store.prepare_fails_iff]

/-- A quantum that is there has its slot array and its node. -/
theorem Held.missing_pos_iff (p : Nat) : 0 < st.missing p ↔ st.block (p / st.quantum) = false := by
  obtain ⟨⟨L, hL⟩, -⟩ := id hs
  cases hblock : st.block (p / st.quantum) with
  | false => simp [Store.missing, hblock]
  | true =>
      have hnode := hL.backs.item_lt hblock
      obtain ⟨b, hb⟩ := Option.isSome_iff_exists.mp ((hL.backs.block _).trans hblock)
      obtain ⟨a, ha⟩ := hL.backs.heap.blk_arr _ b hb
      have harray : st.array (st.item p) = true := by
        rw [← hL.backs.array, Store.item, ← item_eq, ha, Option.isSome_some]
      simp [Store.missing, hblock, harray]
      omega

end

end CharDriver.Chardev
