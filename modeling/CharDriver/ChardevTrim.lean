import CharDriver.ChardevLayout

/-! `device_trim` frees a represented heap completely: every `kfree` meets a live block or `NULL`,
and no block is left. The walk goes over the nodes from the front; what is still there before node
`m` is reached is everything from node `m` on. -/

namespace CharDriver.Chardev

open Base

/-- The loop over a slot array frees the pointers it finds, from index `i` on, and nothing else. -/
theorem trimSlots_spec (a : Nat) (ptrs : List Ptr)
    (hinj : ∀ j j' p : Nat, ptrs[j]? = some (some p) → ptrs[j']? = some (some p) → j = j') :
    ∀ (n i : Nat) (h : Heap Block), n + i = ptrs.length → h.get a = some (.slots ptrs) →
      (∀ j p : Nat, i ≤ j → ptrs[j]? = some (some p) → p ≠ a ∧ ∃ b, h.get p = some b) →
      ∃ h', trimSlots (some a) n i h = .ok h' ∧ h'.calls = h.calls ∧
        (∀ j p : Nat, i ≤ j → ptrs[j]? = some (some p) → h'.get p = none) ∧
        ∀ a', (∀ j, i ≤ j → ptrs[j]? ≠ some (some a')) → h'.get a' = h.get a' := by
  intro n
  induction n with
  | zero =>
      intro i h hlen ha _
      refine ⟨h, rfl, rfl, fun j p hij hj => ?_, fun _ _ => rfl⟩
      rw [List.getElem?_eq_none (by omega)] at hj
      simp at hj
  | succ n ih =>
      intro i h hlen ha hlive
      obtain ⟨p, hp⟩ : ∃ p, ptrs[i]? = some p := ⟨_, List.getElem?_eq_getElem (by omega)⟩
      have hload : loadSlot h (some a) i = .ok p := by
        simp [loadSlot, ha, hp]
      cases p with
      | none =>
          obtain ⟨h', hrun, hcalls, hdead, hkeep⟩ := ih (i + 1) h (by omega) ha
            fun j p hij => hlive j p (by omega)
          refine ⟨h', ?_, hcalls, fun j p hij hj => ?_, fun a' ha' => hkeep a' fun j hij =>
            ha' j (by omega)⟩
          · simpa only [trimSlots, hload, kfree, ok_bind] using hrun
          · rcases Nat.eq_or_lt_of_le hij with rfl | hlt
            · simp [hp] at hj
            · exact hdead j p hlt hj
      | some q =>
          obtain ⟨hqa, b, hb⟩ := hlive i q (Nat.le_refl i) hp
          have hne {j : Nat} (hij : i + 1 ≤ j) {p : Nat} (hj : ptrs[j]? = some (some p)) :
              p ≠ q := fun heq => by
            have := hinj i j q hp (heq ▸ hj)
            omega
          obtain ⟨h', hrun, hcalls, hdead, hkeep⟩ := ih (i + 1) (h.free q) (by omega)
            (by rw [Heap.get_free, if_neg hqa.symm, ha])
            (fun j p hij hj => by
              obtain ⟨hpa, b, hb⟩ := hlive j p (by omega) hj
              exact ⟨hpa, b, by rw [Heap.get_free, if_neg (hne hij hj), hb]⟩)
          have hq : h'.get q = none := by
            rw [hkeep q fun j hij hj => hne hij hj rfl, Heap.get_free, if_pos rfl]
          refine ⟨h', ?_, by rw [hcalls, Heap.calls_free], fun j p hij hj => ?_, fun a' ha' => ?_⟩
          · have hfree : kfree h (some q) = .ok (h.free q) := by simp [kfree, hb]
            simpa only [trimSlots, hload, hfree, ok_bind] using hrun
          · rcases Nat.eq_or_lt_of_le hij with rfl | hlt
            · obtain rfl : q = p := by simpa [hp] using hj
              exact hq
            · exact hdead j p hlt hj
          · have hne' : a' ≠ q := fun heq => ha' i (Nat.le_refl i) (heq ▸ hp)
            rw [hkeep a' fun j hij => ha' j (by omega), Heap.get_free, if_neg hne']

structure Remaining (h : Heap Block) (L : Layout) (qset m : Nat) : Prop where
  node : ∀ i a, m ≤ i → L.nodes[i]? = some a →
    h.get a = some (.deviceQset (L.arr i) L.nodes[i + 1]?)
  slots : ∀ i a, m ≤ i → L.arr i = some a →
    h.get a = some (.slots ((List.range qset).map fun j => L.blk (i * qset + j)))
  bytes : ∀ k a, m ≤ k / qset → L.blk k = some a → ∃ bytes, h.get a = some (.quantum bytes)
  live : ∀ a b, h.get a = some b → (∃ i, m ≤ i ∧ L.nodes[i]? = some a) ∨
    (∃ i, m ≤ i ∧ L.arr i = some a) ∨ ∃ k, m ≤ k / qset ∧ L.blk k = some a

section

variable {h h' : Heap Block} {L : Layout} {quantum qset : Nat} {byte : Nat → UInt8}
  {h₀ : Heap Block}

theorem Represents.remaining (hR : Represents h L quantum qset byte) : Remaining h L qset 0 where
  node i a _ := hR.node i a
  slots i a _ := hR.slots i a
  bytes k a _ hk := ⟨_, hR.bytes k a hk⟩
  live a b hab := by
    rcases hR.live a b hab with hn | ⟨i, hi⟩ | ⟨k, hk⟩
    · obtain ⟨i, hi⟩ := List.mem_iff_getElem?.mp hn
      exact Or.inl ⟨i, Nat.zero_le i, hi⟩
    · exact Or.inr (Or.inl ⟨i, Nat.zero_le i, hi⟩)
    · exact Or.inr (Or.inr ⟨k, Nat.zero_le _, hk⟩)

/-- One turn of the walk: the node, its slot array and its quanta are gone, the rest is as it was. -/
theorem Remaining.next (hR : Represents h₀ L quantum qset byte) {m a : Nat}
    (hrem : Remaining h L qset m) (ha : L.nodes[m]? = some a)
    (hnode : h'.get a = none) (harr : ∀ c, L.arr m = some c → h'.get c = none)
    (hblk : ∀ k c, k / qset = m → L.blk k = some c → h'.get c = none)
    (hkeep : ∀ a', a' ≠ a → L.arr m ≠ some a' → (∀ k, k / qset = m → L.blk k ≠ some a') →
      h'.get a' = h.get a') : Remaining h' L qset (m + 1) := by
  have hold := hrem.node m a (Nat.le_refl m) ha
  constructor
  · intro i a' hi hi'
    have hn := hrem.node i a' (by omega) hi'
    rw [hkeep a' _ _ _, hn]
    · exact fun heq => by
        have := hR.node_index hi' (heq ▸ ha)
        omega
    · exact fun heq => by simp [hrem.slots m a' (Nat.le_refl m) heq] at hn
    · intro k hk heq
      obtain ⟨bytes, hb⟩ := hrem.bytes k a' (Nat.le_of_eq hk.symm) heq
      simp [hb] at hn
  · intro i c hi hc
    have hs := hrem.slots i c (by omega) hc
    rw [hkeep c _ _ _, hs]
    · exact fun heq => by simp [heq, hold] at hs
    · exact fun heq => by
        have := hR.arr_inj i m c hc heq
        omega
    · intro k hk heq
      obtain ⟨bytes, hb⟩ := hrem.bytes k c (Nat.le_of_eq hk.symm) heq
      simp [hb] at hs
  · intro k c hk hc
    obtain ⟨bytes, hb⟩ := hrem.bytes k c (by omega) hc
    refine ⟨bytes, ?_⟩
    rw [hkeep c _ _ _, hb]
    · exact fun heq => by simp [heq, hold] at hb
    · exact fun heq => by simp [hrem.slots m c (Nat.le_refl m) heq] at hb
    · intro k' hk' heq
      have := hR.blk_inj k k' c hc heq
      subst this
      omega
  · intro a' b hab
    have hna : a' ≠ a := fun heq => by simp [heq, hnode] at hab
    have hnc : L.arr m ≠ some a' := fun heq => by simp [harr a' heq] at hab
    have hnk : ∀ k, k / qset = m → L.blk k ≠ some a' := fun k hk heq => by
      simp [hblk k a' hk heq] at hab
    rw [hkeep a' hna hnc hnk] at hab
    rcases hrem.live a' b hab with ⟨i, hi, hi'⟩ | ⟨i, hi, hi'⟩ | ⟨k, hk, hk'⟩
    · refine Or.inl ⟨i, Nat.lt_of_le_of_ne hi fun heq => ?_, hi'⟩
      subst heq
      exact hna (Option.some.inj (hi'.symm.trans ha))
    · refine Or.inr (Or.inl ⟨i, Nat.lt_of_le_of_ne hi fun heq => ?_, hi'⟩)
      exact hnc (heq ▸ hi')
    · refine Or.inr (Or.inr ⟨k, Nat.lt_of_le_of_ne hk fun heq => ?_, hk'⟩)
      exact hnk k heq.symm hk'

/-- The turn for one node runs through and leaves what belongs to the later ones. -/
theorem trimNode_spec (hR : Represents h₀ L quantum qset byte) (hqset : 0 < qset) {m a : Nat}
    (hrem : Remaining h L qset m) (ha : L.nodes[m]? = some a) :
    ∃ h₁ h₂ data, trimArray qset a h = .ok h₁ ∧ loadNode h₁ (some a) = .ok (data, L.nodes[m + 1]?) ∧
      kfree h₁ (some a) = .ok h₂ ∧ h₂.calls = h.calls ∧ Remaining h₂ L qset (m + 1) := by
  have hold := hrem.node m a (Nat.le_refl m) ha
  have hload : loadNode h (some a) = .ok (L.arr m, L.nodes[m + 1]?) := by simp [loadNode, hold]
  cases harr : L.arr m with
  | none =>
      have hfree : kfree h (some a) = .ok (h.free a) := by simp [kfree, hold]
      refine ⟨h, h.free a, L.arr m, ?_, hload, hfree, Heap.calls_free _ _, ?_⟩
      · simp only [trimArray, hload, harr]
        rfl
      · apply hrem.next hR ha (by simp [Heap.get_free]) (by simp [harr])
        · intro k c hk hc
          obtain ⟨b, hb⟩ := hR.blk_arr k c hc
          simp [hk, harr] at hb
        · intro a' hne _ _
          rw [Heap.get_free, if_neg hne]
  | some c =>
      have hslots := hrem.slots m c (Nat.le_refl m) harr
      have hca : c ≠ a := fun heq => by simp [heq, hold] at hslots
      have hptr {j p : Nat} (hj : ((List.range qset).map fun j => L.blk (m * qset + j))[j]? =
          some (some p)) : j < qset ∧ L.blk (m * qset + j) = some p := by
        obtain ⟨hlt, hp⟩ := List.getElem?_eq_some_iff.mp hj
        exact ⟨by simpa using hlt, by simpa using hp⟩
      have hdiv {j : Nat} (hj : j < qset) : (m * qset + j) / qset = m := by
        rw [Nat.mul_comm, Nat.mul_add_div hqset, Nat.div_eq_of_lt hj, Nat.add_zero]
      obtain ⟨h₁, hrun, hcalls, hdead, hkeep⟩ := trimSlots_spec c _
        (fun j j' p hj hj' => by
          have := hR.blk_inj _ _ p (hptr hj).2 (hptr hj').2
          omega) qset 0 h (by simp) hslots
        (fun j p _ hj => by
          obtain ⟨bytes, hb⟩ := hrem.bytes _ p (Nat.le_of_eq (hdiv (hptr hj).1).symm) (hptr hj).2
          exact ⟨fun heq => by simp [heq, hslots] at hb, _, hb⟩)
      have hc₁ : h₁.get c = some (.slots ((List.range qset).map fun j => L.blk (m * qset + j))) := by
        rw [hkeep c fun j _ hj => ?_, hslots]
        obtain ⟨bytes, hb⟩ := hrem.bytes _ c (Nat.le_of_eq (hdiv (hptr hj).1).symm) (hptr hj).2
        simp [hb] at hslots
      have ha₁ : h₁.get a = some (.deviceQset (some c) L.nodes[m + 1]?) := by
        rw [hkeep a fun j _ hj => ?_, hold, harr]
        obtain ⟨bytes, hb⟩ := hrem.bytes _ a (Nat.le_of_eq (hdiv (hptr hj).1).symm) (hptr hj).2
        simp [hb] at hold
      have ha₂ : (h₁.free c).get a = some (.deviceQset (some c) L.nodes[m + 1]?) := by
        rw [Heap.get_free, if_neg hca.symm, ha₁]
      have ha₃ : ((h₁.free c).put a (.deviceQset none L.nodes[m + 1]?)).get a =
          some (.deviceQset none L.nodes[m + 1]?) := by
        rw [Heap.get_put ha₂, if_pos rfl]
      have hget (a' : Nat) (hne : a' ≠ a) (hnc : a' ≠ c) :
          (((h₁.free c).put a (.deviceQset none L.nodes[m + 1]?)).free a).get a' = h₁.get a' := by
        rw [Heap.get_free, if_neg hne, Heap.get_put ha₂, if_neg hne, Heap.get_free, if_neg hnc]
      refine ⟨(h₁.free c).put a (.deviceQset none L.nodes[m + 1]?),
        ((h₁.free c).put a (.deviceQset none L.nodes[m + 1]?)).free a, none, ?_, ?_, ?_, ?_, ?_⟩
      · have hfree : kfree h₁ (some c) = .ok (h₁.free c) := by simp [kfree, hc₁]
        have hstore : storeNode (h₁.free c) (some a) none L.nodes[m + 1]? =
            .ok ((h₁.free c).put a (.deviceQset none L.nodes[m + 1]?)) := by
          simp [storeNode, ha₂]
        simpa only [trimArray, hload, harr, Int.toNat_natCast, ok_bind, Option.isSome_some,
          if_true, hrun, hfree] using hstore
      · simp [loadNode, ha₃]
      · simp [kfree, ha₃]
      · simp [hcalls]
      · apply hrem.next hR ha (by simp [Heap.get_free])
        · intro c' hc'
          obtain rfl : c = c' := Option.some.inj (harr.symm.trans hc')
          rw [Heap.get_free, if_neg hca, Heap.get_put ha₂, if_neg hca, Heap.get_free, if_pos rfl]
        · intro k c' hk hc'
          obtain ⟨bytes, hb⟩ := hrem.bytes k c' (Nat.le_of_eq hk.symm) hc'
          rw [hget c' (fun heq => by simp [heq, hold] at hb) fun heq => by simp [heq, hslots] at hb]
          have hj : k % qset < qset := Nat.mod_lt _ hqset
          have hkj : m * qset + k % qset = k := by
            rw [← hk, Nat.mul_comm]
            exact Nat.div_add_mod k qset
          apply hdead (k % qset) c' (Nat.zero_le _)
          simp [hj, hkj, hc']
        · intro a' hne hnc hnk
          rw [hget a' hne fun heq => hnc (heq ▸ harr)]
          refine hkeep a' fun j _ hj => ?_
          exact hnk _ (hdiv (hptr hj).1) (hptr hj).2

theorem Remaining.get_eq_none (hR : Represents h₀ L quantum qset byte) {m : Nat}
    (hrem : Remaining h L qset m) (hm : L.nodes.length ≤ m) (a : Nat) : h.get a = none := by
  cases hab : h.get a with
  | none => rfl
  | some b =>
      rcases hrem.live a b hab with ⟨i, hi, hi'⟩ | ⟨i, hi, hi'⟩ | ⟨k, hk, hk'⟩
      · rw [List.getElem?_eq_none (by omega)] at hi'
        simp at hi'
      · have := hR.arr_node i a hi'
        omega
      · obtain ⟨c, hc⟩ := hR.blk_arr k a hk'
        have := hR.arr_node _ c hc
        omega

theorem trimNodes_spec (hR : Represents h₀ L quantum qset byte) (hqset : 0 < qset) :
    ∀ (fuel m : Nat) (h : Heap Block), L.nodes.length ≤ m + fuel → Remaining h L qset m →
      ∃ h', trimNodes qset fuel L.nodes[m]? h = .ok h' ∧ h'.calls = h.calls ∧
        ∀ a, h'.get a = none := by
  intro fuel
  induction fuel with
  | zero =>
      intro m h hlen hrem
      have hend : L.nodes[m]? = none := List.getElem?_eq_none (by omega)
      exact ⟨h, by rw [hend, trimNodes], rfl, hrem.get_eq_none hR (by omega)⟩
  | succ fuel ih =>
      intro m h hlen hrem
      cases ha : L.nodes[m]? with
      | none =>
          refine ⟨h, by rw [trimNodes], rfl, hrem.get_eq_none hR ?_⟩
          exact List.getElem?_eq_none_iff.mp ha
      | some a =>
          obtain ⟨h₁, h₂, data, harr, hload, hfree, hcalls, hrem'⟩ := trimNode_spec hR hqset hrem ha
          obtain ⟨h', hrun, hcalls', hnone⟩ := ih (m + 1) h₂ (by omega) hrem'
          refine ⟨h', ?_, hcalls'.trans hcalls, hnone⟩
          simpa only [trimNodes, harr, hload, hfree, ok_bind] using hrun

/-- `device_trim` runs through and leaves no block live. -/
theorem deviceTrim_spec {s : Kernel} (hR : Represents s.heap L quantum qset byte) (hqset : 0 < qset)
    (hdata : s.dev.data = L.nodes[0]?) (hq : s.dev.qset = qset) :
    ∃ heap, deviceTrim s = .ok { heap, dev :=
        { s.dev with size := 0, qset := (deviceQset : Nat), data := none } } ∧
      heap.calls = s.heap.calls ∧ ∀ a, heap.get a = none := by
  obtain ⟨heap, hrun, hcalls, hnone⟩ := trimNodes_spec hR hqset s.heap.calls 0 s.heap
    (by simpa using hR.nodes_length_le) hR.remaining
  refine ⟨heap, ?_, hcalls, hnone⟩
  rw [deviceTrim, hdata, hq, hrun]
  rfl

end

end CharDriver.Chardev
