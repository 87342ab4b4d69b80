import CharDriver.ChardevModel

/-! The node list of the device. A finite list lies in the heap when each node is a live
`device_qset` whose `next` leads to the rest. Following it to item `n` returns the node there, after
it has appended the nodes that are missing; a failed allocation stops it part of the way. -/

namespace CharDriver.Chardev

open Base

abbrev Node := Nat × Ptr

/-- The pointer leads to these nodes in this order, and the last one has `next = NULL`. -/
def IsList (h : Heap Block) : Ptr → List Node → Prop
  | p, [] => p = none
  | p, node :: rest => p = some node.1 ∧
      ∃ next, h.get node.1 = some (.deviceQset node.2 next) ∧ IsList h next rest

/-- The nodes `device_follow` appends from the `calls`-th allocation on, zeroed. -/
def newNodes (calls k : Nat) : List Node := (List.range' calls k).map fun a => (a, none)

@[simp] theorem newNodes_zero (calls : Nat) : newNodes calls 0 = [] := rfl

theorem newNodes_succ (calls k : Nat) :
    newNodes calls (k + 1) = (calls, none) :: newNodes (calls + 1) k := rfl

@[simp] theorem length_newNodes (calls k : Nat) : (newNodes calls k).length = k := by
  simp [newNodes]

theorem newNodes_add (calls j k : Nat) :
    newNodes calls (j + k) = newNodes calls j ++ newNodes (calls + j) k := by
  rw [newNodes, ← List.range'_append_1, List.map_append]
  rfl

theorem newNodes_addresses (calls k : Nat) :
    (newNodes calls k).map Prod.fst = List.range' calls k := by
  simp [newNodes, Function.comp_def]

theorem mem_newNodes {calls k a : Nat} (ha : a ∈ (newNodes calls k).map Prod.fst) : calls ≤ a := by
  rw [newNodes_addresses, List.mem_range'_1] at ha
  exact ha.1

namespace IsList

variable {h h' : Heap Block} {p : Ptr} {l : List Node}

/-- The nodes by index: each is live and its `next` is the address of the one after it. -/
theorem iff_getElem? : IsList h p l ↔ p = l[0]?.map Prod.fst ∧ ∀ (i a : Nat) (data : Ptr),
    l[i]? = some (a, data) → h.get a = some (.deviceQset data (l[i + 1]?.map Prod.fst)) := by
  induction l generalizing p with
  | nil => simp [IsList]
  | cons node rest ih =>
      obtain ⟨a₀, data₀⟩ := node
      constructor
      · rintro ⟨hp, next, hnode, hrest⟩
        obtain ⟨hnext, hlinks⟩ := ih.mp hrest
        refine ⟨hp, fun i a data hi => ?_⟩
        cases i with
        | zero =>
            obtain ⟨rfl, rfl⟩ := Prod.mk.inj (Option.some.inj hi)
            simpa only [List.getElem?_cons_succ, hnext] using hnode
        | succ i => exact hlinks i a data hi
      · rintro ⟨hp, hlinks⟩
        refine ⟨hp, _, hlinks 0 a₀ data₀ rfl, ih.mpr ⟨rfl, fun i a data hi => ?_⟩⟩
        exact hlinks (i + 1) a data hi

theorem live (hl : IsList h p l) : ∀ a ∈ l.map Prod.fst, ∃ b, h.get a = some b := by
  intro a ha
  obtain ⟨⟨a', data⟩, hmem, rfl⟩ := List.mem_map.mp ha
  obtain ⟨i, hi⟩ := List.mem_iff_getElem?.mp hmem
  exact ⟨_, (iff_getElem?.mp hl).2 i a' data hi⟩

theorem unique {l' : List Node} (hl : IsList h p l) (hl' : IsList h p l') : l = l' := by
  induction l generalizing p l' with
  | nil =>
      obtain rfl : p = none := hl
      cases l' with
      | nil => rfl
      | cons node rest => exact absurd hl'.1 (by simp)
  | cons node rest ih =>
      obtain ⟨rfl, next, hnode, hrest⟩ := hl
      cases l' with
      | nil => exact absurd hl' (by simp [IsList])
      | cons node' rest' =>
          obtain ⟨hp, next', hnode', hrest'⟩ := hl'
          have haddr : node.1 = node'.1 := Option.some.inj hp
          rw [← haddr, hnode, Option.some.injEq, Block.deviceQset.injEq] at hnode'
          obtain ⟨hdata, rfl⟩ := hnode'
          rw [ih hrest hrest', Prod.ext haddr hdata]

theorem tail_of_mem {a : Nat} (hl : IsList h p l) (ha : a ∈ l.map Prod.fst) :
    ∃ l', l'.length ≤ l.length ∧ IsList h (some a) l' := by
  induction l generalizing p with
  | nil => simp at ha
  | cons node rest ih =>
      obtain ⟨hp, next, hnode, hrest⟩ := hl
      rcases List.mem_cons.mp ha with rfl | ha
      · exact ⟨node :: rest, Nat.le_refl _, rfl, next, hnode, hrest⟩
      · obtain ⟨l', hle, hl'⟩ := ih hrest ha
        exact ⟨l', Nat.le_succ_of_le hle, hl'⟩

/-- A list that ends does not come back to a node. -/
theorem not_mem_rest {node : Node} {rest : List Node} (hl : IsList h p (node :: rest)) :
    node.1 ∉ rest.map Prod.fst := by
  intro hmem
  obtain ⟨rfl, next, hnode, hrest⟩ := id hl
  obtain ⟨l', hle, hl'⟩ := hrest.tail_of_mem hmem
  rw [← hl.unique hl'] at hle
  exact absurd hle (by simp)

theorem nodup (hl : IsList h p l) : (l.map Prod.fst).Nodup := by
  induction l generalizing p with
  | nil => exact List.nodup_nil
  | cons node rest ih =>
      obtain ⟨-, next, -, hrest⟩ := id hl
      exact List.nodup_cons.mpr ⟨hl.not_mem_rest, ih hrest⟩

theorem congr (hl : IsList h p l) (heq : ∀ a ∈ l.map Prod.fst, h'.get a = h.get a) :
    IsList h' p l := by
  induction l generalizing p with
  | nil => exact hl
  | cons node rest ih =>
      obtain ⟨hp, next, hnode, hrest⟩ := hl
      refine ⟨hp, next, ?_, ih hrest fun a ha => heq a (List.mem_cons_of_mem _ ha)⟩
      rw [heq node.1 List.mem_cons_self, hnode]

end IsList

/-- What following the nodes `l` to item `n` did, by the pointer it returned. It appended `k` nodes;
a `NULL` return means that the allocation of the next one failed. -/
structure Followed (env : Kmem) (n : Nat) (l : List Node) (h : Heap Block) (r p : Ptr)
    (h' : Heap Block) (k : Nat) : Prop where
  list : IsList h' p (l ++ newNodes h.calls k)
  frame : ∀ a, a ∉ (l ++ newNodes h.calls k).map Prod.fst → h'.get a = h.get a
  allocated : ∀ i < k, env.fails (h.calls + i) = false
  found : ∀ a, r = some a → k = n + 1 - l.length ∧ h'.calls = h.calls + k ∧
    (l ++ newNodes h.calls k)[n]?.map Prod.fst = some a
  failed : r = none → k < n + 1 - l.length ∧ h'.calls = h.calls + k + 1 ∧
    env.fails (h.calls + k) = true

namespace Followed

variable {env : Kmem} {n k : Nat} {l : List Node} {h h₁ h' : Heap Block} {r p : Ptr}

theorem cons (hF : Followed env n l h r p h' k) {a : Nat} {data : Ptr}
    (ha : h.get a = some (.deviceQset data p)) (hmem : a ∉ l.map Prod.fst) :
    Followed env (n + 1) ((a, data) :: l) h r (some a) h' k := by
  have hnew : a ∉ (l ++ newNodes h.calls k).map Prod.fst := by
    rw [List.map_append, List.mem_append, not_or]
    exact ⟨hmem, fun hin => Nat.not_lt_of_le (mem_newNodes hin) (Heap.lt_calls_of_get ha)⟩
  refine ⟨⟨rfl, p, (hF.frame a hnew).trans ha, hF.list⟩, fun a' ha' => ?_, hF.allocated,
    fun b hb => ?_, fun hnone => ?_⟩
  · exact hF.frame a' fun hin => ha' (List.mem_cons_of_mem _ hin)
  · obtain ⟨hk, hcalls, hget⟩ := hF.found b hb
    refine ⟨?_, hcalls, hget⟩
    rw [hk, List.length_cons, Nat.add_sub_add_right]
  · obtain ⟨hk, hrest⟩ := hF.failed hnone
    refine ⟨?_, hrest⟩
    rwa [List.length_cons, Nat.add_sub_add_right]

/-- The first of the appended nodes, seen from before its allocation. -/
theorem grow (hF : Followed env n (l ++ [(h.calls, none)]) h₁ r p h' k)
    (hcalls : h₁.calls = h.calls + 1) (hlen : l.length ≤ n) (hok : env.fails h.calls = false)
    (hframe : ∀ a, a ∉ (l ++ [(h.calls, none)]).map Prod.fst → h₁.get a = h.get a) :
    Followed env n l h r p h' (k + 1) := by
  have hlist : l ++ newNodes h.calls (k + 1) =
      (l ++ [(h.calls, none)]) ++ newNodes h₁.calls k := by
    rw [newNodes_succ, hcalls, List.append_assoc, List.singleton_append]
  have hmissing : n + 1 - (l ++ [(h.calls, (none : Ptr))]).length + 1 = n + 1 - l.length := by
    rw [List.length_append, List.length_singleton]
    omega
  constructor
  · rw [hlist]
    exact hF.list
  · intro a ha
    rw [hlist] at ha
    rw [hF.frame a ha, hframe a fun hin => ha (by simp_all)]
  · intro i hi
    cases i with
    | zero => exact hok
    | succ i =>
        rw [← Nat.add_assoc, Nat.add_right_comm, ← hcalls]
        exact hF.allocated i (Nat.lt_of_succ_lt_succ hi)
  · intro a ha
    obtain ⟨hk, hcalls', hget⟩ := hF.found a ha
    exact ⟨by omega, by omega, by rwa [hlist]⟩
  · intro hnone
    obtain ⟨hk, hcalls', hfail⟩ := hF.failed hnone
    refine ⟨by omega, by omega, ?_⟩
    rwa [hcalls, Nat.add_assoc, Nat.add_comm 1] at hfail

theorem fail (hl : IsList h p l) (hlen : l.length ≤ n) (hf : env.fails h.calls = true) :
    Followed env n l h none p h.fail 0 where
  list := by
    rw [newNodes_zero, List.append_nil]
    exact hl.congr fun a _ => Heap.get_fail h a
  frame a _ := Heap.get_fail h a
  allocated i hi := absurd hi (Nat.not_lt_zero i)
  found a ha := absurd ha (by simp)
  failed _ := ⟨by omega, Heap.calls_fail h, hf⟩

end Followed

/-- `while (n--)`: the induction is on the iterations left, over the nodes from `a` on. -/
theorem followList_followed (env : Kmem) (n : Nat) :
    ∀ {a : Nat} {data : Ptr} {rest : List Node} {h : Heap Block},
      IsList h (some a) ((a, data) :: rest) → ∃ r h' k, followList env n a h = .ok (r, h') ∧
        Followed env n ((a, data) :: rest) h r (some a) h' k := by
  induction n with
  | zero =>
      intro a data rest h hl
      refine ⟨some a, h, 0, rfl, by simpa using hl, fun _ _ => rfl,
        fun i hi => absurd hi (Nat.not_lt_zero i), ?_, by simp⟩
      rintro b ⟨⟩
      exact ⟨by simp, rfl, rfl⟩
  | succ n ih =>
      intro a data rest h hl
      obtain ⟨-, next, hnode, hrest⟩ := id hl
      have hload : loadNode h (some a) = .ok (data, next) := by simp [loadNode, hnode]
      cases rest with
      | cons node rest =>
          obtain ⟨rfl, -⟩ := id hrest
          obtain ⟨r, h', k, hrun, hF⟩ := ih hrest
          refine ⟨r, h', k, ?_, hF.cons hnode hl.not_mem_rest⟩
          simpa only [followList, hload, ok_bind] using hrun
      | nil =>
          obtain rfl : next = none := hrest
          cases hf : env.fails h.calls with
          | true =>
              refine ⟨none, h.fail, 0, ?_, Followed.fail hl (by simp) hf⟩
              simp only [followList, hload, ok_bind, kmalloc_of_fails hf]
          | false =>
              generalize hh₁ : (h.alloc (.deviceQset none none)).put a
                (.deviceQset data (some h.calls)) = h₁
              have hget (a' : Nat) := hh₁ ▸ Heap.get_alloc_put hnode (.deviceQset none none)
                (.deviceQset data (some h.calls)) a'
              have hne : h.calls ≠ a := (Heap.ne_calls_of_get hnode).symm
              have hnode₁ : h₁.get a = some (.deviceQset data (some h.calls)) := by
                rw [hget, if_pos rfl]
              have hnew : IsList h₁ (some h.calls) [(h.calls, none)] := by
                refine ⟨rfl, none, ?_, rfl⟩
                rw [hget, if_neg hne, if_pos rfl]
              have hcalls : h₁.calls = h.calls + 1 := by
                rw [← hh₁, Heap.calls_put, Heap.calls_alloc]
              obtain ⟨r, h', k, hrun, hF⟩ := ih hnew
              refine ⟨r, h', k + 1, ?_, ?_⟩
              · have hstore : storeNode (h.alloc (.deviceQset none none)) (some a) data
                    (some h.calls) = .ok h₁ := by
                  simp [storeNode, Heap.get_alloc_of_get hnode, hh₁]
                simpa only [followList, hload, ok_bind,
                  kmalloc_of_not_fails hf (show (0 : Int) ≤ 16 by decide), hstore] using hrun
              · refine (hF.cons hnode₁ (by simpa using hne.symm)).grow hcalls (by simp) hf ?_
                intro a' ha'
                simp only [List.singleton_append, List.map_cons, List.map_nil, List.mem_cons,
                  List.not_mem_nil, or_false, not_or] at ha'
                rw [hget, if_neg ha'.1, if_neg ha'.2]

theorem count_natCast {n : Nat} (hn : n ≤ intMax) : ((n : Int) % 2 ^ 32).toNat = n := by
  have hmax : intMax < 2 ^ 31 := by decide
  omega

/-- `device_follow`, by the number of iterations its count comes to. -/
theorem deviceFollow_followed (env : Kmem) {s : Kernel} {l : List Node} {n : Int} {m : Nat}
    (hl : IsList s.heap s.dev.data l) (hcount : (n % 2 ^ 32).toNat = m) :
    ∃ r h' p k, deviceFollow env n s = .ok (r, ⟨h', { s.dev with data := p }⟩) ∧
      Followed env m l s.heap r p h' k := by
  cases l with
  | cons node rest =>
      obtain ⟨hdata, -⟩ := id hl
      obtain ⟨r, h', k, hrun, hF⟩ := followList_followed env m (hdata ▸ hl)
      refine ⟨r, h', some node.1, k, ?_, hF⟩
      simp only [deviceFollow, hdata, hcount, hrun, ok_bind, pure_eq_ok]
      rw [← hdata]
  | nil =>
      have hdata : s.dev.data = none := hl
      cases hf : env.fails s.heap.calls with
      | true =>
          refine ⟨none, s.heap.fail, s.dev.data, 0, ?_, Followed.fail hl (Nat.zero_le m) hf⟩
          simp only [deviceFollow, hdata, kmalloc_of_fails hf]
          rw [← hdata]
      | false =>
          have hget := Heap.get_alloc s.heap (.deviceQset none none)
          have hnew : IsList (s.heap.alloc (.deviceQset none none)) (some s.heap.calls)
              [(s.heap.calls, none)] := by
            refine ⟨rfl, none, ?_, rfl⟩
            rw [hget, if_pos rfl]
          obtain ⟨r, h', k, hrun, hF⟩ := followList_followed env m hnew
          refine ⟨r, h', some s.heap.calls, k + 1, ?_, ?_⟩
          · simp only [deviceFollow, hdata, hcount, hrun, ok_bind, pure_eq_ok,
              kmalloc_of_not_fails hf (show (0 : Int) ≤ 16 by decide)]
          · refine Followed.grow hF (Heap.calls_alloc _ _) (Nat.zero_le m) hf fun a ha => ?_
            rw [hget, if_neg (by simpa using ha)]

/-- The list `l` of `h`, with `k` zeroed nodes behind it. -/
structure Extended (l : List Node) (h : Heap Block) (p : Ptr) (h' : Heap Block) (k : Nat) : Prop where
  list : IsList h' p (l ++ newNodes h.calls k)
  frame : ∀ a, a ∉ (l ++ newNodes h.calls k).map Prod.fst → h'.get a = h.get a
  calls : h'.calls = h.calls + k

section

variable {env : Kmem} {n k : Nat} {l : List Node} {h h₁ h' h'' : Heap Block} {r p p' : Ptr}

theorem Followed.extended {a : Nat} (hF : Followed env n l h (some a) p h' k) :
    Extended l h p h' k ∧ k = n + 1 - l.length := by
  obtain ⟨hk, hcalls, -⟩ := hF.found a rfl
  exact ⟨⟨hF.list, hF.frame, hcalls⟩, hk⟩

theorem Extended.refl (hl : IsList h p l) : Extended l h p h 0 where
  list := by simpa using hl
  frame _ _ := rfl
  calls := rfl

theorem Extended.trans {j : Nat} (h₁₂ : Extended l h p h₁ j)
    (h₂₃ : Extended (l ++ newNodes h.calls j) h₁ p' h' k) : Extended l h p' h' (j + k) := by
  have hlist : l ++ newNodes h.calls (j + k) =
      l ++ newNodes h.calls j ++ newNodes h₁.calls k := by
    rw [newNodes_add, h₁₂.calls, List.append_assoc]
  refine ⟨hlist ▸ h₂₃.list, fun a ha => ?_, ?_⟩
  · rw [hlist] at ha
    rw [h₂₃.frame a ha, h₁₂.frame a fun hin => ha ?_]
    rw [List.map_append]
    exact List.mem_append_left _ hin
  · rw [h₂₃.calls, h₁₂.calls, Nat.add_assoc]

/-- The extended heap is determined by the list and the number of new nodes. -/
theorem Extended.unique (h₁ : Extended l h p h' k) (h₂ : Extended l h p' h'' k) :
    h' = h'' ∧ p = p' := by
  have hlinks := IsList.iff_getElem?.mp h₁.list
  have hlinks' := IsList.iff_getElem?.mp h₂.list
  refine ⟨Heap.ext_get (h₁.calls.trans h₂.calls.symm) fun a => ?_, hlinks.1.trans hlinks'.1.symm⟩
  by_cases ha : a ∈ (l ++ newNodes h.calls k).map Prod.fst
  · obtain ⟨⟨a, data⟩, hmem, rfl⟩ := List.mem_map.mp ha
    obtain ⟨i, hi⟩ := List.mem_iff_getElem?.mp hmem
    rw [hlinks.2 i a data hi, hlinks'.2 i a data hi]
  · rw [h₁.frame a ha, h₂.frame a ha]

/-- Below the end of the list nothing is allocated and nothing changes. -/
theorem Followed.of_lt (hF : Followed env n l h r p h' k) (hl : IsList h p' l) (hn : n < l.length) :
    h' = h ∧ p = p' ∧ ∃ a, r = some a ∧ l[n]?.map Prod.fst = some a := by
  cases r with
  | none =>
      have hk := (hF.failed rfl).1
      omega
  | some a =>
      obtain ⟨hext, hk⟩ := hF.extended
      obtain rfl : k = 0 := by omega
      obtain ⟨hh, hp⟩ := hext.unique (Extended.refl hl)
      refine ⟨hh, hp, a, rfl, ?_⟩
      simpa using (hF.found a rfl).2.2

end

/-- `device_follow` at an item of the list. -/
theorem deviceFollow_of_lt_length (env : Kmem) {s : Kernel} {l : List Node} {n : Int} {m : Nat}
    (hl : IsList s.heap s.dev.data l) (hcount : (n % 2 ^ 32).toNat = m) (hlt : m < l.length) :
    ∃ a, deviceFollow env n s = .ok (some a, s) ∧ l[m]?.map Prod.fst = some a := by
  obtain ⟨r, h', p, k, hrun, hF⟩ := deviceFollow_followed env hl hcount
  obtain ⟨rfl, rfl, a, rfl, ha⟩ := hF.of_lt hl hlt
  exact ⟨a, hrun, ha⟩

/-- Two calls that succeed extend the list to the farther item. -/
theorem deviceFollow_twice {env : Kmem} {s s₁ s₂ : Kernel} {l : List Node} {n₁ n₂ a₁ a₂ : Nat}
    (hl : IsList s.heap s.dev.data l) (hn₁ : n₁ ≤ intMax) (hn₂ : n₂ ≤ intMax)
    (h₁ : deviceFollow env n₁ s = .ok (some a₁, s₁))
    (h₂ : deviceFollow env n₂ s₁ = .ok (some a₂, s₂)) :
    s₂.dev = { s.dev with data := s₂.dev.data } ∧
      Extended l s.heap s₂.dev.data s₂.heap (max n₁ n₂ + 1 - l.length) := by
  obtain ⟨r₁, h₁', p₁, k₁, hrun₁, hF₁⟩ := deviceFollow_followed env hl (count_natCast hn₁)
  obtain ⟨rfl, rfl⟩ := Prod.mk.inj (Except.ok.inj (hrun₁.symm.trans h₁))
  obtain ⟨r₂, h₂', p₂, k₂, hrun₂, hF₂⟩ := deviceFollow_followed env
    (s := ⟨h₁', { s.dev with data := p₁ }⟩) hF₁.list (count_natCast hn₂)
  obtain ⟨rfl, rfl⟩ := Prod.mk.inj (Except.ok.inj (hrun₂.symm.trans h₂))
  obtain ⟨hext₁, hk₁⟩ := hF₁.extended
  obtain ⟨hext₂, hk₂⟩ := hF₂.extended
  refine ⟨rfl, ?_⟩
  have htwo := hext₁.trans hext₂
  rw [List.length_append, length_newNodes] at hk₂
  rwa [show max n₁ n₂ + 1 - l.length = k₁ + k₂ by omega]

/-- What `device_follow` does to a device with the nodes `l`, at every item and with every allocator:
it returns, extends the list as `Followed` says and touches nothing else; below the end of the list it
allocates nothing; and two calls that succeed can be made in either order. -/
structure FollowsExactly (s : Kernel) (l : List Node) : Prop where
  follows : ∀ (env : Kmem) (n : Nat), n ≤ intMax → ∃ r s' k,
    deviceFollow env n s = .ok (r, s') ∧ s'.dev = { s.dev with data := s'.dev.data } ∧
      Followed env n l s.heap r s'.dev.data s'.heap k ∧ (n < l.length → s' = s)
  order : ∀ (env env' : Kmem) (n₁ n₂ a₁ a₂ b₁ b₂ : Nat) (s₁ s₂ t₁ t₂ : Kernel),
    n₁ ≤ intMax → n₂ ≤ intMax →
    deviceFollow env n₁ s = .ok (some a₁, s₁) → deviceFollow env n₂ s₁ = .ok (some a₂, s₂) →
    deviceFollow env' n₂ s = .ok (some b₁, t₁) → deviceFollow env' n₁ t₁ = .ok (some b₂, t₂) →
    s₂ = t₂

/-- The list walk extends the list to the item it is asked for and no further. -/
theorem deviceFollow_exact {s : Kernel} {l : List Node} (hl : IsList s.heap s.dev.data l) :
    FollowsExactly s l := by
  constructor
  · intro env n hn
    obtain ⟨r, h', p, k, hrun, hF⟩ := deviceFollow_followed env hl (count_natCast hn)
    refine ⟨r, _, k, hrun, rfl, hF, fun hlt => ?_⟩
    obtain ⟨rfl, rfl, -⟩ := hF.of_lt hl hlt
    rfl
  · intro env env' n₁ n₂ a₁ a₂ b₁ b₂ s₁ s₂ t₁ t₂ hn₁ hn₂ hs₁ hs₂ ht₁ ht₂
    obtain ⟨hdev, hext⟩ := deviceFollow_twice hl hn₁ hn₂ hs₁ hs₂
    obtain ⟨hdev', hext'⟩ := deviceFollow_twice hl hn₂ hn₁ ht₁ ht₂
    rw [Nat.max_comm] at hext'
    obtain ⟨hheap, hdata⟩ := hext.unique hext'
    obtain ⟨heap, dev⟩ := s₂
    obtain ⟨heap', dev'⟩ := t₂
    simp only at hdev hdev' hheap hdata
    rw [hheap, hdev, hdev', hdata]

theorem deviceFollow_exact_two : FollowsExactly
    ⟨⟨[some (.deviceQset (some 1) (some 2)), some (.slots [none]), some (.deviceQset none none)]⟩,
      ⟨some 0, 4, 1, 0, 1⟩⟩ [(0, some 1), (2, none)] :=
  deviceFollow_exact ⟨rfl, some 2, rfl, rfl, none, rfl, rfl⟩

end CharDriver.Chardev
