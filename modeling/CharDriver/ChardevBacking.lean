import CharDriver.ChardevLayout
import CharDriver.ChardevStore

/-! The blocks of the device against the store: each part of a call that works on blocks alone, run
on blocks that back a store, runs through and leaves blocks that back the store after it. What `dev`
says about the size plays no part in it. -/

namespace CharDriver.Chardev

open Base

/-- The blocks from `data` on are those of the store, at the places of the layout. -/
structure Backs (h : Heap Block) (data : Ptr) (st : Store) (L : Layout) : Prop where
  heap : Represents h L st.quantum st.qset st.byte
  data : data = L.nodes[0]?
  calls : h.calls = st.calls
  nodes : L.nodes.length = st.nodes
  array : ∀ i, (L.arr i).isSome = st.array i
  block : ∀ k, (L.blk k).isSome = st.block k
  geometry : Geometry st.quantum st.qset

theorem backs_of_dead {h : Heap Block} (hdead : ∀ a, h.get a = none) {st : Store}
    (hg : Geometry st.quantum st.qset) (hcalls : h.calls = st.calls) (hnodes : st.nodes = 0)
    (harray : ∀ i, st.array i = false) (hblock : ∀ k, st.block k = false) :
    Backs h none st Layout.empty where
  heap := represents_of_dead hdead _ _ _
  data := rfl
  calls := hcalls
  nodes := hnodes.symm
  array i := (harray i).symm
  block k := (hblock k).symm
  geometry := hg

/-- The list item is converted to `int`; the slot and the place in it are exact. -/
theorem locate_spec {quantum qset p : Nat} (hg : Geometry quantum qset)
    (hp : p < 2 ^ 63) :
    locate quantum (toInt ((quantum : Int) * qset)) p =
      .ok ⟨toInt (p / (quantum * qset) : Nat), (p / quantum % qset : Nat), (p % quantum : Nat)⟩ := by
  have hpos : 0 < quantum * qset := Nat.mul_pos hg.quantum_pos hg.qset_pos
  have hfits := hg.fits
  have hitemsize : toInt ((quantum : Int) * qset) = ((quantum * qset : Nat) : Int) := by
    rw [← Int.natCast_mul, toInt_natCast hfits]
  have hrest : p % (quantum * qset) < quantum * qset := Nat.mod_lt _ hpos
  have hmax : intMax < 2 ^ 31 := by decide
  have hquot : p % (quantum * qset) / quantum ≤ p % (quantum * qset) := Nat.div_le_self _ _
  have hsmall : (2 : Nat) ^ 31 ≤ 2 ^ 63 := by decide
  have hitem : p / (quantum * qset) ≤ p := Nat.div_le_self _ _
  have hslot : p % (quantum * qset) / quantum = p / quantum % qset :=
    Nat.mod_mul_right_div_self p quantum qset
  have hoff : p % (quantum * qset) % quantum = p % quantum :=
    Nat.mod_mod_of_dvd p (Nat.dvd_mul_right quantum qset)
  rw [locate, hitemsize, idiv, divide_natCast hpos (by simpa using by omega)]
  simp only [ok_bind, imod]
  rw [remainder_natCast hpos (by simpa using by omega)]
  simp only [ok_bind, idiv]
  rw [toInt_natCast (n := p % (quantum * qset)) (by omega),
    divide_natCast hg.quantum_pos (by simpa using by omega)]
  simp only [ok_bind]
  rw [remainder_natCast hg.quantum_pos (by simpa using by omega)]
  simp only [ok_bind, pure_eq_ok, hslot, hoff]

theorem clampLen_spec {quantum qset : Nat} (hg : Geometry quantum qset) (p len : Nat) :
    clampLen quantum (p % quantum : Nat) len = Store.piece quantum p len := by
  have hlt := Nat.mod_lt p hg.quantum_pos
  have hle := hg.quantum_le
  have hmax : intMax < 2 ^ 31 := by decide
  have hleft : toULong (toInt ((quantum : Int) - (p % quantum : Nat))) = quantum - p % quantum := by
    rw [← Int.ofNat_sub (Nat.le_of_lt hlt), toInt_natCast (by omega), toULong_natCast (by omega)]
  simp only [clampLen, hleft, Store.piece]
  split <;> omega

theorem piece_le_intMax {quantum qset : Nat} (hg : Geometry quantum qset) (p len : Nat) :
    Store.piece quantum p len ≤ intMax := by
  have hle := hg.quantum_le
  have := mod_add_piece_le hg.quantum_pos p len
  omega

theorem Store.grow_spec (env : Kmem) (missing nodes calls : Nat) :
    nodes ≤ (Store.grow env missing nodes calls).2.1 ∧
      ((Store.grow env missing nodes calls).1 = true →
        (Store.grow env missing nodes calls).2.1 = nodes + missing) := by
  induction missing generalizing nodes calls with
  | zero => exact ⟨Nat.le_refl nodes, fun _ => rfl⟩
  | succ missing ih =>
      rw [Store.grow]
      split
      · exact ⟨Nat.le_refl nodes, by simp⟩
      · obtain ⟨hle, heq⟩ := ih (nodes + 1) (calls + 1)
        exact ⟨by omega, fun h => by rw [heq h]; omega⟩

theorem Store.grow_of_allocated {env : Kmem} {missing nodes calls k : Nat} (hk : k ≤ missing)
    (hok : ∀ i < k, env.fails (calls + i) = false) :
    Store.grow env missing nodes calls = Store.grow env (missing - k) (nodes + k) (calls + k) := by
  induction k with
  | zero => rfl
  | succ k ih =>
      rw [ih (Nat.le_of_succ_le hk) fun i hi => hok i (Nat.lt_succ_of_lt hi),
        show missing - k = missing - (k + 1) + 1 by omega, Store.grow, hok k (Nat.lt_succ_self k)]
      rfl

/-- Following the list counts nodes and calls as growing the store does. -/
theorem Followed.grow_eq {env : Kmem} {n k : Nat} {l : List Node} {h h' : Heap Block} {r p : Ptr}
    (hF : Followed env n l h r p h' k) :
    Store.grow env (n + 1 - l.length) l.length h.calls = (r.isSome, l.length + k, h'.calls) := by
  cases r with
  | some a =>
      obtain ⟨hk, hcalls, -⟩ := hF.found a rfl
      rw [Store.grow_of_allocated (Nat.le_of_eq hk) hF.allocated, ← hk, Nat.sub_self, hcalls]
      rfl
  | none =>
      obtain ⟨hk, hcalls, hfail⟩ := hF.failed rfl
      rw [Store.grow_of_allocated (Nat.le_of_lt hk) hF.allocated,
        show n + 1 - l.length - k = n + 1 - l.length - (k + 1) + 1 by omega, Store.grow,
        if_pos hfail, hcalls]
      rfl

section

variable (env : Kmem) {h : Heap Block} {data : Ptr} {s : Kernel} {st : Store} {L : Layout}

theorem Backs.isList (hs : Backs h data st L) : IsList h data L.list :=
  hs.data ▸ hs.heap.isList

theorem Store.follow_spec (env : Kmem) (n : Nat) (st : Store) (h : (st.follow env n).1 = true) :
    n < (st.follow env n).2.nodes := by
  have hgrow := (Store.grow_spec env (n + 1 - st.nodes) st.nodes st.calls).2 h
  change n < (Store.grow env (n + 1 - st.nodes) st.nodes st.calls).2.1
  omega

theorem Store.follow_of_lt {n : Nat} (hn : n < st.nodes) : st.follow env n = (true, st) := by
  rw [Store.follow, show n + 1 - st.nodes = 0 by omega]
  rfl

/-- `device_follow`, by the number of iterations its count comes to. -/
theorem deviceFollow_backs (hs : Backs s.heap s.dev.data st L) {n : Int} {m : Nat}
    (hcount : (n % 2 ^ 32).toNat = m) : ∃ r h' p L',
      deviceFollow env n s = .ok (r, ⟨h', { s.dev with data := p }⟩) ∧
      Backs h' p (st.follow env m).2 L' ∧ (st.follow env m).1 = r.isSome ∧
      ∀ b, r = some b → L'.nodes[m]? = some b := by
  obtain ⟨r, h', p, k, hrun, hF⟩ := deviceFollow_followed env hs.isList hcount
  obtain ⟨hR, hp⟩ := hs.heap.extend hF.list hF.frame
  have hnodes : (L.nodes ++ List.range' s.heap.calls k).length = st.nodes + k := by
    rw [List.length_append, List.length_range', hs.nodes]
  have hgrow := hF.grow_eq
  rw [Layout.length_list, hs.nodes, hs.calls, ← hnodes] at hgrow
  refine ⟨r, h', p, { L with nodes := L.nodes ++ List.range' s.heap.calls k }, hrun, ?_,
    by simp only [Store.follow, hgrow], fun b hb => ?_⟩
  · simp only [Store.follow, hgrow]
    exact { hs with heap := hR, data := hp, calls := rfl, nodes := rfl }
  · have hfound := (hF.found b hb).2.2
    rwa [← List.getElem?_map, List.map_append, Layout.list_addresses, newNodes_addresses] at hfound

/-- The list walk allocates nothing where the node exists. -/
theorem deviceFollow_of_lt (hs : Backs s.heap s.dev.data st L) {n : Int} {m : Nat}
    (hcount : (n % 2 ^ 32).toNat = m) (hlt : m < st.nodes) :
    deviceFollow env n s = .ok (L.nodes[m]?, s) := by
  obtain ⟨a, hrun, ha⟩ := deviceFollow_of_lt_length env hs.isList hcount
    (by rwa [Layout.length_list, hs.nodes])
  rw [hrun, ← L.address_list, ha]

/-- The slot array of a node that exists. -/
theorem ensureArray_backs (hs : Backs h data st L) {i a : Nat} (ha : L.nodes[i]? = some a) :
    ∃ r h' L', ensureArray env st.qset a h = .ok (r, h') ∧
      Backs h' data (st.ensureArray env i).2 L' ∧
      (st.ensureArray env i).1 = r.isSome ∧ ∀ b, r = some b → L'.arr i = some b := by
  have hload : loadNode h (some a) = .ok (L.arr i, L.nodes[i + 1]?) := by
    simp [loadNode, hs.heap.node i a ha]
  have harray := hs.array i
  cases harr : L.arr i with
  | some c =>
      have hst : st.array i = true := by simpa [harr] using harray.symm
      rw [Store.ensureArray, if_pos hst]
      refine ⟨some c, h, L, ?_, hs, rfl, fun b hb => hb ▸ harr⟩
      simp only [ensureArray, hload, harr, ok_bind]
  | none =>
      have hst : ¬st.array i = true := by simp [← harray, harr]
      rw [Store.ensureArray, if_neg hst]
      have hsize : (0 : Int) ≤ st.qset * 8 := by omega
      cases hf : env.fails h.calls with
      | true =>
          rw [if_pos (hs.calls ▸ hf)]
          refine ⟨none, h.fail, L, ?_, ?_, rfl, by simp⟩
          · simp only [ensureArray, hload, harr, ok_bind, kmalloc_of_fails hf]
          · exact { hs with heap := hs.heap.fail, calls := by simp [hs.calls] }
      | false =>
          rw [if_neg (by simp [← hs.calls, hf])]
          have hR := hs.heap.addArray ha harr hs.geometry.qset_pos
          have hnode := Heap.get_alloc_of_get (hs.heap.node i a ha)
            (.slots (List.replicate st.qset none))
          have hs' : Backs ((h.alloc (.slots (List.replicate st.qset none))).put a
                (.deviceQset (some h.calls) L.nodes[i + 1]?)) data
              { st with calls := st.calls + 1, array := Function.update st.array i true }
              { L with arr := Function.update L.arr i (some h.calls) } :=
            { hs with
              heap := hR
              calls := by simp [hs.calls]
              array := fun i' => by
                simp only [Function.update_apply]
                split
                · rfl
                · exact hs.array i' }
          refine ⟨some h.calls, _, _, ?_, hs', rfl, by simp⟩
          have hstore : storeNode (h.alloc (.slots (List.replicate st.qset none))) (some a)
              (some h.calls) L.nodes[i + 1]? =
                .ok ((h.alloc (.slots (List.replicate st.qset none))).put a
                  (.deviceQset (some h.calls) L.nodes[i + 1]?)) := by
            simp [storeNode, hnode]
          simp only [ensureArray, hload, harr, ok_bind, kmalloc_of_not_fails hf hsize,
            Int.toNat_natCast, hstore, pure_eq_ok]

theorem Store.ensureArray_spec (env : Kmem) (i : Nat) (st : Store) :
    (st.ensureArray env i).2.quantum = st.quantum ∧ (st.ensureArray env i).2.qset = st.qset ∧
      (st.ensureArray env i).2.nodes = st.nodes := by
  obtain ⟨calls, array, heq⟩ := Store.ensureArray_keeps env i st
  rw [heq]
  exact ⟨rfl, rfl, rfl⟩

/-- The quantum of a slot, in an array that exists. -/
theorem ensureQuantum_backs (hs : Backs h data st L) {p a : Nat}
    (ha : L.arr (st.item p) = some a) :
    ∃ r h' L', ensureQuantum env st.quantum (some a) (p / st.quantum % st.qset : Nat) h =
        .ok (r, h') ∧
      Backs h' data (st.ensureBlock env (p / st.quantum)).2 L' ∧
      (st.ensureBlock env (p / st.quantum)).1 = r.isSome ∧
      ∀ b, r = some b → L'.blk (p / st.quantum) = some b := by
  have hslot : st.item p * st.qset + p / st.quantum % st.qset = p / st.quantum := item_slot p
  have hlt : p / st.quantum % st.qset < st.qset := Nat.mod_lt _ hs.geometry.qset_pos
  have harray := hs.heap.slots (st.item p) a ha
  have hload : loadSlot h (some a) (p / st.quantum % st.qset : Nat) =
      .ok (L.blk (p / st.quantum)) := by
    simp only [loadSlot, Option.bind_some, harray, Int.toNat_natCast, List.getElem?_map,
      List.getElem?_range hlt, Option.map_some, hslot]
    rw [if_pos (Int.natCast_nonneg _)]
  have hblock := hs.block (p / st.quantum)
  cases hblk : L.blk (p / st.quantum) with
  | some c =>
      have hst : st.block (p / st.quantum) = true := by simpa [hblk] using hblock.symm
      rw [Store.ensureBlock, if_pos hst]
      refine ⟨some c, h, L, ?_, hs, rfl, fun b hb => hb ▸ hblk⟩
      simp only [ensureQuantum, hload, hblk, ok_bind]
  | none =>
      have hst : ¬st.block (p / st.quantum) = true := by simp [← hblock, hblk]
      rw [Store.ensureBlock, if_neg hst]
      have hsize : (0 : Int) ≤ st.quantum := Int.natCast_nonneg _
      cases hf : env.fails h.calls with
      | true =>
          rw [if_pos (hs.calls ▸ hf)]
          refine ⟨none, h.fail, L, ?_, ?_, rfl, by simp⟩
          · simp only [ensureQuantum, hload, hblk, ok_bind, kmalloc_of_fails hf]
          · exact { hs with heap := hs.heap.fail, calls := by simp [hs.calls] }
      | false =>
          rw [if_neg (by simp [← hs.calls, hf])]
          have hR := hs.heap.addBlock (env.old h.calls) ha hlt (by rw [hslot, hblk])
          rw [hslot] at hR
          have hs' : Backs ((h.alloc (.quantum ((List.range st.quantum).map
                (env.old h.calls)))).put a
                (.slots (((List.range st.qset).map fun j => L.blk (st.item p * st.qset + j)).set
                  (p / st.quantum % st.qset) (some h.calls)))) data
              { st with
                calls := st.calls + 1
                block := Function.update st.block (p / st.quantum) true
                byte := fun q => if q / st.quantum = p / st.quantum then
                  env.old st.calls (q % st.quantum) else st.byte q }
              { L with blk := Function.update L.blk (p / st.quantum) (some h.calls) } :=
            { hs with
              heap := hs.calls ▸ hR
              calls := by simp [hs.calls]
              block := fun k => by
                simp only [Function.update_apply]
                split
                · rfl
                · exact hs.block k }
          refine ⟨some h.calls, _, _, ?_, hs', rfl, by simp⟩
          have hold := Heap.get_alloc_of_get harray
            (.quantum ((List.range st.quantum).map (env.old h.calls)))
          have hstore : storeSlot (h.alloc (.quantum ((List.range st.quantum).map
                (env.old h.calls)))) (some a) (p / st.quantum % st.qset : Nat)
                (some h.calls) =
              .ok ((h.alloc (.quantum ((List.range st.quantum).map
                (env.old h.calls)))).put a
                (.slots (((List.range st.qset).map fun j => L.blk (st.item p * st.qset + j)).set
                  (p / st.quantum % st.qset) (some h.calls)))) := by
            have hin : ((p / st.quantum % st.qset : Nat) : Int) < st.qset := by exact_mod_cast hlt
            simp only [storeSlot, Option.bind_some, hold, List.length_map, List.length_range,
              Int.toNat_natCast]
            rw [if_pos ⟨Int.natCast_nonneg _, hin⟩]
          simp only [ensureQuantum, hload, hblk, ok_bind, kmalloc_of_not_fails hf hsize,
            Int.toNat_natCast, hstore, pure_eq_ok]

theorem Store.ensureBlock_spec (env : Kmem) (k : Nat) (st : Store) :
    (st.ensureBlock env k).2.quantum = st.quantum ∧ (st.ensureBlock env k).2.qset = st.qset ∧
      (st.ensureBlock env k).2.nodes = st.nodes := by
  unfold Store.ensureBlock
  split
  · exact ⟨rfl, rfl, rfl⟩
  · split <;> exact ⟨rfl, rfl, rfl⟩

theorem slotOf_spec (hs : Backs h data st L) {p a : Nat} (ha : L.nodes[st.item p]? = some a) :
    slotOf h (some a) (p / st.quantum % st.qset : Nat) = .ok (L.blk (p / st.quantum)) := by
  have hload : loadNode h (some a) = .ok (L.arr (st.item p), L.nodes[st.item p + 1]?) := by
    simp [loadNode, hs.heap.node _ a ha]
  have hlt : p / st.quantum % st.qset < st.qset := Nat.mod_lt _ hs.geometry.qset_pos
  have hslot : st.item p * st.qset + p / st.quantum % st.qset = p / st.quantum := item_slot p
  simp only [slotOf, hload, ok_bind]
  cases harr : L.arr (st.item p) with
  | none =>
      cases hblk : L.blk (p / st.quantum) with
      | none => rfl
      | some b =>
          obtain ⟨c, hc⟩ := hs.heap.blk_arr _ b hblk
          rw [item_eq, ← Store.item, harr] at hc
          simp at hc
  | some c =>
      simp only [loadSlot, Option.bind_some, hs.heap.slots _ c harr, Int.toNat_natCast,
        List.getElem?_map, List.getElem?_range hlt, Option.map_some, hslot]
      rw [if_pos (Int.natCast_nonneg _)]

theorem loadBytes_spec (hs : Backs h data st L) {p a len : Nat}
    (ha : L.blk (p / st.quantum) = some a) (hfit : p % st.quantum + len ≤ st.quantum) :
    loadBytes h (some a) (p % st.quantum : Nat) len =
      .ok ((List.range len).map fun i => st.byte (p + i)) := by
  have hp : p / st.quantum * st.quantum + p % st.quantum = p := by
    rw [Nat.mul_comm]
    exact Nat.div_add_mod p st.quantum
  have hin : ((p % st.quantum : Nat) : Int) + len ≤ st.quantum := by exact_mod_cast hfit
  simp only [loadBytes, Option.bind_some, hs.heap.bytes _ a ha, List.length_map, List.length_range,
    Int.toNat_natCast]
  rw [if_pos ⟨Int.natCast_nonneg _, hin⟩, drop_take_map_range _ _ hfit, hp]

theorem storeBytes_backs {d : Ptr} (hs : Backs h d st L) {p a : Nat} (data : List UInt8)
    (ha : L.blk (p / st.quantum) = some a) (hfit : p % st.quantum + data.length ≤ st.quantum) :
    ∃ h', storeBytes h (some a) (p % st.quantum : Nat) data = .ok h' ∧
      Backs h' d (st.fill p data) L := by
  have hp : p / st.quantum * st.quantum + p % st.quantum = p := by
    rw [Nat.mul_comm]
    exact Nat.div_add_mod p st.quantum
  have hin : ((p % st.quantum : Nat) : Int) + data.length ≤ st.quantum := by exact_mod_cast hfit
  have hR := hs.heap.writeBytes ha hfit
  rw [hp] at hR
  have hs' : Backs (h.put a _) d (st.fill p data) L :=
    { hs with heap := hR, calls := (Heap.calls_put _ _ _).trans hs.calls }
  refine ⟨_, ?_, hs'⟩
  simp only [storeBytes, Option.bind_some, hs.heap.bytes _ a ha, List.length_map, List.length_range,
    Int.toNat_natCast]
  rw [if_pos ⟨Int.natCast_nonneg _, hin⟩]

/-- Everything `device_write` does before it copies, at an offset whose item comes to that of `p`. -/
theorem deviceWriteBody_prepares (hs : Backs s.heap s.dev.data st L) {p : Nat} {item ppos : Int}
    (hplace : locate st.quantum (toInt ((st.quantum : Int) * st.qset)) ppos =
      .ok ⟨item, (p / st.quantum % st.qset : Nat), (p % st.quantum : Nat)⟩)
    (hitem : (item % 2 ^ 32).toNat = st.item p) (buff : List UInt8) (fault : Option Nat) :
    ∃ h' d' L', Backs h' d' (st.prepare env p).2 L' ∧
      ((st.prepare env p).1 = false →
        deviceWriteBody env st.quantum st.qset (toInt ((st.quantum : Int) * st.qset)) buff fault
          ppos s = .ok (⟨-eNOMEM, [], ppos⟩, ⟨h', { s.dev with data := d' }⟩)) ∧
      ((st.prepare env p).1 = true → ∃ a, L'.blk (p / st.quantum) = some a ∧
        st.item p < (st.prepare env p).2.nodes ∧
        deviceWriteBody env st.quantum st.qset (toInt ((st.quantum : Int) * st.qset)) buff fault
          ppos s = copyIn st.quantum (p % st.quantum : Nat) (some a) buff fault ppos
            ⟨h', { s.dev with data := d' }⟩) := by
  obtain ⟨r, h₁, d₁, L₁, hfollow, hs₁, hok₁, hnode⟩ := deviceFollow_backs env hs hitem
  have hlong := Store.follow_spec env (st.item p) st
  simp only [deviceWriteBody, hplace, hfollow, ok_bind, Store.prepare]
  generalize hst₁ : st.follow env (st.item p) = f₁ at hs₁ hok₁ hlong
  obtain ⟨ok₁, st₁⟩ := f₁
  have hq₁ : st₁.quantum = st.quantum := (congrArg (fun r => r.2.quantum) hst₁).symm
  have hqs₁ : st₁.qset = st.qset := (congrArg (fun r => r.2.qset) hst₁).symm
  simp only at hs₁ hok₁ hlong
  subst hok₁
  cases r with
  | none => exact ⟨h₁, d₁, L₁, hs₁, fun _ => rfl, by simp⟩
  | some dptr =>
      obtain ⟨r, h₂, L₂, harray, hs₂, hok₂, harr⟩ := ensureArray_backs env hs₁ (hnode dptr rfl)
      have hkeep₂ := Store.ensureArray_spec env (st.item p) st₁
      rw [hqs₁] at harray
      simp only [Option.isSome_some, harray, ok_bind]
      generalize st₁.ensureArray env (st.item p) = f₂ at hs₂ hok₂ hkeep₂
      obtain ⟨ok₂, st₂⟩ := f₂
      obtain ⟨hq₂, hqs₂, hnodes₂⟩ := hkeep₂
      simp only at hs₂ hok₂ hq₂ hqs₂ hnodes₂
      subst hok₂
      cases r with
      | none => exact ⟨h₂, d₁, L₂, hs₂, fun _ => rfl, by simp⟩
      | some array =>
          have hitem₂ : st₂.item p = st.item p := by
            rw [Store.item, hq₂, hqs₂, hq₁, hqs₁, Store.item]
          obtain ⟨r, h₃, L₃, hquantum, hs₃, hok₃, hblk⟩ :=
            ensureQuantum_backs env hs₂ (hitem₂.symm ▸ harr array rfl)
          have hkeep₃ := Store.ensureBlock_spec env (p / st.quantum) st₂
          rw [hq₂, hqs₂, hq₁, hqs₁] at hquantum
          rw [hq₂, hq₁] at hs₃ hok₃ hblk
          simp only [Option.isSome_some, hquantum, ok_bind]
          generalize st₂.ensureBlock env (p / st.quantum) = f₃ at hs₃ hok₃ hkeep₃
          obtain ⟨ok₃, st₃⟩ := f₃
          obtain ⟨hq₃, hqs₃, hnodes₃⟩ := hkeep₃
          simp only at hs₃ hok₃ hnodes₃
          subst hok₃
          cases r with
          | none => exact ⟨h₃, d₁, L₃, hs₃, fun _ => rfl, by simp⟩
          | some slot =>
              refine ⟨h₃, d₁, L₃, hs₃, by simp, fun _ => ⟨slot, hblk slot rfl, ?_, rfl⟩⟩
              rw [hnodes₃, hnodes₂]
              exact hlong rfl

/-- The part of `device_write` from the copy on. -/
theorem copyIn_backs (hs : Backs s.heap s.dev.data st L) {p a : Nat}
    (ha : L.blk (p / st.quantum) = some a) (buff : List UInt8) (fault : Option Nat) (ppos : Int) :
    ∃ h', Backs h' s.dev.data (st.fill p
        (received fault (buff.take (Store.piece st.quantum p buff.length)))) L ∧
      copyIn st.quantum (p % st.quantum : Nat) (some a) buff fault ppos s =
        if copied fault (Store.piece st.quantum p buff.length) <
            Store.piece st.quantum p buff.length then
          .ok (⟨-eFAULT, [], ppos⟩, { s with heap := h' })
        else
          .ok (⟨Store.piece st.quantum p buff.length, [],
            toLong (ppos + Store.piece st.quantum p buff.length)⟩,
            ⟨h', { s.dev with
              size := max s.dev.size
                (toULong (toLong (ppos + Store.piece st.quantum p buff.length))) }⟩) := by
  have hg := hs.geometry
  have hpiece := mod_add_piece_le hg.quantum_pos p buff.length
  have hmax := piece_le_intMax hg p buff.length
  have hint : intMax < 2 ^ 31 := by decide
  obtain ⟨h', hrun, hs'⟩ := storeBytes_backs hs
    (received fault (buff.take (Store.piece st.quantum p buff.length))) ha
    (by rw [length_received, List.length_take]; omega)
  refine ⟨h', hs', ?_⟩
  simp only [copyIn, clampLen_spec hg, hrun, ok_bind]
  rw [toLong_natCast (n := Store.piece st.quantum p buff.length) (by omega)]
  split
  · rfl
  · split
    · rw [Nat.max_eq_right (by omega)]
    · rw [Nat.max_eq_left (by omega)]

end

end CharDriver.Chardev
