import CharDriver.ChardevBytes

/-! How a writer cuts its data does not matter. From any reachable state and any offset in range, the
loop that resubmits what a short write left over ends with the data in place, the size moved to its
end and every other byte as it was, whatever counts it chooses. Without data it makes no call. -/

namespace CharDriver.Chardev

open Base

/-- The writer's loop: call `j` offers the first `pick j n` of the `n` bytes that are left. It ends
with the state, the offset and the count of each call; `none` when a call moves nothing or the loop
does not end within `fuel` calls. -/
def writeRest (env : Kmem) (pick : Nat → Nat → Nat) :
    Nat → Nat → Int → List UInt8 → Kernel → Except Oops (Option (Kernel × Int × List Int))
  | _, _, ppos, [], s => .ok (some (s, ppos, []))
  | 0, _, _, _ :: _, _ => .ok none
  | fuel + 1, j, ppos, b :: bs, s => do
      let (r, s) ← deviceWrite env ((b :: bs).take (pick j (b :: bs).length)) false none ppos s
      if r.ret ≤ 0 then return none
      else
        let rest ← writeRest env pick fuel (j + 1) r.ppos ((b :: bs).drop r.ret.toNat) s
        return rest.map fun (s, ppos, counts) => (s, ppos, r.ret :: counts)

structure WrittenFrom (s : Kernel) (p : Nat) (d : List UInt8) (s' : Kernel) : Prop where
  size : s'.dev.size = if d = [] then s.dev.size else max s.dev.size (p + d.length)
  data : ∀ i b, d[i]? = some b → s'.byteAt (p + i) = some b
  others : ∀ (a : Nat) (b : UInt8), (a : Int) / (s.dev.quantum * s.dev.qset) ≤ intMax →
    (a < p ∨ p + d.length ≤ a) → s.byteAt a = some b → s'.byteAt a = some b

/-- The first `m` bytes of the data have been written from `p` on, into what was the store `st₀`. -/
structure Filled (st₀ : Store) (p : Nat) (d : List UInt8) (m : Nat) (st : Store) : Prop where
  quantum : st.quantum = st₀.quantum
  qset : st.qset = st₀.qset
  size : st.size = if m = 0 then st₀.size else max st₀.size (p + m)
  block : ∀ j, st₀.block j = true → st.block j = true
  filled : ∀ i < m, st.block ((p + i) / st₀.quantum) = true
  data : ∀ i < m, d[i]? = some (st.byte (p + i))
  others : ∀ a, st₀.block (a / st₀.quantum) = true → (a < p ∨ p + m ≤ a) → st.byte a = st₀.byte a

theorem filled_zero (st₀ : Store) (p : Nat) (d : List UInt8) : Filled st₀ p d 0 st₀ where
  quantum := rfl
  qset := rfl
  size := rfl
  block _ h := h
  filled _ h := absurd h (Nat.not_lt_zero _)
  data _ h := absurd h (Nat.not_lt_zero _)
  others _ _ _ := rfl

section

variable {env : Kmem} {st₀ st : Store} {p m : Nat} {d : List UInt8}

theorem Filled.wrote (hF : Filled st₀ p d m st) (hq : 0 < st₀.quantum) {n len : Nat} {st' : Store}
    (hlen : 0 < len) (hpiece : len = Store.piece st.quantum (p + m) n) (hn : m + n ≤ d.length)
    (hwrap : st.wrapped (p + m) = p + m) (hsize : st'.size = max st.size (p + m + len))
    (hw : Wrote st (((d.drop m).take n).take len) (p + m) st') : Filled st₀ p d (m + len) st' := by
  have hle : len ≤ n := hpiece ▸ piece_le (p + m) n
  have hdiv {i : Nat} (hi : i < len) : (p + m + i) / st₀.quantum = (p + m) / st₀.quantum := by
    have hlt : p + m + i < p + m + Store.piece st.quantum (p + m) n := by omega
    rw [← hF.quantum]
    exact div_of_lt_piece (hF.quantum ▸ hq) (Nat.le_add_right _ _) hlt
  have hlength : (((d.drop m).take n).take len).length = len := by simp; omega
  have hget {i : Nat} (hi : i < len) : (((d.drop m).take n).take len)[i]? = d[m + i]? := by
    rw [List.getElem?_take_of_lt hi, List.getElem?_take_of_lt (by omega), List.getElem?_drop]
  have hbyte {a : Nat} (ha : st.block (a / st₀.quantum) = true) (hout : a < p + m ∨ p + m + len ≤ a) :
      st'.byte a = st.byte a := by
    rw [hw.byte a (hF.quantum.symm ▸ ha), hwrap]
    exact overlay_of_outside _ (by rw [hlength]; omega)
  have hblock {j : Nat} (hj : st.block j = true) : st'.block j = true := by
    rw [hw.block, hj, Bool.true_or]
  refine ⟨hw.quantum.trans hF.quantum, hw.qset.trans hF.qset, ?_, fun j hj => hblock (hF.block j hj),
    fun i hi => ?_, fun i hi => ?_, fun a ha hout => ?_⟩
  · rw [hsize, hF.size, if_neg (show ¬m + len = 0 by omega)]
    split <;> omega
  · rcases Nat.lt_or_ge i m with hlt | hge
    · exact hblock (hF.filled i hlt)
    · have hi' := hdiv (i := i - m) (by omega)
      rw [show p + m + (i - m) = p + i by omega] at hi'
      rw [hi', hw.block, hwrap, hF.quantum]
      simp
  · rcases Nat.lt_or_ge i m with hlt | hge
    · rw [hbyte (hF.filled i hlt) (by omega)]
      exact hF.data i hlt
    · have hin : m + (i - m) < d.length := by omega
      have hsome : (((d.drop m).take n).take len)[i - m]? = some d[m + (i - m)] := by
        rw [hget (by omega), List.getElem?_eq_getElem hin]
      have hdata := hw.data (i - m) _ hsome
      rw [hwrap, show p + m + (i - m) = p + i by omega] at hdata
      rw [hdata, ← List.getElem?_eq_getElem hin, show m + (i - m) = i by omega]
  · rw [hbyte (hF.block _ ha) (by omega)]
    exact hF.others a ha (by omega)

/-- One call of the loop moves at least one byte, and leaves the loop to the rest. -/
theorem writeRest_call (hnever : ∀ n, env.fails n = false) {pick : Nat → Nat → Nat}
    (hpick : ∀ j n, 0 < n → 0 < pick j n ∧ pick j n ≤ n) (fuel j : Nat) {s : Kernel}
    (hg : Geometry st₀.quantum st₀.qset) (hfits : st₀.item (p + d.length) ≤ intMax)
    (hm : m < d.length) (hs : Held s st) (hF : Filled st₀ p d m st) :
    ∃ (len : Nat) (s' : Kernel) (st' : Store), 0 < len ∧ m + len ≤ d.length ∧ Held s' st' ∧
      Filled st₀ p d (m + len) st' ∧
      writeRest env pick (fuel + 1) j (p + m : Nat) (d.drop m) s =
        (writeRest env pick fuel (j + 1) (p + (m + len) : Nat) (d.drop (m + len)) s').map
          fun rest => rest.map fun x => (x.1, x.2.1, (len : Int) :: x.2.2) := by
  have hlength : (d.drop m).length = d.length - m := List.length_drop
  obtain ⟨hpos, hle⟩ := hpick j (d.length - m) (by omega)
  generalize hn : pick j (d.length - m) = n at hpos hle
  have hbuff : ((d.drop m).take n).length = n := by
    rw [List.length_take, hlength, Nat.min_eq_left hle]
  have hg' : Geometry st.quantum st.qset := hs.geometry
  have hitem : st.item (p + m) ≤ intMax := by
    rw [Store.item, hF.quantum, hF.qset]
    exact Nat.le_trans (Nat.div_le_div_right (by omega)) hfits
  have hmax := offset_lt hg hfits
  have hwrap := Store.wrapped_of_fits hitem
  have hprep := Store.prepare_of_never_fails hnever (st.wrapped (p + m)) st
  have hcopy : ¬copied none (Store.piece st.quantum (p + m) ((d.drop m).take n).length) <
      Store.piece st.quantum (p + m) ((d.drop m).take n).length := Nat.lt_irrefl _
  obtain ⟨st', hwrite, hsize, hw⟩ := Store.writeAt_whole (Prod.ext hprep rfl) hcopy
  rw [hbuff] at hwrite hsize hw
  have hlen := piece_pos hg'.quantum_pos (p + m) hpos
  have hpiece : Store.piece st.quantum (p + m) n ≤ n := piece_le (p + m) n
  generalize hk : Store.piece st.quantum (p + m) n = len at hwrite hsize hw hlen hpiece
  obtain ⟨s', hrun, hs'⟩ := deviceWrite_held env hs (p := p + m) (by omega) ((d.drop m).take n) none
  rw [hwrite] at hrun hs'
  refine ⟨len, s', st', hlen, by omega, hs',
    hF.wrote hg.quantum_pos hlen hk.symm (by omega) hwrap hsize hw, ?_⟩
  have hppos : toLong (((p + m : Nat) : Int) + len) = (p + (m + len) : Nat) := by
    rw [← Int.natCast_add, toLong_natCast (by omega), Nat.add_assoc]
  obtain ⟨b, bs, hleft⟩ := List.exists_cons_of_ne_nil
    (mt List.drop_eq_nil_iff.mp (Nat.not_le_of_lt hm))
  rw [hleft, writeRest, ← hleft, hlength, hn, hrun]
  simp only [ok_bind, Int.toNat_natCast, List.drop_drop, hppos]
  rw [if_neg (by omega)]
  cases writeRest env pick fuel (j + 1) ((p + (m + len) : Nat) : Int) (d.drop (m + len)) s' <;> rfl

/-- The loop ends within one call for each byte that is left, with all of the data in place. -/
theorem writeRest_spec (hnever : ∀ n, env.fails n = false) {pick : Nat → Nat → Nat}
    (hpick : ∀ j n, 0 < n → 0 < pick j n ∧ pick j n ≤ n)
    (hg : Geometry st₀.quantum st₀.qset) (hfits : st₀.item (p + d.length) ≤ intMax) (fuel : Nat) :
    ∀ (j m : Nat) (s : Kernel) (st : Store), m ≤ d.length → d.length ≤ m + fuel → Held s st →
      Filled st₀ p d m st → ∃ s' st' counts,
        writeRest env pick fuel j (p + m : Nat) (d.drop m) s =
          .ok (some (s', (p + d.length : Nat), counts)) ∧
        counts.length + m ≤ d.length ∧ (∀ n ∈ counts, 0 < n) ∧ Held s' st' ∧
        Filled st₀ p d d.length st' := by
  have hdone (fuel j : Nat) (s : Kernel) (st : Store) (hs : Held s st)
      (hF : Filled st₀ p d d.length st) : ∃ s' st' counts,
        writeRest env pick fuel j (p + d.length : Nat) (d.drop d.length) s =
          .ok (some (s', (p + d.length : Nat), counts)) ∧
        counts.length + d.length ≤ d.length ∧ (∀ n ∈ counts, 0 < n) ∧ Held s' st' ∧
        Filled st₀ p d d.length st' := by
    refine ⟨s, st, [], ?_, by simp, by simp, hs, hF⟩
    rw [List.drop_length, writeRest]
  induction fuel with
  | zero =>
      intro j m s st hm hfuel hs hF
      obtain rfl : m = d.length := by omega
      exact hdone 0 j s st hs hF
  | succ fuel ih =>
      intro j m s st hm hfuel hs hF
      rcases Nat.eq_or_lt_of_le hm with rfl | hlt
      · exact hdone (fuel + 1) j s st hs hF
      obtain ⟨len, s₁, st₁, hlen, hle, hs₁, hF₁, hcall⟩ :=
        writeRest_call hnever hpick fuel j hg hfits hlt hs hF
      obtain ⟨s', st', counts, hrest, hcounts, hpos, hs', hF'⟩ :=
        ih (j + 1) (m + len) s₁ st₁ hle (by omega) hs₁ hF₁
      refine ⟨s', st', (len : Int) :: counts, ?_, ?_, ?_, hs', hF'⟩
      · rw [hcall, hrest]
        rfl
      · rw [List.length_cons]
        omega
      · intro n hn
        rcases List.mem_cons.mp hn with rfl | hn
        · exact Int.natCast_pos.mpr hlen
        · exact hpos n hn

theorem Filled.writtenFrom (hF : Filled st₀ p d d.length st) (hfits : st₀.item (p + d.length) ≤ intMax)
    {s s' : Kernel} (hs : Held s st₀) (hs' : Held s' st) : WrittenFrom s p d s' := by
  have hitem {a : Nat} : st.item a = st₀.item a := by rw [Store.item, hF.quantum, hF.qset, Store.item]
  refine ⟨?_, fun i b hb => ?_, fun a b ha hout hb => ?_⟩
  · rw [hs.dev.2.2, hs'.dev.2.2, hF.size]
    simp only [List.length_eq_zero_iff]
  · have hi := (List.getElem?_eq_some_iff.mp hb).1
    have hle : st.item (p + i) ≤ intMax := by
      rw [hitem]
      exact Nat.le_trans (Nat.div_le_div_right (by omega)) hfits
    rw [hs'.byteAt hle, hF.quantum, if_pos (hF.filled i hi), ← hF.data i hi, hb]
  · have hle := hs.item_le ha
    rw [hs.byteAt hle] at hb
    split at hb
    · rename_i hblock
      rw [hs'.byteAt (hitem ▸ hle), hF.quantum, if_pos (hF.block _ hblock), hF.others a hblock hout, hb]
    · exact absurd hb (by simp)

end

/-- Whatever positive counts the writer chooses, its loop ends within as many calls as there are
bytes, each of them stores something, and the data is in place. -/
def CutsFreely (env : Kmem) (s : Kernel) (p : Nat) (d : List UInt8) : Prop :=
  ∀ pick : Nat → Nat → Nat, (∀ j n, 0 < n → 0 < pick j n ∧ pick j n ≤ n) → ∃ s' counts,
    writeRest env pick d.length 0 p d s = .ok (some (s', (p + d.length : Nat), counts)) ∧
      counts.length ≤ d.length ∧ (∀ n ∈ counts, 0 < n) ∧ WrittenFrom s p d s'

/-- The state after the loop depends on the data and its offset, not on how the data was cut. -/
theorem cutsFreely {s : Kernel} (hs : Reachable s) {env : Kmem} (hnever : ∀ n, env.fails n = false)
    {p : Nat} {d : List UInt8}
    (hfits : ((p + d.length : Nat) : Int) / (s.dev.quantum * s.dev.qset) ≤ intMax) :
    CutsFreely env s p d := by
  intro pick hpick
  obtain ⟨st₀, hst⟩ := hs.held
  have hitem := hst.item_le hfits
  obtain ⟨s', st', counts, hrun, hcounts, hpos, hs', hF⟩ :=
    writeRest_spec hnever hpick hst.geometry hitem d.length 0 0 s st₀ (Nat.zero_le _) (by omega) hst
      (filled_zero st₀ p d)
  exact ⟨s', counts, hrun, hcounts, hpos, hF.writtenFrom hitem hst hs'⟩

theorem reachable_empty : Reachable (emptyDevice 4 2) :=
  ⟨.filled 0, 4, 2, [], [], by decide, by decide, rfl⟩

theorem cutsFreely_sparse : CutsFreely (.filled 7) (emptyDevice 4 2) 22 [1, 2, 3, 4, 5] :=
  cutsFreely reachable_empty (fun _ => rfl) (by decide)

/-- Without data there is no call, so the size does not move up to the offset. -/
theorem writeRest_nothing : Reachable (emptyDevice 4 2) ∧
    writeRest (.filled 0) (fun _ n => n) 0 0 5 [] (emptyDevice 4 2) =
      .ok (some (emptyDevice 4 2, 5, [])) ∧
    (emptyDevice 4 2).dev.size ≠ max (emptyDevice 4 2).dev.size (5 + ([] : List UInt8).length) :=
  ⟨reachable_empty, rfl, by decide⟩

end CharDriver.Chardev
