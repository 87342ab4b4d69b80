import CharDriver.ChardevRefine
import Mathlib.Data.Nat.Find

/-! The device as a byte stream. A writer cuts its data into calls and resubmits what a short return
left over; a reader then reads from the start until a call returns 0. Each call ends with its
quantum, for reads as for writes. The end of the data, though, only decides whether a read starts:
a read that starts before it runs on to the end of its quantum. So the reader gets the data and
nothing else exactly when one of its calls happens to end where the data ends. -/

namespace CharDriver.Chardev

open Base

/-- The writer's loop: call `j` offers at most `cuts j` of the bytes that are left. `none` when a call
fails or the loop does not end within `fuel` calls. -/
def writeAll (env : Kmem) (cuts : Nat → Nat) :
    Nat → Nat → Int → List UInt8 → Kernel → Except Oops (Option Kernel)
  | _, _, _, [], s => .ok (some s)
  | 0, _, _, _ :: _, _ => .ok none
  | fuel + 1, j, ppos, b :: bs, s => do
      let (r, s) ← deviceWrite env ((b :: bs).take (cuts j)) false none ppos s
      if r.ret ≤ 0 then return none
      else writeAll env cuts fuel (j + 1) r.ppos ((b :: bs).drop r.ret.toNat) s

/-- The reader's loop: call `j` asks for `counts j` bytes. The result is everything received; `none`
when a call fails or no call returns 0 within `fuel` calls. -/
def readAll (env : Kmem) (counts : Nat → Nat) :
    Nat → Nat → Int → Kernel → Except Oops (Option (List UInt8))
  | 0, _, _, _ => .ok none
  | fuel + 1, j, ppos, s => do
      let (r, s) ← deviceRead env (counts j) false none ppos s
      if r.ret < 0 then return none
      else if r.ret = 0 then return some []
      else
        let rest ← readAll env counts fuel (j + 1) r.ppos s
        return rest.map (r.bytes ++ ·)

/-- A writer on an empty device, then a reader: everything the reader received. -/
def writeThenRead (env : Kmem) (quantum qset : Nat) (cuts counts : Nat → Nat) (data : List UInt8)
    (writes reads : Nat) : Except Oops (Option (List UInt8)) := do
  match ← writeAll env cuts writes 0 0 data (emptyDevice quantum qset) with
  | none => return none
  | some s => readAll env counts reads 0 0 s

def RoundTrip (env : Kmem) (quantum qset : Nat) (cuts counts : Nat → Nat) (data : List UInt8) :
    Prop :=
  ∃ writes reads, writeThenRead env quantum qset cuts counts data writes reads = .ok (some data)

/-- The sum of the first counts, each cut down to what its quantum has left. -/
def readerPos (quantum : Nat) (counts : Nat → Nat) : Nat → Nat
  | 0 => 0
  | j + 1 => readerPos quantum counts j +
      Store.piece quantum (readerPos quantum counts j) (counts j)

theorem readerPos_lt_succ {quantum : Nat} (hq : 0 < quantum) {counts : Nat → Nat}
    (hcounts : ∀ j, 0 < counts j) (j : Nat) :
    readerPos quantum counts j < readerPos quantum counts (j + 1) := by
  rw [readerPos]
  exact Nat.lt_add_of_pos_right (piece_pos hq _ (hcounts j))

theorem readerPos_strictMono {quantum : Nat} (hq : 0 < quantum) {counts : Nat → Nat}
    (hcounts : ∀ j, 0 < counts j) {i j : Nat} (hij : i < j) :
    readerPos quantum counts i < readerPos quantum counts j := by
  induction j with
  | zero => exact absurd hij (Nat.not_lt_zero i)
  | succ j ih =>
      have hstep := readerPos_lt_succ hq hcounts j
      rcases Nat.lt_succ_iff_lt_or_eq.mp hij with hlt | rfl
      · exact Nat.lt_trans (ih hlt) hstep
      · exact hstep

theorem le_readerPos {quantum : Nat} (hq : 0 < quantum) {counts : Nat → Nat}
    (hcounts : ∀ j, 0 < counts j) (j : Nat) : j ≤ readerPos quantum counts j := by
  induction j with
  | zero => exact Nat.zero_le _
  | succ j ih => exact Nat.succ_le_of_lt (Nat.lt_of_le_of_lt ih (readerPos_lt_succ hq hcounts j))

/-- The first `p` bytes of the data are in place, and nothing lies beyond them. -/
structure Written (data : List UInt8) (p : Nat) (st : Store) : Prop where
  size : st.size = p
  block : ∀ a < p, st.block (a / st.quantum) = true
  byte : ∀ a < p, data[a]? = some (st.byte a)

theorem written_empty (data : List UInt8) (quantum qset : Nat) :
    Written data 0 (Store.empty quantum qset) :=
  ⟨rfl, fun _ h => absurd h (Nat.not_lt_zero _), fun _ h => absurd h (Nat.not_lt_zero _)⟩

section

variable {env : Kmem} (hnever : ∀ n, env.fails n = false)
include hnever

theorem write_of_never_fails (st : Store) (buff : List UInt8) (p : Nat) :
    ∃ st', Prepared env (p / st.quantum) st true st' ∧
      st.write env buff none p = st'.transfer buff none p := by
  have hok := Store.prepare_of_never_fails hnever p st
  have hprep := Store.prepare_spec env p st
  unfold Store.write
  generalize st.prepare env p = r at hok hprep
  obtain ⟨ok, st'⟩ := r
  obtain rfl : ok = true := hok
  exact ⟨st', hprep, rfl⟩

theorem Written.write {data : List UInt8} {st : Store} {p : Nat} (hq : 0 < st.quantum)
    (h : Written data p st) (n : Nat) :
    ∃ (len : Nat) (st' : Store),
      st.write env ((data.drop p).take n) none p = (⟨len, [], (p + len : Nat)⟩, st') ∧
      len = Store.piece st.quantum p (min n (data.length - p)) ∧
      st'.quantum = st.quantum ∧ st'.qset = st.qset ∧ Written data (p + len) st' := by
  obtain ⟨st', hprep, hwrite⟩ := write_of_never_fails hnever st ((data.drop p).take n) p
  rw [Store.transfer_none, hprep.quantum] at hwrite
  have hbuff : ((data.drop p).take n).length = min n (data.length - p) := by simp
  rw [hbuff] at hwrite
  generalize hlen : Store.piece st.quantum p (min n (data.length - p)) = len at hwrite
  have hle : len ≤ min n (data.length - p) := hlen ▸ piece_le p _
  refine ⟨len, _, hwrite, rfl, hprep.quantum, hprep.qset, ?_, ?_, ?_⟩
  · simp only [hprep.size, h.size]
    omega
  · intro a ha
    simp only [Store.fill, hprep.quantum]
    by_cases hap : a < p
    · exact hprep.block_of (h.block a hap)
    · rw [div_of_lt_piece hq (Nat.le_of_not_lt hap) (hlen.symm ▸ ha)]
      exact hprep.block_self
  · intro a ha
    simp only [Store.fill]
    by_cases hap : a < p
    · rw [overlay_of_lt _ _ hap, hprep.byte a (h.block a hap)]
      exact h.byte a hap
    · have hin : a < data.length := by omega
      have hget : (((data.drop p).take n).take len)[a - p]? = some data[a] := by
        rw [List.getElem?_take_of_lt (by omega), List.getElem?_take_of_lt (by omega),
          List.getElem?_drop, Nat.add_sub_cancel' (Nat.le_of_not_lt hap),
          List.getElem?_eq_getElem hin]
      rw [overlay_of_getElem? _ (Nat.le_of_not_lt hap) hget, List.getElem?_eq_getElem hin]

omit hnever in
theorem writeAll_done (cuts : Nat → Nat) (data : List UInt8) (fuel j : Nat) (s : Kernel) :
    writeAll env cuts fuel j data.length (data.drop data.length) s = .ok (some s) := by
  rw [List.drop_length, writeAll]

/-- One call of the loop moves at least one byte, and leaves the loop to the rest. -/
theorem writeAll_call {data : List UInt8} {cuts : Nat → Nat} (hcuts : ∀ j, 0 < cuts j) (fuel j : Nat)
    {p : Nat} {s : Kernel} {st : Store} (hlt : p < data.length)
    (hlen : data.length < 2 ^ 31 * (st.quantum * st.qset)) (hs : Refined s st) (hw : Written data p st) :
    ∃ (len : Nat) (s' : Kernel) (st' : Store), 0 < len ∧ p + len ≤ data.length ∧
      writeAll env cuts (fuel + 1) j p (data.drop p) s =
        writeAll env cuts fuel (j + 1) (p + len : Nat) (data.drop (p + len)) s' ∧
      Refined s' st' ∧ st'.quantum = st.quantum ∧ st'.qset = st.qset ∧ Written data (p + len) st' := by
  obtain ⟨b, bs, hleft⟩ := List.exists_cons_of_ne_nil
    (mt List.drop_eq_nil_iff.mp (Nat.not_le_of_lt hlt))
  have hquantum := hs.geometry.quantum_pos
  obtain ⟨len, st', hwrite, hpiece, hq', hqs', hw'⟩ := hw.write hnever hquantum (cuts j)
  have hpos : 0 < len := hpiece ▸ piece_pos hquantum p
    (Nat.lt_min.mpr ⟨hcuts j, Nat.sub_pos_of_lt hlt⟩)
  have hle : len ≤ data.length - p :=
    hpiece ▸ Nat.le_trans (piece_le p _) (Nat.min_le_right _ _)
  have hitem : st.item p ≤ intMax := by
    apply Nat.le_of_lt_succ
    apply Nat.div_lt_of_lt_mul
    rw [Nat.mul_comm]
    exact Nat.lt_trans hlt hlen
  obtain ⟨s', hrun, hs'⟩ := deviceWrite_refines env hs hitem ((data.drop p).take (cuts j)) none
  rw [hwrite] at hrun hs'
  refine ⟨len, s', st', hpos, by omega, ?_, hs', hq', hqs', hw'⟩
  rw [hleft, writeAll, ← hleft, hrun]
  simp only [ok_bind, Int.toNat_natCast, List.drop_drop]
  rw [if_neg (by omega)]

/-- The writer's loop ends, given as many calls as there are bytes, and however many calls it took
all of the data is then in place. -/
theorem writeAll_spec {data : List UInt8} {cuts : Nat → Nat} (hcuts : ∀ j, 0 < cuts j)
    {quantum qset : Nat} (hlen : data.length < 2 ^ 31 * (quantum * qset)) (fuel : Nat) :
    ∀ (j p : Nat) (s : Kernel) (st : Store), p ≤ data.length → Refined s st →
      st.quantum = quantum → st.qset = qset → Written data p st →
      ∃ r, writeAll env cuts fuel j p (data.drop p) s = .ok r ∧
        (data.length ≤ p + fuel → r.isSome) ∧
        ∀ s', r = some s' → ∃ st', Refined s' st' ∧ st'.quantum = quantum ∧ st'.qset = qset ∧
          Written data data.length st' := by
  induction fuel with
  | zero =>
      intro j p s st hp hs hq hqs hw
      rcases Nat.eq_or_lt_of_le hp with rfl | hlt
      · refine ⟨some s, writeAll_done cuts data 0 j s, fun _ => rfl, ?_⟩
        rintro _ ⟨⟩
        exact ⟨st, hs, hq, hqs, hw⟩
      · obtain ⟨b, bs, hleft⟩ := List.exists_cons_of_ne_nil
          (mt List.drop_eq_nil_iff.mp (Nat.not_le_of_lt hlt))
        refine ⟨none, ?_, by omega, by simp⟩
        rw [hleft, writeAll]
  | succ fuel ih =>
      intro j p s st hp hs hq hqs hw
      rcases Nat.eq_or_lt_of_le hp with rfl | hlt
      · refine ⟨some s, writeAll_done cuts data (fuel + 1) j s, fun _ => rfl, ?_⟩
        rintro _ ⟨⟩
        exact ⟨st, hs, hq, hqs, hw⟩
      · subst hq hqs
        obtain ⟨len, s', st', hpos, hle, hcall, hs', hq', hqs', hw'⟩ :=
          writeAll_call hnever hcuts fuel j hlt hlen hs hw
        obtain ⟨r, hrest, hends, hdone⟩ := ih (j + 1) (p + len) s' st' hle hs' hq' hqs' hw'
        exact ⟨r, hcall.trans hrest, fun hfuel => hends (by omega), hdone⟩

end

/-- Call `m` of the reader is the first that starts at or after the end of the data. -/
def FirstPast (quantum : Nat) (counts : Nat → Nat) (size m : Nat) : Prop :=
  size ≤ readerPos quantum counts m ∧ ∀ i < m, readerPos quantum counts i < size

theorem exists_firstPast {quantum : Nat} (hq : 0 < quantum) {counts : Nat → Nat}
    (hcounts : ∀ j, 0 < counts j) (size : Nat) : ∃ m, FirstPast quantum counts size m := by
  classical
  have hex : ∃ m, size ≤ readerPos quantum counts m := ⟨size, le_readerPos hq hcounts size⟩
  exact ⟨Nat.find hex, Nat.find_spec hex, fun i hi => Nat.lt_of_not_le (Nat.find_min hex hi)⟩

theorem FirstPast.le {quantum : Nat} {counts : Nat → Nat} {size m : Nat}
    (h : FirstPast quantum counts size m) : readerPos quantum counts m ≤ size + quantum := by
  cases m with
  | zero => exact Nat.zero_le _
  | succ m =>
      have hlast := h.2 m (Nat.lt_succ_self m)
      unfold readerPos Store.piece
      omega

/-- A reader that stands at one of its positions gets every byte up to the position of the first call
past the end of the data, given enough calls. -/
theorem readAll_spec (env : Kmem) {counts : Nat → Nat} (hcounts : ∀ j, 0 < counts j) {st : Store}
    (hfits : st.size < 2 ^ 31 * (st.quantum * st.qset))
    (hblock : ∀ a < st.size, st.block (a / st.quantum) = true) {m : Nat}
    (hm : FirstPast st.quantum counts st.size m) (fuel : Nat) :
    ∀ (j : Nat) (s : Kernel), j ≤ m → Refined s st →
      readAll env counts fuel j (readerPos st.quantum counts j) s =
        .ok (if m - j < fuel then
          some ((List.range (readerPos st.quantum counts m - readerPos st.quantum counts j)).map
            fun i => st.byte (readerPos st.quantum counts j + i)) else none) := by
  induction fuel with
  | zero =>
      intro j s _ _
      rw [if_neg (Nat.not_lt_zero _)]
      rfl
  | succ fuel ih =>
      intro j s hj hs
      have hg := hs.geometry
      have hpiece := piece_pos hg.quantum_pos (readerPos st.quantum counts j) (hcounts j)
      rcases Nat.eq_or_lt_of_le hj with rfl | hlt
      · have hle := hm.le
        have hquantum := hg.quantum_le
        have hmul := Nat.mul_le_mul_left (2 ^ 31) hg.fits
        have hint : intMax = 2 ^ 31 - 1 := rfl
        obtain ⟨s', hrun, -⟩ := deviceRead_eof env hs hm.1 (by omega) (counts j) none
        rw [readAll, hrun]
        simp
      · have hpos := hm.2 j hlt
        have hitem : st.item (readerPos st.quantum counts j) ≤ intMax := by
          apply Nat.le_of_lt_succ
          apply Nat.div_lt_of_lt_mul
          rw [Nat.mul_comm]
          exact Nat.lt_trans hpos hfits
        obtain ⟨s', hrun, hs'⟩ := deviceRead_refines env hs hitem (counts j) none
        rw [Store.read_none hpos (hblock _ hpos)] at hrun
        have hnext := ih (j + 1) s' hlt hs'
        have hmono : readerPos st.quantum counts (j + 1) ≤ readerPos st.quantum counts m := by
          rcases Nat.eq_or_lt_of_le hlt with heq | hlt'
          · exact Nat.le_of_eq (congrArg _ heq)
          · exact Nat.le_of_lt (readerPos_strictMono hg.quantum_pos hcounts hlt')
        rw [readerPos] at hnext hmono
        rw [readAll, hrun]
        simp only [ok_bind, hnext, pure_eq_ok]
        rw [if_neg (by omega), if_neg (by omega)]
        by_cases hfuel : m - (j + 1) < fuel
        · rw [if_pos hfuel, if_pos (by omega), Option.map_some]
          rw [map_range_add]
          congr 4
          omega
        · rw [if_neg hfuel, if_neg (by omega)]
          rfl

theorem Written.bytes {data : List UInt8} {st : Store} (hw : Written data data.length st) :
    (List.range data.length).map st.byte = data := by
  apply List.ext_getElem?
  intro a
  rcases Nat.lt_or_ge a data.length with hlt | hge
  · rw [hw.byte a hlt, List.getElem?_map, List.getElem?_range hlt, Option.map_some]
  · rw [List.getElem?_eq_none hge, List.getElem?_eq_none (by simpa using hge)]

theorem readAll_written (env : Kmem) {counts : Nat → Nat} (hcounts : ∀ j, 0 < counts j)
    {data : List UInt8} {s : Kernel} {st : Store} (hs : Refined s st)
    (hlen : data.length < 2 ^ 31 * (st.quantum * st.qset)) (hw : Written data data.length st)
    (fuel : Nat) : readAll env counts fuel 0 0 s = .ok (some data) ↔
      ∃ m < fuel, readerPos st.quantum counts m = data.length := by
  have hq := hs.geometry.quantum_pos
  have hall : ∀ m, FirstPast st.quantum counts data.length m →
      readAll env counts fuel 0 0 s = .ok (if m < fuel then
        some ((List.range (readerPos st.quantum counts m)).map st.byte) else none) := by
    intro m hm
    rw [← hw.size] at hm hlen
    simpa [readerPos] using readAll_spec env hcounts hlen
      (fun a ha => hw.block a (hw.size ▸ ha)) hm fuel 0 s (Nat.zero_le m) hs
  constructor
  · intro hread
    obtain ⟨m, hm⟩ := exists_firstPast hq hcounts data.length
    rw [hall m hm] at hread
    by_cases hfuel : m < fuel
    · refine ⟨m, hfuel, ?_⟩
      rw [if_pos hfuel] at hread
      have hbytes := congrArg List.length (Option.some.inj (Except.ok.inj hread))
      simpa using hbytes
    · simp [hfuel] at hread
  · rintro ⟨m, hfuel, hm⟩
    have hfirst : FirstPast st.quantum counts data.length m :=
      ⟨Nat.le_of_eq hm.symm, fun i hi => hm ▸ readerPos_strictMono hq hcounts hi⟩
    rw [hall m hfirst, if_pos hfuel, hm, hw.bytes]

section

variable {env : Kmem} (hnever : ∀ n, env.fails n = false) {quantum qset : Nat}
  (hg : Geometry quantum qset) {cuts counts : Nat → Nat} (hcuts : ∀ j, 0 < cuts j)
  (hcounts : ∀ j, 0 < counts j) {data : List UInt8} (hlen : data.length < 2 ^ 31 * (quantum * qset))
include hnever hg hcuts hcounts hlen

omit hcounts in
theorem writeAll_empty (writes : Nat) :
    ∃ r, writeAll env cuts writes 0 0 data (emptyDevice quantum qset) = .ok r ∧
      (data.length ≤ writes → r.isSome) ∧
      ∀ s, r = some s → ∃ st, Refined s st ∧ st.quantum = quantum ∧ st.qset = qset ∧
        Written data data.length st := by
  have hspec := writeAll_spec hnever hcuts hlen writes 0 0 _ _ (Nat.zero_le _) (refined_empty hg)
    rfl rfl (written_empty data quantum qset)
  rwa [List.drop_zero, Nat.zero_add] at hspec

theorem RoundTrip.exists_readerPos (h : RoundTrip env quantum qset cuts counts data) :
    ∃ j, readerPos quantum counts j = data.length := by
  obtain ⟨writes, reads, h⟩ := h
  obtain ⟨r, hwrite, -, hdone⟩ := writeAll_empty hnever hg hcuts hlen writes
  rw [writeThenRead, hwrite, ok_bind] at h
  cases r with
  | none => simp at h
  | some s =>
      obtain ⟨st, hs, rfl, rfl, hw⟩ := hdone s rfl
      obtain ⟨m, -, hm⟩ := (readAll_written env hcounts hs hlen hw reads).mp h
      exact ⟨m, hm⟩

theorem roundTrip_of_readerPos {j : Nat} (hj : readerPos quantum counts j = data.length) :
    RoundTrip env quantum qset cuts counts data := by
  obtain ⟨r, hwrite, hends, hdone⟩ := writeAll_empty hnever hg hcuts hlen data.length
  obtain ⟨s, rfl⟩ := Option.isSome_iff_exists.mp (hends (Nat.le_refl _))
  obtain ⟨st, hs, rfl, rfl, hw⟩ := hdone s rfl
  refine ⟨data.length, j + 1, ?_⟩
  rw [writeThenRead, hwrite, ok_bind]
  exact (readAll_written env hcounts hs hlen hw (j + 1)).mpr ⟨j, Nat.lt_succ_self j, hj⟩

/-- The round trip succeeds exactly when some prefix of the reader's counts, each cut down to what its
quantum has left, adds up to the length of the data. -/
theorem roundTrip_iff : RoundTrip env quantum qset cuts counts data ↔
    ∃ j, readerPos quantum counts j = data.length :=
  ⟨RoundTrip.exists_readerPos hnever hg hcuts hcounts hlen,
    fun ⟨_, hj⟩ => roundTrip_of_readerPos hnever hg hcuts hcounts hlen hj⟩

end

/-- Ten bytes over three quanta and two list items. The writer offers 1, 2, 3, … bytes, the reader asks
for 2 and 3 in turn; both have a call that the end of a quantum cuts short. -/
theorem roundTrip_acrossQuanta : RoundTrip (.filled 7) 4 2 (fun j => j + 1) (fun j => 2 + j % 2)
    [1, 2, 3, 4, 5, 6, 7, 8, 9, 10] :=
  (roundTrip_iff (fun _ => rfl) ⟨by decide, by decide, by decide⟩ Nat.succ_pos
    (fun j => Nat.add_pos_left Nat.two_pos (j % 2)) (by decide)).mpr ⟨5, rfl⟩

/-- A reader that asks for four bytes gets the one byte written and three more of its quantum. -/
theorem not_roundTrip_oneByte :
    writeThenRead (.filled 7) 4 2 (fun _ => 1) (fun _ => 4) [1] 1 2 = .ok (some [1, 7, 7, 7]) ∧
      ¬RoundTrip (.filled 7) 4 2 (fun _ => 1) (fun _ => 4) [1] := by
  refine ⟨by decide, fun h => ?_⟩
  obtain ⟨j, hj⟩ := h.exists_readerPos (fun _ => rfl) ⟨by decide, by decide, by decide⟩
    (fun _ => Nat.one_pos) (fun _ => by decide) (by decide)
  cases j with
  | zero => exact absurd hj (by decide)
  | succ j =>
      have hfirst : readerPos 4 (fun _ => 4) 1 ≤ readerPos 4 (fun _ => 4) (j + 1) := by
        cases j with
        | zero => exact Nat.le_refl _
        | succ j => exact Nat.le_of_lt (readerPos_strictMono (by decide) (fun _ => by decide)
            (show 1 < j + 1 + 1 by omega))
      rw [hj] at hfirst
      exact absurd hfirst (by decide)

end CharDriver.Chardev
