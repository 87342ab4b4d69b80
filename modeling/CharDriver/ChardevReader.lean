import CharDriver.ChardevCuts
import CharDriver.ChardevInvisible
import CharDriver.ChardevStream

/-! A reader that starts anywhere, on a device with holes. Its loop always ends. What it receives are
the bytes stored from its offset on, without a gap, up to the first hole or to the end of the data:
a hole reads as the end of the file, though there may be data behind it. Only beyond the end of the
data, up to the end of the last quantum, does what it receives depend on how it cuts its reads. -/

namespace CharDriver.Chardev

open Base

namespace Store

variable {st : Store} {p i : Nat}

theorem add_mod_of_lt (hqset : 0 < st.qset) (hi : p % st.quantum + i < st.quantum) :
    p % (st.quantum * st.qset) + i < st.quantum * st.qset := by
  have hslot : p / st.quantum % st.qset + 1 ≤ st.qset := Nat.mod_lt _ hqset
  calc p % (st.quantum * st.qset) + i
      = st.quantum * (p / st.quantum % st.qset) + (p % st.quantum + i) := by
        rw [Nat.mod_mul]
        omega
    _ < st.quantum * (p / st.quantum % st.qset + 1) := by
        rw [Nat.mul_succ]
        omega
    _ ≤ st.quantum * st.qset := Nat.mul_le_mul_left _ hslot

/-- Within a quantum wrapped offsets are as far apart as the offsets. -/
theorem wrapped_add (hqset : 0 < st.qset) (hi : p % st.quantum + i < st.quantum) :
    st.wrapped (p + i) = st.wrapped p + i := by
  have hlt := add_mod_of_lt hqset hi
  have hpos : 0 < st.quantum * st.qset := Nat.zero_lt_of_lt hlt
  have hsum : p + i = p % (st.quantum * st.qset) + i + st.quantum * st.qset * st.item p := by
    have hdiv := Nat.mod_add_div p (st.quantum * st.qset)
    rw [item]
    omega
  have hitem : st.item (p + i) = st.item p := by
    rw [hsum, item, Nat.add_mul_div_left _ _ hpos, Nat.div_eq_of_lt hlt, Nat.zero_add]
  have hmod : (p + i) % (st.quantum * st.qset) = p % (st.quantum * st.qset) + i := by
    rw [hsum, Nat.add_mul_mod_self_left, Nat.mod_eq_of_lt hlt]
  rw [wrapped, hitem, hmod, wrapped, Nat.add_assoc]

def hasByte (st : Store) (p : Nat) : Bool := st.block (st.wrapped p / st.quantum)

theorem hasByte_add (hqset : 0 < st.qset) (hi : p % st.quantum + i < st.quantum) :
    st.hasByte (p + i) = st.hasByte p := by
  have hq : 0 < st.quantum := Nat.zero_lt_of_lt hi
  have hquantum : (st.wrapped p + i) / st.quantum = st.wrapped p / st.quantum := by
    have hmod : st.wrapped p % st.quantum = p % st.quantum := wrapped_mod p
    have hdiv := Nat.div_add_mod (st.wrapped p) st.quantum
    apply Nat.div_eq_of_lt_le
    · rw [Nat.mul_comm]
      omega
    · rw [Nat.succ_mul, Nat.mul_comm]
      omega
  rw [hasByte, hasByte, wrapped_add hqset hi, hquantum]

/-- What a reader that starts at `p` receives. -/
structure Gets (st : Store) (p : Nat) (bytes : List UInt8) : Prop where
  stored : ∀ i b, bytes[i]? = some b → st.hasByte (p + i) = true ∧ st.byte (st.wrapped (p + i)) = b
  stops : st.size ≤ p + bytes.length ∨ st.hasByte (p + bytes.length) = false
  overrun : bytes ≠ [] → p + bytes.length ≤ (st.size + st.quantum - 1) / st.quantum * st.quantum

theorem gets_nil (h : st.size ≤ p ∨ st.hasByte p = false) : st.Gets p [] :=
  ⟨fun i b hb => absurd hb (by simp), h, fun hne => absurd rfl hne⟩

theorem add_piece_le (hq : 0 < st.quantum) (hp : p < st.size) (len : Nat) :
    p + piece st.quantum p len ≤ (st.size + st.quantum - 1) / st.quantum * st.quantum := by
  have hpiece := mod_add_piece_le hq p len
  have hdiv := Nat.div_add_mod p st.quantum
  have hlast : p / st.quantum + 1 ≤ (st.size + st.quantum - 1) / st.quantum := by
    rw [Nat.le_div_iff_mul_le hq, Nat.succ_mul, Nat.mul_comm]
    omega
  calc p + piece st.quantum p len
      ≤ (p / st.quantum + 1) * st.quantum := by
        rw [Nat.succ_mul, Nat.mul_comm]
        omega
    _ ≤ _ := Nat.mul_le_mul_right _ hlast

theorem Gets.cons (hq : 0 < st.quantum) (hqset : 0 < st.qset) (hp : p < st.size)
    (hblock : st.hasByte p = true) (len : Nat) {rest : List UInt8}
    (h : st.Gets (p + piece st.quantum p len) rest) :
    st.Gets p ((List.range (piece st.quantum p len)).map (fun i => st.byte (st.wrapped p + i)) ++
      rest) := by
  have hpiece := mod_add_piece_le hq p len
  have hend := add_piece_le hq hp len
  generalize piece st.quantum p len = n at h hpiece hend
  have hlength (rest : List UInt8) : p + ((List.range n).map (fun i => st.byte (st.wrapped p + i)) ++
      rest).length = p + n + rest.length := by
    simp [Nat.add_assoc]
  refine ⟨fun i b hb => ?_, ?_, fun _ => ?_⟩
  · rcases Nat.lt_or_ge i n with hlt | hge
    · have hin : p % st.quantum + i < st.quantum := by omega
      rw [List.getElem?_append_left (by simpa using hlt), List.getElem?_map,
        List.getElem?_range hlt] at hb
      rw [hasByte_add hqset hin, wrapped_add hqset hin]
      exact ⟨hblock, Option.some.inj hb⟩
    · rw [List.getElem?_append_right (by simpa using hge), List.length_map, List.length_range] at hb
      have hrest := h.stored (i - n) b hb
      rwa [Nat.add_assoc, Nat.add_sub_cancel' hge] at hrest
  · rw [hlength]
    exact h.stops
  · rw [hlength]
    by_cases hne : rest = []
    · simpa [hne] using hend
    · exact h.overrun hne

end Store

section

variable (env : Kmem) {counts : Nat → Nat} {s : Kernel} {st : Store}

theorem Store.walk_eq (p : Nat) (st : Store) :
    ∃ nodes calls, st.walk env p = { st with nodes, calls } := by
  unfold Store.walk
  split
  · exact ⟨st.nodes, st.calls, rfl⟩
  · exact ⟨_, _, rfl⟩

/-- The reader's loop ends once it has as many calls as there are bytes up to the end of the data.
Reads beyond the range of `int item` may allocate nodes, so the store it looks at may get more. -/
theorem readAll_gets (hcounts : ∀ j, 0 < counts j) (hsize : st.size + st.quantum ≤ 2 ^ 63)
    (fuel : Nat) : ∀ (j p nodes calls : Nat) (s : Kernel), Held s { st with nodes, calls } →
      p < 2 ^ 63 → st.size - p < fuel →
      ∃ bytes, readAll env counts fuel j p s = .ok (some bytes) ∧ st.Gets p bytes := by
  induction fuel with
  | zero => exact fun _ _ _ _ _ _ _ hfuel => absurd hfuel (Nat.not_lt_zero _)
  | succ fuel ih =>
      intro j p nodes calls s hs hp hfuel
      have hg : Geometry st.quantum st.qset := hs.geometry
      have hq := hg.quantum_pos
      obtain ⟨s', hrun, hs'⟩ := deviceRead_held env hs hp (counts j) none
      obtain ⟨nodes', calls', hwalk⟩ :=
        Store.walk_eq env p ({ st with nodes, calls } : Store)
      rw [hwalk] at hs'
      have hread : ({ st with nodes, calls } : Store).readAt (counts j) none p =
          st.readAt (counts j) none p := rfl
      rw [readAll, hrun, hread]
      by_cases hempty : st.size ≤ p ∨ st.hasByte p = false
      · refine ⟨[], ?_, Store.gets_nil hempty⟩
        have hzero : st.readAt (counts j) none p = ⟨0, [], p⟩ := if_pos hempty
        simp [hzero]
      · have hpiece := piece_pos hq p (hcounts j)
        have hmax := piece_le_intMax hg p (counts j)
        have hint : intMax < 2 ^ 31 := by decide
        have hsome : st.readAt (counts j) none p =
            ⟨Store.piece st.quantum p (counts j),
              (List.range (Store.piece st.quantum p (counts j))).map fun i =>
                st.byte (st.wrapped p + i), toLong (p + Store.piece st.quantum p (counts j))⟩ :=
          (if_neg hempty).trans (if_neg (Nat.lt_irrefl (Store.piece st.quantum p (counts j))))
        rw [not_or, Nat.not_le, Bool.not_eq_false] at hempty
        obtain ⟨hlt, hblock⟩ := hempty
        have hend : p + Store.piece st.quantum p (counts j) < 2 ^ 63 := by
          have hin : Store.piece st.quantum p (counts j) ≤ st.quantum := by
            unfold Store.piece
            omega
          omega
        obtain ⟨rest, hrest, hgets⟩ := ih (j + 1) (p + Store.piece st.quantum p (counts j)) nodes'
          calls' s' hs' hend (by omega)
        refine ⟨_, ?_, hgets.cons hq hg.qset_pos hlt hblock (counts j)⟩
        rw [hsome]
        simp only [ok_bind, ← Int.natCast_add, toLong_natCast hend, hrest, Option.map_some, pure_eq_ok]
        rw [if_neg (by omega), if_neg (by omega)]

end

/-- What a reader that starts at `p` receives: bytes that are stored, without a gap. It stops at the
end of the data or at an offset for which nothing is stored, and reads no further than to the end of
the last quantum. -/
structure ReaderGets (s : Kernel) (p : Nat) (bytes : List UInt8) : Prop where
  stored : ∀ i b, bytes[i]? = some b → s.byteAt (p + i) = some b
  stops : s.dev.size ≤ p + bytes.length ∨ s.byteAt (p + bytes.length) = none
  overrun : bytes ≠ [] → ((p + bytes.length : Nat) : Int) ≤
    (s.dev.size + s.dev.quantum - 1) / s.dev.quantum * s.dev.quantum

theorem Held.byteAt_eq {s : Kernel} {st : Store} (hs : Held s st) {p : Nat} (hp : p < 2 ^ 63) :
    s.byteAt p = if st.hasByte p then some (st.byte (st.wrapped p)) else none := by
  obtain ⟨⟨L, hL⟩, -⟩ := hs
  exact hL.byteAt hp

section

variable {s : Kernel} {st : Store} {p : Nat} {bytes : List UInt8}

theorem Store.Gets.lt (h : st.Gets p bytes) (hq : 0 < st.quantum)
    (hsize : st.size + st.quantum ≤ 2 ^ 63) (hp : p < 2 ^ 63) : p + bytes.length < 2 ^ 63 := by
  by_cases hne : bytes = []
  · simpa [hne] using hp
  · have hend := h.overrun hne
    have hround := Nat.div_mul_le_self (st.size + st.quantum - 1) st.quantum
    omega

theorem Store.Gets.readerGets (h : st.Gets p bytes) (hs : Held s st)
    (hsize : st.size + st.quantum ≤ 2 ^ 63) (hp : p < 2 ^ 63) : ReaderGets s p bytes := by
  have hq := hs.geometry.quantum_pos
  have hlt := h.lt hq hsize hp
  refine ⟨fun i b hb => ?_, ?_, fun hne => ?_⟩
  · obtain ⟨hblock, hbyte⟩ := h.stored i b hb
    have hi := (List.getElem?_eq_some_iff.mp hb).1
    rw [hs.byteAt_eq (by omega), if_pos hblock, hbyte]
  · rw [hs.dev.2.2, hs.byteAt_eq hlt]
    exact h.stops.imp_right fun hnone => by simp [hnone]
  · have hend := h.overrun hne
    have hcast : (st.size : Int) + st.quantum - 1 = ((st.size + st.quantum - 1 : Nat) : Int) := by
      omega
    rw [hs.dev.1, hs.dev.2.2, hcast]
    exact_mod_cast hend

/-- A reader ends with what `ReaderGets` says, given more calls than there are bytes left. -/
theorem Held.readAll_gets (hs : Held s st) (env : Kmem) {counts : Nat → Nat}
    (hcounts : ∀ j, 0 < counts j) (hsize : st.size + st.quantum ≤ 2 ^ 63) (hp : p < 2 ^ 63)
    {fuel : Nat} (hfuel : s.dev.size - p < fuel) :
    ∃ bytes, readAll env counts fuel 0 p s = .ok (some bytes) ∧ ReaderGets s p bytes := by
  rw [hs.dev.2.2] at hfuel
  obtain ⟨bytes, hread, hgets⟩ :=
    Chardev.readAll_gets env hcounts hsize fuel 0 p st.nodes st.calls s hs hp hfuel
  exact ⟨bytes, hread, hgets.readerGets hs hsize hp⟩

theorem Held.size_add_le (hs : Held s st) (hsize : s.dev.size + s.dev.quantum ≤ 2 ^ 63) :
    st.size + st.quantum ≤ 2 ^ 63 := by
  rw [hs.dev.1, hs.dev.2.2] at hsize
  exact_mod_cast hsize

theorem ReaderGets.byteAt_eq (h : ReaderGets s p bytes) {i : Nat} (hi : i < bytes.length) :
    s.byteAt (p + i) = bytes[i]? := by
  rw [List.getElem?_eq_getElem hi]
  exact h.stored i _ (List.getElem?_eq_getElem hi)

/-- No reader stops below the end of the data where another one went on. -/
theorem ReaderGets.lt_length {bytes' : List UInt8} (h : ReaderGets s p bytes)
    (h' : ReaderGets s p bytes') {i : Nat} (hi : i < bytes.length) (hsize : i < s.dev.size - p) :
    i < bytes'.length := by
  by_contra hge
  rcases h'.stops with heof | hnone
  · omega
  · rw [h.byteAt_eq (by omega), List.getElem?_eq_none_iff] at hnone
    omega

/-- Up to the end of the data it does not matter how a reader cuts its reads. -/
theorem ReaderGets.take_eq {bytes' : List UInt8} (h : ReaderGets s p bytes)
    (h' : ReaderGets s p bytes') : bytes.take (s.dev.size - p) = bytes'.take (s.dev.size - p) := by
  apply List.ext_getElem?
  intro i
  rw [List.getElem?_take, List.getElem?_take]
  split
  · rename_i hsize
    rcases Nat.lt_or_ge i bytes.length with hi | hi
    · rw [← h.byteAt_eq hi, h'.byteAt_eq (h.lt_length h' hi hsize)]
    · rw [List.getElem?_eq_none hi, List.getElem?_eq_none]
      by_contra hlt
      exact absurd (h'.lt_length h (by omega) hsize) (by omega)
  · rfl

theorem ReaderGets.begins {d : List UInt8} (h : ReaderGets s p bytes)
    (hd : ∀ i b, d[i]? = some b → s.byteAt (p + i) = some b) (hsize : p + d.length ≤ s.dev.size) :
    d <+: bytes := by
  have hlength : d.length ≤ bytes.length := by
    by_contra hlt
    rcases h.stops with heof | hnone
    · omega
    · rw [hd _ _ (List.getElem?_eq_getElem (by omega : bytes.length < d.length))] at hnone
      exact absurd hnone (by simp)
  refine List.prefix_iff_getElem?.mpr fun i hi => ?_
  rw [← h.byteAt_eq (by omega)]
  exact hd i _ (List.getElem?_eq_getElem hi)

end

/-- Two readers that start at `p`, with their own counts: both end, each receives what is stored, and
up to the end of the data they receive the same. -/
def ReadersAgree (env : Kmem) (s : Kernel) (p : Nat) : Prop :=
  ∀ counts counts' : Nat → Nat, (∀ j, 0 < counts j) → (∀ j, 0 < counts' j) → ∃ bytes bytes',
    readAll env counts (s.dev.size - p + 1) 0 p s = .ok (some bytes) ∧
    readAll env counts' (s.dev.size - p + 1) 0 p s = .ok (some bytes') ∧
    ReaderGets s p bytes ∧ ReaderGets s p bytes' ∧
    bytes.take (s.dev.size - p) = bytes'.take (s.dev.size - p)

/-- From every reachable state, at every offset, wherever the holes are. -/
theorem readersAgree {s : Kernel} (hs : Reachable s) (env : Kmem) {p : Nat} (hp : p < 2 ^ 63)
    (hsize : s.dev.size + s.dev.quantum ≤ 2 ^ 63) : ReadersAgree env s p := by
  intro counts counts' hcounts hcounts'
  obtain ⟨st, hst⟩ := hs.held
  have hsize' := hst.size_add_le hsize
  obtain ⟨bytes, hread, h⟩ := hst.readAll_gets env hcounts hsize' hp (Nat.lt_succ_self _)
  obtain ⟨bytes', hread', h'⟩ := hst.readAll_gets env hcounts' hsize' hp (Nat.lt_succ_self _)
  exact ⟨bytes, bytes', hread, hread', h, h', h.take_eq h'⟩

/-- The device has one byte at 8 and 9 as its size; the reader starts at it. -/
theorem readersAgree_holed : ReadersAgree (.filled 7) holed 8 :=
  readersAgree reachable_holed _ (by decide) (by decide)

/-! ### Behind a writer -/

/-- The writer's loop ends, and the loop of a reader that starts where the writer did ends with the
data and what is stored behind it. -/
def ReadsBack (env env' : Kmem) (s : Kernel) (p : Nat) (d : List UInt8) : Prop :=
  ∀ (pick : Nat → Nat → Nat) (counts : Nat → Nat), (∀ j n, 0 < n → 0 < pick j n ∧ pick j n ≤ n) →
    (∀ j, 0 < counts j) → ∃ s' ns bytes,
      writeRest env pick d.length 0 p d s = .ok (some (s', (p + d.length : Nat), ns)) ∧
      readAll env' counts (s'.dev.size - p + 1) 0 p s' = .ok (some bytes) ∧
      d <+: bytes ∧ ReaderGets s' p bytes

/-- The round trip from every reachable state and at every offset, with any cuts on both sides: the
reader receives the data, and then what the device has behind it. -/
theorem readsBack {s : Kernel} (hs : Reachable s) {env : Kmem} (hnever : ∀ n, env.fails n = false)
    (env' : Kmem) {p : Nat} {d : List UInt8}
    (hfits : ((p + d.length : Nat) : Int) / (s.dev.quantum * s.dev.qset) ≤ intMax)
    (hsize : s.dev.size + s.dev.quantum ≤ 2 ^ 63) : ReadsBack env env' s p d := by
  intro pick counts hpick hcounts
  obtain ⟨st₀, hst⟩ := hs.held
  have hg := hst.geometry
  have hitem := hst.item_le hfits
  have hmax := offset_lt hg hitem
  obtain ⟨s', st', ns, hrun, -, -, hs', hF⟩ :=
    writeRest_spec hnever hpick hg hitem d.length 0 0 s st₀ (Nat.zero_le _) (by omega) hst
      (filled_zero st₀ p d)
  have hw := hF.writtenFrom hitem hst hs'
  have hsize' : st'.size + st'.quantum ≤ 2 ^ 63 := by
    have hq := hg.quantum_le
    have hint : intMax < 2 ^ 31 := by decide
    have hold := hst.size_add_le hsize
    rw [hF.size, hF.quantum]
    split <;> omega
  obtain ⟨bytes, hread, h⟩ := hs'.readAll_gets env' hcounts hsize' (p := p) (by omega)
    (Nat.lt_succ_self _)
  refine ⟨s', ns, bytes, hrun, hread, ?_, h⟩
  by_cases hd : d = []
  · rw [hd]
    exact List.nil_prefix
  · refine h.begins hw.data ?_
    rw [hw.size, if_neg hd]
    exact Nat.le_max_right _ _

theorem readsBack_holed : ReadsBack (.filled 7) (.filled 9) holed 2 [1, 2, 3, 4, 5] :=
  readsBack reachable_holed (fun _ => rfl) _ (by decide) (by decide)

end CharDriver.Chardev
