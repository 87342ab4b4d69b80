import CharDriver.ChardevInvariant

/-! The bytes the device stores, offset by offset, in every state calls on the file can reach. Where
the list item of an offset fits an `int`, the three numbers the driver computes are exact and no other
such offset has the same place; beyond, the conversion to `int` makes offsets share their storage. -/

namespace CharDriver.Chardev

open Base

/-- The offset of a call is one of the file: at most the largest `loff_t`. -/
def Call.Offset : Call → Prop
  | .deviceRead ppos .. => ppos < 2 ^ 63
  | .deviceWrite ppos .. => ppos < 2 ^ 63
  | _ => True

instance offsetDecidable : ∀ c : Call, Decidable c.Offset
  | .deviceRead .. => inferInstanceAs (Decidable (_ < _))
  | .deviceWrite .. => inferInstanceAs (Decidable (_ < _))
  | .deviceOpen .. => inferInstanceAs (Decidable True)
  | .deviceRelease => inferInstanceAs (Decidable True)

/-- The device is initialised: a list item is positive and its size is an `int`. -/
def Initialised (s : Kernel) : Prop :=
  0 < s.dev.quantum ∧ 0 < s.dev.qset ∧ s.dev.quantum * s.dev.qset ≤ intMax

instance : DecidablePred Initialised := fun _ => inferInstanceAs (Decidable (_ ∧ _))

/-- The state is the last one of a run of calls on an initialised device. -/
def Reachable (s : Kernel) : Prop :=
  ∃ env quantum qset calls rs, (∀ c ∈ calls, c.Offset) ∧
    Throughout (step env) Initialised (emptyDevice quantum qset) calls ∧
    run env (emptyDevice quantum qset) calls = .ok (s, rs)

section

variable (env : Kmem) {s : Kernel} {st : Store} {L : Layout}

theorem Initialised.geometry {quantum qset : Nat} (h : Initialised (emptyDevice quantum qset)) :
    Geometry quantum qset := by
  obtain ⟨hq, hqs, hfits⟩ := h
  change (quantum : Int) * qset ≤ intMax at hfits
  exact ⟨Int.natCast_pos.mp hq, Int.natCast_pos.mp hqs, by exact_mod_cast hfits⟩

/-- A truncating open leaves the geometry that it gives to the next list items. -/
theorem deviceOpen_dev (hs : Held s st) {flags : UInt32} (hw : isWronly flags = true) {s' : Kernel}
    {r : Reply} (hopen : deviceOpen flags false s = .ok (r, s')) :
    s'.dev.quantum = st.quantum ∧ s'.dev.qset = deviceQset := by
  obtain ⟨⟨L, hL⟩, hsem⟩ := hs
  have h₀ : Holds { s with dev := { s.dev with sem := 0 } } st L := { hL with }
  obtain ⟨heap, htrim, -, -⟩ :=
    deviceTrim_spec h₀.backs.heap h₀.backs.geometry.qset_pos h₀.backs.data h₀.qset
  rw [deviceOpen, if_pos hw, locked_run (r := ⟨0, [], 0⟩) hsem 0 (by
    simp only [htrim, ok_bind, pure_eq_ok]
    rfl) rfl] at hopen
  obtain ⟨-, rfl⟩ := Prod.mk.inj (Except.ok.inj hopen)
  exact ⟨hL.quantum, rfl⟩

theorem step_read (hs : Held s st) {p : Nat} (hp : p < 2 ^ 63) (len : Nat) (signal : Bool)
    (fault : Option Nat) : ∃ s', step env s (.deviceRead p len signal fault) =
        .ok (s', (st.stepAt env (.deviceRead p len signal fault)).1) ∧
      Held s' (st.stepAt env (.deviceRead p len signal fault)).2 := by
  cases signal with
  | true =>
      refine ⟨s, ?_, hs⟩
      rw [step, deviceRead, deviceReadLocked, locked_signal]
      rfl
  | false =>
      obtain ⟨s', hrun, hs'⟩ := deviceRead_held env hs hp len fault
      refine ⟨s', ?_, hs'⟩
      rw [step, hrun]
      rfl

theorem step_write (hs : Held s st) {p : Nat} (hp : p < 2 ^ 63) (buff : List UInt8) (signal : Bool)
    (fault : Option Nat) : ∃ s', step env s (.deviceWrite p buff signal fault) =
        .ok (s', (st.stepAt env (.deviceWrite p buff signal fault)).1) ∧
      Held s' (st.stepAt env (.deviceWrite p buff signal fault)).2 := by
  cases signal with
  | true =>
      refine ⟨s, ?_, hs⟩
      rw [step, deviceWrite, deviceWriteLocked, locked_signal]
      rfl
  | false =>
      obtain ⟨s', hrun, hs'⟩ := deviceWrite_held env hs hp buff fault
      refine ⟨s', ?_, hs'⟩
      rw [step, hrun]
      rfl

/-- One call, at whatever offset, that leaves the device initialised. -/
theorem step_held (hs : Held s st) {c : Call} (hc : c.Offset) {s' : Kernel} {r : Reply}
    (hstep : step env s c = .ok (s', r)) (hinit : Initialised s') :
    r = (st.stepAt env c).1 ∧ Held s' (st.stepAt env c).2 := by
  cases c with
  | deviceOpen flags signal =>
      obtain ⟨⟨r', s''⟩, hopen, hswap⟩ := map_eq_ok hstep
      cases hswap
      change deviceOpen flags signal s = .ok (r', s'') at hopen
      simp only [Store.stepAt, Store.step]
      by_cases hw : isWronly flags = true
      · cases signal with
        | true =>
            rw [deviceOpen, if_pos hw, locked_signal] at hopen
            cases hopen
            rw [if_pos hw]
            exact ⟨rfl, hs⟩
        | false =>
            obtain ⟨hq, hqs⟩ := deviceOpen_dev hs hw hopen
            have hfits := hinit.2.2
            rw [hq, hqs] at hfits
            obtain ⟨s₁, hrun, hs₁⟩ := deviceOpen_held hs (by exact_mod_cast hfits) hw
            obtain ⟨rfl, rfl⟩ := Prod.mk.inj (Except.ok.inj (hrun.symm.trans hopen))
            rw [if_pos hw]
            exact ⟨rfl, hs₁⟩
      · rw [deviceOpen, if_neg hw] at hopen
        cases hopen
        rw [if_neg hw]
        exact ⟨rfl, hs⟩
  | deviceRead ppos len signal fault =>
      obtain ⟨s₁, hrun, hs₁⟩ := step_read env hs hc len signal fault
      obtain ⟨rfl, rfl⟩ := Prod.mk.inj (Except.ok.inj (hrun.symm.trans hstep))
      exact ⟨rfl, hs₁⟩
  | deviceWrite ppos buff signal fault =>
      obtain ⟨s₁, hrun, hs₁⟩ := step_write env hs hc buff signal fault
      obtain ⟨rfl, rfl⟩ := Prod.mk.inj (Except.ok.inj (hrun.symm.trans hstep))
      exact ⟨rfl, hs₁⟩
  | deviceRelease =>
      cases hstep
      exact ⟨rfl, hs⟩

theorem Reachable.held (h : Reachable s) : ∃ st, Held s st := by
  obtain ⟨env, quantum, qset, calls, rs, hcalls, hinit, hrun⟩ := h
  have hkeep : ∀ s c s' r, (∃ st, Held s st) → c.Offset → step env s c = .ok (s', r) →
      Initialised s' → ∃ st, Held s' st := by
    rintro s c s' r ⟨st, hs⟩ hc hstep hinit'
    exact ⟨_, (step_held env hs hc hstep hinit').2⟩
  exact hinit.invariant hkeep ⟨_, held_empty hinit.head.geometry⟩ hcalls hrun

end

def byteIn (h : Heap Block) (i : Nat) (a : Nat) : Option UInt8 :=
  match h.get a with
  | some (.quantum bytes) => bytes[i]?
  | _ => none

/-- The byte stored for an offset, at the place both transfer functions compute for it; `none` where
they find no quantum. -/
def Kernel.byteAt (s : Kernel) (p : Nat) : Option UInt8 :=
  match locate s.dev.quantum (toInt (s.dev.quantum * s.dev.qset)) p with
  | .error _ => none
  | .ok place =>
      (s.at (.quantum (place.item % 2 ^ 32).toNat place.sPos.toNat)).bind
        (byteIn s.heap place.qPos.toNat)

theorem Holds.byteAt {s : Kernel} {st : Store} {L : Layout} (hs : Holds s st L) {p : Nat}
    (hp : p < 2 ^ 63) : s.byteAt p =
      if st.block (st.wrapped p / st.quantum) then some (st.byte (st.wrapped p)) else none := by
  have hg := hs.backs.geometry
  have hblock := hs.backs.block (st.wrapped p / st.quantum)
  have hslot : st.item (st.wrapped p) * st.qset + st.wrapped p / st.quantum % st.qset =
      st.wrapped p / st.quantum := item_slot (st.wrapped p)
  have hoff : st.wrapped p / st.quantum * st.quantum + st.wrapped p % st.quantum = st.wrapped p := by
    rw [Nat.mul_comm]
    exact Nat.div_add_mod (st.wrapped p) st.quantum
  rw [Kernel.byteAt, hs.quantum, hs.qset, Store.locate_wrapped hg hp]
  simp only [Store.count_wrapped hg, Int.toNat_natCast]
  rw [hs.at_quantum, if_pos (Nat.mod_lt _ hg.qset_pos), hslot]
  cases hblk : L.blk (st.wrapped p / st.quantum) with
  | none =>
      rw [hblk] at hblock
      rw [← hblock]
      rfl
  | some a =>
      rw [hblk] at hblock
      rw [← hblock]
      simp [byteIn, hs.backs.heap.bytes _ a hblk, Nat.mod_lt _ hg.quantum_pos, hoff]

section

variable {s : Kernel} {st : Store} (hs : Held s st)
include hs

theorem Held.geometry : Geometry st.quantum st.qset := by
  obtain ⟨⟨L, hL⟩, -⟩ := hs
  exact hL.backs.geometry

theorem Held.dev :
    s.dev.quantum = st.quantum ∧ s.dev.qset = st.qset ∧ s.dev.size = st.size := by
  obtain ⟨⟨L, hL⟩, -⟩ := hs
  exact ⟨hL.quantum, hL.qset, hL.size⟩

theorem Held.item_le {p : Nat} (hp : (p : Int) / (s.dev.quantum * s.dev.qset) ≤ intMax) :
    st.item p ≤ intMax := by
  rw [hs.dev.1, hs.dev.2.1] at hp
  rw [Store.item]
  exact_mod_cast hp

theorem Held.byteAt {p : Nat} (hp : st.item p ≤ intMax) :
    s.byteAt p = if st.block (p / st.quantum) then some (st.byte p) else none := by
  obtain ⟨⟨L, hL⟩, -⟩ := id hs
  have hmax := offset_lt hs.geometry hp
  rw [hL.byteAt (by omega), Store.wrapped_of_fits hp]

end

/-- A write that got its quantum and stored `data` in it: the quantum is there, the bytes are in it,
and what was stored before is there unless it was stored over. -/
structure Wrote (st : Store) (data : List UInt8) (p : Nat) (st' : Store) : Prop where
  quantum : st'.quantum = st.quantum
  qset : st'.qset = st.qset
  block : ∀ j, st'.block j = (st.block j || j == st.wrapped p / st.quantum)
  byte : ∀ a, st.block (a / st.quantum) = true →
    st'.byte a = overlay st.byte (st.wrapped p) data a
  data : ∀ i b, data[i]? = some b → st'.byte (st.wrapped p + i) = b

section

variable {env : Kmem} {st st₁ : Store} {buff : List UInt8} {fault : Option Nat} {p : Nat}

theorem Store.writeAt_failed (hprep : st.prepare env (st.wrapped p) = (false, st₁)) :
    st.writeAt env buff fault p = (⟨-eNOMEM, [], p⟩, st₁) := by
  rw [Store.writeAt, hprep]

theorem Prepared.wrote {k : Nat} (hk : k = st.wrapped p / st.quantum)
    (hprep : Prepared env k st true st₁) (data : List UInt8) (size : Nat) :
    Wrote st data p { st₁.fill (st₁.wrapped p) data with size } := by
  have hwrap : st₁.wrapped p = st.wrapped p := by
    rw [Store.wrapped, Store.item, hprep.quantum, hprep.qset, Store.wrapped, Store.item]
  refine ⟨hprep.quantum, hprep.qset, fun j => ?_, fun a ha => ?_, fun i b hb => ?_⟩
  · rw [← hk]
    exact hprep.block j
  · simp only [Store.fill, hwrap]
    rcases overlay_cases st₁.byte (st.wrapped p) data a with ⟨hin, hpa, heq⟩ | ⟨hout, heq⟩
    · rw [heq, overlay_of_getElem? st.byte hpa (List.getElem?_eq_getElem hin)]
    · rw [heq, overlay_of_outside st.byte (by omega), hprep.byte a ha]
  · simp only [Store.fill, hwrap]
    exact overlay_of_getElem? _ (Nat.le_add_right _ _) (by rwa [Nat.add_sub_cancel_left])

/-- The quantum was there or allocated, and the copy faulted: zeros take the place of the bytes it did
not move. -/
theorem Store.writeAt_faulted (hprep : st.prepare env (st.wrapped p) = (true, st₁))
    (hn : copied fault (piece st.quantum p buff.length) < piece st.quantum p buff.length) :
    ∃ st', st.writeAt env buff fault p = (⟨-eFAULT, [], p⟩, st') ∧ st'.size = st.size ∧
      Wrote st (received fault (buff.take (piece st.quantum p buff.length))) p st' := by
  have hspec := prepare_spec env (st.wrapped p) st
  simp only [hprep] at hspec
  rw [Store.writeAt, hprep]
  simp only [transferAt, hspec.quantum]
  rw [if_pos hn]
  exact ⟨_, rfl, hspec.size, hspec.wrote rfl _ _⟩

theorem Store.writeAt_whole (hprep : st.prepare env (st.wrapped p) = (true, st₁))
    (hn : ¬copied fault (piece st.quantum p buff.length) < piece st.quantum p buff.length) :
    ∃ st', st.writeAt env buff fault p = (⟨piece st.quantum p buff.length, [],
        toLong (p + piece st.quantum p buff.length)⟩, st') ∧
      st'.size = max st.size (p + piece st.quantum p buff.length) ∧
      Wrote st (buff.take (piece st.quantum p buff.length)) p st' := by
  have hspec := prepare_spec env (st.wrapped p) st
  simp only [hprep] at hspec
  rw [Store.writeAt, hprep]
  simp only [transferAt, hspec.quantum]
  rw [if_neg hn, received_take (piece_le p buff.length) hn]
  refine ⟨_, rfl, ?_, hspec.wrote rfl _ _⟩
  simp only [hspec.size]

theorem Store.writeAt_cases (env : Kmem) (buff : List UInt8) (fault : Option Nat) (p : Nat)
    (st : Store) :
    (∃ st', st.writeAt env buff fault p = (⟨-eNOMEM, [], p⟩, st') ∧
      Prepared env (st.wrapped p / st.quantum) st false st') ∨
    ∃ data r st', data.length = piece st.quantum p buff.length ∧
      st.writeAt env buff fault p = (r, st') ∧ Wrote st data p st' := by
  have hspec := prepare_spec env (st.wrapped p) st
  generalize hprep : st.prepare env (st.wrapped p) = f at hspec
  obtain ⟨ok, st₁⟩ := f
  cases ok with
  | false => exact Or.inl ⟨st₁, writeAt_failed hprep, hspec⟩
  | true =>
      refine Or.inr ?_
      have hlen : (buff.take (piece st.quantum p buff.length)).length =
          piece st.quantum p buff.length := List.length_take_of_le (piece_le p buff.length)
      by_cases hn : copied fault (piece st.quantum p buff.length) < piece st.quantum p buff.length
      · obtain ⟨st', hwrite, -, hwrote⟩ := writeAt_faulted hprep hn
        exact ⟨_, _, st', (length_received fault _).trans hlen, hwrite, hwrote⟩
      · obtain ⟨st', hwrite, -, hwrote⟩ := writeAt_whole hprep hn
        exact ⟨_, _, st', hlen, hwrite, hwrote⟩

/-- A byte that is stored stays stored, and changes only where the write copies. -/
theorem Store.writeAt_keeps (env : Kmem) (buff : List UInt8) (fault : Option Nat) {a : Nat}
    (ha : st.block (a / st.quantum) = true)
    (hout : a < st.wrapped p ∨ st.wrapped p + piece st.quantum p buff.length ≤ a) :
    (st.writeAt env buff fault p).2.quantum = st.quantum ∧
      (st.writeAt env buff fault p).2.qset = st.qset ∧
      (st.writeAt env buff fault p).2.block (a / st.quantum) = true ∧
      (st.writeAt env buff fault p).2.byte a = st.byte a := by
  rcases writeAt_cases env buff fault p st with ⟨st', heq, hprep⟩ | ⟨data, r, st', hlen, heq, hwrote⟩
  · rw [heq]
    exact ⟨hprep.quantum, hprep.qset, hprep.block_of ha, hprep.byte a ha⟩
  · rw [heq]
    refine ⟨hwrote.quantum, hwrote.qset, ?_, ?_⟩
    · rw [hwrote.block, ha, Bool.true_or]
    · rw [hwrote.byte a ha, overlay_of_outside]
      omega

end

/-! ### Sharing -/

/-- The three numbers the driver computes for an offset are in range and give the offset back. -/
def ExactPlace (quantum qset p : Nat) : Prop :=
  ∃ place, locate quantum (toInt ((quantum : Int) * qset)) p = .ok place ∧ 0 ≤ place.item ∧
    0 ≤ place.sPos ∧ place.sPos < qset ∧ 0 ≤ place.qPos ∧ place.qPos < quantum ∧
    place.item * quantum * qset + place.sPos * quantum + place.qPos = p

/-- Two offsets are exact, have different places when they differ, and a write at the first leaves
the byte stored for the second where it does not copy over it. -/
structure NoSharing (quantum qset p p' : Nat) : Prop where
  exact : ExactPlace quantum qset p
  exact' : ExactPlace quantum qset p'
  places : p ≠ p' → locate quantum (toInt ((quantum : Int) * qset)) p ≠
    locate quantum (toInt ((quantum : Int) * qset)) p'
  write : ∀ s, Reachable s → s.dev.quantum = quantum → s.dev.qset = qset →
    ∀ env buff signal fault s' r, step env s (.deviceWrite p buff signal fault) = .ok (s', r) →
    (p' < p ∨ p + clampLen quantum (p % quantum : Nat) buff.length ≤ p') →
    ∀ b, s.byteAt p' = some b → s'.byteAt p' = some b

/-- The item, the slot and the place in the quantum count the bytes before an offset. -/
theorem place_sum (quantum qset p : Nat) :
    p / (quantum * qset) * quantum * qset + p / quantum % qset * quantum + p % quantum = p := by
  have hslots : p / (quantum * qset) * qset + p / quantum % qset = p / quantum := item_slot p
  calc p / (quantum * qset) * quantum * qset + p / quantum % qset * quantum + p % quantum
      = (p / (quantum * qset) * qset + p / quantum % qset) * quantum + p % quantum := by
        rw [Nat.add_mul, Nat.mul_right_comm]
    _ = p := by
        rw [hslots, Nat.mul_comm]
        exact Nat.div_add_mod p quantum

theorem toInt_le (x : Int) : toInt x ≤ intMax := by
  have hlt := Int.bmod_lt (x := x) (m := 2 ^ 32) (by decide)
  change toInt x < (2 ^ 32 + 1) / 2 at hlt
  have hmax : (intMax : Int) = 2 ^ 31 - 1 := rfl
  omega

theorem exactPlace_iff {quantum qset p : Nat} (hg : Geometry quantum qset) (hp : p < 2 ^ 63) :
    ExactPlace quantum qset p ↔ p / (quantum * qset) ≤ intMax := by
  have hsum := place_sum quantum qset p
  have hslot : p / quantum % qset < qset := Nat.mod_lt _ hg.qset_pos
  have hoff : p % quantum < quantum := Nat.mod_lt _ hg.quantum_pos
  constructor
  · rintro ⟨place, hplace, -, -, -, -, -, heq⟩
    rw [locate_spec hg hp] at hplace
    obtain rfl := Except.ok.inj hplace
    simp only at heq
    have hitem : toInt (p / (quantum * qset) : Nat) = (p / (quantum * qset) : Nat) := by
      have hpos : (0 : Int) < quantum * qset := by
        exact_mod_cast Nat.mul_pos hg.quantum_pos hg.qset_pos
      have hsum' : ((p / (quantum * qset) : Nat) : Int) * quantum * qset +
          (p / quantum % qset : Nat) * quantum + (p % quantum : Nat) = p := by exact_mod_cast hsum
      have hmul : toInt (p / (quantum * qset) : Nat) * (quantum * qset) =
          ((p / (quantum * qset) : Nat) : Int) * (quantum * qset) := by
        rw [← Int.mul_assoc, ← Int.mul_assoc]
        omega
      exact Int.eq_of_mul_eq_mul_right (by omega) hmul
    have hle := toInt_le (p / (quantum * qset) : Nat)
    rw [hitem] at hle
    exact_mod_cast hle
  · intro hitem
    refine ⟨_, locate_spec hg hp, ?_⟩
    rw [toInt_natCast hitem]
    refine ⟨Int.natCast_nonneg _, Int.natCast_nonneg _, ?_, Int.natCast_nonneg _, ?_, ?_⟩
    · exact Int.ofNat_lt.mpr hslot
    · exact Int.ofNat_lt.mpr hoff
    · simp only
      exact_mod_cast hsum

theorem ExactPlace.places {quantum qset p p' : Nat} (h : ExactPlace quantum qset p)
    (h' : ExactPlace quantum qset p') (hne : p ≠ p') :
    locate quantum (toInt ((quantum : Int) * qset)) p ≠
      locate quantum (toInt ((quantum : Int) * qset)) p' := by
  obtain ⟨place, hplace, -, -, -, -, -, hsum⟩ := h
  obtain ⟨place', hplace', -, -, -, -, -, hsum'⟩ := h'
  intro heq
  rw [hplace, hplace'] at heq
  obtain rfl := Except.ok.inj heq
  exact hne (by exact_mod_cast hsum.symm.trans hsum')

/-- A write in range leaves the bytes of the other offsets in range. -/
theorem Held.write_other {s : Kernel} {st : Store} (hs : Held s st) {p p' : Nat}
    (hp : st.item p ≤ intMax) (hp' : st.item p' ≤ intMax) {env : Kmem} {buff : List UInt8}
    {signal : Bool} {fault : Option Nat} {s' : Kernel} {r : Reply}
    (hstep : step env s (.deviceWrite p buff signal fault) = .ok (s', r))
    (hout : p' < p ∨ p + Store.piece st.quantum p buff.length ≤ p') {b : UInt8}
    (hb : s.byteAt p' = some b) : s'.byteAt p' = some b := by
  have hmax := offset_lt hs.geometry hp
  obtain ⟨s₁, hrun, hs₁⟩ := step_write env hs (p := p) (by omega) buff signal fault
  obtain ⟨rfl, rfl⟩ := Prod.mk.inj (Except.ok.inj (hrun.symm.trans hstep))
  cases signal with
  | true =>
      have hsame : s = s₁ := by
        rw [step, deviceWrite, deviceWriteLocked, locked_signal] at hrun
        exact (Prod.mk.inj (Except.ok.inj hrun)).1
      rwa [← hsame]
  | false =>
      rw [hs.byteAt hp'] at hb
      split at hb
      · rename_i hblock
        have hout' : p' < st.wrapped p ∨
            st.wrapped p + Store.piece st.quantum p buff.length ≤ p' := by
          rwa [Store.wrapped_of_fits hp]
        obtain ⟨hq, hqs, hblock', hbyte⟩ := Store.writeAt_keeps env buff fault hblock hout'
        change Held s₁ (st.writeAt env buff fault p).2 at hs₁
        have hitem : (st.writeAt env buff fault p).2.item p' ≤ intMax := by
          rwa [Store.item, hq, hqs]
        rw [hs₁.byteAt hitem, hq, if_pos hblock', hbyte, hb]
      · exact absurd hb (by simp)

/-- Two offsets of the file do not share storage exactly when the list items of both fit an `int`. -/
theorem noSharing_iff {quantum qset p p' : Nat} (hg : Geometry quantum qset) (hp : p < 2 ^ 63)
    (hp' : p' < 2 ^ 63) : NoSharing quantum qset p p' ↔
      p / (quantum * qset) ≤ intMax ∧ p' / (quantum * qset) ≤ intMax := by
  constructor
  · intro h
    exact ⟨(exactPlace_iff hg hp).mp h.exact, (exactPlace_iff hg hp').mp h.exact'⟩
  · rintro ⟨hitem, hitem'⟩
    have hexact := (exactPlace_iff hg hp).mpr hitem
    have hexact' := (exactPlace_iff hg hp').mpr hitem'
    refine ⟨hexact, hexact', hexact.places hexact', ?_⟩
    intro s hreach hq hqs env buff signal fault s' r hstep hout b hb
    obtain ⟨st, hs⟩ := hreach.held
    obtain ⟨hq', hqs', -⟩ := hs.dev
    obtain rfl : quantum = st.quantum := by exact_mod_cast hq.symm.trans hq'
    obtain rfl : qset = st.qset := by exact_mod_cast hqs.symm.trans hqs'
    rw [clampLen_spec hg] at hout
    exact hs.write_other hitem hitem' hstep hout hb

/-- The last byte of the last item that fits, and the first byte of the device. -/
theorem noSharing_last : NoSharing 4 2 (2 ^ 34 - 1) 0 :=
  (noSharing_iff ⟨by decide, by decide, by decide⟩ (by decide) (by decide)).mpr (by decide)

/-- One byte per item: offset `2^32` has the place of offset `0`. -/
theorem sharing_wraps : ¬NoSharing 1 1 0 (2 ^ 32) ∧
    (run (.filled 0) (emptyDevice 1 1) [.deviceWrite 0 [1] false none,
      .deviceWrite (2 ^ 32) [2] false none, .deviceRead 0 1 false none]).map
        (fun r => r.2.map Reply.bytes) = .ok [[], [], [2]] := by
  refine ⟨fun h => ?_, by decide +kernel⟩
  have hfits := (exactPlace_iff ⟨by decide, by decide, by decide⟩ (by decide)).mp h.exact'
  exact absurd hfits (by decide)

end CharDriver.Chardev
