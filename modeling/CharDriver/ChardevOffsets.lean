import CharDriver.ChardevBacking
import CharDriver.ChardevTrim

/-! The device at every offset of the file. Beyond the exact range of `int item` the driver still
finds a place: the conversion keeps the low 32 bits of the list item, and the list walk counts them
as an unsigned number. So an offset is wrapped into the first `2^32` items, and the device is a store
addressed by wrapped offsets, whose size is that of the offsets themselves. -/

namespace CharDriver.Chardev

open Base

namespace Store

/-- The offset that the driver cannot tell from `p` with its list item below `2^32`. -/
def wrapped (st : Store) (p : Nat) : Nat :=
  st.item p % 2 ^ 32 * (st.quantum * st.qset) + p % (st.quantum * st.qset)

/-- What `device_read` allocates on its way: the nodes up to its item, unless it stops at the end of
the data. -/
def walk (env : Kmem) (p : Nat) (st : Store) : Store :=
  if st.size ≤ p then st else (st.follow env (st.item p % 2 ^ 32)).2

def readAt (len : Nat) (fault : Option Nat) (p : Nat) (st : Store) : Reply :=
  if st.size ≤ p ∨ st.block (st.wrapped p / st.quantum) = false then ⟨0, [], p⟩
  else
    let len := piece st.quantum p len
    let n := copied fault len
    let bytes := (List.range n).map fun i => st.byte (st.wrapped p + i)
    if n < len then ⟨-eFAULT, bytes, p⟩ else ⟨len, bytes, toLong (p + len)⟩

def transferAt (buff : List UInt8) (fault : Option Nat) (p : Nat) (st : Store) : Reply × Store :=
  let len := piece st.quantum p buff.length
  let n := copied fault len
  let st' := st.fill (st.wrapped p) (received fault (buff.take len))
  if n < len then (⟨-eFAULT, [], p⟩, st')
  else (⟨len, [], toLong (p + len)⟩, { st' with size := max st.size (p + len) })

def writeAt (env : Kmem) (buff : List UInt8) (fault : Option Nat) (p : Nat) (st : Store) :
    Reply × Store :=
  match st.prepare env (st.wrapped p) with
  | (false, st') => (⟨-eNOMEM, [], p⟩, st')
  | (true, st') => st'.transferAt buff fault p

/-- One call, at whatever offset. -/
def stepAt (env : Kmem) (st : Store) : Call → Reply × Store
  | .deviceRead ppos len signal fault =>
      if signal then (⟨-eRESTARTSYS, [], ppos⟩, st)
      else (st.readAt len fault ppos, st.walk env ppos)
  | .deviceWrite ppos buff signal fault =>
      if signal then (⟨-eRESTARTSYS, [], ppos⟩, st) else st.writeAt env buff fault ppos
  | c => st.step env c

section

variable {st : Store} (hg : Geometry st.quantum st.qset)
include hg

theorem item_wrapped (p : Nat) : st.item (st.wrapped p) = st.item p % 2 ^ 32 := by
  have hpos : 0 < st.quantum * st.qset := Nat.mul_pos hg.quantum_pos hg.qset_pos
  rw [item, wrapped, Nat.mul_comm, Nat.mul_add_div hpos, Nat.div_eq_of_lt (Nat.mod_lt p hpos),
    Nat.add_zero]

omit hg in
theorem wrapped_mod (p : Nat) : st.wrapped p % st.quantum = p % st.quantum := by
  rw [wrapped, Nat.mul_left_comm, Nat.mul_add_mod, Nat.mod_mod_of_dvd p (Nat.dvd_mul_right _ _)]

theorem wrapped_slot (p : Nat) :
    st.wrapped p / st.quantum % st.qset = p / st.quantum % st.qset := by
  rw [wrapped, Nat.mul_left_comm, Nat.mul_add_div hg.quantum_pos, Nat.mod_mul_right_div_self,
    Nat.mul_comm, Nat.mul_add_mod, Nat.mod_mod]

omit hg in
theorem wrapped_of_lt {p : Nat} (hp : st.item p < 2 ^ 32) : st.wrapped p = p := by
  rw [wrapped, Nat.mod_eq_of_lt hp, item, Nat.mul_comm]
  exact Nat.div_add_mod p (st.quantum * st.qset)

omit hg in
theorem piece_wrapped (p len : Nat) :
    piece st.quantum (st.wrapped p) len = piece st.quantum p len := by
  rw [piece, piece, wrapped_mod]

theorem locate_wrapped {p : Nat} (hp : p < 2 ^ 63) :
    locate st.quantum (toInt ((st.quantum : Int) * st.qset)) p =
      .ok ⟨toInt (st.item p), (st.wrapped p / st.quantum % st.qset : Nat),
        (st.wrapped p % st.quantum : Nat)⟩ := by
  rw [locate_spec hg hp, wrapped_slot hg, wrapped_mod, item]

theorem count_wrapped (p : Nat) :
    (toInt (st.item p) % 2 ^ 32).toNat = st.item (st.wrapped p) := by
  rw [toNat_toInt_emod, item_wrapped hg]

end

end Store

/-- The kernel state represents the store, with its blocks at the places of the layout. -/
structure Holds (s : Kernel) (st : Store) (L : Layout) : Prop where
  backs : Backs s.heap s.dev.data st L
  quantum : s.dev.quantum = st.quantum
  qset : s.dev.qset = st.qset
  size : s.dev.size = st.size

theorem holds_empty {quantum qset : Nat} (hg : Geometry quantum qset) :
    Holds (emptyDevice quantum qset) (Store.empty quantum qset) Layout.empty :=
  ⟨backs_of_dead Heap.get_empty hg rfl rfl (fun _ => rfl) fun _ => rfl, rfl, rfl, rfl⟩

theorem Backs.item_lt {h : Heap Block} {data : Ptr} {st : Store} {L : Layout}
    (hb : Backs h data st L) {p : Nat} (hblock : st.block (p / st.quantum) = true) :
    st.item p < st.nodes := by
  obtain ⟨b, hb'⟩ := Option.isSome_iff_exists.mp ((hb.block _).trans hblock)
  obtain ⟨a, ha⟩ := hb.heap.blk_arr _ b hb'
  rw [item_eq] at ha
  exact hb.nodes ▸ hb.heap.arr_node _ a ha

section

variable (env : Kmem) {s : Kernel} {st : Store} {L : Layout}

/-- `device_read` between `down_interruptible` and `up`. Where its node exists it changes nothing. -/
theorem deviceReadBody_holds (hs : Holds s st L) {p : Nat} (hp : p < 2 ^ 63) (len : Nat)
    (fault : Option Nat) :
    ∃ s' L', deviceReadBody env st.quantum (toInt ((st.quantum : Int) * st.qset)) len fault p s =
        .ok (st.readAt len fault p, s') ∧ Holds s' (st.walk env p) L' ∧
      s'.dev.sem = s.dev.sem ∧ (st.size ≤ p ∨ st.item (st.wrapped p) < st.nodes → s' = s) := by
  have hg := hs.backs.geometry
  have hu : toULong p = p := toULong_natCast (by omega)
  simp only [deviceReadBody, Store.readAt, Store.walk, hu, hs.size]
  by_cases heof : st.size ≤ p
  · rw [if_pos heof, if_pos (Or.inl heof), if_pos heof]
    exact ⟨s, L, rfl, hs, rfl, fun _ => rfl⟩
  rw [if_neg heof, if_neg heof, Store.locate_wrapped hg hp]
  obtain ⟨r, h', d', L', hrun, hb, hok, hnode⟩ :=
    deviceFollow_backs env hs.backs (Store.count_wrapped hg p)
  simp only [ok_bind, hrun]
  rw [Store.item_wrapped hg] at hb hok hnode
  have hs' : Holds ⟨h', { s.dev with data := d' }⟩ (st.follow env (st.item p % 2 ^ 32)).2 L' :=
    ⟨hb, hs.quantum, hs.qset, hs.size⟩
  refine ⟨⟨h', { s.dev with data := d' }⟩, L', ?_, hs', rfl, fun h => ?_⟩
  swap
  · have hlt := h.resolve_left heof
    have hsame := deviceFollow_of_lt env hs.backs (Store.count_wrapped hg p) hlt
    exact (Prod.mk.inj (Except.ok.inj (hrun.symm.trans hsame))).2
  cases r with
  | none =>
      have hblock : st.block (st.wrapped p / st.quantum) = false := by
        rw [← Bool.not_eq_true]
        intro hblock
        have hlt := hs.backs.item_lt hblock
        rw [Store.item_wrapped hg] at hlt
        rw [Store.follow_of_lt env hlt] at hok
        exact absurd hok (by simp)
      simp only [slotOf, ok_bind]
      rw [if_pos (Or.inr hblock)]
  | some a =>
      have hslot := slotOf_spec hb (p := st.wrapped p) (a := a)
        ((Store.item_wrapped hg p).symm ▸ hnode a rfl)
      have hblock : (L'.blk (st.wrapped p / st.quantum)).isSome =
          st.block (st.wrapped p / st.quantum) := hb.block _
      change slotOf h' (some a) (st.wrapped p / st.quantum % st.qset : Nat) =
        .ok (L'.blk (st.wrapped p / st.quantum)) at hslot
      simp only [hslot, ok_bind]
      cases hblk : L'.blk (st.wrapped p / st.quantum) with
      | none =>
          have hst : st.block (st.wrapped p / st.quantum) = false := by
            simpa [hblk] using hblock.symm
          rw [if_pos (Or.inr hst)]
      | some b =>
          have hst : st.block (st.wrapped p / st.quantum) = true := by
            simpa [hblk] using hblock.symm
          have hpiece := mod_add_piece_le hg.quantum_pos (st.wrapped p) len
          have hmax := piece_le_intMax hg p len
          have hint : intMax < 2 ^ 31 := by decide
          have hle := copied_le fault (Store.piece st.quantum p len)
          have hload := loadBytes_spec hb hblk hpiece
          change loadBytes h' (some b) (st.wrapped p % st.quantum : Nat) _ =
            .ok ((List.range (Store.piece st.quantum (st.wrapped p) len)).map fun i =>
              st.byte (st.wrapped p + i)) at hload
          rw [Store.piece_wrapped] at hload
          rw [if_neg (by simp [heof, hst])]
          simp only [clampLen_spec hg, Store.piece_wrapped, hload, ok_bind]
          split
          · rw [← List.map_take, List.take_range, Nat.min_eq_left hle]
          · have heq : copied fault (Store.piece st.quantum p len) =
                Store.piece st.quantum p len := by omega
            rw [toLong_natCast (n := Store.piece st.quantum p len) (by omega), heq]

/-- `device_write` between `down_interruptible` and `up`. -/
theorem deviceWriteBody_holds (hs : Holds s st L) {p : Nat} (hp : p < 2 ^ 63) (buff : List UInt8)
    (fault : Option Nat) :
    ∃ s' L', deviceWriteBody env st.quantum st.qset (toInt ((st.quantum : Int) * st.qset)) buff
        fault p s = .ok ((st.writeAt env buff fault p).1, s') ∧
      Holds s' (st.writeAt env buff fault p).2 L' ∧ s'.dev.sem = s.dev.sem := by
  have hg := hs.backs.geometry
  obtain ⟨h', d', L', hb, hfail, hok⟩ := deviceWriteBody_prepares env hs.backs
    (Store.locate_wrapped hg hp) (Store.count_wrapped hg p) buff fault
  have hprep := Store.prepare_spec env (st.wrapped p) st
  rw [Store.writeAt]
  generalize st.prepare env (st.wrapped p) = r at hb hfail hok hprep
  obtain ⟨ok, st'⟩ := r
  simp only at hb hfail hok hprep
  obtain ⟨hq, hqs, hsize, -, -⟩ := hprep
  have hdev : s.dev.quantum = st'.quantum ∧ s.dev.qset = st'.qset ∧ s.dev.size = st'.size := by
    rw [hq, hqs, hsize]
    exact ⟨hs.quantum, hs.qset, hs.size⟩
  cases ok with
  | false => exact ⟨_, L', hfail rfl, ⟨hb, hdev.1, hdev.2.1, hdev.2.2⟩, rfl⟩
  | true =>
      obtain ⟨a, ha, -, hrun⟩ := hok rfl
      have hmax := piece_le_intMax hb.geometry p buff.length
      have hint : intMax < 2 ^ 31 := by decide
      have hwrap : st.wrapped p = st'.wrapped p := by
        rw [Store.wrapped, Store.item, ← hq, ← hqs, Store.wrapped, Store.item]
      rw [← hq, hwrap] at ha
      obtain ⟨h'', hb', hcopy⟩ := copyIn_backs (s := ⟨h', { s.dev with data := d' }⟩) hb ha buff
        fault p
      rw [hrun, hwrap, ← hq, hcopy]
      rw [Store.piece_wrapped] at hb' ⊢
      simp only [Store.transferAt]
      split
      · exact ⟨_, L', rfl, ⟨hb', hdev.1, hdev.2.1, hdev.2.2⟩, rfl⟩
      · have hend : ((p : Int) + (Store.piece st'.quantum p buff.length : Nat)) =
            ((p + Store.piece st'.quantum p buff.length : Nat) : Int) := (Int.natCast_add _ _).symm
        rw [hend, toULong_toLong_natCast (by omega)]
        exact ⟨_, L', rfl, ⟨{ hb' with }, hdev.1, hdev.2.1, congrArg (max · _) hdev.2.2⟩, rfl⟩

/-- `device_trim` leaves no block and gives every list item `device_qset` slots. -/
theorem deviceTrim_holds (hs : Holds s st L) (hfits : st.quantum * deviceQset ≤ intMax) :
    ∃ s' L', deviceTrim s = .ok s' ∧ Holds s' st.trim L' ∧ s'.dev.sem = s.dev.sem := by
  have hg := hs.backs.geometry
  obtain ⟨heap, hrun, hcalls, hnone⟩ :=
    deviceTrim_spec hs.backs.heap hg.qset_pos hs.backs.data hs.qset
  refine ⟨_, Layout.empty, hrun, ⟨?_, hs.quantum, rfl, rfl⟩, rfl⟩
  exact backs_of_dead hnone ⟨hg.quantum_pos, deviceQset_pos, hfits⟩ (hcalls.trans hs.backs.calls)
    rfl (fun _ => rfl) fun _ => rfl

/-- The kernel state represents the store and no call is in progress. -/
def Held (s : Kernel) (st : Store) : Prop := (∃ L, Holds s st L) ∧ s.dev.sem = 1

theorem held_empty {quantum qset : Nat} (hg : Geometry quantum qset) :
    Held (emptyDevice quantum qset) (Store.empty quantum qset) :=
  ⟨⟨Layout.empty, holds_empty hg⟩, rfl⟩

theorem locked_signal (ppos : Int) (body : Kernel → Except Oops (Reply × Kernel)) (s : Kernel) :
    locked true ppos body s = .ok (⟨-eRESTARTSYS, [], ppos⟩, s) := by
  simp [locked, downInterruptible]

/-- A locked section that is not interrupted takes the semaphore and gives it back. -/
theorem locked_run (hsem : s.dev.sem = 1) {s' : Kernel} {r : Reply} (ppos : Int)
    {body : Kernel → Except Oops (Reply × Kernel)}
    (hbody : body { s with dev := { s.dev with sem := 0 } } = .ok (r, s')) (hsem' : s'.dev.sem = 0) :
    locked false ppos body s = .ok (r, { s' with dev := { s'.dev with sem := 1 } }) := by
  have hdown : downInterruptible false s.dev = some { s.dev with sem := 0 } := by
    simp [downInterruptible, hsem]
  simp only [locked, hdown, hbody, ok_bind, pure_eq_ok, up, hsem']

theorem locked_held {st' : Store} {r : Reply} {body : Kernel → Except Oops (Reply × Kernel)}
    (hs : Held s st) (ppos : Int)
    (hbody : ∀ s₀ L, Holds s₀ st L → ∃ s' L', body s₀ = .ok (r, s') ∧ Holds s' st' L' ∧
      s'.dev.sem = s₀.dev.sem) :
    ∃ s', locked false ppos body s = .ok (r, s') ∧ Held s' st' := by
  obtain ⟨⟨L, hL⟩, hsem⟩ := hs
  obtain ⟨s', L', hrun, hs', hsem'⟩ := hbody { s with dev := { s.dev with sem := 0 } } L { hL with }
  exact ⟨_, locked_run hsem ppos hrun hsem', ⟨L', { hs' with }⟩, rfl⟩

theorem deviceRead_held (hs : Held s st) {p : Nat} (hp : p < 2 ^ 63) (len : Nat)
    (fault : Option Nat) :
    ∃ s', deviceRead env len false fault p s = .ok (st.readAt len fault p, s') ∧
      Held s' (st.walk env p) := by
  obtain ⟨⟨L, hL⟩, -⟩ := id hs
  simp only [deviceRead, deviceReadLocked, loadGeometry, hL.quantum, hL.qset]
  refine locked_held hs p fun s₀ L₀ h₀ => ?_
  obtain ⟨s', L', hrun, hs', hsem, -⟩ := deviceReadBody_holds env h₀ hp len fault
  exact ⟨s', L', hrun, hs', hsem⟩

theorem deviceWrite_held (hs : Held s st) {p : Nat} (hp : p < 2 ^ 63) (buff : List UInt8)
    (fault : Option Nat) :
    ∃ s', deviceWrite env buff false fault p s = .ok ((st.writeAt env buff fault p).1, s') ∧
      Held s' (st.writeAt env buff fault p).2 := by
  obtain ⟨⟨L, hL⟩, -⟩ := id hs
  simp only [deviceWrite, deviceWriteLocked, loadGeometry, hL.quantum, hL.qset]
  exact locked_held hs p fun s₀ L₀ h₀ => deviceWriteBody_holds env h₀ hp buff fault

theorem deviceOpen_held (hs : Held s st) (hfits : st.quantum * deviceQset ≤ intMax)
    {flags : UInt32} (hw : isWronly flags = true) :
    ∃ s', deviceOpen flags false s = .ok (⟨0, [], 0⟩, s') ∧ Held s' st.trim := by
  rw [deviceOpen, if_pos hw]
  refine locked_held hs 0 fun s₀ L₀ h₀ => ?_
  obtain ⟨s', L', hrun, hs', hsem⟩ := deviceTrim_holds h₀ hfits
  refine ⟨s', L', ?_, hs', hsem⟩
  simp only [hrun, ok_bind, pure_eq_ok]

end

end CharDriver.Chardev
