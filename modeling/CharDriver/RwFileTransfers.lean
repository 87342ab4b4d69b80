import CharDriver.RwFileSessions

/-! The transfers on one open handle. Each is within its bounds and returns what it moved exactly when
a read offers all of `mem_size` and moves it, and a write fits in `mem_size` and moves all it offers:
`device_read` ignores `len`, `device_write` ignores `mem_size`, and neither looks at what the copy
returns. Where nothing faults and nothing is too long, a read delivers the overlay of the writes before
it. -/

namespace CharDriver.RwFile

open Base

/-- The replies to transfers on a handle opened in state `s`, with the block `kmalloc` returns. -/
def onHandle (s : State) (b : Nat) (ops : List Op) : Except Oops (List Reply) := do
  let (s, _) ← step s (.deviceOpen 0 (some b))
  let (_, rs) ← runSteps step s (ops.map (.transfer 0))
  return rs

theorem onHandle_eq {s : State} (hidle : Idle s) (b : Nat) (ops : List Op) :
    onHandle s b ops = .ok (replies (s.kernel.slab.mem b) ops) := by
  obtain ⟨s₁, hopen, hs₁, hmem⟩ := open_run hidle b
  obtain ⟨s₂, hops, -⟩ := ops_run ops hs₁
  rw [hmem] at hops
  simp only [onHandle, hopen, hops, ok_bind, pure_eq_ok]

/-- The count the caller passes, which is the size of its buffer. -/
def Op.len : Op → Nat
  | .deviceRead len _ => len
  | .deviceWrite buff _ => buff.length

/-- The count the driver passes to the copy. -/
def Op.asked : Op → Nat
  | .deviceRead .. => memSize
  | .deviceWrite buff _ => buff.length

/-- The bytes moved: in the user's memory those below this index were read or stored, and no others. -/
def Reply.moved (r : Reply) : Nat := r.bytes.length + r.taken

/-- The same in the kernel's memory, where a copy that faults stores zeros for what it could not
move. -/
def Reply.touched (r : Reply) : Nat := r.bytes.length + r.stored

/-- A transfer that stays in bounds and reports the truth. -/
structure Sound (op : Op) (r : Reply) : Prop where
  kernel : ∀ i < r.touched, i < memSize
  user : ∀ i < r.moved, i < op.len
  count : 0 ≤ r.ret → r.ret ≤ op.len ∧ r.ret = r.moved
  faulted : 0 < op.asked → r.moved = 0 → r.ret < 0

/-- The transfers that are: a read of at least `mem_size` bytes that does not fault within them, and a
write of at most `mem_size` bytes that does not fault. -/
def Op.Proper : Op → Prop
  | .deviceRead len fault => memSize ≤ len ∧ ∀ n ∈ fault, memSize ≤ n
  | .deviceWrite buff fault => buff.length ≤ memSize ∧ ∀ n ∈ fault, buff.length ≤ n

instance properDecidable : ∀ op : Op, Decidable op.Proper
  | .deviceRead .. => inferInstanceAs (Decidable (_ ∧ _))
  | .deviceWrite .. => inferInstanceAs (Decidable (_ ∧ _))

theorem sound_read (f : Nat → UInt8) (len : Nat) (fault : Option Nat) :
    Sound (.deviceRead len fault) ((Op.deviceRead len fault).reply f) ↔
      (Op.deviceRead len fault).Proper := by
  have hmoved : ((Op.deviceRead len fault).reply f).moved = copied fault memSize := by
    simp [Op.reply, Reply.moved]
  have htouched : ((Op.deviceRead len fault).reply f).touched = copied fault memSize := by
    simp [Op.reply, Reply.touched]
  have hret : ((Op.deviceRead len fault).reply f).ret = memSize := rfl
  have hpos : 0 < memSize := by decide
  constructor
  · intro hsound
    obtain ⟨hlen, hall⟩ := hsound.count (hret ▸ Int.natCast_nonneg memSize)
    rw [hret, hmoved, Int.natCast_inj] at hall
    rw [hret] at hlen
    exact ⟨Int.ofNat_le.mp hlen, (copied_eq_iff fault memSize).mp hall.symm⟩
  · rintro ⟨hlen, hfault⟩
    rw [← copied_eq_iff] at hfault
    rw [hfault] at hmoved htouched
    refine ⟨fun i hi => htouched ▸ hi, fun i hi => ?_, fun _ => ⟨?_, ?_⟩, fun _ hzero => ?_⟩
    · exact (hmoved ▸ hi : i < memSize).trans_le hlen
    · exact Int.ofNat_le.mpr hlen
    · rw [hret, hmoved]
    · omega

theorem sound_write (f : Nat → UInt8) (buff : List UInt8) (fault : Option Nat) :
    Sound (.deviceWrite buff fault) ((Op.deviceWrite buff fault).reply f) ↔
      (Op.deviceWrite buff fault).Proper := by
  have hmoved : ((Op.deviceWrite buff fault).reply f).moved = copied fault buff.length :=
    Nat.zero_add _
  have htouched : ((Op.deviceWrite buff fault).reply f).touched = buff.length := Nat.zero_add _
  have hkernel : (∀ i < buff.length, i < memSize) ↔ buff.length ≤ memSize := forall_lt_iff_le
  have hret (hfits : buff.length ≤ memSize) :
      ((Op.deviceWrite buff fault).reply f).ret = buff.length := by
    simp only [Op.reply]
    exact toLong_natCast (Nat.lt_of_le_of_lt hfits (by decide))
  constructor
  · intro hsound
    have hfits := hkernel.mp (htouched ▸ hsound.kernel)
    have hret := hret hfits
    obtain ⟨-, hall⟩ := hsound.count (hret ▸ Int.natCast_nonneg buff.length)
    exact ⟨hfits, (copied_eq_iff fault buff.length).mp (by omega)⟩
  · rintro ⟨hfits, hfault⟩
    have hret := hret hfits
    rw [← copied_eq_iff] at hfault
    refine ⟨fun i hi => ?_, fun i hi => ?_, fun _ => ⟨?_, ?_⟩, fun hasked hzero => ?_⟩
    · exact hkernel.mpr hfits i (htouched ▸ hi)
    · rw [hmoved, hfault] at hi
      exact hi
    · exact Int.le_of_eq hret
    · rw [hret, hmoved, hfault]
    · simp only [Op.asked] at hasked
      omega

theorem sound_iff_proper (f : Nat → UInt8) (op : Op) : Sound op (op.reply f) ↔ op.Proper := by
  cases op with
  | deviceRead len fault => exact sound_read f len fault
  | deviceWrite buff fault => exact sound_write f buff fault

theorem forall₂_sound_replies (ops : List Op) (f : Nat → UInt8) :
    List.Forall₂ Sound ops (replies f ops) ↔ ∀ op ∈ ops, op.Proper := by
  induction ops generalizing f with
  | nil => simp [replies]
  | cons op ops ih =>
      rw [replies, List.forall₂_cons, sound_iff_proper f op, ih, List.forall_mem_cons]

def TransfersSound (s : State) (b : Nat) (ops : List Op) : Prop :=
  ∃ rs, onHandle s b ops = .ok rs ∧ List.Forall₂ Sound ops rs

/-- The transfers of a handle are sound exactly when they are proper. -/
theorem transfers_sound_iff {s : State} (hidle : Idle s) (b : Nat) (ops : List Op) :
    TransfersSound s b ops ↔ ∀ op ∈ ops, op.Proper := by
  rw [TransfersSound, ← forall₂_sound_replies ops (s.kernel.slab.mem b), onHandle_eq hidle b ops]
  constructor
  · rintro ⟨rs, hrs, hsound⟩
    rwa [Except.ok.inj hrs]
  · exact fun hsound => ⟨_, rfl, hsound⟩

theorem transfers_sound_short :
    TransfersSound (initial fun _ _ => 0) 7
      [.deviceWrite [104, 105, 0] none, .deviceRead 1024 none] :=
  (transfers_sound_iff (idle_initial _) 7 _).mpr (by decide)

theorem not_sound_of_not_proper {s : State} (hidle : Idle s) (b : Nat) {op : Op}
    (himproper : ¬ op.Proper) : ¬ TransfersSound s b [op] := by
  rintro ⟨rs, hrs, hsound⟩
  rw [onHandle_eq hidle] at hrs
  rw [← Except.ok.inj hrs, replies, List.forall₂_cons, sound_iff_proper] at hsound
  exact himproper hsound.1

/-- A read into a buffer of one byte, a write of 1025 bytes, and a write that faults at its first
byte. -/
theorem transfers_not_sound :
    ¬ TransfersSound (initial fun _ _ => 0) 7 [.deviceRead 1 none] ∧
      ¬ TransfersSound (initial fun _ _ => 0) 7 [.deviceWrite (List.replicate 1025 65) none] ∧
      ¬ TransfersSound (initial fun _ _ => 0) 7 [.deviceWrite [65] (some 0)] := by
  refine ⟨?_, ?_, ?_⟩
  · exact not_sound_of_not_proper (idle_initial _) 7 (by decide)
  · exact not_sound_of_not_proper (idle_initial _) 7 (by decide +kernel)
  · exact not_sound_of_not_proper (idle_initial _) 7 (by decide)

/-! ### What a read delivers -/

/-- The copy does not fault, and a write is of at most `mem_size` bytes. -/
def Op.Clean : Op → Prop
  | .deviceRead _ fault => fault = none
  | .deviceWrite buff fault => buff.length ≤ memSize ∧ fault = none

instance opCleanDecidable : ∀ op : Op, Decidable op.Clean
  | .deviceRead .. => inferInstanceAs (Decidable (_ = _))
  | .deviceWrite .. => inferInstanceAs (Decidable (_ ∧ _))

def writes (ops : List Op) : List (List UInt8) :=
  ops.filterMap fun op =>
    match op with
    | .deviceRead .. => none
    | .deviceWrite buff _ => some buff

/-- What a read between other transfers delivers, whatever its count. -/
def delivered (s : State) (b : Nat) (before : List Op) (len : Nat) (after : List Op) :
    Except Oops (Option (List UInt8)) := do
  let rs ← onHandle s b (before ++ .deviceRead len none :: after)
  return rs[before.length]?.map Reply.bytes

/-- The bytes are the overlay of the writes, and the last string written with its NUL is what C reads
in them. -/
structure Overlaid (datas : List (List UInt8)) (bytes : List UInt8) : Prop where
  length : bytes.length = memSize
  latest : ∀ i < memSize, ∀ data ∈ datas, i < data.length →
    ∃ last, lastReaching i datas = some last ∧ i < last.length ∧ bytes[i]? = last[i]?
  string : ∀ str, 0 ∉ str → datas.getLast? = some (str ++ [0]) → cString bytes = some str

theorem length_replies (f : Nat → UInt8) (ops : List Op) : (replies f ops).length = ops.length := by
  induction ops generalizing f with
  | nil => rfl
  | cons op ops ih => rw [replies, List.length_cons, ih, List.length_cons]

theorem replies_append (f : Nat → UInt8) (ops ops' : List Op) :
    replies f (ops ++ ops') = replies f ops ++ replies (ops.foldl Op.contents f) ops' := by
  induction ops generalizing f with
  | nil => rfl
  | cons op ops ih => rw [List.cons_append, replies, ih, replies, List.cons_append, List.foldl_cons]

/-- Reads leave the buffer alone, so only the writes count. -/
theorem foldl_contents (f : Nat → UInt8) {ops : List Op} (hclean : ∀ op ∈ ops, op.Clean) :
    ops.foldl Op.contents f = overlays f (writes ops) := by
  induction ops generalizing f with
  | nil => rfl
  | cons op ops ih =>
      have hrest := ih (op.contents f) fun o ho => hclean o (List.mem_cons_of_mem op ho)
      rw [List.foldl_cons, hrest]
      cases op with
      | deviceRead len fault => rfl
      | deviceWrite buff fault =>
          obtain ⟨-, rfl⟩ := hclean _ List.mem_cons_self
          rw [Op.contents, received_none]
          rfl

theorem delivered_eq {s : State} (hidle : Idle s) (b : Nat) {before : List Op}
    (hclean : ∀ op ∈ before, op.Clean) (len : Nat) (after : List Op) :
    delivered s b before len after = .ok (some ((List.range memSize).map
      (overlays (s.kernel.slab.mem b) (writes before)))) := by
  have hlength := length_replies (s.kernel.slab.mem b) before
  have hget : (replies (s.kernel.slab.mem b) (before ++ .deviceRead len none :: after))[
      before.length]? =
        some ((Op.deviceRead len none).reply (overlays (s.kernel.slab.mem b) (writes before))) := by
    rw [replies_append, List.getElem?_append_right (by omega), hlength, Nat.sub_self, replies,
      foldl_contents _ hclean]
    rfl
  simp only [delivered, onHandle_eq hidle, ok_bind, pure_eq_ok, hget, Option.map_some, Op.reply,
    copied_none]

theorem overlays_string (f : Nat → UInt8) {datas : List (List UInt8)} {str : List UInt8} {n : Nat}
    (hlast : datas.getLast? = some (str ++ [0])) (hfits : (str ++ [0]).length ≤ n) :
    str ++ [0] <+: (List.range n).map (overlays f datas) := by
  obtain ⟨init, rfl⟩ := List.getLast?_eq_some_iff.mp hlast
  rw [overlays, List.foldl_append]
  exact prefix_map_range_overlay (overlays f init) hfits

theorem overlaid (f : Nat → UInt8) {ops : List Op} (hclean : ∀ op ∈ ops, op.Clean) :
    Overlaid (writes ops) ((List.range memSize).map (overlays f (writes ops))) where
  length := by rw [List.length_map, List.length_range]
  latest i hi data hmem hreach := by
    obtain ⟨last, hlast, hin⟩ := lastReaching_of_mem hmem hreach
    have hget := List.getElem?_eq_getElem hin
    refine ⟨last, hlast, hin, ?_⟩
    rw [List.getElem?_map, List.getElem?_range hi, Option.map_some, overlays_apply, hlast,
      Option.bind_some, hget, Option.getD_some]
  string str hnul hlast := by
    have hmem : str ++ [0] ∈ writes ops := List.mem_of_getLast? hlast
    obtain ⟨op, hop, hdata⟩ := List.mem_filterMap.mp hmem
    have hfits : (str ++ [0]).length ≤ memSize := by
      cases op with
      | deviceRead len fault => cases hdata
      | deviceWrite buff fault =>
          obtain rfl : buff = str ++ [0] := Option.some.inj hdata
          exact (hclean _ hop).1
    exact cString_of_prefix hnul (overlays_string f hlast hfits)

/-- A read of a session without faults delivers the overlay of the writes before it, whatever reads
are among them. -/
theorem delivered_overlaid {s : State} (hidle : Idle s) (b : Nat) (before : List Op) (len : Nat)
    (after : List Op) (hclean : ∀ op ∈ before, op.Clean) :
    ∃ bytes, delivered s b before len after = .ok (some bytes) ∧ Overlaid (writes before) bytes ∧
      ∀ before' len' after', (∀ op ∈ before', op.Clean) → writes before' = writes before →
        delivered s b before' len' after' = .ok (some bytes) := by
  refine ⟨_, delivered_eq hidle b hclean len after, overlaid _ hclean, ?_⟩
  intro before' len' after' hclean' hwrites
  rw [delivered_eq hidle b hclean' len' after', hwrites]

/-- A short string after a longer one, with a read in between, over old contents without a NUL. -/
theorem delivered_overlaid_short :
    ∃ bytes, delivered (initial fun _ _ => 7) 3 [.deviceWrite [104, 101, 108, 108, 111, 0] none,
      .deviceRead 1 none, .deviceWrite [104, 105, 0] none] 1024 [] = .ok (some bytes) ∧
        cString bytes = some [104, 105] := by
  obtain ⟨bytes, hread, hoverlaid, -⟩ := delivered_overlaid (idle_initial fun _ _ => 7) 3
    [.deviceWrite [104, 101, 108, 108, 111, 0] none, .deviceRead 1 none,
      .deviceWrite [104, 105, 0] none] 1024 [] (by decide)
  exact ⟨bytes, hread, hoverlaid.string [104, 105] (by decide) rfl⟩

end CharDriver.RwFile
