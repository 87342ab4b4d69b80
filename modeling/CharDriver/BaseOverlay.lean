import Mathlib.Data.List.Basic
import Mathlib.Data.List.Induction
import Mathlib.Logic.Function.Basic
import Mathlib.Tactic.Common

/-! Contents addressed by offset. `overlay f p data` is the contents `f` after `data` was stored from
offset `p`; with values in `Option` it is a write to a partial map. After several stores from the
start, an offset holds what the most recent one that reaches it put there. A copy from or to user
memory may fault and then moves only the first part of its data; a copy from user memory puts zeros
in place of the rest. A C string ends at the first NUL. -/

namespace CharDriver.Base

variable {β : Type}

def overlay (f : Nat → β) (p : Nat) (data : List β) (a : Nat) : β :=
  if p ≤ a then (data[a - p]?).getD (f a) else f a

theorem overlay_add (f : Nat → β) (p : Nat) (data : List β) {i : Nat} (hi : i < data.length) :
    overlay f p data (p + i) = data[i] := by
  simp [overlay, hi]

theorem overlay_of_lt (f : Nat → β) {p a : Nat} (data : List β) (ha : a < p) :
    overlay f p data a = f a := by
  rw [overlay, if_neg (by omega)]

theorem overlay_of_le (f : Nat → β) {p a : Nat} (data : List β) (ha : p + data.length ≤ a) :
    overlay f p data a = f a := by
  rw [overlay, List.getElem?_eq_none (by omega)]
  simp

theorem overlay_of_getElem? (f : Nat → β) {p a : Nat} {data : List β} {b : β} (hpa : p ≤ a)
    (hb : data[a - p]? = some b) : overlay f p data a = b := by
  rw [overlay, if_pos hpa, hb]
  rfl

theorem overlay_of_outside (f : Nat → β) {p a : Nat} {data : List β}
    (ha : ¬(p ≤ a ∧ a < p + data.length)) : overlay f p data a = f a := by
  rcases Nat.lt_or_ge a p with hlt | hge
  · exact overlay_of_lt f data hlt
  · exact overlay_of_le f data (by omega)

/-- Inside the stored range the old contents do not matter. -/
theorem overlay_of_inside (f : Nat → β) {p a : Nat} {data : List β}
    (ha : p ≤ a ∧ a < p + data.length) :
    overlay f p data a = data.get ⟨a - p, Nat.sub_lt_left_of_lt_add ha.1 ha.2⟩ :=
  overlay_of_getElem? f ha.1 (List.getElem?_eq_getElem _)

@[simp] theorem overlay_nil (f : Nat → β) (p : Nat) : overlay f p [] = f := by
  funext a
  simp [overlay]

/-- Inside the stored range the old contents do not matter, outside the data does not. -/
theorem overlay_cases (f : Nat → β) (p : Nat) (data : List β) (a : Nat) :
    (∃ h : a - p < data.length, p ≤ a ∧ overlay f p data a = data[a - p]) ∨
      (a < p ∨ p + data.length ≤ a) ∧ overlay f p data a = f a := by
  rcases Nat.lt_or_ge a p with hlt | hge
  · exact Or.inr ⟨Or.inl hlt, overlay_of_lt f data hlt⟩
  rcases Nat.lt_or_ge (a - p) data.length with hin | hout
  · left
    refine ⟨hin, hge, ?_⟩
    have h := overlay_add f p data hin
    rwa [Nat.add_sub_cancel' hge] at h
  · exact Or.inr ⟨Or.inr (by omega), overlay_of_le f data (by omega)⟩

/-- What a partial map holds after a write, some contents written alike hold as well. -/
theorem overlay_map_some (map : Nat → Option β) (f : Nat → β) {p a : Nat} {data : List β} {b : β}
    (h : overlay map p (data.map some) a = some b) :
    p ≤ a ∧ a < p + data.length ∧ overlay f p data a = b ∨
      map a = some b ∧ overlay f p data a = f a := by
  rcases overlay_cases map p (data.map some) a with ⟨hin, hpa, heq⟩ | ⟨hout, heq⟩
  · rw [List.length_map] at hin
    rw [heq, List.getElem_map, Option.some.injEq] at h
    refine Or.inl ⟨hpa, by omega, ?_⟩
    exact overlay_of_getElem? f hpa (by rw [List.getElem?_eq_getElem hin, h])
  · rw [List.length_map] at hout
    rw [heq] at h
    refine Or.inr ⟨h, ?_⟩
    rcases hout with hlt | hge
    · exact overlay_of_lt f data hlt
    · exact overlay_of_le f data hge

theorem map_range_add (f : Nat → β) (base m n : Nat) :
    ((List.range m).map fun i => f (base + i)) ++ ((List.range n).map fun i => f (base + m + i)) =
      (List.range (m + n)).map fun i => f (base + i) := by
  simp [List.range_add, Nat.add_assoc]

theorem drop_take_map_range (f : Nat → β) (base : Nat) {off len n : Nat} (hfit : off + len ≤ n) :
    (((List.range n).map fun t => f (base + t)).drop off).take len =
      (List.range len).map fun i => f (base + off + i) := by
  apply List.ext_getElem
  · simp
    omega
  intro i h₁ h₂
  simp [Nat.add_assoc]

/-- The bytes of a segment after a store that lies inside it. -/
theorem map_range_overlay (f : Nat → β) (base off len : Nat) (data : List β)
    (hfit : off + data.length ≤ len) :
    (List.range len).map (fun t => overlay f (base + off) data (base + t)) =
      ((List.range len).map fun t => f (base + t)).take off ++ data ++
        ((List.range len).map fun t => f (base + t)).drop (off + data.length) := by
  apply List.ext_getElem
  · simp
    omega
  intro t h₁ h₂
  simp only [List.length_map, List.length_range] at h₁
  simp only [List.getElem_map, List.getElem_range, List.getElem_append, List.length_append,
    List.length_take, List.length_map, List.length_range, List.getElem_take, List.getElem_drop,
    Nat.min_eq_left (show off ≤ len by omega)]
  split
  · split
    · rw [overlay_of_lt _ _ (by omega)]
    · have hin : t - off < data.length := by omega
      rw [← overlay_add f (base + off) data hin]
      congr 1
      omega
  · rw [overlay_of_le _ _ (by omega)]
    congr 1
    omega

/-- One more byte stored at the end. -/
theorem overlay_concat (f : Nat → β) (p : Nat) (data : List β) (b : β) :
    Function.update (overlay f p data) (p + data.length) b = overlay f p (data ++ [b]) := by
  funext a
  rcases Nat.lt_trichotomy a (p + data.length) with hlt | rfl | hgt
  · rw [Function.update_of_ne (by omega)]
    unfold overlay
    split
    · rw [List.getElem?_append_left (by omega)]
    · rfl
  · rw [Function.update_self]
    exact (overlay_of_getElem? f (Nat.le_add_right _ _) (by simp)).symm
  · rw [Function.update_of_ne (by omega), overlay_of_le f data (by omega),
      overlay_of_le f _ (by rw [List.length_append, List.length_singleton]; omega)]

/-- What was stored from the start comes first. -/
theorem prefix_map_range_overlay (f : Nat → β) {data : List β} {n : Nat} (hfit : data.length ≤ n) :
    data <+: (List.range n).map (overlay f 0 data) := by
  have hmap := map_range_overlay f 0 0 n data (by omega)
  simp only [Nat.zero_add, List.take_zero, List.nil_append] at hmap
  exact ⟨_, hmap.symm⟩

/-- The contents `f` after several stores from offset 0. -/
def overlays (f : Nat → β) (datas : List (List β)) : Nat → β :=
  datas.foldl (fun g data => overlay g 0 data) f

/-- The most recent of several stores from offset 0 that reaches offset `i`. -/
def lastReaching (i : Nat) (datas : List (List β)) : Option (List β) :=
  datas.reverse.find? fun data => i < data.length

theorem lastReaching_of_mem {i : Nat} {datas : List (List β)} {data : List β} (hmem : data ∈ datas)
    (hreach : i < data.length) : ∃ last, lastReaching i datas = some last ∧ i < last.length := by
  have hsome : (lastReaching i datas).isSome := by
    rw [lastReaching, List.find?_isSome]
    exact ⟨data, List.mem_reverse.mpr hmem, by simpa using hreach⟩
  obtain ⟨last, hlast⟩ := Option.isSome_iff_exists.mp hsome
  exact ⟨last, hlast, by simpa using List.find?_some hlast⟩

theorem lastReaching_concat (i : Nat) (datas : List (List β)) (data : List β) :
    lastReaching i (datas ++ [data]) =
      if i < data.length then some data else lastReaching i datas := by
  rw [lastReaching, List.reverse_append, List.reverse_singleton, List.singleton_append,
    List.find?_cons]
  by_cases hreach : i < data.length
  · simp [hreach]
  · simp [hreach, lastReaching]

/-- The most recent store that reaches an offset decides, and the old contents where none does. -/
theorem overlays_apply (f : Nat → β) (datas : List (List β)) (i : Nat) :
    overlays f datas i = ((lastReaching i datas).bind fun data => data[i]?).getD (f i) := by
  induction datas using List.reverseRecOn with
  | nil => rfl
  | append_singleton datas data ih =>
      have hlast : overlays f (datas ++ [data]) i = overlay (overlays f datas) 0 data i := by
        rw [overlays, List.foldl_append]
        rfl
      rw [hlast, lastReaching_concat]
      split
      · rename_i hreach
        have hget := List.getElem?_eq_getElem hreach
        rw [overlay_of_getElem? _ (Nat.zero_le i) hget, Option.bind_some, hget, Option.getD_some]
      · rename_i hshort
        rw [overlay_of_le _ _ (by omega), ih]

/-- How many of `len` bytes a user copy moves when the user memory faults after `fault` bytes. The
copy functions return the number of bytes that were not copied. -/
def copied (fault : Option Nat) (len : Nat) : Nat :=
  match fault with
  | none => len
  | some n => min n len

theorem copied_le (fault : Option Nat) (len : Nat) : copied fault len ≤ len := by
  cases fault with
  | none => exact Nat.le_refl len
  | some n => exact Nat.min_le_right n len

@[simp] theorem copied_none (len : Nat) : copied none len = len := rfl

theorem copied_eq_iff (fault : Option Nat) (len : Nat) :
    copied fault len = len ↔ ∀ n ∈ fault, len ≤ n := by
  cases fault with
  | none => simp
  | some n =>
      simp only [copied, Option.mem_some_iff, forall_eq']
      omega

/-- What a copy from user memory leaves at its destination: the bytes it moved, and zeros in place of
those it could not move. -/
def received (fault : Option Nat) (data : List UInt8) : List UInt8 :=
  data.take (copied fault data.length) ++ List.replicate (data.length - copied fault data.length) 0

@[simp] theorem length_received (fault : Option Nat) (data : List UInt8) :
    (received fault data).length = data.length := by
  have hle := copied_le fault data.length
  rw [received, List.length_append, List.length_take, List.length_replicate]
  omega

theorem received_of_copied {fault : Option Nat} {data : List UInt8}
    (hall : copied fault data.length = data.length) : received fault data = data := by
  rw [received, hall, List.take_length, Nat.sub_self, List.replicate_zero, List.append_nil]

@[simp] theorem received_none (data : List UInt8) : received none data = data :=
  received_of_copied rfl

theorem received_take {fault : Option Nat} {data : List UInt8} {n : Nat} (hn : n ≤ data.length)
    (hall : ¬copied fault n < n) : received fault (data.take n) = data.take n := by
  have hle := copied_le fault n
  apply received_of_copied
  rw [List.length_take, Nat.min_eq_left hn]
  omega

/-- What `%s` prints of an array that holds these bytes; `none` when no NUL ends it inside. -/
def cString (bytes : List UInt8) : Option (List UInt8) :=
  if 0 ∈ bytes then some (bytes.takeWhile (· ≠ 0)) else none

/-- What follows the first NUL does not matter. -/
theorem cString_of_prefix {str bytes : List UInt8} (hnul : 0 ∉ str) (hpre : str ++ [0] <+: bytes) :
    cString bytes = some str := by
  obtain ⟨rest, rfl⟩ := hpre
  have hbytes : ∀ b ∈ str, decide (b ≠ 0) = true := fun b hb =>
    decide_eq_true fun hzero => hnul (hzero ▸ hb)
  rw [cString, if_pos (by simp), List.append_assoc, List.takeWhile_append_of_pos hbytes]
  simp

/-- A string ends within the bytes before any NUL. -/
theorem cString_within {data bytes : List UInt8} (hpre : data ++ [0] <+: bytes) :
    ∃ str, cString bytes = some str ∧ str <+: data := by
  obtain ⟨rest, rfl⟩ := hpre
  rw [cString, if_pos (by simp)]
  refine ⟨_, rfl, ?_⟩
  rw [List.append_assoc, List.takeWhile_append]
  split
  · simp
  · exact List.takeWhile_prefix _

/-- Before a NUL, the string comes first, with a NUL behind it. -/
theorem takeWhile_concat_prefix (bytes rest : List UInt8) :
    bytes.takeWhile (· ≠ 0) ++ [0] <+: bytes ++ 0 :: rest := by
  induction bytes with
  | nil => exact ⟨rest, rfl⟩
  | cons b bytes ih =>
      by_cases hb : b = 0
      · simp [hb]
      · rw [List.takeWhile_cons_of_pos (by simpa using hb)]
        exact List.prefix_cons_inj b |>.mpr ih

end CharDriver.Base
