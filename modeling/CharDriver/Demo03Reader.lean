import CharDriver.BaseInt
import CharDriver.BaseOverlay

/-! `device_read` of `demo03.c` and the reader of its usage note, `head -c80`. A call copies the text
from its first byte, as far as the request goes, and never looks at `*ppos`: there is no end of file,
and a call does not go on where the one before it stopped. So the reader receives the text over and over
exactly when its buffer holds the whole text, or the whole request, and no call faults. -/

namespace CharDriver.Demo03

open Base

/-- "Hello data reading us done from device", without its NUL. -/
def data : List UInt8 :=
  [72, 101, 108, 108, 111, 32, 100, 97, 116, 97, 32, 114, 101, 97, 100, 105, 110, 103, 32, 117, 115, 32,
    100, 111, 110, 101, 32, 102, 114, 111, 109, 32, 100, 101, 118, 105, 99, 101]

def eFAULT : Int := 14

/-- The return value of `device_read`, and what it has copied to the user's buffer. -/
structure Read where
  ret : Int
  bytes : List UInt8

def deviceRead (fault : Option Nat) (len : Nat) : Read :=
  let datalen := data.length
  let len := if datalen < len then datalen else len
  let n := copied fault len
  if len - n ≠ 0 then ⟨-eFAULT, data.take n⟩ else ⟨toLong len, data.take n⟩

/-- A reader with a buffer of `size` bytes: call `k` asks for the `left` bytes it still wants, as far as
they fit into the buffer, until nothing is left or a count is not positive. A positive count leaves less,
so `fuel` is the number of bytes it wants. -/
def headLoop (fault : Nat → Option Nat) (size : Nat) : Nat → Nat → Nat → List UInt8
  | 0, _, _ => []
  | fuel + 1, k, left =>
      if left = 0 then []
      else
        let r := deviceRead (fault k) (min size left)
        if 0 < r.ret then
          r.bytes.take r.ret.toNat ++ headLoop fault size fuel (k + 1) (left - r.ret.toNat)
        else []

def head (fault : Nat → Option Nat) (size n : Nat) : List UInt8 :=
  headLoop fault size n 0 n

/-- The first `n` bytes of the first `m` bytes of the text, over and over. -/
def cycle (m n : Nat) : List UInt8 :=
  (List.range n).map fun i => data.getD (i % m) 0

def repeated (n : Nat) : List UInt8 :=
  cycle data.length n

/-- How many bytes a call with enough left to read gets: a buffer, or the text. -/
def share (size : Nat) : Nat := min size data.length

/-- No call the reader makes faults before it has copied its share, or what is left. -/
def Unfaulted (fault : Nat → Option Nat) (size k left : Nat) : Prop :=
  ∀ j, j * share size < left → ∀ f ∈ fault (k + j), min (share size) (left - j * share size) ≤ f

@[simp] theorem length_cycle (m n : Nat) : (cycle m n).length = n := by simp [cycle]

theorem cycle_getD {m n i : Nat} (hi : i < n) : (cycle m n).getD i 0 = data.getD (i % m) 0 := by
  simp [cycle, hi]

theorem cycle_of_le {m n : Nat} (hm : m ≤ data.length) (hn : n ≤ m) : cycle m n = data.take n := by
  apply List.ext_getElem
  · rw [length_cycle, List.length_take]
    omega
  intro i hleft hright
  rw [length_cycle] at hleft
  have hmod : i % m = i := Nat.mod_eq_of_lt (by omega)
  simp only [cycle, List.getElem_map, List.getElem_range, List.getElem_take, hmod]
  exact (List.getElem_eq_getD 0).symm

theorem cycle_add {m : Nat} (hm : m ≤ data.length) (n : Nat) :
    cycle m (m + n) = data.take m ++ cycle m n := by
  rw [← cycle_of_le hm (Nat.le_refl m)]
  have hround : cycle m n = (List.range n).map fun i => data.getD ((0 + m + i) % m) 0 := by
    simp only [cycle, Nat.zero_add, Nat.add_mod_left]
  rw [hround, cycle, cycle]
  simpa only [Nat.zero_add] using
    (map_range_add (fun i => data.getD (i % m) 0) 0 m n).symm

/-- Only the first byte of the text is an `H`, so a shorter circle is another one. -/
theorem cycle_ne_repeated {m n : Nat} (hpos : 0 < m) (hm : m < data.length) (hn : m < n) :
    cycle m n ≠ repeated n := by
  intro heq
  have honly : ∀ i < data.length, 0 < i → data.getD i 0 ≠ data.getD 0 0 := by decide
  have hget := congrArg (fun l => l.getD m 0) heq
  simp only [repeated, cycle_getD hn, Nat.mod_self, Nat.mod_eq_of_lt hm] at hget
  exact honly m hm hpos hget.symm

section Call

variable {fault : Option Nat} {len : Nat}

/-- A call that does not fault copies the start of the text, as far as the request goes. -/
theorem deviceRead_of_copies (h : ∀ f ∈ fault, min len data.length ≤ f) :
    deviceRead fault len = ⟨(min len data.length : Nat), data.take (min len data.length)⟩ := by
  have hmin : (if data.length < len then data.length else len) = min len data.length := by
    split <;> omega
  have hsmall : min len data.length < 2 ^ 63 :=
    Nat.lt_of_le_of_lt (Nat.min_le_right _ _) (by decide)
  simp only [deviceRead, hmin]
  rw [(copied_eq_iff fault _).mpr h, Nat.sub_self, if_neg (by omega), toLong_natCast hsmall]

theorem deviceRead_of_fault (h : ¬∀ f ∈ fault, min len data.length ≤ f) :
    (deviceRead fault len).ret = -eFAULT := by
  have hmin : (if data.length < len then data.length else len) = min len data.length := by
    split <;> omega
  have hshort : copied fault (min len data.length) ≠ min len data.length := fun hall =>
    h ((copied_eq_iff fault _).mp hall)
  have hle := copied_le fault (min len data.length)
  simp only [deviceRead, hmin]
  rw [if_pos (by omega)]

end Call

section Loop

variable {fault : Nat → Option Nat} {size : Nat}

theorem share_le : share size ≤ data.length := Nat.min_le_right _ _

theorem min_min_length (left : Nat) : min (min size left) data.length = min (share size) left := by
  simp only [share]
  omega

theorem headLoop_of_copies (hsize : 0 < size) (fuel k : Nat) {left : Nat} (hleft : 0 < left)
    (h : ∀ f ∈ fault k, min (share size) left ≤ f) :
    headLoop fault size (fuel + 1) k left = data.take (min (share size) left) ++
      headLoop fault size fuel (k + 1) (left - min (share size) left) := by
  have hpos : 0 < min (share size) left :=
    Nat.lt_min.mpr ⟨Nat.lt_min.mpr ⟨hsize, by decide⟩, hleft⟩
  rw [headLoop, if_neg (by omega)]
  rw [deviceRead_of_copies (by rwa [min_min_length]), min_min_length]
  simp only [Int.toNat_natCast, List.take_take, Nat.min_self]
  rw [if_pos (by omega)]

theorem headLoop_of_fault (fuel k : Nat) {left : Nat} (h : ¬∀ f ∈ fault k, min (share size) left ≤ f) :
    headLoop fault size (fuel + 1) k left = [] := by
  have hret : (deviceRead (fault k) (min size left)).ret = -eFAULT :=
    deviceRead_of_fault (by rwa [min_min_length])
  rw [headLoop]
  split
  · rfl
  · simp only [hret]
    rfl

theorem Unfaulted.first {k left : Nat} (h : Unfaulted fault size k left) (hleft : 0 < left) :
    ∀ f ∈ fault k, min (share size) left ≤ f := by
  have hfirst := h 0 (by omega)
  rwa [Nat.zero_mul, Nat.sub_zero] at hfirst

theorem unfaulted_zero (k : Nat) : Unfaulted fault size k 0 := fun _ hj => absurd hj (Nat.not_lt_zero _)

theorem unfaulted_next {k left : Nat} (hfirst : ∀ f ∈ fault k, min (share size) left ≤ f) :
    Unfaulted fault size k left ↔ Unfaulted fault size (k + 1) (left - min (share size) left) := by
  have hmul (j : Nat) : (j + 1) * share size = j * share size + share size := Nat.succ_mul j _
  constructor
  · intro h j hj
    have hnext := h (j + 1) (by rw [hmul]; omega)
    rw [hmul] at hnext
    rw [show k + 1 + j = k + (j + 1) by omega]
    intro f hf
    have := hnext f hf
    omega
  · intro h j hj
    cases j with
    | zero => rwa [Nat.zero_mul, Nat.sub_zero]
    | succ j =>
        rw [hmul] at hj ⊢
        intro f hf
        rw [show k + (j + 1) = k + 1 + j by omega] at hf
        have := h j (by omega) f hf
        omega

/-- The reader receives its share of the text over and over, all it wants exactly where no call
faults. -/
theorem headLoop_eq_cycle (hsize : 0 < size) (fuel k : Nat) {left : Nat} (hfuel : left ≤ fuel) :
    ∃ m ≤ left, headLoop fault size fuel k left = cycle (share size) m ∧
      (m = left ↔ Unfaulted fault size k left) := by
  induction fuel generalizing k left with
  | zero =>
      obtain rfl : left = 0 := by omega
      exact ⟨0, Nat.le_refl 0, rfl, iff_of_true rfl (unfaulted_zero k)⟩
  | succ fuel ih =>
      rcases Nat.eq_zero_or_pos left with rfl | hleft
      · exact ⟨0, Nat.le_refl 0, rfl, iff_of_true rfl (unfaulted_zero k)⟩
      by_cases hfirst : ∀ f ∈ fault k, min (share size) left ≤ f
      · have hpos : 0 < share size := Nat.lt_min.mpr ⟨hsize, by decide⟩
        have hrest : left - min (share size) left ≤ fuel := by omega
        obtain ⟨m, hm, heq, hall⟩ := ih (k + 1) hrest
        rw [headLoop_of_copies hsize fuel k hleft hfirst, heq, unfaulted_next hfirst, ← hall]
        rcases Nat.le_total left (share size) with hlast | hmore
        · obtain rfl : m = 0 := by omega
          refine ⟨left, Nat.le_refl left, ?_, by omega⟩
          rw [Nat.min_eq_right hlast, cycle_of_le share_le hlast]
          exact List.append_nil _
        · rw [Nat.min_eq_left hmore] at hm ⊢
          exact ⟨share size + m, by omega, (cycle_add share_le m).symm, by omega⟩
      · rw [headLoop_of_fault fuel k hfirst]
        refine ⟨0, Nat.zero_le left, rfl, iff_of_false (by omega) fun h => hfirst (h.first hleft)⟩

/-- A reader without a buffer asks for nothing, and takes the 0 it gets for the end. -/
theorem head_of_no_buffer (fault : Nat → Option Nat) (n : Nat) : head fault 0 n = [] := by
  cases n with
  | zero => rfl
  | succ n =>
      have hcall : deviceRead (fault 0) 0 = ⟨0, []⟩ :=
        deviceRead_of_copies fun f _ => Nat.zero_le f
      simp only [head, headLoop, Nat.zero_min, hcall]
      rfl

theorem cycle_share_eq_repeated {n : Nat} (hfit : n ≤ size ∨ data.length ≤ size) :
    cycle (share size) n = repeated n := by
  have hwhole (h : data.length ≤ size) : cycle (share size) n = repeated n := by
    rw [repeated, share, Nat.min_eq_right h]
  rcases hfit with hn | hlarge
  · rcases Nat.le_total data.length size with hlarge | hsmall
    · exact hwhole hlarge
    · rw [repeated, share, Nat.min_eq_left hsmall, cycle_of_le hsmall hn,
        cycle_of_le (Nat.le_refl _) (Nat.le_trans hn hsmall)]
  · exact hwhole hlarge

/-- The reader receives its share of the text over and over, as far as it gets. That is the text
repeated to all it wants exactly when its buffer holds the text, or the whole request, and no call it
makes faults. -/
theorem head_receives (fault : Nat → Option Nat) (size n : Nat) :
    (∃ m ≤ n, head fault size n = cycle (share size) m) ∧ (head fault size n = repeated n ↔
      (n ≤ size ∨ data.length ≤ size) ∧ Unfaulted fault size 0 n) := by
  rcases Nat.eq_zero_or_pos n with rfl | hn
  · exact ⟨⟨0, Nat.le_refl 0, rfl⟩, iff_of_true rfl ⟨Or.inl (Nat.zero_le _), unfaulted_zero 0⟩⟩
  rcases Nat.eq_zero_or_pos size with rfl | hsize
  · rw [head_of_no_buffer]
    refine ⟨⟨0, Nat.zero_le n, rfl⟩, iff_of_false (fun heq => ?_) fun h => ?_⟩
    · have hlength := congrArg List.length heq
      rw [repeated, length_cycle] at hlength
      exact absurd hlength (Nat.ne_of_lt hn)
    · have hpos : 0 < data.length := by decide
      omega
  obtain ⟨m, hm, heq, hall⟩ := @headLoop_eq_cycle fault size hsize n 0 n (Nat.le_refl n)
  change head fault size n = cycle (share size) m at heq
  refine ⟨⟨m, hm, heq⟩, ?_⟩
  rw [heq, ← hall]
  constructor
  · intro hcycle
    have hlength := congrArg List.length hcycle
    rw [repeated, length_cycle, length_cycle] at hlength
    subst hlength
    refine ⟨?_, rfl⟩
    by_contra hfit
    obtain ⟨hlong, hsmall⟩ := not_or.mp hfit
    rw [Nat.not_le] at hlong hsmall
    rw [share, Nat.min_eq_left (Nat.le_of_lt hsmall)] at hcycle
    exact cycle_ne_repeated hsize hsmall hlong hcycle
  · rintro ⟨hfit, rfl⟩
    exact cycle_share_eq_repeated hfit

end Loop

/-- The reader of the usage note, with a buffer of `BUFSIZ` bytes and with one of 16. -/
example : head (fun _ => none) 8192 80 = data ++ data ++ data.take 4 := by decide +kernel

example : head (fun _ => none) 16 80 ≠ repeated 80 := by decide +kernel

end CharDriver.Demo03
