import CharDriver.BaseInt
import CharDriver.BaseOverlay

/-! `device_write` of `demo03.c`, and the loop that resubmits what a short count left over. The call
copies at most 30 bytes into a buffer of 30 on the stack, ends them with a NUL, and returns `len`. So
it does what it should exactly when fewer than 30 bytes are offered and one of its two copies moves
them all. -/

namespace CharDriver.Demo03

open Base

/-- `Maxdlen` as `bufdata` is declared with it. -/
def capacity : Nat := 30

/-- What a call finds: the old contents of `bufdata` and of the stack after it, and where its two
copies fault. -/
structure Env where
  stack : Nat → UInt8
  fault : Option Nat
  refault : Option Nat

/-- The return value, `bufdata` when it is printed, the index of its terminator, and how many bytes of
the user's buffer were copied, from its start to the start of `bufdata`. A store past the end of
`bufdata` is kept at its index. -/
structure Reply where
  ret : Int
  bufdata : Nat → UInt8
  terminator : Nat
  taken : Nat

/-- The copy is made once more, in the arguments of a `printk`, when it fails. -/
def deviceWrite (env : Env) (buff : List UInt8) : Reply :=
  let maxdlen := if buff.length < capacity then buff.length else capacity
  let n := copied env.fault maxdlen
  let bufdata := overlay env.stack 0 (received env.fault (buff.take maxdlen))
  let (bufdata, taken) :=
    if maxdlen - n = 0 then (bufdata, n)
    else
      let m := copied env.refault maxdlen
      (overlay bufdata 0 (received env.refault (buff.take maxdlen)), max n m)
  ⟨toLong buff.length, Function.update bufdata maxdlen 0, maxdlen, taken⟩

/-- The calls of a writer, each with the bytes it offers: call `j` offers what the counts before it
left over, until nothing is left or a count is not positive. A positive count drops a byte, so `fuel`
is the length of the data. -/
def writeLoop (env : Nat → Env) : Nat → Nat → List UInt8 → List (List UInt8 × Reply)
  | _, _, [] => []
  | 0, _, _ :: _ => []
  | fuel + 1, j, b :: bs =>
      let r := deviceWrite (env j) (b :: bs)
      (b :: bs, r) ::
        if 0 < r.ret then writeLoop env fuel (j + 1) ((b :: bs).drop r.ret.toNat) else []

def writeAll (env : Nat → Env) (data : List UInt8) : List (List UInt8 × Reply) :=
  writeLoop env data.length 0 data

/-- A call that stays inside `bufdata`, prints only what it copied, and returns no more than it took. -/
structure Fine (buff : List UInt8) (r : Reply) : Prop where
  copies : ∀ i < r.taken, i < capacity
  terminator : r.terminator < capacity
  printed : ∃ str, cString ((List.range capacity).map r.bufdata) = some str ∧
    str <+: buff.take r.taken
  count : r.ret ≤ r.taken

/-- Every call of the loop is fine, and without faults the bytes they take are the data. -/
structure Consumes (env : Nat → Env) (data : List UInt8) : Prop where
  fine : ∀ c ∈ writeAll env data, Fine c.1 c.2
  whole : (∀ j, (env j).fault = none ∧ (env j).refault = none) →
    ((writeAll env data).map fun c => c.1.take c.2.taken).flatten = data

def Env.Copies (env : Env) (len : Nat) : Prop :=
  (∀ n ∈ env.fault, len ≤ n) ∨ ∀ n ∈ env.refault, len ≤ n

section Call

variable {env : Env} {buff : List UInt8}

theorem deviceWrite_ret : (deviceWrite env buff).ret = toLong buff.length := by rw [deviceWrite]

theorem toLong_of_fits (hfits : buff.length < capacity) : toLong buff.length = buff.length :=
  toLong_natCast (Nat.lt_trans hfits (by decide))

theorem deviceWrite_terminator : (deviceWrite env buff).terminator = min buff.length capacity := by
  simp only [deviceWrite]
  split <;> omega

/-- A string that fits and is copied, at the first try or at the second, is ended with a NUL. -/
theorem deviceWrite_of_copies (hfits : buff.length < capacity) (hcopies : env.Copies buff.length) :
    ∃ f, deviceWrite env buff =
      ⟨toLong buff.length, overlay f 0 (buff ++ [0]), buff.length, buff.length⟩ := by
  have hnul (f : Nat → UInt8) :
      Function.update (overlay f 0 buff) buff.length 0 = overlay f 0 (buff ++ [0]) := by
    rw [← overlay_concat, Nat.zero_add]
  have hle := copied_le env.fault buff.length
  simp only [deviceWrite, if_pos hfits, List.take_length]
  split
  · rename_i hall
    have hn : copied env.fault buff.length = buff.length := by omega
    refine ⟨env.stack, ?_⟩
    rw [received_of_copied hn, hn, hnul]
  · rename_i hshort
    have hm : copied env.refault buff.length = buff.length := by
      rw [copied_eq_iff]
      refine hcopies.resolve_left fun hfault => hshort ?_
      rw [(copied_eq_iff _ _).mpr hfault, Nat.sub_self]
    refine ⟨overlay env.stack 0 (received env.fault buff), ?_⟩
    rw [received_of_copied hm, hm, hnul, Nat.max_eq_right hle]

theorem copies_of_taken (hfits : buff.length < capacity)
    (htaken : buff.length ≤ (deviceWrite env buff).taken) : env.Copies buff.length := by
  have hn := copied_le env.fault buff.length
  have hm := copied_le env.refault buff.length
  simp only [Env.Copies, ← copied_eq_iff]
  simp only [deviceWrite, if_pos hfits] at htaken
  split at htaken <;> omega

theorem fine_iff :
    Fine buff (deviceWrite env buff) ↔ buff.length < capacity ∧ env.Copies buff.length := by
  constructor
  · intro hfine
    have hterminator := hfine.terminator
    have hcount := hfine.count
    rw [deviceWrite_terminator] at hterminator
    have hfits : buff.length < capacity := by omega
    rw [deviceWrite_ret, toLong_of_fits hfits, Int.ofNat_le] at hcount
    exact ⟨hfits, copies_of_taken hfits hcount⟩
  · rintro ⟨hfits, hcopies⟩
    obtain ⟨f, hcall⟩ := deviceWrite_of_copies hfits hcopies
    rw [hcall, toLong_of_fits hfits]
    refine ⟨fun i hi => Nat.lt_trans hi hfits, hfits, ?_, Int.le_refl _⟩
    have hlength : (buff ++ [0]).length ≤ capacity := by
      rw [List.length_append, List.length_singleton]
      omega
    rw [List.take_length]
    exact cString_within (prefix_map_range_overlay f hlength)

end Call

theorem head_mem_writeAll (env : Nat → Env) {data : List UInt8} (hne : data ≠ []) :
    (data, deviceWrite (env 0) data) ∈ writeAll env data := by
  cases data with
  | nil => exact absurd rfl hne
  | cons b bs => exact List.mem_cons_self

theorem writeAll_of_fits (env : Nat → Env) {data : List UInt8} (hne : data ≠ [])
    (hfits : data.length < capacity) : writeAll env data = [(data, deviceWrite (env 0) data)] := by
  cases data with
  | nil => exact absurd rfl hne
  | cons b bs =>
      have hret : (deviceWrite (env 0) (b :: bs)).ret = (b :: bs).length :=
        deviceWrite_ret.trans (toLong_of_fits hfits)
      simp only [writeAll, List.length_cons, writeLoop]
      rw [hret, Int.toNat_natCast, List.drop_length]
      simp only [writeLoop, ite_self]

theorem consumes_nil (env : Nat → Env) : Consumes env [] :=
  ⟨fun _ hc => absurd hc List.not_mem_nil, fun _ => rfl⟩

theorem Consumes.first {env : Nat → Env} {data : List UInt8} (h : Consumes env data)
    (hne : data ≠ []) : data.length < capacity ∧ (env 0).Copies data.length :=
  fine_iff.mp (h.fine _ (head_mem_writeAll env hne))

/-- The writer's data is consumed exactly when it is empty, or shorter than `bufdata` and copied by one
of the two copies of the only call. -/
theorem consumes_iff (env : Nat → Env) (data : List UInt8) :
    Consumes env data ↔ data = [] ∨ data.length < capacity ∧ (env 0).Copies data.length := by
  constructor
  · intro hconsumes
    by_cases hne : data = []
    · exact Or.inl hne
    · exact Or.inr (hconsumes.first hne)
  · rintro (rfl | ⟨hfits, hcopies⟩)
    · exact consumes_nil env
    by_cases hne : data = []
    · rw [hne]
      exact consumes_nil env
    obtain ⟨f, hcall⟩ := deviceWrite_of_copies hfits hcopies
    have hfine : Fine data (deviceWrite (env 0) data) := fine_iff.mpr ⟨hfits, hcopies⟩
    constructor
    · rw [writeAll_of_fits env hne hfits]
      intro c hc
      obtain rfl := List.mem_singleton.mp hc
      exact hfine
    · intro _
      rw [writeAll_of_fits env hne hfits, hcall]
      simp only [List.map_cons, List.map_nil, List.take_length, List.flatten_cons, List.flatten_nil,
        List.append_nil]

/-- The string of the usage note, with the newline of `echo`. -/
def usageNote : List UInt8 :=
  [85, 110, 105, 118, 101, 114, 115, 101, 32, 105, 115, 32, 115, 117, 102, 102, 101, 114, 105, 110, 103,
    32, 102, 114, 111, 109, 32, 112, 101, 110, 100, 97, 109, 105, 99, 46, 46, 32, 10]

theorem not_consumes_usageNote : ¬ Consumes (fun _ => ⟨fun _ => 0, none, none⟩) usageNote :=
  fun h => absurd (h.first (by decide)).1 (by decide)

end CharDriver.Demo03
