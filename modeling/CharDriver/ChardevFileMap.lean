import CharDriver.ChardevAllocations

/-! What the device is for: a file that remembers the bytes written to it. The file is a partial map
from offsets to bytes and a size, and it is updated from the calls and their replies alone. Every run
of the driver answers as the file does. Offsets that were never written may lie below the size; what
a read delivers there is not the file's concern. -/

namespace CharDriver.Chardev

open Base

structure FileMap where
  map : Nat → Option UInt8
  size : Nat

namespace FileMap

def empty : FileMap := ⟨fun _ => none, 0⟩

/-- A call and its reply: an open for writing only that succeeds empties the file, a write that
returns `k` stores the first `k` bytes offered. -/
def after (f : FileMap) (c : Call) (r : Reply) : FileMap :=
  match c with
  | .deviceOpen flags _ => if isWronly flags ∧ r.ret = 0 then empty else f
  | .deviceWrite ppos buff _ _ =>
      if 0 ≤ r.ret then
        ⟨overlay f.map ppos ((buff.take r.ret.toNat).map some), max f.size (ppos + r.ret.toNat)⟩
      else f
  | _ => f

/-- A read of `len` bytes at `ppos` that returns `k` delivers `k` bytes, among them every byte the
file has there; it returns nothing at the end of the file, and something where the file has a byte. -/
structure Delivers (f : FileMap) (ppos len : Nat) (signal : Bool) (r : Reply) : Prop where
  ret_le : r.ret ≤ len
  nonneg : signal = false → 0 ≤ r.ret
  length : r.bytes.length = r.ret.toNat
  byte : ∀ i b, i < r.ret.toNat → f.map (ppos + i) = some b → r.bytes[i]? = some b
  eof : f.size ≤ ppos → r.ret ≤ 0
  progress : signal = false → 0 < len → (f.map ppos).isSome → 0 < r.ret

/-- A write fails where a signal interrupts it, and for memory only where an allocation can fail; else
it takes some of what it is offered. -/
structure Takes (env : Kmem) (buff : List UInt8) (signal : Bool) (r : Reply) : Prop where
  ret_le : r.ret ≤ buff.length
  interrupted : signal = true → r.ret = -eRESTARTSYS
  noMemory : r.ret = -eNOMEM → ∃ n, env.fails n = true
  progress : signal = false → r.ret ≠ -eNOMEM → 0 ≤ r.ret ∧ (buff ≠ [] → 0 < r.ret)

def Answers (env : Kmem) (f : FileMap) (c : Call) (r : Reply) : Prop :=
  match c with
  | .deviceOpen flags signal =>
      r.ret = if isWronly flags = true ∧ signal = true then -eRESTARTSYS else 0
  | .deviceRead ppos len signal _ => f.Delivers ppos len signal r
  | .deviceWrite _ buff signal _ => Takes env buff signal r
  | .deviceRelease => r.ret = 0

/-- Every byte of the file lies below the size and in an allocated quantum. -/
structure Matches (st : Store) (f : FileMap) : Prop where
  size : st.size = f.size
  byte : ∀ a b, f.map a = some b →
    a < st.size ∧ st.block (a / st.quantum) = true ∧ st.byte a = b

theorem matches_empty (st : Store) (hsize : st.size = 0) : Matches st empty :=
  ⟨hsize, by simp [empty]⟩

section

variable {st : Store} {f : FileMap} (h : Matches st f)
include h

theorem Matches.read {p : Nat} (hq : 0 < st.quantum) (len : Nat) (signal : Bool) :
    f.Delivers p len signal (st.read len none p) := by
  by_cases hempty : st.size ≤ p ∨ st.block (p / st.quantum) = false
  · rw [Store.read, if_pos hempty]
    refine ⟨Int.natCast_nonneg _, fun _ => Int.le_refl 0, rfl, by simp, fun _ => Int.le_refl 0,
      fun _ _ hsome => ?_⟩
    obtain ⟨b, hb⟩ := Option.isSome_iff_exists.mp hsome
    obtain ⟨hlt, hblock, -⟩ := h.byte p b hb
    rcases hempty with hle | hnone
    · exact absurd hlt (Nat.not_lt_of_le hle)
    · rw [hblock] at hnone
      exact absurd hnone Bool.noConfusion
  · rw [not_or, Nat.not_le, Bool.not_eq_false] at hempty
    obtain ⟨hp, hblock⟩ := hempty
    rw [Store.read_none hp hblock]
    refine ⟨Int.ofNat_le.mpr (piece_le p len), fun _ => Int.natCast_nonneg _, by simp,
      fun i b hi hb => ?_, fun hle => ?_, ?_⟩
    · rw [Int.toNat_natCast] at hi
      rw [List.getElem?_map, List.getElem?_range hi, Option.map_some, (h.byte _ b hb).2.2]
    · rw [← h.size] at hle
      exact absurd hp (Nat.not_lt_of_le hle)
    · intro _ hlen _
      exact Int.natCast_pos.mpr (piece_pos hq p hlen)

theorem Matches.write (env : Kmem) (hq : 0 < st.quantum) (buff : List UInt8) (p : Nat)
    (signal : Bool) (fault : Option Nat) :
    Takes env buff false (st.write env buff none p).1 ∧
      Matches (st.write env buff none p).2
        (f.after (.deviceWrite p buff signal fault) (st.write env buff none p).1) := by
  have hprep := Store.prepare_spec env p st
  have hfails : (st.prepare env p).1 = false → ∃ n, env.fails n = true := fun hfalse => by
    by_contra hnever
    have hok : (st.prepare env p).1 = true := Store.prepare_of_never_fails (by simpa using hnever) p st
    rw [hfalse] at hok
    exact Bool.noConfusion hok
  unfold Store.write
  generalize st.prepare env p = r at hprep hfails
  obtain ⟨ok, st'⟩ := r
  have hkeep : Matches st' f := by
    refine ⟨hprep.size.trans h.size, fun a b hb => ?_⟩
    obtain ⟨hlt, hblock, hbyte⟩ := h.byte a b hb
    refine ⟨hprep.size.symm ▸ hlt, ?_, (hprep.byte a hblock).trans hbyte⟩
    rw [hprep.quantum]
    exact hprep.block_of hblock
  cases ok with
  | false =>
      refine ⟨⟨?_, by simp, fun _ => hfails rfl, fun _ hne => absurd rfl hne⟩,
        by simpa [after, eNOMEM] using hkeep⟩
      simp [eNOMEM]
  | true =>
      have hn := @piece_le st'.quantum p buff.length
      have hpos : buff ≠ [] → 0 < Store.piece st'.quantum p buff.length := fun hne =>
        piece_pos (hprep.quantum.symm ▸ hq) p (List.length_pos_iff.mpr hne)
      have hin := fun a => @div_of_lt_piece st'.quantum (hprep.quantum.symm ▸ hq) p buff.length a
      simp only [Store.transfer_none, after, Int.toNat_natCast, if_pos (Int.natCast_nonneg _)]
      generalize Store.piece st'.quantum p buff.length = n at hn hin hpos
      refine ⟨⟨Int.ofNat_le.mpr hn, by simp, fun hret => ?_, fun _ _ => ⟨Int.natCast_nonneg n,
        fun hne => Int.natCast_pos.mpr (hpos hne)⟩⟩,
        congrArg (max · (p + n)) hkeep.size, fun a b hb => ?_⟩
      · simp only [eNOMEM] at hret
        omega
      have hlen : (buff.take n).length = n := by simpa using hn
      rcases overlay_map_some f.map st'.byte hb with ⟨hpa, hlt, hbyte⟩ | ⟨hold, hbyte⟩
      · rw [hlen] at hlt
        refine ⟨by simp only; omega, ?_, hbyte⟩
        simp only [Store.fill, hin a hpa hlt]
        rw [hprep.quantum]
        exact hprep.block_self
      · obtain ⟨hlt, hblock, hb'⟩ := hkeep.byte a b hold
        exact ⟨by simp only; omega, hblock, hbyte.trans hb'⟩

theorem Matches.step (env : Kmem) (hq : 0 < st.quantum) {c : Call} (hc : c.fault = none) :
    f.Answers env c (st.step env c).1 ∧ Matches (st.step env c).2 (f.after c (st.step env c).1) := by
  cases c with
  | deviceOpen flags signal =>
      by_cases hw : isWronly flags = true <;> cases signal
      · exact ⟨by simp [Answers, Store.step, hw],
          by simpa [Store.step, after, hw] using matches_empty st.trim rfl⟩
      · exact ⟨by simp [Answers, Store.step, hw],
          by simpa [Store.step, after, hw, eRESTARTSYS] using h⟩
      · exact ⟨by simp [Answers, Store.step, hw], by simpa [Store.step, after, hw] using h⟩
      · exact ⟨by simp [Answers, Store.step, hw], by simpa [Store.step, after, hw] using h⟩
  | deviceRead ppos len signal fault =>
      obtain rfl : fault = none := hc
      cases signal with
      | true =>
          refine ⟨⟨?_, ?_, rfl, ?_, ?_, ?_⟩, h⟩ <;> simp [Store.step, eRESTARTSYS]
      | false => exact ⟨h.read hq len false, h⟩
  | deviceWrite ppos buff signal fault =>
      obtain rfl : fault = none := hc
      cases signal with
      | true =>
          refine ⟨⟨?_, fun _ => rfl, ?_, ?_⟩, h⟩ <;> simp [Store.step, eRESTARTSYS, eNOMEM]
      | false => exact h.write env hq buff ppos false none
  | deviceRelease => exact ⟨rfl, h⟩

end

end FileMap

/-- A write that no signal interrupts fails for memory exactly when one of the allocations it needs
fails. -/
def TellsMemory (env : Kmem) (s : Kernel) : Call → Prop
  | .deviceWrite ppos buff signal fault => signal = false →
      ∀ s' r, step env s (.deviceWrite ppos buff signal fault) = .ok (s', r) →
        (r.ret = -eNOMEM ↔ env.Fails s.heap.calls (s.missing ppos))
  | _ => True

theorem Refined.tellsMemory {s : Kernel} {st : Store} (hs : Refined s st) (env : Kmem)
    (hfits : st.quantum * deviceQset ≤ intMax) {c : Call} (hc : c.InRange s.dev) :
    TellsMemory env s c := by
  cases c with
  | deviceWrite ppos buff signal fault =>
      rintro rfl s' r hstep
      obtain ⟨s₁, hok, -⟩ := step_refines env hs hfits hc
      cases hstep.symm.trans hok
      rw [hs.held.fails_iff env (hs.held.item_le hc)]
      exact Store.write_noMemory_iff env buff fault ppos st
  | _ => trivial

/-- The calls run through, the replies are those of a file that starts empty, no write fails without
need, and in the end `size` is the file's, with every byte of the file below it. -/
def BehavesAsFile (env : Kmem) (quantum qset : Nat) (calls : List Call) : Prop :=
  ∃ s rs, run env (emptyDevice quantum qset) calls = .ok (s, rs) ∧
    Conforms FileMap.after (FileMap.Answers env) FileMap.empty calls rs ∧
    Admissible (step env) (TellsMemory env) (emptyDevice quantum qset) calls ∧
    s.dev.size = (observe FileMap.after FileMap.empty calls rs).size ∧
    ∀ a, ((observe FileMap.after FileMap.empty calls rs).map a).isSome →
      a < (observe FileMap.after FileMap.empty calls rs).size

/-- Every run over offsets in range and without copy faults behaves as a file, whatever the geometry,
the order of the calls and the failures of `kmalloc`. -/
theorem run_behavesAsFile (env : Kmem) {quantum qset : Nat} (hg : Geometry quantum qset)
    (hfits : quantum * deviceQset ≤ intMax) {calls : List Call}
    (hfault : ∀ c ∈ calls, c.fault = none) (hin : InRange env (emptyDevice quantum qset) calls) :
    BehavesAsFile env quantum qset calls := by
  obtain ⟨s, rs, hrun, hconf, st, hs, -, hm⟩ := runSteps_conforms FileMap.after (FileMap.Answers env)
    (fun s f => ∃ st, Refined s st ∧ st.quantum = quantum ∧ f.Matches st)
    (fun s f c ⟨st, hs, hq, hm⟩ hpre => by
      obtain ⟨s', hstep, hs'⟩ := step_refines env hs (hq ▸ hfits) hpre.1
      obtain ⟨hgood, hm'⟩ := hm.step env hs.geometry.quantum_pos hpre.2
      exact ⟨s', _, hstep, hgood, _, hs', (Store.step_quantum env st c).trans hq, hm'⟩)
    calls _ _ ⟨_, refined_empty hg, rfl, FileMap.matches_empty _ rfl⟩
    (hin.and (admissible_of_forall _ hfault))
  have hkeeps : ∀ s c s' r, (∃ st, Refined s st ∧ st.quantum = quantum) → c.InRange s.dev →
      step env s c = .ok (s', r) → ∃ st, Refined s' st ∧ st.quantum = quantum := by
    rintro s c s' r ⟨st, hs, hq⟩ hc hstep
    obtain ⟨s₁, hok, hs₁⟩ := step_refines env hs (hq ▸ hfits) hc
    cases hstep.symm.trans hok
    exact ⟨_, hs₁, (Store.step_quantum env st c).trans hq⟩
  have htells : Admissible (step env) (TellsMemory env) (emptyDevice quantum qset) calls :=
    hin.of_invariant hkeeps (fun s c ⟨_, hs, hq⟩ hc => hs.tellsMemory env (hq ▸ hfits) hc)
      ⟨_, refined_empty hg, rfl⟩
  obtain ⟨⟨L, hL⟩, -⟩ := hs
  refine ⟨s, rs, hrun, hconf, htells, hL.size.trans hm.size, fun a ha => ?_⟩
  obtain ⟨b, hb⟩ := Option.isSome_iff_exists.mp ha
  exact hm.size ▸ (hm.byte a b hb).1

/-- A write across the end of a quantum, a read of what it stored, and a truncating open. -/
theorem behavesAsFile_shortWrite : BehavesAsFile (.filled 7) 4 2
    [.deviceWrite 5 [1, 2, 3, 4] false none, .deviceRead 6 9 false none, .deviceOpen 1 false] :=
  run_behavesAsFile (.filled 7) ⟨by decide, by decide, by decide⟩ (by decide) (by decide)
    (by decide)

end CharDriver.Chardev
