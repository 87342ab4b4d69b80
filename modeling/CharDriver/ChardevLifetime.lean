import CharDriver.ChardevInvariant
import CharDriver.ChardevModule

/-! A whole lifetime of the module: `chardevice_init`, calls on an initialised device, and
`chardevice_exit`. The exit releases the region of major number 0, which the module never holds, and
none of the blocks of the device. So a lifetime leaves everything as it was exactly when
`chardevice_init` fails. -/

namespace CharDriver.Chardev

open Base Registration

def exitReleases (dev : DevT) : List Resource :=
  [.cdev dev 1, .region dev 1, .region ⟨deviceNum, 0⟩ 256]

theorem chardeviceExit_eq (dev : DevT) (t : Tables) :
    chardeviceExit dev t = (exitReleases dev).foldl Multiset.erase t := rfl

/-- Each release names a resource that is still held. -/
def AllHeld (held : Tables) : List Resource → Prop
  | [] => True
  | r :: rs => r ∈ held ∧ AllHeld (held.erase r) rs

instance allHeldDecidable (held : Tables) : ∀ rs, Decidable (AllHeld held rs)
  | [] => inferInstanceAs (Decidable True)
  | r :: rs =>
      have := allHeldDecidable (held.erase r) rs
      inferInstanceAs (Decidable (_ ∧ _))

theorem AllHeld.mem {held : Tables} {rs : List Resource} (h : AllHeld held rs) :
    ∀ r ∈ rs, r ∈ held := by
  induction rs generalizing held with
  | nil => exact fun r hr => absurd hr List.not_mem_nil
  | cons r₀ rs ih =>
      intro r hr
      rcases List.mem_cons.mp hr with rfl | hr
      · exact h.1
      · exact Multiset.mem_of_mem_erase (ih h.2 r hr)

/-- The kernel's answers when the module is loaded, the device, and the calls made on it. -/
structure Lifetime where
  answers : InitAnswers
  env : Kmem
  quantum : Nat
  qset : Nat
  calls : List Call

/-- What a lifetime comes to: the result of the load, what the module holds after it, the calls of the
exit (none where the load failed), and the tables and blocks in the end. -/
structure Outcome where
  ret : Int
  dev : DevT
  held : Tables
  releases : List Resource
  tables : Tables
  heap : Heap Block
  deriving DecidableEq

def Lifetime.run (life : Lifetime) (t : Tables) : Except Oops Outcome := do
  let (ret, dev, loaded) := chardeviceInit life.answers t
  if ret ≠ 0 then return ⟨ret, dev, loaded - t, [], loaded, Heap.empty⟩
  else
    let (s, _) ← Chardev.run life.env (emptyDevice life.quantum life.qset) life.calls
    return ⟨ret, dev, loaded - t, exitReleases dev, chardeviceExit dev loaded, s.heap⟩

/-- A load that succeeds has registered region and `cdev`, every release names a resource the module
holds, and the tables and the blocks end as they began. -/
structure Outcome.Balanced (o : Outcome) (t : Tables) : Prop where
  registered : o.ret = 0 → .region o.dev 1 ∈ o.held ∧ .cdev o.dev 1 ∈ o.held
  releases : AllHeld o.held o.releases
  tables : o.tables = t
  blocks : ∀ a, o.heap.get a = none

def Lifetime.Restores (life : Lifetime) (t : Tables) : Prop :=
  ∃ o, life.run t = .ok o ∧ o.Balanced t

theorem lifetime_init_fails {life : Lifetime} (hregion : life.answers.region = none) (t : Tables) :
    life.run t = .ok ⟨-1, ⟨0, 0⟩, t - t, [], t, Heap.empty⟩ := by
  simp [Lifetime.run, chardeviceInit, hregion, allocChrdevRegion]

theorem lifetime_init_succeeds {life : Lifetime} {dev : DevT}
    (hregion : life.answers.region = some dev) {s : Kernel} {rs : List Reply}
    (hrun : run life.env (emptyDevice life.quantum life.qset) life.calls = .ok (s, rs)) (t : Tables) :
    let loaded := cdevAdd life.answers.cdev dev 1 (.region dev 1 ::ₘ t)
    life.run t =
      .ok ⟨0, dev, loaded - t, exitReleases dev, chardeviceExit dev loaded, s.heap⟩ := by
  simp [Lifetime.run, chardeviceInit, hregion, allocChrdevRegion, hrun]

/-- The module holds at most its region and its `cdev`, so not the region of major number 0. -/
theorem not_allHeld (cdev : Int) (dev : DevT) (t : Tables) :
    ¬AllHeld (cdevAdd cdev dev 1 (.region dev 1 ::ₘ t) - t) (exitReleases dev) := by
  intro hheld
  have hmem := hheld.mem (.region ⟨deviceNum, 0⟩ 256) (by simp [exitReleases])
  have hle : cdevAdd cdev dev 1 (.region dev 1 ::ₘ t) - t ≤ {.cdev dev 1, .region dev 1} := by
    have htwo : ({.cdev dev 1, .region dev 1} : Tables) + t = .cdev dev 1 ::ₘ .region dev 1 ::ₘ t := by
      simp
    rw [Multiset.sub_le_iff_le_add, htwo, cdevAdd]
    split
    · exact Multiset.le_cons_self _ _
    · exact le_refl _
  have hown := Multiset.mem_of_le hle hmem
  simp at hown

theorem Owned.heap_empty_iff {s : Kernel} (hs : Owned s) :
    (∀ a, s.heap.get a = none) ↔ s.dev.data = none := by
  constructor
  · intro hempty
    cases hdata : s.dev.data with
    | none => rfl
    | some a =>
        obtain ⟨b, hb, -⟩ := hs.fits (.node 0) a hdata
        exact absurd (hb.symm.trans (hempty a)) (by simp)
  · intro hdata a
    have hnone : ∀ i, s.at (.node i) = none := by
      intro i
      induction i with
      | zero => exact hdata
      | succ i ih => exact congrArg (Option.bind · (nextOf s.heap)) ih
    cases hget : s.heap.get a with
    | none => rfl
    | some b =>
        obtain ⟨path, hpath⟩ := hs.live a b hget
        cases path with
        | node i => exact absurd ((hnone i).symm.trans hpath) (by simp)
        | array i =>
            have hlost := congrArg (Option.bind · (dataOf s.heap)) (hnone i)
            exact absurd (hlost.symm.trans hpath) (by simp)
        | quantum i j =>
            have hlost := congrArg (fun p => (p.bind (dataOf s.heap)).bind (slotIn s.heap j)) (hnone i)
            exact absurd (hlost.symm.trans hpath) (by simp)

/-- The exit frees no block: none is left exactly when the calls ended on an empty list. -/
theorem lifetime_blocks_iff {life : Lifetime} {dev : DevT} (hregion : life.answers.region = some dev)
    (hg : Geometry life.quantum life.qset) (hfits : life.quantum * deviceQset ≤ intMax)
    (hin : InRange life.env (emptyDevice life.quantum life.qset) life.calls) (t : Tables) :
    ∃ o s rs, life.run t = .ok o ∧
      run life.env (emptyDevice life.quantum life.qset) life.calls = .ok (s, rs) ∧
      ((∀ a, o.heap.get a = none) ↔ s.dev.data = none) := by
  obtain ⟨s, rs, st, hrun, ⟨L, hs⟩, -⟩ := run_refined life.env hg hfits hin
  exact ⟨_, s, rs, lifetime_init_succeeds hregion hrun t, hrun, hs.holds.owned.heap_empty_iff⟩

/-- A lifetime leaves everything as it was exactly when the load fails, at its first registration. -/
theorem restores_iff (life : Lifetime) (t : Tables) :
    life.Restores t ↔ life.answers.region = none := by
  constructor
  · rintro ⟨o, hrun, hbalanced⟩
    cases hregion : life.answers.region with
    | none => rfl
    | some dev =>
        cases hcalls : run life.env (emptyDevice life.quantum life.qset) life.calls with
        | error e => simp [Lifetime.run, chardeviceInit, hregion, hcalls] at hrun
        | ok r =>
            obtain rfl := Except.ok.inj ((lifetime_init_succeeds hregion hcalls t).symm.trans hrun)
            exact absurd hbalanced.releases (not_allHeld _ dev t)
  · intro hregion
    refine ⟨_, lifetime_init_fails hregion t, ?_⟩
    exact ⟨fun hzero => absurd hzero (by simp), trivial, rfl, fun _ => rfl⟩

/-- Loaded as device 240, with quanta of 4 bytes in arrays of 2 slots; one byte is written. -/
def Lifetime.oneByte : Lifetime where
  answers := ⟨some ⟨240, 0⟩, 0⟩
  env := .filled 7
  quantum := 4
  qset := 2
  calls := [.deviceOpen 2 false, .deviceWrite 0 [1] false none, .deviceRelease]

theorem not_restores_oneByte :
    ∃ o, Lifetime.oneByte.run 0 = .ok o ∧ o.ret = 0 ∧ ¬AllHeld o.held o.releases ∧
      (o.heap.get 0).isSome ∧ (o.heap.get 1).isSome ∧ (o.heap.get 2).isSome ∧
      ¬Lifetime.oneByte.Restores 0 := by
  refine ⟨_, rfl, by decide, by decide, by decide, by decide, by decide, ?_⟩
  rintro ⟨o, hrun, hbalanced⟩
  cases hrun
  exact absurd (hbalanced.blocks 0) (by decide)

end CharDriver.Chardev
