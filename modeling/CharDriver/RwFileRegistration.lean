import CharDriver.BaseMachine
import CharDriver.Registration

/-! Load and unload of `rw_file-ops.c`. `device_init` returns on a failure without undoing what it has
registered, and it compares with `NULL` what `class_create` and `device_create` return, which is an
error pointer when they fail. A history of loads and unloads leaves the tables balanced exactly when no
load fails after its first step. -/

namespace CharDriver.RwFile

open Base Registration

structure InitAnswers where
  region : Option DevT
  cdev : Int
  deviceClass : Option Nat
  device : Option Nat
  deriving DecidableEq, Repr

structure Statics where
  dev : DevT
  pclass : ErrPtr
  deriving DecidableEq, Repr

def deviceInit (k : InitAnswers) (t : Tables) : Int × Statics × Tables :=
  match k.region with
  | none => (-1, ⟨⟨0, 0⟩, .null⟩, allocChrdevRegion none 1 t)
  | some dev =>
      let t₁ := allocChrdevRegion (some dev) 1 t
      let t₂ := cdevAdd k.cdev dev 1 t₁
      if k.cdev < 0 then (-1, ⟨dev, .null⟩, t₂)
      else
        let (pclass, t₃) := classCreate k.deviceClass t₂
        if pclass = .null then (-1, ⟨dev, pclass⟩, t₃)
        else
          let (device, t₄) := deviceCreate k.device pclass dev t₃
          if device = .null then (-1, ⟨dev, pclass⟩, t₄) else (0, ⟨dev, pclass⟩, t₄)

def deviceExit (statics : Statics) (t : Tables) : Except ErrPtr Tables := do
  let t ← deviceDestroy statics.pclass statics.dev t
  return unregisterChrdevRegion statics.dev 1 (cdevDel statics.dev 1 (classDestroy statics.pclass t))

inductive Event where
  | load (answers : InitAnswers)
  | unload
  deriving DecidableEq, Repr

/-- The tables, and the statics of the module while it is loaded. -/
structure Machine where
  tables : Tables
  loaded : Option Statics

/-- A module whose init returns non-zero is not loaded. -/
def machineStep (m : Machine) : Event → Except ErrPtr (Machine × Int)
  | .load k =>
      let (ret, statics, t) := deviceInit k m.tables
      .ok (⟨t, if ret = 0 then some statics else none⟩, ret)
  | .unload =>
      match m.loaded with
      | none => .ok (m, 0)
      | some statics => do
          let t ← deviceExit statics m.tables
          return (⟨t, none⟩, 0)

/-- A module is loaded when it is not, and unloaded when it is. -/
def MayFollow (m : Machine) : Event → Prop
  | .load _ => m.loaded = none
  | .unload => m.loaded ≠ none

instance mayFollowDecidable (m : Machine) : ∀ e, Decidable (MayFollow m e)
  | .load _ => inferInstanceAs (Decidable (_ = _))
  | .unload => inferInstanceAs (Decidable (_ ≠ _))

structure InitAnswers.AllSucceed (k : InitAnswers) : Prop where
  region : k.region ≠ none
  cdev : 0 ≤ k.cdev
  deviceClass : k.deviceClass ≠ none
  device : k.device ≠ none

instance allSucceedDecidable (k : InitAnswers) : Decidable k.AllSucceed :=
  decidable_of_iff (k.region ≠ none ∧ 0 ≤ k.cdev ∧ k.deviceClass ≠ none ∧ k.device ≠ none)
    ⟨fun h => ⟨h.1, h.2.1, h.2.2.1, h.2.2.2⟩, fun h => ⟨h.1, h.2, h.3, h.4⟩⟩

/-- What a load attempt reports and leaves behind. -/
def Truthful (m : Machine) : Event → Prop
  | .load k =>
      ∃ m' ret, machineStep m (.load k) = .ok (m', ret) ∧ (ret = 0 ↔ k.AllSucceed) ∧
        (ret ≠ 0 → m'.tables = m.tables)
  | .unload => True

def entries (dev : DevT) (deviceClass : Nat) : Tables :=
  .device deviceClass dev ::ₘ .deviceClass deviceClass ::ₘ .cdev dev 1 ::ₘ .region dev 1 ::ₘ 0

/-- Beside what was there before, the tables hold the module's entries while it is loaded. -/
def Holds (base : Tables) (m : Machine) : Prop :=
  match m.loaded with
  | none => m.tables = base
  | some statics =>
      ∃ deviceClass, statics.pclass = .valid deviceClass ∧
        m.tables = entries statics.dev deviceClass + base

/-- Every load attempt of the history is truthful, and the tables are right at every point. -/
def Balanced (base : Tables) (events : List Event) : Prop :=
  Admissible machineStep Truthful ⟨base, none⟩ events ∧
    Throughout machineStep (Holds base) ⟨base, none⟩ events

/-- The first registration fails, or none does. -/
def Event.Clean : Event → Prop
  | .load k => k.region = none ∨ k.AllSucceed
  | .unload => True

instance cleanDecidable : ∀ e : Event, Decidable e.Clean
  | .load k => inferInstanceAs (Decidable (k.region = none ∨ k.AllSucceed))
  | .unload => inferInstanceAs (Decidable True)

theorem deviceInit_none {k : InitAnswers} (hregion : k.region = none) (t : Tables) :
    deviceInit k t = (-1, ⟨⟨0, 0⟩, .null⟩, t) := by
  simp only [deviceInit, hregion, allocChrdevRegion]

theorem deviceInit_succeeds {k : InitAnswers} (h : k.AllSucceed) (t : Tables) :
    ∃ dev deviceClass, deviceInit k t =
      (0, ⟨dev, .valid deviceClass⟩, entries dev deviceClass + t) := by
  obtain ⟨dev, hdev⟩ := Option.ne_none_iff_exists'.mp h.region
  obtain ⟨deviceClass, hclass⟩ := Option.ne_none_iff_exists'.mp h.deviceClass
  obtain ⟨device, hdevice⟩ := Option.ne_none_iff_exists'.mp h.device
  have hcdev : ¬k.cdev < 0 := Int.not_lt.mpr h.cdev
  refine ⟨dev, deviceClass, ?_⟩
  simp [deviceInit, hdev, hclass, hdevice, hcdev, allocChrdevRegion, cdevAdd, classCreate,
    deviceCreate, entries]

theorem classCreate_ne_null (answer : Option Nat) (t : Tables) : (classCreate answer t).1 ≠ .null := by
  cases answer <;> simp [classCreate]

theorem deviceCreate_ne_null (answer : Option Nat) (p : ErrPtr) (dev : DevT) (t : Tables) :
    (deviceCreate answer p dev t).1 ≠ .null := by
  cases answer <;> cases p <;> simp [deviceCreate]

/-- With a device number, only a failure of `cdev_add` is reported, and leaves the region behind. -/
theorem deviceInit_some {k : InitAnswers} {dev : DevT} (hregion : k.region = some dev) (t : Tables) :
    (deviceInit k t).1 = 0 ∨ (deviceInit k t).1 ≠ 0 ∧ (deviceInit k t).2.2 = .region dev 1 ::ₘ t := by
  by_cases hcdev : k.cdev < 0
  · right
    simp [deviceInit, hregion, hcdev, allocChrdevRegion, cdevAdd]
  · left
    simp only [deviceInit, hregion, if_neg hcdev, if_neg (classCreate_ne_null _ _),
      if_neg (deviceCreate_ne_null _ _ _ _)]

/-- The release calls undo the four registrations, in the other order. -/
theorem deviceExit_entries (dev : DevT) (deviceClass : Nat) (t : Tables) :
    deviceExit ⟨dev, .valid deviceClass⟩ (entries dev deviceClass + t) = .ok t := by
  simp [deviceExit, deviceDestroy, classDestroy, cdevDel, unregisterChrdevRegion, entries]

theorem machineStep_load {k : InitAnswers} {m : Machine} {ret : Int} {statics : Statics} {t : Tables}
    (hinit : deviceInit k m.tables = (ret, statics, t)) :
    machineStep m (.load k) = .ok (⟨t, if ret = 0 then some statics else none⟩, ret) := by
  simp only [machineStep, hinit]

theorem clean_of_truthful (m : Machine) (e : Event) (h : Truthful m e) : e.Clean := by
  cases e with
  | unload => trivial
  | load k =>
      obtain ⟨m', ret, hstep, hret, hsame⟩ := h
      cases hstep
      cases hregion : k.region with
      | none => exact Or.inl hregion
      | some dev =>
          rcases deviceInit_some hregion m.tables with hzero | ⟨hfailed, hleft⟩
          · exact Or.inr (hret.mp hzero)
          · have hcons := congrArg Multiset.card (hleft.symm.trans (hsame hfailed))
            rw [Multiset.card_cons] at hcons
            omega

theorem truthful_of_clean (m : Machine) {e : Event} (h : e.Clean) : Truthful m e := by
  cases e with
  | unload => trivial
  | load k =>
      rcases h with hregion | hall
      · refine ⟨_, _, machineStep_load (deviceInit_none hregion m.tables), ?_, fun _ => rfl⟩
        exact ⟨fun hzero => absurd hzero (by decide), fun hall => absurd hregion hall.region⟩
      · obtain ⟨dev, deviceClass, hinit⟩ := deviceInit_succeeds hall m.tables
        exact ⟨_, _, machineStep_load hinit, ⟨fun _ => hall, fun _ => rfl⟩, fun hne => absurd rfl hne⟩

/-- A clean attempt, or an unload, keeps the tables right. -/
theorem holds_step {base : Tables} (m : Machine) (e : Event) (hm : Holds base m)
    (he : MayFollow m e ∧ e.Clean) :
    ∃ m' ret, machineStep m e = .ok (m', ret) ∧ Holds base m' := by
  obtain ⟨tables, loaded⟩ := m
  cases e with
  | load k =>
      obtain rfl : loaded = none := he.1
      obtain rfl : tables = base := hm
      rcases he.2 with hregion | hall
      · exact ⟨_, _, machineStep_load (deviceInit_none hregion tables), rfl⟩
      · obtain ⟨dev, deviceClass, hinit⟩ := deviceInit_succeeds hall tables
        exact ⟨_, _, machineStep_load hinit, deviceClass, rfl, rfl⟩
  | unload =>
      cases loaded with
      | none => exact absurd rfl he.1
      | some statics =>
          obtain ⟨dev, pclass⟩ := statics
          obtain ⟨deviceClass, rfl, htables⟩ := hm
          obtain rfl : tables = entries dev deviceClass + base := htables
          refine ⟨⟨base, none⟩, 0, ?_, rfl⟩
          simp only [machineStep, deviceExit_entries, ok_bind, pure_eq_ok]

/-- A history is balanced exactly when each of its attempts fails at the first registration or not at
all. -/
theorem balanced_iff (base : Tables) {events : List Event}
    (h : Admissible machineStep MayFollow ⟨base, none⟩ events) :
    Balanced base events ↔ ∀ e ∈ events, e.Clean := by
  constructor
  · exact fun hbalanced => hbalanced.2.forall_of_admissible clean_of_truthful hbalanced.1
  · intro hclean
    have hadm := h.and (admissible_of_forall _ hclean)
    have hholds : Throughout machineStep (Holds base) ⟨base, none⟩ events :=
      throughout_of_invariant (fun _ hm => hm) holds_step rfl hadm
    exact ⟨Throughout.admissible (fun m _ _ _ he _ _ _ => truthful_of_clean m he.2) hadm hholds, hholds⟩

/-- A load without a device number, then one that goes through, and its unload. -/
theorem balanced_reload : Balanced 0 [.load ⟨none, 0, none, none⟩,
    .load ⟨some ⟨240, 0⟩, 0, some 1, some 2⟩, .unload] :=
  (balanced_iff 0 (by decide)).mpr (by decide)

/-- `cdev_add` fails, and the region stays; `class_create` fails, and the load goes through. -/
theorem not_balanced_laterFailure :
    (Admissible machineStep MayFollow ⟨0, none⟩ [.load ⟨some ⟨240, 0⟩, -16, some 1, some 2⟩] ∧
        ¬Balanced 0 [.load ⟨some ⟨240, 0⟩, -16, some 1, some 2⟩]) ∧
      Admissible machineStep MayFollow ⟨0, none⟩
          [.load ⟨some ⟨240, 0⟩, 0, none, some 2⟩, .unload] ∧
        ¬Balanced 0 [.load ⟨some ⟨240, 0⟩, 0, none, some 2⟩, .unload] := by
  refine ⟨⟨by decide, fun h => ?_⟩, by decide, fun h => ?_⟩
  · exact absurd (clean_of_truthful _ _ h.1.1) (by decide)
  · exact absurd (clean_of_truthful _ _ h.1.1) (by decide)

end CharDriver.RwFile
