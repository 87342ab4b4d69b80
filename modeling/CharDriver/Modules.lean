import CharDriver.ChardevModule
import CharDriver.RwFileRegistration
import Mathlib.Algebra.BigOperators.Group.Finset.Piecewise
import Mathlib.Algebra.Order.Group.Multiset
import Mathlib.Data.Fintype.Defs

/-! The drivers of the repository in one kernel: any of them may be loaded and unloaded at any time, and
any of their registrations may fail. They share the tables, and four of their exits name a region of
major number 0 that they never had. Still no driver touches what another one registered: the tables hold
at all times what was there before and what the loads of the loaded drivers added, exactly as long as no
load of `rw_file-ops.c` fails at its `cdev_add` and none is unloaded after its `class_create` failed. -/

namespace CharDriver

open Base Registration

namespace FileOperation

/-- `register_chrdev(0, name, fops)`; the answer is the major number, or a negative result. The `cdev`
made for the region comes and goes with it, and is no entry of its own. -/
def registerChrdev (answer : Int) (t : Tables) : Tables :=
  if answer < 0 then t else .region ⟨answer.toNat, 0⟩ 256 ::ₘ t

def deviceInit (answer : Int) (t : Tables) : Int × Int × Tables :=
  let majornum := answer
  let t := registerChrdev answer t
  if majornum < 0 then (majornum, majornum, t) else (0, majornum, t)

def deviceExit (majornum : Int) (t : Tables) : Tables := unregisterChrdev majornum.toNat t

end FileOperation

namespace Demo01

structure Statics where
  deviceNum : Int
  dev : DevT
  deriving DecidableEq, Repr

/-- `device_num` is the result of `alloc_chrdev_region`: a negative one ends the load, so it is 0
afterwards. A failure of `cdev_add` is only reported. -/
def chardeviceInit (k : Chardev.InitAnswers) (t : Tables) : Int × Statics × Tables :=
  match k.region with
  | none => (-1, ⟨-1, ⟨0, 0⟩⟩, allocChrdevRegion none 1 t)
  | some dev => (0, ⟨0, dev⟩, cdevAdd k.cdev dev 1 (allocChrdevRegion (some dev) 1 t))

def chardeviceExit (statics : Statics) (t : Tables) : Tables :=
  unregisterChrdev statics.deviceNum.toNat
    (unregisterChrdevRegion statics.dev 1 (cdevDel statics.dev 1 t))

end Demo01

namespace Demo02

def chardeviceInit : Chardev.InitAnswers → Tables → Int × Demo01.Statics × Tables :=
  Demo01.chardeviceInit

def chardeviceExit : Demo01.Statics → Tables → Tables := Demo01.chardeviceExit

end Demo02

namespace Demo03

/-- As in `chardev01.c`, nothing assigns `device_num`. -/
def chardeviceInit : Chardev.InitAnswers → Tables → Int × DevT × Tables := Chardev.chardeviceInit

def chardeviceExit : DevT → Tables → Tables := Chardev.chardeviceExit

end Demo03

/-! ### The system -/

namespace Modules

inductive Driver where
  | fileOperation
  | demo01
  | demo02
  | demo03
  | chardev01
  | rwFile
  deriving DecidableEq, Repr

instance driverFintype : Fintype Driver where
  elems := {.fileOperation, .demo01, .demo02, .demo03, .chardev01, .rwFile}
  complete d := by cases d <;> decide

/-- The kernel's answers to the registrations of a load: `register_chrdev`, and the four calls that the
other drivers make, or the first two of them. -/
structure Answers where
  major : Int
  region : Option DevT
  cdev : Int
  deviceClass : Option Nat
  device : Option Nat
  deriving DecidableEq, Repr

/-- A loaded driver, with its static objects. -/
inductive Loaded where
  | fileOperation (majornum : Int)
  | demo (statics : Demo01.Statics)
  | chardevice (dev : DevT)
  | rwFile (statics : RwFile.Statics)
  deriving DecidableEq, Repr

def Driver.init (k : Answers) (t : Tables) : Driver → Int × Loaded × Tables
  | .fileOperation =>
      let (ret, majornum, t) := FileOperation.deviceInit k.major t
      (ret, .fileOperation majornum, t)
  | .demo01 =>
      let (ret, statics, t) := Demo01.chardeviceInit ⟨k.region, k.cdev⟩ t
      (ret, .demo statics, t)
  | .demo02 =>
      let (ret, statics, t) := Demo02.chardeviceInit ⟨k.region, k.cdev⟩ t
      (ret, .demo statics, t)
  | .demo03 =>
      let (ret, dev, t) := Demo03.chardeviceInit ⟨k.region, k.cdev⟩ t
      (ret, .chardevice dev, t)
  | .chardev01 =>
      let (ret, dev, t) := Chardev.chardeviceInit ⟨k.region, k.cdev⟩ t
      (ret, .chardevice dev, t)
  | .rwFile =>
      let (ret, statics, t) := RwFile.deviceInit ⟨k.region, k.cdev, k.deviceClass, k.device⟩ t
      (ret, .rwFile statics, t)

def Loaded.exit (t : Tables) : Loaded → Except ErrPtr Tables
  | .fileOperation majornum => .ok (FileOperation.deviceExit majornum t)
  | .demo statics => .ok (Demo01.chardeviceExit statics t)
  | .chardevice dev => .ok (Chardev.chardeviceExit dev t)
  | .rwFile statics => RwFile.deviceExit statics t

inductive Event where
  | load (d : Driver) (answers : Answers)
  | unload (d : Driver)
  deriving DecidableEq, Repr

/-- The tables, the drivers that are loaded, and what the load of each of them added to the tables. -/
structure System where
  tables : Tables
  loaded : Driver → Option Loaded
  added : Driver → Tables

def System.initial (base : Tables) : System := ⟨base, fun _ => none, fun _ => 0⟩

/-- A driver whose init returns non-zero is not loaded. -/
def step (s : System) : Event → Except ErrPtr (System × Int)
  | .load d k =>
      let (ret, l, t) := d.init k s.tables
      if ret = 0 then
        .ok (⟨t, Function.update s.loaded d (some l), Function.update s.added d (t - s.tables)⟩, ret)
      else .ok ({ s with tables := t }, ret)
  | .unload d =>
      match s.loaded d with
      | none => .ok (s, 0)
      | some l => do
          let t ← l.exit s.tables
          return (⟨t, Function.update s.loaded d none, Function.update s.added d 0⟩, 0)

/-- A number that nothing in the tables has. Number 0 is not handed out. -/
def Free (major : Nat) (t : Tables) : Prop := major ≠ 0 ∧ ∀ r ∈ t, r.major ≠ some major

/-- The kernel grants free numbers only. -/
def Answers.Grants (k : Answers) (t : Tables) : Driver → Prop
  | .fileOperation => 0 ≤ k.major → Free k.major.toNat t
  | _ => match k.region with
      | none => True
      | some dev => Free dev.major t

instance freeDecidable (major : Nat) (t : Tables) : Decidable (Free major t) :=
  inferInstanceAs (Decidable (_ ∧ _))

instance grantsDecidable (k : Answers) (t : Tables) : ∀ d, Decidable (k.Grants t d)
  | .fileOperation => inferInstanceAs (Decidable (_ → _))
  | .demo01 | .demo02 | .demo03 | .chardev01 | .rwFile =>
      match h : k.region with
      | none => isTrue (by simp only [Answers.Grants, h])
      | some dev => decidable_of_iff (Free dev.major t) (by simp only [Answers.Grants, h])

/-- A driver is loaded when it is not, and unloaded when it is. -/
def MayFollow (s : System) : Event → Prop
  | .load d k => s.loaded d = none ∧ k.Grants s.tables d
  | .unload d => s.loaded d ≠ none

instance mayFollowDecidable (s : System) : ∀ e, Decidable (MayFollow s e)
  | .load _ _ => inferInstanceAs (Decidable (_ ∧ _))
  | .unload _ => inferInstanceAs (Decidable (_ ≠ _))

/-- What the drivers loaded added, beside what was there before, and nothing else. -/
def Balanced (base : Tables) (s : System) : Prop := s.tables = base + ∑ d, s.added d

/-- No load of `rw_file-ops.c` fails at its `cdev_add`, and no unload of it meets the error pointer of
its `class_create`. -/
def Sound (s : System) : Event → Prop
  | .load .rwFile k => k.region = none ∨ 0 ≤ k.cdev
  | .load _ _ => True
  | .unload d => match s.loaded d with
      | some (.rwFile statics) => statics.pclass ≠ .err
      | _ => True

instance soundDecidable (s : System) : ∀ e, Decidable (Sound s e)
  | .load .rwFile _ => inferInstanceAs (Decidable (_ ∨ _))
  | .load .fileOperation _ | .load .demo01 _ | .load .demo02 _ | .load .demo03 _
  | .load .chardev01 _ => inferInstanceAs (Decidable True)
  | .unload d =>
      match h : s.loaded d with
      | some (.rwFile statics) =>
          decidable_of_iff (statics.pclass ≠ .err) (by simp only [Sound, h])
      | some (.fileOperation _) | some (.demo _) | some (.chardevice _) | none =>
          isTrue (by simp only [Sound, h])

def Loaded.major : Loaded → Nat
  | .fileOperation majornum => majornum.toNat
  | .demo statics => statics.dev.major
  | .chardevice dev => dev.major
  | .rwFile statics => statics.dev.major

/-- A device number, with its `cdev` unless `cdev_add` failed. -/
def Numbered (dev : DevT) (t : Tables) : Prop := t = {.region dev 1} ∨ t = {.cdev dev 1, .region dev 1}

def Loaded.Holds (t : Tables) : Loaded → Prop
  | .fileOperation majornum => t = {.region ⟨majornum.toNat, 0⟩ 256}
  | .demo statics => statics.deviceNum = 0 ∧ Numbered statics.dev t
  | .chardevice dev => Numbered dev t
  | .rwFile statics => match statics.pclass with
      | .null => False
      | .err => t = {.cdev statics.dev 1, .region statics.dev 1}
      | .valid id => t = {.deviceClass id, .cdev statics.dev 1, .region statics.dev 1} ∨
          t = {.device id statics.dev, .deviceClass id, .cdev statics.dev 1, .region statics.dev 1}

theorem Loaded.Holds.major {l : Loaded} {t : Tables} (h : l.Holds t) :
    ∀ r ∈ t, r.major = none ∨ r.major = some l.major := by
  have hnumbered {dev : DevT} (h : Numbered dev t) : ∀ r ∈ t, r.major = some dev.major := by
    rcases h with rfl | rfl
    · simp [Resource.major]
    · simp [Resource.major]
  cases l with
  | fileOperation majornum =>
      obtain rfl : t = _ := h
      simp [Resource.major, Loaded.major]
  | demo statics => exact fun r hr => Or.inr (hnumbered h.2 r hr)
  | chardevice dev => exact fun r hr => Or.inr (hnumbered h r hr)
  | rwFile statics =>
      obtain ⟨dev, pclass⟩ := statics
      cases pclass with
      | null => exact h.elim
      | err =>
          obtain rfl : t = _ := h
          simp [Resource.major, Loaded.major]
      | valid id =>
          rcases h with rfl | rfl
          · simp [Resource.major, Loaded.major]
          · simp [Resource.major, Loaded.major]

/-- What a load comes to: a refusal, which leaves the tables as they are, or a driver that holds what
was added. -/
def Loads (k : Answers) (t : Tables) (d : Driver) : Prop :=
  (d.init k t).1 ≠ 0 ∧ (d.init k t).2.2 = t ∨
    (d.init k t).1 = 0 ∧ Free (d.init k t).2.1.major t ∧
      ∃ held, (d.init k t).2.2 = held + t ∧ (d.init k t).2.1.Holds held

theorem numbered_added (t : Tables) (dev : DevT) (cdev : Int) :
    ∃ held, cdevAdd cdev dev 1 (allocChrdevRegion (some dev) 1 t) = held + t ∧ Numbered dev held := by
  unfold cdevAdd
  split
  · exact ⟨{.region dev 1}, by simp [allocChrdevRegion], Or.inl rfl⟩
  · exact ⟨{.cdev dev 1, .region dev 1}, by simp [allocChrdevRegion], Or.inr rfl⟩

theorem init_none {k : Answers} (hregion : k.region = none) {d : Driver} (hd : d ≠ .fileOperation)
    (t : Tables) : (d.init k t).1 ≠ 0 ∧ (d.init k t).2.2 = t := by
  cases d with
  | fileOperation => exact absurd rfl hd
  | demo01 => simp [Driver.init, Demo01.chardeviceInit, hregion, allocChrdevRegion]
  | demo02 => simp [Driver.init, Demo02.chardeviceInit, Demo01.chardeviceInit, hregion, allocChrdevRegion]
  | demo03 => simp [Driver.init, Demo03.chardeviceInit, Chardev.chardeviceInit, hregion, allocChrdevRegion]
  | chardev01 => simp [Driver.init, Chardev.chardeviceInit, hregion, allocChrdevRegion]
  | rwFile => simp [Driver.init, RwFile.deviceInit, hregion, allocChrdevRegion]

/-- A load of `rw_file-ops.c` that gets as far as `class_create` goes through, whatever comes then. -/
theorem rwFile_added {k : RwFile.InitAnswers} {dev : DevT} (hregion : k.region = some dev)
    (hcdev : 0 ≤ k.cdev) (t : Tables) : ∃ pclass held,
    RwFile.deviceInit k t = (0, ⟨dev, pclass⟩, held + t) ∧ (Loaded.rwFile ⟨dev, pclass⟩).Holds held := by
  have hnot : ¬k.cdev < 0 := Int.not_lt.mpr hcdev
  cases hclass : k.deviceClass with
  | none =>
      have hholds : (Loaded.rwFile ⟨dev, .err⟩).Holds {.cdev dev 1, .region dev 1} := rfl
      refine ⟨_, _, ?_, hholds⟩
      simp [RwFile.deviceInit, hregion, hnot, hclass, allocChrdevRegion, cdevAdd, classCreate,
        deviceCreate]
  | some id =>
      cases hdevice : k.device with
      | none =>
          refine ⟨.valid id, {.deviceClass id, .cdev dev 1, .region dev 1}, ?_, Or.inl rfl⟩
          simp [RwFile.deviceInit, hregion, hnot, hclass, hdevice, allocChrdevRegion, cdevAdd,
            classCreate, deviceCreate]
      | some device =>
          refine ⟨.valid id, {.device id dev, .deviceClass id, .cdev dev 1, .region dev 1}, ?_,
            Or.inr rfl⟩
          simp [RwFile.deviceInit, hregion, hnot, hclass, hdevice, allocChrdevRegion, cdevAdd,
            classCreate, deviceCreate]

theorem init_loads {k : Answers} {t : Tables} {d : Driver} (hgrants : k.Grants t d)
    (hsound : d = .rwFile → k.region = none ∨ 0 ≤ k.cdev) : Loads k t d := by
  by_cases hfile : d = .fileOperation
  · subst hfile
    by_cases hmajor : k.major < 0
    · left
      simp [Driver.init, FileOperation.deviceInit, FileOperation.registerChrdev, hmajor,
        Int.ne_of_lt hmajor]
    · right
      simp only [Driver.init, FileOperation.deviceInit, FileOperation.registerChrdev, if_neg hmajor]
      have hholds : (Loaded.fileOperation k.major).Holds {.region ⟨k.major.toNat, 0⟩ 256} := rfl
      exact ⟨trivial, hgrants (Int.not_lt.mp hmajor), _, rfl, hholds⟩
  cases hregion : k.region with
  | none => exact Or.inl (init_none hregion hfile t)
  | some dev =>
      have hfree : Free dev.major t := by
        cases d with
        | fileOperation => exact absurd rfl hfile
        | _ => simpa only [Answers.Grants, hregion] using hgrants
      obtain ⟨held, hadded, hnumbered⟩ := numbered_added t dev k.cdev
      right
      cases d with
      | fileOperation => exact absurd rfl hfile
      | demo01 =>
          simp only [Driver.init, Demo01.chardeviceInit, hregion]
          exact ⟨trivial, hfree, held, hadded, rfl, hnumbered⟩
      | demo02 =>
          simp only [Driver.init, Demo02.chardeviceInit, Demo01.chardeviceInit, hregion]
          exact ⟨trivial, hfree, held, hadded, rfl, hnumbered⟩
      | demo03 =>
          simp only [Driver.init, Demo03.chardeviceInit, Chardev.chardeviceInit, hregion]
          exact ⟨trivial, hfree, held, hadded, hnumbered⟩
      | chardev01 =>
          simp only [Driver.init, Chardev.chardeviceInit, hregion]
          exact ⟨trivial, hfree, held, hadded, hnumbered⟩
      | rwFile =>
          have hcdev : 0 ≤ k.cdev := (hsound rfl).resolve_left (by simp [hregion])
          obtain ⟨pclass, held, hinit, hholds⟩ :=
            rwFile_added (k := ⟨k.region, k.cdev, k.deviceClass, k.device⟩) hregion hcdev t
          simp only [Driver.init, hinit]
          exact ⟨trivial, hfree, held, rfl, hholds⟩

section Exit

variable {rest : Tables} {dev : DevT}

theorem erase_of_major {r : Resource} {major : Nat} (hr : r.major = some major)
    (hrest : ∀ r ∈ rest, r.major ≠ some major) : rest.erase r = rest :=
  Multiset.erase_of_notMem fun hmem => hrest r hmem hr

theorem unregisterChrdev_zero (hzero : ∀ r ∈ rest, r.major ≠ some 0) : unregisterChrdev 0 rest = rest :=
  erase_of_major rfl hzero

/-- A number and its `cdev` are released whether or not `cdev_add` went through. -/
theorem release_numbered {held : Tables} (hheld : Numbered dev held)
    (hrest : ∀ r ∈ rest, r.major ≠ some dev.major) :
    unregisterChrdevRegion dev 1 (cdevDel dev 1 (held + rest)) = rest := by
  have hcdev : rest.erase (.cdev dev 1) = rest := erase_of_major rfl hrest
  rcases hheld with rfl | rfl
  · simp [unregisterChrdevRegion, cdevDel, hcdev]
  · simp [unregisterChrdevRegion, cdevDel]

/-- An exit releases what its load added, and nothing of the rest. -/
theorem exit_releases {l : Loaded} {held : Tables} (hheld : l.Holds held)
    (hrest : ∀ r ∈ rest, r.major ≠ some l.major) (hzero : ∀ r ∈ rest, r.major ≠ some 0)
    (hsound : ∀ statics, l = .rwFile statics → statics.pclass ≠ .err) :
    l.exit (held + rest) = .ok rest := by
  cases l with
  | fileOperation majornum =>
      obtain rfl : held = _ := hheld
      simp [Loaded.exit, FileOperation.deviceExit, unregisterChrdev]
  | demo statics =>
      obtain ⟨hnum, hnumbered⟩ := hheld
      simp [Loaded.exit, Demo01.chardeviceExit, hnum, release_numbered hnumbered hrest,
        unregisterChrdev_zero hzero]
  | chardevice dev =>
      simp [Loaded.exit, Chardev.chardeviceExit, Chardev.deviceNum, release_numbered hheld hrest,
        unregisterChrdev_zero hzero]
  | rwFile statics =>
      obtain ⟨dev, pclass⟩ := statics
      cases pclass with
      | null => exact hheld.elim
      | err => exact absurd rfl (hsound _ rfl)
      | valid id =>
          have hdevice : rest.erase (.device id dev) = rest := erase_of_major rfl hrest
          rcases hheld with rfl | rfl
          · simp [Loaded.exit, RwFile.deviceExit, deviceDestroy, classDestroy, cdevDel,
              unregisterChrdevRegion, hdevice]
          · simp [Loaded.exit, RwFile.deviceExit, deviceDestroy, classDestroy, cdevDel,
              unregisterChrdevRegion]

end Exit

/-- The drivers keep apart: each holds what its load added, under a number that nothing else has. -/
structure Apart (base : Tables) (s : System) : Prop where
  balanced : Balanced base s
  unloaded : ∀ d, s.loaded d = none → s.added d = 0
  holds : ∀ d l, s.loaded d = some l → l.Holds (s.added d)
  numbered : ∀ d l, s.loaded d = some l → Free l.major base
  alone : ∀ d l, s.loaded d = some l → ∀ d' ≠ d, ∀ r ∈ s.added d', r.major ≠ some l.major

theorem Loaded.Holds.exists_major {l : Loaded} {t : Tables} (h : l.Holds t) :
    ∃ r ∈ t, r.major = some l.major := by
  have hnumbered {dev : DevT} (h : Numbered dev t) : ∃ r ∈ t, r.major = some dev.major := by
    refine ⟨.region dev 1, ?_, rfl⟩
    rcases h with rfl | rfl <;> simp
  cases l with
  | fileOperation majornum =>
      obtain rfl : t = _ := h
      exact ⟨_, Multiset.mem_singleton_self _, rfl⟩
  | demo statics => exact hnumbered h.2
  | chardevice dev => exact hnumbered h
  | rwFile statics =>
      obtain ⟨dev, pclass⟩ := statics
      refine ⟨.region dev 1, ?_, rfl⟩
      cases pclass with
      | null => exact h.elim
      | err =>
          obtain rfl : t = _ := h
          simp
      | valid id => rcases h with rfl | rfl <;> simp

theorem apart_initial (base : Tables) : Apart base (.initial base) where
  balanced := by simp [Balanced, System.initial]
  unloaded _ _ := rfl
  holds _ _ h := by cases h
  numbered _ _ h := by cases h
  alone _ _ h := by cases h

theorem sum_update (f : Driver → Tables) (d : Driver) (t : Tables) :
    ∑ j, Function.update f d t j = t + ∑ j ∈ Finset.univ.erase d, f j := by
  rw [Finset.sum_update_of_mem (Finset.mem_univ d), Finset.sdiff_singleton_eq_erase]

theorem eq_some_of_update {f : Driver → Option Loaded} {o : Option Loaded} {d d' : Driver} {l : Loaded}
    (h : Function.update f d o d' = some l) : d' = d ∧ o = some l ∨ d' ≠ d ∧ f d' = some l := by
  by_cases hne : d' = d
  · subst hne
    rw [Function.update_self] at h
    exact Or.inl ⟨rfl, h⟩
  · rw [Function.update_of_ne hne] at h
    exact Or.inr ⟨hne, h⟩

section Apart

variable {base : Tables} {s : System} {d : Driver}

/-- What the tables hold beside the entries of one driver. -/
def System.others (base : Tables) (s : System) (d : Driver) : Tables :=
  base + ∑ j ∈ Finset.univ.erase d, s.added j

theorem Apart.tables_eq (h : Apart base s) (d : Driver) : s.tables = s.added d + s.others base d := by
  have hbalanced : s.tables = base + ∑ j, s.added j := h.balanced
  rw [hbalanced, System.others, ← Finset.add_sum_erase Finset.univ s.added (Finset.mem_univ d),
    add_left_comm]

theorem mem_others {r : Resource} (hr : r ∈ s.others base d) :
    r ∈ base ∨ ∃ d' ≠ d, r ∈ s.added d' := by
  rcases Multiset.mem_add.mp hr with hr | hr
  · exact Or.inl hr
  · obtain ⟨d', hd', hr⟩ := Multiset.mem_sum.mp hr
    exact Or.inr ⟨d', Finset.ne_of_mem_erase hd', hr⟩

theorem Apart.others_zero (h : Apart base s) (hbase : ∀ r ∈ base, r.major ≠ some 0) :
    ∀ r ∈ s.others base d, r.major ≠ some 0 := by
  intro r hr
  rcases mem_others hr with hr | ⟨d', -, hr⟩
  · exact hbase r hr
  · cases hl : s.loaded d' with
    | none =>
        rw [h.unloaded d' hl] at hr
        exact absurd hr (Multiset.notMem_zero r)
    | some l =>
        rcases (h.holds d' l hl).major r hr with hnone | hsome
        · simp [hnone]
        · rw [hsome]
          exact fun heq => (h.numbered d' l hl).1 (Option.some.inj heq)

theorem Apart.others_alone (h : Apart base s) {l : Loaded} (hl : s.loaded d = some l) :
    ∀ r ∈ s.others base d, r.major ≠ some l.major := by
  intro r hr
  rcases mem_others hr with hr | ⟨d', hne, hr⟩
  · exact (h.numbered d l hl).2 r hr
  · exact h.alone d l hl d' hne r hr

theorem Apart.mem_tables (h : Apart base s) (d : Driver) {r : Resource} (hr : r ∈ s.added d) :
    r ∈ s.tables := by
  rw [h.tables_eq d]
  exact Multiset.mem_add.mpr (Or.inl hr)

/-- A new driver, under a number of its own. -/
theorem Apart.load (h : Apart base s) (hd : s.loaded d = none) {l : Loaded} {held : Tables}
    (hheld : l.Holds held) (hfree : Free l.major s.tables) :
    Apart base ⟨held + s.tables, Function.update s.loaded d (some l),
      Function.update s.added d (held + s.tables - s.tables)⟩ := by
  have hbase {r : Resource} (hr : r ∈ base) : r ∈ s.tables := by
    rw [show s.tables = base + ∑ j, s.added j from h.balanced]
    exact Multiset.mem_add.mpr (Or.inl hr)
  rw [add_tsub_cancel_right]
  constructor
  · show held + s.tables = base + ∑ j, Function.update s.added d held j
    rw [sum_update, h.tables_eq d, h.unloaded d hd, zero_add, System.others, add_left_comm]
  · intro d' hd'
    by_cases hne : d' = d
    · subst hne
      simp at hd'
    · simp only [Function.update_of_ne hne] at hd' ⊢
      exact h.unloaded d' hd'
  · intro d' l' hl'
    rcases eq_some_of_update hl' with ⟨rfl, heq⟩ | ⟨hne, hl'⟩
    · obtain rfl := Option.some.inj heq
      simpa only [Function.update_self] using hheld
    · simp only [Function.update_of_ne hne]
      exact h.holds d' l' hl'
  · intro d' l' hl'
    rcases eq_some_of_update hl' with ⟨-, heq⟩ | ⟨-, hl'⟩
    · obtain rfl := Option.some.inj heq
      exact ⟨hfree.1, fun r hr => hfree.2 r (hbase hr)⟩
    · exact h.numbered d' l' hl'
  · intro d₁ l₁ hl₁ d₂ hne r hr
    rcases eq_some_of_update hl₁ with ⟨rfl, heq⟩ | ⟨-, hbefore⟩
    · obtain rfl := Option.some.inj heq
      simp only [Function.update_of_ne hne] at hr
      exact hfree.2 r (h.mem_tables d₂ hr)
    · by_cases h₂ : d₂ = d
      · subst h₂
        simp only [Function.update_self] at hr
        -- the number of the old driver is in the tables, so the new one has another
        obtain ⟨r₁, hr₁, hmajor⟩ := (h.holds d₁ l₁ hbefore).exists_major
        have hold := hfree.2 r₁ (h.mem_tables d₁ hr₁)
        rcases hheld.major r hr with hnone | hsome
        · simp [hnone]
        · rw [hsome]
          rwa [hmajor, ne_comm] at hold
      · simp only [Function.update_of_ne h₂] at hr
        exact h.alone d₁ l₁ hbefore d₂ hne r hr

/-- A driver that goes leaves the others as they are. -/
theorem Apart.unload (h : Apart base s) (d : Driver) :
    Apart base ⟨s.others base d, Function.update s.loaded d none, Function.update s.added d 0⟩ := by
  have hold {d' : Driver} {l : Loaded} (hl : Function.update s.loaded d none d' = some l) :
      d' ≠ d ∧ s.loaded d' = some l :=
    (eq_some_of_update hl).resolve_left fun ⟨_, heq⟩ => by cases heq
  constructor
  · show s.others base d = base + ∑ j, Function.update s.added d 0 j
    rw [sum_update, zero_add, System.others]
  · intro d' hd'
    by_cases hne : d' = d
    · subst hne
      simp
    · simp only [Function.update_of_ne hne] at hd' ⊢
      exact h.unloaded d' hd'
  · intro d' l hl
    obtain ⟨hne, hl⟩ := hold hl
    simp only [Function.update_of_ne hne]
    exact h.holds d' l hl
  · intro d' l hl
    exact h.numbered d' l (hold hl).2
  · intro d₁ l hl d₂ hne r hr
    obtain ⟨-, hl⟩ := hold hl
    by_cases h₂ : d₂ = d
    · subst h₂
      simp at hr
    · simp only [Function.update_of_ne h₂] at hr
      exact h.alone d₁ l hl d₂ hne r hr

/-- A sound step goes through, and the drivers keep apart. -/
theorem Apart.step (hbase : ∀ r ∈ base, r.major ≠ some 0) (h : Apart base s) {e : Event}
    (hmay : MayFollow s e) (hsound : Sound s e) :
    ∃ s' ret, Modules.step s e = .ok (s', ret) ∧ Apart base s' := by
  cases e with
  | load d k =>
      have hinit : Loads k s.tables d := init_loads hmay.2 fun hd => by
        subst hd
        exact hsound
      rcases hinit with ⟨hret, hsame⟩ | ⟨hret, hfree, held, htables, hheld⟩
      · refine ⟨s, (d.init k s.tables).1, ?_, h⟩
        simp only [Modules.step, if_neg hret, hsame]
      · refine ⟨_, 0, ?_, h.load hmay.1 hheld hfree⟩
        simp only [Modules.step, htables, hret, if_true]
  | unload d =>
      obtain ⟨l, hl⟩ := Option.ne_none_iff_exists'.mp hmay
      refine ⟨_, 0, ?_, h.unload d⟩
      have hexit : l.exit s.tables = .ok (s.others base d) := by
        rw [h.tables_eq d]
        refine exit_releases (h.holds d l hl) (h.others_alone hl) (h.others_zero hbase) ?_
        rintro statics rfl
        simpa only [Sound, hl] using hsound
      simp only [Modules.step, hl, hexit, ok_bind, pure_eq_ok]

end Apart

/-- A load that fails at `cdev_add` leaves the number behind. -/
theorem rwFile_leaves {k : Answers} {dev : DevT} (hregion : k.region = some dev) (hcdev : k.cdev < 0)
    (t : Tables) : (Driver.rwFile.init k t).1 ≠ 0 ∧
      (Driver.rwFile.init k t).2.2 = .region dev 1 ::ₘ t := by
  simp [Driver.init, RwFile.deviceInit, hregion, hcdev, allocChrdevRegion, cdevAdd]

/-- What goes through, and leaves the tables balanced, was sound. -/
theorem sound_of_balanced {base : Tables} {s s' : System} {e : Event} {ret : Int}
    (h : Balanced base s) (hstep : step s e = .ok (s', ret)) (h' : Balanced base s') : Sound s e := by
  cases e with
  | load d k =>
      cases d with
      | rwFile =>
          show k.region = none ∨ 0 ≤ k.cdev
          cases hregion : k.region with
          | none => exact Or.inl rfl
          | some dev =>
              refine Or.inr (Int.not_lt.mp fun hcdev => ?_)
              obtain ⟨hret, hleft⟩ := rwFile_leaves hregion hcdev s.tables
              simp only [step, if_neg hret, hleft] at hstep
              cases hstep
              have hmore : .region dev 1 ::ₘ s.tables = s.tables := h'.trans h.symm
              have hcard := congrArg Multiset.card hmore
              rw [Multiset.card_cons] at hcard
              omega
      | _ => trivial
  | unload d =>
      cases hl : s.loaded d with
      | none => simp only [Sound, hl]
      | some l =>
          cases l with
          | rwFile statics =>
              simp only [Sound, hl]
              intro herr
              simp [step, hl, Loaded.exit, RwFile.deviceExit, deviceDestroy, herr] at hstep
          | _ => simp only [Sound, hl]

/-- Whatever drivers come and go, and whatever fails, they all keep to their own entries, and none is
lost, exactly as long as the run is sound. -/
theorem coexist_iff {base : Tables} (hbase : ∀ r ∈ base, r.major ≠ some 0) {events : List Event}
    (h : Admissible step MayFollow (.initial base) events) :
    Throughout step (Balanced base) (.initial base) events ↔
      Admissible step Sound (.initial base) events := by
  constructor
  · intro hbalanced
    exact Throughout.admissible (P := Balanced base)
      (fun s e s' ret _ hs hstep hs' => sound_of_balanced hs hstep hs') h hbalanced
  · intro hsound
    exact throughout_of_invariant (fun s hs => hs.balanced)
      (fun s e hs he => hs.step hbase he.1 he.2) (apart_initial base) (h.and hsound)

/-- A number is refused, `cdev_add` fails for one driver and `device_create` for another, and the drivers
go in another order than they came. -/
def mixed : List Event :=
  [.load .rwFile ⟨0, some ⟨240, 0⟩, 0, some 1, none⟩, .load .demo03 ⟨0, some ⟨241, 0⟩, -16, none, none⟩,
    .load .fileOperation ⟨-16, none, 0, none, none⟩, .load .fileOperation ⟨242, none, 0, none, none⟩,
    .load .demo01 ⟨0, some ⟨243, 0⟩, 0, none, none⟩, .unload .demo03, .unload .rwFile,
    .load .chardev01 ⟨0, some ⟨240, 0⟩, 0, none, none⟩, .unload .demo01, .unload .fileOperation]

theorem coexist_mixed : Throughout step (Balanced {.region ⟨1, 0⟩ 256}) (.initial {.region ⟨1, 0⟩ 256})
    mixed :=
  (coexist_iff (by decide) (by decide)).mpr (by decide)

end Modules

end CharDriver
