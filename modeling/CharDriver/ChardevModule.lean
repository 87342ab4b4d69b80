import CharDriver.ChardevModel
import CharDriver.Registration
import Mathlib.Logic.Function.Basic

/-! The module around the device: its static objects, `chardevice_init` and `chardevice_exit`, and the
way an open file gets to a `device_dev`. The module registers the `cdev` that stands alone in
`charheader.h`, and `device_open` takes it for the member of a `device_dev`. There is none: what it
finds is whatever precedes `pdev_cdev` in memory. -/

namespace CharDriver.Chardev

open Base Registration

def deviceNum : Nat := 0

structure InitAnswers where
  region : Option DevT
  cdev : Int
  deriving DecidableEq, Repr

/-- The return value, the static `dev`, and the tables. A failure of `cdev_add` is only reported. -/
def chardeviceInit (k : InitAnswers) (t : Tables) : Int × DevT × Tables :=
  match k.region with
  | none => (-1, ⟨0, 0⟩, allocChrdevRegion none 1 t)
  | some dev => (0, dev, cdevAdd k.cdev dev 1 (allocChrdevRegion (some dev) 1 t))

def chardeviceExit (dev : DevT) (t : Tables) : Tables :=
  unregisterChrdev deviceNum (unregisterChrdevRegion dev 1 (cdevDel dev 1 t))

inductive CType where
  | int
  | devT
  | cdev
  | fileOperations
  | deviceDev
  deriving DecidableEq, Repr

inductive Static where
  | deviceNum
  | dev
  | pdevCdev
  | deviceQset
  | devFops
  deriving DecidableEq, Repr

def Static.type : Static → CType
  | deviceNum => .int
  | dev => .devT
  | pdevCdev => .cdev
  | deviceQset => .int
  | devFops => .fileOperations

structure Address where
  object : Static
  offset : Int
  deriving DecidableEq, Repr

/-- `offsetof(struct device_dev, cdev)`: 32 bytes of pointer, numbers and padding, and the semaphore,
whose size depends on the kernel's configuration. -/
def cdevOffset (semSize : Nat) : Int := 32 + semSize

def containerOf (semSize : Nat) (p : Address) : Address := ⟨p.object, p.offset - cdevOffset semSize⟩

/-- A `device_dev` of the module starts at the address. -/
def Address.IsDeviceDev (a : Address) : Prop := a.object.type = .deviceDev ∧ a.offset = 0

theorem Address.not_isDeviceDev (a : Address) : ¬a.IsDeviceDev := by
  rintro ⟨htype, -⟩
  cases hobject : a.object <;> simp [hobject, Static.type] at htype

/-- A loaded module. `memory` is what the bytes at an address read as when they are taken for the
fields of a `device_dev`; `files` gives the `private_data` of the open files. -/
structure Module where
  tables : Tables
  dev : DevT
  heap : Heap Block
  memory : Address → DeviceDev
  files : Nat → Option Address

def Module.loaded (k : InitAnswers) (t : Tables) (heap : Heap Block) (memory : Address → DeviceDev) :
    Module where
  tables := (chardeviceInit k t).2.2
  dev := (chardeviceInit k t).2.1
  heap := heap
  memory := memory
  files _ := none

/-- `inode->i_cdev`: the `cdev` the map has for the number of the module. -/
def Module.iCdev (m : Module) : Option Address :=
  if .cdev m.dev 1 ∈ m.tables then some ⟨.pdevCdev, 0⟩ else none

/-- Run a call on what is taken for the `device_dev` at an address. -/
def Module.onDevice (m : Module) (d : Address) (body : Kernel → Except Oops (Kernel × Reply))
    (files : Reply → Nat → Option Address) : Except Oops (Module × Reply) := do
  let (s, r) ← body ⟨m.heap, m.memory d⟩
  return ({ m with heap := s.heap, memory := Function.update m.memory d s.dev, files := files r }, r)

/-- A call on the file `f`. `device_open` stores the `device_dev` it computes in `private_data`, where
the other calls find it. -/
def moduleStep (env : Kmem) (semSize : Nat) (m : Module) : Nat × Call → Except Oops (Module × Reply)
  | (f, .deviceOpen flags signal) =>
      match m.iCdev with
      | none => .ok (m, ⟨0, [], 0⟩)
      | some p =>
          m.onDevice (containerOf semSize p) (fun s => step env s (.deviceOpen flags signal)) fun r =>
            if r.ret = 0 then Function.update m.files f (some (containerOf semSize p)) else m.files
  | (f, c) =>
      match m.files f with
      | none => .ok (m, ⟨0, [], 0⟩)
      | some d => m.onDevice d (fun s => step env s c) fun _ =>
          if c = .deviceRelease then Function.update m.files f none else m.files

def Call.isOpen : Call → Bool
  | .deviceOpen .. => true
  | _ => false

/-- A file is opened through a registered `cdev`, and used between its open and its release. -/
def Enabled (m : Module) (c : Nat × Call) : Prop :=
  if c.2.isOpen then m.files c.1 = none ∧ m.iCdev ≠ none else m.files c.1 ≠ none

instance moduleEnabledDecidable (m : Module) (c : Nat × Call) : Decidable (Enabled m c) :=
  inferInstanceAs (Decidable
    (if c.2.isOpen then m.files c.1 = none ∧ m.iCdev ≠ none else m.files c.1 ≠ none))

/-- What `device_open` obtains is a `device_dev` of the module around the registered `cdev`, ready for
use. -/
def FindsDevice (semSize : Nat) (m : Module) : Prop :=
  ∀ p, m.iCdev = some p → let d := containerOf semSize p
    d.IsDeviceDev ∧ d.offset + cdevOffset semSize = p.offset ∧ (m.memory d).sem = 1 ∧
      0 < (m.memory d).quantum ∧ 0 < (m.memory d).qset

/-- Every open finds an initialised device, and no call divides by zero. -/
def InitialisedBeforeUse (env : Kmem) (semSize : Nat) (m : Module) (calls : List (Nat × Call)) : Prop :=
  Admissible (moduleStep env semSize) (fun m c => c.2.isOpen = true → FindsDevice semSize m) m calls ∧
    runSteps (moduleStep env semSize) m calls ≠ .error .divideError

theorem not_findsDevice {semSize : Nat} {m : Module} (h : m.iCdev ≠ none) : ¬FindsDevice semSize m := by
  intro hfinds
  obtain ⟨p, hp⟩ := Option.ne_none_iff_exists'.mp h
  exact Address.not_isDeviceDev _ (hfinds p hp).1

/-- No run that opens the device finds it initialised. -/
theorem initialisedBeforeUse_iff (env : Kmem) (semSize : Nat) (k : InitAnswers) (t : Tables)
    (heap : Heap Block) (memory : Address → DeviceDev) {calls : List (Nat × Call)}
    (h : Admissible (moduleStep env semSize) Enabled (.loaded k t heap memory) calls) :
    InitialisedBeforeUse env semSize (.loaded k t heap memory) calls ↔
      ∀ c ∈ calls, c.2.isOpen = false := by
  cases calls with
  | nil => exact ⟨fun _ _ hc => absurd hc (List.not_mem_nil), fun _ => ⟨trivial, by simp [runSteps]⟩⟩
  | cons c calls =>
      -- the first call finds no file open, so it is an open
      have hopen : c.2.isOpen = true := by
        by_contra hnot
        have hfirst := h.1
        rw [Enabled, if_neg hnot] at hfirst
        exact hfirst rfl
      have hcdev : (Module.loaded k t heap memory).iCdev ≠ none := by
        have hfirst := h.1
        rw [Enabled, if_pos hopen] at hfirst
        exact hfirst.2
      constructor
      · exact fun hinit => absurd (hinit.1.1 hopen) (not_findsDevice hcdev)
      · intro hnone
        rw [hnone c List.mem_cons_self] at hopen
        exact absurd hopen Bool.false_ne_true

/-- The module loaded as device 240, with `count` in the semaphore and zeros in the other fields of what
it takes for its device. -/
def Module.zeroed (count : Nat) : Module :=
  .loaded ⟨some ⟨240, 0⟩, 0⟩ 0 Heap.empty fun _ => ⟨none, 0, 0, 0, count⟩

theorem initialisedBeforeUse_zeroed :
    InitialisedBeforeUse (.filled 7) 24 (.zeroed 0) [(0, .deviceOpen 2 false), (0, .deviceRelease)] ↔
      ∀ c ∈ [((0 : Nat), Call.deviceOpen 2 false), (0, .deviceRelease)], c.2.isOpen = false :=
  initialisedBeforeUse_iff (.filled 7) 24 ⟨some ⟨240, 0⟩, 0⟩ 0 Heap.empty _ (by decide)

/-- Opening the device for reading and writing succeeds on no device at all, and where the semaphore
happens to read as free, the first write divides by zero. -/
theorem not_initialisedBeforeUse_zeroed :
    Admissible (moduleStep (.filled 7) 24) Enabled (.zeroed 1)
        [(0, .deviceOpen 2 false), (0, .deviceWrite 0 [1] false none)] ∧
      ¬FindsDevice 24 (.zeroed 1) ∧
      (runSteps (moduleStep (.filled 7) 24) (.zeroed 1)
        [(0, .deviceOpen 2 false), (0, .deviceWrite 0 [1] false none)]).map Prod.snd =
        .error .divideError ∧
      ¬InitialisedBeforeUse (.filled 7) 24 (.zeroed 1)
        [(0, .deviceOpen 2 false), (0, .deviceWrite 0 [1] false none)] := by
  have hfinds : ¬FindsDevice 24 (.zeroed 1) := not_findsDevice (by decide)
  exact ⟨by decide, hfinds, by decide, fun hinit => hfinds (hinit.1.1 rfl)⟩

end CharDriver.Chardev
