import Mathlib.Data.Multiset.AddSub

/-! The kernel's registration tables, as far as the drivers use them. The tables are one multiset
of entries, each tagged with the table it belongs to. An acquiring call is given the kernel's answer
and adds an entry when the answer is a success; a releasing call removes one copy of its entry, if the
table has any. -/

namespace CharDriver.Registration

/-- A `dev_t`: `MAJOR(dev)` and `MINOR(dev)`. -/
structure DevT where
  major : Nat
  minor : Nat
  deriving DecidableEq, Repr

inductive Resource where
  | region (first : DevT) (count : Nat)
  | cdev (first : DevT) (count : Nat)
  | deviceClass (id : Nat)
  | device (deviceClass : Nat) (dev : DevT)
  deriving DecidableEq, Repr

def Resource.major : Resource → Option Nat
  | .region first _ | .cdev first _ => some first.major
  | .deviceClass _ => none
  | .device _ dev => some dev.major

abbrev Tables := Multiset Resource

/-- `NULL`, an error pointer, or a pointer to an object. -/
inductive ErrPtr where
  | null
  | err
  | valid (id : Nat)
  deriving DecidableEq, Repr

def allocChrdevRegion (answer : Option DevT) (count : Nat) (t : Tables) : Tables :=
  match answer with
  | none => t
  | some dev => .region dev count ::ₘ t

def unregisterChrdevRegion (first : DevT) (count : Nat) (t : Tables) : Tables :=
  t.erase (.region first count)

/-- `unregister_chrdev(major, name)` releases the whole region of the major number. -/
def unregisterChrdev (major : Nat) (t : Tables) : Tables := t.erase (.region ⟨major, 0⟩ 256)

def cdevAdd (answer : Int) (dev : DevT) (count : Nat) (t : Tables) : Tables :=
  if answer < 0 then t else .cdev dev count ::ₘ t

def cdevDel (dev : DevT) (count : Nat) (t : Tables) : Tables := t.erase (.cdev dev count)

/-- `class_create(owner, name)`; the answer is the class, or a failure, which is an error pointer and
never `NULL`. -/
def classCreate (answer : Option Nat) (t : Tables) : ErrPtr × Tables :=
  match answer with
  | none => (.err, t)
  | some id => (.valid id, .deviceClass id ::ₘ t)

/-- `class_destroy` of anything else does nothing. -/
def classDestroy (p : ErrPtr) (t : Tables) : Tables :=
  match p with
  | .valid id => t.erase (.deviceClass id)
  | _ => t

/-- `device_create(class, NULL, dev, NULL, name)` fails as `class_create` does, and without a class in
any case. -/
def deviceCreate (answer : Option Nat) (p : ErrPtr) (dev : DevT) (t : Tables) : ErrPtr × Tables :=
  match answer, p with
  | some id, .valid deviceClass => (.valid id, .device deviceClass dev ::ₘ t)
  | _, _ => (.err, t)

/-- `device_destroy` looks the device up in the class. An error pointer leads to none, and is the
error. -/
def deviceDestroy (p : ErrPtr) (dev : DevT) (t : Tables) : Except ErrPtr Tables :=
  match p with
  | .null => .ok t
  | .err => .error .err
  | .valid id => .ok (t.erase (.device id dev))

end CharDriver.Registration
