import CharDriver.BaseHeap
import CharDriver.BaseInt
import CharDriver.BaseMachine
import CharDriver.BaseOverlay

/-! The character device of `chardev01.c` and `charheader.h`, function by function. The kernel state
is the heap of `kmalloc` blocks and the `device_dev` the open files share. What the kernel decides
(which `kmalloc` calls fail, the old contents of the blocks it hands out, signals, and faults of the
user copies) is an input. Every access goes through the heap: a dereference of `NULL`, of a freed
block or beyond the end of a block stops the call with an error. -/

namespace CharDriver.Chardev

open Base

/-- The ways a call can leave defined behaviour. -/
inductive Oops where
  | divideError
  | badAddress
  | badFree
  /-- A list walk that did not end. -/
  | hang
  deriving DecidableEq, Repr

/-- A pointer to a heap block; `none` is `NULL`. -/
abbrev Ptr := Option Nat

inductive Block where
  | deviceQset (data next : Ptr)
  | slots (ptrs : List Ptr)
  | quantum (bytes : List UInt8)
  deriving DecidableEq, Repr

/-- The fields of `struct device_dev` that the file operations use; `sem` is the count of the
semaphore. -/
structure DeviceDev where
  data : Ptr
  quantum : Int
  qset : Int
  size : Nat
  sem : Nat
  deriving DecidableEq, Repr

structure Kernel where
  heap : Heap Block
  dev : DeviceDev
  deriving DecidableEq, Repr

/-- The allocator's choices: which `kmalloc` calls fail, and the old contents of the block the
`n`-th call hands out. -/
structure Kmem where
  fails : Nat → Bool
  old : Nat → Nat → UInt8

def Kmem.filled (b : UInt8) : Kmem := ⟨fun _ => false, fun _ _ => b⟩

def deviceQset : Nat := 1000

theorem deviceQset_pos : 0 < deviceQset := by decide

def eNOMEM : Int := 12

def eFAULT : Int := 14

def eRESTARTSYS : Int := 512

/-- `kmalloc(size, GFP_KERNEL)`. A negative size converts to one no allocator grants. `block` is what
the caller finds in the new block: for the node and the slot array the `memset` that follows the
`NULL` check is part of it, for a quantum it is the old contents. -/
def kmalloc (env : Kmem) (h : Heap Block) (size : Int) (block : (Nat → UInt8) → Block) :
    Ptr × Heap Block :=
  if env.fails h.calls ∨ size < 0 then (none, h.fail)
  else (some h.calls, h.alloc (block (env.old h.calls)))

theorem kmalloc_of_fails {env : Kmem} {h : Heap Block} (hf : env.fails h.calls = true) (size : Int)
    (block : (Nat → UInt8) → Block) : kmalloc env h size block = (none, h.fail) := by
  simp [kmalloc, hf]

theorem kmalloc_of_not_fails {env : Kmem} {h : Heap Block} (hf : env.fails h.calls = false)
    {size : Int} (hsize : 0 ≤ size) (block : (Nat → UInt8) → Block) :
    kmalloc env h size block = (some h.calls, h.alloc (block (env.old h.calls))) := by
  rw [kmalloc, if_neg]
  simp [hf, hsize]

def kfree (h : Heap Block) : Ptr → Except Oops (Heap Block)
  | none => .ok h
  | some a => if (h.get a).isSome then .ok (h.free a) else .error .badFree

def loadNode (h : Heap Block) (p : Ptr) : Except Oops (Ptr × Ptr) :=
  match p.bind h.get with
  | some (.deviceQset data next) => .ok (data, next)
  | _ => .error .badAddress

def storeNode (h : Heap Block) (p : Ptr) (data next : Ptr) : Except Oops (Heap Block) :=
  match p, p.bind h.get with
  | some a, some (.deviceQset _ _) => .ok (h.put a (.deviceQset data next))
  | _, _ => .error .badAddress

def loadSlot (h : Heap Block) (array : Ptr) (i : Int) : Except Oops Ptr :=
  match array.bind h.get with
  | some (.slots ptrs) =>
      if 0 ≤ i then
        match ptrs[i.toNat]? with
        | some p => .ok p
        | none => .error .badAddress
      else .error .badAddress
  | _ => .error .badAddress

def storeSlot (h : Heap Block) (array : Ptr) (i : Int) (p : Ptr) : Except Oops (Heap Block) :=
  match array, array.bind h.get with
  | some a, some (.slots ptrs) =>
      if 0 ≤ i ∧ i < ptrs.length then .ok (h.put a (.slots (ptrs.set i.toNat p)))
      else .error .badAddress
  | _, _ => .error .badAddress

def loadBytes (h : Heap Block) (p : Ptr) (off : Int) (len : Nat) : Except Oops (List UInt8) :=
  match p.bind h.get with
  | some (.quantum bytes) =>
      if 0 ≤ off ∧ off + len ≤ bytes.length then .ok ((bytes.drop off.toNat).take len)
      else .error .badAddress
  | _ => .error .badAddress

def storeBytes (h : Heap Block) (p : Ptr) (off : Int) (data : List UInt8) :
    Except Oops (Heap Block) :=
  match p, p.bind h.get with
  | some a, some (.quantum bytes) =>
      if 0 ≤ off ∧ off + data.length ≤ bytes.length then
        .ok (h.put a (.quantum
          (bytes.take off.toNat ++ data ++ bytes.drop (off.toNat + data.length))))
      else .error .badAddress
  | _, _ => .error .badAddress

/-- `for (i = 0; i < qset; i++) kfree(dptr->data[i]);` with `n` iterations left. -/
def trimSlots (array : Ptr) : Nat → Nat → Heap Block → Except Oops (Heap Block)
  | 0, _, h => .ok h
  | n + 1, i, h => do
      let p ← loadSlot h array i
      let h ← kfree h p
      trimSlots array n (i + 1) h

/-- The body of `if (dptr->data)`. -/
def trimArray (qset : Int) (dptr : Nat) (h : Heap Block) : Except Oops (Heap Block) := do
  let (data, next) ← loadNode h (some dptr)
  if data.isSome then
    let h ← trimSlots data qset.toNat 0 h
    let h ← kfree h data
    storeNode h (some dptr) none next
  else
    return h

/-- `for (dptr = dev->data; dptr; dptr = next)`. Each turn frees a live node, so a walk that ends
takes at most as many turns as there are blocks; `fuel` bounds them. -/
def trimNodes (qset : Int) : Nat → Ptr → Heap Block → Except Oops (Heap Block)
  | _, none, h => .ok h
  | 0, some _, _ => .error .hang
  | fuel + 1, some dptr, h => do
      let h ← trimArray qset dptr h
      let (_, next) ← loadNode h (some dptr)
      let h ← kfree h (some dptr)
      trimNodes qset fuel next h

def deviceTrim (s : Kernel) : Except Oops Kernel := do
  let heap ← trimNodes s.dev.qset s.heap.calls s.dev.data s.heap
  return { heap, dev := { s.dev with size := 0, qset := deviceQset, data := none } }

/-- `while (n--)`, from node `qs` with `n` iterations left. -/
def followList (env : Kmem) : Nat → Nat → Heap Block → Except Oops (Ptr × Heap Block)
  | 0, qs, h => .ok (some qs, h)
  | n + 1, qs, h => do
      let (data, next) ← loadNode h (some qs)
      match next with
      | some next => followList env n next h
      | none =>
          match kmalloc env h 16 (fun _ => .deviceQset none none) with
          | (none, h) => .ok (none, h)
          | (some next, h) => do
              let h ← storeNode h (some qs) data (some next)
              followList env n next h

/-- The decrement wraps around, so from a negative count the loop still ends, after `2^32 + n`
iterations. -/
def deviceFollow (env : Kmem) (n : Int) (s : Kernel) : Except Oops (Ptr × Kernel) :=
  match s.dev.data with
  | some qs => do
      let (p, heap) ← followList env (n % 2 ^ 32).toNat qs s.heap
      return (p, { s with heap })
  | none =>
      match kmalloc env s.heap 16 (fun _ => .deviceQset none none) with
      | (none, heap) => .ok (none, { s with heap })
      | (some qs, heap) => do
          let (p, heap) ← followList env (n % 2 ^ 32).toNat qs heap
          return (p, { heap, dev := { s.dev with data := some qs } })

/-- What a call returns: the return value, the bytes copied to the user and the new `*ppos`. -/
structure Reply where
  ret : Int
  bytes : List UInt8
  ppos : Int
  deriving DecidableEq, Repr

structure Place where
  item : Int
  sPos : Int
  qPos : Int
  deriving DecidableEq, Repr

def idiv (w : Nat) (a b : Int) : Except Oops Int :=
  match divide w a b with
  | some q => .ok q
  | none => .error .divideError

def imod (w : Nat) (a b : Int) : Except Oops Int :=
  match remainder w a b with
  | some r => .ok r
  | none => .error .divideError

/-- `item`, `s_pos` and `q_pos`, as both transfer functions compute them. -/
def locate (quantum itemsize ppos : Int) : Except Oops Place := do
  let item ← idiv 64 ppos itemsize
  let rest ← imod 64 ppos itemsize
  let sPos ← idiv 32 (toInt rest) quantum
  let qPos ← imod 32 (toInt rest) quantum
  return ⟨toInt item, sPos, qPos⟩

/-- `if (len > quantum - q_pos) len = quantum - q_pos;` compares as `size_t`. -/
def clampLen (quantum qPos : Int) (len : Nat) : Nat :=
  let left := toULong (toInt (quantum - qPos))
  if left < len then left else len

/-- `dptr->data[s_pos]`, or `NULL` where `dptr` or `dptr->data` is. -/
def slotOf (h : Heap Block) (dptr : Ptr) (sPos : Int) : Except Oops Ptr :=
  match dptr with
  | none => .ok none
  | some _ => do
      let (data, _) ← loadNode h dptr
      match data with
      | none => .ok none
      | some _ => loadSlot h data sPos

/-- `device_read` between `down_interruptible` and `up`. -/
def deviceReadBody (env : Kmem) (quantum itemsize : Int) (len : Nat) (fault : Option Nat)
    (ppos : Int) (s : Kernel) : Except Oops (Reply × Kernel) :=
  if s.dev.size ≤ toULong ppos then .ok (⟨0, [], ppos⟩, s)
  else do
    let place ← locate quantum itemsize ppos
    let (dptr, s) ← deviceFollow env place.item s
    let slot ← slotOf s.heap dptr place.sPos
    match slot with
    | none => .ok (⟨0, [], ppos⟩, s)
    | some _ => do
        let len := clampLen quantum place.qPos len
        let bytes ← loadBytes s.heap slot place.qPos len
        let n := copied fault len
        if n < len then .ok (⟨-eFAULT, bytes.take n, ppos⟩, s)
        else .ok (⟨toLong len, bytes, toLong (ppos + len)⟩, s)

/-- `if (!dptr->data)` of `device_write`: the slot array of a node, allocated when missing. -/
def ensureArray (env : Kmem) (qset : Int) (dptr : Nat) (h : Heap Block) :
    Except Oops (Ptr × Heap Block) := do
  let (data, next) ← loadNode h (some dptr)
  match data with
  | some _ => .ok (data, h)
  | none =>
      match kmalloc env h (qset * 8) (fun _ => .slots (List.replicate qset.toNat none)) with
      | (none, h) => .ok (none, h)
      | (some array, h) => do
          let h ← storeNode h (some dptr) (some array) next
          return (some array, h)

/-- `if (!dptr->data[s_pos])` of `device_write`: the quantum of a slot, allocated when missing. -/
def ensureQuantum (env : Kmem) (quantum : Int) (array : Ptr) (sPos : Int) (h : Heap Block) :
    Except Oops (Ptr × Heap Block) := do
  let slot ← loadSlot h array sPos
  match slot with
  | some _ => .ok (slot, h)
  | none =>
      match kmalloc env h quantum (fun old => .quantum ((List.range quantum.toNat).map old)) with
      | (none, h) => .ok (none, h)
      | (some q, h) => do
          let h ← storeSlot h array sPos (some q)
          return (some q, h)

/-- `device_write` from the clamp of `len` on: the copy into the quantum and the update of the
size. Where `copy_from_user` faults, it fills the rest of its destination with zeros. -/
def copyIn (quantum qPos : Int) (slot : Ptr) (buff : List UInt8) (fault : Option Nat) (ppos : Int)
    (s : Kernel) : Except Oops (Reply × Kernel) := do
  let len := clampLen quantum qPos buff.length
  let n := copied fault len
  let heap ← storeBytes s.heap slot qPos (received fault (buff.take len))
  if n < len then .ok (⟨-eFAULT, [], ppos⟩, { s with heap })
  else
    let ppos := toLong (ppos + len)
    let size := if s.dev.size < toULong ppos then toULong ppos else s.dev.size
    .ok (⟨toLong len, [], ppos⟩, { heap, dev := { s.dev with size } })

/-- `device_write` between `down_interruptible` and `up`. The user's buffer is given by the `len`
bytes it offers. -/
def deviceWriteBody (env : Kmem) (quantum qset itemsize : Int) (buff : List UInt8)
    (fault : Option Nat) (ppos : Int) (s : Kernel) : Except Oops (Reply × Kernel) := do
  let place ← locate quantum itemsize ppos
  let (dptr, s) ← deviceFollow env place.item s
  match dptr with
  | none => .ok (⟨-eNOMEM, [], ppos⟩, s)
  | some dptr => do
      let (array, heap) ← ensureArray env qset dptr s.heap
      match array with
      | none => .ok (⟨-eNOMEM, [], ppos⟩, { s with heap })
      | some _ => do
          let (slot, heap) ← ensureQuantum env quantum array place.sPos heap
          match slot with
          | none => .ok (⟨-eNOMEM, [], ppos⟩, { s with heap })
          | some _ => copyIn quantum place.qPos slot buff fault ppos { s with heap }

/-! ### The semaphore and the calls -/

/-- `down_interruptible`: `none` is the non-zero return, after a signal. A caller that finds the
count at zero sleeps, and only a signal wakes it where no other call runs. -/
def downInterruptible (signal : Bool) (dev : DeviceDev) : Option DeviceDev :=
  if signal ∨ dev.sem = 0 then none else some { dev with sem := dev.sem - 1 }

def up (dev : DeviceDev) : DeviceDev := { dev with sem := dev.sem + 1 }

/-- The frame of every locked section: give up on a signal, else run the section and release. -/
def locked (signal : Bool) (ppos : Int) (body : Kernel → Except Oops (Reply × Kernel))
    (s : Kernel) : Except Oops (Reply × Kernel) :=
  match downInterruptible signal s.dev with
  | none => .ok (⟨-eRESTARTSYS, [], ppos⟩, s)
  | some dev => do
      let (r, s) ← body { s with dev }
      return (r, { s with dev := up s.dev })

/-- The local variables `device_read` and `device_write` load before they take the semaphore. -/
structure Loaded where
  quantum : Int
  qset : Int
  itemsize : Int
  deriving DecidableEq, Repr

def loadGeometry (dev : DeviceDev) : Loaded :=
  ⟨dev.quantum, dev.qset, toInt (dev.quantum * dev.qset)⟩

def deviceReadLocked (env : Kmem) (g : Loaded) (len : Nat) (signal : Bool) (fault : Option Nat)
    (ppos : Int) : Kernel → Except Oops (Reply × Kernel) :=
  locked signal ppos (deviceReadBody env g.quantum g.itemsize len fault ppos)

def deviceWriteLocked (env : Kmem) (g : Loaded) (buff : List UInt8) (signal : Bool)
    (fault : Option Nat) (ppos : Int) : Kernel → Except Oops (Reply × Kernel) :=
  locked signal ppos (deviceWriteBody env g.quantum g.qset g.itemsize buff fault ppos)

def deviceRead (env : Kmem) (len : Nat) (signal : Bool) (fault : Option Nat) (ppos : Int)
    (s : Kernel) : Except Oops (Reply × Kernel) :=
  deviceReadLocked env (loadGeometry s.dev) len signal fault ppos s

def deviceWrite (env : Kmem) (buff : List UInt8) (signal : Bool) (fault : Option Nat) (ppos : Int)
    (s : Kernel) : Except Oops (Reply × Kernel) :=
  deviceWriteLocked env (loadGeometry s.dev) buff signal fault ppos s

def oACCMODE : UInt32 := 3

def oWRONLY : UInt32 := 1

/-- `(file->f_flags & O_ACCMODE) == O_WRONLY` -/
def isWronly (flags : UInt32) : Bool := flags &&& oACCMODE == oWRONLY

def deviceOpen (flags : UInt32) (signal : Bool) (s : Kernel) : Except Oops (Reply × Kernel) :=
  if isWronly flags then
    locked signal 0 (fun s => do
      let s ← deviceTrim s
      return (⟨0, [], 0⟩, s)) s
  else .ok (⟨0, [], 0⟩, s)

def deviceRelease (s : Kernel) : Except Oops (Reply × Kernel) := .ok (⟨0, [], 0⟩, s)

/-- A call through the `file_operations` table, with what the kernel decides during it: whether a
signal interrupts the wait for the semaphore, and where the user memory faults. The offset is the
file's own or one the caller supplies. -/
inductive Call where
  | deviceOpen (flags : UInt32) (signal : Bool)
  | deviceRead (ppos len : Nat) (signal : Bool) (fault : Option Nat)
  | deviceWrite (ppos : Nat) (buff : List UInt8) (signal : Bool) (fault : Option Nat)
  | deviceRelease
  deriving DecidableEq, Repr

/-- Where the user memory the call copies from or to faults. -/
def Call.fault : Call → Option Nat
  | .deviceRead _ _ _ fault => fault
  | .deviceWrite _ _ _ fault => fault
  | _ => none

/-- One call, executed without another call in between. -/
def step (env : Kmem) (s : Kernel) (c : Call) : Except Oops (Kernel × Reply) :=
  (match c with
    | .deviceOpen flags signal => deviceOpen flags signal s
    | .deviceRead ppos len signal fault => deviceRead env len signal fault ppos s
    | .deviceWrite ppos buff signal fault => deviceWrite env buff signal fault ppos s
    | .deviceRelease => deviceRelease s).map Prod.swap

def run (env : Kmem) : Kernel → List Call → Except Oops (Kernel × List Reply) :=
  runSteps (step env)

/-- A device with `data = NULL`, `size = 0` and its semaphore up. -/
def emptyDevice (quantum qset : Nat) : Kernel where
  heap := Heap.empty
  dev := { data := none, quantum, qset, size := 0, sem := 1 }

/-- The offset of the call lies in the exact range of `int item` for the current geometry. -/
def Call.InRange (dev : DeviceDev) : Call → Prop
  | .deviceRead ppos .. => (ppos : Int) / (dev.quantum * dev.qset) ≤ intMax
  | .deviceWrite ppos .. => (ppos : Int) / (dev.quantum * dev.qset) ≤ intMax
  | _ => True

instance inRangeDecidable (dev : DeviceDev) : ∀ c : Call, Decidable (c.InRange dev)
  | .deviceRead .. => inferInstanceAs (Decidable (_ ≤ _))
  | .deviceWrite .. => inferInstanceAs (Decidable (_ ≤ _))
  | .deviceOpen .. => inferInstanceAs (Decidable True)
  | .deviceRelease => inferInstanceAs (Decidable True)

def InRange (env : Kmem) : Kernel → List Call → Prop :=
  Admissible (step env) fun s c => c.InRange s.dev

instance runInRangeDecidable (env : Kmem) (s : Kernel) (calls : List Call) :
    Decidable (InRange env s calls) :=
  inferInstanceAs (Decidable (Admissible _ _ s calls))

end CharDriver.Chardev
