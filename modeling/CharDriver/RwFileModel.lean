import CharDriver.BaseInt
import CharDriver.BaseMachine
import CharDriver.BaseOverlay
import Mathlib.Data.Finset.Card
import Mathlib.Logic.Function.Basic

/-! The driver of `rw_file-ops.c`: one global `kernel_buffer` for all open files. The allocator hands
out blocks by number, and may hand out a freed block again with what it held. What the kernel decides
(which block `kmalloc` returns, if any, and where a user copy faults) comes with the call. -/

namespace CharDriver.RwFile

open Base

def memSize : Nat := 1024

/-- The ways a call can leave defined behaviour: it moves bytes through a buffer that is `NULL` or was
freed, or it frees a buffer that is not live. -/
inductive Oops where
  | badAddress
  | badFree
  deriving DecidableEq, Repr

/-- The blocks of the allocator: which are live, and what they hold, freed or not. A store beyond
`mem_size` is kept at its index, so that it shows; what it overwrites is not modelled. -/
structure Slab where
  live : Nat → Bool
  mem : Nat → Nat → UInt8

def Slab.setLive (slab : Slab) (b : Nat) (live : Bool) : Slab :=
  { slab with live := Function.update slab.live b live }

@[simp] theorem Slab.setLive_self (slab : Slab) (b : Nat) (live : Bool) :
    (slab.setLive b live).live b = live := by
  simp only [setLive, Function.update_self]

theorem Slab.setLive_of_ne (slab : Slab) {b b' : Nat} (live : Bool) (hne : b' ≠ b) :
    (slab.setLive b live).live b' = slab.live b' := by
  simp only [setLive, Function.update_of_ne hne]

def Slab.put (slab : Slab) (b : Nat) (f : Nat → UInt8) : Slab :=
  { slab with mem := Function.update slab.mem b f }

@[simp] theorem Slab.put_self (slab : Slab) (b : Nat) : slab.put b (slab.mem b) = slab := by
  rw [put, Function.update_eq_self]

/-- The allocator and the global `kernel_buffer`; `none` is `NULL`. -/
structure Kernel where
  slab : Slab
  kernelBuffer : Option Nat

/-- The return value, the bytes stored to the user's memory from its start, and the numbers of bytes
taken from the user's memory and stored to the kernel's buffer, from their starts. -/
structure Reply where
  ret : Int
  bytes : List UInt8
  taken : Nat
  stored : Nat
  deriving DecidableEq, Repr

/-- `kmalloc(mem_size, GFP_KERNEL)`; the answer is the block it returns. -/
def kmalloc (answer : Option Nat) (slab : Slab) : Option Nat × Slab :=
  match answer with
  | none => (none, slab)
  | some b => (some b, slab.setLive b true)

def kfree (slab : Slab) : Option Nat → Except Oops Slab
  | none => .ok slab
  | some b => if slab.live b then .ok (slab.setLive b false) else .error .badFree

def load (slab : Slab) (p : Option Nat) (n : Nat) : Except Oops (List UInt8) :=
  if n = 0 then .ok []
  else match p with
    | none => .error .badAddress
    | some b => if slab.live b then .ok ((List.range n).map (slab.mem b)) else .error .badAddress

/-- Store bytes from the start of a block. -/
def store (slab : Slab) (p : Option Nat) (data : List UInt8) : Except Oops Slab :=
  if data = [] then .ok slab
  else match p with
    | none => .error .badAddress
    | some b =>
        if slab.live b then .ok (slab.put b (overlay (slab.mem b) 0 data)) else .error .badAddress

def deviceOpen (answer : Option Nat) (k : Kernel) : Except Oops (Reply × Kernel) :=
  match kmalloc answer k.slab with
  | (none, slab) => .ok (⟨-1, [], 0, 0⟩, ⟨slab, none⟩)
  | (some b, slab) => .ok (⟨0, [], 0, 0⟩, ⟨slab, some b⟩)

/-- `copy_to_user(buff, kernel_buffer, mem_size)`, whatever `len` is and however much of it fails. -/
def deviceRead (_len : Nat) (fault : Option Nat) (k : Kernel) : Except Oops (Reply × Kernel) := do
  let bytes ← load k.slab k.kernelBuffer (copied fault memSize)
  return (⟨memSize, bytes, 0, 0⟩, k)

/-- `copy_from_user(kernel_buffer, buff, len)`; the user's buffer is given by its `len` bytes. -/
def deviceWrite (buff : List UInt8) (fault : Option Nat) (k : Kernel) :
    Except Oops (Reply × Kernel) := do
  let slab ← store k.slab k.kernelBuffer (received fault buff)
  return (⟨toLong buff.length, [], copied fault buff.length, buff.length⟩, { k with slab })

/-- `kernel_buffer` keeps its value. -/
def deviceRelease (k : Kernel) : Except Oops (Reply × Kernel) := do
  let slab ← kfree k.slab k.kernelBuffer
  return (⟨0, [], 0, 0⟩, { k with slab })

/-- What an open file asks for, with where the user's memory faults. -/
inductive Op where
  | deviceRead (len : Nat) (fault : Option Nat)
  | deviceWrite (buff : List UInt8) (fault : Option Nat)
  deriving DecidableEq, Repr

inductive Call where
  | deviceOpen (file : Nat) (answer : Option Nat)
  | transfer (file : Nat) (op : Op)
  | deviceRelease (file : Nat)
  deriving DecidableEq, Repr

structure State where
  kernel : Kernel
  files : Finset Nat

def Op.run : Op → Kernel → Except Oops (Reply × Kernel)
  | .deviceRead len fault => RwFile.deviceRead len fault
  | .deviceWrite buff fault => RwFile.deviceWrite buff fault

/-- A file is open once its `device_open` returned 0. -/
def step (s : State) : Call → Except Oops (State × Reply)
  | .deviceOpen file answer => do
      let (r, kernel) ← deviceOpen answer s.kernel
      return (⟨kernel, if r.ret = 0 then insert file s.files else s.files⟩, r)
  | .transfer _ op => do
      let (r, kernel) ← op.run s.kernel
      return (⟨kernel, s.files⟩, r)
  | .deviceRelease file => do
      let (r, kernel) ← deviceRelease s.kernel
      return (⟨kernel, s.files.erase file⟩, r)

/-- A file is used between its open and its release, and the allocator hands out no live block. -/
def Enabled (s : State) : Call → Prop
  | .deviceOpen file answer => file ∉ s.files ∧ ∀ b ∈ answer, s.kernel.slab.live b = false
  | .transfer file _ => file ∈ s.files
  | .deviceRelease file => file ∈ s.files

instance enabledDecidable (s : State) : ∀ c : Call, Decidable (Enabled s c)
  | .deviceOpen .. => inferInstanceAs (Decidable (_ ∧ _))
  | .transfer .. => inferInstanceAs (Decidable (_ ∈ _))
  | .deviceRelease .. => inferInstanceAs (Decidable (_ ∈ _))

/-- The driver just loaded, over any old contents. -/
def initial (mem : Nat → Nat → UInt8) : State := ⟨⟨⟨fun _ => false, mem⟩, none⟩, ∅⟩

/-- What a transfer leaves in a buffer that holds `f`. -/
def Op.contents (f : Nat → UInt8) : Op → Nat → UInt8
  | .deviceRead .. => f
  | .deviceWrite buff fault => overlay f 0 (received fault buff)

def Op.reply (f : Nat → UInt8) : Op → Reply
  | .deviceRead _ fault => ⟨memSize, (List.range (copied fault memSize)).map f, 0, 0⟩
  | .deviceWrite buff fault =>
      ⟨toLong buff.length, [], copied fault buff.length, buff.length⟩

theorem load_live {slab : Slab} {b : Nat} (hlive : slab.live b = true) (n : Nat) :
    load slab (some b) n = .ok ((List.range n).map (slab.mem b)) := by
  unfold load
  split
  · rename_i hzero
    rw [hzero]
    rfl
  · exact if_pos hlive

theorem store_live {slab : Slab} {b : Nat} (hlive : slab.live b = true) (data : List UInt8) :
    store slab (some b) data = .ok (slab.put b (overlay (slab.mem b) 0 data)) := by
  unfold store
  split
  · rename_i hnil
    rw [hnil, overlay_nil, Slab.put_self]
  · exact if_pos hlive

/-- A transfer through a live buffer goes through, and changes only what the buffer holds. -/
theorem transfer_spec (op : Op) {k : Kernel} {b : Nat} (hbuffer : k.kernelBuffer = some b)
    (hlive : k.slab.live b = true) :
    op.run k = .ok (op.reply (k.slab.mem b),
      { k with slab := k.slab.put b (op.contents (k.slab.mem b)) }) := by
  obtain ⟨slab, p⟩ := k
  obtain rfl : p = some b := hbuffer
  have hlive : slab.live b = true := hlive
  cases op with
  | deviceRead len fault =>
      simp only [Op.run, deviceRead, load_live hlive, ok_bind, pure_eq_ok, Op.reply,
        Op.contents, Slab.put_self]
  | deviceWrite buff fault =>
      simp only [Op.run, deviceWrite, store_live hlive, ok_bind, pure_eq_ok, Op.reply,
        Op.contents]

theorem step_transfer (file : Nat) (op : Op) {s : State} {b : Nat}
    (hbuffer : s.kernel.kernelBuffer = some b) (hlive : s.kernel.slab.live b = true) :
    step s (.transfer file op) = .ok (⟨⟨s.kernel.slab.put b (op.contents (s.kernel.slab.mem b)),
      s.kernel.kernelBuffer⟩, s.files⟩, op.reply (s.kernel.slab.mem b)) := by
  simp only [step, transfer_spec op hbuffer hlive, ok_bind, pure_eq_ok]

theorem step_release (file : Nat) {s : State} {b : Nat}
    (hbuffer : s.kernel.kernelBuffer = some b) (hlive : s.kernel.slab.live b = true) :
    step s (.deviceRelease file) = .ok (⟨⟨s.kernel.slab.setLive b false, s.kernel.kernelBuffer⟩,
      s.files.erase file⟩, ⟨0, [], 0, 0⟩) := by
  simp only [step, deviceRelease, hbuffer, kfree, if_pos hlive, ok_bind, pure_eq_ok]

end CharDriver.RwFile
