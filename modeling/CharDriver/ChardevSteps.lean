import CharDriver.BaseSemaphore
import CharDriver.ChardevModel

/-! The calls of `chardev01.c` as programs of small steps, for threads that interleave between any two
of them: every exit of the functions is a point of its own. A call that runs alone does what the
function does. -/

namespace CharDriver.Chardev

open Base

inductive Direction where
  | read (len : Nat)
  | write (buff : List UInt8)
  deriving DecidableEq, Repr

structure Transfer where
  dir : Direction
  ppos : Int
  fault : Option Nat
  deriving DecidableEq, Repr

/-- The points of `device_open`, with `device_trim`, and of `device_read` and `device_write`, with
`device_follow`; each has the local variables that are used after it. -/
inductive Pc where
  | openDown (signal : Bool)
  | trim
  | trimNode (qset : Int) (dptr : Ptr)
  | trimSlot (qset : Int) (dptr : Nat) (array next : Ptr) (i n : Nat)
  | trimNext (qset : Int) (dptr : Nat)
  | load (x : Transfer) (signal : Bool)
  | down (x : Transfer) (signal : Bool) (g : Loaded)
  /-- `if(*ppos >= dev->size)` -/
  | size (x : Transfer) (g : Loaded)
  | locate (x : Transfer) (g : Loaded)
  | data (x : Transfer) (g : Loaded) (place : Place)
  | follow (x : Transfer) (g : Loaded) (place : Place) (n qs : Nat)
  /-- `if (dptr == NULL || !dptr->data || ! dptr->data[s_pos])` -/
  | slot (x : Transfer) (g : Loaded) (place : Place) (dptr : Ptr)
  /-- `if(!dptr->data)` -/
  | array (x : Transfer) (g : Loaded) (place : Place) (dptr : Nat)
  /-- `if(!dptr->data[s_pos])` -/
  | quantum (x : Transfer) (g : Loaded) (place : Place) (array : Ptr)
  | copy (x : Transfer) (g : Loaded) (place : Place) (slot : Ptr)
  /-- `if(dev->size < *ppos)` -/
  | grow (len : Nat) (ppos : Int)
  | up (r : Reply)
  | ret (r : Reply)
  deriving DecidableEq, Repr

/-- Where a call starts. Only a write-only open takes the semaphore. -/
def Call.entry : Call → Pc
  | .deviceOpen flags signal => if isWronly flags then .openDown signal else .ret ⟨0, [], 0⟩
  | .deviceRead ppos len signal fault => .load ⟨.read len, ppos, fault⟩ signal
  | .deviceWrite ppos buff signal fault => .load ⟨.write buff, ppos, fault⟩ signal
  | .deviceRelease => .ret ⟨0, [], 0⟩

/-- After `down_interruptible`: only `device_read` looks at the size. -/
def Transfer.locked (x : Transfer) (g : Loaded) : Pc :=
  match x.dir with
  | .read _ => .size x g
  | .write _ => .locate x g

def Transfer.followed (x : Transfer) (g : Loaded) (place : Place) (dptr : Ptr) : Pc :=
  match x.dir, dptr with
  | .read _, _ => .slot x g place dptr
  | .write _, none => .up ⟨-eNOMEM, [], x.ppos⟩
  | .write _, some dptr => .array x g place dptr

/-- The body of the outer loop of `device_trim`, up to the loop over the slots. -/
def trimNodeStep (qset : Int) (dptr : Nat) (s : Kernel) : Except Oops (Pc × Kernel) := do
  let (data, next) ← loadNode s.heap (some dptr)
  if data.isSome then return (.trimSlot qset dptr data next 0 qset.toNat, s)
  else return (.trimNext qset dptr, s)

/-- `kfree(dptr->data[i]);`, and after the last one `kfree(dptr->data); dptr->data = NULL;` -/
def trimSlotStep (qset : Int) (dptr : Nat) (array next : Ptr) (i : Nat) :
    Nat → Kernel → Except Oops (Pc × Kernel)
  | n + 1, s => do
      let p ← loadSlot s.heap array i
      let heap ← kfree s.heap p
      return (.trimSlot qset dptr array next (i + 1) n, { s with heap })
  | 0, s => do
      let heap ← kfree s.heap array
      let heap ← storeNode heap (some dptr) none next
      return (.trimNext qset dptr, { s with heap })

/-- `next = dptr->next; kfree(dptr);` -/
def trimNextStep (qset : Int) (dptr : Nat) (s : Kernel) : Except Oops (Pc × Kernel) := do
  let (_, next) ← loadNode s.heap (some dptr)
  let heap ← kfree s.heap (some dptr)
  return (.trimNode qset next, { s with heap })

/-- The first node of the list, allocated when missing. -/
def dataStep (env : Kmem) (x : Transfer) (g : Loaded) (place : Place) (s : Kernel) :
    Except Oops (Pc × Kernel) :=
  match s.dev.data with
  | some qs => .ok (.follow x g place (place.item % 2 ^ 32).toNat qs, s)
  | none =>
      match kmalloc env s.heap 16 (fun _ => .deviceQset none none) with
      | (none, heap) => .ok (x.followed g place none, { s with heap })
      | (some qs, heap) => .ok (.follow x g place (place.item % 2 ^ 32).toNat qs,
          { heap, dev := { s.dev with data := some qs } })

/-- One iteration of the loop of `device_follow`, or its end. -/
def followStep (env : Kmem) (x : Transfer) (g : Loaded) (place : Place) (qs : Nat) :
    Nat → Kernel → Except Oops (Pc × Kernel)
  | 0, s => .ok (x.followed g place (some qs), s)
  | n + 1, s => do
      let (data, next) ← loadNode s.heap (some qs)
      match next with
      | some next => .ok (.follow x g place n next, s)
      | none =>
          match kmalloc env s.heap 16 (fun _ => .deviceQset none none) with
          | (none, heap) => .ok (x.followed g place none, { s with heap })
          | (some next, heap) => do
              let heap ← storeNode heap (some qs) data (some next)
              return (.follow x g place n next, { s with heap })

def slotStep (x : Transfer) (g : Loaded) (place : Place) (dptr : Ptr) (s : Kernel) :
    Except Oops (Pc × Kernel) := do
  let slot ← slotOf s.heap dptr place.sPos
  match slot with
  | none => return (.up ⟨0, [], x.ppos⟩, s)
  | some _ => return (.copy x g place slot, s)

def arrayStep (env : Kmem) (x : Transfer) (g : Loaded) (place : Place) (dptr : Nat) (s : Kernel) :
    Except Oops (Pc × Kernel) := do
  let (array, heap) ← ensureArray env g.qset dptr s.heap
  match array with
  | none => return (.up ⟨-eNOMEM, [], x.ppos⟩, { s with heap })
  | some _ => return (.quantum x g place array, { s with heap })

def quantumStep (env : Kmem) (x : Transfer) (g : Loaded) (place : Place) (array : Ptr) (s : Kernel) :
    Except Oops (Pc × Kernel) := do
  let (slot, heap) ← ensureQuantum env g.quantum array place.sPos s.heap
  match slot with
  | none => return (.up ⟨-eNOMEM, [], x.ppos⟩, { s with heap })
  | some _ => return (.copy x g place slot, { s with heap })

/-- `copy_to_user` or `copy_from_user`, with the clamp of `len` before it. -/
def copyStep (x : Transfer) (g : Loaded) (place : Place) (slot : Ptr) (s : Kernel) :
    Except Oops (Pc × Kernel) :=
  match x.dir with
  | .read len => do
      let len := clampLen g.quantum place.qPos len
      let bytes ← loadBytes s.heap slot place.qPos len
      let n := copied x.fault len
      if n < len then return (.up ⟨-eFAULT, bytes.take n, x.ppos⟩, s)
      else return (.up ⟨toLong len, bytes, toLong (x.ppos + len)⟩, s)
  | .write buff => do
      let len := clampLen g.quantum place.qPos buff.length
      let n := copied x.fault len
      let heap ← storeBytes s.heap slot place.qPos (received x.fault (buff.take len))
      if n < len then return (.up ⟨-eFAULT, [], x.ppos⟩, { s with heap })
      else return (.grow len (toLong (x.ppos + len)), { s with heap })

def growStep (len : Nat) (ppos : Int) (s : Kernel) : Except Oops (Pc × Kernel) :=
  let size := if s.dev.size < toULong ppos then toULong ppos else s.dev.size
  .ok (.up ⟨toLong len, [], ppos⟩, { s with dev := { s.dev with size } })

def action (env : Kmem) : Pc → Action Kernel Loaded Pc Reply Oops
  | .openDown signal => .down signal .trim (.ret ⟨-eRESTARTSYS, [], 0⟩)
  | .trim => .access fun s => .ok (.trimNode s.dev.qset s.dev.data, s)
  | .trimNode _ none => .access fun s =>
      .ok (.up ⟨0, [], 0⟩, { s with dev := { s.dev with size := 0, qset := deviceQset, data := none } })
  | .trimNode qset (some dptr) => .access (trimNodeStep qset dptr)
  | .trimSlot qset dptr array next i n => .access (trimSlotStep qset dptr array next i n)
  | .trimNext qset dptr => .access (trimNextStep qset dptr)
  | .load x signal => .load fun g => .down x signal g
  | .down x signal g => .down signal (x.locked g) (.ret ⟨-eRESTARTSYS, [], x.ppos⟩)
  | .size x g => .access fun s =>
      .ok (if s.dev.size ≤ toULong x.ppos then .up ⟨0, [], x.ppos⟩ else .locate x g, s)
  | .locate x g => .access fun s =>
      (Chardev.locate g.quantum g.itemsize x.ppos).map fun place => (.data x g place, s)
  | .data x g place => .access (dataStep env x g place)
  | .follow x g place n qs => .access (followStep env x g place qs n)
  | .slot x g place dptr => .access (slotStep x g place dptr)
  | .array x g place dptr => .access (arrayStep env x g place dptr)
  | .quantum x g place array => .access (quantumStep env x g place array)
  | .copy x g place slot => .access (copyStep x g place slot)
  | .grow len ppos => .access (growStep len ppos)
  | .up r => .up (.ret r)
  | .ret r => .done r

def deviceSem : Semaphore Kernel where
  count s := s.dev.sem
  down signal s := (downInterruptible signal s.dev).map fun dev => { s with dev }
  up s := { s with dev := up s.dev }
  count_down {signal s s'} hdown := by
    obtain ⟨dev, hdev, rfl⟩ := Option.map_eq_some_iff.mp hdown
    unfold downInterruptible at hdev
    split at hdev
    · cases hdev
    · rename_i hfree
      cases hdev
      show s.dev.sem - 1 + 1 = s.dev.sem
      omega
  count_up _ := rfl

def calls (env : Kmem) : Program Call Kernel Loaded Pc Reply Oops where
  sem := deviceSem
  view s := loadGeometry s.dev
  entry := Call.entry
  action := action env

/-! ### A call that runs alone -/

/-- From one point and kernel state to another, with no other thread in between. -/
def Alone (env : Kmem) : Pc × Kernel → Pc × Kernel → Prop := Relation.ReflTransGen (calls env).Solo

theorem alone_access {env : Kmem} {p q : Pc} {f : Kernel → Except Oops (Pc × Kernel)} {s s' : Kernel}
    (ha : action env p = .access f) (hf : f s = .ok (q, s')) : Alone env (p, s) (q, s') :=
  Relation.ReflTransGen.single (Program.Solo.access ha hf)

section Alone

variable {env : Kmem} {s s' : Kernel} {h h' : Heap Block}

theorem trimSlots_alone {array : Ptr} {n i : Nat} (hrun : trimSlots array n i h = .ok h') (s : Kernel)
    (qset : Int) (dptr : Nat) (next : Ptr) :
    Alone env (.trimSlot qset dptr array next i n, { s with heap := h })
      (.trimSlot qset dptr array next (i + n) 0, { s with heap := h' }) := by
  induction n generalizing i h with
  | zero =>
      cases hrun
      exact Relation.ReflTransGen.refl
  | succ n ih =>
      obtain ⟨p, hslot, hrest⟩ := bind_eq_ok hrun
      obtain ⟨h₁, hfree, hrest⟩ := bind_eq_ok hrest
      have hstep : trimSlotStep qset dptr array next i (n + 1) { s with heap := h } =
          .ok (.trimSlot qset dptr array next (i + 1) n, { s with heap := h₁ }) := by
        simp only [trimSlotStep, hslot, hfree, ok_bind, pure_eq_ok]
      rw [show i + (n + 1) = i + 1 + n by omega]
      exact (alone_access rfl hstep).trans (ih hrest)

theorem trimArray_alone {qset : Int} {dptr : Nat} (hrun : trimArray qset dptr h = .ok h') (s : Kernel) :
    Alone env (.trimNode qset (some dptr), { s with heap := h })
      (.trimNext qset dptr, { s with heap := h' }) := by
  obtain ⟨⟨data, next⟩, hnode, hrun⟩ := bind_eq_ok hrun
  cases hdata : data.isSome with
  | false =>
      simp only [hdata] at hrun
      cases hrun
      apply alone_access rfl
      simp only [trimNodeStep, hnode, ok_bind, hdata]
      rfl
  | true =>
      simp only [hdata] at hrun
      obtain ⟨h₁, hslots, hrun⟩ := bind_eq_ok hrun
      obtain ⟨h₂, hfree, hstore⟩ := bind_eq_ok hrun
      have hfirst : trimNodeStep qset dptr { s with heap := h } =
          .ok (.trimSlot qset dptr data next 0 qset.toNat, { s with heap := h }) := by
        simp only [trimNodeStep, hnode, ok_bind, hdata]
        rfl
      have hlast : trimSlotStep qset dptr data next (0 + qset.toNat) 0 { s with heap := h₁ } =
          .ok (.trimNext qset dptr, { s with heap := h' }) := by
        simp only [trimSlotStep, hfree, hstore, ok_bind, pure_eq_ok]
      exact (alone_access rfl hfirst).trans
        ((trimSlots_alone hslots s qset dptr next).trans (alone_access rfl hlast))

theorem trimNodes_alone {qset : Int} {fuel : Nat} {dptr : Ptr}
    (hrun : trimNodes qset fuel dptr h = .ok h') (s : Kernel) :
    Alone env (.trimNode qset dptr, { s with heap := h })
      (.trimNode qset none, { s with heap := h' }) := by
  induction fuel generalizing dptr h with
  | zero =>
      cases dptr with
      | none =>
          cases hrun
          exact Relation.ReflTransGen.refl
      | some dptr => cases hrun
  | succ fuel ih =>
      cases dptr with
      | none =>
          cases hrun
          exact Relation.ReflTransGen.refl
      | some dptr =>
          obtain ⟨h₁, harray, hrun⟩ := bind_eq_ok hrun
          obtain ⟨⟨data, next⟩, hnode, hrun⟩ := bind_eq_ok hrun
          obtain ⟨h₂, hfree, hrest⟩ := bind_eq_ok hrun
          have hnext : trimNextStep qset dptr { s with heap := h₁ } =
              .ok (.trimNode qset next, { s with heap := h₂ }) := by
            simp only [trimNextStep, hnode, hfree, ok_bind, pure_eq_ok]
          exact (trimArray_alone harray s).trans ((alone_access rfl hnext).trans (ih hrest))

theorem deviceTrim_alone (hrun : deviceTrim s = .ok s') :
    Alone env (.trim, s) (.up ⟨0, [], 0⟩, s') := by
  obtain ⟨heap, hnodes, hrun⟩ := bind_eq_ok hrun
  cases hrun
  exact (alone_access rfl rfl).trans ((trimNodes_alone hnodes s).trans (alone_access rfl rfl))

variable {x : Transfer} {g : Loaded} {place : Place}

theorem followList_alone {n qs : Nat} {p : Ptr} (hrun : followList env n qs h = .ok (p, h'))
    (s : Kernel) : Alone env (.follow x g place n qs, { s with heap := h })
      (x.followed g place p, { s with heap := h' }) := by
  induction n generalizing qs h with
  | zero =>
      cases hrun
      exact alone_access rfl rfl
  | succ n ih =>
      obtain ⟨⟨data, next⟩, hnode, hrun⟩ := bind_eq_ok hrun
      cases next with
      | some next =>
          have hstep : followStep env x g place qs (n + 1) { s with heap := h } =
              .ok (.follow x g place n next, { s with heap := h }) := by
            simp only [followStep, hnode, ok_bind]
          exact (alone_access rfl hstep).trans (ih hrun)
      | none =>
          rcases hk : kmalloc env h 16 (fun _ => .deviceQset none none) with ⟨_ | next, h₁⟩
          · simp only [hk] at hrun
            cases hrun
            apply alone_access rfl
            simp only [followStep, hnode, ok_bind, hk]
          · simp only [hk] at hrun
            obtain ⟨h₂, hstore, hrest⟩ := bind_eq_ok hrun
            have hstep : followStep env x g place qs (n + 1) { s with heap := h } =
                .ok (.follow x g place n next, { s with heap := h₂ }) := by
              simp only [followStep, hnode, ok_bind, hk, hstore, pure_eq_ok]
            exact (alone_access rfl hstep).trans (ih hrest)

theorem deviceFollow_alone {p : Ptr} (hrun : deviceFollow env place.item s = .ok (p, s')) :
    Alone env (.data x g place, s) (x.followed g place p, s') := by
  obtain ⟨heap, dev⟩ := s
  cases hdata : dev.data with
  | some qs =>
      simp only [deviceFollow, hdata] at hrun
      obtain ⟨⟨p', heap'⟩, hfollow, hrun⟩ := bind_eq_ok hrun
      cases hrun
      have hstep : dataStep env x g place ⟨heap, dev⟩ =
          .ok (.follow x g place (place.item % 2 ^ 32).toNat qs, ⟨heap, dev⟩) := by
        simp only [dataStep, hdata]
      exact (alone_access rfl hstep).trans (followList_alone hfollow ⟨heap, dev⟩)
  | none =>
      simp only [deviceFollow, hdata] at hrun
      rcases hk : kmalloc env heap 16 (fun _ => .deviceQset none none) with ⟨_ | qs, heap₁⟩
      · simp only [hk] at hrun
        cases hrun
        apply alone_access rfl
        simp only [dataStep, hdata, hk]
      · simp only [hk] at hrun
        obtain ⟨⟨p', heap'⟩, hfollow, hrun⟩ := bind_eq_ok hrun
        cases hrun
        have hstep : dataStep env x g place ⟨heap, dev⟩ =
            .ok (.follow x g place (place.item % 2 ^ 32).toNat qs,
              ⟨heap₁, { dev with data := some qs }⟩) := by
          simp only [dataStep, hdata, hk]
        exact (alone_access rfl hstep).trans
          (followList_alone hfollow ⟨heap₁, { dev with data := some qs }⟩)

theorem locate_alone (hrun : locate g.quantum g.itemsize x.ppos = .ok place) (s : Kernel) :
    Alone env (.locate x g, s) (.data x g place, s) := by
  apply alone_access rfl
  simp only [hrun, Except.map]

theorem deviceReadBody_alone {len : Nat} {fault : Option Nat} {ppos : Int} {r : Reply}
    (hrun : deviceReadBody env g.quantum g.itemsize len fault ppos s = .ok (r, s')) :
    Alone env (.size ⟨.read len, ppos, fault⟩ g, s) (.up r, s') := by
  unfold deviceReadBody at hrun
  split at hrun
  · rename_i heof
    cases hrun
    apply alone_access rfl
    simp only [if_pos heof]
  · rename_i hbelow
    obtain ⟨place, hlocate, hrun⟩ := bind_eq_ok hrun
    obtain ⟨⟨dptr, s₁⟩, hfollow, hrun⟩ := bind_eq_ok hrun
    obtain ⟨slot, hslot, hrun⟩ := bind_eq_ok hrun
    have hsize : Alone env (.size ⟨.read len, ppos, fault⟩ g, s)
        (.locate ⟨.read len, ppos, fault⟩ g, s) := by
      apply alone_access rfl
      simp only [if_neg hbelow]
    have hhead : Alone env (.size ⟨.read len, ppos, fault⟩ g, s)
        (.slot ⟨.read len, ppos, fault⟩ g place dptr, s₁) :=
      hsize.trans ((locate_alone hlocate s).trans (deviceFollow_alone hfollow))
    refine hhead.trans ?_
    cases slot with
    | none =>
        cases hrun
        apply alone_access rfl
        simp only [slotStep, hslot, ok_bind, pure_eq_ok]
    | some q =>
        obtain ⟨bytes, hload, hrun⟩ := bind_eq_ok hrun
        have hstep : slotStep ⟨.read len, ppos, fault⟩ g place dptr s₁ =
            .ok (.copy ⟨.read len, ppos, fault⟩ g place (some q), s₁) := by
          simp only [slotStep, hslot, ok_bind, pure_eq_ok]
        refine (alone_access rfl hstep).trans (alone_access rfl ?_)
        simp only [copyStep, hload, ok_bind]
        dsimp only at hrun
        split at hrun
        · rename_i hfault
          cases hrun
          rw [if_pos hfault]
          rfl
        · rename_i hall
          obtain ⟨rfl, rfl⟩ := Prod.mk.inj (Except.ok.inj hrun)
          rw [if_neg hall]
          rfl

theorem copyIn_alone {buff : List UInt8} {fault : Option Nat} {ppos : Int} {slot : Ptr} {r : Reply}
    (hrun : copyIn g.quantum place.qPos slot buff fault ppos s = .ok (r, s')) :
    Alone env (.copy ⟨.write buff, ppos, fault⟩ g place slot, s) (.up r, s') := by
  obtain ⟨heap, hstore, hrun⟩ := bind_eq_ok hrun
  split at hrun
  · rename_i hfault
    cases hrun
    apply alone_access rfl
    simp only [copyStep, hstore, ok_bind, if_pos hfault, pure_eq_ok]
  · rename_i hall
    obtain ⟨rfl, rfl⟩ := Prod.mk.inj (Except.ok.inj hrun)
    have hstep : copyStep ⟨.write buff, ppos, fault⟩ g place slot s =
        .ok (.grow (clampLen g.quantum place.qPos buff.length)
          (toLong (ppos + clampLen g.quantum place.qPos buff.length)), { s with heap }) := by
      simp only [copyStep, hstore, ok_bind, if_neg hall, pure_eq_ok]
    exact (alone_access rfl hstep).trans (alone_access rfl rfl)

theorem deviceWriteBody_alone {buff : List UInt8} {fault : Option Nat} {ppos : Int} {r : Reply}
    (hrun : deviceWriteBody env g.quantum g.qset g.itemsize buff fault ppos s = .ok (r, s')) :
    Alone env (.locate ⟨.write buff, ppos, fault⟩ g, s) (.up r, s') := by
  obtain ⟨place, hlocate, hrun⟩ := bind_eq_ok hrun
  obtain ⟨⟨dptr, s₁⟩, hfollow, hrun⟩ := bind_eq_ok hrun
  refine (locate_alone hlocate s).trans ((deviceFollow_alone hfollow).trans ?_)
  cases dptr with
  | none =>
      cases hrun
      exact Relation.ReflTransGen.refl
  | some dptr =>
      obtain ⟨⟨array, heap₁⟩, harray, hrun⟩ := bind_eq_ok hrun
      cases array with
      | none =>
          cases hrun
          apply alone_access rfl
          simp only [arrayStep, harray, ok_bind, pure_eq_ok]
      | some array =>
          obtain ⟨⟨slot, heap₂⟩, hquantum, hrun⟩ := bind_eq_ok hrun
          have hstep : arrayStep env ⟨.write buff, ppos, fault⟩ g place dptr s₁ =
              .ok (.quantum ⟨.write buff, ppos, fault⟩ g place (some array),
                { s₁ with heap := heap₁ }) := by
            simp only [arrayStep, harray, ok_bind, pure_eq_ok]
          refine (alone_access rfl hstep).trans ?_
          cases slot with
          | none =>
              cases hrun
              apply alone_access rfl
              simp only [quantumStep, hquantum, ok_bind, pure_eq_ok]
          | some slot =>
              have hslot : quantumStep env ⟨.write buff, ppos, fault⟩ g place (some array)
                  { s₁ with heap := heap₁ } =
                  .ok (.copy ⟨.write buff, ppos, fault⟩ g place (some slot),
                    { s₁ with heap := heap₂ }) := by
                simp only [quantumStep, hquantum, ok_bind, pure_eq_ok]
              exact (alone_access rfl hslot).trans (copyIn_alone hrun)

theorem locked_alone {signal : Bool} {ppos : Int} {body : Kernel → Except Oops (Reply × Kernel)}
    {r : Reply} (hrun : locked signal ppos body s = .ok (r, s')) {p q : Pc}
    (ha : action env p = .down signal q (.ret ⟨-eRESTARTSYS, [], ppos⟩))
    (hbody : ∀ s s' r, body s = .ok (r, s') → Alone env (q, s) (.up r, s')) :
    Alone env (p, s) (.ret r, s') := by
  unfold locked at hrun
  split at hrun
  · rename_i hdown
    cases hrun
    have hnone : deviceSem.down signal s = none := by simp only [deviceSem, hdown, Option.map_none]
    exact Relation.ReflTransGen.single (Program.Solo.interrupted ha hnone)
  · rename_i dev hdown
    obtain ⟨⟨r', s₁⟩, hin, hrun⟩ := bind_eq_ok hrun
    cases hrun
    have hsome : deviceSem.down signal s = some { s with dev } := by
      simp only [deviceSem, hdown, Option.map_some]
    exact (Relation.ReflTransGen.single (Program.Solo.taken ha hsome)).trans
      ((hbody _ _ _ hin).trans (Relation.ReflTransGen.single (Program.Solo.up rfl)))

/-- A call that runs alone does what the function does. -/
theorem call_alone {c : Call} {r : Reply} (hrun : step env s c = .ok (s', r)) :
    Alone env (c.entry, s) (.ret r, s') := by
  obtain ⟨⟨r', s₁⟩, hcall, hswap⟩ := map_eq_ok hrun
  cases hswap
  cases c with
  | deviceOpen flags signal =>
      simp only [deviceOpen] at hcall
      split at hcall
      · rename_i hwronly
        rw [Call.entry, if_pos hwronly]
        apply locked_alone hcall rfl
        intro s s' r hbody
        obtain ⟨s₂, htrim, hbody⟩ := bind_eq_ok hbody
        cases hbody
        exact deviceTrim_alone htrim
      · rename_i hother
        rw [Call.entry, if_neg hother]
        cases hcall
        exact Relation.ReflTransGen.refl
  | deviceRead ppos len signal fault =>
      have hload : Alone env (Call.entry (.deviceRead ppos len signal fault), s)
          (.down ⟨.read len, ppos, fault⟩ signal (loadGeometry s.dev), s) :=
        Relation.ReflTransGen.single (Program.Solo.load rfl)
      exact hload.trans (locked_alone hcall rfl fun _ _ _ => deviceReadBody_alone)
  | deviceWrite ppos buff signal fault =>
      have hload : Alone env (Call.entry (.deviceWrite ppos buff signal fault), s)
          (.down ⟨.write buff, ppos, fault⟩ signal (loadGeometry s.dev), s) :=
        Relation.ReflTransGen.single (Program.Solo.load rfl)
      exact hload.trans (locked_alone hcall rfl fun _ _ _ => deviceWriteBody_alone)
  | deviceRelease =>
      cases hcall
      exact Relation.ReflTransGen.refl

end Alone

/-- A thread that makes a call while the others wait does what the call does, and reports its reply. -/
theorem call_runs {ι : Type} [DecidableEq ι] {env : Kmem} {s : Pool ι Kernel Pc} {t : ι}
    (hidle : s.point t = none) {c : Call} {k : Kernel} {r : Reply}
    (hcall : step env s.shared c = .ok (k, r)) :
    ∃ n s' os, runSteps (calls env).step s
        (.start t c :: (List.replicate n (.advance t) ++ [.advance t])) =
          .ok (s', os ++ [some (t, r)]) ∧
      s'.shared = k ∧ s'.point = s.point := by
  let s₀ : Pool ι Kernel Pc := { s.goto t c.entry with touched := s.touched.erase t }
  have hpoint₀ : s₀.point t = some c.entry := Function.update_self t _ _
  obtain ⟨n, s₁, os, hrun, hshared, hpoint⟩ := solo_run (call_alone hcall) hpoint₀ rfl
  have hret : s₁.point t = some (.ret r) := by rw [hpoint, Function.update_self]
  have hlast : runSteps (calls env).step s₁ [.advance t] =
      .ok ({ s₁ with point := Function.update s₁.point t none }, [some (t, r)]) := by
    refine runSteps_cons_ok ?_ [] rfl
    rw [step_advance hret]
    rfl
  refine ⟨n, _, none :: os, runSteps_cons_ok rfl _ (runSteps_append_ok hrun hlast), hshared, ?_⟩
  show Function.update s₁.point t none = s.point
  rw [hpoint, Function.update_idem, ← hidle]
  show Function.update (Function.update s.point t _) t (s.point t) = s.point
  rw [Function.update_idem, Function.update_eq_self]

end CharDriver.Chardev
