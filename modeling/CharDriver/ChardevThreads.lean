import CharDriver.ChardevRefine

/-! Many threads on one device. `device_read` and `device_write` load `quantum` and `qset` before they
take the semaphore, so a call is two steps: the load, and the locked body with what was loaded. Where
every body that uses its geometry finds it current, the threads are served one at a time, in the order
of their bodies. A truncating open between the two steps makes it stale. -/

namespace CharDriver.Chardev

open Base

inductive Event where
  | load (thread : Nat) (c : Call)
  | body (thread : Nat)
  /-- A call that reads nothing of the device before it takes the semaphore. -/
  | whole (thread : Nat) (c : Call)
  deriving DecidableEq, Repr

/-- The kernel, and the transfers that wait between their two steps. -/
structure Threads where
  kernel : Kernel
  waiting : Nat → Option (Call × Loaded)

def Call.isTransfer : Call → Bool
  | .deviceRead .. => true
  | .deviceWrite .. => true
  | _ => false

/-- What is left of a call after its loads. -/
def Call.body (env : Kmem) (g : Loaded) : Call → Kernel → Except Oops (Reply × Kernel)
  | .deviceOpen flags signal => Chardev.deviceOpen flags signal
  | .deviceRead ppos len signal fault => deviceReadLocked env g len signal fault ppos
  | .deviceWrite ppos buff signal fault => deviceWriteLocked env g buff signal fault ppos
  | .deviceRelease => Chardev.deviceRelease

/-- A body that ends a call reports the call and its reply. -/
def threadStep (env : Kmem) (s : Threads) : Event → Except Oops (Threads × Option (Call × Reply))
  | .load t c =>
      .ok ({ s with waiting := Function.update s.waiting t (some (c, loadGeometry s.kernel.dev)) }, none)
  | .body t =>
      match s.waiting t with
      | none => .ok (s, none)
      | some (c, g) => (c.body env g s.kernel).map fun r =>
          (⟨r.2, Function.update s.waiting t none⟩, some (c, r.1))
  | .whole _ c => (step env s.kernel c).map fun r => ({ s with kernel := r.1 }, some (c, r.2))

/-- A thread makes one call at a time. -/
def Event.Enabled (s : Threads) : Event → Prop
  | .load t c => s.waiting t = none ∧ c.isTransfer = true
  | .body t => s.waiting t ≠ none
  | .whole t c => s.waiting t = none ∧ c.isTransfer = false

/-- A transfer is in range for the geometry it loads and for the one its body finds. -/
def Event.InRange (s : Threads) : Event → Prop
  | .load _ c => c.InRange s.kernel.dev
  | .body t => ∀ w ∈ s.waiting t, w.1.InRange s.kernel.dev
  | .whole _ c => c.InRange s.kernel.dev

/-- The body of the call computes with its geometry: it takes the semaphore and, for a read, does not
stop at the end of the data. -/
def Call.UsesGeometry (dev : DeviceDev) : Call → Prop
  | .deviceRead ppos _ signal _ => signal = false ∧ toULong ppos < dev.size
  | .deviceWrite _ _ signal _ => signal = false
  | _ => False

/-- A body that computes with its geometry finds what it loaded. -/
def Event.Current (s : Threads) : Event → Prop
  | .body t => ∀ w ∈ s.waiting t, w.1.UsesGeometry s.kernel.dev → w.2 = loadGeometry s.kernel.dev
  | _ => True

instance enabledDecidable (s : Threads) : ∀ e : Event, Decidable (e.Enabled s)
  | .load .. => inferInstanceAs (Decidable (_ ∧ _))
  | .body .. => inferInstanceAs (Decidable (_ ≠ _))
  | .whole .. => inferInstanceAs (Decidable (_ ∧ _))

instance eventInRangeDecidable (s : Threads) : ∀ e : Event, Decidable (e.InRange s)
  | .load .. => inferInstanceAs (Decidable (Call.InRange _ _))
  | .body t => inferInstanceAs (Decidable (∀ w ∈ s.waiting t, w.1.InRange s.kernel.dev))
  | .whole .. => inferInstanceAs (Decidable (Call.InRange _ _))

instance usesGeometryDecidable (dev : DeviceDev) : ∀ c : Call, Decidable (c.UsesGeometry dev)
  | .deviceOpen .. => inferInstanceAs (Decidable False)
  | .deviceRead .. => inferInstanceAs (Decidable (_ ∧ _))
  | .deviceWrite .. => inferInstanceAs (Decidable (_ = _))
  | .deviceRelease => inferInstanceAs (Decidable False)

instance currentDecidable (s : Threads) : ∀ e : Event, Decidable (e.Current s)
  | .load .. => inferInstanceAs (Decidable True)
  | .body t => inferInstanceAs (Decidable (∀ w ∈ s.waiting t,
      w.1.UsesGeometry s.kernel.dev → w.2 = loadGeometry s.kernel.dev))
  | .whole .. => inferInstanceAs (Decidable True)

/-- Every slot array has exactly `qset` slots, so `device_trim` walks it from end to end and a slot
number below `qset` is a slot. -/
def SlotsSized (s : Kernel) : Prop :=
  ∀ a ptrs, s.heap.get a = some (.slots ptrs) → (ptrs.length : Int) = s.dev.qset

def emptyThreads (quantum qset : Nat) : Threads := ⟨emptyDevice quantum qset, fun _ => none⟩

/-- The interleaving goes through, answers as its calls do one at a time in the order of their bodies,
leaves the device in the same state, and all slot arrays fit. -/
def Atomic (env : Kmem) (quantum qset : Nat) (events : List Event) : Prop :=
  ∃ s os, runSteps (threadStep env) (emptyThreads quantum qset) events = .ok (s, os) ∧
    run env (emptyDevice quantum qset) (served os).1 = .ok (s.kernel, (served os).2) ∧
    SlotsSized s.kernel

/-- The events are those of threads, each making one call at a time, over offsets in range. -/
def Interleaving (env : Kmem) (quantum qset : Nat) (events : List Event) : Prop :=
  Admissible (threadStep env) (fun s e => e.Enabled s ∧ e.InRange s) (emptyThreads quantum qset) events

def GeometryCurrent (env : Kmem) (quantum qset : Nat) (events : List Event) : Prop :=
  Admissible (threadStep env) (fun s e => e.Current s) (emptyThreads quantum qset) events

instance interleavingDecidable (env : Kmem) (quantum qset : Nat) (events : List Event) :
    Decidable (Interleaving env quantum qset events) :=
  inferInstanceAs (Decidable (Admissible _ _ _ events))

instance geometryCurrentDecidable (env : Kmem) (quantum qset : Nat) (events : List Event) :
    Decidable (GeometryCurrent env quantum qset events) :=
  inferInstanceAs (Decidable (Admissible _ _ _ events))

theorem step_eq_body (env : Kmem) (s : Kernel) (c : Call) :
    step env s c = (c.body env (loadGeometry s.dev) s).map Prod.swap := by
  cases c <;> rfl

theorem deviceReadBody_eof (env : Kmem) (quantum itemsize : Int) (len : Nat) (fault : Option Nat)
    {ppos : Int} {s : Kernel} (h : s.dev.size ≤ toULong ppos) :
    deviceReadBody env quantum itemsize len fault ppos s = .ok (⟨0, [], ppos⟩, s) := by
  rw [deviceReadBody, if_pos h]

theorem body_eq_of_unused (env : Kmem) (g g' : Loaded) {c : Call} {s : Kernel}
    (h : ¬c.UsesGeometry s.dev) : c.body env g s = c.body env g' s := by
  cases c with
  | deviceRead ppos len signal fault =>
      cases signal with
      | true => simp only [Call.body, deviceReadLocked, locked_signal]
      | false =>
          have hle : s.dev.size ≤ toULong ppos := by simpa [Call.UsesGeometry] using h
          simp only [Call.body, deviceReadLocked, locked, downInterruptible]
          by_cases hsem : s.dev.sem = 0
          · simp [hsem]
          · simp [hsem, deviceReadBody_eof, hle]
  | deviceWrite ppos buff signal fault =>
      obtain rfl : signal = true := by simpa [Call.UsesGeometry] using h
      simp only [Call.body, deviceWriteLocked, locked_signal]
  | _ => rfl

theorem Event.Current.body_eq (env : Kmem) {s : Threads} {t : Nat} {c : Call} {g : Loaded}
    (h : (Event.body t).Current s) (hw : s.waiting t = some (c, g)) :
    c.body env g s.kernel = c.body env (loadGeometry s.kernel.dev) s.kernel := by
  by_cases huse : c.UsesGeometry s.kernel.dev
  · obtain rfl : g = loadGeometry s.kernel.dev := h (c, g) hw huse
    rfl
  · exact body_eq_of_unused env _ _ huse

theorem Refined.slotsSized {s : Kernel} {st : Store} (hs : Refined s st) : SlotsSized s := by
  obtain ⟨⟨L, hL⟩, -⟩ := hs
  intro a ptrs ha
  rw [hL.heap.slots_length ha, hL.qset]

def InStep (quantum : Nat) (s : Threads) (k : Kernel) : Prop :=
  s.kernel = k ∧ ∃ st, Refined k st ∧ st.quantum = quantum

theorem threadStep_serves (env : Kmem) {quantum : Nat} (hfits : quantum * deviceQset ≤ intMax)
    (s : Threads) (k : Kernel) (e : Event) (hs : InStep quantum s k)
    (he : (e.Enabled s ∧ e.InRange s) ∧ e.Current s) :
    ∃ s' o, threadStep env s e = .ok (s', o) ∧ Serves (step env) (InStep quantum) s' k o := by
  obtain ⟨rfl, st, hst, rfl⟩ := hs
  obtain ⟨⟨henabled, hin⟩, hcurrent⟩ := he
  cases e with
  | load t c => exact ⟨_, _, rfl, rfl, st, hst, rfl⟩
  | body t =>
      cases hw : s.waiting t with
      | none => exact absurd hw henabled
      | some w =>
          obtain ⟨c, g⟩ := w
          have hc : c.InRange s.kernel.dev := hin (c, g) hw
          obtain ⟨k', hstep, hk'⟩ := step_refines env hst hfits hc
          have hbody := (step_eq_body env s.kernel c).symm.trans hstep
          rw [← hcurrent.body_eq env hw] at hbody
          obtain ⟨⟨r, k''⟩, hrun, hr⟩ := map_eq_ok hbody
          cases hr
          refine ⟨⟨k'', Function.update s.waiting t none⟩, some (c, _), ?_, k'', hstep, rfl, _, hk',
            Store.step_quantum env st c⟩
          simp only [threadStep, hw, hrun, Except.map]
  | whole t c =>
      obtain ⟨k', hstep, hk'⟩ := step_refines env hst hfits hin
      refine ⟨{ s with kernel := k' }, some (c, (st.step env c).1), ?_, k', hstep, rfl, _, hk',
        Store.step_quantum env st c⟩
      simp only [threadStep, hstep, Except.map]

/-- Threads whose bodies find their geometry current are served one at a time. -/
theorem atomic_of_current (env : Kmem) {quantum qset : Nat} (hg : Geometry quantum qset)
    (hfits : quantum * deviceQset ≤ intMax) {events : List Event}
    (hevents : Interleaving env quantum qset events)
    (hcurrent : GeometryCurrent env quantum qset events) : Atomic env quantum qset events := by
  obtain ⟨s, k, os, hrun, hserial, rfl, st, hs, -⟩ := runSteps_serialize
    (threadStep_serves env hfits) events _ _ ⟨rfl, _, refined_empty hg, rfl⟩ (hevents.and hcurrent)
  exact ⟨s, os, hrun, hserial, hs.slotsSized⟩

/-- Two threads whose transfers overlap, with nothing that changes the geometry in between. -/
theorem atomic_overlap : Atomic (.filled 7) 1 1
    [.load 0 (.deviceWrite 0 [9] false none), .load 1 (.deviceRead 0 1 false none), .body 0, .body 1] :=
  atomic_of_current (.filled 7) ⟨by decide, by decide, by decide⟩ (by decide) (by decide) (by decide)

/-- A truncating open between the load and the body of a write: the write allocates a slot array of
the old size, and the next truncating open runs off its end. -/
theorem not_atomic_staleQset :
    Interleaving (.filled 7) 1 1 [.load 0 (.deviceWrite 0 [9] false none),
        .whole 1 (.deviceOpen 1 false), .body 0, .whole 1 (.deviceOpen 1 false)] ∧
      ¬Atomic (.filled 7) 1 1 [.load 0 (.deviceWrite 0 [9] false none),
        .whole 1 (.deviceOpen 1 false), .body 0, .whole 1 (.deviceOpen 1 false)] := by
  refine ⟨by decide, ?_⟩
  rintro ⟨s, os, hrun, -⟩
  have hbad : (runSteps (threadStep (.filled 7)) (emptyThreads 1 1)
      [.load 0 (.deviceWrite 0 [9] false none), .whole 1 (.deviceOpen 1 false), .body 0,
        .whole 1 (.deviceOpen 1 false)]).map (fun _ => ()) = .error .badAddress := by decide +kernel
  rw [hrun] at hbad
  exact absurd hbad (by simp [Except.map])

end CharDriver.Chardev
