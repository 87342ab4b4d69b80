import CharDriver.BaseLinear
import CharDriver.ChardevFileMap
import CharDriver.ChardevSemaphore

/-! The device under any interleaving of small steps. Where every transfer that takes the semaphore
finds the geometry it has loaded, no step leaves defined behaviour, and what the callers see is what
they would see of a device that answers each call in one step. With `DEVICE_QSET` slots from the start
no trim changes the geometry: then every interleaving is one of calls on an atomic file. -/

namespace CharDriver.Chardev

open Base

/-- The offset of a transfer that is about to take the semaphore is in range. -/
def Pc.InRange (k : Kernel) : Pc → Prop
  | .down x false _ => x.ppos / (k.dev.quantum * k.dev.qset) ≤ intMax
  | _ => True

/-- Its geometry is the device's. -/
def Pc.Current (k : Kernel) : Pc → Prop
  | .down _ false g => g = loadGeometry k.dev
  | _ => True

instance pcInRangeDecidable (k : Kernel) : ∀ p : Pc, Decidable (p.InRange k)
  | .down _ false _ => inferInstanceAs (Decidable (_ ≤ _))
  | .down _ true _ => inferInstanceAs (Decidable True)
  | .openDown _ | .trim | .trimNode _ _ | .trimSlot _ _ _ _ _ _ | .trimNext _ _ | .load _ _
  | .size _ _ | .locate _ _ | .data _ _ _ | .follow _ _ _ _ _ | .slot _ _ _ _ | .array _ _ _ _
  | .quantum _ _ _ _ | .copy _ _ _ _ | .grow _ _ | .up _ | .ret _ => inferInstanceAs (Decidable True)

instance pcCurrentDecidable (k : Kernel) : ∀ p : Pc, Decidable (p.Current k)
  | .down _ false _ => inferInstanceAs (Decidable (_ = _))
  | .down _ true _ => inferInstanceAs (Decidable True)
  | .openDown _ | .trim | .trimNode _ _ | .trimSlot _ _ _ _ _ _ | .trimNext _ _ | .load _ _
  | .size _ _ | .locate _ _ | .data _ _ _ | .follow _ _ _ _ _ | .slot _ _ _ _ | .array _ _ _ _
  | .quantum _ _ _ _ | .copy _ _ _ _ | .grow _ _ | .up _ | .ret _ => inferInstanceAs (Decidable True)

/-- The points of a call that waits for the semaphore. -/
def Call.Waits : Call → Pc → Prop
  | .deviceOpen flags signal, p => isWronly flags = true ∧ p = .openDown signal
  | .deviceRead ppos len signal fault, p =>
      p = .load ⟨.read len, ppos, fault⟩ signal ∨ ∃ g, p = .down ⟨.read len, ppos, fault⟩ signal g
  | .deviceWrite ppos buff signal fault, p =>
      p = .load ⟨.write buff, ppos, fault⟩ signal ∨ ∃ g, p = .down ⟨.write buff, ppos, fault⟩ signal g
  | .deviceRelease, _ => False

def Call.signal : Call → Bool
  | .deviceOpen _ signal => signal
  | .deviceRead _ _ signal _ => signal
  | .deviceWrite _ _ signal _ => signal
  | .deviceRelease => false

/-- Where the call takes effect, a signal keeps it from doing anything or its offset is in range. -/
def Call.Fair (k : Kernel) (c : Call) : Prop := c.signal = true ∨ c.InRange k.dev

/-- The device is in order, and its quantum is what it was in the beginning. -/
def InOrder (quantum : Nat) (k : Kernel) : Prop := ∃ st, Refined k st ∧ st.quantum = quantum

section

variable (env : Kmem) {s : Kernel} {st : Store} {quantum : Nat}

/-- A signal keeps a call from doing anything, wherever its offset is. -/
theorem step_signal {c : Call} (hc : c.signal = true) :
    step env s c = .ok (s, (st.step env c).1) ∧ (st.step env c).2 = st := by
  cases c with
  | deviceOpen flags signal =>
      obtain rfl : signal = true := hc
      by_cases hw : isWronly flags = true
      · simp [step, deviceOpen, Store.step, hw, locked_signal, Except.map]
      · simp [step, deviceOpen, Store.step, hw, Except.map]
  | deviceRead ppos len signal fault =>
      obtain rfl : signal = true := hc
      simp [step, deviceRead, deviceReadLocked, Store.step, locked_signal, Except.map]
  | deviceWrite ppos buff signal fault =>
      obtain rfl : signal = true := hc
      simp [step, deviceWrite, deviceWriteLocked, Store.step, locked_signal, Except.map]
  | deviceRelease => cases hc

theorem step_fair (hs : Refined s st) (hfits : st.quantum * deviceQset ≤ intMax) {c : Call}
    (hc : c.Fair s) :
    ∃ s', step env s c = .ok (s', (st.step env c).1) ∧ Refined s' (st.step env c).2 := by
  rcases hc with hsignal | hin
  · obtain ⟨hstep, hsame⟩ := step_signal env hsignal
    exact ⟨s, hstep, hsame.symm ▸ hs⟩
  · exact step_refines env hs hfits hin

theorem step_inOrder (hfits : quantum * deviceQset ≤ intMax) {c : Call} (hs : InOrder quantum s)
    (hc : c.Fair s) : Serving (step env) (InOrder quantum) Call.Fair s c := by
  obtain ⟨st, hst, rfl⟩ := hs
  obtain ⟨s', hstep, hs'⟩ := step_fair env hst hfits hc
  exact ⟨hc, s', _, hstep, _, hs', Store.step_quantum env st c⟩

end

def Pc.Ready (k : Kernel) (p : Pc) : Prop := p.InRange k ∧ p.Current k

instance pcReadyDecidable (k : Kernel) (p : Pc) : Decidable (p.Ready k) :=
  inferInstanceAs (Decidable (_ ∧ _))

theorem down_signal {signal : Bool} {s s' : Kernel} (hdown : deviceSem.down signal s = some s') :
    signal = false := by
  cases signal with
  | false => rfl
  | true => simp [deviceSem, downInterruptible] at hdown

theorem transfer_waiting (env : Kmem) {quantum : Nat} (hfits : quantum * deviceQset ≤ intMax) {c : Call}
    {x : Transfer} {signal : Bool} {g : Loaded} (hentry : c.entry = .load x signal)
    (hsignal : c.signal = signal)
    (hin : ∀ k : Kernel, x.ppos / (k.dev.quantum * k.dev.qset) ≤ intMax → c.InRange k.dev)
    (hreply : ∀ k, c.signal = true → step env k c = .ok (k, ⟨-eRESTARTSYS, [], x.ppos⟩)) :
    (action env (.down x signal g)).Waiting (calls env) (step env) (InOrder quantum) Call.Fair
      Call.Waits (fun k p => p.Ready k) c (.down x signal g) := by
  refine ⟨fun s s' hs hready hdown => ?_, fun htrue => ?_⟩
  · obtain rfl := down_signal hdown
    obtain ⟨hrange, hcurrent⟩ := hready
    obtain rfl : g = loadGeometry s.dev := hcurrent
    refine ⟨?_, step_inOrder env hfits hs (Or.inr (hin s hrange))⟩
    show Relation.ReflTransGen _ (c.entry, s) _
    rw [hentry]
    exact (Relation.ReflTransGen.single (Program.Solo.load rfl)).trans
      (Relation.ReflTransGen.single (Program.Solo.taken rfl hdown))
  · exact ⟨_, rfl, fun k => ⟨Or.inl (hsignal.trans htrue), hreply k (hsignal.trans htrue)⟩⟩

/-- The calls are atomic but for what they load before they take the semaphore. -/
theorem calls_linear (env : Kmem) {quantum : Nat} (hfits : quantum * deviceQset ≤ intMax) :
    Linear (calls env) (step env) (InOrder quantum) Call.Fair Call.Waits fun k p => p.Ready k where
  entry c := by
    cases c with
    | deviceOpen flags signal =>
        by_cases hw : isWronly flags = true
        · exact Or.inl ⟨hw, if_pos hw⟩
        · have hentry : (calls env).entry (.deviceOpen flags signal) = .ret ⟨0, [], 0⟩ := if_neg hw
          refine Or.inr ⟨⟨0, [], 0⟩, by rw [hentry]; rfl, fun s => ⟨Or.inr trivial, ?_⟩⟩
          simp [step, deviceOpen, hw, Except.map]
    | deviceRead ppos len signal fault => exact Or.inl (Or.inl rfl)
    | deviceWrite ppos buff signal fault => exact Or.inl (Or.inl rfl)
    | deviceRelease => exact Or.inr ⟨_, rfl, fun s => ⟨Or.inr trivial, rfl⟩⟩
  waiting c p hp := by
    cases c with
    | deviceOpen flags signal =>
        obtain ⟨hw, rfl⟩ := hp
        have hentry : (calls env).entry (.deviceOpen flags signal) = .openDown signal := if_pos hw
        refine ⟨fun s s' hs _ hdown => ⟨?_, step_inOrder env hfits hs (Or.inr trivial)⟩, fun htrue => ?_⟩
        · rw [hentry]
          exact Relation.ReflTransGen.single (Program.Solo.taken rfl hdown)
        · refine ⟨_, rfl, fun k => ⟨Or.inl htrue, ?_⟩⟩
          simp [step, deviceOpen, hw, locked_signal, htrue, Except.map]
    | deviceRead ppos len signal fault =>
        rcases hp with rfl | ⟨g, rfl⟩
        · exact fun g => Or.inr ⟨g, rfl⟩
        · refine transfer_waiting env hfits rfl rfl (fun k => id) fun k hsignal => ?_
          obtain rfl : signal = true := hsignal
          simp [step, deviceRead, deviceReadLocked, locked_signal, Except.map]
    | deviceWrite ppos buff signal fault =>
        rcases hp with rfl | ⟨g, rfl⟩
        · exact fun g => Or.inr ⟨g, rfl⟩
        · refine transfer_waiting env hfits rfl rfl (fun k => id) fun k hsignal => ?_
          obtain rfl : signal = true := hsignal
          simp [step, deviceWrite, deviceWriteLocked, locked_signal, Except.map]
    | deviceRelease => exact hp.elim
  up_done p q ha := by
    cases p with
    | up r =>
        cases ha
        exact ⟨r, rfl⟩
    | trimNode qset dptr => cases dptr <;> cases ha
    | _ => cases ha
  alone s c s' r hstep := ⟨.ret r, rfl, call_alone hstep⟩

theorem inOrder_empty {quantum qset : Nat} (hg : Geometry quantum qset) :
    InOrder quantum (emptyDevice quantum qset) := ⟨_, refined_empty hg, rfl⟩

theorem quantumFits_empty {quantum qset : Nat} (hg : Geometry quantum qset) :
    QuantumFits (emptyDevice quantum qset) :=
  ⟨Int.natCast_nonneg _, Int.ofNat_le.mpr hg.quantum_le⟩

/-- Threads whose transfers find the geometry they loaded, where they take the semaphore, go through
step by step, and cannot tell the device from one whose calls are atomic. -/
theorem linearizable_of_current {ι : Type} [DecidableEq ι] (env : Kmem) {quantum qset : Nat}
    (hg : Geometry quantum qset) (hfits : quantum * deviceQset ≤ intMax) {moves : List (Move ι Call)}
    (hmoves : Admissible (calls env).step (Move.Scheduled (calls env) fun k p => p.Ready k)
      (Pool.initial (emptyDevice quantum qset)) moves) :
    Linearizable (calls env) (step env) (Serial (step env) Call.Fair (emptyDevice quantum qset) moves)
      (emptyDevice quantum qset) moves :=
  linearizable (calls_guarded env) (calls_linear env hfits) (quantumFits_empty hg) (inOrder_empty hg)
    rfl hmoves

/-- A write and a read that load the geometry at the same time; the read waits for the write. -/
def meeting : List (Move Nat Call) :=
  [.start 0 (.deviceWrite 0 [9] false none), .start 1 (.deviceRead 0 1 false none), .advance 0,
    .advance 1] ++ List.replicate 10 (.advance 0) ++ List.replicate 9 (.advance 1)

theorem linearizable_meeting :
    Linearizable (calls (.filled 7)) (step (.filled 7))
      (Serial (step (.filled 7)) Call.Fair (emptyDevice 1 1) meeting) (emptyDevice 1 1) meeting :=
  linearizable_of_current (.filled 7) ⟨by decide, by decide, by decide⟩ (by decide) (by decide +kernel)

/-! ### `DEVICE_QSET` slots -/

section Qset

variable {env : Kmem} {s s' : Kernel} {q : Pc} {x : Transfer} {g : Loaded} {place : Place}

theorem dataStep_qset (hstep : dataStep env x g place s = .ok (q, s')) : s'.dev.qset = s.dev.qset := by
  unfold dataStep at hstep
  split at hstep
  · cases hstep
    rfl
  split at hstep
  · cases hstep
    rfl
  · cases hstep
    rfl

theorem followStep_dev {n qs : Nat} (hstep : followStep env x g place qs n s = .ok (q, s')) :
    s'.dev = s.dev := by
  cases n with
  | zero =>
      cases hstep
      rfl
  | succ n =>
      obtain ⟨⟨data, next⟩, -, hstep⟩ := bind_eq_ok hstep
      cases next with
      | some next =>
          cases hstep
          rfl
      | none =>
          dsimp only at hstep
          split at hstep
          · cases hstep
            rfl
          · obtain ⟨heap, -, hstep⟩ := bind_eq_ok hstep
            cases hstep
            rfl

theorem trimSlotStep_dev {qset : Int} {dptr i n : Nat} {array next : Ptr}
    (hstep : trimSlotStep qset dptr array next i n s = .ok (q, s')) : s'.dev = s.dev := by
  cases n with
  | succ n =>
      obtain ⟨p, -, hstep⟩ := bind_eq_ok hstep
      obtain ⟨heap, -, hstep⟩ := bind_eq_ok hstep
      cases hstep
      rfl
  | zero =>
      obtain ⟨heap, -, hstep⟩ := bind_eq_ok hstep
      obtain ⟨heap', -, hstep⟩ := bind_eq_ok hstep
      cases hstep
      rfl

theorem copyStep_dev {slot : Ptr} (hstep : copyStep x g place slot s = .ok (q, s')) :
    s'.dev = s.dev := by
  unfold copyStep at hstep
  split at hstep
  · obtain ⟨bytes, -, hstep⟩ := bind_eq_ok hstep
    dsimp only at hstep
    split at hstep
    · cases hstep
      rfl
    · cases hstep
      rfl
  · obtain ⟨heap, -, hstep⟩ := bind_eq_ok hstep
    split at hstep
    · cases hstep
      rfl
    · cases hstep
      rfl

/-- Only the end of a trim sets `qset`, and always to the same value. -/
theorem access_qset {p : Pc} {f : Kernel → Except Oops (Pc × Kernel)} (ha : action env p = .access f)
    (hf : f s = .ok (q, s')) : s'.dev.qset = s.dev.qset ∨ s'.dev.qset = deviceQset := by
  cases p with
  | trim =>
      cases ha
      cases hf
      exact Or.inl rfl
  | trimNode qset dptr =>
      cases dptr with
      | none =>
          cases ha
          cases hf
          exact Or.inr rfl
      | some dptr =>
          cases ha
          obtain ⟨⟨data, next⟩, -, hf⟩ := bind_eq_ok hf
          dsimp only at hf
          split at hf
          · cases hf
            exact Or.inl rfl
          · cases hf
            exact Or.inl rfl
  | trimSlot qset dptr array next i n =>
      cases ha
      exact Or.inl (congrArg _ (trimSlotStep_dev hf))
  | trimNext qset dptr =>
      cases ha
      obtain ⟨⟨data, next⟩, -, hf⟩ := bind_eq_ok hf
      obtain ⟨heap, -, hf⟩ := bind_eq_ok hf
      cases hf
      exact Or.inl rfl
  | size x g =>
      cases ha
      cases hf
      exact Or.inl rfl
  | locate x g =>
      cases ha
      obtain ⟨place, -, heq⟩ := map_eq_ok hf
      cases heq
      exact Or.inl rfl
  | data x g place =>
      cases ha
      exact Or.inl (dataStep_qset hf)
  | follow x g place n qs =>
      cases ha
      exact Or.inl (congrArg _ (followStep_dev hf))
  | slot x g place dptr =>
      cases ha
      obtain ⟨slot, -, hf⟩ := bind_eq_ok hf
      cases slot with
      | none =>
          cases hf
          exact Or.inl rfl
      | some slot =>
          cases hf
          exact Or.inl rfl
  | array x g place dptr =>
      cases ha
      obtain ⟨⟨array, heap⟩, -, hf⟩ := bind_eq_ok hf
      cases array with
      | none =>
          cases hf
          exact Or.inl rfl
      | some array =>
          cases hf
          exact Or.inl rfl
  | quantum x g place array =>
      cases ha
      obtain ⟨⟨slot, heap⟩, -, hf⟩ := bind_eq_ok hf
      cases slot with
      | none =>
          cases hf
          exact Or.inl rfl
      | some slot =>
          cases hf
          exact Or.inl rfl
  | copy x g place slot =>
      cases ha
      exact Or.inl (congrArg _ (copyStep_dev hf))
  | grow len ppos =>
      cases ha
      cases hf
      exact Or.inl rfl
  | _ => cases ha

end Qset

/-- The device has the geometry it would have after a trim. -/
def DefaultGeometry (quantum : Nat) (k : Kernel) : Prop :=
  k.dev.quantum = quantum ∧ k.dev.qset = deviceQset

/-- A transfer at the semaphore has loaded that geometry. -/
def Pc.Default (quantum : Nat) : Pc → Prop
  | .down _ _ g => g = ⟨quantum, deviceQset, toInt (quantum * deviceQset : Nat)⟩
  | _ => True

theorem DefaultGeometry.load {quantum : Nat} {k : Kernel} (hk : DefaultGeometry quantum k) :
    loadGeometry k.dev = ⟨quantum, deviceQset, toInt (quantum * deviceQset : Nat)⟩ := by
  rw [loadGeometry, hk.1, hk.2, Int.natCast_mul]

theorem default_of_inside {quantum : Nat} {p : Pc} (hp : p.At .inside) : p.Default quantum := by
  cases p with
  | down x signal g => exact Phase.noConfusion hp.1
  | _ => trivial

theorem default_access {env : Kmem} {quantum : Nat} {phase : Phase} {p : Pc}
    {f : Kernel → Except Oops (Pc × Kernel)} (hp : p.At phase) (ha : action env p = .access f) :
    (Action.access f).Guarded (calls env) (DefaultGeometry quantum)
      (fun phase p => p.At phase ∧ p.Default quantum) Out phase := by
  obtain rfl := inside_of_access hp ha
  refine ⟨rfl, fun s q s' hs hf => ?_⟩
  have hstep := access_proceeds hp ha hf
  refine ⟨⟨hstep.inside, default_of_inside hstep.inside⟩, ⟨hstep.quantum.trans hs.1, ?_⟩, hstep.sem⟩
  rcases access_qset ha hf with hkeep | hset
  · exact hkeep.trans hs.2
  · exact hset

/-- With the default geometry every path through the calls keeps it. -/
theorem default_guarded (env : Kmem) {quantum : Nat} (hquantum : quantum ≤ intMax) :
    Guarded (calls env) (DefaultGeometry quantum) (fun phase p => p.At phase ∧ p.Default quantum)
      Out where
  entry c := by
    refine ⟨(calls_guarded env).entry c, ?_⟩
    cases c with
    | deviceOpen flags signal =>
        show (if isWronly flags then Pc.openDown signal else .ret ⟨0, [], 0⟩).Default quantum
        split <;> trivial
    | _ => trivial
  action phase p hp := by
    have hbase := (calls_guarded env).action phase p hp.1
    cases p with
    | openDown signal => exact ⟨hbase.1, ⟨hbase.2.1, trivial⟩, ⟨hbase.2.2, trivial⟩⟩
    | load x signal =>
        refine ⟨hbase.1, fun s hs => ⟨⟨rfl, ?_⟩, hs.load⟩⟩
        rw [show (calls env).view s = _ from hs.load]
        exact ⟨Int.natCast_nonneg _, Int.ofNat_le.mpr hquantum⟩
    | down x signal g =>
        exact ⟨hbase.1, ⟨hbase.2.1, default_of_inside hbase.2.1⟩, ⟨hbase.2.2, trivial⟩⟩
    | up r => exact ⟨hbase.1, ⟨hbase.2, trivial⟩⟩
    | ret r => exact hbase
    | trimNode qset dptr => cases dptr <;> exact default_access hp.1 rfl
    | _ => exact default_access hp.1 rfl
  ok_down signal s s' hs hdown := by
    rw [deviceSem_down hdown]
    exact hs
  ok_up s hs := hs

/-- The moves of threads whose transfers are in range. -/
def Ranged {ι : Type} (env : Kmem) (s : Pool ι Kernel Pc) : Move ι Call → Prop :=
  Move.Scheduled (calls env) (fun k p => p.InRange k) s

instance rangedDecidable {ι : Type} (env : Kmem) (s : Pool ι Kernel Pc) (m : Move ι Call) :
    Decidable (Ranged env s m) :=
  inferInstanceAs (Decidable (Move.Scheduled _ _ s m))

/-- With the default geometry no transfer finds another one than it has loaded. -/
theorem ready_of_default {ι : Type} [DecidableEq ι] (env : Kmem) {quantum : Nat}
    (hg : Geometry quantum deviceQset) {moves : List (Move ι Call)}
    (hmoves : Admissible (calls env).step (Ranged env) (Pool.initial (emptyDevice quantum deviceQset))
      moves) :
    Admissible (calls env).step (Move.Scheduled (calls env) fun k p => p.Ready k)
      (Pool.initial (emptyDevice quantum deviceQset)) moves := by
  have hguarded := default_guarded env hg.quantum_le
  apply hmoves.of_invariant (fun s m s' o hs hm hstep => step_balanced hguarded hs hm.enabled hstep) ?_
    (balanced_initial ⟨rfl, rfl⟩ rfl)
  intro s m hs hm
  cases m with
  | start t c => exact hm
  | advance t =>
      refine ⟨hm.1, fun p hp => ?_⟩
      obtain ⟨hawake, hrange⟩ := hm.2 p hp
      obtain ⟨phase, ⟨-, hdefault⟩, -⟩ := hs.busy t p hp
      refine ⟨hawake, hrange, ?_⟩
      unfold Pc.Current
      split
      · exact hdefault.trans hs.ok.load.symm
      · trivial

/-- The replies of a run of fair calls without copy faults are those of a file. -/
theorem conforms_of_fair (env : Kmem) {quantum qset : Nat} (hg : Geometry quantum qset)
    (hfits : quantum * deviceQset ≤ intMax) {cs : List Call} {rs : List Reply} {k : Kernel}
    (hrun : runSteps (step env) (emptyDevice quantum qset) cs = .ok (k, rs))
    (hfair : Admissible (step env) Call.Fair (emptyDevice quantum qset) cs)
    (hfault : ∀ c ∈ cs, c.fault = none) :
    Conforms FileMap.after (FileMap.Answers env) FileMap.empty cs rs := by
  obtain ⟨k', rs', hrun', hconf, -⟩ := runSteps_conforms FileMap.after (FileMap.Answers env)
    (fun s f => ∃ st, Refined s st ∧ st.quantum = quantum ∧ f.Matches st)
    (fun s f c ⟨st, hs, hq, hm⟩ hpre => by
      obtain ⟨s', hstep, hs'⟩ := step_fair env hs (hq ▸ hfits) hpre.1
      obtain ⟨hgood, hm'⟩ := hm.step env hs.geometry.quantum_pos hpre.2
      exact ⟨s', _, hstep, hgood, _, hs', (Store.step_quantum env st c).trans hq, hm'⟩)
    cs _ _ ⟨_, refined_empty hg, rfl, FileMap.matches_empty _ rfl⟩
    (hfair.and (admissible_of_forall _ hfault))
  cases hrun.symm.trans hrun'
  exact hconf

/-- Any number of threads, in any interleaving of their steps, use the device as an atomic file. -/
theorem linearizable_file {ι : Type} [DecidableEq ι] (env : Kmem) {quantum : Nat}
    (hg : Geometry quantum deviceQset) {moves : List (Move ι Call)}
    (hfault : ∀ t c, .start t c ∈ moves → c.fault = none)
    (hmoves : Admissible (calls env).step (Ranged env) (Pool.initial (emptyDevice quantum deviceQset))
      moves) :
    Linearizable (calls env) (step env) (Conforms FileMap.after (FileMap.Answers env) FileMap.empty)
      (emptyDevice quantum deviceQset) moves := by
  refine (linearizable_of_current env hg hg.fits (ready_of_default env hg hmoves)).mono ?_
  rintro cs rs ⟨⟨k, hrun⟩, hfair, hmade⟩
  refine conforms_of_fair env hg hg.fits hrun hfair fun c hc => ?_
  obtain ⟨t, ht⟩ := hmade c hc
  exact hfault t c ht

theorem linearizable_file_meeting :
    Linearizable (calls (.filled 7)) (step (.filled 7))
      (Conforms FileMap.after (FileMap.Answers (.filled 7)) FileMap.empty) (emptyDevice 1 deviceQset)
      meeting := by
  refine linearizable_file (.filled 7) ⟨by decide, by decide, by decide⟩ ?_ (by decide +kernel)
  intro t c hc
  simp [meeting, List.replicate] at hc
  rcases hc with ⟨-, rfl⟩ | ⟨-, rfl⟩ <;> rfl

end CharDriver.Chardev
