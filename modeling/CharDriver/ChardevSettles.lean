import CharDriver.BaseSettles
import CharDriver.ChardevLinear

/-! The threads of the device come to rest. With `DEVICE_QSET` slots from the start, any number of
threads may call, be interrupted and fail in any order: once no new call is made, every schedule of
their steps is finite, no step of it leaves defined behaviour, and where it ends every call has
returned, the semaphore is up and the device is in order. No thread waits for ever, and none holds the
semaphore for ever. -/

namespace CharDriver.Chardev

open Base

/-- How far a call is from its end, as far as the semaphore goes. -/
def Pc.stage : Pc → ℕ
  | .load _ _ => 4
  | .openDown _ | .down _ _ _ => 3
  | .ret _ => 1
  | _ => 2

/-- The offset of a transfer that may yet take the semaphore is in range. -/
def Pc.Within (quantum : Nat) : Pc → Prop
  | .load x false | .down x false _ => x.ppos / ((quantum : Int) * (deviceQset : Int)) ≤ intMax
  | _ => True

theorem stage_of_inside {p : Pc} (hp : p.At .inside) : p.stage = 2 := by
  cases p with
  | openDown signal => exact Phase.noConfusion hp
  | load x signal => exact Phase.noConfusion hp
  | down x signal g => exact Phase.noConfusion hp.1
  | ret r => rcases hp with hphase | ⟨hphase, -⟩ <;> exact Phase.noConfusion hphase
  | _ => rfl

theorem within_of_inside {quantum : Nat} {p : Pc} (hp : p.At .inside) : p.Within quantum := by
  cases p with
  | load x signal => exact Phase.noConfusion hp
  | down x signal g => exact Phase.noConfusion hp.1
  | _ => trivial

theorem access_descends (env : Kmem) {p : Pc} {f : Kernel → Except Oops (Pc × Kernel)}
    (ha : action env p = .access f) :
    (Action.access f : Action Kernel Loaded Pc Reply Oops).Descends Pc.At Pc.stage
      (fun p k => p.rank k) p := by
  intro s q s' hp hf
  have hstep := access_proceeds hp ha hf
  exact ⟨(stage_of_inside hstep.inside).trans (stage_of_inside hp).symm, hstep.rank⟩

theorem calls_descends (env : Kmem) : Descends (calls env) Pc.At Pc.stage fun p k => p.rank k where
  pos p := by cases p <;> simp [Pc.stage]
  action p := by
    cases p with
    | openDown signal => exact ⟨by simp [Pc.stage], by simp [Pc.stage]⟩
    | load x signal => exact fun g => by simp [Pc.stage]
    | down x signal g =>
        refine ⟨?_, by simp [Pc.stage]⟩
        show (x.locked g).stage < 3
        unfold Transfer.locked
        split <;> simp [Pc.stage]
    | up r => simp [Pc.stage, calls, action, Action.Descends]
    | ret r => trivial
    | trimNode qset dptr => cases dptr <;> exact access_descends env rfl
    | _ => exact access_descends env rfl

/-- What the points of the threads lead to stays in range. -/
theorem leads_within {env : Kmem} {quantum : Nat} {phase : Phase} {p : Pc} (hp : p.At phase)
    (hwithin : p.Within quantum) : (action env p).Leads (Pc.Within quantum) := by
  have haccess {f : Kernel → Except Oops (Pc × Kernel)} (ha : action env p = .access f) :
      (Action.access f : Action Kernel Loaded Pc Reply Oops).Leads (Pc.Within quantum) := by
    intro s q s' hf
    obtain rfl := inside_of_access hp ha
    exact within_of_inside (access_proceeds hp ha hf).inside
  cases p with
  | openDown signal => exact ⟨trivial, trivial⟩
  | load x signal =>
      intro g
      cases signal with
      | false => exact hwithin
      | true => trivial
  | down x signal g =>
      refine ⟨?_, trivial⟩
      show (x.locked g).Within quantum
      unfold Transfer.locked
      split <;> trivial
  | up r => trivial
  | ret r => trivial
  | trimNode qset dptr => cases dptr <;> exact haccess rfl
  | _ => exact haccess rfl

theorem entry_within {quantum : Nat} {c : Call}
    (hc : c.InRange (emptyDevice quantum deviceQset).dev) : c.entry.Within quantum := by
  cases c with
  | deviceOpen flags signal =>
      show (if isWronly flags then Pc.openDown signal else .ret ⟨0, [], 0⟩).Within quantum
      split <;> trivial
  | deviceRead ppos len signal fault =>
      cases signal with
      | false => exact hc
      | true => trivial
  | deviceWrite ppos buff signal fault =>
      cases signal with
      | false => exact hc
      | true => trivial
  | deviceRelease => trivial

structure Finished {ι : Type} (quantum : Nat) (s : Pool ι Kernel Pc) : Prop where
  returned : ∀ t, s.point t = none
  sem : s.shared.dev.sem = 1
  inOrder : InOrder quantum s.shared

structure Orderly {ι : Type} (env : Kmem) (quantum : Nat) (s : Pool ι Kernel Pc) : Prop where
  mirrors : ∃ a, Mirrors (calls env) (step env) (InOrder quantum) Call.Fair Call.Waits QuantumFits
    Pc.At s a
  default : Balanced (calls env) (DefaultGeometry quantum) (fun phase p => p.At phase ∧ p.Default quantum) s
  within : ∀ t p, s.point t = some p → p.Within quantum

section

variable {ι : Type} {env : Kmem} {quantum : Nat} {s : Pool ι Kernel Pc}

theorem Orderly.ready (h : Orderly env quantum s) {t : ι} {p : Pc} (hp : s.point t = some p) :
    p.Ready s.shared := by
  have hwithin := h.within t p hp
  obtain ⟨phase, ⟨-, hdefault⟩, -⟩ := h.default.busy t p hp
  have hgeometry := h.default.ok
  cases p with
  | down x signal g =>
      cases signal with
      | true => exact ⟨trivial, trivial⟩
      | false =>
          refine ⟨?_, hdefault.trans hgeometry.load.symm⟩
          show x.ppos / (s.shared.dev.quantum * s.shared.dev.qset) ≤ intMax
          rw [hgeometry.1, hgeometry.2]
          exact hwithin
  | _ => exact ⟨trivial, trivial⟩

variable [DecidableEq ι] (hg : Geometry quantum deviceQset)
include hg

/-- An awake thread goes on, and a new call starts, without leaving the order. -/
theorem Orderly.move (h : Orderly env quantum s) {m : Move ι Call}
    (hm : m.Scheduled (calls env) (fun _ _ => True) s)
    (hrange : ∀ t c, m = .start t c → c.InRange (emptyDevice quantum deviceQset).dev) :
    ∃ s' o, (calls env).step s m = .ok (s', o) ∧ Orderly env quantum s' := by
  have hready : m.Scheduled (calls env) (fun k p => p.Ready k) s := by
    cases m with
    | start t c => exact hm
    | advance t => exact ⟨hm.1, fun p hp => ⟨(hm.2 p hp).1, h.ready hp⟩⟩
  obtain ⟨a, hmirrors⟩ := h.mirrors
  obtain ⟨s', o, hstep, -, a', -, -, -, -, hmirrors'⟩ :=
    hmirrors.move (calls_guarded env) (calls_linear env hg.fits) hready
  refine ⟨s', o, hstep, ⟨a', hmirrors'⟩,
    step_balanced (default_guarded env hg.quantum_le) h.default hm.enabled hstep, ?_⟩
  refine step_leads h.within (fun t p hp => ?_) (fun t c hstart => entry_within (hrange t c hstart)) hstep
  obtain ⟨phase, ⟨hat, -⟩, -⟩ := h.default.busy t p hp
  exact leads_within hat (h.within t p hp)

omit [DecidableEq ι] in
theorem orderly_initial (env : Kmem) :
    Orderly env quantum (Pool.initial (emptyDevice quantum deviceQset) : Pool ι Kernel Pc) where
  mirrors := ⟨_, mirrors_initial (quantumFits_empty hg) (inOrder_empty hg) rfl⟩
  default := balanced_initial ⟨rfl, rfl⟩ rfl
  within _ _ h := by cases h

omit [DecidableEq ι] hg in
/-- Where nobody is awake, nobody runs. -/
theorem Orderly.finished (h : Orderly env quantum s)
    (hasleep : ∀ t, ¬(Move.advance t : Move ι Call).Scheduled (calls env) (fun _ _ => True) s) :
    Finished quantum s := by
  obtain ⟨a, hmirrors⟩ := h.mirrors
  have hsem (k : Kernel) (hpos : 0 < k.dev.sem) : deviceSem.down false k ≠ none := by
    simp [deviceSem, downInterruptible, Nat.ne_of_gt hpos]
  have hidle := hmirrors.balanced.idle_of_asleep (calls_guarded env) hsem (fun _ _ _ => trivial) hasleep
  have hempty : s.inside = ∅ :=
    Finset.eq_empty_of_forall_notMem fun t => hmirrors.balanced.idle t (hidle t)
  exact ⟨hidle, hmirrors.balanced.count_idle hidle, hmirrors.free hempty ▸ hmirrors.good⟩

/-- The threads that make the calls of a run. -/
def callers (moves : List (Move ι Call)) : Finset ι :=
  (moves.filterMap fun m => match m with
    | .start t _ => some t
    | .advance _ => none).toFinset

/-- Any number of threads, after any run of calls in range: however they go on, they come to the end of
their calls, and leave the device free and in order. -/
theorem settles (env : Kmem) {moves : List (Move ι Call)}
    (hrange : ∀ t c, .start t c ∈ moves → c.InRange (emptyDevice quantum deviceQset).dev)
    (hmoves : Admissible (calls env).step (Move.Scheduled (calls env) fun _ _ => True)
      (Pool.initial (emptyDevice quantum deviceQset)) moves) :
    ∃ s os, runSteps (calls env).step (Pool.initial (emptyDevice quantum deviceQset)) moves =
      .ok (s, os) ∧ Settles (calls env) (fun _ _ => True) (Finished quantum) s := by
  have hcond : ∀ m ∈ moves, ∀ t c, m = .start t c →
      c.InRange (emptyDevice quantum deviceQset).dev ∧ t ∈ callers moves := by
    rintro m hm t c rfl
    refine ⟨hrange t c hm, ?_⟩
    simp only [callers, List.mem_toFinset, List.mem_filterMap]
    exact ⟨_, hm, rfl⟩
  obtain ⟨s, os, hrun, hs, hT⟩ := runSteps_invariant
    (fun s => Orderly env quantum s ∧ s.Within (callers moves))
    (fun s m ⟨hs, hT⟩ ⟨hm, hstart⟩ => by
      obtain ⟨s', o, hstep, hs'⟩ := hs.move hg hm fun t c h => (hstart t c h).1
      exact ⟨s', o, hstep, hs', hT.step (fun t c h => (hstart t c h).2) hstep⟩)
    ⟨orderly_initial hg env, fun t ht => absurd rfl ht⟩
    (hmoves.and (admissible_of_forall _ hcond))
  refine ⟨s, os, hrun, settles_of_descends (calls_guarded env) (calls_descends env) ?_ ?_ ?_ hs hT⟩
  · rintro s ⟨⟨a, hmirrors⟩, -, -⟩
    exact hmirrors.balanced
  · exact fun s t hs ht => hs.move hg ht fun u c h => by cases h
  · exact fun s hs hasleep => hs.finished hasleep

end

def queueing : List (Move Nat Call) :=
  [.start 0 (.deviceWrite 0 [9] false none), .start 1 (.deviceRead 0 1 false none), .advance 0,
    .advance 1, .advance 0, .advance 0]

theorem settles_queueing :
    ∃ s os, runSteps (calls (.filled 7)).step (Pool.initial (emptyDevice 1 deviceQset)) queueing =
      .ok (s, os) ∧ Settles (calls (.filled 7)) (fun _ _ => True) (Finished 1) s := by
  refine settles ⟨by decide, by decide, by decide⟩ (.filled 7) ?_ (by decide +kernel)
  intro t c hc
  simp [queueing] at hc
  rcases hc with ⟨-, rfl⟩ | ⟨-, rfl⟩
  · exact show (0 : Int) / _ ≤ _ by decide
  · exact show (0 : Int) / _ ≤ _ by decide

end CharDriver.Chardev
