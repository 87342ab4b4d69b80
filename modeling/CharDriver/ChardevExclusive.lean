import CharDriver.ChardevLinear

/-! The device is never left locked where no transfer takes the semaphore with a geometry that is not
the device's: every step goes through, and the thread inside reaches its `up`. A write that loaded its
`qset` before a trim allocates a slot array of the wrong size; the next open that truncates frees beyond
the end of the array, and stays inside. -/

namespace CharDriver.Chardev

open Base

/-- The semaphore is balanced and exclusive, and the thread inside gets out. -/
structure Exclusive {ι : Type} [DecidableEq ι] (env : Kmem) (s : Pool ι Kernel Pc) : Prop
    extends Excludes env s where
  leaves : ∀ t ∈ s.inside, GetsOut (calls env) s t

/-- Beside the threads there is a device in order that answers each call in one step. -/
def Paralleled {ι : Type} (env : Kmem) (quantum : Nat) (s : Pool ι Kernel Pc) : Prop :=
  ∃ a, Mirrors (calls env) (step env) (InOrder quantum) Call.Fair Call.Waits QuantumFits Pc.At s a

theorem ready_of_inside {k : Kernel} {p : Pc} (hp : p.At .inside) : p.Ready k := by
  cases p with
  | down x signal g => exact Phase.noConfusion hp.1
  | _ => exact ⟨trivial, trivial⟩

section

variable {ι : Type} {env : Kmem} {quantum : Nat} {s : Pool ι Kernel Pc}

theorem Paralleled.balanced (h : Paralleled env quantum s) :
    Balanced (calls env) QuantumFits Pc.At s := by
  obtain ⟨a, ha⟩ := h
  exact ha.balanced

theorem Paralleled.scheduled (h : Paralleled env quantum s) {t : ι} (ht : t ∈ s.inside) :
    (Move.advance t : Move ι Call).Scheduled (calls env) (fun k p => p.Ready k) s := by
  refine ⟨fun hidle => h.balanced.idle t hidle ht, fun p hp => ?_⟩
  obtain ⟨phase, hat, hin, -⟩ := h.balanced.busy t p hp
  obtain rfl := hin.mp ht
  have hguard := (calls_guarded env).action .inside p hat
  refine ⟨?_, ready_of_inside hat⟩
  cases ha : (calls env).action p with
  | down signal taken interrupted =>
      rw [ha] at hguard
      exact Phase.noConfusion hguard.1
  | _ => trivial

variable [DecidableEq ι]

theorem Paralleled.move (hfits : quantum * deviceQset ≤ intMax) (h : Paralleled env quantum s)
    {m : Move ι Call} (hm : m.Scheduled (calls env) (fun k p => p.Ready k) s) :
    ∃ s' o, (calls env).step s m = .ok (s', o) ∧ Paralleled env quantum s' := by
  obtain ⟨a, ha⟩ := h
  obtain ⟨s', o, hstep, -, a', -, -, -, -, ha'⟩ :=
    ha.move (calls_guarded env) (calls_linear env hfits) hm
  exact ⟨s', o, hstep, a', ha'⟩

theorem Paralleled.exclusive (hfits : quantum * deviceQset ≤ intMax) (h : Paralleled env quantum s) :
    Exclusive env s where
  toExcludes := excludes_of_balanced h.balanced
  leaves t ht := by
    obtain ⟨p, hp⟩ := Option.ne_none_iff_exists'.mp fun hnone => h.balanced.idle t hnone ht
    exact getsOut_of_rank (calls_guarded env)
      (fun p f s q s' hp ha hf => (access_proceeds hp ha hf).rank) (fun s hs => hs.balanced)
      (fun s hs hin => hs.move hfits (hs.scheduled hin)) hp h

end

/-- Any number of threads, in any interleaving of their steps, from a device in order: where every
transfer that takes the semaphore finds the geometry it has loaded, and its offset in range, the steps
go through and the device is never left locked. -/
theorem exclusive_of_current {ι : Type} [DecidableEq ι] (env : Kmem) {quantum : Nat} {k : Kernel}
    (hk : InOrder quantum k) (hfits : quantum * deviceQset ≤ intMax) {moves : List (Move ι Call)}
    (hmoves : Admissible (calls env).step (Move.Scheduled (calls env) fun k p => p.Ready k)
      (Pool.initial k) moves) :
    ∃ s os, runSteps (calls env).step (Pool.initial k) moves = .ok (s, os) ∧ Exclusive env s := by
  obtain ⟨st, ⟨⟨L, hL⟩, hsem⟩, rfl⟩ := id hk
  have hquantum : QuantumFits k := by
    rw [QuantumFits, hL.quantum]
    exact ⟨Int.natCast_nonneg _, Int.ofNat_le.mpr hL.geometry.quantum_le⟩
  obtain ⟨s, os, hrun, hs⟩ := runSteps_invariant (Paralleled env st.quantum)
    (fun s m hs hm => hs.move hfits hm) ⟨_, mirrors_initial hquantum hk hsem⟩ hmoves
  exact ⟨s, os, hrun, hs.exclusive hfits⟩

/-- A read that finds the semaphore taken by a write, and is interrupted. -/
def overlap : List (Move Nat Call) :=
  [.start 0 (.deviceWrite 0 [9] false none), .advance 0, .advance 0,
    .start 1 (.deviceRead 0 1 true none), .advance 1, .advance 1, .advance 1, .advance 0]

theorem exclusive_overlap :
    ∃ s os, runSteps (calls (.filled 7)).step (Pool.initial (emptyDevice 1 1)) overlap = .ok (s, os) ∧
      Exclusive (.filled 7) s :=
  exclusive_of_current (.filled 7) (inOrder_empty ⟨by decide, by decide, by decide⟩) (by decide)
    (by decide +kernel)

/-- A write that loads `qset` before an open truncates, then the next such open. -/
def stale : List (Move Nat Call) :=
  [.start 0 (.deviceWrite 0 [9] false none), .advance 0, .start 1 (.deviceOpen 1 false)] ++
    List.replicate 5 (.advance 1) ++ List.replicate 9 (.advance 0) ++
    [.start 1 (.deviceOpen 1 false)] ++ List.replicate 4 (.advance 1)

/-- Every offset is 0, every step goes through, and the second open can go no further. -/
theorem not_exclusive_stale :
    Admissible (calls (.filled 7)).step (Ranged (.filled 7)) (Pool.initial (emptyDevice 1 1)) stale ∧
      ∃ s os, runSteps (calls (.filled 7)).step (Pool.initial (emptyDevice 1 1)) stale = .ok (s, os) ∧
        s.shared.dev.sem = 0 ∧ s.inside = {1} ∧
        (calls (.filled 7)).step s (.advance 1) = .error .badAddress ∧ ¬Exclusive (.filled 7) s := by
  refine ⟨by decide +kernel, _, _, rfl, rfl, by decide, rfl, fun h => ?_⟩
  exact not_getsOut_of_error (by decide) rfl (h.leaves 1 (by decide))

end CharDriver.Chardev
