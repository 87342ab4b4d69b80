import Mathlib.Logic.Basic
import Mathlib.Tactic.TypeStar

/-! Machines that answer one request at a time and may stop with an error. A run threads the state
through a list of requests and collects the replies. The rules below carry a relation along a run:
against an abstract observer that only sees requests and replies, and against a second machine that
is given the same requests. Nothing here depends on a particular driver. -/

namespace CharDriver.Base

variable {σ σ₁ σ₂ τ ι ο ε : Type}

@[simp] theorem ok_bind {α β : Type} (a : α) (f : α → Except ε β) :
    (Except.ok a >>= f : Except ε β) = f a := rfl

@[simp] theorem error_bind {α β : Type} (e : ε) (f : α → Except ε β) :
    (Except.error e >>= f : Except ε β) = .error e := rfl

@[simp] theorem pure_eq_ok {α : Type} (a : α) : (pure a : Except ε α) = .ok a := rfl

theorem map_eq_ok {α β : Type} {f : α → β} {x : Except ε α} {b : β} (h : x.map f = .ok b) :
    ∃ a, x = .ok a ∧ f a = b := by
  cases x with
  | error e => simp [Except.map] at h
  | ok a => exact ⟨a, rfl, Except.ok.inj h⟩

theorem bind_eq_ok {α β : Type} {x : Except ε α} {f : α → Except ε β} {b : β}
    (h : (x >>= f) = .ok b) : ∃ a, x = .ok a ∧ f a = .ok b := by
  cases x with
  | error e => cases h
  | ok a => exact ⟨a, rfl, h⟩

/-- Run a step function over a list of requests, collecting the replies. -/
def runSteps (step : σ → ι → Except ε (σ × ο)) : σ → List ι → Except ε (σ × List ο)
  | s, [] => .ok (s, [])
  | s, i :: is =>
      match step s i with
      | .error e => .error e
      | .ok (s', o) =>
          match runSteps step s' is with
          | .error e => .error e
          | .ok (s'', os) => .ok (s'', o :: os)

/-- Every request of the run meets its precondition in the state it is issued in. -/
def Admissible (step : σ → ι → Except ε (σ × ο)) (pre : σ → ι → Prop) : σ → List ι → Prop
  | _, [] => True
  | s, i :: is =>
      pre s i ∧ match step s i with
        | .error _ => True
        | .ok (s', _) => Admissible step pre s' is

instance admissibleDecidable (step : σ → ι → Except ε (σ × ο)) (pre : σ → ι → Prop)
    [∀ s i, Decidable (pre s i)] : ∀ s is, Decidable (Admissible step pre s is)
  | _, [] => inferInstanceAs (Decidable True)
  | s, i :: is =>
      match h : step s i with
      | .error _ => decidable_of_iff (pre s i) (by simp [Admissible, h])
      | .ok (s', _) =>
          have := admissibleDecidable step pre s' is
          decidable_of_iff (pre s i ∧ Admissible step pre s' is) (by simp [Admissible, h])

/-- Each reply is good for an observer that is updated from requests and replies alone. -/
def Conforms (next : τ → ι → ο → τ) (good : τ → ι → ο → Prop) : τ → List ι → List ο → Prop
  | _, [], [] => True
  | t, i :: is, o :: os => good t i o ∧ Conforms next good (next t i o) is os
  | _, _, _ => False

/-- The observer after a run. -/
def observe (next : τ → ι → ο → τ) : τ → List ι → List ο → τ
  | t, i :: is, o :: os => observe next (next t i o) is os
  | t, _, _ => t

variable {step : σ → ι → Except ε (σ × ο)} {pre good : σ → ι → Prop}

theorem runSteps_cons_ok {s s' : σ} {i : ι} {o : ο} (hstep : step s i = .ok (s', o)) (is : List ι)
    {s'' : σ} {os : List ο} (hrest : runSteps step s' is = .ok (s'', os)) :
    runSteps step s (i :: is) = .ok (s'', o :: os) := by
  simp only [runSteps, hstep, hrest]

theorem runSteps_cons_eq_ok {s s'' : σ} {i : ι} {is : List ι} {os : List ο}
    (hrun : runSteps step s (i :: is) = .ok (s'', os)) :
    ∃ s' o os', step s i = .ok (s', o) ∧ runSteps step s' is = .ok (s'', os') ∧ os = o :: os' := by
  simp only [runSteps] at hrun
  split at hrun
  · simp at hrun
  split at hrun
  · simp at hrun
  rename_i s' o hok _ s₁ os' hrest
  cases hrun
  exact ⟨s', o, os', hok, hrest, rfl⟩

theorem runSteps_append_ok {is is' : List ι} {s s' s'' : σ} {os os' : List ο}
    (hfirst : runSteps step s is = .ok (s', os)) (hsecond : runSteps step s' is' = .ok (s'', os')) :
    runSteps step s (is ++ is') = .ok (s'', os ++ os') := by
  induction is generalizing s os with
  | nil =>
      cases hfirst
      exact hsecond
  | cons i is ih =>
      obtain ⟨s₁, o, os₁, hstep, hrest, rfl⟩ := runSteps_cons_eq_ok hfirst
      exact runSteps_cons_ok hstep _ (ih hrest)

theorem Admissible.tail {s s' : σ} {i : ι} {o : ο} {is : List ι}
    (h : Admissible step pre s (i :: is)) (hstep : step s i = .ok (s', o)) :
    Admissible step pre s' is := by
  simpa only [Admissible, hstep] using h.2

theorem Admissible.and {pre' : σ → ι → Prop} :
    ∀ {s : σ} {is : List ι}, Admissible step pre s is → Admissible step pre' s is →
      Admissible step (fun s i => pre s i ∧ pre' s i) s is
  | _, [], _, _ => trivial
  | s, i :: is, h, h' => by
      refine ⟨⟨h.1, h'.1⟩, ?_⟩
      cases hstep : step s i with
      | error e => trivial
      | ok r => exact (h.tail hstep).and (h'.tail hstep)

theorem admissible_of_forall {pre : ι → Prop} :
    ∀ (s : σ) {is : List ι}, (∀ i ∈ is, pre i) → Admissible step (fun _ i => pre i) s is
  | _, [], _ => trivial
  | s, i :: is, h => by
      refine ⟨h i List.mem_cons_self, ?_⟩
      cases hstep : step s i with
      | error e => trivial
      | ok r => exact admissible_of_forall r.1 fun j hj => h j (List.mem_cons_of_mem _ hj)

/-- A relation to an observer that every step keeps holds at the end of every run, no step fails,
and every reply is good. -/
theorem runSteps_conforms (next : τ → ι → ο → τ) (good : τ → ι → ο → Prop) (R : σ → τ → Prop)
    (hstep : ∀ s t i, R s t → pre s i →
      ∃ s' o, step s i = .ok (s', o) ∧ good t i o ∧ R s' (next t i o)) :
    ∀ (is : List ι) (s : σ) (t : τ), R s t → Admissible step pre s is →
      ∃ s' os, runSteps step s is = .ok (s', os) ∧ Conforms next good t is os ∧
        R s' (observe next t is os) := by
  intro is
  induction is with
  | nil => exact fun s t hR _ => ⟨s, [], rfl, trivial, hR⟩
  | cons i is ih =>
      intro s t hR hadm
      obtain ⟨s', o, hs, hgood, hR'⟩ := hstep s t i hR hadm.1
      obtain ⟨s'', os, hrun, hconf, hR''⟩ := ih s' (next t i o) hR' (hadm.tail hs)
      exact ⟨s'', o :: os, runSteps_cons_ok hs is hrun, ⟨hgood, hconf⟩, hR''⟩

/-- The invariant rule: an observer that sees nothing. -/
theorem runSteps_invariant (Inv : σ → Prop)
    (hstep : ∀ s i, Inv s → pre s i → ∃ s' o, step s i = .ok (s', o) ∧ Inv s')
    {s : σ} {is : List ι} (hs : Inv s) (hadm : Admissible step pre s is) :
    ∃ s' os, runSteps step s is = .ok (s', os) ∧ Inv s' := by
  obtain ⟨s', os, hrun, -, hinv⟩ := runSteps_conforms (fun (_ : Unit) _ _ => ())
    (fun _ _ _ => True) (fun s _ => Inv s)
    (fun s _ i hinv hpre => by
      obtain ⟨s', o, hok, hinv'⟩ := hstep s i hinv hpre
      exact ⟨s', o, hok, trivial, hinv'⟩) is s () hs hadm
  exact ⟨s', os, hrun, hinv⟩

/-- The invariant rule for the runs that go through. -/
theorem runSteps_keeps {Inv : σ → Prop}
    (hstep : ∀ s i s' o, Inv s → pre s i → step s i = .ok (s', o) → Inv s') {is : List ι} {s s' : σ}
    {os : List ο} (hrun : runSteps step s is = .ok (s', os)) (hadm : Admissible step pre s is)
    (hs : Inv s) : Inv s' := by
  induction is generalizing s os with
  | nil =>
      cases hrun
      exact hs
  | cons i is ih =>
      obtain ⟨s₁, o, os₁, hok, hrest, rfl⟩ := runSteps_cons_eq_ok hrun
      exact ih hrest (hadm.tail hok) (hstep s i s₁ o hs hadm.1 hok)

/-- The requests a run served and their replies, where some steps serve none. -/
def served {κ : Type} (os : List (Option (κ × ο))) : List κ × List ο := (os.filterMap id).unzip

/-- After a step that may serve a request, the two machines are related again. -/
def Serves {κ : Type} (step : σ₂ → κ → Except ε (σ₂ × ο)) (R : σ₁ → σ₂ → Prop) (s₁ : σ₁) (s₂ : σ₂) :
    Option (κ × ο) → Prop
  | none => R s₁ s₂
  | some (c, r) => ∃ s₂', step s₂ c = .ok (s₂', r) ∧ R s₁ s₂'

/-- A machine whose steps serve requests of another one, each at once or not at all, answers as the
other does when it is given the requests in the order they were served. -/
theorem runSteps_serialize {κ : Type} {step₁ : σ₁ → ι → Except ε (σ₁ × Option (κ × ο))}
    {step₂ : σ₂ → κ → Except ε (σ₂ × ο)} {pre : σ₁ → ι → Prop} {R : σ₁ → σ₂ → Prop}
    (hstep : ∀ s₁ s₂ i, R s₁ s₂ → pre s₁ i →
      ∃ s₁' o, step₁ s₁ i = .ok (s₁', o) ∧ Serves step₂ R s₁' s₂ o) :
    ∀ (is : List ι) (s₁ : σ₁) (s₂ : σ₂), R s₁ s₂ → Admissible step₁ pre s₁ is →
      ∃ s₁' s₂' os, runSteps step₁ s₁ is = .ok (s₁', os) ∧
        runSteps step₂ s₂ (served os).1 = .ok (s₂', (served os).2) ∧ R s₁' s₂' := by
  intro is
  induction is with
  | nil => exact fun s₁ s₂ hR _ => ⟨s₁, s₂, [], rfl, rfl, hR⟩
  | cons i is ih =>
      intro s₁ s₂ hR hadm
      obtain ⟨s₁', o, h₁, ho⟩ := hstep s₁ s₂ i hR hadm.1
      cases o with
      | none =>
          obtain ⟨s₁'', s₂'', os, hr₁, hr₂, hR''⟩ := ih s₁' s₂ ho (hadm.tail h₁)
          exact ⟨s₁'', s₂'', none :: os, runSteps_cons_ok h₁ is hr₁, hr₂, hR''⟩
      | some cr =>
          obtain ⟨c, r⟩ := cr
          obtain ⟨s₂', h₂, hR'⟩ := ho
          obtain ⟨s₁'', s₂'', os, hr₁, hr₂, hR''⟩ := ih s₁' s₂' hR' (hadm.tail h₁)
          refine ⟨s₁'', s₂'', some (c, r) :: os, runSteps_cons_ok h₁ is hr₁, ?_, hR''⟩
          exact runSteps_cons_ok h₂ _ hr₂

section Projection

variable {step₁ : σ₁ → ι → Except ε (σ₁ × ο)} {step₂ : σ₂ → ι → Except ε (σ₂ × ο)} {f : σ₁ → σ₂}

/-- A machine that carries more state than another, and uses none of it, has the other's runs. -/
theorem runSteps_project (h : ∀ s i, step₂ (f s) i = (step₁ s i).map fun r => (f r.1, r.2))
    (is : List ι) (s : σ₁) :
    runSteps step₂ (f s) is = (runSteps step₁ s is).map fun r => (f r.1, r.2) := by
  induction is generalizing s with
  | nil => rfl
  | cons i is ih =>
      rw [runSteps, runSteps, h s i]
      cases step₁ s i with
      | error e => rfl
      | ok r =>
          obtain ⟨s', o⟩ := r
          simp only [Except.map, ih s']
          cases runSteps step₁ s' is <;> rfl

end Projection

/-- A condition on part of the state can be asked for on the machine that has only that part. -/
theorem Admissible.lift {ο₁ ο₂ : Type} {step₁ : σ₁ → ι → Except ε (σ₁ × ο₁)}
    {step₂ : σ₂ → ι → Except ε (σ₂ × ο₂)} {f : σ₁ → σ₂} {pre : σ₂ → ι → Prop}
    (h : ∀ s i s' o, step₁ s i = .ok (s', o) → ∃ o', step₂ (f s) i = .ok (f s', o')) :
    ∀ {is : List ι} {s : σ₁}, Admissible step₂ pre (f s) is →
      Admissible step₁ (fun s i => pre (f s) i) s is
  | [], _, _ => trivial
  | i :: is, s, hadm => by
      refine ⟨hadm.1, ?_⟩
      cases hstep : step₁ s i with
      | error e => trivial
      | ok r =>
          obtain ⟨o', hstep'⟩ := h s i r.1 r.2 hstep
          exact Admissible.lift h (hadm.tail hstep')

/-- No step of the run fails, and every state it reaches satisfies the condition. -/
def Throughout (step : σ → ι → Except ε (σ × ο)) (P : σ → Prop) : σ → List ι → Prop
  | s, [] => P s
  | s, i :: is =>
      P s ∧ match step s i with
        | .error _ => False
        | .ok (s', _) => Throughout step P s' is

instance throughoutDecidable (step : σ → ι → Except ε (σ × ο)) (P : σ → Prop) [DecidablePred P] :
    ∀ s is, Decidable (Throughout step P s is)
  | s, [] => inferInstanceAs (Decidable (P s))
  | s, i :: is =>
      match h : step s i with
      | .error _ => isFalse fun hrun => by simp [Throughout, h] at hrun
      | .ok (s', _) =>
          have := throughoutDecidable step P s' is
          decidable_of_iff (P s ∧ Throughout step P s' is) (by simp [Throughout, h])

theorem Throughout.head {P : σ → Prop} {s : σ} {is : List ι} (h : Throughout step P s is) : P s := by
  cases is with
  | nil => exact h
  | cons i is => exact h.1

theorem Throughout.next {P : σ → Prop} {s : σ} {i : ι} {is : List ι}
    (h : Throughout step P s (i :: is)) :
    ∃ s' o, step s i = .ok (s', o) ∧ Throughout step P s' is := by
  have hrest := h.2
  cases hstep : step s i with
  | error e => simp [hstep] at hrest
  | ok r => exact ⟨r.1, r.2, rfl, by simpa [hstep] using hrest⟩

theorem Throughout.runs {P : σ → Prop} :
    ∀ {is : List ι} {s : σ}, Throughout step P s is → ∃ r, runSteps step s is = .ok r
  | [], s, _ => ⟨(s, []), rfl⟩
  | i :: is, s, h => by
      obtain ⟨s', o, hok, hrest⟩ := h.next
      obtain ⟨r, hrun⟩ := hrest.runs
      exact ⟨(r.1, o :: r.2), runSteps_cons_ok hok is hrun⟩

/-- The invariant rule for a run that is known to go through. -/
theorem Throughout.invariant {P Inv : σ → Prop} {cond : ι → Prop}
    (hstep : ∀ s i s' o, Inv s → cond i → step s i = .ok (s', o) → P s' → Inv s') :
    ∀ {is : List ι} {s s' : σ} {os : List ο}, Throughout step P s is → Inv s →
      (∀ i ∈ is, cond i) → runSteps step s is = .ok (s', os) → Inv s'
  | [], s, s', os, _, hs, _, hrun => by
      cases hrun
      exact hs
  | i :: is, s, s', os, h, hs, hcond, hrun => by
      obtain ⟨s₁, o, hok, hrest⟩ := h.next
      have hs₁ := hstep s i s₁ o hs (hcond i List.mem_cons_self) hok hrest.head
      obtain ⟨r, hr⟩ := hrest.runs
      have hcons := runSteps_cons_ok hok is hr
      obtain ⟨rfl, -⟩ := Prod.mk.inj (Except.ok.inj (hcons.symm.trans hrun))
      exact hrest.invariant hstep hs₁ (fun j hj => hcond j (List.mem_cons_of_mem _ hj)) hr

theorem throughout_of_invariant {P Inv : σ → Prop} (hP : ∀ s, Inv s → P s)
    (hstep : ∀ s i, Inv s → pre s i → ∃ s' o, step s i = .ok (s', o) ∧ Inv s') :
    ∀ {is : List ι} {s : σ}, Inv s → Admissible step pre s is → Throughout step P s is
  | [], s, hs, _ => hP s hs
  | i :: is, s, hs, hadm => by
      obtain ⟨s', o, hok, hs'⟩ := hstep s i hs hadm.1
      have hrest := throughout_of_invariant hP hstep hs' (hadm.tail hok)
      exact ⟨hP s hs, by simpa only [hok] using hrest⟩

/-- What each state and the next one say about the request between them holds all along the run. -/
theorem Throughout.admissible {P : σ → Prop} {good : σ → ι → Prop}
    (hgood : ∀ s i s' o, pre s i → P s → step s i = .ok (s', o) → P s' → good s i) :
    ∀ {is : List ι} {s : σ}, Admissible step pre s is → Throughout step P s is →
      Admissible step good s is
  | [], _, _, _ => trivial
  | i :: is, s, hadm, h => by
      obtain ⟨s', o, hok, hrest⟩ := h.next
      refine ⟨hgood s i s' o hadm.1 h.head hok hrest.head, ?_⟩
      have htail := Throughout.admissible hgood (hadm.tail hok) hrest
      simpa only [hok] using htail

/-- A condition on requests that holds along a run that does not fail holds of every request. -/
theorem Throughout.forall_of_admissible {P : σ → Prop} {cond : ι → Prop}
    (hcond : ∀ s i, pre s i → cond i) :
    ∀ {is : List ι} {s : σ}, Throughout step P s is → Admissible step pre s is → ∀ i ∈ is, cond i
  | [], _, _, _ => fun _ hi => absurd hi List.not_mem_nil
  | i :: is, s, h, hadm => by
      obtain ⟨s', o, hok, hrest⟩ := h.next
      intro j hj
      rcases List.mem_cons.mp hj with rfl | hj
      · exact hcond s j hadm.1
      · exact hrest.forall_of_admissible hcond (hadm.tail hok) j hj

section TwoRuns

variable {step₁ : σ₁ → ι → Except ε (σ₁ × ο)} {step₂ : σ₂ → ι → Except ε (σ₂ × ο)}
  {pre good : σ₁ → ι → Prop} {R : σ₁ → σ₂ → Prop}

/-- What a two-run argument shows of one request: both machines take the step, the relation is kept,
and the two replies are linked as asked. -/
def StepsTogether (step₁ : σ₁ → ι → Except ε (σ₁ × ο)) (step₂ : σ₂ → ι → Except ε (σ₂ × ο))
    (pre : σ₁ → ι → Prop) (R : σ₁ → σ₂ → Prop) (link : σ₁ → ι → ο → ο → Prop) : Prop :=
  ∀ s₁ s₂ i, R s₁ s₂ → pre s₁ i → ∃ s₁' o₁ s₂' o₂,
    step₁ s₁ i = .ok (s₁', o₁) ∧ step₂ s₂ i = .ok (s₂', o₂) ∧ R s₁' s₂' ∧ link s₁ i o₁ o₂

theorem StepsTogether.mono {link link' : σ₁ → ι → ο → ο → Prop}
    (h : StepsTogether step₁ step₂ pre R link) (hlink : ∀ s i o₁ o₂, link s i o₁ o₂ → link' s i o₁ o₂) :
    StepsTogether step₁ step₂ pre R link' := by
  intro s₁ s₂ i hR hpre
  obtain ⟨s₁', o₁, s₂', o₂, h₁, h₂, hR', hl⟩ := h s₁ s₂ i hR hpre
  exact ⟨s₁', o₁, s₂', o₂, h₁, h₂, hR', hlink s₁ i o₁ o₂ hl⟩

/-- Where a condition makes the replies of one step agree, it makes those of a run agree. -/
theorem runSteps_agree (h : StepsTogether step₁ step₂ pre R fun s i o₁ o₂ => good s i → o₁ = o₂) :
    ∀ (is : List ι) (s₁ : σ₁) (s₂ : σ₂), R s₁ s₂ → Admissible step₁ pre s₁ is →
      Admissible step₁ good s₁ is → ∃ s₁' s₂' os,
        runSteps step₁ s₁ is = .ok (s₁', os) ∧ runSteps step₂ s₂ is = .ok (s₂', os) := by
  intro is
  induction is with
  | nil => exact fun s₁ s₂ _ _ _ => ⟨s₁, s₂, [], rfl, rfl⟩
  | cons i is ih =>
      intro s₁ s₂ hR hadm hgood
      obtain ⟨s₁', o₁, s₂', o₂, h₁, h₂, hR', hlink⟩ := h s₁ s₂ i hR hadm.1
      obtain rfl := hlink hgood.1
      obtain ⟨s₁'', s₂'', os, hr₁, hr₂⟩ := ih s₁' s₂' hR' (hadm.tail h₁) (hgood.tail h₁)
      exact ⟨s₁'', s₂'', o₁ :: os, runSteps_cons_ok h₁ is hr₁, runSteps_cons_ok h₂ is hr₂⟩

/-- Where agreeing replies force a condition on one step, they force it all along a run. -/
theorem admissible_of_agree
    (h : StepsTogether step₁ step₂ pre R fun s i o₁ o₂ => o₁ = o₂ → good s i) :
    ∀ (is : List ι) (s₁ s₁' : σ₁) (s₂ s₂' : σ₂) (os : List ο), R s₁ s₂ →
      Admissible step₁ pre s₁ is → runSteps step₁ s₁ is = .ok (s₁', os) →
      runSteps step₂ s₂ is = .ok (s₂', os) → Admissible step₁ good s₁ is := by
  intro is
  induction is with
  | nil => exact fun _ _ _ _ _ _ _ _ _ => trivial
  | cons i is ih =>
      intro s₁ s₁'' s₂ s₂'' os hR hadm hr₁ hr₂
      obtain ⟨s₁', o₁, s₂', o₂, h₁, h₂, hR', hlink⟩ := h s₁ s₂ i hR hadm.1
      simp only [runSteps, h₁] at hr₁
      simp only [runSteps, h₂] at hr₂
      split at hr₁
      · simp at hr₁
      split at hr₂
      · simp at hr₂
      rename_i r₁ os₁ hrest₁ _ r₂ os₂ hrest₂
      simp only [Except.ok.injEq, Prod.mk.injEq] at hr₁ hr₂
      obtain ⟨rfl, hos₁⟩ := hr₁
      obtain ⟨rfl, hos₂⟩ := hr₂
      obtain ⟨rfl, rfl⟩ := List.cons.inj (hos₁.trans hos₂.symm)
      refine ⟨hlink rfl, ?_⟩
      rw [h₁]
      exact ih s₁' _ s₂' _ os₁ hR' (hadm.tail h₁) hrest₁ hrest₂

end TwoRuns

section Traces

variable {ι₁ ι₂ ο₁ ο₂ τ₀ ε₁ ε₂ : Type} {step₁ : σ₁ → ι₁ → Except ε₁ (σ₁ × ο₁)}
  {step₂ : σ₂ → ι₂ → Except ε₂ (σ₂ × ο₂)} {pre₁ : σ₁ → ι₁ → Prop} {pre₂ : σ₂ → ι₂ → Prop}
  {see₁ : ι₁ → ο₁ → Option τ₀} {see₂ : ι₂ → ο₂ → Option τ₀} {R : σ₁ → σ₂ → Prop}

theorem runSteps_length {is : List ι} {s s' : σ} {os : List ο}
    (hrun : runSteps step s is = .ok (s', os)) : is.length = os.length := by
  induction is generalizing s os with
  | nil =>
      cases hrun
      rfl
  | cons i is ih =>
      obtain ⟨s₁, o, os₁, -, hrest, rfl⟩ := runSteps_cons_eq_ok hrun
      exact congrArg (· + 1) (ih hrest)

theorem Admissible.append {is is' : List ι} {s s' : σ} {os : List ο}
    (h : Admissible step pre s is) (hrun : runSteps step s is = .ok (s', os))
    (h' : Admissible step pre s' is') : Admissible step pre s (is ++ is') := by
  induction is generalizing s os with
  | nil =>
      cases hrun
      exact h'
  | cons i is ih =>
      obtain ⟨s₁, o, os₁, hok, hrest, -⟩ := runSteps_cons_eq_ok hrun
      have htail : Admissible step pre s₁ (is ++ is') := ih (h.tail hok) hrest
      rw [List.cons_append, Admissible, hok]
      exact ⟨h.1, htail⟩

/-- A condition that an invariant of the successful steps gives holds along the run. -/
theorem Admissible.of_invariant {Inv : σ → Prop}
    (hstep : ∀ s i s' o, Inv s → pre s i → step s i = .ok (s', o) → Inv s')
    (hgood : ∀ s i, Inv s → pre s i → good s i) :
    ∀ {is : List ι} {s : σ}, Admissible step pre s is → Inv s → Admissible step good s is
  | [], _, _, _ => trivial
  | i :: is, s, hadm, hs => by
      refine ⟨hgood s i hs hadm.1, ?_⟩
      cases hok : step s i with
      | error e => trivial
      | ok r => exact (hadm.tail hok).of_invariant hstep hgood (hstep s i r.1 r.2 hs hadm.1 hok)

theorem Admissible.mono (hgood : ∀ s i, pre s i → good s i) {is : List ι} {s : σ}
    (h : Admissible step pre s is) : Admissible step good s is :=
  h.of_invariant (fun _ _ _ _ _ _ _ => trivial) (fun s i (_ : True) => hgood s i) trivial

/-- A defect that no step repairs is not there at the end of a run only if no step of the run made
it. -/
theorem Admissible.of_persists (Inv Bad : σ → Prop)
    (hinv : ∀ s i s' o, Inv s → pre s i → step s i = .ok (s', o) → Inv s')
    (hbad : ∀ s i s' o, Inv s → pre s i → step s i = .ok (s', o) → Bad s → Bad s')
    (hgood : ∀ s i s' o, Inv s → pre s i → step s i = .ok (s', o) → ¬Bad s' → good s i) :
    ∀ {is : List ι} {s s' : σ} {os : List ο}, Inv s → Admissible step pre s is →
      runSteps step s is = .ok (s', os) → ¬Bad s' → Admissible step good s is ∧ ¬Bad s
  | [], s, s', os, _, _, hrun, hend => by
      cases hrun
      exact ⟨trivial, hend⟩
  | i :: is, s, s', os, hs, hadm, hrun, hend => by
      obtain ⟨s₁, o, os₁, hok, hrest, -⟩ := runSteps_cons_eq_ok hrun
      obtain ⟨htail, hfine⟩ := Admissible.of_persists Inv Bad hinv hbad hgood
        (hinv s i s₁ o hs hadm.1 hok) (hadm.tail hok) hrest hend
      refine ⟨⟨hgood s i s₁ o hs hadm.1 hok hfine, ?_⟩, fun h => hfine (hbad s i s₁ o hs hadm.1 hok h)⟩
      simpa only [hok] using htail

/-- What is seen of a run, where some steps show nothing. -/
def trace (see : ι₁ → ο₁ → Option τ₀) (is : List ι₁) (os : List ο₁) : List τ₀ :=
  (List.zipWith see is os).filterMap id

theorem trace_append {is is' : List ι₁} {os os' : List ο₁} (hlength : is.length = os.length) :
    trace see₁ (is ++ is') (os ++ os') = trace see₁ is os ++ trace see₁ is' os' := by
  rw [trace, List.zipWith_append hlength, List.filterMap_append, trace, trace]

theorem mem_trace_cons {i : ι₁} {is : List ι₁} {o : ο₁} {os : List ο₁} {x : τ₀} :
    x ∈ trace see₁ (i :: is) (o :: os) ↔ see₁ i o = some x ∨ x ∈ trace see₁ is os := by
  simp [trace, eq_comm]

/-- Requests that leave the state as it is can be left out of a run: the same state is reached, and
the requests that are left get the same replies. -/
theorem runSteps_filter {acts : ι → Bool} (Inv : σ → Prop)
    (hstep : ∀ s i, Inv s → pre s i → ∃ s' o, step s i = .ok (s', o) ∧ Inv s' ∧
      (acts i = false → s' = s)) :
    ∀ (is : List ι) (s : σ), Inv s → Admissible step pre s is →
      ∃ s' os, runSteps step s is = .ok (s', os) ∧ runSteps step s (is.filter acts) =
        .ok (s', trace (fun i o => if acts i then some o else none) is os) := by
  intro is
  induction is with
  | nil => exact fun s _ _ => ⟨s, [], rfl, rfl⟩
  | cons i is ih =>
      intro s hs hadm
      obtain ⟨s₁, o, hok, hs₁, hsame⟩ := hstep s i hs hadm.1
      obtain ⟨s', os, hrun, hleft⟩ := ih s₁ hs₁ (hadm.tail hok)
      refine ⟨s', o :: os, runSteps_cons_ok hok is hrun, ?_⟩
      cases hact : acts i with
      | true =>
          rw [List.filter_cons_of_pos hact]
          simpa [trace, hact] using runSteps_cons_ok hok _ hleft
      | false =>
          obtain rfl := hsame hact
          rw [List.filter_cons_of_neg (by simp [hact])]
          simpa [trace, hact] using hleft

/-- From `s₂` the second machine has a run that shows `t` and ends in a state related to `s₁`. -/
def Follows (step₂ : σ₂ → ι₂ → Except ε₂ (σ₂ × ο₂)) (pre₂ : σ₂ → ι₂ → Prop)
    (see₂ : ι₂ → ο₂ → Option τ₀) (R : σ₁ → σ₂ → Prop) (s₁ : σ₁) (s₂ : σ₂) (t : List τ₀) : Prop :=
  ∃ is s₂' os, Admissible step₂ pre₂ s₂ is ∧ runSteps step₂ s₂ is = .ok (s₂', os) ∧
    trace see₂ is os = t ∧ R s₁ s₂'

/-- A machine each of whose steps is followed by a run of a second machine, with the same trace, has
only traces that the second one has too. -/
theorem runSteps_follows
    (hstep : ∀ s₁ s₂ i, R s₁ s₂ → pre₁ s₁ i → ∃ s₁' o, step₁ s₁ i = .ok (s₁', o) ∧
      Follows step₂ pre₂ see₂ R s₁' s₂ (trace see₁ [i] [o])) :
    ∀ (is : List ι₁) (s₁ : σ₁) (s₂ : σ₂), R s₁ s₂ → Admissible step₁ pre₁ s₁ is →
      ∃ s₁' os, runSteps step₁ s₁ is = .ok (s₁', os) ∧
        Follows step₂ pre₂ see₂ R s₁' s₂ (trace see₁ is os) := by
  intro is
  induction is with
  | nil => exact fun s₁ s₂ hR _ => ⟨s₁, [], rfl, [], s₂, [], trivial, rfl, rfl, hR⟩
  | cons i is ih =>
      intro s₁ s₂ hR hadm
      obtain ⟨s₁', o, hok, js, s₂', os₂, hjs, hrun₂, hsee, hR'⟩ := hstep s₁ s₂ i hR hadm.1
      obtain ⟨s₁'', os, hrun, js', s₂'', os₂', hjs', hrun₂', hsee', hR''⟩ :=
        ih s₁' s₂' hR' (hadm.tail hok)
      refine ⟨s₁'', o :: os, runSteps_cons_ok hok is hrun, js ++ js', s₂'', os₂ ++ os₂',
        hjs.append hrun₂ hjs', runSteps_append_ok hrun₂ hrun₂', ?_, hR''⟩
      rw [trace_append (runSteps_length hrun₂), hsee, hsee']
      have hcons : trace see₁ ([i] ++ is) ([o] ++ os) = _ := trace_append rfl
      exact hcons.symm

end Traces

end CharDriver.Base
