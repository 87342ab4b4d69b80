import CharDriver.BaseSemaphore
import Mathlib.Algebra.BigOperators.Group.Finset.Basic
import Mathlib.Algebra.Order.BigOperators.Group.Finset

/-! Threads that come to rest. Every action of a program leads to a lower stage of its call, but for the
accesses, which lower a rank as long as nobody else makes one. Where the program is guarded only the
thread inside makes any: so whatever the order in which the threads go on, they go on only finitely
often. They do not stop early either: while one of them runs, one of them is awake. -/

namespace CharDriver.Base

variable {ι κ σ υ π ο ε α : Type}

/-- However the threads go on, without new calls, no step fails, and in the end none can go on and
`Good` holds. -/
inductive Settles [DecidableEq ι] (P : Program κ σ υ π ο ε) (Ready : σ → π → Prop)
    (Good : Pool ι σ π → Prop) : Pool ι σ π → Prop where
  | intro {s : Pool ι σ π}
      (stops : (∀ t, ¬(Move.advance t : Move ι κ).Scheduled P Ready s) → Good s)
      (goes : ∀ t, (Move.advance t : Move ι κ).Scheduled P Ready s →
        ∃ r, P.step s (.advance t) = .ok r)
      (next : ∀ t s' o, (Move.advance t : Move ι κ).Scheduled P Ready s →
        P.step s (.advance t) = .ok (s', o) → Settles P Ready Good s') : Settles P Ready Good s

/-- What an action does to the stage and to the rank. -/
def Action.Descends [LT α] (At : Phase → π → Prop) (stage : π → ℕ) (rank : π → σ → α) (p : π) :
    Action σ υ π ο ε → Prop
  | .load next => ∀ u, stage (next u) < stage p
  | .down _ taken interrupted => stage taken < stage p ∧ stage interrupted < stage p
  | .access f => ∀ s q s', At .inside p → f s = .ok (q, s') → stage q = stage p ∧ rank q s' < rank p s
  | .up next => stage next < stage p
  | .done _ => True

structure Descends [LT α] (P : Program κ σ υ π ο ε) (At : Phase → π → Prop) (stage : π → ℕ)
    (rank : π → σ → α) : Prop where
  pos : ∀ p, 0 < stage p
  action : ∀ p, (P.action p).Descends At stage rank p

def Action.Leads (Keep : π → Prop) : Action σ υ π ο ε → Prop
  | .load next => ∀ u, Keep (next u)
  | .down _ taken interrupted => Keep taken ∧ Keep interrupted
  | .access f => ∀ s q s', f s = .ok (q, s') → Keep q
  | .up next => Keep next
  | .done _ => True

/-- How far the threads of `T` are from their ends, all together. -/
def Pool.stages (stage : π → ℕ) (T : Finset ι) (s : Pool ι σ π) : ℕ :=
  ∑ t ∈ T, (s.point t).elim 0 stage

def Pool.Within (T : Finset ι) (s : Pool ι σ π) : Prop := ∀ t, s.point t ≠ none → t ∈ T

section Steps

variable [DecidableEq ι] {P : Program κ σ υ π ο ε} {s s' : Pool ι σ π} {t : ι} {p : π}
  {o : Option (ι × ο)}

theorem stepAt_point {Keep : π → Prop} {a : Action σ υ π ο ε} (ha : a.Leads Keep)
    (hstep : P.stepAt s t a = .ok (s', o)) :
    ∃ x, s'.point = Function.update s.point t x ∧ ∀ q ∈ x, Keep q := by
  cases a with
  | load next =>
      cases hstep
      refine ⟨_, rfl, ?_⟩
      rintro q ⟨⟩
      exact ha _
  | down signal taken interrupted =>
      simp only [Program.stepAt] at hstep
      split at hstep
      · cases hstep
        refine ⟨_, rfl, ?_⟩
        rintro q ⟨⟩
        exact ha.2
      · cases hstep
        refine ⟨_, rfl, ?_⟩
        rintro q ⟨⟩
        exact ha.1
  | access f =>
      obtain ⟨⟨q, shared⟩, hf, heq⟩ := map_eq_ok hstep
      cases heq
      refine ⟨_, rfl, ?_⟩
      rintro q ⟨⟩
      exact ha _ _ _ hf
  | up next =>
      cases hstep
      refine ⟨_, rfl, ?_⟩
      rintro q ⟨⟩
      exact ha
  | done reply =>
      cases hstep
      exact ⟨none, rfl, fun q hq => by cases hq⟩

/-- What the entries have, and every action leads to, every point has. -/
theorem step_leads {Keep : π → Prop} (hkeep : ∀ t p, s.point t = some p → Keep p)
    (hnext : ∀ t p, s.point t = some p → (P.action p).Leads Keep) {m : Move ι κ}
    (hentry : ∀ t c, m = .start t c → Keep (P.entry c)) (hstep : P.step s m = .ok (s', o)) :
    ∀ t p, s'.point t = some p → Keep p := by
  have hothers {t : ι} {x : Option π} (hpoint : s'.point = Function.update s.point t x)
      (hx : ∀ q ∈ x, Keep q) : ∀ u q, s'.point u = some q → Keep q := by
    intro u q hq
    rw [hpoint] at hq
    by_cases hut : u = t
    · rw [hut, Function.update_self] at hq
      exact hx q hq
    · rw [Function.update_of_ne hut] at hq
      exact hkeep u q hq
  cases m with
  | start t c =>
      cases hstep
      refine hothers rfl ?_
      rintro q ⟨⟩
      exact hentry t c rfl
  | advance t =>
      cases hp : s.point t with
      | none =>
          simp only [Program.step, hp] at hstep
          cases hstep
          exact hkeep
      | some p =>
          rw [step_advance hp] at hstep
          obtain ⟨x, hpoint, hx⟩ := stepAt_point (hnext t p hp) hstep
          exact hothers hpoint hx

section Stages

variable {stage : π → ℕ} {T : Finset ι} {x : Option π}

theorem stages_lt (ht : t ∈ T) (hp : s.point t = some p)
    (hpoint : s'.point = Function.update s.point t x) (hx : x.elim 0 stage < stage p) :
    s'.stages stage T < s.stages stage T := by
  have hself : (s'.point t).elim 0 stage < (s.point t).elim 0 stage := by
    rw [hpoint, Function.update_self, hp]
    exact hx
  refine Finset.sum_lt_sum (fun u _ => ?_) ⟨t, ht, hself⟩
  by_cases hut : u = t
  · rw [hut]
    exact Nat.le_of_lt hself
  · rw [hpoint, Function.update_of_ne hut]

theorem stages_eq (hp : s.point t = some p) {q : π}
    (hpoint : s'.point = Function.update s.point t (some q)) (hq : stage q = stage p) :
    s'.stages stage T = s.stages stage T := by
  refine Finset.sum_congr rfl fun u _ => ?_
  rw [hpoint]
  by_cases hut : u = t
  · rw [hut, Function.update_self, hp]
    exact hq
  · rw [Function.update_of_ne hut]

theorem Pool.Within.update (hT : s.Within T) (hp : s.point t = some p)
    (hpoint : s'.point = Function.update s.point t x) : s'.Within T := by
  intro u hu
  by_cases hut : u = t
  · refine hT u ?_
    rw [hut, hp]
    exact Option.some_ne_none p
  · rw [hpoint, Function.update_of_ne hut] at hu
    exact hT u hu

theorem Pool.Within.step (hT : s.Within T) {m : Move ι κ} (hm : ∀ t c, m = .start t c → t ∈ T)
    (hstep : P.step s m = .ok (s', o)) : s'.Within T := by
  cases m with
  | start t c =>
      cases hstep
      intro u hu
      by_cases hut : u = t
      · exact hut ▸ hm t c rfl
      · exact hT u (by simpa only [Pool.goto, Function.update_of_ne hut] using hu)
  | advance t =>
      cases hp : s.point t with
      | none =>
          simp only [Program.step, hp] at hstep
          cases hstep
          exact hT
      | some p =>
          rw [step_advance hp] at hstep
          have hleads : (P.action p).Leads fun _ => True := by
            cases P.action p <;> simp [Action.Leads]
          obtain ⟨x, hpoint, -⟩ := stepAt_point hleads hstep
          exact hT.update hp hpoint

end Stages

end Steps

section Rest

variable [DecidableEq ι] {P : Program κ σ υ π ο ε} {Ok : σ → Prop} {At : Phase → π → Prop}
  {Out : Phase → ο → Prop} {Ready : σ → π → Prop} {Good : Pool ι σ π → Prop} {s s' : Pool ι σ π}

omit [DecidableEq ι] in
/-- While a thread runs, one is awake: the one inside, or, where the semaphore is up, every one. -/
theorem Balanced.idle_of_asleep (hG : Guarded P Ok At Out)
    (hsem : ∀ s, 0 < P.sem.count s → P.sem.down false s ≠ none) (h : Balanced P Ok At s)
    (hready : ∀ t p, s.point t = some p → Ready s.shared p)
    (hasleep : ∀ t, ¬(Move.advance t : Move ι κ).Scheduled P Ready s) (t : ι) : s.point t = none := by
  by_contra hbusy
  -- a thread that cannot go on is at a semaphore that is taken
  have hdown (t : ι) (p : π) (hp : s.point t = some p) : ∃ taken interrupted,
      P.action p = .down false taken interrupted ∧ P.sem.down false s.shared = none := by
    have hstuck : ¬(P.action p).Awake P.sem s.shared := fun hawake => hasleep t
      ⟨by rw [hp]; exact Option.some_ne_none p, fun q hq => by
        cases hp.symm.trans hq
        exact ⟨hawake, hready t p hp⟩⟩
    cases ha : P.action p with
    | down signal taken interrupted =>
        rw [ha] at hstuck
        obtain ⟨hnone, hsignal⟩ := Classical.not_imp.mp hstuck
        obtain rfl : signal = false := by simpa using hsignal
        exact ⟨taken, interrupted, rfl, hnone⟩
    | _ => simp [ha, Action.Awake] at hstuck
  obtain ⟨p, hp⟩ := Option.ne_none_iff_exists'.mp hbusy
  obtain ⟨-, -, -, hnone⟩ := hdown t p hp
  have hzero : P.sem.count s.shared = 0 := by
    by_contra hpos
    exact hsem s.shared (Nat.pos_of_ne_zero hpos) hnone
  have hcount := h.count
  obtain ⟨u, hu⟩ := Finset.card_pos.mp (show 0 < s.inside.card by omega)
  obtain ⟨q, hq⟩ := Option.ne_none_iff_exists'.mp fun hidle => h.idle u hidle hu
  obtain ⟨taken, interrupted, ha, -⟩ := hdown u q hq
  obtain ⟨phase, hat, hin, -⟩ := h.busy u q hq
  have hguard := hG.action phase q hat
  rw [ha] at hguard
  exact Phase.noConfusion (hguard.1.symm.trans (hin.mp hu))

variable [Preorder α] {stage : π → ℕ} {rank : π → σ → α} {T : Finset ι}

/-- A step leads to a lower stage, or is an access, which is made inside and lowers the rank there. -/
theorem Balanced.descends (hG : Guarded P Ok At Out) (hD : Descends P At stage rank)
    (h : Balanced P Ok At s) (hT : s.Within T) {t : ι} {p : π} (hp : s.point t = some p)
    {o : Option (ι × ο)} (hstep : P.step s (.advance t) = .ok (s', o)) :
    s'.Within T ∧ (s'.stages stage T < s.stages stage T ∨
      t ∈ s.inside ∧ s'.inside = s.inside ∧ s'.stages stage T = s.stages stage T ∧
        ∃ q, s'.point t = some q ∧ rank q s'.shared < rank p s.shared) := by
  have ht : t ∈ T := hT t (by rw [hp]; exact Option.some_ne_none p)
  have hdescends := hD.action p
  rw [step_advance hp] at hstep
  cases ha : P.action p with
  | access f =>
      have hin := h.access_inside hG hp ha
      rw [ha] at hdescends hstep
      obtain ⟨⟨q, shared⟩, hf, heq⟩ := map_eq_ok hstep
      cases heq
      obtain ⟨phase, hat, hphase, -⟩ := h.busy t p hp
      obtain rfl := hphase.mp hin
      obtain ⟨hstage, hrank⟩ := hdescends s.shared q shared hat hf
      exact ⟨hT.update hp rfl, Or.inr ⟨hin, rfl, stages_eq hp rfl hstage, q,
        Function.update_self t _ _, hrank⟩⟩
  | _ =>
      have hleads : (P.action p).Leads fun q => stage q < stage p := by
        rw [ha] at hdescends ⊢
        exact hdescends
      obtain ⟨x, hpoint, hx⟩ := stepAt_point hleads hstep
      refine ⟨hT.update hp hpoint, Or.inl (stages_lt ht hp hpoint ?_)⟩
      cases x with
      | none => exact hD.pos p
      | some q => exact hx q rfl

variable [WellFoundedLT α] {Inv : Pool ι σ π → Prop}

/-- An invariant that the steps keep, and that no step leaves by failing, holds until all is over. -/
theorem settles_of_descends (hG : Guarded P Ok At Out) (hD : Descends P At stage rank)
    (hbalanced : ∀ s, Inv s → Balanced P Ok At s)
    (hmove : ∀ s t, Inv s → (Move.advance t : Move ι κ).Scheduled P Ready s →
      ∃ s' o, P.step s (.advance t) = .ok (s', o) ∧ Inv s')
    (hstop : ∀ s, Inv s → (∀ t, ¬(Move.advance t : Move ι κ).Scheduled P Ready s) → Good s)
    (hs : Inv s) (hT : s.Within T) : Settles P Ready Good s := by
  generalize hn : s.stages stage T = n
  induction n using Nat.strong_induction_on generalizing s with
  | _ n ihstage =>
  -- a thread inside, if there is one, makes finitely many accesses before the stages get lower
  have hsettles (s : Pool ι σ π) (hs : Inv s) (hT : s.Within T) (hn : s.stages stage T = n)
      (haccess : ∀ t p s' o, s.point t = some p → P.step s (.advance t) = .ok (s', o) → Inv s' →
        s'.Within T → t ∈ s.inside → s'.inside = s.inside → s'.stages stage T = n →
        (∃ q, s'.point t = some q ∧ rank q s'.shared < rank p s.shared) →
        Settles P Ready Good s') : Settles P Ready Good s := by
    refine .intro (hstop s hs) (fun t ht => ?_) fun t s' o ht hstep => ?_
    · obtain ⟨s', o, hstep, -⟩ := hmove s t hs ht
      exact ⟨_, hstep⟩
    · obtain ⟨s'', o', hstep', hs'⟩ := hmove s t hs ht
      obtain ⟨rfl, rfl⟩ := Prod.mk.inj (Except.ok.inj (hstep'.symm.trans hstep))
      obtain ⟨p, hp⟩ := Option.ne_none_iff_exists'.mp ht.1
      obtain ⟨hT', hlower | ⟨hin, hinside, hsame, hrank⟩⟩ :=
        (hbalanced s hs).descends hG hD hT hp hstep
      · exact ihstage _ (hn ▸ hlower) hs' hT' rfl
      · exact haccess t p _ _ hp hstep hs' hT' hin hinside (hsame.trans hn) hrank
  by_cases hinside : ∃ t p, t ∈ s.inside ∧ s.point t = some p
  · obtain ⟨t, p, hin, hp⟩ := hinside
    generalize hr : rank p s.shared = r
    induction r using WellFoundedLT.induction generalizing s p with
    | ind r ihrank =>
    refine hsettles s hs hT hn ?_
    rintro u p' s' o hp' hstep hs' hT' hin' hinside' hn' ⟨q, hq, hrank⟩
    obtain rfl := (hbalanced s hs).alone hin hin'
    cases hp.symm.trans hp'
    exact ihrank _ (hr ▸ hrank) hs' hT' hn' q (hinside' ▸ hin) hq rfl
  · refine hsettles s hs hT hn ?_
    intro t p s' o hp _ _ _ hin
    exact absurd ⟨t, p, hin, hp⟩ hinside

end Rest

end CharDriver.Base
