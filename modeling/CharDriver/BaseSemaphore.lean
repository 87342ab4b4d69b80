import CharDriver.BaseMachine
import Mathlib.Data.Finset.Card
import Mathlib.Logic.Function.Basic
import Mathlib.Logic.Relation
import Mathlib.Order.WellFounded

/-! Threads that share data behind a semaphore. A program is given by its points and what it does next
at each of them; the threads of a pool take their steps in any order. A program is guarded when every
path through it takes the semaphore at most once, accesses the data only while it has it, and returns
only after it gave it back. Then the count of the semaphore and the threads inside always add up to
one, and a thread inside whose steps go through gets out. -/

namespace CharDriver.Base

variable {ι κ σ υ π ο ε : Type}

/-- What a program does next. -/
inductive Action (σ υ π ο ε : Type) where
  | load (next : υ → π)
  | down (signal : Bool) (taken interrupted : π)
  | access (f : σ → Except ε (π × σ))
  | up (next : π)
  | done (reply : ο)

/-- The count of a semaphore, which is part of the shared data. -/
structure Semaphore (σ : Type) where
  count : σ → Nat
  down : Bool → σ → Option σ
  up : σ → σ
  count_down : ∀ {signal s s'}, down signal s = some s' → count s' + 1 = count s
  count_up : ∀ s, count (up s) = count s + 1

structure Program (κ σ υ π ο ε : Type) where
  sem : Semaphore σ
  /-- The part of the shared data that the semaphore does not guard. -/
  view : σ → υ
  entry : κ → π
  action : π → Action σ υ π ο ε

/-- The shared data and the point each thread is at, if it runs. What the threads do does not depend on
the rest: `inside` are those between a successful `down` and the `up`, `touched` those whose current
call has made an access. -/
structure Pool (ι σ π : Type) where
  shared : σ
  point : ι → Option π
  inside : Finset ι
  touched : Finset ι

inductive Move (ι κ : Type) where
  | start (t : ι) (c : κ)
  | advance (t : ι)
  deriving DecidableEq, Repr

def Pool.initial (shared : σ) : Pool ι σ π := ⟨shared, fun _ => none, ∅, ∅⟩

def Move.Enabled (s : Pool ι σ π) : Move ι κ → Prop
  | .start t _ => s.point t = none
  | .advance t => s.point t ≠ none

instance moveEnabledDecidable (s : Pool ι σ π) : ∀ m : Move ι κ, Decidable (m.Enabled s)
  | .start t _ => decidable_of_iff (s.point t).isNone Option.isNone_iff_eq_none
  | .advance t => decidable_of_iff (s.point t).isSome Option.isSome_iff_ne_none

section Step

variable [DecidableEq ι]

def Pool.goto (s : Pool ι σ π) (t : ι) (p : π) : Pool ι σ π :=
  { s with point := Function.update s.point t (some p) }

/-- One action of a thread. A call that returns reports its reply. -/
def Program.stepAt (P : Program κ σ υ π ο ε) (s : Pool ι σ π) (t : ι) :
    Action σ υ π ο ε → Except ε (Pool ι σ π × Option (ι × ο))
  | .load next => .ok (s.goto t (next (P.view s.shared)), none)
  | .down signal taken interrupted =>
      match P.sem.down signal s.shared with
      | none => .ok (s.goto t interrupted, none)
      | some shared => .ok ({ s.goto t taken with shared, inside := insert t s.inside }, none)
  | .access f =>
      (f s.shared).map fun r =>
        ({ s.goto t r.1 with shared := r.2, touched := insert t s.touched }, none)
  | .up next =>
      .ok ({ s.goto t next with shared := P.sem.up s.shared, inside := s.inside.erase t }, none)
  | .done reply => .ok ({ s with point := Function.update s.point t none }, some (t, reply))

def Program.step (P : Program κ σ υ π ο ε) (s : Pool ι σ π) :
    Move ι κ → Except ε (Pool ι σ π × Option (ι × ο))
  | .start t c => .ok ({ s.goto t (P.entry c) with touched := s.touched.erase t }, none)
  | .advance t =>
      match s.point t with
      | none => .ok (s, none)
      | some p => P.stepAt s t (P.action p)

end Step

/-- A thread that finds the semaphore taken sleeps: only a signal moves it on. -/
def Action.Awake (sem : Semaphore σ) (s : σ) : Action σ υ π ο ε → Prop
  | .down signal _ _ => sem.down signal s = none → signal = true
  | _ => True

instance awakeDecidable (sem : Semaphore σ) (s : σ) :
    ∀ a : Action σ υ π ο ε, Decidable (a.Awake sem s)
  | .load _ => inferInstanceAs (Decidable True)
  | .down signal _ _ =>
      decidable_of_iff ((sem.down signal s).isNone → signal = true)
        (by rw [Option.isNone_iff_eq_none, Action.Awake])
  | .access _ => inferInstanceAs (Decidable True)
  | .up _ => inferInstanceAs (Decidable True)
  | .done _ => inferInstanceAs (Decidable True)

/-- A thread starts a call when it runs none, and goes on where it is awake and ready. -/
def Move.Scheduled (P : Program κ σ υ π ο ε) (Ready : σ → π → Prop) (s : Pool ι σ π) :
    Move ι κ → Prop
  | .start t _ => s.point t = none
  | .advance t => s.point t ≠ none ∧
      ∀ p ∈ s.point t, (P.action p).Awake P.sem s.shared ∧ Ready s.shared p

theorem scheduled_advance {P : Program κ σ υ π ο ε} {Ready : σ → π → Prop}
    [∀ s p, Decidable (Ready s p)] {s : Pool ι σ π} {t : ι} :
    ((s.point t).any fun p => (P.action p).Awake P.sem s.shared ∧ Ready s.shared p) = true ↔
      (Move.advance t : Move ι κ).Scheduled P Ready s := by
  cases hp : s.point t <;> simp [Move.Scheduled, hp]

instance scheduledDecidable (P : Program κ σ υ π ο ε) (Ready : σ → π → Prop)
    [∀ s p, Decidable (Ready s p)] (s : Pool ι σ π) :
    ∀ m : Move ι κ, Decidable (m.Scheduled P Ready s)
  | .start t _ => decidable_of_iff (s.point t).isNone Option.isNone_iff_eq_none
  | .advance _ => decidable_of_iff _ scheduled_advance

theorem Move.Scheduled.enabled {P : Program κ σ υ π ο ε} {Ready : σ → π → Prop} {s : Pool ι σ π}
    {m : Move ι κ} (h : m.Scheduled P Ready s) : m.Enabled s := by
  cases m with
  | start t c => exact h
  | advance t => exact h.1

inductive Phase where
  | before
  | inside
  | after
  deriving DecidableEq, Repr

/-- What an action may be in each phase, and where it leads. -/
def Action.Guarded (P : Program κ σ υ π ο ε) (Ok : σ → Prop) (At : Phase → π → Prop)
    (Out : Phase → ο → Prop) (phase : Phase) : Action σ υ π ο ε → Prop
  | .load next => phase = .before ∧ ∀ s, Ok s → At .before (next (P.view s))
  | .down _ taken interrupted => phase = .before ∧ At .inside taken ∧ At .before interrupted
  | .access f => phase = .inside ∧ ∀ s q s', Ok s → f s = .ok (q, s') →
      At .inside q ∧ Ok s' ∧ P.sem.count s' = P.sem.count s
  | .up next => phase = .inside ∧ At .after next
  | .done reply => phase ≠ .inside ∧ Out phase reply

/-- A program with an assertion for each phase, which its actions keep, for data that satisfies `Ok`. -/
structure Guarded (P : Program κ σ υ π ο ε) (Ok : σ → Prop) (At : Phase → π → Prop)
    (Out : Phase → ο → Prop) : Prop where
  entry : ∀ c, At .before (P.entry c)
  action : ∀ phase p, At phase p → (P.action p).Guarded P Ok At Out phase
  ok_down : ∀ signal s s', Ok s → P.sem.down signal s = some s' → Ok s'
  ok_up : ∀ s, Ok s → Ok (P.sem.up s)

variable {P : Program κ σ υ π ο ε} {Ok : σ → Prop} {At : Phase → π → Prop} {Out : Phase → ο → Prop}

structure Balanced (P : Program κ σ υ π ο ε) (Ok : σ → Prop) (At : Phase → π → Prop)
    (s : Pool ι σ π) : Prop where
  ok : Ok s.shared
  count : P.sem.count s.shared + s.inside.card = 1
  idle : ∀ t, s.point t = none → t ∉ s.inside
  busy : ∀ t p, s.point t = some p → ∃ phase, At phase p ∧ (t ∈ s.inside ↔ phase = .inside) ∧
    (t ∈ s.touched → phase ≠ .before)

theorem balanced_initial {shared : σ} (hok : Ok shared) (hcount : P.sem.count shared = 1) :
    Balanced P Ok At (Pool.initial shared : Pool ι σ π) where
  ok := hok
  count := hcount
  idle _ _ := Finset.notMem_empty _
  busy _ _ h := by cases h

section Says

variable {s : Pool ι σ π}

theorem Balanced.alone (h : Balanced P Ok At s) {t u : ι} (ht : t ∈ s.inside) (hu : u ∈ s.inside) :
    t = u := by
  have hcount := h.count
  exact Finset.card_le_one.mp (by omega) t ht u hu

theorem Balanced.count_idle (h : Balanced P Ok At s) (hidle : ∀ t, s.point t = none) :
    P.sem.count s.shared = 1 := by
  have hcount := h.count
  have hempty : s.inside = ∅ := Finset.eq_empty_of_forall_notMem fun t => h.idle t (hidle t)
  rwa [hempty, Finset.card_empty] at hcount

theorem Balanced.access_inside (hP : Guarded P Ok At Out) (h : Balanced P Ok At s) {t : ι} {p : π}
    (hp : s.point t = some p) {f : σ → Except ε (π × σ)} (ha : P.action p = .access f) :
    t ∈ s.inside := by
  obtain ⟨phase, hat, hin, -⟩ := h.busy t p hp
  have hguard := hP.action phase p hat
  rw [ha] at hguard
  exact hin.mpr hguard.1

/-- A call returns outside, and what it returns fits what it did. -/
theorem Balanced.done_outside (hP : Guarded P Ok At Out) (h : Balanced P Ok At s) {t : ι} {p : π}
    (hp : s.point t = some p) {reply : ο} (ha : P.action p = .done reply) :
    t ∉ s.inside ∧ ∃ phase, Out phase reply ∧ (t ∈ s.touched → phase ≠ .before) := by
  obtain ⟨phase, hat, hin, htouched⟩ := h.busy t p hp
  have hguard := hP.action phase p hat
  rw [ha] at hguard
  exact ⟨fun hmem => hguard.1 (hin.mp hmem), phase, hguard.2, htouched⟩

end Says

section Steps

variable [DecidableEq ι] {s : Pool ι σ π}

/-- One thread goes to a new point, and nothing changes for the others. -/
theorem Balanced.goto (h : Balanced P Ok At s) {t : ι} {p : π} {phase : Phase} {s' : Pool ι σ π}
    (hpoint : s'.point = Function.update s.point t (some p)) (hat : At phase p) (hok : Ok s'.shared)
    (hcount : P.sem.count s'.shared + s'.inside.card = 1)
    (hinside : t ∈ s'.inside ↔ phase = .inside) (htouched : t ∈ s'.touched → phase ≠ .before)
    (hothers : ∀ u, u ≠ t → (u ∈ s'.inside ↔ u ∈ s.inside) ∧ (u ∈ s'.touched → u ∈ s.touched)) :
    Balanced P Ok At s' where
  ok := hok
  count := hcount
  idle u hu := by
    have hne : u ≠ t := by
      rintro rfl
      simp [hpoint] at hu
    rw [hpoint, Function.update_of_ne hne] at hu
    rw [(hothers u hne).1]
    exact h.idle u hu
  busy u q hu := by
    by_cases hne : u = t
    · subst hne
      rw [hpoint, Function.update_self, Option.some.injEq] at hu
      exact ⟨phase, hu ▸ hat, hinside, htouched⟩
    · rw [hpoint, Function.update_of_ne hne] at hu
      obtain ⟨phase', hat', hinside', htouched'⟩ := h.busy u q hu
      obtain ⟨hin, htouch⟩ := hothers u hne
      exact ⟨phase', hat', hin.trans hinside', fun hmem => htouched' (htouch hmem)⟩

theorem Balanced.returned (h : Balanced P Ok At s) {t : ι} (hout : t ∉ s.inside) :
    Balanced P Ok At { s with point := Function.update s.point t none } where
  ok := h.ok
  count := h.count
  idle u hu := by
    by_cases hne : u = t
    · exact hne ▸ hout
    · exact h.idle u (by simpa only [Function.update_of_ne hne] using hu)
  busy u q hu := by
    by_cases hne : u = t
    · simp only [hne, Function.update_self, reduceCtorEq] at hu
    · exact h.busy u q (by simpa only [Function.update_of_ne hne] using hu)

theorem step_advance {t : ι} {p : π} (hp : s.point t = some p) (P : Program κ σ υ π ο ε) :
    P.step s (.advance t) = P.stepAt s t (P.action p) := by
  rw [Program.step, hp]

theorem start_balanced (hP : Guarded P Ok At Out) (h : Balanced P Ok At s) {t : ι} (c : κ)
    (hidle : s.point t = none) :
    Balanced P Ok At { s.goto t (P.entry c) with touched := s.touched.erase t } := by
  refine h.goto rfl (hP.entry c) h.ok h.count ?_ ?_ fun u hne => ⟨Iff.rfl, Finset.mem_of_mem_erase⟩
  · simpa [Pool.goto] using h.idle t hidle
  · exact fun hmem => absurd hmem (Finset.notMem_erase t s.touched)

theorem stepAt_balanced (hP : Guarded P Ok At Out) (h : Balanced P Ok At s) {t : ι} {p : π}
    (hp : s.point t = some p) {s' : Pool ι σ π} {o : Option (ι × ο)}
    (hstep : P.stepAt s t (P.action p) = .ok (s', o)) : Balanced P Ok At s' := by
  obtain ⟨phase, hat, hin, htouched⟩ := h.busy t p hp
  have hguard := hP.action phase p hat
  generalize P.action p = a at hguard hstep
  cases a with
  | load next =>
      obtain ⟨rfl, hnext⟩ := hguard
      cases hstep
      exact h.goto rfl (hnext s.shared h.ok) h.ok h.count hin htouched fun u hne => ⟨Iff.rfl, id⟩
  | down signal taken interrupted =>
      obtain ⟨rfl, htaken, hinterrupted⟩ := hguard
      have hout : t ∉ s.inside := fun hmem => Phase.noConfusion (hin.mp hmem)
      simp only [Program.stepAt] at hstep
      split at hstep
      · cases hstep
        exact h.goto rfl hinterrupted h.ok h.count hin htouched fun u hne => ⟨Iff.rfl, id⟩
      · rename_i shared hdown
        cases hstep
        have hdown' := P.sem.count_down hdown
        have hcount := h.count
        refine h.goto rfl htaken (hP.ok_down _ _ _ h.ok hdown) ?_
          (by simp) (fun _ => by simp) fun u hne => ⟨by simp [hne], id⟩
        rw [Finset.card_insert_of_notMem hout]
        show P.sem.count shared + (s.inside.card + 1) = 1
        omega
  | access f =>
      obtain ⟨rfl, hf⟩ := hguard
      obtain ⟨⟨q, shared⟩, hrun, hr⟩ := map_eq_ok hstep
      cases hr
      obtain ⟨hq, hok, hcount⟩ := hf s.shared q shared h.ok hrun
      refine h.goto rfl hq hok ?_ hin (fun _ => by simp) fun u hne => ⟨Iff.rfl, fun hmem => ?_⟩
      · rw [hcount]
        exact h.count
      · exact (Finset.mem_insert.mp hmem).resolve_left hne
  | up next =>
      obtain ⟨rfl, hnext⟩ := hguard
      cases hstep
      have hmem : t ∈ s.inside := hin.mpr rfl
      have hpos := Finset.card_pos.mpr ⟨t, hmem⟩
      refine h.goto rfl hnext (hP.ok_up _ h.ok) ?_ (by simp) (fun _ => by simp)
        fun u hne => ⟨by simp [hne], id⟩
      rw [P.sem.count_up, Finset.card_erase_of_mem hmem]
      have hcount := h.count
      omega
  | done reply =>
      obtain ⟨hphase, -⟩ := hguard
      cases hstep
      exact h.returned fun hmem => hphase (hin.mp hmem)

theorem step_balanced (hP : Guarded P Ok At Out) (h : Balanced P Ok At s) {m : Move ι κ}
    (hm : m.Enabled s) {s' : Pool ι σ π} {o : Option (ι × ο)} (hstep : P.step s m = .ok (s', o)) :
    Balanced P Ok At s' := by
  cases m with
  | start t c =>
      cases hstep
      exact start_balanced hP h c hm
  | advance t =>
      obtain ⟨p, hp⟩ := Option.ne_none_iff_exists'.mp hm
      rw [step_advance hp] at hstep
      exact stepAt_balanced hP h hp hstep

/-- The invariant holds in every state that a run reaches. -/
theorem run_balanced (hP : Guarded P Ok At Out) {moves : List (Move ι κ)} {s' : Pool ι σ π}
    {os : List (Option (ι × ο))} (hrun : runSteps P.step s moves = .ok (s', os))
    (hmoves : Admissible P.step Move.Enabled s moves) (h : Balanced P Ok At s) :
    Balanced P Ok At s' :=
  runSteps_keeps (fun _ _ _ _ hs hm hstep => step_balanced hP hs hm hstep) hrun hmoves h

/-- A thread that is outside, and steps, changes the count at most. -/
theorem Balanced.outside_step (hP : Guarded P Ok At Out) (h : Balanced P Ok At s) {t : ι}
    (hout : t ∉ s.inside) {s' : Pool ι σ π} {o : Option (ι × ο)}
    (hstep : P.step s (.advance t) = .ok (s', o)) :
    s'.shared = s.shared ∨ ∃ signal, P.sem.down signal s.shared = some s'.shared := by
  cases hp : s.point t with
  | none =>
      simp only [Program.step, hp] at hstep
      cases hstep
      exact Or.inl rfl
  | some p =>
      obtain ⟨phase, hat, hin, -⟩ := h.busy t p hp
      have hguard := hP.action phase p hat
      rw [step_advance hp] at hstep
      generalize P.action p = a at hguard hstep
      cases a with
      | load next =>
          cases hstep
          exact Or.inl rfl
      | down signal taken interrupted =>
          simp only [Program.stepAt] at hstep
          split at hstep
          · cases hstep
            exact Or.inl rfl
          · rename_i shared hdown
            cases hstep
            exact Or.inr ⟨signal, hdown⟩
      | access f => exact absurd (hin.mpr hguard.1) hout
      | up next => exact absurd (hin.mpr hguard.1) hout
      | done reply =>
          cases hstep
          exact Or.inl rfl

/-- Steps of its own, which all go through, take the thread out. -/
def GetsOut (P : Program κ σ υ π ο ε) (s : Pool ι σ π) (t : ι) : Prop :=
  ∃ n s' os, runSteps P.step s (List.replicate n (.advance t)) = .ok (s', os) ∧ t ∉ s'.inside

/-- A thread inside whose next step fails stays there. -/
theorem not_getsOut_of_error {t : ι} {e : ε} (hin : t ∈ s.inside)
    (hstep : P.step s (.advance t) = .error e) : ¬GetsOut P s t := by
  rintro ⟨n, s', os, hrun, hout⟩
  cases n with
  | zero =>
      cases hrun
      exact hout hin
  | succ n =>
      obtain ⟨s₁, o, os₁, hok, -⟩ := runSteps_cons_eq_ok hrun
      cases hstep.symm.trans hok

/-- Where its steps go through, under an invariant, and every access lowers a rank, a thread gets
out. -/
theorem getsOut_of_rank {α : Type} [Preorder α] [WellFoundedLT α] {rank : π → σ → α}
    (hP : Guarded P Ok At Out)
    (hrank : ∀ p f s q s', At .inside p → P.action p = .access f → f s = .ok (q, s') →
      rank q s' < rank p s)
    {Inv : Pool ι σ π → Prop} (hbalanced : ∀ s, Inv s → Balanced P Ok At s) {t : ι}
    (hmove : ∀ s, Inv s → t ∈ s.inside → ∃ s' o, P.step s (.advance t) = .ok (s', o) ∧ Inv s')
    {p : π} (hp : s.point t = some p) (hs : Inv s) : GetsOut P s t := by
  generalize hr : rank p s.shared = r
  induction r using WellFoundedLT.induction generalizing s p with
  | ind r ih =>
      subst hr
      by_cases hmem : t ∈ s.inside
      · obtain ⟨phase, hat, hin, -⟩ := (hbalanced s hs).busy t p hp
        obtain rfl := hin.mp hmem
        have hguard := hP.action .inside p hat
        obtain ⟨s₁, o, hstep, hs₁⟩ := hmove s hs hmem
        have hout : GetsOut P s₁ t := by
          rw [step_advance hp] at hstep
          cases ha : P.action p with
          | access f =>
              rw [ha] at hstep
              obtain ⟨⟨q, shared⟩, hrun, heq⟩ := map_eq_ok hstep
              cases heq
              exact ih _ (hrank p f s.shared q shared hat ha hrun) (Function.update_self t _ _) hs₁ rfl
          | up next =>
              rw [ha] at hstep
              cases hstep
              exact ⟨0, _, [], rfl, Finset.notMem_erase t s.inside⟩
          | load next =>
              rw [ha] at hguard
              cases hguard.1
          | down signal taken interrupted =>
              rw [ha] at hguard
              cases hguard.1
          | done reply =>
              rw [ha] at hguard
              exact absurd rfl hguard.1
        obtain ⟨n, s', os, hrun, hend⟩ := hout
        exact ⟨n + 1, s', o :: os, runSteps_cons_ok hstep _ hrun, hend⟩
      · exact ⟨0, s, [], rfl, hmem⟩

/-- A step of a program that nothing interferes with. -/
inductive Program.Solo (P : Program κ σ υ π ο ε) : π × σ → π × σ → Prop where
  | load {p s next} (ha : P.action p = .load next) : P.Solo (p, s) (next (P.view s), s)
  | taken {p s signal q r s'} (ha : P.action p = .down signal q r)
      (hdown : P.sem.down signal s = some s') : P.Solo (p, s) (q, s')
  | interrupted {p s signal q r} (ha : P.action p = .down signal q r)
      (hdown : P.sem.down signal s = none) : P.Solo (p, s) (r, s)
  | access {p s f q s'} (ha : P.action p = .access f) (hf : f s = .ok (q, s')) : P.Solo (p, s) (q, s')
  | up {p s q} (ha : P.action p = .up q) : P.Solo (p, s) (q, P.sem.up s)

theorem Program.Solo.step {p q : π} {shared shared' : σ} (h : P.Solo (p, shared) (q, shared')) {t : ι}
    (hp : s.point t = some p) (hshared : s.shared = shared) :
    ∃ s', P.step s (.advance t) = .ok (s', none) ∧ s'.shared = shared' ∧
      s'.point = Function.update s.point t (some q) := by
  subst hshared
  rw [step_advance hp]
  cases h with
  | load ha => exact ⟨s.goto t _, by rw [ha]; rfl, rfl, rfl⟩
  | taken ha hdown => exact ⟨_, by rw [ha, Program.stepAt, hdown], rfl, rfl⟩
  | interrupted ha hdown => exact ⟨s.goto t q, by rw [ha, Program.stepAt, hdown], rfl, rfl⟩
  | access ha hf => exact ⟨_, by rw [ha, Program.stepAt, hf]; rfl, rfl, rfl⟩
  | up ha => exact ⟨_, by rw [ha]; rfl, rfl, rfl⟩

/-- What a program does on its own, a thread of the pool does when only it moves. -/
theorem solo_run {x y : π × σ} (h : Relation.ReflTransGen P.Solo x y) {t : ι}
    (hp : s.point t = some x.1) (hshared : s.shared = x.2) :
    ∃ n s' os, runSteps P.step s (List.replicate n (.advance t)) = .ok (s', os) ∧
      s'.shared = y.2 ∧ s'.point = Function.update s.point t (some y.1) := by
  induction h using Relation.ReflTransGen.head_induction_on generalizing s with
  | refl => exact ⟨0, s, [], rfl, hshared, by rw [← hp, Function.update_eq_self]⟩
  | head hstep _ ih =>
      obtain ⟨s₁, hok, hshared₁, hpoint₁⟩ := hstep.step hp hshared
      obtain ⟨n, s', os, hrun, hshared', hpoint'⟩ :=
        ih (by rw [hpoint₁, Function.update_self]) hshared₁
      refine ⟨n + 1, s', none :: os, runSteps_cons_ok hok _ hrun, hshared', ?_⟩
      rw [hpoint', hpoint₁, Function.update_idem]

end Steps

end CharDriver.Base
