import CharDriver.BaseSemaphore

/-! Atomic objects, and programs that cannot be told from them. An object answers each call in one
step, at some moment between the start of the call and its return. A guarded program whose calls, run
alone, do what the object's steps do has the object's histories and no others: a call takes effect when
it gives the semaphore back. What a call loads before it takes the semaphore has to be what it would
load then. -/

namespace CharDriver.Base

variable {ι κ σ υ π ο ε : Type}

/-- A call on an object, before and after its step. -/
inductive Answer (κ ο : Type) where
  | called (c : κ)
  | answered (r : ο)
  deriving DecidableEq, Repr

inductive Report (ι κ ο : Type) where
  | silent
  | committed (c : κ) (r : ο)
  | returned (t : ι) (r : ο)
  deriving DecidableEq, Repr

/-- The moves of the threads that share an object: a call, its step, and its return. -/
def serve [DecidableEq ι] (step : σ → κ → Except ε (σ × ο)) (s : Pool ι σ (Answer κ ο)) :
    Move ι κ → Except ε (Pool ι σ (Answer κ ο) × Report ι κ ο)
  | .start t c => .ok (s.goto t (.called c), .silent)
  | .advance t =>
      match s.point t with
      | none => .ok (s, .silent)
      | some (.called c) => (step s.shared c).map fun r =>
          ({ s.goto t (.answered r.2) with shared := r.1 }, .committed c r.2)
      | some (.answered r) =>
          .ok ({ s with point := Function.update s.point t none }, .returned t r)

/-- What the callers see. -/
inductive Seen (ι κ ο : Type) where
  | called (t : ι) (c : κ)
  | returned (t : ι) (r : ο)
  deriving DecidableEq, Repr

/-- What the callers see of a move of a program. -/
def seen : Move ι κ → Option (ι × ο) → Option (Seen ι κ ο)
  | .start t c, _ => some (.called t c)
  | .advance _, o => o.map fun r => .returned r.1 r.2

def Report.seen : Move ι κ → Report ι κ ο → Option (Seen ι κ ο)
  | .start t c, _ => some (.called t c)
  | .advance _, .returned t r => some (.returned t r)
  | .advance _, _ => none

def Report.commit : Report ι κ ο → Option (κ × ο)
  | .committed c r => some (c, r)
  | _ => none

/-- The calls of a run of an object, with their replies, in the order in which they took effect. -/
def committed (os : List (Report ι κ ο)) : List κ × List ο := served (os.map Report.commit)

/-- The moves go through, and are seen as a run of the object is. Where no thread is inside, the two
leave the same data behind. `Told` is asked of the calls of the object's run and their replies. -/
def Linearizable [DecidableEq ι] (P : Program κ σ υ π ο ε) (step : σ → κ → Except ε (σ × ο))
    (Told : List κ → List ο → Prop) (shared : σ) (moves : List (Move ι κ)) : Prop :=
  ∃ s os, runSteps P.step (Pool.initial shared) moves = .ok (s, os) ∧
    ∃ moves' s' os', Admissible (serve step) Move.Enabled (Pool.initial shared) moves' ∧
      runSteps (serve step) (Pool.initial shared) moves' = .ok (s', os') ∧
      trace Report.seen moves' os' = trace seen moves os ∧ (s.inside = ∅ → s'.shared = s.shared) ∧
      Told (committed os').1 (committed os').2

section Object

variable [DecidableEq ι] {step : σ → κ → Except ε (σ × ο)}

theorem serve_called {s : Pool ι σ (Answer κ ο)} {t : ι} {c : κ} {shared : σ} {r : ο}
    (hpoint : s.point t = some (.called c)) (hstep : step s.shared c = .ok (shared, r)) :
    serve step s (.advance t) =
      .ok ({ s.goto t (.answered r) with shared }, .committed c r) := by
  simp only [serve, hpoint, hstep, Except.map]

theorem serve_answered (step : σ → κ → Except ε (σ × ο)) {s : Pool ι σ (Answer κ ο)} {t : ι} {r : ο}
    (hpoint : s.point t = some (.answered r)) :
    serve step s (.advance t) =
      .ok ({ s with point := Function.update s.point t none }, .returned t r) := by
  simp only [serve, hpoint]

/-- A move of an object, which meets a condition where it is its step. -/
def Move.Served (Pre : σ → κ → Prop) (s : Pool ι σ (Answer κ ο)) : Move ι κ → Prop
  | .start t _ => s.point t = none
  | .advance t => s.point t ≠ none ∧ ∀ c, s.point t = some (.called c) → Pre s.shared c

omit [DecidableEq ι] in
theorem Move.Served.enabled {Pre : σ → κ → Prop} {s : Pool ι σ (Answer κ ο)} {m : Move ι κ}
    (h : m.Served Pre s) : m.Enabled s := by
  cases m with
  | start t c => exact h
  | advance t => exact h.1

omit [DecidableEq ι] in
theorem committed_commit (c : κ) (r : ο) (os : List (Report ι κ ο)) :
    committed (.committed c r :: os) = (c :: (committed os).1, r :: (committed os).2) := by
  simp [committed, served, Report.commit]

/-- The calls of an object's run, one after the other, are a run of its steps. -/
theorem serve_serial {Pre : σ → κ → Prop} {moves : List (Move ι κ)} {s s' : Pool ι σ (Answer κ ο)}
    {os : List (Report ι κ ο)} (hrun : runSteps (serve step) s moves = .ok (s', os))
    (hserved : Admissible (serve step) (Move.Served Pre) s moves) :
    runSteps step s.shared (committed os).1 = .ok (s'.shared, (committed os).2) ∧
      Admissible step Pre s.shared (committed os).1 := by
  induction moves generalizing s os with
  | nil =>
      cases hrun
      exact ⟨rfl, trivial⟩
  | cons m moves ih =>
      obtain ⟨s₁, o, os₁, hmove, hrest, rfl⟩ := runSteps_cons_eq_ok hrun
      obtain ⟨hserial, hadm⟩ := ih hrest (hserved.tail hmove)
      have hm := hserved.1
      cases m with
      | start t c =>
          cases hmove
          exact ⟨hserial, hadm⟩
      | advance t =>
          simp only [serve] at hmove
          split at hmove
          · cases hmove
            exact ⟨hserial, hadm⟩
          · rename_i c hcalled
            obtain ⟨⟨shared, r⟩, hstep, heq⟩ := map_eq_ok hmove
            cases heq
            rw [committed_commit]
            refine ⟨runSteps_cons_ok hstep _ hserial, hm.2 c hcalled, ?_⟩
            rw [hstep]
            exact hadm
          · cases hmove
            exact ⟨hserial, hadm⟩

theorem committed_called {moves : List (Move ι κ)} {s s' : Pool ι σ (Answer κ ο)}
    {os : List (Report ι κ ο)} (hrun : runSteps (serve step) s moves = .ok (s', os)) {c : κ}
    (hc : c ∈ (committed os).1) : (∃ t, s.point t = some (.called c)) ∨
      ∃ t, .called t c ∈ trace Report.seen moves os := by
  induction moves generalizing s os with
  | nil =>
      cases hrun
      cases hc
  | cons m moves ih =>
      obtain ⟨s₁, o, os₁, hmove, hrest, rfl⟩ := runSteps_cons_eq_ok hrun
      -- a call that was made before the second move was made before the first, or is the first
      have hfirst (hc : c ∈ (committed os₁).1)
          (hpoint : ∀ u, s₁.point u = some (.called c) → s.point u = some (.called c) ∨
            Report.seen m o = some (.called u c)) : (∃ t, s.point t = some (.called c)) ∨
          ∃ t, .called t c ∈ trace Report.seen (m :: moves) (o :: os₁) := by
        rcases ih hrest hc with ⟨u, hu⟩ | ⟨u, hu⟩
        · rcases hpoint u hu with hu | hu
          · exact Or.inl ⟨u, hu⟩
          · exact Or.inr ⟨u, mem_trace_cons.mpr (Or.inl hu)⟩
        · exact Or.inr ⟨u, mem_trace_cons.mpr (Or.inr hu)⟩
      cases m with
      | start t c' =>
          cases hmove
          refine hfirst hc fun u hu => ?_
          by_cases hut : u = t
          · subst hut
            simp only [Pool.goto, Function.update_self, Option.some.injEq, Answer.called.injEq] at hu
            exact Or.inr (by rw [Report.seen, hu])
          · exact Or.inl (by simpa only [Pool.goto, Function.update_of_ne hut] using hu)
      | advance t =>
          simp only [serve] at hmove
          split at hmove
          · cases hmove
            exact hfirst hc fun u hu => Or.inl hu
          · rename_i c' hcalled
            obtain ⟨⟨shared, r⟩, hstep, heq⟩ := map_eq_ok hmove
            cases heq
            rw [committed_commit] at hc
            rcases List.mem_cons.mp hc with rfl | hc
            · exact Or.inl ⟨t, hcalled⟩
            refine hfirst hc fun u hu => Or.inl ?_
            by_cases hut : u = t
            · simp [Pool.goto, hut] at hu
            · simpa only [Pool.goto, Function.update_of_ne hut] using hu
          · cases hmove
            refine hfirst hc fun u hu => Or.inl ?_
            by_cases hut : u = t
            · simp [hut] at hu
            · simpa only [Function.update_of_ne hut] using hu

end Object

section Alone

variable {P : Program κ σ υ π ο ε}

theorem solo_unique : Relator.RightUnique P.Solo := by
  intro x y z hy hz
  cases hy <;> cases hz <;> simp_all

theorem not_solo_done {q : π} {r : ο} (hdone : P.action q = .done r) {s : σ} {y : π × σ} :
    ¬P.Solo (q, s) y := by
  intro hstep
  cases hstep <;> simp_all

/-- A call on its way to its end gets there from every point of the way. -/
theorem solo_rest {x y : π × σ} {q : π} {s : σ} {r : ο}
    (hend : Relation.ReflTransGen P.Solo x (q, s)) (hdone : P.action q = .done r)
    (hway : Relation.ReflTransGen P.Solo x y) : Relation.ReflTransGen P.Solo y (q, s) := by
  rcases Relation.ReflTransGen.total_of_right_unique solo_unique hend hway with hpast | hrest
  · rcases hpast.cases_head with rfl | ⟨z, hstep, -⟩
    · exact Relation.ReflTransGen.refl
    · exact absurd hstep (not_solo_done hdone)
  · exact hrest

theorem solo_next {x y : π × σ} {q : π} {s : σ} {r : ο}
    (hend : Relation.ReflTransGen P.Solo x (q, s)) (hdone : P.action q = .done r)
    (hway : Relation.ReflTransGen P.Solo x y) (hy : ∀ r, P.action y.1 ≠ .done r) :
    ∃ z, P.Solo y z := by
  rcases (solo_rest hend hdone hway).cases_head with rfl | ⟨z, hstep, -⟩
  · exact absurd hdone (hy r)
  · exact ⟨z, hstep⟩

theorem solo_end {x : π × σ} {q q' : π} {s s' : σ} {r r' : ο}
    (hend : Relation.ReflTransGen P.Solo x (q, s)) (hdone : P.action q = .done r)
    (hend' : Relation.ReflTransGen P.Solo x (q', s')) (hdone' : P.action q' = .done r') :
    s = s' ∧ r = r' := by
  rcases (solo_rest hend hdone hend').cases_head with heq | ⟨z, hstep, -⟩
  · obtain ⟨rfl, rfl⟩ := Prod.mk.inj heq
    have hreply := hdone.symm.trans hdone'
    cases hreply
    exact ⟨rfl, rfl⟩
  · exact absurd hstep (not_solo_done hdone')

end Alone

/-! ### Linearizability -/

/-- The object can answer the call, and its data stay good. -/
def Serving (step : σ → κ → Except ε (σ × ο)) (Good : σ → Prop) (Pre : σ → κ → Prop) (s : σ) (c : κ) :
    Prop :=
  Pre s c ∧ ∃ s' r, step s c = .ok (s', r) ∧ Good s'

/-- What a call may do that waits for the semaphore. It takes it, where it is ready, at a point that a
call made at that moment would reach; and where it is interrupted the object does nothing either. -/
def Action.Waiting (P : Program κ σ υ π ο ε) (step : σ → κ → Except ε (σ × ο)) (Good : σ → Prop)
    (Pre : σ → κ → Prop) (Waits : κ → π → Prop) (Ready : σ → π → Prop) (c : κ) (p : π) :
    Action σ υ π ο ε → Prop
  | .load next => ∀ u, Waits c (next u)
  | .down signal taken interrupted =>
      (∀ s s', Good s → Ready s p → P.sem.down signal s = some s' →
        Relation.ReflTransGen P.Solo (P.entry c, s) (taken, s') ∧ Serving step Good Pre s c) ∧
      (signal = true →
        ∃ r, P.action interrupted = .done r ∧ ∀ s, Pre s c ∧ step s c = .ok (s, r))
  | _ => False

/-- A program whose calls, run alone, are the steps of an object. `Good` is what the object keeps of its
data, `Pre` what holds of a call where it takes effect, and `Waits c` holds at the points that the call
`c` passes before it takes the semaphore. -/
structure Linear (P : Program κ σ υ π ο ε) (step : σ → κ → Except ε (σ × ο)) (Good : σ → Prop)
    (Pre : σ → κ → Prop) (Waits : κ → π → Prop) (Ready : σ → π → Prop) : Prop where
  entry : ∀ c, Waits c (P.entry c) ∨
    ∃ r, P.action (P.entry c) = .done r ∧ ∀ s, Pre s c ∧ step s c = .ok (s, r)
  waiting : ∀ c p, Waits c p → (P.action p).Waiting P step Good Pre Waits Ready c p
  up_done : ∀ p q, P.action p = .up q → ∃ r, P.action q = .done r
  alone : ∀ s c s' r, step s c = .ok (s', r) →
    ∃ q, P.action q = .done r ∧ Relation.ReflTransGen P.Solo (P.entry c, s) (q, s')

/-- How far the call of a thread is, at a point `p`, in the program and on the object. -/
inductive Mirrored (P : Program κ σ υ π ο ε) (step : σ → κ → Except ε (σ × ο)) (Good : σ → Prop)
    (Pre : σ → κ → Prop) (Waits : κ → π → Prop) (s : Pool ι σ π) (a : Pool ι σ (Answer κ ο)) (t : ι)
    (p : π) : Prop where
  | waits (c : κ) (hout : t ∉ s.inside) (hp : Waits c p) (ha : a.point t = some (.called c))
  /-- It is on its way from the data of the object, and the object could answer it. -/
  | inside (c : κ) (hin : t ∈ s.inside)
      (hway : Relation.ReflTransGen P.Solo (P.entry c, a.shared) (p, s.shared))
      (ha : a.point t = some (.called c)) (hserving : Serving step Good Pre a.shared c)
  | done (r : ο) (hout : t ∉ s.inside) (hp : P.action p = .done r)
      (ha : a.point t = some (.answered r))

/-- The object next to the program. -/
structure Mirrors (P : Program κ σ υ π ο ε) (step : σ → κ → Except ε (σ × ο)) (Good : σ → Prop)
    (Pre : σ → κ → Prop) (Waits : κ → π → Prop) (Ok : σ → Prop) (At : Phase → π → Prop)
    (s : Pool ι σ π) (a : Pool ι σ (Answer κ ο)) : Prop where
  balanced : Balanced P Ok At s
  good : Good a.shared
  idle : ∀ t, s.point t = none → a.point t = none
  busy : ∀ t p, s.point t = some p → Mirrored P step Good Pre Waits s a t p
  free : s.inside = ∅ → a.shared = s.shared

section Simulation

variable [DecidableEq ι] {P : Program κ σ υ π ο ε} {step : σ → κ → Except ε (σ × ο)} {Good : σ → Prop}
  {Pre : σ → κ → Prop} {Waits : κ → π → Prop} {Ready : σ → π → Prop} {Ok : σ → Prop}
  {At : Phase → π → Prop} {Out : Phase → ο → Prop} {s s' : Pool ι σ π} {a a' : Pool ι σ (Answer κ ο)} {t : ι}

omit [DecidableEq ι] in
theorem Mirrored.keep {u : ι} {p : π} (h : Mirrored P step Good Pre Waits s a u p)
    (hinside : u ∈ s'.inside ↔ u ∈ s.inside) (hpoint : a'.point u = a.point u)
    (hshared : u ∈ s.inside → s'.shared = s.shared ∧ a'.shared = a.shared) :
    Mirrored P step Good Pre Waits s' a' u p := by
  cases h with
  | waits c hout hp ha => exact .waits c (mt hinside.mp hout) hp (hpoint.trans ha)
  | done r hout hp ha => exact .done r (mt hinside.mp hout) hp (hpoint.trans ha)
  | inside c hin hway ha hserving =>
      obtain ⟨hs, hobject⟩ := hshared hin
      refine .inside c (hinside.mpr hin) ?_ (hpoint.trans ha) (hobject ▸ hserving)
      rwa [hs, hobject]

/-- One thread goes to a new point, in the program and on the object. -/
theorem Mirrors.goto (h : Mirrors P step Good Pre Waits Ok At s a) {p : π} {x : Answer κ ο}
    (hbalanced : Balanced P Ok At s') (hgood : Good a'.shared)
    (hpoint : s'.point = Function.update s.point t (some p))
    (hpoint' : a'.point = Function.update a.point t (some x))
    (hself : Mirrored P step Good Pre Waits s' a' t p)
    (hothers : ∀ u, u ≠ t → (u ∈ s'.inside ↔ u ∈ s.inside) ∧
      (u ∈ s.inside → s'.shared = s.shared ∧ a'.shared = a.shared))
    (hfree : s'.inside = ∅ → a'.shared = s'.shared) : Mirrors P step Good Pre Waits Ok At s' a' where
  balanced := hbalanced
  good := hgood
  idle u hu := by
    have hne : u ≠ t := by
      rintro rfl
      simp [hpoint] at hu
    rw [hpoint, Function.update_of_ne hne] at hu
    rw [hpoint', Function.update_of_ne hne]
    exact h.idle u hu
  busy u q hu := by
    by_cases hne : u = t
    · subst hne
      rw [hpoint, Function.update_self, Option.some.injEq] at hu
      exact hu ▸ hself
    · rw [hpoint, Function.update_of_ne hne] at hu
      obtain ⟨hinside, hshared⟩ := hothers u hne
      exact (h.busy u q hu).keep hinside (by rw [hpoint', Function.update_of_ne hne]) hshared
  free := hfree

theorem Mirrors.returned (h : Mirrors P step Good Pre Waits Ok At s a)
    (hbalanced : Balanced P Ok At { s with point := Function.update s.point t none }) :
    Mirrors P step Good Pre Waits Ok At { s with point := Function.update s.point t none }
      { a with point := Function.update a.point t none } where
  balanced := hbalanced
  good := h.good
  idle u hu := by
    by_cases hne : u = t
    · simp only [hne, Function.update_self]
    · simp only [Function.update_of_ne hne] at hu ⊢
      exact h.idle u hu
  busy u q hu := by
    by_cases hne : u = t
    · simp only [hne, Function.update_self, reduceCtorEq] at hu
    · simp only [Function.update_of_ne hne] at hu
      exact (h.busy u q hu).keep Iff.rfl (Function.update_of_ne hne _ _) fun _ => ⟨rfl, rfl⟩
  free := h.free

/-- The move goes through, and the object follows it. -/
def Answers (P : Program κ σ υ π ο ε) (step : σ → κ → Except ε (σ × ο)) (Pre : σ → κ → Prop)
    (R : Pool ι σ π → Pool ι σ (Answer κ ο) → Prop) (s : Pool ι σ π) (a : Pool ι σ (Answer κ ο))
    (m : Move ι κ) : Prop :=
  ∃ s' o, P.step s m = .ok (s', o) ∧
    Follows (serve step) (Move.Served Pre) Report.seen R s' a (trace seen [m] [o])

theorem answers_silent {R : Pool ι σ π → Pool ι σ (Answer κ ο) → Prop}
    (hstep : P.step s (.advance t) = .ok (s', none)) (hR : R s' a) :
    Answers P step Pre R s a (.advance t) :=
  ⟨s', none, hstep, [], a, [], trivial, rfl, rfl, hR⟩

theorem served_called {c : κ} {shared : σ} {r : ο} (hcalled : a.point t = some (.called c))
    (hpre : Pre a.shared c) (hobject : step a.shared c = .ok (shared, r)) :
    Admissible (serve step) (Move.Served Pre) a [.advance t] := by
  refine ⟨⟨?_, fun c' hc' => ?_⟩, ?_⟩
  · rw [hcalled]
    exact Option.some_ne_none _
  · cases hcalled.symm.trans hc'
    exact hpre
  · rw [serve_called hcalled hobject]
    trivial

theorem answers_commit {R : Pool ι σ π → Pool ι σ (Answer κ ο) → Prop} {c : κ} {shared : σ} {r : ο}
    (hstep : P.step s (.advance t) = .ok (s', none)) (hcalled : a.point t = some (.called c))
    (hpre : Pre a.shared c) (hobject : step a.shared c = .ok (shared, r))
    (hR : R s' { a.goto t (.answered r) with shared }) : Answers P step Pre R s a (.advance t) :=
  ⟨s', none, hstep, [.advance t], _, [.committed c r], served_called hcalled hpre hobject,
    runSteps_cons_ok (serve_called hcalled hobject) [] rfl, rfl, hR⟩

omit [DecidableEq ι] in
theorem Mirrors.waits (h : Mirrors P step Good Pre Waits Ok At s a) {p : π} (hp : s.point t = some p)
    (hout : t ∉ s.inside) (hgoes : ∀ r, P.action p ≠ .done r) :
    ∃ c, Waits c p ∧ a.point t = some (.called c) := by
  cases h.busy t p hp with
  | waits c _ hw ha => exact ⟨c, hw, ha⟩
  | inside c hin _ _ _ => exact absurd hin hout
  | done r _ hdone ha => exact absurd hdone (hgoes r)

omit [DecidableEq ι] in
theorem Mirrors.on_way (h : Mirrors P step Good Pre Waits Ok At s a) {p : π} (hp : s.point t = some p)
    (hin : t ∈ s.inside) : ∃ c, a.point t = some (.called c) ∧ Serving step Good Pre a.shared c ∧
      Relation.ReflTransGen P.Solo (P.entry c, a.shared) (p, s.shared) := by
  cases h.busy t p hp with
  | waits c hout _ _ => exact absurd hin hout
  | inside c _ hway ha hserving => exact ⟨c, ha, hserving, hway⟩
  | done r hout _ _ => exact absurd hin hout

section Moves

variable (hG : Guarded P Ok At Out) (hP : Linear P step Good Pre Waits Ready)
  (h : Mirrors P step Good Pre Waits Ok At s a) {p : π}
include hG h

theorem Mirrors.balanced_step (hp : s.point t = some p) {o : Option (ι × ο)}
    (hstep : P.step s (.advance t) = .ok (s', o)) : Balanced P Ok At s' := by
  rw [step_advance hp] at hstep
  exact stepAt_balanced hG h.balanced hp hstep

include hP

theorem Mirrors.load (hp : s.point t = some p) {next : υ → π} (ha : P.action p = .load next) :
    Answers P step Pre (Mirrors P step Good Pre Waits Ok At) s a (.advance t) := by
  obtain ⟨phase, hat, hin, -⟩ := h.balanced.busy t p hp
  have hguard := hG.action phase p hat
  rw [ha] at hguard
  obtain ⟨rfl, -⟩ := hguard
  have hout : t ∉ s.inside := fun hmem => Phase.noConfusion (hin.mp hmem)
  obtain ⟨c, hw, hcalled⟩ := h.waits hp hout (by simp [ha])
  have hwaiting := hP.waiting c p hw
  rw [ha] at hwaiting
  have hstep : P.step s (.advance t) = .ok (s.goto t (next (P.view s.shared)), none) := by
    rw [step_advance hp, ha]
    rfl
  refine answers_silent hstep (h.goto (h.balanced_step hG hp hstep) h.good rfl
    (by rw [← hcalled, Function.update_eq_self]) (.waits c hout (hwaiting _) hcalled)
    (fun u _ => ⟨Iff.rfl, fun _ => ⟨rfl, rfl⟩⟩) h.free)

/-- The semaphore is taken only where no thread is inside. -/
theorem Mirrors.down (hp : s.point t = some p) {signal : Bool} {taken interrupted : π}
    (ha : P.action p = .down signal taken interrupted) (hawake : (P.action p).Awake P.sem s.shared)
    (hready : Ready s.shared p) :
    Answers P step Pre (Mirrors P step Good Pre Waits Ok At) s a (.advance t) := by
  obtain ⟨phase, hat, hin, -⟩ := h.balanced.busy t p hp
  have hguard := hG.action phase p hat
  rw [ha] at hguard
  obtain ⟨rfl, -⟩ := hguard
  have hout : t ∉ s.inside := fun hmem => Phase.noConfusion (hin.mp hmem)
  obtain ⟨c, hw, hcalled⟩ := h.waits hp hout (by simp [ha])
  have hwaiting := hP.waiting c p hw
  rw [ha] at hwaiting hawake
  obtain ⟨htaken, hinterrupted⟩ := hwaiting
  cases hdown : P.sem.down signal s.shared with
  | none =>
      obtain ⟨r, hdone, hobject⟩ := hinterrupted (hawake hdown)
      have hstep : P.step s (.advance t) = .ok (s.goto t interrupted, none) := by
        rw [step_advance hp, ha, Program.stepAt, hdown]
      obtain ⟨hpre, hobject⟩ := hobject a.shared
      exact answers_commit hstep hcalled hpre hobject
        (h.goto (h.balanced_step hG hp hstep) h.good rfl rfl
          (.done r hout hdone (Function.update_self t _ _))
          (fun u _ => ⟨Iff.rfl, fun _ => ⟨rfl, rfl⟩⟩) h.free)
  | some shared =>
      have hempty : s.inside = ∅ := by
        have hcount := h.balanced.count
        have hdown' := P.sem.count_down hdown
        exact Finset.card_eq_zero.mp (by omega)
      have hshared := h.free hempty
      obtain ⟨hway, hserving⟩ := htaken s.shared shared (hshared ▸ h.good) hready hdown
      have hstep : P.step s (.advance t) =
          .ok ({ s.goto t taken with shared, inside := insert t s.inside }, none) := by
        rw [step_advance hp, ha, Program.stepAt, hdown]
      rw [← hshared] at hway hserving
      refine answers_silent hstep (h.goto (h.balanced_step hG hp hstep) h.good rfl
        (by rw [← hcalled, Function.update_eq_self])
        (.inside c (Finset.mem_insert_self t _) hway hcalled hserving) ?_ ?_)
      · intro u hne
        refine ⟨by simp [hne], fun hmem => ?_⟩
        rw [hempty] at hmem
        exact absurd hmem (Finset.notMem_empty u)
      · exact fun hnone => absurd hnone (Finset.insert_ne_empty t s.inside)

/-- An access of a call that the object can answer goes through. -/
theorem Mirrors.access (hp : s.point t = some p) {f : σ → Except ε (π × σ)}
    (ha : P.action p = .access f) :
    Answers P step Pre (Mirrors P step Good Pre Waits Ok At) s a (.advance t) := by
  have hin := h.balanced.access_inside hG hp ha
  obtain ⟨c, hcalled, hserving, hway⟩ := h.on_way hp hin
  obtain ⟨-, s₁, r, hobject, -⟩ := id hserving
  obtain ⟨q, hdone, hend⟩ := hP.alone _ _ _ _ hobject
  obtain ⟨⟨p', shared⟩, hsolo⟩ := solo_next hend hdone hway (by simp [ha])
  have hf : f s.shared = .ok (p', shared) := by
    cases hsolo with
    | access ha' hf =>
        cases ha.symm.trans ha'
        exact hf
    | load ha' | taken ha' | interrupted ha' | up ha' => cases ha.symm.trans ha'
  have hstep : P.step s (.advance t) =
      .ok ({ s.goto t p' with shared, touched := insert t s.touched }, none) := by
    rw [step_advance hp, ha, Program.stepAt, hf]
    rfl
  refine answers_silent hstep (h.goto (h.balanced_step hG hp hstep) h.good rfl
    (by rw [← hcalled, Function.update_eq_self])
    (.inside c hin (hway.tail hsolo) hcalled hserving) ?_ ?_)
  · exact fun u hne => ⟨Iff.rfl, fun hmem => absurd (h.balanced.alone hmem hin) hne⟩
  · intro hnone
    have hempty : s.inside = ∅ := hnone
    rw [hempty] at hin
    exact absurd hin (Finset.notMem_empty t)

/-- A call takes effect on the object when it gives the semaphore back. -/
theorem Mirrors.up (hp : s.point t = some p) {next : π} (ha : P.action p = .up next) :
    Answers P step Pre (Mirrors P step Good Pre Waits Ok At) s a (.advance t) := by
  obtain ⟨phase, hat, hin', -⟩ := h.balanced.busy t p hp
  have hguard := hG.action phase p hat
  rw [ha] at hguard
  obtain ⟨rfl, -⟩ := hguard
  have hin : t ∈ s.inside := hin'.mpr rfl
  obtain ⟨c, hcalled, ⟨hpre, s₁, r, hobject, hgood⟩, hway⟩ := h.on_way hp hin
  obtain ⟨q, hdone, hend⟩ := hP.alone _ _ _ _ hobject
  obtain ⟨r', hdone'⟩ := hP.up_done p next ha
  obtain ⟨rfl, rfl⟩ := solo_end hend hdone (hway.tail (.up ha)) hdone'
  have hstep : P.step s (.advance t) = .ok ({ s.goto t next with
      shared := P.sem.up s.shared, inside := s.inside.erase t }, none) := by
    rw [step_advance hp, ha]
    rfl
  refine answers_commit hstep hcalled hpre hobject (h.goto (h.balanced_step hG hp hstep) hgood rfl rfl
    (.done r (Finset.notMem_erase t _) hdone' (Function.update_self t _ _)) ?_ fun _ => rfl)
  exact fun u hne => ⟨by simp [hne], fun hmem => absurd (h.balanced.alone hmem hin) hne⟩

theorem Mirrors.done (hp : s.point t = some p) {r : ο} (ha : P.action p = .done r) :
    Answers P step Pre (Mirrors P step Good Pre Waits Ok At) s a (.advance t) := by
  have hstep : P.step s (.advance t) =
      .ok ({ s with point := Function.update s.point t none }, some (t, r)) := by
    rw [step_advance hp, ha]
    rfl
  have hanswered : a.point t = some (.answered r) := by
    cases h.busy t p hp with
    | waits c _ hw _ =>
        have hwaiting := hP.waiting c p hw
        rw [ha] at hwaiting
        exact hwaiting.elim
    | inside c hin _ _ _ =>
        exact absurd hin (h.balanced.done_outside hG hp ha).1
    | done r' _ hdone hpoint =>
        cases ha.symm.trans hdone
        exact hpoint
  have hserved : Admissible (serve step) (Move.Served Pre) a [.advance t] := by
    refine ⟨⟨?_, fun c hc => ?_⟩, ?_⟩
    · rw [hanswered]
      exact Option.some_ne_none _
    · cases hanswered.symm.trans hc
    · rw [serve_answered step hanswered]
      trivial
  exact ⟨_, _, hstep, [.advance t], _, [.returned t r], hserved,
    runSteps_cons_ok (serve_answered step hanswered) [] rfl, rfl,
    h.returned (h.balanced_step hG hp hstep)⟩

theorem Mirrors.start (hidle : s.point t = none) (c : κ) :
    Answers P step Pre (Mirrors P step Good Pre Waits Ok At) s a (.start t c) := by
  have hbalanced := start_balanced hG h.balanced c hidle
  have hout : t ∉ s.inside := h.balanced.idle t hidle
  have hothers (u : ι) (_ : u ≠ t) : (u ∈ s.inside ↔ u ∈ s.inside) ∧
      (u ∈ s.inside → s.shared = s.shared ∧ a.shared = a.shared) := ⟨Iff.rfl, fun _ => ⟨rfl, rfl⟩⟩
  rcases hP.entry c with hw | ⟨r, hdone, hobject⟩
  · exact ⟨_, _, rfl, [.start t c], _, [.silent], ⟨h.idle t hidle, trivial⟩, rfl, rfl,
      h.goto hbalanced h.good rfl rfl (.waits c hout hw (Function.update_self t _ _)) hothers h.free⟩
  · have hcalled : (a.goto t (.called c)).point t = some (.called c) := Function.update_self t _ _
    obtain ⟨hpre, hobject⟩ := hobject a.shared
    have hserve := serve_called hcalled hobject
    have htwice : Function.update (a.goto t (.called c)).point t (some (.answered r)) =
        Function.update a.point t (some (.answered r)) := Function.update_idem _ _ _
    exact ⟨_, _, rfl, [.start t c, .advance t], _, [.silent, .committed c r],
      ⟨h.idle t hidle, served_called hcalled hpre hobject⟩, runSteps_cons_ok rfl _ (runSteps_cons_ok hserve [] rfl), rfl,
      h.goto hbalanced h.good rfl htwice (.done r hout hdone (Function.update_self t _ _)) hothers
        h.free⟩

/-- Every move of a scheduled run is followed by the object. -/
theorem Mirrors.move {m : Move ι κ} (hm : m.Scheduled P Ready s) :
    Answers P step Pre (Mirrors P step Good Pre Waits Ok At) s a m := by
  cases m with
  | start t c => exact h.start hG hP hm c
  | advance t =>
      obtain ⟨p, hp⟩ := Option.ne_none_iff_exists'.mp hm.1
      obtain ⟨hawake, hready⟩ := hm.2 p hp
      cases ha : P.action p with
      | load next => exact h.load hG hP hp ha
      | down signal taken interrupted => exact h.down hG hP hp ha hawake hready
      | access f => exact h.access hG hP hp ha
      | up next => exact h.up hG hP hp ha
      | done r => exact h.done hG hP hp ha

end Moves

omit [DecidableEq ι] in
theorem mirrors_initial {shared : σ} (hok : Ok shared) (hgood : Good shared)
    (hcount : P.sem.count shared = 1) : Mirrors P step Good Pre Waits Ok At
      (Pool.initial shared : Pool ι σ π) (Pool.initial shared) where
  balanced := balanced_initial hok hcount
  good := hgood
  idle _ _ := rfl
  busy _ _ h := by cases h
  free _ := rfl

/-- What is known of the calls of the object's run, in the order in which they took effect. -/
structure Serial (step : σ → κ → Except ε (σ × ο)) (Pre : σ → κ → Prop) (shared : σ)
    (moves : List (Move ι κ)) (cs : List κ) (rs : List ο) : Prop where
  run : ∃ shared', runSteps step shared cs = .ok (shared', rs)
  pre : Admissible step Pre shared cs
  made : ∀ c ∈ cs, ∃ t, .start t c ∈ moves

omit [DecidableEq ι] in
theorem start_mem {moves : List (Move ι κ)} {os : List (Option (ι × ο))} {c : κ}
    (h : .called t c ∈ trace seen moves os) : .start t c ∈ moves := by
  induction moves generalizing os with
  | nil => cases h
  | cons m moves ih =>
      cases os with
      | nil => simp [trace] at h
      | cons o os =>
          rcases mem_trace_cons.mp h with hm | hrest
          · cases m with
            | start u c' =>
                cases hm
                exact List.mem_cons_self
            | advance u => cases o <;> cases hm
          · exact List.mem_cons_of_mem _ (ih hrest)

/-- A scheduled run of any number of threads is seen as a run of the object. -/
theorem linearizable (hG : Guarded P Ok At Out) (hP : Linear P step Good Pre Waits Ready) {shared : σ}
    (hok : Ok shared) (hgood : Good shared) (hcount : P.sem.count shared = 1)
    {moves : List (Move ι κ)}
    (hmoves : Admissible P.step (Move.Scheduled P Ready) (Pool.initial shared) moves) :
    Linearizable P step (Serial step Pre shared moves) shared moves := by
  obtain ⟨s, os, hrun, moves', a, os', hserved, hobject, htrace, hmirrors⟩ :=
    runSteps_follows (fun s a m h hm => h.move hG hP hm) moves _ _
      (mirrors_initial hok hgood hcount) hmoves
  obtain ⟨hserial, hpre⟩ := serve_serial hobject hserved
  refine ⟨s, os, hrun, moves', a, os', hserved.mono fun _ _ hm => hm.enabled, hobject, htrace,
    hmirrors.free, ⟨a.shared, hserial⟩, hpre, fun c hc => ?_⟩
  rcases committed_called hobject hc with ⟨t, ht⟩ | ⟨t, ht⟩
  · cases ht
  · exact ⟨t, start_mem (htrace ▸ ht)⟩

theorem Linearizable.mono {Told Told' : List κ → List ο → Prop} {shared : σ}
    {moves : List (Move ι κ)} (h : Linearizable P step Told shared moves)
    (htold : ∀ cs rs, Told cs rs → Told' cs rs) : Linearizable P step Told' shared moves := by
  obtain ⟨s, os, hrun, moves', a, os', henabled, hobject, htrace, hfree, h⟩ := h
  exact ⟨s, os, hrun, moves', a, os', henabled, hobject, htrace, hfree, htold _ _ h⟩

end Simulation

end CharDriver.Base
