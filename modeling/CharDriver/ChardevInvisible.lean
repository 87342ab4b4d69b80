import CharDriver.ChardevAllocations

/-! Calls that transfer nothing, as all later calls see them. A write that fails in an allocation
changes nothing that shows: the nodes and the slot array it leaves are what a later write would have
allocated. One that has its quantum can show: the new quantum is not cleared and fills a hole, a copy
that faults stores what it moved and zeros, and a count of zero moves the end of the data up to its
offset. -/

namespace CharDriver.Chardev

open Base

/-- Within a call all allocations fail or none does, and every new block has the same old contents. -/
def Kmem.Uniform (env : Kmem) : Prop := (∀ n, env.fails n = env.fails 0) ∧ ∀ n, env.old n = env.old 0

theorem Kmem.Uniform.fails_iff {env : Kmem} (hu : env.Uniform) (calls n : Nat) :
    env.Fails calls n ↔ 0 < n ∧ env.fails 0 = true := by
  constructor
  · rintro ⟨i, hi, hfail⟩
    exact ⟨Nat.zero_lt_of_lt hi, hu.1 _ ▸ hfail⟩
  · rintro ⟨hpos, hfail⟩
    exact ⟨0, hpos, (hu.1 _).trans hfail⟩

namespace Store

/-- Nodes, slot arrays and allocation calls may differ, and so may the bytes of quanta that are not
there. -/
structure Akin (st st' : Store) : Prop where
  quantum : st.quantum = st'.quantum
  qset : st.qset = st'.qset
  size : st.size = st'.size
  block : st.block = st'.block
  byte : ∀ a, st'.block (a / st'.quantum) = true → st.byte a = st'.byte a

section

variable {st st' : Store}

theorem Akin.refl (st : Store) : st.Akin st := ⟨rfl, rfl, rfl, rfl, fun _ _ => rfl⟩

theorem Akin.item (h : st.Akin st') (p : Nat) : st.item p = st'.item p := by
  rw [Store.item, Store.item, h.quantum, h.qset]

theorem Akin.wrapped (h : st.Akin st') (p : Nat) : st.wrapped p = st'.wrapped p := by
  rw [Store.wrapped, Store.wrapped, h.item, h.quantum, h.qset]

theorem Akin.fill (h : st.Akin st') (p : Nat) (data : List UInt8) :
    (st.fill p data).Akin (st'.fill p data) := by
  refine { h with byte := fun a ha => ?_ }
  simp only [Store.fill]
  rcases overlay_cases st'.byte p data a with ⟨hin, hpa, heq⟩ | ⟨hout, heq⟩
  · rw [heq, overlay_of_getElem? st.byte hpa (List.getElem?_eq_getElem hin)]
  · rw [heq, overlay_of_outside st.byte (by omega)]
    exact h.byte a ha

theorem Akin.transferAt (h : st.Akin st') (buff : List UInt8) (fault : Option Nat) (p : Nat) :
    (st.transferAt buff fault p).1 = (st'.transferAt buff fault p).1 ∧
      (st.transferAt buff fault p).2.Akin (st'.transferAt buff fault p).2 := by
  simp only [Store.transferAt, h.quantum, h.wrapped]
  have hfill := h.fill (st'.wrapped p)
    (received fault (buff.take (piece st'.quantum p buff.length)))
  split
  · exact ⟨rfl, hfill⟩
  · exact ⟨rfl, { hfill with size := congrArg (max · _) h.size }⟩

/-- A read looks only at bytes of a quantum that is there. -/
theorem Akin.readAt (h : st.Akin st') (hq : 0 < st'.quantum) (len : Nat) (fault : Option Nat)
    (p : Nat) : st.readAt len fault p = st'.readAt len fault p := by
  simp only [Store.readAt, h.size, h.block, h.quantum, h.wrapped]
  by_cases hempty : st'.size ≤ p ∨ st'.block (st'.wrapped p / st'.quantum) = false
  · rw [if_pos hempty, if_pos hempty]
  rw [if_neg hempty, if_neg hempty]
  rw [not_or, Bool.not_eq_false] at hempty
  have hbytes : ((List.range (copied fault (piece st'.quantum p len))).map fun i =>
      st.byte (st'.wrapped p + i)) =
      (List.range (copied fault (piece st'.quantum p len))).map fun i =>
        st'.byte (st'.wrapped p + i) := by
    refine List.map_congr_left fun i hi => h.byte _ ?_
    have hlt : i < piece st'.quantum (st'.wrapped p) len := by
      rw [piece_wrapped]
      exact Nat.lt_of_lt_of_le (List.mem_range.mp hi) (copied_le fault _)
    rw [div_of_lt_piece hq (Nat.le_add_right _ i) (Nat.add_lt_add_left hlt _)]
    exact hempty.2
  rw [hbytes]

theorem Akin.trim (h : st.Akin st') : st.trim.Akin st'.trim :=
  { h with
    size := rfl
    qset := rfl
    block := rfl
    byte := fun _ ha => absurd ha Bool.false_ne_true }

theorem akin_walk (env : Kmem) (p : Nat) (st : Store) : (st.walk env p).Akin st := by
  unfold walk
  split <;> exact ⟨rfl, rfl, rfl, rfl, fun _ _ => rfl⟩

theorem Akin.trans {st'' : Store} (h : st.Akin st') (h' : st'.Akin st'') : st.Akin st'' where
  quantum := h.quantum.trans h'.quantum
  qset := h.qset.trans h'.qset
  size := h.size.trans h'.size
  block := h.block.trans h'.block
  byte a ha := by
    refine (h.byte a ?_).trans (h'.byte a ha)
    rw [h'.block, h'.quantum]
    exact ha

theorem Akin.symm (h : st.Akin st') : st'.Akin st where
  quantum := h.quantum.symm
  qset := h.qset.symm
  size := h.size.symm
  block := h.block.symm
  byte a ha := by
    refine (h.byte a ?_).symm
    rw [← h.block, ← h.quantum]
    exact ha

/-- A write that prepares its quantum in both finds the same data there, when a new quantum has the
same old contents in both. -/
theorem Akin.prepared {env : Kmem} {k : Nat} {ok : Bool} {st₁ st₁' : Store} (h : st.Akin st')
    (hu : env.Uniform) (hp : Prepared env k st ok st₁) (hp' : Prepared env k st' ok st₁') :
    st₁.Akin st₁' where
  quantum := by rw [hp.quantum, hp'.quantum, h.quantum]
  qset := by rw [hp.qset, hp'.qset, h.qset]
  size := by rw [hp.size, hp'.size, h.size]
  block := by
    funext j
    rw [hp.block, hp'.block, h.block]
  byte a ha := by
    rw [hp'.quantum, hp'.block, Bool.or_eq_true, Bool.and_eq_true, beq_iff_eq] at ha
    cases hold : st'.block (a / st'.quantum) with
    | true =>
        have hold' : st.block (a / st.quantum) = true := by rw [h.block, h.quantum, hold]
        rw [hp.byte a hold', hp'.byte a hold, h.byte a hold]
    | false =>
        obtain ⟨rfl, rfl⟩ := ha.resolve_left (by simp [hold])
        obtain ⟨n, hn⟩ := hp.fresh rfl (by rw [h.block, hold])
        obtain ⟨n', hn'⟩ := hp'.fresh rfl hold
        rw [hn a (by rw [h.quantum]), hn' a rfl, h.quantum, hu.2 n, hu.2 n']

end

end Store

theorem Held.prepare_uniform {s : Kernel} {st : Store} (hs : Held s st) {env : Kmem}
    (hu : env.Uniform) (p : Nat) : (st.prepare env p).1 = false ↔
      st.block (p / st.quantum) = false ∧ env.fails 0 = true := by
  rw [Store.prepare_fails_iff, hu.fails_iff, hs.missing_pos_iff]

theorem Store.Akin.writeAt {s s' : Kernel} {st st' : Store} (h : st.Akin st') (hs : Held s st)
    (hs' : Held s' st') {env : Kmem} (hu : env.Uniform) (buff : List UInt8) (fault : Option Nat)
    (p : Nat) : (st.writeAt env buff fault p).1 = (st'.writeAt env buff fault p).1 ∧
      (st.writeAt env buff fault p).2.Akin (st'.writeAt env buff fault p).2 := by
  have hok : (st.prepare env (st'.wrapped p)).1 = (st'.prepare env (st'.wrapped p)).1 := by
    have hiff : (st.prepare env (st'.wrapped p)).1 = false ↔
        (st'.prepare env (st'.wrapped p)).1 = false := by
      rw [hs.prepare_uniform hu, hs'.prepare_uniform hu, h.block, h.quantum]
    rwa [Bool.eq_iff_iff, ← not_iff_not, Bool.not_eq_true, Bool.not_eq_true]
  have hp := Store.prepare_spec env (st'.wrapped p) st
  have hp' := Store.prepare_spec env (st'.wrapped p) st'
  unfold Store.writeAt
  rw [h.wrapped]
  rw [h.quantum] at hp
  generalize st.prepare env (st'.wrapped p) = f at hok hp
  generalize st'.prepare env (st'.wrapped p) = f' at hok hp'
  obtain ⟨ok, st₁⟩ := f
  obtain ⟨ok', st₁'⟩ := f'
  obtain rfl : ok = ok' := hok
  have h₁ := h.prepared hu hp hp'
  cases ok with
  | false => exact ⟨rfl, h₁⟩
  | true => exact h₁.transferAt buff fault p

section

variable (env : Kmem) {s s' : Kernel} {st st' : Store}

/-- The offset of the call is one of the file, and an open that truncates leaves the device
initialised. -/
def Call.Keeps (quantum : Int) : Call → Prop
  | .deviceOpen flags _ => isWronly flags = true → quantum * deviceQset ≤ intMax
  | c => c.Offset

theorem Call.Offset.keeps {quantum : Int} (hfits : quantum * deviceQset ≤ intMax) {c : Call}
    (hc : c.Offset) : c.Keeps quantum := by
  cases c with
  | deviceOpen flags signal => exact fun _ => hfits
  | _ => exact hc

theorem Held.step (hs : Held s st) {c : Call} (hc : c.Keeps s.dev.quantum) :
    ∃ s', step env s c = .ok (s', (st.stepAt env c).1) ∧ Held s' (st.stepAt env c).2 := by
  cases c with
  | deviceOpen flags signal =>
      by_cases hw : isWronly flags = true
      · cases signal with
        | true =>
            refine ⟨s, ?_, ?_⟩ <;>
              simp [Chardev.step, deviceOpen, Store.stepAt, Store.step, hw, locked_signal, hs]
            rfl
        | false =>
            have hfits := hc hw
            rw [hs.dev.1] at hfits
            obtain ⟨s', hrun, hs'⟩ := deviceOpen_held hs (by exact_mod_cast hfits) hw
            refine ⟨s', ?_, ?_⟩ <;> simp [Chardev.step, Store.stepAt, Store.step, hw, hrun, hs']
            rfl
      · refine ⟨s, ?_, ?_⟩ <;> simp [Chardev.step, deviceOpen, Store.stepAt, Store.step, hw, hs]
        rfl
  | deviceRead ppos len signal fault => exact step_read env hs hc len signal fault
  | deviceWrite ppos buff signal fault => exact step_write env hs hc buff signal fault
  | deviceRelease => exact ⟨s, rfl, hs⟩

theorem Store.stepAt_quantum (st : Store) (c : Call) : (st.stepAt env c).2.quantum = st.quantum := by
  cases c with
  | deviceRead ppos len signal fault =>
      simp only [stepAt]
      split
      · rfl
      · exact (akin_walk env ppos st).quantum
  | deviceWrite ppos buff signal fault =>
      simp only [stepAt]
      split
      · rfl
      · rcases writeAt_cases env buff fault ppos st with ⟨st', heq, hprep⟩ | ⟨_, r, st', -, heq, hw⟩
        · rw [heq]
          exact hprep.quantum
        · rw [heq]
          exact hw.quantum
  | deviceOpen flags signal => exact step_quantum env st (.deviceOpen flags signal)
  | deviceRelease => rfl

end

/-- A call made later, with the allocator's choices during it. -/
structure Later where
  env : Kmem
  call : Call

/-- A later write allocates alike whatever blocks it finds missing: with another call before it, it
may find fewer. -/
def Later.Fair (quantum : Int) (c : Later) : Prop :=
  c.call.Keeps quantum ∧
    match c.call with
    | .deviceWrite .. => c.env.Uniform
    | _ => True

/-- Of the replies only those to reads are looked at. -/
def Call.seen : Call → Reply → Option Reply
  | .deviceRead .., r => some r
  | _, _ => none

def laterStep (s : Kernel) (c : Later) : Except Oops (Kernel × Option Reply) :=
  (step c.env s c.call).map fun r => (r.1, c.call.seen r.2)

/-- The replies to the reads among later calls. -/
def answers (s : Kernel) (later : List Later) : Except Oops (List (Option Reply)) :=
  (runSteps laterStep s later).map Prod.snd

/-- Whatever calls come later, they go through in both states and their reads get the same replies. -/
def SameAnswers (s s' : Kernel) : Prop :=
  ∀ later : List Later, (∀ c ∈ later, c.Fair s.dev.quantum) →
    ∃ os, answers s later = .ok os ∧ answers s' later = .ok os

theorem Store.Akin.stepAt {s s' : Kernel} {st st' : Store} (h : st.Akin st') (hs : Held s st)
    (hs' : Held s' st') {c : Later} {quantum : Int} (hc : c.Fair quantum) :
    (st.stepAt c.env c.call).1 = (st'.stepAt c.env c.call).1 ∧
      (st.stepAt c.env c.call).2.Akin (st'.stepAt c.env c.call).2 := by
  obtain ⟨env, call⟩ := c
  cases call with
  | deviceOpen flags signal =>
      simp only [Store.stepAt, Store.step]
      split
      · split
        · exact ⟨rfl, h⟩
        · exact ⟨rfl, h.trim⟩
      · exact ⟨rfl, h⟩
  | deviceRead ppos len signal fault =>
      simp only [Store.stepAt]
      split
      · exact ⟨rfl, h⟩
      · exact ⟨h.readAt hs'.geometry.quantum_pos len fault ppos,
          (Store.akin_walk env ppos st).trans (h.trans (Store.akin_walk env ppos st').symm)⟩
  | deviceWrite ppos buff signal fault =>
      simp only [Store.stepAt]
      split
      · exact ⟨rfl, h⟩
      · exact h.writeAt hs hs' hc.2 buff fault ppos
  | deviceRelease => exact ⟨rfl, h⟩

def HeldAkin (quantum : Int) (s s' : Kernel) : Prop :=
  ∃ st st', Held s st ∧ Held s' st' ∧ st.Akin st' ∧ (st.quantum : Int) = quantum

theorem stepsTogether_akin (quantum : Int) : StepsTogether laterStep laterStep
    (fun _ c => c.Fair quantum) (HeldAkin quantum) fun _ _ o o' => True → o = o' := by
  rintro s s' c ⟨st, st', hs, hs', hakin, rfl⟩ hc
  obtain ⟨hreply, hakin'⟩ := hakin.stepAt hs hs' hc
  obtain ⟨s₁, hrun, h₁⟩ := hs.step c.env (by rw [hs.dev.1]; exact hc.1)
  obtain ⟨s₁', hrun', h₁'⟩ := hs'.step c.env (by rw [hs'.dev.1, ← hakin.quantum]; exact hc.1)
  refine ⟨s₁, _, s₁', _, by rw [laterStep, hrun]; rfl, by rw [laterStep, hrun']; rfl,
    ⟨_, _, h₁, h₁', hakin', ?_⟩, fun _ => by rw [hreply]⟩
  rw [Store.stepAt_quantum]

theorem Store.Akin.sameAnswers {s s' : Kernel} {st st' : Store} (h : st.Akin st') (hs : Held s st)
    (hs' : Held s' st') : SameAnswers s s' := by
  intro later hlater
  obtain ⟨s₁, s₁', os, hrun, hrun'⟩ := runSteps_agree (stepsTogether_akin s.dev.quantum) later s s'
    ⟨st, st', hs, hs', h, hs.dev.1.symm⟩ (admissible_of_forall s hlater)
    (admissible_of_forall s fun _ _ => trivial)
  exact ⟨os, by rw [answers, hrun]; rfl, by rw [answers, hrun']; rfl⟩

/-- A write of nothing behind quantum `k` moves the size past the quantum, and a read shows it. -/
def peek (quantum k : Nat) : List Later :=
  [⟨.filled 0, .deviceWrite ((k + 1) * quantum) [] false none⟩,
    ⟨.filled 0, .deviceRead (k * quantum) quantum false none⟩]

section

variable {s s' : Kernel} {st st' : Store}

theorem next_lt {quantum qset k : Nat} (hg : Geometry quantum qset)
    (hk : k * quantum / (quantum * qset) ≤ intMax) :
    (k + 1) * quantum / (quantum * qset) < 2 ^ 32 ∧ (k + 1) * quantum < 2 ^ 63 := by
  have hmax := offset_lt hg hk
  have hint : intMax < 2 ^ 31 := by decide
  have hle := hg.quantum_le
  rw [← item_eq, Nat.mul_div_cancel _ hg.quantum_pos] at hk ⊢
  have hsucc : (k + 1) / qset ≤ k / qset + 1 :=
    calc (k + 1) / qset ≤ (k + qset) / qset := Nat.div_le_div_right (by have := hg.qset_pos; omega)
      _ = k / qset + 1 := Nat.add_div_right k hg.qset_pos
  constructor
  · omega
  · rw [Nat.succ_mul]
    omega

theorem peek_fair {quantum qset k : Nat} (hg : Geometry quantum qset)
    (hk : k * quantum / (quantum * qset) ≤ intMax) (q : Int) : ∀ c ∈ peek quantum k, c.Fair q := by
  have hnext := (next_lt hg hk).2
  have hmax := offset_lt hg hk
  intro c hc
  rcases List.mem_pair.mp hc with rfl | rfl
  · exact ⟨hnext, fun _ => rfl, fun _ => rfl⟩
  · exact ⟨show k * quantum < 2 ^ 63 by omega, trivial⟩

/-- A read of all of quantum `k`, where the data goes on behind it. -/
theorem Store.readAt_quantum (hg : Geometry st.quantum st.qset) {k : Nat}
    (hk : st.item (k * st.quantum) ≤ intMax) (hsize : k * st.quantum < st.size) :
    st.readAt st.quantum none (k * st.quantum) = if st.block k then
      ⟨st.quantum, (List.range st.quantum).map fun t => st.byte (k * st.quantum + t),
        (k * st.quantum + st.quantum : Nat)⟩
      else ⟨0, [], (k * st.quantum : Nat)⟩ := by
  have hmax := offset_lt hg hk
  have hle := hg.quantum_le
  have hint : intMax < 2 ^ 31 := by decide
  have hpiece : Store.piece st.quantum (k * st.quantum) st.quantum = st.quantum := by
    rw [Store.piece, Nat.mul_mod_left, Nat.sub_zero, Nat.min_self]
  have hend : toLong (((k * st.quantum : Nat) : Int) + st.quantum) =
      (k * st.quantum + st.quantum : Nat) := by
    rw [← Int.natCast_add, toLong_natCast (by omega)]
  simp only [Store.readAt, Store.wrapped_of_fits hk, Nat.mul_div_cancel k hg.quantum_pos, hpiece,
    copied_none, Nat.not_le_of_lt hsize, false_or, Nat.lt_irrefl, if_false, hend]
  cases st.block k <;> rfl

/-- What a peek shows is the quantum. -/
theorem Held.answers_peek (hs : Held s st) {k : Nat} (hk : st.item (k * st.quantum) ≤ intMax) :
    answers s (peek st.quantum k) = .ok [none, some (if st.block k then
      ⟨st.quantum, (List.range st.quantum).map fun t => st.byte (k * st.quantum + t),
        (k * st.quantum + st.quantum : Nat)⟩
      else ⟨0, [], (k * st.quantum : Nat)⟩)] := by
  have hg := hs.geometry
  have hpos := hg.quantum_pos
  have hmax := offset_lt hg hk
  obtain ⟨hitem, hnext⟩ := next_lt hg hk
  have hwrap : st.wrapped ((k + 1) * st.quantum) = (k + 1) * st.quantum := Store.wrapped_of_lt hitem
  have hprep : (st.prepare (.filled 0) (st.wrapped ((k + 1) * st.quantum))).1 = true :=
    Store.prepare_of_never_fails (fun _ => rfl) _ st
  obtain ⟨st₁, hwrite, hsize, hw⟩ := @Store.writeAt_whole (.filled 0) st _ [] none
    ((k + 1) * st.quantum) (Prod.ext hprep rfl) (Nat.lt_irrefl _)
  have hblock : st₁.block k = st.block k := by
    have hne : (k == (k + 1) * st.quantum / st.quantum) = false := by
      rw [Nat.mul_div_cancel _ hpos]
      simp
    rw [hw.block, hwrap, hne, Bool.or_false]
  have hbyte (hb : st.block k = true) {t : Nat} (ht : t < st.quantum) :
      st₁.byte (k * st.quantum + t) = st.byte (k * st.quantum + t) := by
    rw [hw.byte _ (by rwa [Nat.mul_comm, Nat.mul_add_div hpos, Nat.div_eq_of_lt ht, Nat.add_zero])]
    simp
  have hread : st₁.readAt st.quantum none (k * st.quantum) = if st.block k then
      ⟨st.quantum, (List.range st.quantum).map fun t => st.byte (k * st.quantum + t),
        (k * st.quantum + st.quantum : Nat)⟩
      else ⟨0, [], (k * st.quantum : Nat)⟩ := by
    have hall := @Store.readAt_quantum st₁ (by rwa [hw.quantum, hw.qset]) k
      (by rwa [Store.item, hw.quantum, hw.qset]) (by rw [hsize, hw.quantum, Nat.succ_mul]; omega)
    rw [hw.quantum, hblock] at hall
    rw [hall]
    cases hb : st.block k with
    | false => rfl
    | true => rw [List.map_congr_left fun t ht => hbyte hb (List.mem_range.mp ht)]
  obtain ⟨s₁, hstep₁, hs₁⟩ := step_write (.filled 0) hs hnext [] false none
  obtain ⟨s₂, hstep₂, -⟩ := step_read (.filled 0) hs₁ (p := k * st.quantum) (by omega) st.quantum
    false none
  have hfirst : (st.stepAt (.filled 0) (.deviceWrite ((k + 1) * st.quantum) [] false none)).2 = st₁ :=
    congrArg Prod.snd hwrite
  rw [hfirst] at hstep₂
  have hrun : runSteps laterStep s (peek st.quantum k) =
      .ok (s₂, [none, some (st₁.readAt st.quantum none (k * st.quantum))]) := by
    refine runSteps_cons_ok (by rw [laterStep, hstep₁]; rfl) _ (runSteps_cons_ok ?_ [] rfl)
    rw [laterStep, hstep₂]
    rfl
  rw [answers, hrun, ← hread]
  rfl

/-- States that answer alike hold the same in every quantum. -/
theorem SameAnswers.quantum (h : SameAnswers s s') (hs : Held s st) (hs' : Held s' st')
    (hq : st'.quantum = st.quantum) (hqs : st'.qset = st.qset) {k : Nat}
    (hk : st.item (k * st.quantum) ≤ intMax) : st'.block k = st.block k ∧
      (st.block k = true → ∀ t < st.quantum, st'.byte (k * st.quantum + t) =
        st.byte (k * st.quantum + t)) := by
  have hpos := hs.geometry.quantum_pos
  have hpeek := hs.answers_peek hk
  have hpeek' := hs'.answers_peek (k := k) (by rwa [hq, Store.item, hq, hqs])
  rw [hq] at hpeek'
  obtain ⟨os, hos, hos'⟩ := h (peek st.quantum k) (peek_fair hs.geometry hk _)
  have heq := Except.ok.inj ((hpeek'.symm.trans hos').trans (hos.symm.trans hpeek))
  simp only [List.cons.injEq, Option.some.injEq, true_and, and_true] at heq
  cases hb : st.block k with
  | false =>
      cases hb' : st'.block k with
      | false => exact ⟨rfl, by simp⟩
      | true =>
          simp only [hb, hb', Bool.false_eq_true, if_false, if_true, Reply.mk.injEq] at heq
          omega
  | true =>
      cases hb' : st'.block k with
      | false =>
          simp only [hb, hb', Bool.false_eq_true, if_false, if_true, Reply.mk.injEq] at heq
          omega
      | true =>
          simp only [hb, hb', if_true, Reply.mk.injEq] at heq
          refine ⟨rfl, fun _ t ht => ?_⟩
          have hbyte := congrArg (·[t]?) heq.2.1
          simpa [ht] using hbyte

/-- A write that stored `data` in its quantum and left the size does not show exactly when the quantum
was there and held the data. -/
theorem Wrote.sameAnswers_iff {data : List UInt8} {p n : Nat} (hw : Wrote st data p st')
    (hs : Held s st) (hs' : Held s' st') (hp : st.item p ≤ intMax) (hsize : st'.size = st.size)
    (hn : data.length ≤ Store.piece st.quantum p n) : SameAnswers s s' ↔
      st.block (p / st.quantum) = true ∧ ∀ i b, data[i]? = some b → st.byte (p + i) = b := by
  have hpos := hs.geometry.quantum_pos
  have hwrap := Store.wrapped_of_fits hp
  have hinside {i : Nat} {b : UInt8} (hb : data[i]? = some b) :
      (p + i) / st.quantum = p / st.quantum := by
    have hlt := (List.getElem?_eq_some_iff.mp hb).1
    have hpi : p + i < p + Store.piece st.quantum p n := by omega
    exact div_of_lt_piece hpos (Nat.le_add_right _ _) hpi
  constructor
  · intro hsame
    have hitem : st.item (p / st.quantum * st.quantum) ≤ intMax :=
      Nat.le_trans (Nat.div_le_div_right (Nat.div_mul_le_self _ _)) hp
    obtain ⟨hblock, hbyte⟩ := hsame.quantum hs hs' hw.quantum hw.qset hitem
    have hst : st.block (p / st.quantum) = true := by
      rw [← hblock, hw.block, hwrap]
      simp
    refine ⟨hst, fun i b hb => ?_⟩
    have hdata := hw.data i b hb
    have heq := hbyte hst ((p + i) % st.quantum) (Nat.mod_lt _ hpos)
    rw [← hinside hb, Nat.mul_comm, Nat.div_add_mod] at heq
    rw [← heq, ← hdata, hwrap]
  · rintro ⟨hst, hdata⟩
    have hakin : st'.Akin st := by
      refine ⟨hw.quantum, hw.qset, hsize, funext fun j => ?_, fun a ha => ?_⟩
      · rw [hw.block, hwrap]
        by_cases hj : j = p / st.quantum
        · rw [hj, hst, Bool.true_or]
        · simp [hj]
      · rw [hw.byte a ha, hwrap]
        rcases overlay_cases st.byte p data a with ⟨hin, hpa, heq⟩ | ⟨-, heq⟩
        · have hget := hdata (a - p) _ (List.getElem?_eq_getElem hin)
          rw [Nat.add_sub_cancel' hpa] at hget
          rw [heq, hget]
        · exact heq
    exact hakin.symm.sameAnswers hs hs'

end

def Call.position : Call → Option Nat
  | .deviceRead ppos .. => some ppos
  | .deviceWrite ppos .. => some ppos
  | _ => none

/-- If the transfer at `p` returns zero or an error, then the offset and the size are as before, and
whatever calls come later, their reads are answered as if it had not been made. -/
def Invisible (env : Kmem) (s : Kernel) (p : Nat) (c : Call) : Prop :=
  ∃ s' r, step env s c = .ok (s', r) ∧
    (r.ret ≤ 0 → r.ppos = p ∧ s'.dev.size = s.dev.size ∧ SameAnswers s s')

/-- The size covers the offset of an empty write, and the quantum of `p` is there and holds `data`
from `p` on already. -/
structure Kernel.Unseen (s : Kernel) (p : Nat) (buff data : List UInt8) : Prop where
  count : buff = [] → p ≤ s.dev.size
  quantum : (s.byteAt p).isSome
  data : ∀ i b, data[i]? = some b → s.byteAt (p + i) = some b

/-- The call is not a write that got its quantum and moved nothing or faulted, or such a write stores
what was there already. -/
def Harmless (env : Kmem) (s : Kernel) : Call → Prop
  | .deviceWrite p buff signal fault =>
      signal = true ∨ env.Fails s.heap.calls (s.missing p) ∨
      (buff ≠ [] ∧ copied fault (s.clamped p buff.length) = s.clamped p buff.length) ∨
      s.Unseen p buff (received fault (buff.take (s.clamped p buff.length)))
  | _ => True

section

variable {s : Kernel} {st : Store}

theorem Held.unseen_iff (hs : Held s st) {p n : Nat} (hp : st.item p ≤ intMax)
    {buff data : List UInt8} (hn : data.length ≤ Store.piece st.quantum p n) :
    s.Unseen p buff data ↔ (buff = [] → p ≤ st.size) ∧ st.block (p / st.quantum) = true ∧
      ∀ i b, data[i]? = some b → st.byte (p + i) = b := by
  have hbytes (hst : st.block (p / st.quantum) = true) {i : Nat} {b : UInt8}
      (hb : data[i]? = some b) : s.byteAt (p + i) = some (st.byte (p + i)) := by
    have hlt := (List.getElem?_eq_some_iff.mp hb).1
    have hpi : p + i < p + Store.piece st.quantum p n := by omega
    have hdiv : (p + i) / st.quantum = p / st.quantum :=
      div_of_lt_piece hs.geometry.quantum_pos (Nat.le_add_right _ _) hpi
    have hitem : st.item (p + i) ≤ intMax := by
      rw [Store.item, ← item_eq, hdiv, item_eq]
      exact hp
    rw [hs.byteAt hitem, hdiv, if_pos hst]
  have hsome : (s.byteAt p).isSome ↔ st.block (p / st.quantum) = true := by
    rw [hs.byteAt hp]
    split <;> simp_all
  rw [← hs.dev.2.2]
  constructor
  · rintro ⟨hcount, hquantum, hdata⟩
    have hst := hsome.mp hquantum
    exact ⟨hcount, hst, fun i b hb => Option.some.inj ((hbytes hst hb).symm.trans (hdata i b hb))⟩
  · rintro ⟨hcount, hst, hdata⟩
    exact ⟨hcount, hsome.mpr hst, fun i b hb => (hbytes hst hb).trans (congrArg some (hdata i b hb))⟩

/-- What a call comes to decides whether it is invisible. -/
theorem invisible_of_step {env : Kmem} {c : Call} {p : Nat} {s' : Kernel} {st' : Store} {r : Reply}
    (hs : Held s st) (hstep : step env s c = .ok (s', r)) (hs' : Held s' st') :
    Invisible env s p c ↔ (r.ret ≤ 0 → r.ppos = p ∧ st'.size = st.size ∧ SameAnswers s s') := by
  rw [← hs'.dev.2.2, ← hs.dev.2.2]
  constructor
  · rintro ⟨s₁, r₁, hstep₁, h⟩
    obtain ⟨rfl, rfl⟩ := Prod.mk.inj (Except.ok.inj (hstep.symm.trans hstep₁))
    exact h
  · intro h
    exact ⟨s', r, hstep, h⟩

/-- A transfer that moves nothing leaves the offset. -/
theorem Store.readAt_ppos {len : Nat} {fault : Option Nat} {p : Nat} (hp : p < 2 ^ 63)
    (h : (st.readAt len fault p).ret ≤ 0) : (st.readAt len fault p).ppos = p := by
  unfold Store.readAt at h ⊢
  split at h
  · rw [if_pos (by assumption)]
  · rw [if_neg (by assumption)]
    simp only at h ⊢
    split at h
    · rw [if_pos (by assumption)]
    · rw [if_neg (by assumption)]
      have hzero : Store.piece st.quantum p len = 0 := by
        simp only at h
        omega
      simp only [hzero, Nat.cast_zero, Int.add_zero, toLong_natCast hp]

theorem invisible_read (hs : Held s st) (env : Kmem) {p : Nat} (hp : p < 2 ^ 63) (len : Nat)
    (signal : Bool) (fault : Option Nat) : Invisible env s p (.deviceRead p len signal fault) := by
  obtain ⟨s', hstep, hs'⟩ := step_read env hs hp len signal fault
  rw [invisible_of_step hs hstep hs']
  cases signal with
  | true => exact fun _ => ⟨rfl, rfl, (Store.Akin.refl st).sameAnswers hs hs'⟩
  | false =>
      have hakin : (st.walk env p).Akin st := Store.akin_walk env p st
      exact fun h => ⟨Store.readAt_ppos hp h, hakin.size, hakin.symm.sameAnswers hs hs'⟩

/-- A write that lacked memory leaves the data as it was. -/
theorem Prepared.akin_of_failed {env : Kmem} {k : Nat} {st' : Store}
    (h : Prepared env k st false st') : st.Akin st' where
  quantum := h.quantum.symm
  qset := h.qset.symm
  size := h.size.symm
  block := by
    funext j
    rw [h.block, Bool.false_and, Bool.or_false]
  byte a ha := by
    rw [h.block, h.quantum, Bool.false_and, Bool.or_false] at ha
    exact (h.byte a ha).symm

theorem invisible_write_iff (hs : Held s st) (env : Kmem) {p : Nat} (hp : st.item p ≤ intMax)
    (buff : List UInt8) (fault : Option Nat) :
    Invisible env s p (.deviceWrite p buff false fault) ↔
      Harmless env s (.deviceWrite p buff false fault) := by
  have hg := hs.geometry
  have hmax := offset_lt hg hp
  have hwrap := Store.wrapped_of_fits hp
  have hpiece : (buff.take (Store.piece st.quantum p buff.length)).length =
      Store.piece st.quantum p buff.length := List.length_take_of_le (piece_le p buff.length)
  have hstored : (received fault (buff.take (Store.piece st.quantum p buff.length))).length =
      Store.piece st.quantum p buff.length := (length_received fault _).trans hpiece
  obtain ⟨s', hstep, hs'⟩ := step_write env hs (p := p) (by omega) buff false fault
  rw [invisible_of_step hs hstep hs']
  simp only [Harmless, Bool.false_eq_true, false_or, hs.clamped, hs.fails_iff env hp,
    hs.unseen_iff hp (Nat.le_of_eq hstored)]
  simp only [Store.stepAt, Bool.false_eq_true, if_false] at hs' ⊢
  have hspec := Store.prepare_spec env p st
  generalize hprep : st.prepare env p = f at hspec
  obtain ⟨ok, st₁⟩ := f
  rw [← hwrap] at hprep
  cases ok with
  | false =>
      simp only at hspec
      rw [Store.writeAt_failed hprep] at hs' ⊢
      exact iff_of_true (fun _ => ⟨rfl, hspec.size, hspec.akin_of_failed.sameAnswers hs hs'⟩)
        (Or.inl rfl)
  | true =>
      simp only [Bool.true_eq_false, false_or]
      by_cases hn : copied fault (Store.piece st.quantum p buff.length) <
          Store.piece st.quantum p buff.length
      · obtain ⟨st', hwrite, hsize, hw⟩ := Store.writeAt_faulted hprep hn
        have hbuff : buff ≠ [] := by
          rintro rfl
          simp [Store.piece] at hn
        have hle : -eFAULT ≤ 0 := by decide
        rw [hwrite] at hs' ⊢
        rw [or_iff_right fun h => absurd h.2 (Nat.ne_of_lt hn)]
        simp only [hle, hsize, true_and, forall_const, hbuff, false_imp_iff]
        exact hw.sameAnswers_iff hs hs' hp hsize (Nat.le_of_eq hstored)
      · obtain ⟨st', hwrite, hsize, hw⟩ := Store.writeAt_whole hprep hn
        have hall := Nat.le_antisymm (copied_le fault _) (Nat.le_of_not_lt hn)
        rw [received_take (piece_le p buff.length) hn]
        rw [hwrite] at hs' ⊢
        by_cases hbuff : buff = []
        · subst hbuff
          have hzero : Store.piece st.quantum p ([] : List UInt8).length = 0 := by simp [Store.piece]
          rw [hzero] at hsize hw ⊢
          rw [or_iff_right fun h => h.1 rfl]
          have hppos : toLong ((p : Int) + 0) = p := by
            rw [Int.add_zero, toLong_natCast (by omega)]
          simp only [Int.natCast_zero, Int.le_refl, hppos, true_and, forall_const, hsize,
            Nat.add_zero, max_eq_left_iff]
          refine and_congr_right fun hle => ?_
          refine hw.sameAnswers_iff hs hs' hp ?_ (n := 0) (by simp)
          rw [hsize, Nat.add_zero, Nat.max_eq_left hle]
        · refine iff_of_true (fun h => ?_) (Or.inl ⟨hbuff, hall⟩)
          have hpos := piece_pos hg.quantum_pos p (List.length_pos_iff.mpr hbuff)
          simp only at h
          omega

/-- A transfer at an offset in range is invisible where it transfers nothing exactly when it is a
read, a write that was interrupted or lacked memory, or a write that stored what was there. -/
theorem invisible_iff (hs : Reachable s) (env : Kmem) {c : Call} {p : Nat}
    (hc : c.position = some p) (hin : c.InRange s.dev) : Invisible env s p c ↔ Harmless env s c := by
  obtain ⟨st, hst⟩ := hs.held
  cases c with
  | deviceRead ppos len signal fault =>
      obtain rfl : ppos = p := Option.some.inj hc
      have hmax := offset_lt hst.geometry (hst.item_le hin)
      exact iff_of_true (invisible_read hst env (by omega) len signal fault) trivial
  | deviceWrite ppos buff signal fault =>
      obtain rfl : ppos = p := Option.some.inj hc
      cases signal with
      | false => exact invisible_write_iff hst env (hst.item_le hin) buff fault
      | true =>
          have hmax := offset_lt hst.geometry (hst.item_le hin)
          obtain ⟨s', hstep, hs'⟩ := step_write env hst (p := ppos) (by omega) buff true fault
          rw [invisible_of_step hst hstep hs']
          exact iff_of_true
            (fun _ => ⟨rfl, rfl, (Store.Akin.refl st).sameAnswers hst hs'⟩) (Or.inl rfl)
  | deviceOpen flags signal => exact absurd hc (by simp [Call.position])
  | deviceRelease => exact absurd hc (by simp [Call.position])

end

/-- One byte at offset 8, two quanta of 4 bytes in a list item: below it is a hole. -/
def holed : Kernel :=
  ⟨⟨[some (.deviceQset none (some 1)), some (.deviceQset (some 2) none),
    some (.slots [some 3, none]), some (.quantum [1, 7, 7, 7])]⟩, ⟨some 0, 4, 2, 9, 1⟩⟩

theorem reachable_holed : Reachable holed :=
  ⟨.filled 7, 4, 2, [.deviceWrite 8 [1] false none], [⟨1, [], 9⟩], by decide, by decide +kernel,
    by decide +kernel⟩

theorem invisible_noMemory :
    Invisible ⟨fun _ => true, fun _ _ => 0⟩ holed 0 (.deviceWrite 0 [9] false none) :=
  (invisible_iff reachable_holed _ rfl (by decide)).mpr (Or.inr (Or.inl ⟨0, by decide, rfl⟩))

/-- A write of one byte into an empty device that faults at once, and a write behind its quantum: a
read of the quantum would have found a hole, and delivers a zero and old contents instead. -/
theorem visible_fault : Reachable (emptyDevice 4 2) ∧
    ¬Invisible (.filled 7) (emptyDevice 4 2) 0 (.deviceWrite 0 [9] false (some 0)) := by
  let later : List Later := [⟨.filled 7, .deviceWrite 8 [1] false none⟩,
    ⟨.filled 7, .deviceRead 0 4 false none⟩]
  refine ⟨⟨.filled 0, 4, 2, [], [], by decide, by decide, rfl⟩, ?_⟩
  rintro ⟨s', r, hstep, h⟩
  have hafter : (step (.filled 7) (emptyDevice 4 2) (.deviceWrite 0 [9] false (some 0))).map
      (fun x => (x.2.ret, answers x.1 later)) =
        .ok (-eFAULT, .ok [none, some ⟨4, [0, 7, 7, 7], 4⟩]) := by decide +kernel
  have hbefore : answers (emptyDevice 4 2) later = .ok [none, some ⟨0, [], 0⟩] := by decide +kernel
  rw [hstep] at hafter
  obtain ⟨hret, hanswers⟩ := Prod.mk.inj (Except.ok.inj hafter)
  have hle : r.ret ≤ 0 := by
    simp only at hret
    rw [hret]
    decide
  have hfair : ∀ c ∈ later, c.Fair (emptyDevice 4 2).dev.quantum := by
    intro c hc
    rcases List.mem_pair.mp hc with rfl | rfl
    · exact ⟨show 8 < 2 ^ 63 by decide, fun _ => rfl, fun _ => rfl⟩
    · exact ⟨show 0 < 2 ^ 63 by decide, trivial⟩
  obtain ⟨os, hos, hos'⟩ := (h hle).2.2 later hfair
  obtain rfl := Except.ok.inj (hbefore.symm.trans hos)
  exact absurd (hanswers.symm.trans hos') (by decide)

end CharDriver.Chardev
