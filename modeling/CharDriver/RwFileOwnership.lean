import CharDriver.RwFileModel

/-! Who owns the one buffer. All open files share `kernel_buffer`, each open overwrites it and each
release frees it. With one file open at a time the buffer is live exactly while the file is open;
a second open loses the first buffer, or the pointer to it. -/

namespace CharDriver.RwFile

open Base

/-- While a file is open `kernel_buffer` is live, and no other block is; while none is, nothing is. -/
structure Owned (s : State) : Prop where
  usable : s.files.Nonempty → ∃ b, s.kernel.kernelBuffer = some b ∧ s.kernel.slab.live b = true
  held : ∀ b, s.kernel.slab.live b = true → s.kernel.kernelBuffer = some b ∧ s.files.Nonempty

/-- Opens happen while no file is open. -/
def OpensAlone (s : State) : Call → Prop
  | .deviceOpen .. => s.files = ∅
  | _ => True

instance opensAloneDecidable (s : State) : ∀ c : Call, Decidable (OpensAlone s c)
  | .deviceOpen .. => inferInstanceAs (Decidable (_ = _))
  | .transfer .. => inferInstanceAs (Decidable True)
  | .deviceRelease .. => inferInstanceAs (Decidable True)

theorem owned_initial (mem : Nat → Nat → UInt8) : Owned (initial mem) :=
  ⟨fun h => absurd h Finset.not_nonempty_empty, fun _ h => absurd h Bool.false_ne_true⟩

theorem Owned.dead {s : State} (hs : Owned s) (hfiles : s.files = ∅) (b : Nat) :
    s.kernel.slab.live b = false := by
  by_contra hlive
  have hopen := (hs.held b (Bool.not_eq_false _ ▸ hlive)).2
  rw [hfiles] at hopen
  exact Finset.not_nonempty_empty hopen

theorem owned_open {s : State} (hs : Owned s) (hfiles : s.files = ∅) (file : Nat)
    (answer : Option Nat) :
    ∃ s' r, step s (.deviceOpen file answer) = .ok (s', r) ∧ Owned s' ∧ s'.files.card ≤ 1 := by
  cases answer with
  | none =>
      refine ⟨⟨⟨s.kernel.slab, none⟩, s.files⟩, ⟨-1, [], 0, 0⟩, rfl, ⟨?_, ?_⟩, by simp [hfiles]⟩
      · intro hopen
        rw [hfiles] at hopen
        exact absurd hopen Finset.not_nonempty_empty
      · intro b hb
        rw [hs.dead hfiles b] at hb
        exact absurd hb Bool.false_ne_true
  | some b =>
      refine ⟨⟨⟨s.kernel.slab.setLive b true, some b⟩, insert file s.files⟩, ⟨0, [], 0, 0⟩, rfl,
        ⟨fun _ => ⟨b, rfl, s.kernel.slab.setLive_self b true⟩, fun b' hb' => ?_⟩, by simp [hfiles]⟩
      have heq : b' = b := by
        by_contra hne
        rw [s.kernel.slab.setLive_of_ne true hne, hs.dead hfiles] at hb'
        exact absurd hb' Bool.false_ne_true
      exact ⟨congrArg some heq.symm, Finset.insert_nonempty file s.files⟩

theorem owned_release {s : State} (hs : Owned s) (hcard : s.files.card ≤ 1) {file : Nat}
    (hfile : file ∈ s.files) :
    ∃ s' r, step s (.deviceRelease file) = .ok (s', r) ∧ Owned s' ∧ s'.files.card ≤ 1 := by
  obtain ⟨b, hbuffer, hlive⟩ := hs.usable ⟨file, hfile⟩
  have herase : (s.files.erase file).card = 0 := by
    rw [Finset.card_erase_of_mem hfile]
    omega
  refine ⟨_, _, step_release file hbuffer hlive, ⟨?_, ?_⟩, ?_⟩
  · rw [Finset.card_eq_zero.mp herase]
    exact fun h => absurd h Finset.not_nonempty_empty
  · intro b' hb'
    by_cases heq : b' = b
    · rw [heq] at hb'
      simp at hb'
    · simp only [Slab.setLive_of_ne _ _ heq] at hb'
      have hbuffer' := (hs.held b' hb').1.symm.trans hbuffer
      exact absurd (Option.some.inj hbuffer') heq
  · rw [herase]
    exact Nat.zero_le 1

theorem owned_step (s : State) (c : Call) (hs : Owned s ∧ s.files.card ≤ 1)
    (hc : Enabled s c ∧ OpensAlone s c) :
    ∃ s' r, step s c = .ok (s', r) ∧ Owned s' ∧ s'.files.card ≤ 1 := by
  cases c with
  | deviceOpen file answer => exact owned_open hs.1 hc.2 file answer
  | transfer file op =>
      obtain ⟨b, hbuffer, hlive⟩ := hs.1.usable ⟨file, hc.1⟩
      exact ⟨_, _, step_transfer file op hbuffer hlive, ⟨hs.1.usable, hs.1.held⟩, hs.2⟩
  | deviceRelease file => exact owned_release hs.1 hs.2 hc.1

/-- An open beside an open file breaks ownership, whether it succeeds or fails. -/
theorem alone_of_owned {s s' : State} {c : Call} {r : Reply} (hc : Enabled s c) (hs : Owned s)
    (hstep : step s c = .ok (s', r)) (hs' : Owned s') : OpensAlone s c := by
  cases c with
  | deviceOpen file answer =>
      by_contra hfiles
      obtain ⟨b, hbuffer, hlive⟩ := hs.usable (Finset.nonempty_iff_ne_empty.mpr hfiles)
      cases answer with
      | none =>
          cases hstep
          obtain ⟨b', hnone, -⟩ := hs'.usable (Finset.nonempty_iff_ne_empty.mpr hfiles)
          exact absurd hnone (by simp)
      | some b' =>
          cases hstep
          have hne : b ≠ b' := fun heq => by
            rw [heq, hc.2 b' rfl] at hlive
            exact absurd hlive Bool.false_ne_true
          -- the first buffer is still live, and nothing points to it
          have hlost := (hs'.held b ((s.kernel.slab.setLive_of_ne true hne).trans hlive)).1
          exact hne (Option.some.inj hlost).symm
  | transfer file op => trivial
  | deviceRelease file => trivial

/-- Ownership holds in every state of a run exactly when every open of the run finds no file open. -/
theorem throughout_owned_iff (mem : Nat → Nat → UInt8) {calls : List Call}
    (h : Admissible step Enabled (initial mem) calls) :
    Throughout step Owned (initial mem) calls ↔ Admissible step OpensAlone (initial mem) calls := by
  constructor
  · exact Throughout.admissible (fun _ _ _ _ => alone_of_owned) h
  · exact fun halone => throughout_of_invariant (fun _ hs => hs.1) owned_step
      ⟨owned_initial mem, Nat.zero_le _⟩ (h.and halone)

/-- One file after the other, the first open failing. -/
theorem owned_oneByOne : Throughout step Owned (initial fun _ _ => 0)
    [.deviceOpen 0 none, .deviceOpen 1 (some 5), .transfer 1 (.deviceWrite [1] none),
      .deviceRelease 1, .deviceOpen 2 (some 5), .deviceRelease 2] :=
  (throughout_owned_iff _ (by decide)).mpr (by decide)

/-- Two open files: the release of one leaves the other with a freed buffer. -/
theorem not_owned_overlap :
    Admissible step Enabled (initial fun _ _ => 0)
        [.deviceOpen 0 (some 5), .deviceOpen 1 (some 6), .deviceRelease 1,
          .transfer 0 (.deviceWrite [1] none)] ∧
      (runSteps step (initial fun _ _ => 0)
        [.deviceOpen 0 (some 5), .deviceOpen 1 (some 6), .deviceRelease 1,
          .transfer 0 (.deviceWrite [1] none)]).map Prod.snd = .error .badAddress ∧
      ¬Throughout step Owned (initial fun _ _ => 0)
        [.deviceOpen 0 (some 5), .deviceOpen 1 (some 6), .deviceRelease 1,
          .transfer 0 (.deviceWrite [1] none)] := by
  have hbad : (runSteps step (initial fun _ _ => 0)
      [.deviceOpen 0 (some 5), .deviceOpen 1 (some 6), .deviceRelease 1,
        .transfer 0 (.deviceWrite [1] none)]).map Prod.snd = .error .badAddress := by decide
  refine ⟨by decide, hbad, fun howned => ?_⟩
  obtain ⟨r, hrun⟩ := howned.runs
  rw [hrun] at hbad
  exact absurd hbad (by simp [Except.map])

end CharDriver.RwFile
