import CharDriver.RwFileOwnership

/-! An overlap of two open files never heals. As long as no call goes wrong there are at least as many
live blocks as open files, so an open beside an open file leaves a block that `kernel_buffer` does not
name; and such a block is freed by no later call. -/

namespace CharDriver.RwFile

open Base

/-- A live block that `kernel_buffer` does not name. No call can free it. -/
def Lost (s : State) (b : Nat) : Prop :=
  s.kernel.slab.live b = true ∧ s.kernel.kernelBuffer ≠ some b

def Covered (s : State) : Prop :=
  ∃ blocks : Finset Nat, (∀ b, s.kernel.slab.live b = true ↔ b ∈ blocks) ∧
    s.files.card ≤ blocks.card

theorem covered_initial (mem : Nat → Nat → UInt8) : Covered (initial mem) :=
  ⟨∅, fun b => by simp [initial], Nat.le_refl _⟩

theorem run_keeps {op : Op} {k k' : Kernel} {r : Reply} (hrun : op.run k = .ok (r, k')) :
    k'.kernelBuffer = k.kernelBuffer ∧ k'.slab.live = k.slab.live := by
  cases op with
  | deviceRead len fault =>
      obtain ⟨bytes, -, heq⟩ := bind_eq_ok hrun
      cases heq
      exact ⟨rfl, rfl⟩
  | deviceWrite buff fault =>
      obtain ⟨slab, hstore, heq⟩ := bind_eq_ok hrun
      obtain ⟨-, rfl⟩ := Prod.mk.inj (Except.ok.inj heq)
      refine ⟨rfl, ?_⟩
      unfold store at hstore
      split at hstore
      · cases hstore
        rfl
      split at hstore
      · cases hstore
      split at hstore
      · cases hstore
        rfl
      · cases hstore

theorem open_files {file : Nat} {answer : Option Nat} {s s' : State} {r : Reply}
    (hstep : step s (.deviceOpen file answer) = .ok (s', r)) :
    s'.files = if answer.isSome then insert file s.files else s.files := by
  cases answer with
  | none =>
      cases hstep
      rfl
  | some b =>
      cases hstep
      rfl

/-- What a release that goes through does: nothing to the blocks, or it frees the one named. -/
theorem release_cases {file : Nat} {s s' : State} {r : Reply}
    (hstep : step s (.deviceRelease file) = .ok (s', r)) :
    s'.files = s.files.erase file ∧ s'.kernel.kernelBuffer = s.kernel.kernelBuffer ∧
      (s.kernel.kernelBuffer = none ∧ s'.kernel.slab.live = s.kernel.slab.live ∨
        ∃ b, s.kernel.kernelBuffer = some b ∧ s.kernel.slab.live b = true ∧
          s'.kernel.slab.live = Function.update s.kernel.slab.live b false) := by
  obtain ⟨⟨r', k⟩, hrelease, heq⟩ := bind_eq_ok hstep
  cases heq
  obtain ⟨slab, hfree, heq⟩ := bind_eq_ok hrelease
  cases heq
  refine ⟨rfl, rfl, ?_⟩
  cases hbuffer : s.kernel.kernelBuffer with
  | none =>
      rw [hbuffer] at hfree
      cases hfree
      exact Or.inl ⟨rfl, rfl⟩
  | some b =>
      rw [hbuffer, kfree] at hfree
      split at hfree
      · rename_i hlive
        cases hfree
        exact Or.inr ⟨b, rfl, hlive, rfl⟩
      · cases hfree

section

variable {s s' : State} {c : Call} {r : Reply}

theorem transfer_keeps {file : Nat} {op : Op} (hstep : step s (.transfer file op) = .ok (s', r)) :
    s'.files = s.files ∧ s'.kernel.kernelBuffer = s.kernel.kernelBuffer ∧
      s'.kernel.slab.live = s.kernel.slab.live := by
  obtain ⟨⟨r', k⟩, hrun, heq⟩ := bind_eq_ok hstep
  cases heq
  exact ⟨rfl, run_keeps hrun⟩

theorem Covered.step (hs : Covered s) (hc : Enabled s c) (hstep : RwFile.step s c = .ok (s', r)) :
    Covered s' := by
  obtain ⟨blocks, hblocks, hcard⟩ := hs
  cases c with
  | deviceOpen file answer =>
      cases answer with
      | none =>
          cases hstep
          exact ⟨blocks, hblocks, hcard⟩
      | some b =>
          cases hstep
          have hnew : b ∉ blocks := fun h => by
            rw [← hblocks, hc.2 b rfl] at h
            exact absurd h Bool.false_ne_true
          refine ⟨insert b blocks, fun b' => ?_, ?_⟩
          · rw [Finset.mem_insert, ← hblocks]
            by_cases heq : b' = b
            · simp [heq]
            · simp [Slab.setLive_of_ne _ _ heq, heq]
          · rw [Finset.card_insert_of_notMem hnew]
            exact Nat.le_trans (Finset.card_insert_le _ _) (Nat.succ_le_succ hcard)
  | transfer file op =>
      obtain ⟨hfiles, -, hlive⟩ := transfer_keeps hstep
      exact ⟨blocks, by rwa [hlive], by rwa [hfiles]⟩
  | deviceRelease file =>
      obtain ⟨hfiles, -, ⟨-, hlive⟩ | ⟨b, -, hb, hlive⟩⟩ := release_cases hstep
      · refine ⟨blocks, by rwa [hlive], ?_⟩
        rw [hfiles]
        exact Nat.le_trans (Finset.card_le_card (Finset.erase_subset _ _)) hcard
      · refine ⟨blocks.erase b, fun b' => ?_, ?_⟩
        · rw [Finset.mem_erase, ← hblocks, hlive]
          by_cases heq : b' = b <;> simp [heq]
        · have hfile : file ∈ s.files := hc
          rw [hfiles, Finset.card_erase_of_mem hfile, Finset.card_erase_of_mem ((hblocks b).mp hb)]
          exact Nat.sub_le_sub_right hcard 1

theorem Lost.step {b : Nat} (hlost : Lost s b) (hc : Enabled s c)
    (hstep : RwFile.step s c = .ok (s', r)) : Lost s' b := by
  obtain ⟨hlive, hbuffer⟩ := hlost
  cases c with
  | deviceOpen file answer =>
      cases answer with
      | none =>
          cases hstep
          exact ⟨hlive, by simp⟩
      | some b' =>
          cases hstep
          have hne : b ≠ b' := fun heq => by
            rw [heq, hc.2 b' rfl] at hlive
            exact absurd hlive Bool.false_ne_true
          exact ⟨(s.kernel.slab.setLive_of_ne true hne).trans hlive, by simpa using hne.symm⟩
  | transfer file op =>
      obtain ⟨-, hsame, hlive'⟩ := transfer_keeps hstep
      exact ⟨hlive' ▸ hlive, hsame ▸ hbuffer⟩
  | deviceRelease file =>
      obtain ⟨-, hsame, ⟨-, hlive'⟩ | ⟨b', hb', -, hlive'⟩⟩ := release_cases hstep
      · exact ⟨hlive' ▸ hlive, hsame ▸ hbuffer⟩
      · have hne : b ≠ b' := fun heq => hbuffer (heq ▸ hb')
        refine ⟨?_, hsame ▸ hbuffer⟩
        rw [hlive', Function.update_of_ne hne]
        exact hlive

/-- An open beside an open file loses a block, whether it succeeds or fails. -/
theorem lost_of_overlap (hs : Covered s) (hc : Enabled s c) (hstep : RwFile.step s c = .ok (s', r))
    (hoverlap : ¬OpensAlone s c) : ∃ b, Lost s' b := by
  obtain ⟨blocks, hblocks, hcard⟩ := hs
  cases c with
  | deviceOpen file answer =>
      have hpos : 0 < blocks.card :=
        Nat.lt_of_lt_of_le (Finset.card_pos.mpr (Finset.nonempty_iff_ne_empty.mpr hoverlap)) hcard
      obtain ⟨b, hb⟩ := Finset.card_pos.mp hpos
      have hlive := (hblocks b).mpr hb
      cases answer with
      | none =>
          cases hstep
          exact ⟨b, hlive, by simp⟩
      | some b' =>
          cases hstep
          have hne : b ≠ b' := fun heq => by
            rw [heq, hc.2 b' rfl] at hlive
            exact absurd hlive Bool.false_ne_true
          exact ⟨b, (s.kernel.slab.setLive_of_ne true hne).trans hlive, by simpa using hne.symm⟩
  | transfer file op => exact absurd trivial hoverlap
  | deviceRelease file => exact absurd trivial hoverlap

end

/-- The calls go through, and in the end no block is lost. -/
def Survives (mem : Nat → Nat → UInt8) (calls : List Call) : Prop :=
  ∃ s rs, runSteps step (initial mem) calls = .ok (s, rs) ∧ ¬∃ b, Lost s b

/-- A run survives exactly when no open of it found a file open. What happens after an overlap, and
how the files are closed, makes no difference. -/
theorem survives_iff (mem : Nat → Nat → UInt8) {calls : List Call}
    (h : Admissible step Enabled (initial mem) calls) :
    Survives mem calls ↔ Admissible step OpensAlone (initial mem) calls := by
  constructor
  · rintro ⟨s, rs, hrun, hnone⟩
    refine (Admissible.of_persists Covered (fun s => ∃ b, Lost s b)
      (fun _ _ _ _ hs => hs.step) (fun _ _ _ _ _ hc hstep ⟨b, hb⟩ => ⟨b, hb.step hc hstep⟩)
      (fun _ _ _ _ hs hc hstep hfine => ?_) (covered_initial mem) h hrun hnone).1
    by_contra hoverlap
    exact hfine (lost_of_overlap hs hc hstep hoverlap)
  · intro halone
    obtain ⟨s, rs, hrun, howned, -⟩ := runSteps_invariant (fun s => Owned s ∧ s.files.card ≤ 1)
      owned_step ⟨owned_initial mem, Nat.zero_le _⟩ (h.and halone)
    exact ⟨s, rs, hrun, fun ⟨b, hlive, hbuffer⟩ => hbuffer (howned.held b hlive).1⟩

theorem survives_oneByOne : Survives (fun _ _ => 0)
    [.deviceOpen 0 none, .deviceOpen 1 (some 5), .transfer 1 (.deviceWrite [1] none),
      .deviceRelease 1, .deviceOpen 2 (some 5), .deviceRelease 2] :=
  (survives_iff _ (by decide)).mpr (by decide)

end CharDriver.RwFile
