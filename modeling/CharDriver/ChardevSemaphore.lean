import CharDriver.ChardevSteps
import Mathlib.Data.Prod.Lex

/-! The semaphore of `chardev01.c`. Every path of `device_open`, `device_read` and `device_write`
accesses the store only between its `down_interruptible` and its `up`, and each access leaves less to do
before the `up`: so for any number of threads, in any interleaving, the count and the threads inside add
up to one. -/

namespace CharDriver.Chardev

open Base

/-- What the locked section computes with the loaded quantum. -/
def Loaded.Fits (g : Loaded) : Prop := 0 ≤ g.quantum ∧ g.quantum ≤ intMax

/-- The offset in the quantum is below its end. -/
def Located (g : Loaded) (place : Place) : Prop :=
  place.qPos < g.quantum ∧ g.quantum ≤ intMax

/-- The phase of each point, and what holds there. -/
def Pc.At (phase : Phase) : Pc → Prop
  | .openDown _ | .load _ _ => phase = .before
  | .down _ _ g => phase = .before ∧ g.Fits
  | .trim | .trimNode _ _ | .trimSlot _ _ _ _ _ _ | .trimNext _ _ => phase = .inside
  | .size _ g | .locate _ g => phase = .inside ∧ g.Fits
  | .data _ g place | .follow _ g place _ _ | .slot _ g place _ | .array _ g place _
  | .quantum _ g place _ | .copy _ g place _ => phase = .inside ∧ Located g place
  | .grow len _ => phase = .inside ∧ len ≤ intMax
  | .up r => phase = .inside ∧ r.ret ≠ -eRESTARTSYS
  | .ret r => phase = .before ∨ phase = .after ∧ r.ret ≠ -eRESTARTSYS

/-- What is left to do in the locked section: `device_trim` frees a block with every node, and
`device_follow` counts down. -/
def Pc.rank (s : Kernel) : Pc → ℕ ×ₗ ℕ
  | .trim => toLex (s.heap.live + 1, 0)
  | .trimNode qset _ => toLex (s.heap.live, qset.toNat + 3)
  | .trimSlot _ _ _ _ _ n => toLex (s.heap.live, n + 2)
  | .trimNext _ _ => toLex (s.heap.live, 1)
  | .size _ _ => toLex (0, 2 ^ 32 + 7)
  | .locate _ _ => toLex (0, 2 ^ 32 + 6)
  | .data _ _ _ => toLex (0, 2 ^ 32 + 5)
  | .follow _ _ _ n _ => toLex (0, n + 5)
  | .slot _ _ _ _ | .array _ _ _ _ => toLex (0, 4)
  | .quantum _ _ _ _ => toLex (0, 3)
  | .copy _ _ _ _ => toLex (0, 2)
  | .grow _ _ => toLex (0, 1)
  | _ => toLex (0, 0)

/-- A step inside: the count and the quantum are kept, and less is left to do. -/
structure Proceeds (p : Pc) (s : Kernel) (q : Pc) (s' : Kernel) : Prop where
  inside : q.At .inside
  sem : s'.dev.sem = s.dev.sem
  quantum : s'.dev.quantum = s.dev.quantum
  rank : q.rank s' < p.rank s

theorem rank_lt {a b c d : ℕ} (hle : a ≤ c) (hlt : a = c → b < d) :
    (toLex (a, b) : ℕ ×ₗ ℕ) < toLex (c, d) := Prod.Lex.toLex_lt_toLex'.mpr ⟨hle, hlt⟩

theorem rank_lt_of_snd {a b d : ℕ} (hlt : b < d) : (toLex (a, b) : ℕ ×ₗ ℕ) < toLex (a, d) :=
  rank_lt (Nat.le_refl a) fun _ => hlt

theorem ret_natCast_ne {n : Nat} (h : n ≤ intMax) : toLong n ≠ -eRESTARTSYS := by
  simp only [intMax] at h
  rw [toLong_natCast (by omega), eRESTARTSYS]
  omega

/-- A transfer moves less than a quantum. -/
theorem clampLen_le {g : Loaded} {place : Place} (h : Located g place) (hpos : 0 ≤ place.qPos)
    (len : Nat) : clampLen g.quantum place.qPos len ≤ intMax := by
  obtain ⟨hlt, hmax⟩ := h
  have hle : toULong (toInt (g.quantum - place.qPos)) ≤ intMax := by
    obtain ⟨n, hn⟩ := Int.eq_ofNat_of_zero_le (show 0 ≤ g.quantum - place.qPos by omega)
    simp only [intMax] at hmax ⊢
    rw [hn, toInt_natCast (by simp only [intMax]; omega), toULong_natCast (by omega)]
    omega
  simp only [clampLen]
  split <;> omega

theorem imod_lt {w : Nat} {a b r : Int} (hb : 0 ≤ b) (hmod : imod w a b = .ok r) : r < b := by
  unfold imod at hmod
  split at hmod
  · rename_i r' hr
    cases hmod
    unfold remainder at hr
    split at hr
    · cases hr
    · rename_i hfits
      cases hr
      exact Int.tmod_lt_of_pos a (by omega)
  · cases hmod

theorem located_of_locate {g : Loaded} (hg : g.Fits) {ppos : Int} {place : Place}
    (hlocate : locate g.quantum g.itemsize ppos = .ok place) : Located g place := by
  obtain ⟨item, -, hrun⟩ := bind_eq_ok hlocate
  obtain ⟨rest, -, hrun⟩ := bind_eq_ok hrun
  obtain ⟨sPos, -, hrun⟩ := bind_eq_ok hrun
  obtain ⟨qPos, hmod, hrun⟩ := bind_eq_ok hrun
  cases hrun
  exact ⟨imod_lt hg.1 hmod, hg.2⟩

theorem up_inside {ret : Int} {bytes : List UInt8} {ppos : Int} (hret : ret ≠ -eRESTARTSYS) :
    (Pc.up ⟨ret, bytes, ppos⟩).At .inside := ⟨rfl, hret⟩

section Steps

variable {env : Kmem} {s s' : Kernel} {p q : Pc} {x : Transfer} {g : Loaded} {place : Place}

theorem kfree_some_live {h h' : Heap Block} {a : Nat} (hfree : kfree h (some a) = .ok h') :
    h'.live < h.live := by
  simp only [kfree] at hfree
  split at hfree
  · rename_i hlive
    cases hfree
    have hcount := Heap.live_free hlive
    omega
  · cases hfree

theorem kfree_live {h h' : Heap Block} {p : Ptr} (hfree : kfree h p = .ok h') : h'.live ≤ h.live := by
  cases p with
  | none =>
      cases hfree
      exact Nat.le_refl _
  | some a => exact Nat.le_of_lt (kfree_some_live hfree)

theorem storeNode_live {h h' : Heap Block} {p data next : Ptr}
    (hstore : storeNode h p data next = .ok h') : h'.live = h.live := by
  unfold storeNode at hstore
  split at hstore
  · rename_i hget
    cases hstore
    exact Heap.live_put (by simp at hget; simp [hget]) _
  · cases hstore

theorem trimNodeStep_proceeds {qset : Int} {dptr : Nat}
    (hstep : trimNodeStep qset dptr s = .ok (q, s')) :
    Proceeds (.trimNode qset (some dptr)) s q s' := by
  obtain ⟨⟨data, next⟩, -, hstep⟩ := bind_eq_ok hstep
  dsimp only at hstep
  split at hstep
  · cases hstep
    exact ⟨rfl, rfl, rfl, rank_lt_of_snd (by omega)⟩
  · cases hstep
    exact ⟨rfl, rfl, rfl, rank_lt_of_snd (by omega)⟩

theorem trimSlotStep_proceeds {qset : Int} {dptr i n : Nat} {array next : Ptr}
    (hstep : trimSlotStep qset dptr array next i n s = .ok (q, s')) :
    Proceeds (.trimSlot qset dptr array next i n) s q s' := by
  cases n with
  | succ n =>
      obtain ⟨p, -, hstep⟩ := bind_eq_ok hstep
      obtain ⟨heap, hfree, hstep⟩ := bind_eq_ok hstep
      cases hstep
      exact ⟨rfl, rfl, rfl, rank_lt (kfree_live hfree) fun _ => by omega⟩
  | zero =>
      obtain ⟨heap, hfree, hstep⟩ := bind_eq_ok hstep
      obtain ⟨heap', hstore, hstep⟩ := bind_eq_ok hstep
      cases hstep
      exact ⟨rfl, rfl, rfl, rank_lt (storeNode_live hstore ▸ kfree_live hfree) fun _ => by omega⟩

theorem trimNextStep_proceeds {qset : Int} {dptr : Nat}
    (hstep : trimNextStep qset dptr s = .ok (q, s')) : Proceeds (.trimNext qset dptr) s q s' := by
  obtain ⟨⟨data, next⟩, -, hstep⟩ := bind_eq_ok hstep
  obtain ⟨heap, hfree, hstep⟩ := bind_eq_ok hstep
  cases hstep
  have hlive := kfree_some_live hfree
  exact ⟨rfl, rfl, rfl, rank_lt (Nat.le_of_lt hlive) fun heq => absurd heq (Nat.ne_of_lt hlive)⟩

theorem followed_inside (hplace : Located g place) (dptr : Ptr) :
    (x.followed g place dptr).At .inside := by
  unfold Transfer.followed
  split
  · exact ⟨rfl, hplace⟩
  · exact up_inside (by decide)
  · exact ⟨rfl, hplace⟩

theorem followed_rank (dptr : Ptr) {n : Nat} (hn : 4 < n) :
    (x.followed g place dptr).rank s' < toLex (0, n) := by
  unfold Transfer.followed
  split
  · exact rank_lt_of_snd hn
  · exact rank_lt_of_snd (by omega)
  · exact rank_lt_of_snd hn

theorem dataStep_proceeds (hplace : Located g place)
    (hstep : dataStep env x g place s = .ok (q, s')) : Proceeds (.data x g place) s q s' := by
  have hfollow (s : Kernel) (qs : Nat) :
      (Pc.follow x g place (place.item % 2 ^ 32).toNat qs).rank s < (Pc.data x g place).rank s :=
    rank_lt_of_snd (by omega)
  unfold dataStep at hstep
  split at hstep
  · cases hstep
    exact ⟨⟨rfl, hplace⟩, rfl, rfl, hfollow _ _⟩
  split at hstep
  · cases hstep
    exact ⟨followed_inside hplace none, rfl, rfl, followed_rank none (by omega)⟩
  · cases hstep
    exact ⟨⟨rfl, hplace⟩, rfl, rfl, hfollow _ _⟩

theorem followStep_proceeds {n qs : Nat} (hplace : Located g place)
    (hstep : followStep env x g place qs n s = .ok (q, s')) :
    Proceeds (.follow x g place n qs) s q s' := by
  cases n with
  | zero =>
      cases hstep
      exact ⟨followed_inside hplace _, rfl, rfl, followed_rank _ (by omega)⟩
  | succ n =>
      obtain ⟨⟨data, next⟩, -, hstep⟩ := bind_eq_ok hstep
      have hnext (s : Kernel) (next : Nat) : (Pc.follow x g place n next).rank s <
          (Pc.follow x g place (n + 1) qs).rank s := rank_lt_of_snd (by omega)
      cases next with
      | some next =>
          cases hstep
          exact ⟨⟨rfl, hplace⟩, rfl, rfl, hnext _ _⟩
      | none =>
          dsimp only at hstep
          split at hstep
          · cases hstep
            exact ⟨followed_inside hplace none, rfl, rfl, followed_rank none (by omega)⟩
          · obtain ⟨heap, -, hstep⟩ := bind_eq_ok hstep
            cases hstep
            exact ⟨⟨rfl, hplace⟩, rfl, rfl, hnext _ _⟩

theorem slotStep_proceeds {dptr : Ptr} (hplace : Located g place)
    (hstep : slotStep x g place dptr s = .ok (q, s')) : Proceeds (.slot x g place dptr) s q s' := by
  obtain ⟨slot, -, hstep⟩ := bind_eq_ok hstep
  cases slot with
  | none =>
      cases hstep
      exact ⟨up_inside (by decide), rfl, rfl, rank_lt_of_snd (by omega)⟩
  | some slot =>
      cases hstep
      exact ⟨⟨rfl, hplace⟩, rfl, rfl, rank_lt_of_snd (by omega)⟩

theorem arrayStep_proceeds {dptr : Nat} (hplace : Located g place)
    (hstep : arrayStep env x g place dptr s = .ok (q, s')) :
    Proceeds (.array x g place dptr) s q s' := by
  obtain ⟨⟨array, heap⟩, -, hstep⟩ := bind_eq_ok hstep
  cases array with
  | none =>
      cases hstep
      exact ⟨up_inside (by decide), rfl, rfl, rank_lt_of_snd (by omega)⟩
  | some array =>
      cases hstep
      exact ⟨⟨rfl, hplace⟩, rfl, rfl, rank_lt_of_snd (by omega)⟩

theorem quantumStep_proceeds {array : Ptr} (hplace : Located g place)
    (hstep : quantumStep env x g place array s = .ok (q, s')) :
    Proceeds (.quantum x g place array) s q s' := by
  obtain ⟨⟨slot, heap⟩, -, hstep⟩ := bind_eq_ok hstep
  cases slot with
  | none =>
      cases hstep
      exact ⟨up_inside (by decide), rfl, rfl, rank_lt_of_snd (by omega)⟩
  | some slot =>
      cases hstep
      exact ⟨⟨rfl, hplace⟩, rfl, rfl, rank_lt_of_snd (by omega)⟩

theorem loadBytes_offset {h : Heap Block} {p : Ptr} {off : Int} {len : Nat} {bytes : List UInt8}
    (hload : loadBytes h p off len = .ok bytes) : 0 ≤ off := by
  unfold loadBytes at hload
  split at hload
  · split at hload
    · rename_i hin
      exact hin.1
    · cases hload
  · cases hload

theorem storeBytes_offset {h h' : Heap Block} {p : Ptr} {off : Int} {data : List UInt8}
    (hstore : storeBytes h p off data = .ok h') : 0 ≤ off := by
  unfold storeBytes at hstore
  split at hstore
  · split at hstore
    · rename_i hin
      exact hin.1
    · cases hstore
  · cases hstore

theorem copyStep_proceeds {slot : Ptr} (hplace : Located g place)
    (hstep : copyStep x g place slot s = .ok (q, s')) : Proceeds (.copy x g place slot) s q s' := by
  unfold copyStep at hstep
  split at hstep
  · rename_i len hdir
    obtain ⟨bytes, hload, hstep⟩ := bind_eq_ok hstep
    have hle := clampLen_le hplace (loadBytes_offset hload) len
    dsimp only at hstep
    split at hstep
    · cases hstep
      exact ⟨up_inside (by decide), rfl, rfl, rank_lt_of_snd (by omega)⟩
    · cases hstep
      exact ⟨up_inside (ret_natCast_ne hle), rfl, rfl, rank_lt_of_snd (by omega)⟩
  · rename_i buff hdir
    obtain ⟨heap, hstore, hstep⟩ := bind_eq_ok hstep
    have hle := clampLen_le hplace (storeBytes_offset hstore) buff.length
    split at hstep
    · cases hstep
      exact ⟨up_inside (by decide), rfl, rfl, rank_lt_of_snd (by omega)⟩
    · cases hstep
      exact ⟨⟨rfl, hle⟩, rfl, rfl, rank_lt_of_snd (by omega)⟩

/-- Every access is made inside, and leaves less to do there. -/
theorem access_proceeds {f : Kernel → Except Oops (Pc × Kernel)} (hp : p.At .inside)
    (ha : action env p = .access f) (hf : f s = .ok (q, s')) : Proceeds p s q s' := by
  cases p with
  | trim =>
      cases ha
      cases hf
      exact ⟨rfl, rfl, rfl, rank_lt (Nat.le_succ _) fun heq => by omega⟩
  | trimNode qset dptr =>
      cases dptr with
      | none =>
          cases ha
          cases hf
          exact ⟨up_inside (by decide), rfl, rfl, rank_lt (Nat.zero_le _) fun _ => by omega⟩
      | some dptr =>
          cases ha
          exact trimNodeStep_proceeds hf
  | trimSlot qset dptr array next i n =>
      cases ha
      exact trimSlotStep_proceeds hf
  | trimNext qset dptr =>
      cases ha
      exact trimNextStep_proceeds hf
  | size x g =>
      cases ha
      cases hf
      split
      · exact ⟨up_inside (by decide), rfl, rfl, rank_lt_of_snd (by omega)⟩
      · exact ⟨⟨rfl, hp.2⟩, rfl, rfl, rank_lt_of_snd (by omega)⟩
  | locate x g =>
      cases ha
      obtain ⟨place, hlocate, heq⟩ := map_eq_ok hf
      cases heq
      exact ⟨⟨rfl, located_of_locate hp.2 hlocate⟩, rfl, rfl,
        rank_lt_of_snd (by omega)⟩
  | data x g place =>
      cases ha
      exact dataStep_proceeds hp.2 hf
  | follow x g place n qs =>
      cases ha
      exact followStep_proceeds hp.2 hf
  | slot x g place dptr =>
      cases ha
      exact slotStep_proceeds hp.2 hf
  | array x g place dptr =>
      cases ha
      exact arrayStep_proceeds hp.2 hf
  | quantum x g place array =>
      cases ha
      exact quantumStep_proceeds hp.2 hf
  | copy x g place slot =>
      cases ha
      exact copyStep_proceeds hp.2 hf
  | grow len ppos =>
      cases ha
      cases hf
      exact ⟨up_inside (ret_natCast_ne hp.2), rfl, rfl, rank_lt_of_snd (by omega)⟩
  | _ => cases ha

end Steps

/-- The quantum of the device is a non-negative `int`. -/
def QuantumFits (s : Kernel) : Prop := 0 ≤ s.dev.quantum ∧ s.dev.quantum ≤ intMax

/-- What a call returns that has taken the semaphore. -/
def Out (phase : Phase) (r : Reply) : Prop := phase = .before ∨ r.ret ≠ -eRESTARTSYS

theorem deviceSem_down {signal : Bool} {s s' : Kernel} (hdown : deviceSem.down signal s = some s') :
    s' = { s with dev := { s.dev with sem := s.dev.sem - 1 } } := by
  obtain ⟨dev, hdev, rfl⟩ := Option.map_eq_some_iff.mp hdown
  unfold downInterruptible at hdev
  split at hdev
  · cases hdev
  · rw [← Option.some.inj hdev]

theorem inside_of_access {env : Kmem} {phase : Phase} {p : Pc}
    {f : Kernel → Except Oops (Pc × Kernel)} (hp : p.At phase) (ha : action env p = .access f) :
    phase = .inside := by
  cases p with
  | trim | trimNode | trimSlot | trimNext => exact hp
  | openDown | load | down | up | ret => cases ha
  | _ => exact hp.1

theorem access_guarded {env : Kmem} {phase : Phase} {p : Pc}
    {f : Kernel → Except Oops (Pc × Kernel)} (hp : p.At phase) (ha : action env p = .access f) :
    (Action.access f).Guarded (calls env) QuantumFits Pc.At Out phase := by
  obtain rfl := inside_of_access hp ha
  refine ⟨rfl, fun s q s' hs hf => ?_⟩
  have hstep := access_proceeds hp ha hf
  exact ⟨hstep.inside, by rwa [QuantumFits, hstep.quantum], hstep.sem⟩

theorem calls_guarded (env : Kmem) : Guarded (calls env) QuantumFits Pc.At Out where
  entry c := by
    cases c with
    | deviceOpen flags signal =>
        show (if isWronly flags then Pc.openDown signal else .ret ⟨0, [], 0⟩).At .before
        split
        · rfl
        · exact Or.inl rfl
    | deviceRelease => exact Or.inl rfl
    | _ => rfl
  action phase p hp := by
    cases p with
    | openDown signal => exact ⟨hp, rfl, Or.inl rfl⟩
    | load x signal => exact ⟨hp, fun s hs => ⟨rfl, hs⟩⟩
    | down x signal g =>
        obtain ⟨hphase, hg⟩ := hp
        refine ⟨hphase, ?_, Or.inl rfl⟩
        unfold Transfer.locked
        split
        · exact ⟨rfl, hg⟩
        · exact ⟨rfl, hg⟩
    | up r => exact ⟨hp.1, Or.inr ⟨rfl, hp.2⟩⟩
    | ret r =>
        rcases hp with rfl | ⟨rfl, hret⟩
        · exact ⟨Phase.noConfusion, Or.inl rfl⟩
        · exact ⟨Phase.noConfusion, Or.inr hret⟩
    | trimNode qset dptr => cases dptr <;> exact access_guarded hp rfl
    | _ => exact access_guarded hp rfl
  ok_down signal s s' hs hdown := by
    rw [deviceSem_down hdown]
    exact hs
  ok_up s hs := hs

def SameStore (s s' : Kernel) : Prop :=
  s'.heap = s.heap ∧ s'.dev.data = s.dev.data ∧ s'.dev.size = s.dev.size

/-- The semaphore is balanced, and excludes all threads but one from the store. -/
structure Excludes {ι : Type} [DecidableEq ι] (env : Kmem) (s : Pool ι Kernel Pc) : Prop where
  count : s.shared.dev.sem + s.inside.card = 1
  alone : ∀ t ∈ s.inside, ∀ u ∈ s.inside, t = u
  accesses : ∀ t p f, s.point t = some p → action env p = .access f → t ∈ s.inside
  outside : ∀ t s' o, t ∉ s.inside → (calls env).step s (.advance t) = .ok (s', o) →
    SameStore s.shared s'.shared
  returned : ∀ t r, s.point t = some (.ret r) → t ∉ s.inside
  interrupted : ∀ t r, s.point t = some (.ret r) → r.ret = -eRESTARTSYS → t ∉ s.touched
  idle : (∀ t, s.point t = none) → s.shared.dev.sem = 1

theorem excludes_of_balanced {ι : Type} [DecidableEq ι] {env : Kmem} {s : Pool ι Kernel Pc}
    (h : Balanced (calls env) QuantumFits Pc.At s) : Excludes env s where
  count := h.count
  alone _ ht _ hu := h.alone ht hu
  accesses _ _ _ hp ha := h.access_inside (calls_guarded env) hp ha
  outside t s' o hout hstep := by
    rcases h.outside_step (calls_guarded env) hout hstep with hsame | ⟨signal, hdown⟩
    · rw [hsame]
      exact ⟨rfl, rfl, rfl⟩
    · rw [deviceSem_down hdown]
      exact ⟨rfl, rfl, rfl⟩
  returned _ _ hp := (h.done_outside (calls_guarded env) hp rfl).1
  interrupted t r hp hret hmem := by
    obtain ⟨-, phase, hout, htouched⟩ := h.done_outside (calls_guarded env) hp rfl
    rcases hout with hbefore | hne
    · exact htouched hmem hbefore
    · exact hne hret
  idle hidle := h.count_idle hidle

/-- Any number of threads, in any interleaving of their steps and at any offsets, as far as the steps
go through. -/
theorem run_excludes {ι : Type} [DecidableEq ι] (env : Kmem) {k : Kernel}
    (hsem : k.dev.sem = 1) (hquantum : QuantumFits k) {moves : List (Move ι Call)}
    (hmoves : Admissible (calls env).step Move.Enabled (Pool.initial k) moves)
    {s : Pool ι Kernel Pc} {os : List (Option (ι × Reply))}
    (hrun : runSteps (calls env).step (Pool.initial k) moves = .ok (s, os)) : Excludes env s :=
  excludes_of_balanced (run_balanced (calls_guarded env) hrun hmoves (balanced_initial hquantum hsem))

end CharDriver.Chardev
