import CharDriver.BaseOverlay
import CharDriver.ChardevModel
import Mathlib.Logic.Function.Basic

/-! The device without its pointers. A store counts the nodes and the allocation calls, marks the
nodes that have a slot array and the quanta that are allocated, and keeps the bytes in one flat
memory addressed by file offset. Its operations are those of the driver, in plain arithmetic; the
heap is shown to refine it, and what the driver does with data is then proved here. -/

namespace CharDriver.Chardev

open Base

/-- The conditions on `quantum` and `qset` under which every index fits an `int`. -/
structure Geometry (quantum qset : Nat) : Prop where
  quantum_pos : 0 < quantum
  qset_pos : 0 < qset
  fits : quantum * qset ≤ intMax

theorem Geometry.quantum_le {quantum qset : Nat} (hg : Geometry quantum qset) : quantum ≤ intMax :=
  Nat.le_trans (Nat.le_mul_of_pos_right quantum hg.qset_pos) hg.fits

/-- Only the bytes of an allocated quantum mean anything: those at the offsets `a` with
`block (a / quantum)`. -/
structure Store where
  quantum : Nat
  qset : Nat
  size : Nat
  calls : Nat
  nodes : Nat
  array : Nat → Bool
  block : Nat → Bool
  byte : Nat → UInt8

namespace Store

def empty (quantum qset : Nat) : Store where
  quantum := quantum
  qset := qset
  size := 0
  calls := 0
  nodes := 0
  array _ := false
  block _ := false
  byte _ := 0

/-- The list item of an offset. -/
def item (st : Store) (p : Nat) : Nat := p / (st.quantum * st.qset)

/-- How much of a request for `len` bytes at `p` is left after the clamp to the end of the quantum. -/
def piece (quantum p len : Nat) : Nat := min len (quantum - p % quantum)

/-- Allocate `missing` nodes one by one, up to the first failure: whether all were allocated, the
number of nodes and the number of allocation calls after it. -/
def grow (env : Kmem) : Nat → Nat → Nat → Bool × Nat × Nat
  | 0, nodes, calls => (true, nodes, calls)
  | missing + 1, nodes, calls =>
      if env.fails calls then (false, nodes, calls + 1) else grow env missing (nodes + 1) (calls + 1)

def follow (env : Kmem) (n : Nat) (st : Store) : Bool × Store :=
  let (ok, nodes, calls) := grow env (n + 1 - st.nodes) st.nodes st.calls
  (ok, { st with nodes, calls })

def ensureArray (env : Kmem) (i : Nat) (st : Store) : Bool × Store :=
  if st.array i then (true, st)
  else if env.fails st.calls then (false, { st with calls := st.calls + 1 })
  else (true, { st with calls := st.calls + 1, array := Function.update st.array i true })

def ensureBlock (env : Kmem) (k : Nat) (st : Store) : Bool × Store :=
  if st.block k then (true, st)
  else if env.fails st.calls then (false, { st with calls := st.calls + 1 })
  else (true, { st with
    calls := st.calls + 1
    block := Function.update st.block k true
    byte := fun a => if a / st.quantum = k then env.old st.calls (a % st.quantum) else st.byte a })

/-- Everything `device_write` allocates before it copies. -/
def prepare (env : Kmem) (p : Nat) (st : Store) : Bool × Store :=
  match st.follow env (st.item p) with
  | (false, st₁) => (false, st₁)
  | (true, st₁) =>
      match st₁.ensureArray env (st.item p) with
      | (false, st₂) => (false, st₂)
      | (true, st₂) => st₂.ensureBlock env (p / st.quantum)

def fill (p : Nat) (data : List UInt8) (st : Store) : Store :=
  { st with byte := overlay st.byte p data }

def transfer (buff : List UInt8) (fault : Option Nat) (p : Nat) (st : Store) : Reply × Store :=
  let len := piece st.quantum p buff.length
  let n := copied fault len
  let st' := st.fill p (received fault (buff.take len))
  if n < len then (⟨-eFAULT, [], p⟩, st')
  else (⟨len, [], (p + len : Nat)⟩, { st' with size := max st.size (p + len) })

def write (env : Kmem) (buff : List UInt8) (fault : Option Nat) (p : Nat) (st : Store) :
    Reply × Store :=
  match st.prepare env p with
  | (false, st') => (⟨-eNOMEM, [], p⟩, st')
  | (true, st') => st'.transfer buff fault p

/-- Below the end of the data the node exists, so a read changes nothing. -/
def read (len : Nat) (fault : Option Nat) (p : Nat) (st : Store) : Reply :=
  if st.size ≤ p ∨ st.block (p / st.quantum) = false then ⟨0, [], p⟩
  else
    let len := piece st.quantum p len
    let n := copied fault len
    let bytes := (List.range n).map fun i => st.byte (p + i)
    if n < len then ⟨-eFAULT, bytes, p⟩ else ⟨len, bytes, (p + len : Nat)⟩

def trim (st : Store) : Store :=
  { st with
    size := 0
    qset := deviceQset
    nodes := 0
    array := fun _ => false
    block := fun _ => false }

/-- One call. A signal, where the call takes the semaphore at all, keeps it from doing anything. -/
def step (env : Kmem) (st : Store) : Call → Reply × Store
  | .deviceOpen flags signal =>
      if isWronly flags then
        if signal then (⟨-eRESTARTSYS, [], 0⟩, st) else (⟨0, [], 0⟩, st.trim)
      else (⟨0, [], 0⟩, st)
  | .deviceRead ppos len signal fault =>
      if signal then (⟨-eRESTARTSYS, [], ppos⟩, st) else (st.read len fault ppos, st)
  | .deviceWrite ppos buff signal fault =>
      if signal then (⟨-eRESTARTSYS, [], ppos⟩, st) else st.write env buff fault ppos
  | .deviceRelease => (⟨0, [], 0⟩, st)

end Store

section

variable {quantum qset : Nat}

theorem piece_le (p len : Nat) : Store.piece quantum p len ≤ len := Nat.min_le_left _ _

theorem piece_pos (hq : 0 < quantum) (p : Nat) {len : Nat} (hlen : 0 < len) :
    0 < Store.piece quantum p len := by
  have := Nat.mod_lt p hq
  unfold Store.piece
  omega

theorem mod_add_piece_le (hq : 0 < quantum) (p len : Nat) :
    p % quantum + Store.piece quantum p len ≤ quantum := by
  have := Nat.mod_lt p hq
  unfold Store.piece
  omega

/-- A piece lies in one quantum. -/
theorem div_of_lt_piece (hq : 0 < quantum) {p len a : Nat} (hpa : p ≤ a)
    (ha : a < p + Store.piece quantum p len) : a / quantum = p / quantum := by
  have hpiece := mod_add_piece_le hq p len
  have hdiv := Nat.div_add_mod p quantum
  have hlt : a < quantum * (p / quantum) + quantum := by omega
  apply Nat.div_eq_of_lt_le
  · rw [Nat.mul_comm]
    omega
  · rw [Nat.succ_mul, Nat.mul_comm]
    exact hlt

/-- The item and the slot of an offset count the quanta before it. -/
theorem item_slot (p : Nat) : p / (quantum * qset) * qset + p / quantum % qset = p / quantum := by
  rw [← Nat.div_div_eq_div_mul, Nat.mul_comm]
  exact Nat.div_add_mod (p / quantum) qset

theorem item_eq (p : Nat) : p / quantum / qset = p / (quantum * qset) :=
  Nat.div_div_eq_div_mul p quantum qset

end

/-- The outcome of what `device_write` allocates for quantum `k`. The bytes of every quantum that was
there before are as they were; a new quantum holds what its `kmalloc` call found. -/
structure Prepared (env : Kmem) (k : Nat) (st : Store) (ok : Bool) (st' : Store) : Prop where
  quantum : st'.quantum = st.quantum
  qset : st'.qset = st.qset
  size : st'.size = st.size
  block : ∀ j, st'.block j = (st.block j || (ok && j == k))
  byte : ∀ a, st.block (a / st.quantum) = true → st'.byte a = st.byte a
  fresh : ok = true → st.block k = false →
    ∃ n, ∀ a, a / st.quantum = k → st'.byte a = env.old n (a % st.quantum)

theorem Prepared.block_self {env : Kmem} {k : Nat} {st st' : Store}
    (h : Prepared env k st true st') : st'.block k = true := by
  rw [h.block]
  simp

theorem Prepared.block_of {env : Kmem} {k j : Nat} {ok : Bool} {st st' : Store}
    (h : Prepared env k st ok st') (hj : st.block j = true) : st'.block j = true := by
  rw [h.block, hj, Bool.true_or]

namespace Store

/-- A copy that faults has changed the bytes of its piece and nothing else. -/
theorem transfer_fault {buff : List UInt8} {fault : Option Nat} {p : Nat} {st : Store}
    (hfault : copied fault (piece st.quantum p buff.length) < piece st.quantum p buff.length) :
    st.transfer buff fault p = (⟨-eFAULT, [], p⟩,
      st.fill p (received fault (buff.take (piece st.quantum p buff.length)))) :=
  if_pos hfault

theorem transfer_whole {buff : List UInt8} {fault : Option Nat} {p : Nat} {st : Store}
    (hwhole : ¬copied fault (piece st.quantum p buff.length) < piece st.quantum p buff.length) :
    st.transfer buff fault p = (⟨piece st.quantum p buff.length, [],
      (p + piece st.quantum p buff.length : Nat)⟩,
      { st.fill p (buff.take (piece st.quantum p buff.length)) with
        size := max st.size (p + piece st.quantum p buff.length) }) := by
  rw [← received_take (piece_le p buff.length) hwhole]
  exact if_neg hwhole

theorem transfer_ret (buff : List UInt8) (fault : Option Nat) (p : Nat) (st : Store) :
    (st.transfer buff fault p).1.ret = -eFAULT ∨ 0 ≤ (st.transfer buff fault p).1.ret := by
  by_cases hfault : copied fault (piece st.quantum p buff.length) < piece st.quantum p buff.length
  · rw [transfer_fault hfault]
    exact Or.inl rfl
  · rw [transfer_whole hfault]
    exact Or.inr (Int.natCast_nonneg _)

theorem write_noMemory_iff (env : Kmem) (buff : List UInt8) (fault : Option Nat) (p : Nat)
    (st : Store) : (st.write env buff fault p).1.ret = -eNOMEM ↔ (st.prepare env p).1 = false := by
  unfold write
  generalize st.prepare env p = r
  obtain ⟨ok, st'⟩ := r
  cases ok with
  | false => exact iff_of_true rfl rfl
  | true =>
      refine iff_of_false (fun hret => ?_) Bool.noConfusion
      rcases transfer_ret buff fault p st' with hfault | hpos
      · exact absurd (hret.symm.trans hfault) (by decide)
      · simp only [eNOMEM] at hret
        omega

/-- A copy that does not fault moves the whole piece. -/
theorem transfer_none (buff : List UInt8) (p : Nat) (st : Store) :
    st.transfer buff none p = (⟨piece st.quantum p buff.length, [],
      (p + piece st.quantum p buff.length : Nat)⟩,
      { st.fill p (buff.take (piece st.quantum p buff.length)) with
        size := max st.size (p + piece st.quantum p buff.length) }) :=
  transfer_whole (Nat.lt_irrefl (piece st.quantum p buff.length))

/-- A read of an allocated quantum that does not fault returns a whole piece. -/
theorem read_none {st : Store} {p : Nat} (hp : p < st.size)
    (hblock : st.block (p / st.quantum) = true) (len : Nat) :
    st.read len none p = ⟨piece st.quantum p len,
      (List.range (piece st.quantum p len)).map fun i => st.byte (p + i),
      (p + piece st.quantum p len : Nat)⟩ := by
  rw [read, if_neg (by simp [hblock, hp])]
  exact if_neg (Nat.lt_irrefl (piece st.quantum p len))

theorem ensureBlock_prepared (env : Kmem) (k : Nat) (st : Store) :
    Prepared env k st (st.ensureBlock env k).1 (st.ensureBlock env k).2 := by
  unfold ensureBlock
  by_cases hk : st.block k = true
  · rw [if_pos hk]
    refine ⟨rfl, rfl, rfl, fun j => ?_, fun _ _ => rfl, fun _ hnew => absurd hk (by simp [hnew])⟩
    by_cases hj : j = k
    · rw [hj, hk, Bool.true_or]
    · simp [hj]
  · rw [if_neg hk]
    split
    · exact ⟨rfl, rfl, rfl, fun j => by simp, fun _ _ => rfl, by simp⟩
    · refine ⟨rfl, rfl, rfl, fun j => ?_, fun a ha => ?_, fun _ _ => ⟨st.calls, fun a ha => if_pos ha⟩⟩
      · by_cases hj : j = k <;> simp [Function.update, hj]
      · refine if_neg fun h : a / st.quantum = k => hk ?_
        rw [← h]
        exact ha

theorem ensureArray_keeps (env : Kmem) (i : Nat) (st : Store) :
    ∃ calls array, (st.ensureArray env i).2 = { st with calls, array } := by
  unfold ensureArray
  split
  · exact ⟨st.calls, st.array, rfl⟩
  · split <;> exact ⟨_, _, rfl⟩

section

variable {env : Kmem} {p : Nat} {st st₁ st₂ : Store}

theorem prepare_of_follow_fails (hfollow : st.follow env (st.item p) = (false, st₁)) :
    st.prepare env p = (false, st₁) := by
  simp only [prepare, hfollow]

theorem prepare_of_array_fails (hfollow : st.follow env (st.item p) = (true, st₁))
    (harray : st₁.ensureArray env (st.item p) = (false, st₂)) : st.prepare env p = (false, st₂) := by
  simp only [prepare, hfollow, harray]

theorem prepare_of_array (hfollow : st.follow env (st.item p) = (true, st₁))
    (harray : st₁.ensureArray env (st.item p) = (true, st₂)) :
    st.prepare env p = st₂.ensureBlock env (p / st.quantum) := by
  simp only [prepare, hfollow, harray]

end

theorem prepare_spec (env : Kmem) (p : Nat) (st : Store) :
    Prepared env (p / st.quantum) st (st.prepare env p).1 (st.prepare env p).2 := by
  have hkeep : ∀ nodes calls array, Prepared env (p / st.quantum) st false
      { st with nodes, calls, array } := fun _ _ _ =>
    ⟨rfl, rfl, rfl, fun j => by simp, fun _ _ => rfl, by simp⟩
  unfold prepare follow
  generalize grow env (st.item p + 1 - st.nodes) st.nodes st.calls = g
  obtain ⟨ok, nodes, calls⟩ := g
  cases ok with
  | false => exact hkeep nodes calls st.array
  | true =>
      simp only
      obtain ⟨calls₂, array, heq⟩ := ensureArray_keeps env (st.item p) { st with nodes, calls }
      generalize ensureArray env (st.item p) { st with nodes, calls } = r at heq
      obtain ⟨ok, st₂⟩ := r
      obtain rfl : st₂ = _ := heq
      cases ok with
      | false => exact hkeep nodes calls₂ array
      | true =>
          exact { ensureBlock_prepared env (p / st.quantum)
            { st with nodes, calls := calls₂, array } with }

theorem grow_of_never_fails {env : Kmem} (h : ∀ n, env.fails n = false) (missing nodes calls : Nat) :
    (grow env missing nodes calls).1 = true := by
  induction missing generalizing nodes calls with
  | zero => rfl
  | succ missing ih =>
      rw [grow, h calls]
      exact ih (nodes + 1) (calls + 1)

theorem ensureBlock_of_never_fails {env : Kmem} (h : ∀ n, env.fails n = false) (k : Nat)
    (st : Store) : (st.ensureBlock env k).1 = true := by
  rw [ensureBlock, h st.calls]
  split <;> rfl

theorem ensureArray_of_never_fails {env : Kmem} (h : ∀ n, env.fails n = false) (i : Nat)
    (st : Store) : (st.ensureArray env i).1 = true := by
  rw [ensureArray, h st.calls]
  split <;> rfl

theorem prepare_of_never_fails {env : Kmem} (h : ∀ n, env.fails n = false) (p : Nat) (st : Store) :
    (st.prepare env p).1 = true := by
  have hok : (st.follow env (st.item p)).1 = true := grow_of_never_fails h _ _ _
  obtain ⟨st₁, hfollow⟩ : ∃ st₁, st.follow env (st.item p) = (true, st₁) := ⟨_, Prod.ext hok rfl⟩
  have hok₁ := ensureArray_of_never_fails h (st.item p) st₁
  obtain ⟨st₂, harray⟩ : ∃ st₂, st₁.ensureArray env (st.item p) = (true, st₂) := ⟨_, Prod.ext hok₁ rfl⟩
  rw [prepare_of_array hfollow harray]
  exact ensureBlock_of_never_fails h _ _

theorem write_quantum (env : Kmem) (buff : List UInt8) (fault : Option Nat) (p : Nat) (st : Store) :
    (st.write env buff fault p).2.quantum = st.quantum := by
  have hq := (prepare_spec env p st).quantum
  unfold write
  generalize st.prepare env p = r at hq
  obtain ⟨ok, st'⟩ := r
  cases ok with
  | false => exact hq
  | true =>
      simp only [transfer]
      split <;> exact hq

/-- No call changes the size of a quantum. -/
@[simp] theorem step_quantum (env : Kmem) (st : Store) (c : Call) :
    (st.step env c).2.quantum = st.quantum := by
  cases c with
  | deviceOpen flags signal =>
      simp only [step]
      split
      · split <;> rfl
      · rfl
  | deviceRead ppos len signal fault =>
      simp only [step]
      split <;> rfl
  | deviceWrite ppos buff signal fault =>
      simp only [step]
      split
      · rfl
      · exact write_quantum env buff fault ppos st
  | deviceRelease => rfl

end Store

end CharDriver.Chardev
