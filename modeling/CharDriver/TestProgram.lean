import CharDriver.RwFileOverlap
import Mathlib.Data.List.TakeWhile

/-! The user program `test.c` on the driver of `rw_file-ops.c`. A process reads a line, writes it to
the device, reads the device and prints what it got. Any number of processes run, interleaved at
their system calls. Each prints its own line exactly as long as no process opens the device while
another has it open and no line is longer than the buffer; an overlap is never made good. -/

namespace CharDriver.TestProgram

open Base

/-- The ways a run can leave defined behaviour: in the driver, by a `scanf` that stores beyond
`write_buf`, or by an array without a NUL where a string is expected. -/
inductive Stop where
  | driver (e : RwFile.Oops)
  | overflow
  | unterminated
  deriving DecidableEq, Repr

def bufSize : Nat := 1024

def text (s : String) : List UInt8 := s.toList.map fun c => UInt8.ofNat c.toNat

def isSpace (c : UInt8) : Bool := c == 32 || (9 ≤ c && c ≤ 13)

/-- What `%[^\t\n]` matches after the blanks of the format have skipped white space. -/
def scanLine (input : List UInt8) : List UInt8 :=
  (input.dropWhile isSpace).takeWhile fun c => c != 9 && c != 10

/-- `scanf("  %[^\t\n]s", write_buf)`. An empty match fails and stores nothing; the `s` behind the
conversion stores nothing either. -/
def scanf (input buf : List UInt8) : Except Stop (List UInt8) :=
  let line := scanLine input
  if line = [] then .ok buf
  else if line.length < bufSize then .ok (line ++ 0 :: buf.drop (line.length + 1))
  else .error .overflow

/-- `strlen` and `%s`: the bytes before the first NUL. -/
def string (buf : List UInt8) : Except Stop (List UInt8) :=
  match cString buf with
  | some str => .ok str
  | none => .error .unterminated

/-- Where a process is in `main`. -/
inductive Pc where
  | start
  | opened
  | entered
  | written
  | received
  | done
  /-- after `return 0` because `open` failed -/
  | noDevice
  deriving DecidableEq, Repr

def Pc.isOpen : Pc → Bool
  | .opened | .entered | .written | .received => true
  | _ => false

/-- What is left of the standard input, the two arrays and what was printed. -/
structure Process where
  pc : Pc
  input : List UInt8
  writeBuf : List UInt8
  readBuf : List UInt8
  out : List UInt8
  deriving DecidableEq, Repr

/-- The arrays are static, so they start with zeros. -/
def Process.new (input : List UInt8) : Process :=
  ⟨.start, input, List.replicate bufSize 0, List.replicate bufSize 0, []⟩

def Process.printed (p : Process) (pc : Pc) (bytes : List UInt8) : Process :=
  { p with pc, out := p.out ++ bytes }

def call (k : RwFile.State) (c : RwFile.Call) : Except Stop (RwFile.State × RwFile.Reply) :=
  match RwFile.step k c with
  | .ok r => .ok r
  | .error e => .error (.driver e)

/-- One step of `main`: what is printed, and the call it ends with. `pid` stands for the open file, and
`answer` is the block `kmalloc` returns to an open. The results of `write` and `read` are not looked
at. -/
def mainStep (pid : Nat) (answer : Option Nat) (k : RwFile.State) (p : Process) :
    Except Stop (RwFile.State × Process) :=
  match p.pc with
  | .start => do
      let banner := text "\n*******WWW.core_embeddedLinux.com*******\n"
      let (k, r) ← call k (.deviceOpen pid answer)
      if r.ret < 0 then return (k, p.printed .noDevice (banner ++ text "Cannot open device file...\n"))
      else return (k, p.printed .opened banner)
  | .opened => do
      let writeBuf ← scanf p.input p.writeBuf
      return (k, { p with writeBuf }.printed .entered (text "Enter the string  :"))
  | .entered => do
      let str ← string p.writeBuf
      let (k, _) ← call k (.transfer pid (.deviceWrite (p.writeBuf.take (str.length + 1)) none))
      return (k, p.printed .written (text "Data Writing ..."))
  | .written => do
      let (k, r) ← call k (.transfer pid (.deviceRead bufSize none))
      let readBuf := r.bytes ++ p.readBuf.drop r.bytes.length
      return (k, { p with readBuf }.printed .received (text "Done!\n" ++ text "Data Reading ..."))
  | .received => do
      let str ← string p.readBuf
      let (k, _) ← call k (.deviceRelease pid)
      return (k, p.printed .done (text "Done!\n\n" ++ (text "Data = " ++ str ++ text "\n\n")))
  | .done => return (k, p)
  | .noDevice => return (k, p)

structure System where
  kernel : RwFile.State
  procs : Nat → Process

structure Move where
  pid : Nat
  answer : Option Nat
  deriving DecidableEq, Repr

def step (s : System) (m : Move) : Except Stop (System × Unit) := do
  let (kernel, p) ← mainStep m.pid m.answer s.kernel (s.procs m.pid)
  return (⟨kernel, Function.update s.procs m.pid p⟩, ())

/-- The driver was just loaded, over any old contents, and each process has its own input. -/
def initial (mem : Nat → Nat → UInt8) (stdin : Nat → List UInt8) : System :=
  ⟨RwFile.initial mem, fun pid => Process.new (stdin pid)⟩

/-- The allocator hands out no live block. -/
def Truthful (s : System) (m : Move) : Prop :=
  (s.procs m.pid).pc = .start → ∀ b ∈ m.answer, s.kernel.kernel.slab.live b = false

/-- A process opens the device while no other has it open, and its line fits into `write_buf`. -/
def Proper (s : System) (m : Move) : Prop :=
  ((s.procs m.pid).pc = .start → s.kernel.files = ∅) ∧
    ((s.procs m.pid).pc = .opened → (scanLine (s.procs m.pid).input).length < bufSize)

instance (s : System) : DecidablePred (Truthful s) := fun _ => inferInstanceAs (Decidable (_ → _))

instance (s : System) : DecidablePred (Proper s) := fun _ => inferInstanceAs (Decidable (_ ∧ _))

/-- The line as C strings see it. -/
def line (input : List UInt8) : List UInt8 := (scanLine input).takeWhile (· ≠ 0)

/-- Everything printed by a process that could open the device. -/
def transcript (input : List UInt8) : List UInt8 :=
  text "\n*******WWW.core_embeddedLinux.com*******\n" ++ text "Enter the string  :" ++
    text "Data Writing ..." ++ (text "Done!\n" ++ text "Data Reading ...") ++
    (text "Done!\n\n" ++ (text "Data = " ++ line input ++ text "\n\n"))

def refusal : List UInt8 :=
  text "\n*******WWW.core_embeddedLinux.com*******\n" ++ text "Cannot open device file...\n"

/-- Every process that is done printed its own line. -/
def Faithful (stdin : Nat → List UInt8) (s : System) : Prop :=
  ∀ pid, ((s.procs pid).pc = .done → (s.procs pid).out = transcript (stdin pid)) ∧
    ((s.procs pid).pc = .noDevice → (s.procs pid).out = refusal)

theorem zero_notMem_line (input : List UInt8) : 0 ∉ line input := fun h => by
  simpa using List.mem_takeWhile_imp h

theorem length_line_le (input : List UInt8) : (line input).length ≤ (scanLine input).length :=
  (List.takeWhile_prefix _).length_le

/-- An array that begins with the line and a NUL holds the line. -/
theorem string_of_prefix {input buf : List UInt8} (h : line input ++ [0] <+: buf) :
    string buf = .ok (line input) := by
  rw [string, cString_of_prefix (zero_notMem_line input) h]

theorem take_of_prefix {str buf : List UInt8} (h : str ++ [0] <+: buf) :
    buf.take (str.length + 1) = str ++ [0] := by
  simpa using (List.prefix_iff_eq_take.mp h).symm

/-- A line that fits is stored with a NUL behind it, and an empty match leaves the zeros. -/
theorem scanf_spec {input : List UInt8} (hfits : (scanLine input).length < bufSize) :
    ∃ buf, scanf input (List.replicate bufSize 0) = .ok buf ∧ line input ++ [0] <+: buf := by
  unfold scanf
  by_cases hempty : scanLine input = []
  · refine ⟨_, if_pos hempty, ?_⟩
    rw [line, hempty]
    exact ⟨List.replicate 1023 0, rfl⟩
  · refine ⟨_, (if_neg hempty).trans (if_pos hfits), ?_⟩
    exact takeWhile_concat_prefix (scanLine input) _

theorem scanf_fits {input buf buf' : List UInt8} (h : scanf input buf = .ok buf') :
    (scanLine input).length < bufSize := by
  unfold scanf at h
  by_cases hempty : scanLine input = []
  · rw [hempty]
    decide
  · rw [if_neg hempty] at h
    split at h
    · assumption
    · cases h

/-- What is known of a process from where it is in `main`, while no other has the device open. -/
def Process.Ok (k : RwFile.State) (input : List UInt8) (p : Process) : Prop :=
  let banner := text "\n*******WWW.core_embeddedLinux.com*******\n"
  let entered := banner ++ text "Enter the string  :"
  let written := entered ++ text "Data Writing ..."
  match p.pc with
  | .start => p = Process.new input
  | .opened => p = (Process.new input).printed .opened banner
  | .entered => p.out = entered ∧ line input ++ [0] <+: p.writeBuf ∧ (line input).length < bufSize
  | .written => p.out = written ∧ ∀ b, k.kernel.kernelBuffer = some b →
      line input ++ [0] <+: (List.range bufSize).map (k.kernel.slab.mem b)
  | .received => p.out = written ++ (text "Done!\n" ++ text "Data Reading ...") ∧
      line input ++ [0] <+: p.readBuf
  | .done => p.out = transcript input
  | .noDevice => p.out = refusal

theorem Process.Ok.of_closed {k : RwFile.State} {input : List UInt8} {p : Process}
    (h : p.Ok k input) (hclosed : p.pc.isOpen = false) (k' : RwFile.State) : p.Ok k' input := by
  unfold Process.Ok at h ⊢
  cases hpc : p.pc with
  | start | done | noDevice =>
      rw [hpc] at h
      exact h
  | opened | entered | written | received =>
      rw [hpc] at hclosed
      exact absurd hclosed (by decide)

/-- At most one process has the device open, and the buffer is its own. -/
structure Inv (stdin : Nat → List UInt8) (s : System) : Prop where
  owned : RwFile.Owned s.kernel ∧ s.kernel.files.card ≤ 1
  files : ∀ pid, pid ∈ s.kernel.files ↔ (s.procs pid).pc.isOpen = true
  input : ∀ pid, (s.procs pid).input = stdin pid
  procs : ∀ pid, (s.procs pid).Ok s.kernel (stdin pid)

theorem inv_initial (mem : Nat → Nat → UInt8) (stdin : Nat → List UInt8) :
    Inv stdin (initial mem stdin) where
  owned := ⟨RwFile.owned_initial mem, Nat.zero_le _⟩
  files pid := by simp [initial, RwFile.initial, Process.new, Pc.isOpen]
  input _ := rfl
  procs _ := rfl

section

variable {stdin : Nat → List UInt8} {s : System} {m : Move}

theorem owned_call {k k' : RwFile.State} {c : RwFile.Call} {r : RwFile.Reply}
    (hk : RwFile.Owned k ∧ k.files.card ≤ 1) (hc : RwFile.Enabled k c) (halone : RwFile.OpensAlone k c)
    (hstep : RwFile.step k c = .ok (k', r)) : RwFile.Owned k' ∧ k'.files.card ≤ 1 := by
  obtain ⟨k₁, r₁, hstep₁, hk₁⟩ := RwFile.owned_step k c hk ⟨hc, halone⟩
  obtain ⟨rfl, -⟩ := Prod.mk.inj (Except.ok.inj (hstep₁.symm.trans hstep))
  exact hk₁

/-- Where a process has the device open, or no process has, the others do not. -/
theorem Inv.others (hs : Inv stdin s) {pid : Nat}
    (h : s.kernel.files = ∅ ∨ (s.procs pid).pc.isOpen = true) {other : Nat} (hne : other ≠ pid) :
    (s.procs other).pc.isOpen = false := by
  rw [← Bool.not_eq_true, ← hs.files]
  intro hother
  rcases h with hempty | hopen
  · rw [hempty] at hother
    exact absurd hother (Finset.notMem_empty other)
  · exact hne (Finset.card_le_one.mp hs.owned.2 other hother pid ((hs.files pid).mpr hopen))

/-- A step of `main` that leaves the driver in order and its own process where it should be. -/
theorem Inv.goes (hs : Inv stdin s) {k : RwFile.State} {p : Process}
    (hmain : mainStep m.pid m.answer s.kernel (s.procs m.pid) = .ok (k, p))
    (hothers : ∀ other ≠ m.pid, (s.procs other).pc.isOpen = false)
    (howned : RwFile.Owned k ∧ k.files.card ≤ 1)
    (hfiles : k.files = if p.pc.isOpen then {m.pid} else ∅)
    (hinput : p.input = stdin m.pid) (hp : p.Ok k (stdin m.pid)) :
    ∃ s', step s m = .ok (s', ()) ∧ Inv stdin s' := by
  refine ⟨⟨k, Function.update s.procs m.pid p⟩, by rw [step, hmain]; rfl, howned, fun other => ?_,
    fun other => ?_, fun other => ?_⟩ <;> by_cases hne : other = m.pid
  · subst hne
    simp only [hfiles, Function.update_self]
    split <;> simp_all
  · simp only [hfiles, Function.update_of_ne hne, hothers other hne]
    split <;> simp [hne]
  · subst hne
    simpa using hinput
  · simpa [Function.update_of_ne hne] using hs.input other
  · subst hne
    simpa using hp
  · simpa [Function.update_of_ne hne] using (hs.procs other).of_closed (hothers other hne) k

theorem Inv.files_eq (hs : Inv stdin s) {pid : Nat} (hopen : (s.procs pid).pc.isOpen = true) :
    s.kernel.files = {pid} :=
  Finset.eq_singleton_iff_unique_mem.mpr ⟨(hs.files pid).mpr hopen, fun other hother =>
    Finset.card_le_one.mp hs.owned.2 other hother pid ((hs.files pid).mpr hopen)⟩

theorem call_of_step {k k' : RwFile.State} {c : RwFile.Call} {r : RwFile.Reply}
    (h : RwFile.step k c = .ok (k', r)) : call k c = .ok (k', r) := by
  rw [call, h]

theorem Inv.start (hs : Inv stdin s) (hm : Truthful s m) (hproper : Proper s m)
    (hpc : (s.procs m.pid).pc = .start) : ∃ s', step s m = .ok (s', ()) ∧ Inv stdin s' := by
  have hempty := hproper.1 hpc
  have hothers : ∀ other ≠ m.pid, (s.procs other).pc.isOpen = false :=
    fun _ => hs.others (Or.inl hempty)
  have hc : RwFile.Enabled s.kernel (.deviceOpen m.pid m.answer) := ⟨by simp [hempty], hm hpc⟩
  have hp := hs.procs m.pid
  unfold Process.Ok at hp
  rw [hpc] at hp
  cases hanswer : m.answer with
  | none =>
      rw [hanswer] at hc
      have hcall : RwFile.step s.kernel (.deviceOpen m.pid none) =
        .ok (⟨⟨s.kernel.kernel.slab, none⟩, s.kernel.files⟩, ⟨-1, [], 0, 0⟩) := rfl
      have hmain : mainStep m.pid m.answer s.kernel (s.procs m.pid) =
          .ok (⟨⟨s.kernel.kernel.slab, none⟩, s.kernel.files⟩,
            (Process.new (stdin m.pid)).printed .noDevice refusal) := by
        simp only [mainStep, hp, Process.new, hanswer, call_of_step hcall, ok_bind]
        rfl
      exact hs.goes hmain hothers (owned_call hs.owned hc hempty hcall) hempty rfl rfl
  | some b =>
      rw [hanswer] at hc
      have hcall : RwFile.step s.kernel (.deviceOpen m.pid (some b)) =
        .ok (⟨⟨s.kernel.kernel.slab.setLive b true, some b⟩, insert m.pid s.kernel.files⟩,
          ⟨0, [], 0, 0⟩) := rfl
      have hmain : mainStep m.pid m.answer s.kernel (s.procs m.pid) =
          .ok (⟨⟨s.kernel.kernel.slab.setLive b true, some b⟩, insert m.pid s.kernel.files⟩,
            (Process.new (stdin m.pid)).printed .opened
              (text "\n*******WWW.core_embeddedLinux.com*******\n")) := by
        simp only [mainStep, hp, Process.new, hanswer, call_of_step hcall, ok_bind]
        rfl
      refine hs.goes hmain hothers (owned_call hs.owned hc hempty hcall) ?_ rfl rfl
      simp only [hempty]
      rfl

theorem Inv.opened (hs : Inv stdin s) (hproper : Proper s m)
    (hpc : (s.procs m.pid).pc = .opened) : ∃ s', step s m = .ok (s', ()) ∧ Inv stdin s' := by
  have hopen : (s.procs m.pid).pc.isOpen = true := by rw [hpc]; rfl
  have hfits := hproper.2 hpc
  rw [hs.input] at hfits
  obtain ⟨buf, hscan, hbuf⟩ := scanf_spec hfits
  have hp := hs.procs m.pid
  unfold Process.Ok at hp
  rw [hpc] at hp
  have hmain : mainStep m.pid m.answer s.kernel (s.procs m.pid) = .ok (s.kernel,
      { s.procs m.pid with writeBuf := buf }.printed .entered (text "Enter the string  :")) := by
    simp only [mainStep, hpc]
    rw [hp]
    simp only [Process.printed, Process.new, hscan, ok_bind, pure_eq_ok]
  have hlt := Nat.lt_of_le_of_lt (length_line_le (stdin m.pid)) hfits
  refine hs.goes hmain (fun _ => hs.others (Or.inr hopen)) hs.owned (hs.files_eq hopen)
    (hs.input m.pid) ⟨?_, hbuf, hlt⟩
  rw [hp]
  rfl

theorem Inv.transfer (hs : Inv stdin s) (hopen : (s.procs m.pid).pc.isOpen = true)
    (op : RwFile.Op) : ∃ b k, s.kernel.kernel.kernelBuffer = some b ∧
      call s.kernel (.transfer m.pid op) = .ok (k, op.reply (s.kernel.kernel.slab.mem b)) ∧
      (RwFile.Owned k ∧ k.files.card ≤ 1) ∧ k.files = {m.pid} ∧
      k.kernel.kernelBuffer = some b ∧
      k.kernel.slab.mem b = op.contents (s.kernel.kernel.slab.mem b) := by
  have hfile : RwFile.Enabled s.kernel (.transfer m.pid op) := (hs.files m.pid).mpr hopen
  obtain ⟨b, hbuffer, hlive⟩ := hs.owned.1.usable ⟨m.pid, hfile⟩
  have hcall := RwFile.step_transfer m.pid op hbuffer hlive
  exact ⟨b, _, hbuffer, call_of_step hcall, owned_call hs.owned hfile trivial hcall,
    hs.files_eq hopen, hbuffer, Function.update_self ..⟩

theorem Inv.entered (hs : Inv stdin s) (hpc : (s.procs m.pid).pc = .entered) :
    ∃ s', step s m = .ok (s', ()) ∧ Inv stdin s' := by
  have hopen : (s.procs m.pid).pc.isOpen = true := by rw [hpc]; rfl
  have hp := hs.procs m.pid
  unfold Process.Ok at hp
  rw [hpc] at hp
  obtain ⟨hout, hbuf, hlt⟩ := hp
  obtain ⟨b, k, -, hcall, howned, hfiles, hbuffer, hmem⟩ := hs.transfer hopen
    (.deviceWrite ((s.procs m.pid).writeBuf.take ((line (stdin m.pid)).length + 1)) none)
  have hmain : mainStep m.pid m.answer s.kernel (s.procs m.pid) =
      .ok (k, (s.procs m.pid).printed .written (text "Data Writing ...")) := by
    simp only [mainStep, hpc, string_of_prefix hbuf, ok_bind, hcall, pure_eq_ok]
  have hstored : line (stdin m.pid) ++ [0] <+: (List.range bufSize).map (k.kernel.slab.mem b) := by
    rw [hmem, RwFile.Op.contents, received_none, take_of_prefix hbuf]
    apply prefix_map_range_overlay
    rw [List.length_append, List.length_singleton]
    exact hlt
  refine hs.goes hmain (fun _ => hs.others (Or.inr hopen)) howned hfiles (hs.input m.pid)
    ⟨?_, fun b' hb' => ?_⟩
  · show (s.procs m.pid).out ++ _ = _
    rw [hout]
  · obtain rfl : b = b' := Option.some.inj (hbuffer.symm.trans hb')
    exact hstored

theorem Inv.written (hs : Inv stdin s) (hpc : (s.procs m.pid).pc = .written) :
    ∃ s', step s m = .ok (s', ()) ∧ Inv stdin s' := by
  have hopen : (s.procs m.pid).pc.isOpen = true := by rw [hpc]; rfl
  have hp := hs.procs m.pid
  unfold Process.Ok at hp
  rw [hpc] at hp
  obtain ⟨hout, hbuf⟩ := hp
  obtain ⟨b, k, hbuffer, hcall, howned, hfiles, -, -⟩ := hs.transfer hopen (.deviceRead bufSize none)
  generalize hreply : (RwFile.Op.deviceRead bufSize none).reply (s.kernel.kernel.slab.mem b) = r at hcall
  have hread : line (stdin m.pid) ++ [0] <+: r.bytes := by
    have hsize : RwFile.memSize = bufSize := rfl
    simpa only [← hreply, RwFile.Op.reply, copied_none, hsize] using hbuf b hbuffer
  have hmain : mainStep m.pid m.answer s.kernel (s.procs m.pid) = .ok (k,
      { s.procs m.pid with readBuf := r.bytes ++ (s.procs m.pid).readBuf.drop r.bytes.length }.printed
        .received (text "Done!\n" ++ text "Data Reading ...")) := by
    simp only [mainStep, hpc, hcall, ok_bind, pure_eq_ok]
  refine hs.goes hmain (fun _ => hs.others (Or.inr hopen)) howned hfiles (hs.input m.pid)
    ⟨?_, hread.trans (List.prefix_append _ _)⟩
  show (s.procs m.pid).out ++ _ = _
  rw [hout]

theorem Inv.received (hs : Inv stdin s) (hpc : (s.procs m.pid).pc = .received) :
    ∃ s', step s m = .ok (s', ()) ∧ Inv stdin s' := by
  have hopen : (s.procs m.pid).pc.isOpen = true := by rw [hpc]; rfl
  have hfile : RwFile.Enabled s.kernel (.deviceRelease m.pid) := (hs.files m.pid).mpr hopen
  obtain ⟨b, hbuffer, hlive⟩ := hs.owned.1.usable ⟨m.pid, hfile⟩
  have hp := hs.procs m.pid
  unfold Process.Ok at hp
  rw [hpc] at hp
  obtain ⟨hout, hbuf⟩ := hp
  have hcall := RwFile.step_release m.pid hbuffer hlive
  have howned := owned_call hs.owned hfile trivial hcall
  have hfiles : s.kernel.files.erase m.pid = ∅ := by rw [hs.files_eq hopen, Finset.erase_singleton]
  generalize hk : (⟨⟨s.kernel.kernel.slab.setLive b false, s.kernel.kernel.kernelBuffer⟩,
    s.kernel.files.erase m.pid⟩ : RwFile.State) = k at hcall howned
  have hmain : mainStep m.pid m.answer s.kernel (s.procs m.pid) = .ok (k,
      (s.procs m.pid).printed .done (text "Done!\n\n" ++
        (text "Data = " ++ line (stdin m.pid) ++ text "\n\n"))) := by
    simp only [mainStep, hpc, string_of_prefix hbuf, call_of_step hcall, ok_bind, pure_eq_ok]
  refine hs.goes hmain (fun _ => hs.others (Or.inr hopen)) howned ?_ (hs.input m.pid) ?_
  · rw [← hk]
    exact hfiles
  · show (s.procs m.pid).out ++ _ = _
    rw [hout]
    rfl

theorem Inv.step (hs : Inv stdin s) (hm : Truthful s m ∧ Proper s m) :
    ∃ s', TestProgram.step s m = .ok (s', ()) ∧ Inv stdin s' := by
  have hstay (hmain : mainStep m.pid m.answer s.kernel (s.procs m.pid) =
      .ok (s.kernel, s.procs m.pid)) : ∃ s', TestProgram.step s m = .ok (s', ()) ∧ Inv stdin s' := by
    refine ⟨_, by rw [TestProgram.step, hmain]; rfl, ?_⟩
    rwa [Function.update_eq_self]
  cases hpc : (s.procs m.pid).pc with
  | start => exact hs.start hm.1 hm.2 hpc
  | opened => exact hs.opened hm.2 hpc
  | entered => exact hs.entered hpc
  | written => exact hs.written hpc
  | received => exact hs.received hpc
  | done => exact hstay (by simp only [mainStep, hpc, pure_eq_ok])
  | noDevice => exact hstay (by simp only [mainStep, hpc, pure_eq_ok])

theorem Inv.faithful (hs : Inv stdin s) : Faithful stdin s := by
  intro pid
  have hp := hs.procs pid
  unfold Process.Ok at hp
  constructor <;> intro hpc <;> rwa [hpc] at hp

end

theorem step_of_call {k k' : RwFile.State} {c : RwFile.Call} {r : RwFile.Reply}
    (h : call k c = .ok (k', r)) : RwFile.step k c = .ok (k', r) := by
  unfold call at h
  split at h
  · rename_i x hx
    cases h
    exact hx
  · cases h

/-- What a step of `main` can do to the driver. -/
inductive Effect (pid : Nat) (answer : Option Nat) (k k' : RwFile.State) (p p' : Process) : Prop where
  | stays (hk : k' = k) (hpc : p.pc ≠ .start) (hopen : p'.pc.isOpen = p.pc.isOpen)
      (hfits : p.pc = .opened → (scanLine p.input).length < bufSize)
  | opens (r : RwFile.Reply) (hcall : RwFile.step k (.deviceOpen pid answer) = .ok (k', r))
      (hpc : p.pc = .start) (hopen : p'.pc.isOpen = answer.isSome)
  | transfers (op : RwFile.Op) (r : RwFile.Reply)
      (hcall : RwFile.step k (.transfer pid op) = .ok (k', r)) (hpc : p.pc = .entered ∨ p.pc = .written)
      (hopen : p'.pc.isOpen = true)
  | releases (r : RwFile.Reply) (hcall : RwFile.step k (.deviceRelease pid) = .ok (k', r))
      (hpc : p.pc = .received) (hopen : p'.pc.isOpen = false)

theorem effect_of_main {pid : Nat} {answer : Option Nat} {k k' : RwFile.State} {p p' : Process}
    (h : mainStep pid answer k p = .ok (k', p')) : Effect pid answer k k' p p' := by
  unfold mainStep at h
  cases hpc : p.pc with
  | start =>
      rw [hpc] at h
      obtain ⟨⟨k₁, r⟩, hcall, h⟩ := bind_eq_ok h
      have hstep := step_of_call hcall
      cases answer with
      | none =>
          cases hstep
          cases h
          exact .opens _ rfl hpc rfl
      | some b =>
          cases hstep
          cases h
          exact .opens _ rfl hpc rfl
  | opened =>
      rw [hpc] at h
      obtain ⟨buf, hscan, h⟩ := bind_eq_ok h
      cases h
      exact .stays rfl (by simp [hpc]) (by rw [hpc]; rfl) fun _ => scanf_fits hscan
  | entered =>
      rw [hpc] at h
      obtain ⟨str, -, h⟩ := bind_eq_ok h
      obtain ⟨⟨k₁, r⟩, hcall, h⟩ := bind_eq_ok h
      cases h
      exact .transfers _ r (step_of_call hcall) (Or.inl hpc) rfl
  | written =>
      rw [hpc] at h
      obtain ⟨⟨k₁, r⟩, hcall, h⟩ := bind_eq_ok h
      cases h
      exact .transfers _ r (step_of_call hcall) (Or.inr hpc) rfl
  | received =>
      rw [hpc] at h
      obtain ⟨str, -, h⟩ := bind_eq_ok h
      obtain ⟨⟨k₁, r⟩, hcall, h⟩ := bind_eq_ok h
      cases h
      exact .releases r (step_of_call hcall) hpc rfl
  | done =>
      rw [hpc] at h
      cases h
      exact .stays rfl (by simp [hpc]) rfl fun hopened => by simp [hpc] at hopened
  | noDevice =>
      rw [hpc] at h
      cases h
      exact .stays rfl (by simp [hpc]) rfl fun hopened => by simp [hpc] at hopened

/-- The open files of the driver are the processes that have the device open, and each has a block. -/
structure Counted (s : System) : Prop where
  files : ∀ pid, pid ∈ s.kernel.files ↔ (s.procs pid).pc.isOpen = true
  covered : RwFile.Covered s.kernel

section

variable {s s' : System} {m : Move}

theorem effect_of_step (hstep : step s m = .ok (s', ())) : ∃ p, s'.procs = Function.update s.procs m.pid p ∧
    Effect m.pid m.answer s.kernel s'.kernel (s.procs m.pid) p := by
  obtain ⟨⟨k, p⟩, hmain, heq⟩ := bind_eq_ok hstep
  cases heq
  exact ⟨p, rfl, effect_of_main hmain⟩

theorem Counted.files_step (hs : Counted s) {p : Process}
    (hprocs : s'.procs = Function.update s.procs m.pid p)
    (hself : m.pid ∈ s'.kernel.files ↔ p.pc.isOpen = true)
    (hothers : ∀ pid ≠ m.pid, pid ∈ s'.kernel.files ↔ pid ∈ s.kernel.files) (pid : Nat) :
    pid ∈ s'.kernel.files ↔ (s'.procs pid).pc.isOpen = true := by
  rw [hprocs]
  by_cases hne : pid = m.pid
  · rw [hne, Function.update_self, hself]
  · rw [Function.update_of_ne hne, hothers pid hne, hs.files]

/-- A step that goes through either leaves the driver as it is or makes a call that may be made. -/
theorem Counted.call (hs : Counted s) (hm : Truthful s m) (hstep : step s m = .ok (s', ())) :
    Counted s' ∧ (s'.kernel = s.kernel ∨ ∃ c r, RwFile.Enabled s.kernel c ∧
      RwFile.step s.kernel c = .ok (s'.kernel, r)) ∧
      ((∀ b, ¬RwFile.Lost s'.kernel b) → Proper s m) := by
  obtain ⟨p, hprocs, heffect⟩ := effect_of_step hstep
  cases heffect with
  | stays hk hpc hopen hfits =>
      refine ⟨⟨hs.files_step hprocs ?_ ?_, hk ▸ hs.covered⟩, Or.inl hk, fun _ =>
        ⟨fun h => absurd h hpc, hfits⟩⟩
      · rw [hk, hs.files, hopen]
      · exact fun pid _ => by rw [hk]
  | opens r hcall hpc hopen =>
      have hc : RwFile.Enabled s.kernel (.deviceOpen m.pid m.answer) :=
        ⟨fun h => by simp [hs.files, hpc, Pc.isOpen] at h, hm hpc⟩
      have hfiles := RwFile.open_files hcall
      refine ⟨⟨hs.files_step hprocs ?_ ?_, hs.covered.step hc hcall⟩, Or.inr ⟨_, r, hc, hcall⟩,
        fun hfine => ⟨fun _ => ?_, fun h => by simp [hpc] at h⟩⟩
      · rw [hfiles, hopen]
        split
        · simp [*]
        · simp [*, hc.1]
      · intro pid hne
        rw [hfiles]
        split <;> simp [hne]
      · by_contra hoverlap
        obtain ⟨b, hb⟩ := RwFile.lost_of_overlap hs.covered hc hcall hoverlap
        exact hfine b hb
  | transfers op r hcall hpc hopen =>
      have hopened : (s.procs m.pid).pc.isOpen = true := by
        rcases hpc with hpc | hpc <;> rw [hpc] <;> rfl
      have hc : RwFile.Enabled s.kernel (.transfer m.pid op) := (hs.files m.pid).mpr hopened
      obtain ⟨hfiles, -, -⟩ := RwFile.transfer_keeps hcall
      refine ⟨⟨hs.files_step hprocs ?_ ?_, hs.covered.step hc hcall⟩, Or.inr ⟨_, r, hc, hcall⟩,
        fun _ => ⟨fun h => ?_, fun h => ?_⟩⟩
      · rw [hfiles, hopen, hs.files, hopened]
      · exact fun pid _ => by rw [hfiles]
      · rcases hpc with hpc | hpc <;> simp [hpc] at h
      · rcases hpc with hpc | hpc <;> simp [hpc] at h
  | releases r hcall hpc hopen =>
      have hopened : (s.procs m.pid).pc.isOpen = true := by rw [hpc]; rfl
      have hc : RwFile.Enabled s.kernel (.deviceRelease m.pid) := (hs.files m.pid).mpr hopened
      obtain ⟨hfiles, -, -⟩ := RwFile.release_cases hcall
      refine ⟨⟨hs.files_step hprocs ?_ ?_, hs.covered.step hc hcall⟩, Or.inr ⟨_, r, hc, hcall⟩,
        fun _ => ⟨fun h => ?_, fun h => ?_⟩⟩
      · rw [hfiles, hopen]
        simp
      · intro pid hne
        rw [hfiles]
        simp [hne]
      · simp [hpc] at h
      · simp [hpc] at h

end

/-- The run goes through, in the end no block is lost, and every process that is done printed its own
line. -/
def Works (mem : Nat → Nat → UInt8) (stdin : Nat → List UInt8) (moves : List Move) : Prop :=
  ∃ s os, runSteps step (initial mem stdin) moves = .ok (s, os) ∧ (¬∃ b, RwFile.Lost s.kernel b) ∧
    Faithful stdin s

/-- Any number of processes, in any order of their steps, work exactly when no process opens the
device while another has it open and every line read fits. -/
theorem works_iff (mem : Nat → Nat → UInt8) (stdin : Nat → List UInt8) {moves : List Move}
    (h : Admissible step Truthful (initial mem stdin) moves) :
    Works mem stdin moves ↔ Admissible step Proper (initial mem stdin) moves := by
  constructor
  · rintro ⟨s, os, hrun, hnone, -⟩
    have hstart : Counted (initial mem stdin) :=
      ⟨(inv_initial mem stdin).files, RwFile.covered_initial mem⟩
    refine (Admissible.of_persists Counted (fun s => ∃ b, RwFile.Lost s.kernel b)
      (fun s m s' _ hs hm hstep => (hs.call hm hstep).1)
      (fun s m s' _ hs hm hstep ⟨b, hb⟩ => ?_) (fun s m s' _ hs hm hstep hfine => ?_) hstart h
      hrun hnone).1
    · rcases (hs.call hm hstep).2.1 with hk | ⟨c, r, hc, hcall⟩
      · exact ⟨b, hk ▸ hb⟩
      · exact ⟨b, hb.step hc hcall⟩
    · exact (hs.call hm hstep).2.2 fun b hb => hfine ⟨b, hb⟩
  · intro hproper
    obtain ⟨s, os, hrun, hs⟩ := runSteps_invariant (Inv stdin)
      (fun s m hs hm => by
        obtain ⟨s', hstep, hs'⟩ := hs.step hm
        exact ⟨s', (), hstep, hs'⟩) (inv_initial mem stdin) (h.and hproper)
    exact ⟨s, os, hrun, fun ⟨b, hlive, hbuffer⟩ => hbuffer (hs.owned.1.held b hlive).1, hs.faithful⟩

/-- Five steps of one process, then five of another, which gets the block of the first. -/
def oneByOne : List Move := List.replicate 5 ⟨0, some 3⟩ ++ List.replicate 5 ⟨1, some 3⟩

/-- The second line is shorter than the first, and a tab ends it. -/
theorem works_oneByOne : Works (fun _ _ => 7)
    (fun pid => if pid = 0 then [32, 104, 101, 108, 108, 111, 10] else [104, 105, 9, 104]) oneByOne :=
  (works_iff _ _ (by decide +kernel)).mpr (by decide +kernel)

end CharDriver.TestProgram
