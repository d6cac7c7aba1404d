import Mathlib.Data.List.TakeWhile
import Medusa.Machine.HeapTrace

/-!
# The memory of a shell command

`launch_command_framebuffer` copies the line, cuts the first word off with `strtok`,
copies and splits the rest, runs the command, and frees its five buffers.  `strtok`
returns a pointer into the copy of the line when something stands behind the word, and
`NULL` when nothing does; only in the second case is the command a block of its own.

The model keeps every allocation and release of a call, in order.  Strings are lists
without their terminator.
-/

namespace Medusa
namespace Shell

open Machine

/-! ## The code -/

/-- `strtok` on a new string: the offset of the token, and the token.  A token that
nothing follows is not returned. -/
def strtok (str delimiters : List (BitVec 8)) : Option (Nat × List (BitVec 8)) :=
  let start := str.dropWhile (· ∈ delimiters)
  let rest := start.dropWhile (· ∉ delimiters)
  if rest = [] then none
  else some (str.length - start.length, start.takeWhile (· ∉ delimiters))

/-- What the rest of the system answers during one call. -/
structure World where
  /-- The string in the block that `kmalloc(0)` returns. -/
  stale : List (BitVec 8)
  /-- Whether `finddir_fs` finds a name in the root of the initial ramdisk. -/
  finddir : List (BitVec 8) → Bool
  /-- The directory the shell is in. -/
  directory : List (BitVec 8)
  /-- The length that `base64` allocates, if it comes to that. -/
  outputLength : Option Nat
  /-- The calls (`true`) and returns (`false`) of the program that `chip8` runs. -/
  stackOps : List Bool
  /-- Whether all else that the command does comes to an end. -/
  returns : Bool

structure Session where
  next : Nat
  trace : List HeapEvent

def Session.kmalloc (s : Session) (size : Nat) : Pointer × Session :=
  (.block s.next 0, ⟨s.next + 1, s.trace ++ [.alloc s.next size]⟩)

def Session.kfree (s : Session) (p : Pointer) : Session :=
  { s with trace := s.trace ++ [.free p] }

/-- `krealloc` of a pointer and a size that are not zero. -/
def Session.krealloc (s : Session) (p : Pointer) (size : Nat) : Pointer × Session :=
  ((s.kmalloc size).1, (s.kmalloc size).2.kfree p)

/-- The loop that cuts `buf` at its spaces; `word` is what has been read of the last
argument. -/
def splitArgs (s : Session) (argv : Pointer) (argc : Nat) (word : List (BitVec 8)) :
    List (BitVec 8) → Pointer × List (List (BitVec 8)) × Session
  | [] => (argv, [word], s)
  | c :: rest =>
    if c = 0x20#8 then
      let grown := s.krealloc argv ((argc + 1) * 4)
      let split := splitArgs grown.2 grown.1 (argc + 1) [] rest
      (split.1, word :: split.2.1, split.2.2)
    else splitArgs s argv argc (word ++ [c]) rest

/-- `argv[0][0] == '\0' || argv[0][0] < 7`, which sets `argc` to zero. -/
def noArguments (argv0 : List (BitVec 8)) : Bool := (argv0.headD 0#8).toInt < 7

/-- The commands that use the heap or do not return; the others are `plain`. -/
inductive Command where
  | ls
  | cat
  | chown
  | base64
  | date
  | chip8
  | reboot
  | plain
deriving DecidableEq, Repr

/-- The comparisons with `command`, in ASCII. -/
def commandOf (text : List (BitVec 8)) : Command :=
  if text = [0x6C#8, 0x73#8] then .ls
  else if text = [0x63#8, 0x61#8, 0x74#8] then .cat
  else if text = [0x63#8, 0x68#8, 0x6F#8, 0x77#8, 0x6E#8] then .chown
  else if text = [0x62#8, 0x61#8, 0x73#8, 0x65#8, 0x36#8, 0x34#8] then .base64
  else if text = [0x64#8, 0x61#8, 0x74#8, 0x65#8] then .date
  else if text = [0x63#8, 0x68#8, 0x69#8, 0x70#8, 0x38#8] then .chip8
  else if text = [0x72#8, 0x65#8, 0x62#8, 0x6F#8, 0x6F#8, 0x74#8] then .reboot
  else .plain

/-- `stack_push` and `stack_pop` of the emulator. -/
def runStack (s : Session) (stack : List Pointer) : List Bool → Session
  | [] => s
  | true :: ops => runStack (s.kmalloc 8).2 ((s.kmalloc 8).1 :: stack) ops
  | false :: ops =>
    match stack with
    | [] => runStack s [] ops
    | temp :: stack => runStack (s.kfree temp) stack ops

/-- The rest of a branch, and `kfree(temp)` at its end. -/
def freeAfter (w : World) (temp : Pointer × Session) : Bool × Session :=
  if w.returns then (true, temp.2.kfree temp.1) else (false, temp.2)

/-- The branch of a command, and whether it returns. -/
def runCommand (w : World) (s : Session) (argv0 : List (BitVec 8)) : Command → Bool × Session
  | .ls =>
    freeAfter w (if noArguments argv0 ∨ w.finddir argv0 then (.literal, s)
      else s.kmalloc (argv0.length + 1))
  | .cat => freeAfter w (s.kmalloc (w.directory.length + argv0.length + 2))
  | .chown =>
    if 0x3B#8 ∈ argv0 then freeAfter w (s.kmalloc (argv0.length + 1)) else (w.returns, s)
  | .base64 =>
    match w.outputLength with
    | none => (w.returns, s)
    | some length => (w.returns, (s.kmalloc length).2)
  | .date => (w.returns, (s.kmalloc 150).2)
  | .chip8 => (false, runStack s [] w.stackOps)
  | .reboot => (false, s)
  | .plain => (w.returns, s)

/-- The buffers of a call when its line has been parsed. -/
structure Parsed where
  lineCliCopy : Pointer
  command : Pointer
  text : List (BitVec 8)
  args : Pointer
  buf : Pointer
  argv : Pointer
  words : List (List (BitVec 8))
  session : Session

/-- From the copy of the line to the text and the pointer of the command. -/
def firstWord (lineCli : List (BitVec 8)) (lineCliCopy : Nat) (s : Session) :
    Pointer × List (BitVec 8) × Session :=
  match strtok lineCli [0x20#8] with
  | some (offset, token) => (.block lineCliCopy offset, token, s)
  | none => ((s.kmalloc lineCli.length).1, lineCli, (s.kmalloc lineCli.length).2)

/-- `args` is empty when the command is the whole line, and then holds what its block
held. -/
def argsText (w : World) (lineCli text : List (BitVec 8)) : List (BitVec 8) :=
  if text.length < lineCli.length then lineCli.drop (text.length + 1) else w.stale

def parse (w : World) (lineCli : List (BitVec 8)) : Parsed :=
  let start : Session := ⟨0, []⟩
  let lineCliCopy := start.kmalloc 300
  let command := firstWord lineCli start.next lineCliCopy.2
  let args := command.2.2.kmalloc (lineCli.length - command.2.1.length)
  let text := argsText w lineCli command.2.1
  let buf := args.2.kmalloc (text.length + 1)
  let argv := buf.2.kmalloc 4
  let split := splitArgs argv.2 argv.1 1 [] text
  ⟨lineCliCopy.1, command.1, command.2.1, args.1, buf.1, split.1, split.2.1, split.2.2⟩

def cleanUp (p : Parsed) (s : Session) : Session :=
  ((((s.kfree p.lineCliCopy).kfree p.command).kfree p.args).kfree p.argv).kfree p.buf

/-- `launch_command_framebuffer`: what one call does to the heap. -/
def launchCommandFramebuffer (w : World) (lineCli : List (BitVec 8)) : List HeapEvent :=
  let p := parse w lineCli
  let ran := runCommand w p.session (p.words.headD []) (commandOf p.text)
  if ran.1 then (cleanUp p ran.2).trace else ran.2.trace

/-! ## The condition -/

def commandText (lineCli : List (BitVec 8)) : List (BitVec 8) :=
  ((strtok lineCli [0x20#8]).map Prod.snd).getD lineCli

/-- The call comes to its frees. -/
def Completes (w : World) (lineCli : List (BitVec 8)) : Prop :=
  w.returns = true ∧ commandOf (commandText lineCli) ≠ .chip8 ∧
    commandOf (commandText lineCli) ≠ .reboot

/-- What the code needs if it comes to its frees: no space stands behind the first
word, and for `ls` the stale argument is a name that is not in the ramdisk. -/
def Tidy (w : World) (lineCli : List (BitVec 8)) : Prop :=
  Completes w lineCli →
    0x20#8 ∉ lineCli.dropWhile (· = 0x20#8) ∧
    (commandOf lineCli = .ls → noArguments (w.stale.takeWhile (· ≠ 0x20#8)) = false ∧
      w.finddir (w.stale.takeWhile (· ≠ 0x20#8)) = false)

/-! ## Sessions -/

/-- The session has been disciplined, and these are its live blocks. -/
structure Live (s : Session) (live : Finset Nat) : Prop where
  replays : replay ∅ s.trace = some live
  lt_next : ∀ id ∈ live, id < s.next

variable {s : Session} {live : Finset Nat} {id : Nat}

theorem Live.next_notMem (h : Live s live) : s.next ∉ live := by
  intro hin
  exact absurd (h.lt_next _ hin) (Nat.lt_irrefl _)

theorem Live.kmalloc (h : Live s live) (size : Nat) :
    Live (s.kmalloc size).2 (insert s.next live) := by
  constructor
  · show replay ∅ (s.trace ++ [.alloc s.next size]) = _
    rw [replay_snoc h.replays, replayEvent, if_neg h.next_notMem]
  · intro id hid
    show id < s.next + 1
    rcases Finset.mem_insert.mp hid with heq | hold
    · omega
    · have hlt := h.lt_next id hold
      omega

theorem Live.kfree (h : Live s live) (id : Nat) (hid : id ∈ live) :
    Live (s.kfree (.block id 0)) (live.erase id) := by
  constructor
  · show replay ∅ (s.trace ++ [.free (.block id 0)]) = _
    rw [replay_snoc h.replays, replayEvent, if_pos hid]
  · intro j hj
    exact h.lt_next j (Finset.mem_of_mem_erase hj)

/-- A pointer that is not one of a live block spoils the session. -/
theorem Live.kfree_stray (h : Live s live) {p : Pointer} (hp : ∀ id ∈ live, p ≠ .block id 0) :
    replay ∅ (s.kfree p).trace = none := by
  show replay ∅ (s.trace ++ [.free p]) = none
  rw [replay_snoc h.replays]
  unfold replayEvent
  split
  · next heq => cases heq
  · next id heq =>
    obtain rfl := HeapEvent.free.inj heq
    exact if_neg fun hin => hp id hin rfl
  · rfl

theorem kfree_none (h : replay ∅ s.trace = none) (p : Pointer) :
    replay ∅ (s.kfree p).trace = none :=
  replay_append_none h

theorem cleanUp_none (h : replay ∅ s.trace = none) (p : Parsed) :
    replay ∅ (cleanUp p s).trace = none := by
  unfold cleanUp
  repeat apply kfree_none
  exact h

theorem Live.krealloc (h : Live s (insert id live)) (hid : id ∉ live) (size : Nat) :
    ∃ id', id' ∉ live ∧ (s.krealloc (.block id 0) size).1 = .block id' 0 ∧
      Live (s.krealloc (.block id 0) size).2 (insert id' live) := by
  have hnext := h.next_notMem
  simp only [Finset.mem_insert, not_or] at hnext
  refine ⟨s.next, hnext.2, rfl, ?_⟩
  have hfreed := (h.kmalloc size).kfree id (by simp)
  rw [Finset.insert_comm, Finset.erase_insert] at hfreed
  · exact hfreed
  · simp only [Finset.mem_insert, not_or]
    exact ⟨fun heq => hnext.1 heq.symm, hid⟩

/-! ## The first part -/

/-- Cutting the arguments moves `argv` about, and its first word ends at the first
space. -/
theorem splitArgs_spec (h : Live s (insert id live)) (hid : id ∉ live) (argc : Nat)
    (word text : List (BitVec 8)) :
    ∃ id', id' ∉ live ∧ (splitArgs s (.block id 0) argc word text).1 = .block id' 0 ∧
      Live (splitArgs s (.block id 0) argc word text).2.2 (insert id' live) ∧
      (splitArgs s (.block id 0) argc word text).2.1.headD [] =
        word ++ text.takeWhile (· ≠ 0x20#8) := by
  induction text generalizing s id argc word with
  | nil => exact ⟨id, hid, rfl, h, by simp [splitArgs]⟩
  | cons c text ih =>
    unfold splitArgs
    by_cases hspace : c = 0x20#8
    · obtain ⟨moved, hmoved, hptr, hlive⟩ := h.krealloc hid ((argc + 1) * 4)
      obtain ⟨id', hid', hargv, hsplit, -⟩ := ih hlive hmoved (argc + 1) []
      rw [if_pos hspace]
      simp only [hptr]
      refine ⟨id', hid', hargv, hsplit, ?_⟩
      simp [hspace]
    · rw [if_neg hspace]
      obtain ⟨id', hid', hargv, hsplit, hword⟩ := ih h hid argc (word ++ [c])
      refine ⟨id', hid', hargv, hsplit, ?_⟩
      rw [hword, List.takeWhile_cons_of_pos (by simpa using hspace), List.append_assoc]
      rfl

theorem strtok_eq_none_iff (lineCli : List (BitVec 8)) :
    strtok lineCli [0x20#8] = none ↔ 0x20#8 ∉ lineCli.dropWhile (· = 0x20#8) := by
  unfold strtok
  simp only [List.mem_singleton]
  rw [ite_eq_left_iff]
  simp only [reduceCtorEq, imp_false, not_not, List.dropWhile_eq_nil_iff, decide_eq_true_eq]
  constructor
  · intro h hin
    exact h _ hin rfl
  · intro h c hc heq
    exact h (heq ▸ hc)

theorem live_start : Live ⟨0, []⟩ ∅ := ⟨rfl, by simp⟩

/-- A line with no space behind its first word: five blocks, and the command is the
line. -/
theorem parse_whole (w : World) {lineCli : List (BitVec 8)}
    (h : strtok lineCli [0x20#8] = none) :
    ∃ a, a ∉ ({3, 2, 1, 0} : Finset Nat) ∧
      Live (parse w lineCli).session (insert a {3, 2, 1, 0}) ∧
      (parse w lineCli).lineCliCopy = .block 0 0 ∧ (parse w lineCli).command = .block 1 0 ∧
      (parse w lineCli).args = .block 2 0 ∧ (parse w lineCli).argv = .block a 0 ∧
      (parse w lineCli).buf = .block 3 0 ∧
      (parse w lineCli).text = lineCli ∧
      (parse w lineCli).words.headD [] = w.stale.takeWhile (· ≠ 0x20#8) := by
  have htext : argsText w lineCli lineCli = w.stale := if_neg (Nat.lt_irrefl _)
  have hblocks : Live _ (insert 4 {3, 2, 1, 0}) :=
    ((((live_start.kmalloc 300).kmalloc lineCli.length).kmalloc
      (lineCli.length - lineCli.length)).kmalloc (w.stale.length + 1)).kmalloc 4
  obtain ⟨a, ha, hargv, hlive, hword⟩ :=
    splitArgs_spec hblocks (by decide) 1 [] w.stale
  refine ⟨a, ha, ?_, ?_⟩
  · simp only [parse, firstWord, h, htext]
    exact hlive
  · simp only [parse, firstWord, h, htext]
    exact ⟨rfl, rfl, rfl, hargv, rfl, trivial, hword⟩

/-- A line with a space behind its first word: four blocks, and the command points
into the first. -/
theorem parse_token (w : World) {lineCli token : List (BitVec 8)} {offset : Nat}
    (h : strtok lineCli [0x20#8] = some (offset, token)) :
    ∃ a, Live (parse w lineCli).session (insert a {2, 1, 0}) ∧
      (parse w lineCli).lineCliCopy = .block 0 0 ∧
      (parse w lineCli).command = .block 0 offset ∧ (parse w lineCli).text = token := by
  have hblocks : Live _ (insert 3 {2, 1, 0}) :=
    (((live_start.kmalloc 300).kmalloc (lineCli.length - token.length)).kmalloc
      ((argsText w lineCli token).length + 1)).kmalloc 4
  obtain ⟨a, -, -, hlive, -⟩ := splitArgs_spec hblocks (by decide) 1 []
    (argsText w lineCli token)
  refine ⟨a, ?_, ?_⟩
  · simp only [parse, firstWord, h]
    exact hlive
  · simp only [parse, firstWord, h]
    exact ⟨rfl, trivial, trivial⟩

/-! ## The commands -/

theorem freeAfter_fst (w : World) (temp : Pointer × Session) :
    (freeAfter w temp).1 = w.returns := by
  unfold freeAfter
  split
  · next hret => exact hret.symm
  · next hret => exact (Bool.eq_false_iff.mpr hret).symm

theorem Live.freeAfter (h : Live s live) (w : World) (size : Nat) :
    ∃ live', Live (freeAfter w (s.kmalloc size)).2 live' ∧ live ⊆ live' := by
  have htaken := h.kmalloc size
  unfold Shell.freeAfter
  split
  · refine ⟨_, htaken.kfree _ (Finset.mem_insert_self _ _), ?_⟩
    rw [Finset.erase_insert h.next_notMem]
  · exact ⟨_, htaken, Finset.subset_insert _ _⟩

/-- The emulator frees nodes of its own stack only. -/
theorem runStack_live (h : Live s live) (ops : List Bool) (stack : List Nat)
    (hstack : ∀ id ∈ stack, id ∈ live) (hnodup : stack.Nodup) :
    ∃ live', Live (runStack s (stack.map fun id => .block id 0) ops) live' := by
  induction ops generalizing s live stack with
  | nil => exact ⟨live, h⟩
  | cons op ops ih =>
    cases op with
    | true =>
      have hnext : s.next ∉ stack := fun hin => h.next_notMem (hstack _ hin)
      apply ih (h.kmalloc 8) (s.next :: stack)
      · intro id hid
        rcases List.mem_cons.mp hid with rfl | hold
        · exact Finset.mem_insert_self _ _
        · exact Finset.mem_insert_of_mem (hstack id hold)
      · exact List.nodup_cons.mpr ⟨hnext, hnodup⟩
    | false =>
      cases stack with
      | nil => exact ih h [] (by simp) List.nodup_nil
      | cons temp stack =>
        have hdistinct := List.nodup_cons.mp hnodup
        apply ih (h.kfree temp (hstack temp List.mem_cons_self)) stack _ hdistinct.2
        intro id hid
        have hne : id ≠ temp := fun heq => hdistinct.1 (heq ▸ hid)
        exact Finset.mem_erase_of_ne_of_mem hne (hstack id (List.mem_cons_of_mem _ hid))

def FreesLiteral (w : World) (argv0 : List (BitVec 8)) : Command → Prop
  | .ls => noArguments argv0 = true ∨ w.finddir argv0 = true
  | _ => False

/-- A branch returns unless it is one of two commands or the rest of the system does
not. -/
theorem runCommand_fst (w : World) (s : Session) (argv0 : List (BitVec 8)) (command : Command) :
    (runCommand w s argv0 command).1 = true ↔
      w.returns = true ∧ command ≠ .chip8 ∧ command ≠ .reboot := by
  cases command with
  | ls => simp [runCommand, freeAfter_fst]
  | cat => simp [runCommand, freeAfter_fst]
  | chown =>
    simp only [runCommand]
    split
    · simp [freeAfter_fst]
    · simp
  | base64 =>
    simp only [runCommand]
    split
    · simp
    · simp
  | date => simp [runCommand]
  | chip8 => simp [runCommand]
  | reboot => simp [runCommand]
  | plain => simp [runCommand]

/-- A branch that frees no literal keeps the blocks of the call. -/
theorem runCommand_live (h : Live s live) (w : World) (argv0 : List (BitVec 8))
    {command : Command} (hliteral : w.returns = true → ¬ FreesLiteral w argv0 command) :
    ∃ live', Live (runCommand w s argv0 command).2 live' ∧
      ((runCommand w s argv0 command).1 = true → live ⊆ live') := by
  cases command with
  | ls =>
    simp only [runCommand]
    split
    · next hfound =>
      have hstuck : ¬ w.returns = true := fun hret => hliteral hret hfound
      refine ⟨live, ?_, fun _ => Finset.Subset.refl _⟩
      rw [freeAfter, if_neg hstuck]
      exact h
    · obtain ⟨live', hlive, hsub⟩ := h.freeAfter w (argv0.length + 1)
      exact ⟨live', hlive, fun _ => hsub⟩
  | cat =>
    obtain ⟨live', hlive, hsub⟩ := h.freeAfter w (w.directory.length + argv0.length + 2)
    exact ⟨live', hlive, fun _ => hsub⟩
  | chown =>
    simp only [runCommand]
    split
    · obtain ⟨live', hlive, hsub⟩ := h.freeAfter w (argv0.length + 1)
      exact ⟨live', hlive, fun _ => hsub⟩
    · exact ⟨live, h, fun _ => Finset.Subset.refl _⟩
  | base64 =>
    simp only [runCommand]
    split
    · exact ⟨live, h, fun _ => Finset.Subset.refl _⟩
    · next length _ => exact ⟨_, h.kmalloc length, fun _ => Finset.subset_insert _ _⟩
  | date => exact ⟨_, h.kmalloc 150, fun _ => Finset.subset_insert _ _⟩
  | chip8 =>
    obtain ⟨live', hlive⟩ := runStack_live h w.stackOps [] (by simp) List.nodup_nil
    refine ⟨live', hlive, ?_⟩
    intro hret
    cases hret
  | reboot => exact ⟨live, h, fun _ => Finset.Subset.refl _⟩
  | plain => exact ⟨live, h, fun _ => Finset.Subset.refl _⟩

/-- A branch that frees a literal spoils the session. -/
theorem runCommand_literal (h : Live s live) {w : World} {argv0 : List (BitVec 8)}
    {command : Command} (hret : w.returns = true) (hliteral : FreesLiteral w argv0 command) :
    replay ∅ (runCommand w s argv0 command).2.trace = none := by
  cases command with
  | ls =>
    have hfound : noArguments argv0 = true ∨ w.finddir argv0 = true := hliteral
    simp only [runCommand]
    rw [if_pos hfound, freeAfter, if_pos hret]
    exact h.kfree_stray (by simp)
  | cat | chown | base64 | date | chip8 | reboot | plain => exact hliteral.elim

/-! ## The whole call -/

theorem cleanUp_live {p : Parsed} {a : Nat} (h : Live s live)
    (hsub : insert a {3, 2, 1, 0} ⊆ live) (ha : a ∉ ({3, 2, 1, 0} : Finset Nat))
    (hcopy : p.lineCliCopy = .block 0 0) (hcommand : p.command = .block 1 0)
    (hargs : p.args = .block 2 0) (hargv : p.argv = .block a 0) (hbuf : p.buf = .block 3 0) :
    ∃ live', Live (cleanUp p s) live' := by
  simp only [Finset.mem_insert, Finset.mem_singleton, not_or] at ha
  have hmem : ∀ id ∈ insert a ({3, 2, 1, 0} : Finset Nat), id ∈ live := fun id hid => hsub hid
  simp only [Finset.mem_insert, Finset.mem_singleton, forall_eq_or_imp, forall_eq] at hmem
  have h₁ := h.kfree 0 hmem.2.2.2.2
  have h₂ := h₁.kfree 1 (by simp [hmem])
  have h₃ := h₂.kfree 2 (by simp [hmem])
  have h₄ := h₃.kfree a (by simp [hmem, ha])
  have h₅ := h₄.kfree 3 (by simp [hmem, Ne.symm ha.1])
  unfold cleanUp
  rw [hcopy, hcommand, hargs, hargv, hbuf]
  exact ⟨_, h₅⟩

/-- A command inside the copy of the line is not a block when its turn comes. -/
theorem cleanUp_stray {p : Parsed} {offset : Nat} (h : Live s live) (hzero : 0 ∈ live)
    (hcopy : p.lineCliCopy = .block 0 0) (hcommand : p.command = .block 0 offset) :
    replay ∅ (cleanUp p s).trace = none := by
  have hstray : replay ∅ ((s.kfree (.block 0 0)).kfree (.block 0 offset)).trace = none := by
    apply (h.kfree 0 hzero).kfree_stray
    intro id hid heq
    obtain ⟨hid', -⟩ := Pointer.block.inj heq
    subst hid'
    exact absurd hid (Finset.notMem_erase 0 live)
  unfold cleanUp
  rw [hcopy, hcommand]
  exact kfree_none (kfree_none (kfree_none hstray _) _) _

theorem Live.disciplined (h : Live s live) : Disciplined s.trace := by
  rw [Disciplined, h.replays]
  rfl

theorem not_disciplined {trace : List HeapEvent} (h : replay ∅ trace = none) :
    ¬ Disciplined trace := by
  rw [Disciplined, h]
  simp

theorem FreesLiteral.eq_ls {w : World} {argv0 : List (BitVec 8)} {command : Command}
    (h : FreesLiteral w argv0 command) : command = .ls := by
  cases command with
  | ls => rfl
  | cat | chown | base64 | date | chip8 | reboot | plain => exact h.elim

theorem freesLiteral_ls_iff (w : World) (argv0 : List (BitVec 8)) :
    ¬ FreesLiteral w argv0 .ls ↔ noArguments argv0 = false ∧ w.finddir argv0 = false := by
  simp [FreesLiteral]

theorem launch_whole (w : World) {lineCli : List (BitVec 8)}
    (h : strtok lineCli [0x20#8] = none) :
    Disciplined (launchCommandFramebuffer w lineCli) ↔
      (w.returns = true →
        ¬ FreesLiteral w (w.stale.takeWhile (· ≠ 0x20#8)) (commandOf lineCli)) := by
  obtain ⟨a, ha, hlive, hcopy, hcommand, hargs, hargv, hbuf, htext, hword⟩ := parse_whole w h
  simp only [launchCommandFramebuffer, htext, hword]
  by_cases hliteral : w.returns = true ∧
      FreesLiteral w (w.stale.takeWhile (· ≠ 0x20#8)) (commandOf lineCli)
  · refine iff_of_false ?_ fun hnot => hnot hliteral.1 hliteral.2
    have hnone := runCommand_literal hlive hliteral.1 hliteral.2
    apply not_disciplined
    split
    · exact cleanUp_none hnone _
    · exact hnone
  · have hnot := not_and.mp hliteral
    refine iff_of_true ?_ hnot
    obtain ⟨live', hran, hsub⟩ := runCommand_live hlive w _ hnot
    split
    · next hret =>
      obtain ⟨live'', hdone⟩ := cleanUp_live hran (hsub hret) ha hcopy hcommand hargs hargv hbuf
      exact hdone.disciplined
    · exact hran.disciplined

/-- A line with a space behind its first word goes wrong if it comes to its frees. -/
theorem launch_token (w : World) {lineCli token : List (BitVec 8)} {offset : Nat}
    (h : strtok lineCli [0x20#8] = some (offset, token)) :
    Disciplined (launchCommandFramebuffer w lineCli) ↔
      ¬ (w.returns = true ∧ commandOf token ≠ .chip8 ∧ commandOf token ≠ .reboot) := by
  obtain ⟨a, hlive, hcopy, hcommand, htext⟩ := parse_token w h
  rw [← runCommand_fst w (parse w lineCli).session ((parse w lineCli).words.headD [])]
  simp only [launchCommandFramebuffer, htext]
  by_cases hliteral : w.returns = true ∧
      FreesLiteral w ((parse w lineCli).words.headD []) (commandOf token)
  · have hnone := runCommand_literal hlive hliteral.1 hliteral.2
    have hret := (runCommand_fst w (parse w lineCli).session
      ((parse w lineCli).words.headD []) (commandOf token)).mpr
      ⟨hliteral.1, by simp [hliteral.2.eq_ls], by simp [hliteral.2.eq_ls]⟩
    rw [if_pos hret]
    exact iff_of_false (not_disciplined (cleanUp_none hnone _)) (not_not_intro hret)
  · obtain ⟨live', hran, hsub⟩ := runCommand_live hlive w _ (not_and.mp hliteral)
    split
    · next hret =>
      have hzero : 0 ∈ live' := hsub hret (by simp)
      exact iff_of_false (not_disciplined (cleanUp_stray hran hzero hcopy hcommand))
        (not_not_intro hret)
    · next hret => exact iff_of_true hran.disciplined hret

theorem launch_disciplined_iff (w : World) (lineCli : List (BitVec 8)) :
    Disciplined (launchCommandFramebuffer w lineCli) ↔ Tidy w lineCli := by
  unfold Tidy Completes commandText
  cases h : strtok lineCli [0x20#8] with
  | none =>
    have hspace := (strtok_eq_none_iff lineCli).mp h
    rw [launch_whole w h]
    simp only [Option.map_none, Option.getD_none]
    constructor
    · intro hfree hcompletes
      refine ⟨hspace, ?_⟩
      intro hls
      rw [← freesLiteral_ls_iff, ← hls]
      exact hfree hcompletes.1
    · intro htidy hret hliteral
      have hls := hliteral.eq_ls
      have hboth := (htidy ⟨hret, by simp [hls], by simp [hls]⟩).2 hls
      rw [hls] at hliteral
      exact (freesLiteral_ls_iff _ _).mpr hboth hliteral
  | some found =>
    obtain ⟨offset, token⟩ := found
    have hspace : 0x20#8 ∈ lineCli.dropWhile (· = 0x20#8) := by
      by_contra hnot
      rw [(strtok_eq_none_iff lineCli).mpr hnot] at h
      cases h
    rw [launch_token w h]
    simp only [Option.map_some, Option.getD_some]
    constructor
    · intro hnot hcompletes
      exact absurd hcompletes hnot
    · intro htidy hcompletes
      exact (htidy hcompletes).1 hspace

/-- **A command keeps the discipline exactly when its line is one word.**  For every
line and every answer of the rest of the system, the call frees only pointers to live
blocks of its own, and never gives back more than it took, if and only if it does not
come to its frees, or no space stands behind the first word and `ls` is not about to
free the empty string. -/
theorem launch_keeps_discipline_iff (w : World) (lineCli : List (BitVec 8)) :
    (Disciplined (launchCommandFramebuffer w lineCli) ∧ ∀ (capacity : Pointer → Nat) (n : Nat),
      0 ≤ netUse capacity ((launchCommandFramebuffer w lineCli).take n)) ↔ Tidy w lineCli := by
  rw [← launch_disciplined_iff]
  constructor
  · intro h
    exact h.1
  · intro h
    exact ⟨h, h.netUse_nonneg⟩

/-- A system in which nothing is found and everything returns. -/
def quietWorld : World where
  stale := []
  finddir _ := false
  directory := []
  outputLength := none
  stackOps := []
  returns := true

/-- `echo hi`: the copy of the line is freed twice, the second time as the command. -/
theorem launch_echo_frees_twice : ¬ (
    Disciplined (launchCommandFramebuffer quietWorld
      [0x65#8, 0x63#8, 0x68#8, 0x6F#8, 0x20#8, 0x68#8, 0x69#8]) ∧
    ∀ (capacity : Pointer → Nat) (n : Nat), 0 ≤ netUse capacity ((launchCommandFramebuffer quietWorld
      [0x65#8, 0x63#8, 0x68#8, 0x6F#8, 0x20#8, 0x68#8, 0x69#8]).take n)) := by
  intro h
  exact absurd h.1 (by decide)

end Shell
end Medusa
