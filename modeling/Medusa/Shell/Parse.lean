import Medusa.Heap.Realloc
import Medusa.Libc.Strtok

/-!
# The command parser

The first half of `launch_command_framebuffer` on the memory of the heap: the copy of the
line, the first word cut off with `strtok`, the block with the rest, its duplicate, and the
array that grows by one pointer at each space.

A line with one word asks for an empty block and reads what an earlier owner left in it.
From the second argument on the array is grown by `krealloc`, whose copy can run past the
new block.  So with two words, and only then, the outcome is one of the line alone.
-/

namespace Medusa
namespace Shell
namespace Parse

open Machine Kernel Libc Heap Libc.Strtok
open UserStack (StrAt strlen strlen_eq strdup)

/-! ## The code -/

/-- Where the kernel image has `line_cli` and the literal `" "`: in front of the heap. -/
structure Image where
  lineCli : Nat
  space : Nat
  lineCli_pos : 0 < lineCli
  space_pos : 0 < space
  lineCli_end : lineCli + 300 ≤ heapBegin
  space_end : space + 2 ≤ heapBegin
  apart : lineCli + 300 ≤ space ∨ space + 2 ≤ lineCli

/-- `while (*src)`, and the terminator. -/
def strcpyLoop (m : Mem) (dst src : Nat) : Nat → Except Stop Mem
  | 0 => .error .fuel
  | fuel + 1 =>
    if m src = 0#8 then .ok (Function.update m dst 0#8)
    else strcpyLoop (Function.update m dst (m src)) (wrap (dst + 1)) (wrap (src + 1)) fuel

def strcpy (m : Mem) (dst src : Nat) : Except Stop Mem :=
  if dst ≠ 0 ∧ src ≠ 0 ∧ src ≠ dst then strcpyLoop m dst src (2 ^ 32) else .ok m

/-- `line_cli_copy`.  `sizeof` is that of the pointer. -/
def copyLine (im : Image) (h : State) : Except Stop (Nat × State) := do
  let (lineCliCopy, h) ← kmalloc h 300
  let m ← strcpy (memset h.mem lineCliCopy 0#8 4) lineCliCopy im.lineCli
  return (lineCliCopy, { h with mem := m })

/-- `command`.  `strtok` returns `NULL` for a word that nothing follows. -/
def takeCommand (im : Image) (nextStart lineCliCopy : Nat) (h : State) :
    Except Stop (Nat × State) := do
  let (command, m, _) ← Strtok.strtok h.mem nextStart lineCliCopy im.space
  if command = 0 then
    let len ← strlen m lineCliCopy
    let (command, h) ← kmalloc { h with mem := m } len
    let m ← strcpy h.mem command lineCliCopy
    return (command, { h with mem := m })
  else return (command, { h with mem := m })

/-- One round of the loop that fills `args`; `first` is where it started. -/
def copyRound (lineCli args first : Nat) (m : Mem) (i : Nat) : Mem :=
  if m (wrap (lineCli + i)) ≠ 0#8 then
    Function.update m (wrap (args + (i - first))) (m (wrap (lineCli + i)))
  else m

/-- The loop that fills `args`. -/
def copyArgs (m : Mem) (lineCli args first last : Nat) : Mem :=
  (List.range' first (last - first)).foldl (copyRound lineCli args first) m

/-- `args`.  Neither length changes while it is filled. -/
def takeArgs (im : Image) (command : Nat) (h : State) : Except Stop (Nat × State) := do
  let lineLen ← strlen h.mem im.lineCli
  let commandLen ← strlen h.mem command
  let (args, h) ← kmalloc h (wsub lineLen commandLen)
  let m := memset h.mem args 0#8 (wsub lineLen commandLen)
  return (args, { h with mem := copyArgs m im.lineCli args (commandLen + 1) lineLen })

/-- `while ((delim = strchr(argv[argc - 1], ' ')))`. -/
def splitLoop : Nat → Nat → Nat → State → Except Stop (Nat × Nat × State)
  | 0, _, _, _ => .error .fuel
  | fuel + 1, argv, argc, h => do
    let delim ← strchr h.mem (read32 h.mem (wrap (argv + 4 * (argc - 1)))) 0x20#8
    if delim = 0 then return (argv, argc, h)
    else
      let (argv, h) ← krealloc h argv (wrap ((argc + 1) * 4))
      let m := write32 h.mem (wrap (argv + 4 * argc)) (wrap (delim + 1))
      splitLoop fuel argv (argc + 1) { h with mem := Function.update m delim 0#8 }

/-- What the rest of the function goes by. -/
structure Parsed where
  command : Nat
  argc : Nat
  argv : Nat
  heap : State

/-- `if (argv[0][0] == '\0' || argv[0][0] < 7)`. -/
def finish (command : Nat) (r : Nat × Nat × State) : Parsed :=
  let (argv, argc, h) := r
  let c := h.mem (read32 h.mem argv)
  { command := command, argc := if c = 0#8 ∨ c.toInt < 7 then 0 else argc, argv := argv, heap := h }

def takeArgv (command args : Nat) (h : State) : Except Stop Parsed := do
  let (buf, h) ← strdup h args
  let (argv, h) ← calloc h 1 4
  let r ← splitLoop (2 ^ 32) argv 1 { h with mem := write32 h.mem argv buf }
  return finish command r

/-- `launch_command_framebuffer` up to the comparisons with `command`; `nextStart` is what
`strtok` was left with. -/
def parse (im : Image) (nextStart : Nat) (h : State) : Except Stop Parsed := do
  let (lineCliCopy, h) ← copyLine im h
  let (command, h) ← takeCommand im nextStart lineCliCopy h
  let (args, h) ← takeArgs im command h
  takeArgv command args h

/-! ## What the parser is for -/

/-- A word of a line. -/
structure Word where
  bytes : List (BitVec 8)
  nonempty : bytes ≠ []
  noNul : 0#8 ∉ bytes
  noSpace : 0x20#8 ∉ bytes

/-- Words, each with a space in front. -/
def spaced : List Word → List (BitVec 8)
  | [] => []
  | w :: ws => 0x20#8 :: (w.bytes ++ spaced ws)

/-- A line of words with single spaces between them. -/
structure Line where
  first : Word
  args : List Word
  short : (first.bytes ++ spaced args).length < 300

def Line.bytes (line : Line) : List (BitVec 8) := line.first.bytes ++ spaced line.args

/-- The line has been typed. -/
structure Typed (im : Image) (line : Line) (m : Mem) : Prop where
  line : StrAt m im.lineCli line.bytes
  space : StrAt m im.space [0x20#8]

/-- The command is the first word and the arguments are the others. -/
structure Right (line : Line) (r : Parsed) : Prop where
  command : StrAt r.heap.mem r.command line.first.bytes
  argc : r.argc = line.args.length
  argv : ∀ i w, line.args[i]? = some w →
    StrAt r.heap.mem (read32 r.heap.mem (r.argv + 4 * i)) w.bytes

/-- On every sound heap, whatever its blocks and its bytes, the parser gets the line right,
or the kernel runs out of memory. -/
def Parses (im : Image) (line : Line) : Prop :=
  ∀ blocks nextStart h, Rep h blocks → Typed im line h.mem →
    parse im nextStart h = .error .abort ∨ ∃ r, parse im nextStart h = .ok r ∧ Right line r

/-! ## Lines -/

theorem spaced_noNul (ws : List Word) : 0#8 ∉ spaced ws := by
  induction ws with
  | nil => exact List.not_mem_nil
  | cons w ws ih =>
    rw [spaced, List.mem_cons, List.mem_append]
    rintro (hspace | hword | hrest)
    · exact absurd hspace (by decide)
    · exact w.noNul hword
    · exact ih hrest

theorem noNul_append_spaced (w : Word) (ws : List Word) : 0#8 ∉ w.bytes ++ spaced ws := by
  rw [List.mem_append]
  exact fun h => h.elim w.noNul (spaced_noNul ws)

theorem length_le_spaced (ws : List Word) : 2 * ws.length ≤ (spaced ws).length := by
  induction ws with
  | nil => exact Nat.le_refl 0
  | cons w ws ih =>
    have hw := List.length_pos_of_ne_nil w.nonempty
    rw [spaced, List.length_cons, List.length_cons, List.length_append]
    omega

theorem Line.args_lt (line : Line) : line.args.length < 150 := by
  have hshort := line.short
  have hargs := length_le_spaced line.args
  rw [List.length_append] at hshort
  omega

namespace Typed

variable {im : Image} {line : Line} {m m' : Mem}

theorem str (h : Typed im line m) : Str m im.lineCli line.bytes where
  held := h.line
  noNul := noNul_append_spaced line.first line.args
  pos := im.lineCli_pos
  fits := by
    have hbegin : heapBegin = 0xC0400000 := rfl
    have hend := im.lineCli_end
    have hshort : line.bytes.length < 300 := line.short
    omega

theorem delimiters (h : Typed im line m) : Str m im.space [0x20#8] where
  held := h.space
  noNul := by decide
  pos := im.space_pos
  fits := by
    have hbegin : heapBegin = 0xC0400000 := rfl
    have hend := im.space_end
    rw [List.length_singleton]
    omega

/-- The line stays while nothing in front of the heap is written. -/
theorem congr (h : Typed im line m) (hm : ∀ x < heapBegin, m' x = m x) : Typed im line m' := by
  have hlineEnd := im.lineCli_end
  have hspaceEnd := im.space_end
  have hshort : line.bytes.length < 300 := line.short
  constructor
  · exact h.line.congr fun x _ hx => hm x (by omega)
  · refine h.space.congr fun x _ hx => hm x ?_
    rw [List.length_singleton] at hx
    omega

end Typed

/-! ## Copies -/

theorem strcpyLoop_eq {m : Mem} {dst src fuel : Nat} {bytes : List (BitVec 8)}
    (h : Str m src bytes) (hfuel : bytes.length < fuel) (hdst : dst + bytes.length < 2 ^ 32)
    (hapart : dst + bytes.length < src ∨ src + bytes.length < dst) :
    ∃ m', strcpyLoop m dst src fuel = .ok m' ∧ StrAt m' dst bytes ∧
      ∀ x, x < dst ∨ dst + bytes.length < x → m' x = m x := by
  induction bytes generalizing m dst src fuel with
  | nil =>
    obtain ⟨fuel, rfl⟩ := Nat.exists_eq_add_of_lt hfuel
    refine ⟨Function.update m dst 0#8, ?_, ?_, fun x hx => Function.update_of_ne ?_ _ _⟩
    · rw [strcpyLoop, if_pos h.nil]
    · intro i hi
      obtain rfl : i = 0 := Nat.le_zero.mp hi
      exact Function.update_self ..
    · rw [List.length_nil] at hx
      omega
  | cons c bytes ih =>
    obtain ⟨fuel, rfl⟩ := Nat.exists_eq_add_of_lt hfuel
    have hfits := h.fits
    rw [List.length_cons] at hapart hdst hfits
    have htail : Str (Function.update m dst c) (src + 1) bytes := h.tail.update (by omega)
    obtain ⟨m', hrun, hcopied, hout⟩ := @ih _ (dst + 1) (src + 1) ((c :: bytes).length + fuel) htail
      (by rw [List.length_cons]; omega) (by omega) (by omega)
    refine ⟨m', ?_, ?_, ?_⟩
    · rw [strcpyLoop, h.head.1, if_neg h.head.2, wrap_of_lt (by omega), wrap_of_lt (by omega)]
      exact hrun
    · intro i hi
      cases i with
      | zero =>
        rw [Nat.add_zero, hout dst (.inl (Nat.lt_succ_self dst))]
        exact Function.update_self ..
      | succ i =>
        rw [show dst + (i + 1) = dst + 1 + i by omega]
        exact hcopied i (Nat.le_of_succ_le_succ hi)
    · intro x hx
      rw [List.length_cons] at hx
      rw [hout x (by omega)]
      exact Function.update_of_ne (by omega) _ _

theorem strcpy_eq {m : Mem} {dst src : Nat} {bytes : List (BitVec 8)} (h : Str m src bytes)
    (hpos : 0 < dst) (hdst : dst + bytes.length < 2 ^ 32)
    (hapart : dst + bytes.length < src ∨ src + bytes.length < dst) :
    ∃ m', strcpy m dst src = .ok m' ∧ StrAt m' dst bytes ∧
      ∀ x, x < dst ∨ dst + bytes.length < x → m' x = m x := by
  have hfits := h.fits
  have hsrc := h.pos
  rw [strcpy, if_pos ⟨by omega, by omega, by omega⟩]
  exact strcpyLoop_eq h (by omega) hdst hapart

/-- The loop copies a part of the line without a terminator. -/
theorem copyArgs_eq {m : Mem} {lineCli args first : Nat} (count : Nat)
    (hne : ∀ i < count, m (lineCli + (first + i)) ≠ 0#8)
    (hline : lineCli + (first + count) ≤ args) (hargs : args + count ≤ 2 ^ 32) :
    (∀ i < count, copyArgs m lineCli args first (first + count) (args + i) =
        m (lineCli + (first + i))) ∧
      ∀ x, x < args ∨ args + count ≤ x →
        copyArgs m lineCli args first (first + count) x = m x := by
  rw [copyArgs, Nat.add_sub_cancel_left]
  induction count with
  | zero => exact ⟨fun i hi => absurd hi (Nat.not_lt_zero i), fun _ _ => rfl⟩
  | succ count ih =>
    obtain ⟨hcopied, hout⟩ := ih (fun i hi => hne i (by omega)) (by omega) (by omega)
    rw [List.range'_concat, List.foldl_append, Nat.one_mul, List.foldl_cons, List.foldl_nil]
    generalize (List.range' first count).foldl (copyRound lineCli args first) m = m'
      at hcopied hout
    have hread : m' (lineCli + (first + count)) = m (lineCli + (first + count)) :=
      hout _ (by omega)
    rw [copyRound, wrap_of_lt (by omega), hread, if_pos (hne count (Nat.lt_succ_self count)),
      Nat.add_sub_cancel_left, wrap_of_lt (by omega)]
    constructor
    · intro i hi
      rcases Nat.lt_succ_iff_lt_or_eq.mp hi with hlt | rfl
      · rw [Function.update_of_ne (by omega)]
        exact hcopied i hlt
      · exact Function.update_self ..
    · intro x hx
      rw [Function.update_of_ne (by omega)]
      exact hout x (by omega)

/-! ## The steps up to the arguments -/

/-- What the block list answers to `kmalloc`. -/
def serve (blocks : List Block) (size : Nat) : Option (Block × List Block) :=
  allocate blocks (alignTo size 8) 4

section Steps

variable {im : Image} {line : Line} {h : State} {live : List Heap.Live} {blocks : List Block}

theorem typed_of_keeps {m m' : Mem} (htyped : Typed im line m)
    (hkeeps : ∀ lo hi, Held live lo hi → Agree m m' lo hi) : Typed im line m' :=
  htyped.congr fun x hx => hkeeps x (x + 1) (.inl hx) x (Nat.le_refl x) (Nat.lt_succ_self x)

/-- The block of the copied line. -/
def copyOf (p : Nat) : Heap.Live := { ptr := p, align := 4, size := 300 }

theorem copyLine_spec (hinv : Invariant { heap := h, live := [] } blocks)
    (htyped : Typed im line h.mem) :
    (serve blocks 300 = none ∧ copyLine im h = .error .abort) ∨
    ∃ b blocks' h', serve blocks 300 = some (b, blocks') ∧ copyLine im h = .ok (b.data, h') ∧
      Filled h [] b blocks' 300 h' ∧ StrAt h'.mem b.data line.bytes := by
  have hlineEnd := im.lineCli_end
  have hshort : line.bytes.length < 300 := line.short
  rcases hinv.serve aligns_four (show 300 ≤ heapSize by decide) with
    ⟨hnone, habort⟩ | ⟨b, blocks', h₁, halloc, hrun, hgot⟩
  · refine .inl ⟨hnone, ?_⟩
    rw [copyLine, kmalloc, habort]
    rfl
  · have hfilled := hgot.filled hgot.room
    obtain ⟨hlow, hhigh, -⟩ := Client.within ⟨blocks', hfilled.invariant⟩ List.mem_cons_self
    have hlimit : heapLimit = 0xC2200000 := rfl
    dsimp only at hlow hhigh
    have hcleared : ∀ x, x < b.data ∨ b.data + 300 ≤ x → memset h₁.mem b.data 0#8 4 x = h₁.mem x :=
      fun x hx => memset_outside (by omega)
    have hready := ((typed_of_keeps htyped hfilled.keeps).congr
      fun x hx => hcleared x (by omega)).str
    obtain ⟨m, hcopy, hstr, hout⟩ := strcpy_eq hready (by omega : 0 < b.data) (by omega)
      (by omega)
    refine .inr ⟨b, blocks', _, halloc, ?_, hfilled.store fun x hx => ?_, hstr⟩
    · rw [copyLine, kmalloc, hrun, ok_bind]
      simp only [hcopy, ok_bind]
      rfl
    · exact (hout x (by omega)).trans (hcleared x hx)

/-- A word that something follows stays where it is and gets its terminator. -/
theorem takeCommand_cut {p : Nat} {w : Word} {ws : List Word} (hargs : line.args = w :: ws)
    (hinv : Invariant { heap := h, live := [copyOf p] } blocks) (htyped : Typed im line h.mem)
    (hstr : StrAt h.mem p line.bytes) (nextStart : Nat) :
    ∃ h', takeCommand im nextStart p h = .ok (p, h') ∧
      Invariant { heap := h', live := [copyOf p] } blocks ∧ Typed im line h'.mem ∧
      StrAt h'.mem p line.first.bytes ∧ ∀ x, x < p ∨ p + 300 ≤ x → h'.mem x = h.mem x := by
  have hspaceEnd := im.space_end
  have hshort : line.bytes.length < 300 := line.short
  have hlimit : heapLimit = 0xC2200000 := rfl
  obtain ⟨hlow, hhigh, -⟩ := Client.within ⟨blocks, hinv⟩ List.mem_cons_self
  dsimp only [copyOf] at hlow hhigh
  have hbytes : line.bytes = [] ++ (line.first.bytes ++ 0x20#8 :: (w.bytes ++ spaced ws)) := by
    rw [Line.bytes, hargs, spaced, List.nil_append]
  have hready : Ready h.mem im.space [0x20#8] p line.bytes :=
    ⟨⟨hstr, noNul_append_spaced line.first line.args, by omega, by omega⟩, htyped.delimiters,
      .inr (by rw [List.length_singleton]; omega)⟩
  have hlen := congrArg List.length hbytes
  simp only [List.nil_append, List.length_append, List.length_cons] at hlen
  rw [hbytes] at hready
  have hscan := scan_ended hready (fun _ hmem => absurd hmem List.not_mem_nil) line.first.nonempty
    (fun c hc => decide_eq_false fun hmem => line.first.noSpace (by
      rw [← List.mem_singleton.mp hmem]
      exact hc)) (by decide)
  rw [List.length_nil, Nat.add_zero] at hscan
  have hstrtok : Strtok.strtok h.mem nextStart p im.space =
      .ok (p, Function.update h.mem (p + line.first.bytes.length) 0#8,
        p + line.first.bytes.length + 1) := by
    rw [Strtok.strtok, if_pos (by omega)]
    exact hscan
  refine ⟨{ h with mem := Function.update h.mem (p + line.first.bytes.length) 0#8 }, ?_, ?_, ?_, ?_,
    fun x hx => Function.update_of_ne (by omega) _ _⟩
  · rw [takeCommand, hstrtok, ok_bind]
    simp only [if_neg (show p ≠ 0 by omega)]
    rfl
  · refine hinv.store fun x => ?_
    by_cases hx : x = p + line.first.bytes.length
    · refine .inr ((held_object List.mem_cons_self).mono ?_ ?_)
      · dsimp only [copyOf]
        omega
      · dsimp only [copyOf]
        omega
    · exact .inl (Function.update_of_ne hx _ _)
  · exact htyped.congr fun x hx => Function.update_of_ne (by omega) _ _
  · have htext : Str h.mem p (line.first.bytes ++ 0x20#8 :: (w.bytes ++ spaced ws)) := hready.text
    exact htext.cut

/-- Without a space `command` is a copy of the line. -/
theorem takeCommand_whole {p : Nat} {b : Block} {blocks' : List Block} (hargs : line.args = [])
    (hinv : Invariant { heap := h, live := [copyOf p] } blocks) (htyped : Typed im line h.mem)
    (hstr : StrAt h.mem p line.bytes) (nextStart : Nat)
    (halloc : serve blocks line.bytes.length = some (b, blocks'))
    (hroom : line.bytes.length < b.cap) :
    ∃ h', takeCommand im nextStart p h = .ok (b.data, h') ∧
      Filled h [copyOf p] b blocks' (line.bytes.length + 1) h' ∧
      StrAt h'.mem b.data line.bytes := by
  have hspaceEnd := im.space_end
  have hshort : line.bytes.length < 300 := line.short
  have hlimit : heapLimit = 0xC2200000 := rfl
  have hsizes : heapSize = 0x1E00000 := rfl
  obtain ⟨hlow, hhigh, -⟩ := Client.within ⟨blocks, hinv⟩ List.mem_cons_self
  dsimp only [copyOf] at hlow hhigh
  have hnul := noNul_append_spaced line.first line.args
  have hbytes : line.bytes = [] ++ line.first.bytes := by
    rw [Line.bytes, hargs, spaced, List.append_nil, List.nil_append]
  have hready : Ready h.mem im.space [0x20#8] p line.bytes :=
    ⟨⟨hstr, hnul, by omega, by omega⟩, htyped.delimiters,
      .inr (by rw [List.length_singleton]; omega)⟩
  rw [hbytes] at hready
  have hscan := scan_last hready (fun _ hmem => absurd hmem List.not_mem_nil)
    (fun c hc => decide_eq_false fun hmem => line.first.noSpace (by
      rw [← List.mem_singleton.mp hmem]
      exact hc))
  have hstrtok : Strtok.strtok h.mem nextStart p im.space = scan h.mem p im.space := by
    rw [Strtok.strtok, if_pos (by omega)]
  have hlen : strlen h.mem p = .ok line.bytes.length := strlen_eq hstr hnul (by omega)
  obtain ⟨h₁, hrun, hgot⟩ :=
    of_served (hinv.serve aligns_four (show line.bytes.length ≤ heapSize by omega)) halloc
  have hfilled := hgot.filled hroom
  have hheld : Held [copyOf p] p (p + line.bytes.length + 1) :=
    (held_object List.mem_cons_self).mono (Nat.le_refl _) (by dsimp only [copyOf]; omega)
  have hapart := hheld.apart ⟨_, hfilled.invariant⟩
  have hwithin := Client.within ⟨_, hfilled.invariant⟩ List.mem_cons_self
  dsimp only at hapart hwithin
  have hline : Str h₁.mem p line.bytes :=
    ⟨hstr.congr (hfilled.keeps _ _ hheld), hnul, by omega, by omega⟩
  obtain ⟨m, hcopy, hcopied, hout⟩ := strcpy_eq hline (by omega : 0 < b.data) (by omega)
    (by omega)
  refine ⟨{ h₁ with mem := m }, ?_, hfilled.store fun x hx => hout x (by omega), hcopied⟩
  simp only [takeCommand, hstrtok, hscan, ok_bind, if_pos, hlen]
  rw [kmalloc]
  simp only [hrun, ok_bind, hcopy]
  rfl

/-- Without arguments `args` is an empty block, as it is. -/
theorem takeArgs_none {command : Nat} {b : Block} {blocks' : List Block}
    (hinv : Invariant { heap := h, live := live } blocks) (htyped : Typed im line h.mem)
    (hstr : StrAt h.mem command line.bytes) (hend : command + line.bytes.length < 2 ^ 32)
    (halloc : serve blocks 0 = some (b, blocks')) :
    ∃ h', takeArgs im command h = .ok (b.data, h') ∧
      Obtained h live blocks 4 0 b blocks' h' := by
  have hnul := noNul_append_spaced line.first line.args
  have hlineLen : strlen h.mem im.lineCli = .ok line.bytes.length :=
    strlen_eq htyped.line hnul htyped.str.fits
  have hcommandLen : strlen h.mem command = .ok line.bytes.length := strlen_eq hstr hnul hend
  obtain ⟨h₁, hrun, hgot⟩ := of_served (hinv.serve aligns_four (Nat.zero_le heapSize)) halloc
  refine ⟨h₁, ?_, hgot⟩
  have hshort : line.bytes.length < 300 := line.short
  rw [takeArgs, hlineLen, ok_bind, hcommandLen, ok_bind, wsub_of_le (Nat.le_refl _) (by omega),
    Nat.sub_self, kmalloc, hrun, ok_bind]
  have hcopy : copyArgs (memset h₁.mem b.data 0#8 0) im.lineCli b.data (line.bytes.length + 1)
      line.bytes.length = h₁.mem := by
    rw [copyArgs, Nat.sub_eq_zero_of_le (Nat.le_succ _), List.range'_zero, List.foldl_nil,
      memset_zero]
  simp only [hcopy]
  rfl

/-- `args` gets everything behind the first space. -/
theorem takeArgs_rest {p : Nat} {w : Word} {ws : List Word} (hargs : line.args = w :: ws)
    (hinv : Invariant { heap := h, live := [copyOf p] } blocks) (htyped : Typed im line h.mem)
    (hstr : StrAt h.mem p line.first.bytes) :
    (serve blocks ((w.bytes ++ spaced ws).length + 1) = none ∧
      takeArgs im p h = .error .abort) ∨
    ∃ b blocks' h', serve blocks ((w.bytes ++ spaced ws).length + 1) = some (b, blocks') ∧
      takeArgs im p h = .ok (b.data, h') ∧
      Filled h [copyOf p] b blocks' ((w.bytes ++ spaced ws).length + 1) h' ∧
      StrAt h'.mem b.data (w.bytes ++ spaced ws) := by
  have hlineEnd := im.lineCli_end
  have hshort : line.bytes.length < 300 := line.short
  have hlimit : heapLimit = 0xC2200000 := rfl
  have hbegin : heapBegin = 0xC0400000 := rfl
  have hsizes : heapSize = 0x1E00000 := rfl
  obtain ⟨hlow, hhigh, -⟩ := Client.within ⟨blocks, hinv⟩ List.mem_cons_self
  dsimp only [copyOf] at hlow hhigh
  have hbytes : line.bytes = line.first.bytes ++ 0x20#8 :: (w.bytes ++ spaced ws) := by
    rw [Line.bytes, hargs, spaced]
  generalize hrest : w.bytes ++ spaced ws = rest at hbytes
  have hlen := congrArg List.length hbytes
  rw [List.length_append, List.length_cons] at hlen
  have hsub : wsub line.bytes.length line.first.bytes.length = rest.length + 1 := by
    rw [wsub_of_le (by omega) (by omega)]
    omega
  have hlineLen : strlen h.mem im.lineCli = .ok line.bytes.length :=
    strlen_eq htyped.line htyped.str.noNul (by omega)
  have hcommandLen : strlen h.mem p = .ok line.first.bytes.length :=
    strlen_eq hstr line.first.noNul (by omega)
  rw [takeArgs, hlineLen, ok_bind, hcommandLen, ok_bind, hsub]
  rcases hinv.serve aligns_four (show rest.length + 1 ≤ heapSize by omega) with
    ⟨hnone, habort⟩ | ⟨b, blocks', h₁, halloc, hrun, hgot⟩
  · refine .inl ⟨hnone, ?_⟩
    rw [kmalloc, habort]
    rfl
  · have hfilled := hgot.filled hgot.room
    obtain ⟨hlow', hhigh', -⟩ := Client.within ⟨blocks', hfilled.invariant⟩ List.mem_cons_self
    dsimp only at hlow' hhigh'
    have hcleared : ∀ x < heapBegin, memset h₁.mem b.data 0#8 (rest.length + 1) x = h₁.mem x :=
      fun x hx => memset_outside (.inl (by omega))
    have htyped' := (typed_of_keeps htyped hfilled.keeps).congr hcleared
    have hchar : ∀ i < rest.length, memset h₁.mem b.data 0#8 (rest.length + 1)
        (im.lineCli + (line.first.bytes.length + 1 + i)) = rest.getD i 0#8 := by
      intro i hi
      rw [htyped'.line _ (by omega), hbytes, List.getD_append_right _ _ _ _ (by omega),
        show line.first.bytes.length + 1 + i - line.first.bytes.length = i + 1 by omega,
        List.getD_cons_succ]
    have hnul : 0#8 ∉ rest := by
      rw [← hrest]
      exact noNul_append_spaced w ws
    obtain ⟨hcopied, hout⟩ := @copyArgs_eq (memset h₁.mem b.data 0#8 (rest.length + 1)) im.lineCli
      b.data (line.first.bytes.length + 1) rest.length (fun i hi => by
        rw [hchar i hi, List.getD_eq_getElem _ _ hi]
        exact fun hzero => hnul (hzero ▸ List.getElem_mem hi)) (by omega) (by omega)
    rw [show line.first.bytes.length + 1 + rest.length = line.bytes.length by omega]
      at hcopied hout
    refine .inr ⟨b, blocks', _, halloc, ?_, @Filled.store h [copyOf p] b blocks' _ h₁ (copyArgs
      (memset h₁.mem b.data 0#8 (rest.length + 1)) im.lineCli b.data (line.first.bytes.length + 1)
      line.bytes.length) hfilled fun x hx => ?_, ?_⟩
    · rw [kmalloc, hrun, ok_bind]
      rfl
    · exact (hout x (by omega)).trans (memset_outside hx)
    · intro i hi
      dsimp only
      rcases hi.lt_or_eq with hlt | rfl
      · rw [hcopied i hlt, hchar i hlt]
      · rw [hout _ (.inr (Nat.le_refl _)), memset_apply (Nat.lt_succ_self _),
          List.getD_eq_default _ _ (Nat.le_refl _)]

/-- The array of the pointers, with the first in it. -/
theorem firstPointer_spec (buf : Nat) (hinv : Invariant { heap := h, live := live } blocks)
    (hbuf : buf < 2 ^ 32) :
    (serve blocks 4 = none ∧ calloc h 1 4 = .error .abort) ∨
    ∃ b blocks' h', serve blocks 4 = some (b, blocks') ∧ calloc h 1 4 = .ok (b.data, h') ∧
      Filled h live b blocks' 4 { h' with mem := write32 h'.mem b.data buf } ∧
      read32 (write32 h'.mem b.data buf) b.data = buf := by
  rcases hinv.serve aligns_four (show 4 ≤ heapSize by decide) with
    ⟨hnone, habort⟩ | ⟨b, blocks', h₁, halloc, hrun, hgot⟩
  · refine .inl ⟨hnone, ?_⟩
    rw [calloc, kmalloc]
    show (alignedAlloc h 4 4 >>= _) = _
    rw [habort]
    rfl
  · refine .inr ⟨b, blocks', { h₁ with mem := memset h₁.mem b.data 0#8 4 }, halloc, ?_, ?_, ?_⟩
    · rw [calloc, kmalloc]
      show (alignedAlloc h 4 4 >>= _) = _
      rw [hrun]
      rfl
    · refine (hgot.filled hgot.room).store fun x hx => ?_
      exact (write32_outside hx).trans (memset_outside hx)
    · rw [read32_write32_self, Nat.mod_eq_of_lt hbuf]

end Steps

end Parse
end Shell
end Medusa
