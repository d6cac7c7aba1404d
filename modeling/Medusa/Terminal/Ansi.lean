import Medusa.Libc.Strtol
import Medusa.Terminal.Framebuffer

/-!
# ANSI colour sequences

`handle_ansi_sequence` on the text between the escape character and the space or line
feed that ends it, and the two assignments to the colours of the terminal.

`isalnum` looks a character up one place too far in a table that has no entry for the
end of a file.  So it answers for the next character: a 9 ends a number, and the letter
`m` behind a number is taken for a part of it.
-/

namespace Medusa
namespace Terminal
namespace Ansi

open Machine Kernel Libc

/-! ## The code -/

/-- `_ctype`, with `_ISupper` 1, `_ISlower` 2, `_ISdigit` 4, `_ISspace` 8, `_ISpunct` 16,
`_IScntrl` 32, `_ISblank` 64 and `_ISxdigit` 128. -/
def ctype : List (BitVec 8) :=
  List.replicate 9 32#8 ++ List.replicate 5 (8#8 ||| 32#8) ++ List.replicate 18 32#8 ++
  [8#8 ||| 64#8] ++ List.replicate 15 16#8 ++ List.replicate 10 (4#8 ||| 128#8) ++
  List.replicate 7 16#8 ++ List.replicate 6 (1#8 ||| 128#8) ++ List.replicate 20 1#8 ++
  List.replicate 6 16#8 ++ List.replicate 6 (2#8 ||| 128#8) ++ List.replicate 20 2#8 ++
  List.replicate 4 16#8 ++ [32#8] ++ List.replicate 128 0#8

/-- `isalnum(c)`: `(_ctype + 1)[(unsigned char)(c)] & (CT_UP | CT_LOW | CT_DIG)`. -/
def isalnum (c : BitVec 8) : Except Stop Bool := do
  let flags ← fetch ctype (c.toNat + 1)
  return decide (flags &&& (1#8 ||| 2#8 ||| 4#8) ≠ 0#8)

/-- `ansi_color_to_hex`. -/
def ansiColorToHex (ansiCol : BitVec 32) : BitVec 32 :=
  if ansiCol = 37#32 then 0xFFFFFF#32
  else if ansiCol = 31#32 then 0xFF0000#32
  else if ansiCol = 34#32 then 0x0000FF#32
  else if ansiCol = 32#32 then 0x90EE90#32
  else -1#32

/-- `color` and `old_color` of the terminal. -/
structure Colours where
  color : BitVec 32
  oldColor : BitVec 32
deriving DecidableEq

/-- `terminal_framebuffer_setcolor`. -/
def Colours.setcolor (k : Colours) (col : BitVec 32) : Colours where
  color := col
  oldColor := k.color

/-- `terminal_framebuffer_reset_color`. -/
def Colours.resetColor (k : Colours) : Colours := { k with color := k.oldColor }

/-- The loop of `ansi_get_number`, from the character at `*pos` on. -/
def scanNumber : List (BitVec 8) → List (BitVec 8) → Nat → Except Stop (List (BitVec 8) × Nat)
  | [], _, _ => .error .fault
  | c :: sequence, nbBuf, pos => do
    if ← isalnum c then scanNumber sequence (← append nbBuf c) (pos + 1)
    else return (nbBuf, pos)

/-- `ansi_get_number`: the number, and `*pos` behind it. -/
def ansiGetNumber (sequence : List (BitVec 8)) (pos : Nat) : Except Stop (BitVec 32 × Nat) := do
  let (nbBuf, pos) ← scanNumber (sequence.drop pos) (List.replicate 100 0#8) pos
  let (number, _) ← atoi nbBuf 0
  return (number, pos)

/-- A number is read where one begins, and is -1 where none does. -/
def numberAt (sequence : List (BitVec 8)) (pos : Nat) : Except Stop (BitVec 32 × Nat) := do
  if ← isalnum (← fetch sequence pos) then ansiGetNumber sequence pos
  else return (-1#32, pos)

/-- `if (sequence[pos] == ';')`. -/
def colorAt (sequence : List (BitVec 8)) (pos : Nat) : Except Stop (BitVec 32 × Nat) := do
  if (← fetch sequence pos) = 0x3B#8 then numberAt sequence (pos + 1)
  else return (-1#32, pos)

/-- `if (sequence[pos] == 'm')`. -/
def finalAt (sequence : List (BitVec 8)) (pos : Nat) (modeNumber : BitVec 32) (k : Colours) :
    Except Stop (Colours × Nat) := do
  if (← fetch sequence pos) = 0x6D#8 then
    return (if modeNumber = 0#32 then k.resetColor else k, pos + 1)
  else return (k, pos)

/-- The locals of `handle_ansi_sequence` when it returns, and the colours. -/
structure Handled where
  modeNumber : BitVec 32
  colorNumber : BitVec 32
  pos : Nat
  colours : Colours
deriving DecidableEq

/-- `handle_ansi_sequence`, where the terminal is in text mode. -/
def handleAnsiSequence (sequence : List (BitVec 8)) (k : Colours) : Except Stop Handled := do
  let first ← fetch sequence 0
  let (modeNumber, pos) ← numberAt sequence (if first = 0x5B#8 then 1 else 0)
  let (colorNumber, pos) ← colorAt sequence pos
  let (k, pos) ← finalAt sequence pos modeNumber k
  return {
    modeNumber := modeNumber
    colorNumber := colorNumber
    pos := pos
    colours := k.setcolor (ansiColorToHex colorNumber) }

/-- What of the terminal concerns escape sequences. -/
structure Printer where
  isInAnsiEscapeChar : Bool
  escapeCharBuf : List (BitVec 8)
  colours : Colours
deriving DecidableEq

/-- `terminal_framebuffer_putc`, less what it draws and the cursor. -/
def putcColour (s : Printer) (c : BitVec 8) : Except Stop Printer :=
  if c = 0x1B#8 then
    .ok { s with isInAnsiEscapeChar := true
                 escapeCharBuf := List.replicate escapeCharBufSize 0#8 }
  else if s.isInAnsiEscapeChar = true ∧ (c = 0x20#8 ∨ c = 0x0A#8) then do
    let r ← handleAnsiSequence s.escapeCharBuf s.colours
    return { s with isInAnsiEscapeChar := false, colours := r.colours }
  else if s.isInAnsiEscapeChar = true then do
    let buf ← append s.escapeCharBuf c
    return { s with escapeCharBuf := buf }
  else .ok s

def print (s : Printer) (text : List (BitVec 8)) : Except Stop Printer := text.foldlM putcColour s

/-- What of a terminal concerns escape sequences. -/
def printer (s : State) (k : Colours) : Printer where
  isInAnsiEscapeChar := s.isInAnsiEscapeChar
  escapeCharBuf := s.escapeCharBuf
  colours := k

/-- The terminal takes a byte as `putcColour` has it. -/
theorem putcColour_of_putc {fb : Framebuffer} {font : Font} {s s' : State} {c : BitVec 8}
    {k : Colours} {p : Printer} (hputc : (putc fb font s c).2 = some s')
    (hcolour : putcColour (printer s k) c = .ok p) : p = printer s' p.colours := by
  unfold putc at hputc
  unfold putcColour at hcolour
  by_cases hescape : c = 0x1B#8
  · rw [if_pos hescape] at hputc hcolour
    obtain rfl := Option.some.inj hputc
    obtain rfl := Except.ok.inj hcolour
    rfl
  rw [if_neg hescape] at hputc hcolour
  by_cases hends : s.isInAnsiEscapeChar = true ∧ (c = 0x20#8 ∨ c = 0x0A#8)
  · rw [if_pos hends] at hputc
    rw [if_pos (show (printer s k).isInAnsiEscapeChar = true ∧ _ from hends)] at hcolour
    obtain ⟨r, -, hcolour⟩ := bind_eq_ok hcolour
    obtain rfl := Option.some.inj hputc
    obtain rfl := Except.ok.inj hcolour
    rfl
  rw [if_neg hends] at hputc
  rw [if_neg (show ¬((printer s k).isInAnsiEscapeChar = true ∧ _) from hends)] at hcolour
  by_cases hinside : s.isInAnsiEscapeChar = true
  · rw [if_pos hinside, appendEscape] at hputc
    rw [if_pos (show (printer s k).isInAnsiEscapeChar = true from hinside)] at hcolour
    obtain ⟨buf, happend, hcolour⟩ := bind_eq_ok hcolour
    obtain rfl := Except.ok.inj hcolour
    have happend' : append s.escapeCharBuf c = .ok buf := happend
    rw [happend'] at hputc
    split at hputc
    · cases hputc
    · obtain rfl := Option.some.inj hputc
      rfl
  rw [if_neg hinside] at hputc
  rw [if_neg (show ¬(printer s k).isInAnsiEscapeChar = true from hinside)] at hcolour
  obtain rfl := Except.ok.inj hcolour
  -- a line feed or a glyph, which leave the escape state alone
  split at hputc
  · obtain rfl := Option.some.inj hputc
    rfl
  · split at hputc
    · cases hputc
    · obtain ⟨hbuf, hin⟩ := advance_rest fb s
      obtain rfl := Option.some.inj hputc
      rw [printer, printer, hbuf, hin]

/-! ## What should happen -/

/-- A decimal numeral. -/
structure Decimal where
  bytes : List (BitVec 8)
  nonempty : bytes ≠ []
  digits : ∀ c ∈ bytes, digitValue c < 10

namespace Decimal

def value (n : Decimal) : Nat := valueOf 10 (n.bytes.map digitValue)

/-- No digit of the numeral is a 9. -/
def NoNine (n : Decimal) : Prop := 0x39#8 ∉ n.bytes

end Decimal

/-- `"[n;cm"`. -/
def colourText (n c : Decimal) : List (BitVec 8) :=
  0x5B#8 :: (n.bytes ++ 0x3B#8 :: (c.bytes ++ [0x6D#8]))

/-- `"[0m"`. -/
def resetText : List (BitVec 8) := [0x5B#8, 0x30#8, 0x6D#8]

/-- `"[1;31m"`. -/
def redText : List (BitVec 8) := [0x5B#8, 0x31#8, 0x3B#8, 0x33#8, 0x31#8, 0x6D#8]

/-- Both numbers are read, the final `m` is consumed, and the current colour is the one
of the second number. -/
def SetsColour (n c : Decimal) (junk : List (BitVec 8)) (k : Colours) : Prop :=
  ∃ r, handleAnsiSequence (colourText n c ++ 0#8 :: junk) k = .ok r ∧
    r.modeNumber.toInt = n.value ∧ r.colorNumber.toInt = c.value ∧
    r.pos = (colourText n c).length ∧ r.colours.color = ansiColorToHex (BitVec.ofNat 32 c.value)

/-- The colour in force before the last `terminal_framebuffer_setcolor` is back. -/
def Restores (junk : List (BitVec 8)) (k : Colours) : Prop :=
  ∃ r, handleAnsiSequence (resetText ++ 0#8 :: junk) k = .ok r ∧ r.colours.color = k.oldColor

/-- A text that is printed in red.  A sequence ends at a space or a line feed. -/
structure RedText where
  text : List (BitVec 8)
  noEscape : 0x1B#8 ∉ text
  afterRed : BitVec 8
  afterReset : BitVec 8
  redEnds : afterRed = 0x20#8 ∨ afterRed = 0x0A#8
  resetEnds : afterReset = 0x20#8 ∨ afterReset = 0x0A#8

/-- `"\x1b[1;31m"`, the text and `"\x1b[0m"`. -/
def RedText.bytes (t : RedText) : List (BitVec 8) :=
  0x1B#8 :: redText ++ [t.afterRed] ++ (t.text ++ (0x1B#8 :: resetText ++ [t.afterReset]))

/-- Printing the text leaves the colour as it was. -/
def PrintsBack (t : RedText) (s : Printer) : Prop :=
  ∃ s', print s t.bytes = .ok s' ∧ s'.colours.color = s.colours.color

/-! ## The number scanner -/

/-- The characters that `isalnum` takes for letters and digits: each is followed by one. -/
def Counted (c : BitVec 8) : Prop :=
  0x2F ≤ c.toNat ∧ c.toNat ≤ 0x38 ∨ 0x40 ≤ c.toNat ∧ c.toNat ≤ 0x59 ∨
    0x60 ≤ c.toNat ∧ c.toNat ≤ 0x79

instance (c : BitVec 8) : Decidable (Counted c) := inferInstanceAs (Decidable (_ ∨ _ ∨ _))

theorem isalnum_eq {c : BitVec 8} (hc : c ≠ 0xFF#8) : isalnum c = .ok (decide (Counted c)) := by
  revert c
  decide +kernel

theorem Counted.ne {c : BitVec 8} (h : Counted c) : c ≠ 0#8 ∧ c ≠ 0xFF#8 := by
  revert c
  decide +kernel

theorem counted_of_digit {c : BitVec 8} (hdigit : digitValue c < 10) (hnine : c ≠ 0x39#8) :
    Counted c := by
  revert c
  decide +kernel

/-- The loop copies the characters that count, if the buffer has room for them. -/
theorem scanNumber_eq {w s zs : List (BitVec 8)} {c : BitVec 8} (hw : ∀ d ∈ w, Counted d)
    (hc : ¬ Counted c) (hend : c ≠ 0xFF#8) (hs : 0#8 ∉ s) (rest : List (BitVec 8)) (pos : Nat) :
    scanNumber (w ++ c :: rest) (s ++ 0#8 :: zs) pos =
      if w.length ≤ zs.length then
        .ok (s ++ w ++ 0#8 :: zs.drop w.length, pos + w.length)
      else .error .fault := by
  induction w generalizing s zs pos with
  | nil =>
    rw [List.nil_append, scanNumber, isalnum_eq hend, ok_bind, decide_eq_false hc]
    simp [pure, Except.pure]
  | cons d w ih =>
    have hd := hw d (List.mem_cons_self ..)
    rw [List.cons_append, scanNumber, isalnum_eq hd.ne.2, ok_bind, decide_eq_true hd, if_pos rfl,
      append_eq hs, appended]
    cases zs with
    | nil =>
      rw [if_neg (by simp), if_neg (by simp)]
      rfl
    | cons z zs =>
      have hnul : 0#8 ∉ s ++ [d] := by
        rw [List.mem_append, List.mem_singleton]
        exact fun h => h.elim hs fun he => hd.ne.1 he.symm
      have hrest : scanNumber (w ++ c :: rest) (s ++ [d] ++ 0#8 :: zs) (pos + 1) = _ :=
        ih (fun e he => hw e (List.mem_cons_of_mem d he)) hnul _
      rw [if_pos (by simp), ok_bind]
      simp only [List.length_singleton, List.drop_succ_cons, List.drop_zero]
      rw [hrest, List.length_cons, List.length_cons]
      by_cases hroom : w.length ≤ zs.length
      · rw [if_pos hroom, if_pos (by omega), List.drop_succ_cons, List.append_assoc s,
          List.singleton_append, Nat.add_assoc, Nat.add_comm 1]
      · rw [if_neg hroom, if_neg (by omega)]

theorem numberAt_none {sequence : List (BitVec 8)} {pos : Nat} {c : BitVec 8}
    (hfetch : fetch sequence pos = .ok c) (hc : ¬ Counted c) (hend : c ≠ 0xFF#8) :
    numberAt sequence pos = .ok (-1#32, pos) := by
  rw [numberAt, hfetch, ok_bind, isalnum_eq hend, ok_bind, decide_eq_false hc]
  rfl

/-- Where digits other than 9 stand, their number is read, and what counts behind them
is skipped. -/
theorem numberAt_digits {ds : List (BitVec 8)} (tail : List (BitVec 8)) {c : BitVec 8}
    (hne : ds ≠ []) (hds : ∀ d ∈ ds, digitValue d < 10) (hnine : 0x39#8 ∉ ds)
    (htail : ∀ d ∈ tail, Counted d ∧ ¬ digitValue d < 10) (hc : ¬ Counted c) (hend : c ≠ 0xFF#8)
    (front rest : List (BitVec 8)) :
    numberAt (front ++ (ds ++ tail ++ c :: rest)) front.length =
      if (ds ++ tail).length ≤ 99 then
        .ok (BitVec.ofNat 32 (valueOf 10 (ds.map digitValue)), front.length + (ds ++ tail).length)
      else .error .fault := by
  have hw : ∀ d ∈ ds ++ tail, Counted d := by
    intro d hd
    rcases List.mem_append.mp hd with hd | hd
    · exact counted_of_digit (hds d hd) fun he => hnine (he ▸ hd)
    · exact (htail d hd).1
  have hscan : scanNumber (ds ++ tail ++ c :: rest) ([] ++ 0#8 :: List.replicate 99 0#8)
      front.length = _ := scanNumber_eq hw hc hend List.not_mem_nil rest front.length
  rw [List.nil_append, List.nil_append, List.length_replicate, List.drop_replicate] at hscan
  have hfirst : fetch (front ++ (ds ++ tail ++ c :: rest)) front.length >>= isalnum = .ok true := by
    cases ds with
    | nil => exact absurd rfl hne
    | cons d ds =>
      have hd := hw d (List.mem_cons_self ..)
      rw [List.cons_append, List.cons_append, fetch_append_cons, ok_bind, isalnum_eq hd.ne.2,
        decide_eq_true hd]
  rw [numberAt, ← bind_assoc, hfirst, ok_bind, if_pos rfl, ansiGetNumber, List.drop_left]
  show (scanNumber _ (0#8 :: List.replicate 99 0#8) _ >>= _) = _
  rw [hscan]
  by_cases hroom : (ds ++ tail).length ≤ 99
  · obtain ⟨errno, hatoi⟩ := atoi_digits hne hds
      (fun d hd => (htail d (List.mem_of_mem_head? hd)).2)
      (List.replicate (99 - (ds ++ tail).length) 0#8) 0
    rw [if_pos hroom, if_pos hroom, ok_bind]
    simp only [hatoi, ok_bind]
    rfl
  · rw [if_neg hroom, if_neg hroom]
    rfl

namespace Decimal

variable {n : Decimal}

theorem numberAt_of_noNine (h : n.NoNine) (tail : List (BitVec 8)) {c : BitVec 8}
    (htail : ∀ d ∈ tail, Counted d ∧ ¬ digitValue d < 10) (hc : ¬ Counted c) (hend : c ≠ 0xFF#8)
    (front rest : List (BitVec 8)) :
    numberAt (front ++ (n.bytes ++ tail ++ c :: rest)) front.length =
      if (n.bytes ++ tail).length ≤ 99 then
        .ok (BitVec.ofNat 32 n.value, front.length + (n.bytes ++ tail).length)
      else .error .fault :=
  numberAt_digits tail n.nonempty n.digits h htail hc hend front rest

/-- A number that is read ends at the first 9. -/
theorem numberAt_of_nine (h : ¬ n.NoNine) (front rest : List (BitVec 8)) {r : BitVec 32 × Nat}
    (hrun : numberAt (front ++ (n.bytes ++ rest)) front.length = .ok r) :
    fetch (front ++ (n.bytes ++ rest)) r.2 = .ok 0x39#8 ∧ r.2 < front.length + n.bytes.length := by
  obtain ⟨ds, post, hbytes, hfirst⟩ := List.eq_append_cons_of_mem (not_not.mp h)
  have hstop : ¬ Counted 0x39#8 := by decide
  have hpos : r.2 = front.length + ds.length := by
    cases ds with
    | nil =>
      have hfetch : fetch (front ++ (n.bytes ++ rest)) front.length = .ok 0x39#8 := by
        rw [hbytes, List.nil_append, List.cons_append, fetch_append_cons]
      rw [numberAt_none hfetch hstop (by decide)] at hrun
      rw [← Except.ok.inj hrun]
      rfl
    | cons d ds =>
      have hdigits : ∀ e ∈ d :: ds, digitValue e < 10 := fun e he =>
        n.digits e (by rw [hbytes]; exact List.mem_append_left _ he)
      have hnumber := numberAt_digits [] (List.cons_ne_nil d ds) hdigits hfirst
        (fun _ he => absurd he List.not_mem_nil) hstop (by decide) front (post ++ rest)
      rw [List.append_nil] at hnumber
      rw [hbytes, List.append_assoc, @List.cons_append _ 0x39#8, hnumber] at hrun
      split at hrun
      · rw [← Except.ok.inj hrun]
      · cases hrun
  have hlen := congrArg List.length hbytes
  rw [List.length_append, List.length_cons] at hlen
  refine ⟨?_, by omega⟩
  rw [hpos, hbytes, fetch_append_add, List.append_assoc, List.cons_append, fetch_append_cons]

end Decimal

/-! ## The sequence that sets a colour -/

/-- The three parts of a sequence that begins with a bracket. -/
theorem handle_eq_ok {sequence : List (BitVec 8)} {k : Colours} {r : Handled}
    (hbracket : fetch sequence 0 = .ok 0x5B#8)
    (hrun : handleAnsiSequence sequence k = .ok r) :
    ∃ a b f, numberAt sequence 1 = .ok a ∧ colorAt sequence a.2 = .ok b ∧
      finalAt sequence b.2 a.1 k = .ok f ∧
      r = ⟨a.1, b.1, f.2, f.1.setcolor (ansiColorToHex b.1)⟩ := by
  rw [handleAnsiSequence, hbracket, ok_bind, if_pos rfl] at hrun
  obtain ⟨a, ha, hrun⟩ := bind_eq_ok hrun
  obtain ⟨b, hb, hrun⟩ := bind_eq_ok hrun
  obtain ⟨f, hf, hrun⟩ := bind_eq_ok hrun
  exact ⟨a, b, f, ha, hb, hf, (Except.ok.inj hrun).symm⟩

theorem colorAt_none {sequence : List (BitVec 8)} {pos : Nat} {c : BitVec 8}
    (hfetch : fetch sequence pos = .ok c) (hc : c ≠ 0x3B#8) :
    colorAt sequence pos = .ok (-1#32, pos) := by
  rw [colorAt, hfetch, ok_bind, if_neg hc]
  rfl

theorem finalAt_none {sequence : List (BitVec 8)} {pos : Nat} {c : BitVec 8}
    (hfetch : fetch sequence pos = .ok c) (hc : c ≠ 0x6D#8) (modeNumber : BitVec 32) (k : Colours) :
    finalAt sequence pos modeNumber k = .ok (k, pos) := by
  rw [finalAt, hfetch, ok_bind, if_neg hc]
  rfl

theorem toInt_ofNat_eq_iff (v : Nat) : (BitVec.ofNat 32 v).toInt = v ↔ v < 2 ^ 31 := by
  rw [BitVec.toInt_eq_toNat_cond, BitVec.toNat_ofNat]
  constructor
  · intro h
    split at h
    · omega
    · omega
  · intro h
    rw [if_pos (by omega)]
    omega

section Sequence

variable (n c : Decimal) (junk : List (BitVec 8)) (k : Colours)

theorem colourText_length :
    (colourText n c).length = n.bytes.length + c.bytes.length + 3 := by
  simp only [colourText, List.length_cons, List.length_append, List.length_nil]
  omega

/-- The sequence, with what the scanner is looking at for the first number. -/
theorem colourText_eq : colourText n c ++ 0#8 :: junk =
    [0x5B#8] ++ (n.bytes ++ [] ++ 0x3B#8 :: (c.bytes ++ [0x6D#8] ++ 0#8 :: junk)) := by
  simp [colourText]

/-- The sequence, with what the scanner is looking at for the second number. -/
theorem colourText_eq' : colourText n c ++ 0#8 :: junk =
    (0x5B#8 :: n.bytes ++ [0x3B#8]) ++ (c.bytes ++ [0x6D#8] ++ 0#8 :: junk) := by
  simp [colourText]

variable {n c}

theorem modeNumber_eq (hn : n.NoNine) :
    numberAt (colourText n c ++ 0#8 :: junk) 1 =
      if n.bytes.length ≤ 99 then .ok (BitVec.ofNat 32 n.value, 1 + n.bytes.length)
      else .error .fault := by
  have hnumber := Decimal.numberAt_of_noNine hn [] (c := 0x3B#8)
    (fun _ h => absurd h List.not_mem_nil) (by decide) (by decide) [0x5B#8]
    (c.bytes ++ [0x6D#8] ++ 0#8 :: junk)
  rw [← colourText_eq, List.append_nil] at hnumber
  exact hnumber

variable (n c) in
/-- Behind the first number stands the semicolon. -/
theorem colorAt_eq : colorAt (colourText n c ++ 0#8 :: junk) (1 + n.bytes.length) =
    numberAt (colourText n c ++ 0#8 :: junk) (0x5B#8 :: n.bytes ++ [0x3B#8]).length := by
  have hsemicolon : fetch (colourText n c ++ 0#8 :: junk) (1 + n.bytes.length) = .ok 0x3B#8 := by
    have hfetch := fetch_append_cons (0x5B#8 :: n.bytes) (c.bytes ++ 0x6D#8 :: 0#8 :: junk) 0x3B#8
    rw [Nat.add_comm]
    simpa [colourText] using hfetch
  rw [colorAt, hsemicolon, ok_bind, if_pos rfl]
  simp [Nat.add_comm 1]

/-- The `m` is read with the second number. -/
theorem colorNumber_eq (hc : c.NoNine) :
    colorAt (colourText n c ++ 0#8 :: junk) (1 + n.bytes.length) =
      if c.bytes.length ≤ 98 then .ok (BitVec.ofNat 32 c.value, (colourText n c).length)
      else .error .fault := by
  have hnumber := Decimal.numberAt_of_noNine hc [0x6D#8] (c := 0#8)
    (fun d h => by rw [List.mem_singleton.mp h]; decide) (by decide) (by decide)
    (0x5B#8 :: n.bytes ++ [0x3B#8]) junk
  rw [← colourText_eq', ← colorAt_eq] at hnumber
  rw [hnumber, colourText_length]
  simp only [List.length_append, List.length_cons, List.length_nil]
  by_cases hroom : c.bytes.length ≤ 98
  · rw [if_pos hroom, if_pos (by omega)]
    congr 2
    omega
  · rw [if_neg hroom, if_neg (by omega)]

/-- A second number with a 9 ends in front of the `m`. -/
theorem colorNumber_nine (hc : ¬ c.NoNine) {b : BitVec 32 × Nat}
    (hb : colorAt (colourText n c ++ 0#8 :: junk) (1 + n.bytes.length) = .ok b) :
    fetch (colourText n c ++ 0#8 :: junk) b.2 = .ok 0x39#8 ∧
      b.2 < n.bytes.length + c.bytes.length + 2 := by
  rw [colorAt_eq, colourText_eq', List.append_assoc c.bytes] at hb
  obtain ⟨hstop, hlt⟩ := Decimal.numberAt_of_nine hc _ _ hb
  rw [← List.append_assoc c.bytes, ← colourText_eq'] at hstop
  refine ⟨hstop, ?_⟩
  simp only [List.length_append, List.length_cons, List.length_nil] at hlt
  omega

/-- **When the sequence sets its colour.** -/
theorem setsColour_iff : SetsColour n c junk k ↔
    n.NoNine ∧ c.NoNine ∧ n.value < 2 ^ 31 ∧ c.value < 2 ^ 31 ∧
      n.bytes.length ≤ 99 ∧ c.bytes.length ≤ 98 := by
  have hbracket : fetch (colourText n c ++ 0#8 :: junk) 0 = .ok 0x5B#8 := rfl
  have hnul : fetch (colourText n c ++ 0#8 :: junk) (colourText n c).length = .ok 0#8 :=
    fetch_append_cons ..
  constructor
  · rintro ⟨r, hrun, hmode, hcolor, hpos, -⟩
    obtain ⟨a, b, f, ha, hb, hf, rfl⟩ := handle_eq_ok hbracket hrun
    have hn : n.NoNine := by
      -- behind a number that ends at a 9 there is no semicolon
      by_contra hnine
      rw [colourText_eq, List.append_nil] at ha hb
      have hstop := (Decimal.numberAt_of_nine hnine _ _ ha).1
      rw [colorAt_none hstop (by decide)] at hb
      obtain rfl := Except.ok.inj hb
      have hneg : (-1#32).toInt = -1 := by decide
      have hminus : (-1#32).toInt = (c.value : Int) := hcolor
      omega
    have hc : c.NoNine := by
      -- a number that ends at a 9 ends in front of the `m`
      by_contra hnine
      rw [modeNumber_eq junk hn] at ha
      split at ha
      · obtain rfl := Except.ok.inj ha
        obtain ⟨hstop, hlt⟩ := colorNumber_nine junk hnine hb
        rw [finalAt_none hstop (by decide)] at hf
        obtain rfl := Except.ok.inj hf
        have hend : b.2 = (colourText n c).length := hpos
        rw [colourText_length] at hend
        omega
      · cases ha
    rw [modeNumber_eq junk hn] at ha
    split at ha
    · obtain rfl := Except.ok.inj ha
      rw [colorNumber_eq junk hc] at hb
      split at hb
      · obtain rfl := Except.ok.inj hb
        exact ⟨hn, hc, (toInt_ofNat_eq_iff _).mp hmode, (toInt_ofNat_eq_iff _).mp hcolor,
          ‹_›, ‹_›⟩
      · cases hb
    · cases ha
  · rintro ⟨hn, hc, hnvalue, hcvalue, hnroom, hcroom⟩
    have hfirst := modeNumber_eq (c := c) junk hn
    have hsecond := colorNumber_eq (n := n) junk hc
    rw [if_pos hnroom] at hfirst
    rw [if_pos hcroom] at hsecond
    refine ⟨⟨BitVec.ofNat 32 n.value, BitVec.ofNat 32 c.value, (colourText n c).length,
      k.setcolor (ansiColorToHex (BitVec.ofNat 32 c.value))⟩, ?_,
      (toInt_ofNat_eq_iff _).mpr hnvalue, (toInt_ofNat_eq_iff _).mpr hcvalue, rfl, rfl⟩
    rw [handleAnsiSequence, hbracket, ok_bind, if_pos rfl, hfirst, ok_bind]
    simp only [hsecond, ok_bind, finalAt_none hnul (by decide)]
    rfl

end Sequence

/-! ## The sequence that restores the colour -/

/-- What the code makes of `"[0m"`: the `m` goes with the number, and the colour -1 is
set. -/
theorem handle_reset (junk : List (BitVec 8)) (k : Colours) :
    handleAnsiSequence (resetText ++ 0#8 :: junk) k =
      .ok ⟨0#32, -1#32, 3, k.setcolor (-1#32)⟩ := by
  have hnumber := numberAt_digits [0x6D#8] (c := 0#8) (List.cons_ne_nil 0x30#8 []) (by decide)
    (by decide) (by decide) (by decide) (by decide) [0x5B#8] junk
  have hnul : fetch (resetText ++ 0#8 :: junk) 3 = .ok 0#8 := rfl
  have hread : numberAt (resetText ++ 0#8 :: junk) 1 = .ok (0#32, 3) := hnumber
  have hbracket : fetch (resetText ++ 0#8 :: junk) 0 = .ok 0x5B#8 := rfl
  rw [handleAnsiSequence, hbracket, ok_bind, if_pos rfl, hread, ok_bind]
  simp only [colorAt_none hnul (by decide), ok_bind, finalAt_none hnul (by decide)]
  rfl

theorem restores_iff (junk : List (BitVec 8)) (k : Colours) :
    Restores junk k ↔ k.oldColor = -1#32 := by
  unfold Restores
  rw [handle_reset]
  constructor
  · rintro ⟨r, hrun, hcolor⟩
    obtain rfl := Except.ok.inj hrun
    exact hcolor.symm
  · exact fun h => ⟨_, rfl, h.symm⟩

/-! ## Printing in red -/

theorem print_append (s : Printer) (t u : List (BitVec 8)) :
    print s (t ++ u) = print s t >>= fun s => print s u := List.foldlM_append ..

/-- Outside a sequence, text leaves the colours and the sequence alone. -/
theorem print_plain {s : Printer} (hs : s.isInAnsiEscapeChar = false) {t : List (BitVec 8)}
    (ht : 0x1B#8 ∉ t) : print s t = .ok s := by
  induction t with
  | nil => rfl
  | cons c t ih =>
    have hc : c ≠ 0x1B#8 := fun he => ht (by rw [he]; exact List.mem_cons_self ..)
    have hstep : putcColour s c = .ok s := by
      rw [putcColour, if_neg hc, if_neg (by simp [hs]), if_neg (by simp [hs])]
    rw [print, List.foldlM_cons, hstep, ok_bind]
    exact ih fun h => ht (List.mem_cons_of_mem c h)

/-- A character that ends a sequence. -/
theorem putcColour_end {s : Printer} {c : BitVec 8} {r : Handled}
    (hs : s.isInAnsiEscapeChar = true) (hc : c = 0x20#8 ∨ c = 0x0A#8)
    (hrun : handleAnsiSequence s.escapeCharBuf s.colours = .ok r) :
    putcColour s c = .ok { s with isInAnsiEscapeChar := false, colours := r.colours } := by
  have hescape : c ≠ 0x1B#8 := by
    rcases hc with rfl | rfl
    · decide
    · decide
  rw [putcColour, if_neg hescape, if_pos ⟨hs, hc⟩, hrun]
  rfl


/-- A sequence that is printed, from the escape character to the character that ends
it. -/
theorem print_sequence {w : List (BitVec 8)} {k : Colours} {r : Handled} {buf : List (BitVec 8)}
    {ends : BitVec 8} (hends : ends = 0x20#8 ∨ ends = 0x0A#8)
    (hcollect : print ⟨true, List.replicate escapeCharBufSize 0#8, k⟩ w = .ok ⟨true, buf, k⟩)
    (hrun : handleAnsiSequence buf k = .ok r) {s : Printer} (hs : s.colours = k) :
    print s (0x1B#8 :: w ++ [ends]) = .ok ⟨false, buf, r.colours⟩ := by
  have hstart : putcColour s 0x1B#8 = .ok ⟨true, List.replicate escapeCharBufSize 0#8, k⟩ := by
    rw [putcColour, if_pos rfl, hs]
  have hend : putcColour ⟨true, buf, k⟩ ends = .ok ⟨false, buf, r.colours⟩ :=
    putcColour_end rfl hends hrun
  rw [List.cons_append, print, List.foldlM_cons, hstart, ok_bind]
  show print _ (w ++ [ends]) = _
  rw [print_append, hcollect, ok_bind, print, List.foldlM_cons, hend]
  rfl

theorem handle_red (k : Colours) : handleAnsiSequence (redText ++ List.replicate 24 0#8) k =
    .ok ⟨1#32, 31#32, 6, k.setcolor 0xFF0000#32⟩ := rfl

/-- After the text the colour is -1, whatever it was before. -/
theorem print_red (t : RedText) (s : Printer) :
    ∃ s', print s t.bytes = .ok s' ∧ s'.colours.color = -1#32 := by
  have hred : print s (0x1B#8 :: redText ++ [t.afterRed]) =
      .ok ⟨false, redText ++ List.replicate 24 0#8, s.colours.setcolor 0xFF0000#32⟩ :=
    print_sequence t.redEnds rfl (handle_red s.colours) rfl
  generalize hs : (⟨false, redText ++ List.replicate 24 0#8,
    s.colours.setcolor 0xFF0000#32⟩ : Printer) = red at hred
  have hcollect : print ⟨true, List.replicate escapeCharBufSize 0#8, red.colours⟩ resetText =
      .ok ⟨true, resetText ++ List.replicate 27 0#8, red.colours⟩ := rfl
  have hreset := handle_reset (List.replicate 26 0#8) red.colours
  refine ⟨⟨false, resetText ++ List.replicate 27 0#8, red.colours.setcolor (-1#32)⟩, ?_, rfl⟩
  rw [RedText.bytes, print_append, hred, ok_bind, print_append,
    print_plain (by rw [← hs]) t.noEscape, ok_bind]
  exact print_sequence t.resetEnds hcollect hreset rfl

theorem printsBack_iff (t : RedText) (s : Printer) :
    PrintsBack t s ↔ s.colours.color = -1#32 := by
  obtain ⟨s', hrun, hcolor⟩ := print_red t s
  unfold PrintsBack
  constructor
  · rintro ⟨s₂, hrun₂, hsame⟩
    obtain rfl := Except.ok.inj (hrun.symm.trans hrun₂)
    exact hsame.symm.trans hcolor
  · exact fun h => ⟨s', hrun, hcolor.trans h.symm⟩

/-! ## When the sequences do what they should -/

/-- **The colour sequences work** as follows.  A colour is set if no digit of the two
numerals is a 9, both values are those of an `int`, and the numerals have at most 99 and
98 digits.  A colour is restored, by the reset and behind a text in red, only if it is
the one that an unknown number stands for. -/
theorem sequences_iff (n c : Decimal) (junk : List (BitVec 8)) (k : Colours) (t : RedText)
    (s : Printer) :
    (SetsColour n c junk k ↔ n.NoNine ∧ c.NoNine ∧ n.value < 2 ^ 31 ∧ c.value < 2 ^ 31 ∧
      n.bytes.length ≤ 99 ∧ c.bytes.length ≤ 98) ∧
    (Restores junk k ↔ k.oldColor = -1#32) ∧
    (PrintsBack t s ↔ s.colours.color = -1#32) :=
  ⟨setsColour_iff junk k, restores_iff junk k, printsBack_iff t s⟩

/-- The numeral 1. -/
def one : Decimal where
  bytes := [0x31#8]
  nonempty := by decide
  digits := by decide

/-- The numeral 39, the default colour of other terminals. -/
def thirtyNine : Decimal where
  bytes := [0x33#8, 0x39#8]
  nonempty := by decide
  digits := by decide

/-- `"\x1b[1;31m hi\x1b[0m "`. -/
def hi : RedText where
  text := [0x68#8, 0x69#8]
  noEscape := by decide
  afterRed := 0x20#8
  afterReset := 0x20#8
  redEnds := .inl rfl
  resetEnds := .inl rfl

/-- Red, and white before. -/
def redOverWhite : Colours where
  color := 0xFF0000#32
  oldColor := 0xFFFFFF#32

/-- `"[1;39m"` reads colour 3 and stops, `"[0m"` does not bring white back, and red text
does not return to the colour before. -/
theorem sequences_wrong : ¬ SetsColour one thirtyNine [] redOverWhite ∧
    ¬ Restores [] redOverWhite ∧
    ¬ PrintsBack hi ⟨false, List.replicate escapeCharBufSize 0#8, redOverWhite⟩ := by
  refine ⟨?_, ?_, ?_⟩
  · rw [setsColour_iff]
    exact fun h => h.2.1 (by decide)
  · rw [restores_iff]
    decide
  · rw [printsBack_iff]
    decide

end Ansi
end Terminal
end Medusa
