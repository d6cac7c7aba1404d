import Medusa.Libc.CString
import Medusa.Machine.Word

/-!
# The two formatters

`sprintf` and `vfprintf` interpret the same format language in two hand-written
loops.  One appends to a string with `append`, which looks for its end every time;
the other passes bytes to `fputchar`.  Both return the length of literals and
strings, and count one for a number whatever its length.

The loops are compared round by round: from the same format, arguments and count,
with the same text written so far, a round writes the same bytes in both.
-/

namespace Medusa
namespace Libc

open Machine Kernel

/-! ## Formats and arguments -/

/-- A string of C: no byte of it is the terminator. -/
structure CString where
  bytes : List (BitVec 8)
  noNul : 0#8 ∉ bytes

/-- An argument behind the format. -/
inductive Arg where
  | int (v : BitVec 32)
  | str (s : CString)
  | ptr (v : BitVec 32)

/-- `va_arg(parameters, int)`.  An argument of another type is no defined call. -/
def vaInt : List Arg → Except Stop (BitVec 32 × List Arg)
  | .int v :: args => .ok (v, args)
  | _ => .error .fault

/-- `va_arg(parameters, const char*)`. -/
def vaStr : List Arg → Except Stop (CString × List Arg)
  | .str s :: args => .ok (s, args)
  | _ => .error .fault

/-- `va_arg(parameters, void*)`. -/
def vaPtr : List Arg → Except Stop (BitVec 32 × List Arg)
  | .ptr v :: args => .ok (v, args)
  | _ => .error .fault

inductive Conversion where
  | c | s | d | i | x | p
deriving DecidableEq, Repr

def conversionOf (b : BitVec 8) : Option Conversion :=
  if b = 0x63#8 then some .c
  else if b = 0x73#8 then some .s
  else if b = 0x64#8 then some .d
  else if b = 0x69#8 then some .i
  else if b = 0x78#8 then some .x
  else if b = 0x70#8 then some .p
  else none

def percent : BitVec 8 := 0x25#8

def intMax : Nat := 2 ^ 31 - 1

/-- The loop that looks for the end of a literal run. -/
def runLength : List (BitVec 8) → Nat
  | [] => 0
  | c :: rest => if c = percent then 0 else runLength rest + 1

/-- `amount`: the first byte belongs to the run whatever it is. -/
def literalLength (format : List (BitVec 8)) : Nat := 1 + runLength format.tail

/-- The array `i2` after `memset`, taken as large enough. -/
def scratch : List (BitVec 8) := List.replicate 16 0#8

/-- `sizeof(i2) - (10 - length)`. -/
def printedLength (length : Nat) : Nat := wsub 10 (wsub 10 length)

/-- The text of a number in `i2`, which both formatters make in the same way. -/
def numberText (conv : Conversion) (args : List Arg) :
    Except Stop (List (BitVec 8) × List Arg) := do
  match conv with
  | .p =>
    let (v, args) ← vaPtr args
    return (← hexToAscii v scratch, args)
  | .x =>
    let (v, args) ← vaInt args
    return (← intToAsciiBase v scratch 16, args)
  | _ =>
    let (v, args) ← vaInt args
    return (← intToAscii v scratch, args)

/-! ## `sprintf` -/

/-- `for (i = 0; i < count; i++) append(string, data[i])`. -/
def appendFrom (string data : List (BitVec 8)) (count : Nat) : Except Stop (List (BitVec 8)) :=
  (List.range count).foldlM (fun string i => do append string (← fetch data i)) string

/-- A conversion: what is added to `written` and the arguments left, or `none` where
the function returns -1. -/
def sprintfConversion (conv : Conversion) (args : List Arg) (maxrem : Nat)
    (string : List (BitVec 8)) :
    Except Stop (Option (Nat × List Arg) × List (BitVec 8)) := do
  match conv with
  | .c =>
    let (v, args) ← vaInt args
    if maxrem = 0 then return (none, string)
    else return (some (1, args), ← append string (v.setWidth 8))
  | .s =>
    let (str, args) ← vaStr args
    let len := str.bytes.length
    if maxrem < len then return (none, string)
    else return (some (len, args), ← appendFrom string str.bytes len)
  | conv =>
    let (i2, args) ← numberText conv args
    let length ← strlen i2
    if maxrem = 0 then return (none, string)
    else return (some (1, args), ← appendFrom string i2 (printedLength length))

/-- The loop of `sprintf`.  A round takes at least one byte of the format. -/
def sprintfLoop : Nat → List (BitVec 8) → List Arg → Nat → List (BitVec 8) →
    Except Stop (Int × List (BitVec 8))
  | 0, _, _, _, _ => .error .fuel
  | _ + 1, [], _, written, string => .ok (written, string)
  | fuel + 1, b :: rest, args, written, string =>
    let maxrem := intMax - written
    if b ≠ percent ∨ rest.head? = some percent then
      let format := if b = percent then rest else b :: rest
      let amount := literalLength format
      if maxrem < amount then .ok (-1, string)
      else do
        let string ← appendFrom string format amount
        sprintfLoop fuel (format.drop amount) args (written + amount) string
    else
      match rest.head?.bind conversionOf with
      | some conv => do
        match ← sprintfConversion conv args maxrem string with
        | (none, string) => return (-1, string)
        | (some (n, args), string) => sprintfLoop fuel rest.tail args (written + n) string
      | none =>
        let len := (b :: rest).length
        if maxrem < len then .ok (-1, string)
        else do
          let string ← appendFrom string (b :: rest) len
          sprintfLoop fuel ((b :: rest).drop len) args (written + len) string

def sprintf (string : List (BitVec 8)) (format : CString) (args : List Arg) :
    Except Stop (Int × List (BitVec 8)) :=
  sprintfLoop (format.bytes.length + 1) format.bytes args 0 string

/-! ## `vfprintf` -/

/-- `fputchar`, which ignores what the file system answers. -/
def fputchar (out : List (BitVec 8)) (c : BitVec 8) : Int × List (BitVec 8) := (0, out ++ [c])

def eof : Int := -1

/-- The loop of `fprint`, with `count` bytes to go. -/
def fprintLoop (data : List (BitVec 8)) : Nat → Nat → List (BitVec 8) →
    Except Stop (Bool × List (BitVec 8))
  | 0, _, out => .ok (true, out)
  | count + 1, i, out => do
    let (result, out) := fputchar out (← fetch data i)
    if result = eof then return (false, out) else fprintLoop data count (i + 1) out

def fprint (out data : List (BitVec 8)) (length : Nat) : Except Stop (Bool × List (BitVec 8)) :=
  fprintLoop data length 0 out

/-- A conversion of `vfprintf`.  That of `%p` ignores what `fprint` returns. -/
def vfprintfConversion (conv : Conversion) (args : List Arg) (maxrem : Nat)
    (out : List (BitVec 8)) :
    Except Stop (Option (Nat × List Arg) × List (BitVec 8)) := do
  match conv with
  | .c =>
    let (v, args) ← vaInt args
    if maxrem = 0 then return (none, out)
    else
      let (ok, out) ← fprint out [v.setWidth 8] 1
      return (if ok then some (1, args) else none, out)
  | .s =>
    let (str, args) ← vaStr args
    let len := str.bytes.length
    if maxrem < len then return (none, out)
    else
      let (ok, out) ← fprint out str.bytes len
      return (if ok then some (len, args) else none, out)
  | conv =>
    let (i2, args) ← numberText conv args
    let length ← strlen i2
    if maxrem = 0 then return (none, out)
    else
      let (ok, out) ← fprint out i2 (printedLength length)
      return (if ok ∨ conv = .p then some (1, args) else none, out)

/-- The loop of `vfprintf`. -/
def vfprintfLoop : Nat → List (BitVec 8) → List Arg → Nat → List (BitVec 8) →
    Except Stop (Int × List (BitVec 8))
  | 0, _, _, _, _ => .error .fuel
  | _ + 1, [], _, written, out => .ok (written, out)
  | fuel + 1, b :: rest, args, written, out =>
    let maxrem := intMax - written
    if b ≠ percent ∨ rest.head? = some percent then
      let format := if b = percent then rest else b :: rest
      let amount := literalLength format
      if maxrem < amount then .ok (-1, out)
      else do
        match ← fprint out format amount with
        | (false, out) => return (-1, out)
        | (true, out) => vfprintfLoop fuel (format.drop amount) args (written + amount) out
    else
      match rest.head?.bind conversionOf with
      | some conv => do
        match ← vfprintfConversion conv args maxrem out with
        | (none, out) => return (-1, out)
        | (some (n, args), out) => vfprintfLoop fuel rest.tail args (written + n) out
      | none =>
        let len := (b :: rest).length
        if maxrem < len then .ok (-1, out)
        else do
          match ← fprint out (b :: rest) len with
          | (false, out) => return (-1, out)
          | (true, out) => vfprintfLoop fuel ((b :: rest).drop len) args (written + len) out

/-- `vfprintf`, with the bytes it passes to `fputchar`. -/
def vfprintf (format : CString) (args : List Arg) : Except Stop (Int × List (BitVec 8)) :=
  vfprintfLoop (format.bytes.length + 1) format.bytes args 0 []

/-! ## Matching arguments -/

/-- The conversions a format asks for.  An unknown one ends them, for the rest of the
format is then text. -/
def conversions : List (BitVec 8) → List Conversion
  | [] => []
  | [_] => []
  | b :: k :: rest =>
    if b = percent then
      if k = percent then conversions rest
      else
        match conversionOf k with
        | some conv => conv :: conversions rest
        | none => []
    else conversions (k :: rest)

/-- An argument fits a conversion: its type is the one read, and a character is not
the terminator. -/
def Conversion.Takes : Conversion → Arg → Prop
  | .c, .int v => v.setWidth 8 ≠ 0#8
  | .s, .str _ => True
  | .d, .int _ => True
  | .i, .int _ => True
  | .x, .int _ => True
  | .p, .ptr _ => True
  | _, _ => False

/-- There is an argument for each conversion. -/
def Fits : List Conversion → List Arg → Prop
  | [], _ => True
  | _ :: _, [] => False
  | conv :: convs, arg :: args => conv.Takes arg ∧ Fits convs args

/-! ## Formats -/

theorem runLength_le (l : List (BitVec 8)) : runLength l ≤ l.length := by
  induction l with
  | nil => exact Nat.le_refl 0
  | cons c rest ih =>
    rw [runLength, List.length_cons]
    split
    · omega
    · omega

theorem literalLength_le {format : List (BitVec 8)} (hne : format ≠ []) :
    literalLength format ≤ format.length := by
  have hrun := runLength_le format.tail
  have hpos := List.length_pos_of_ne_nil hne
  rw [List.length_tail] at hrun
  rw [literalLength]
  omega

theorem conversions_cons_of_ne {b : BitVec 8} (hb : b ≠ percent) (rest : List (BitVec 8)) :
    conversions (b :: rest) = conversions rest := by
  cases rest with
  | nil => rfl
  | cons k rest => rw [conversions, if_neg hb]

/-- A literal run asks for nothing. -/
theorem conversions_drop_run (l : List (BitVec 8)) :
    conversions (l.drop (runLength l)) = conversions l := by
  induction l with
  | nil => rfl
  | cons c rest ih =>
    rw [runLength]
    by_cases hc : c = percent
    · rw [if_pos hc, List.drop_zero]
    · rw [if_neg hc, List.drop_succ_cons, ih, conversions_cons_of_ne hc]

/-- What is left after a literal, an escaped percent sign included, asks for the same
conversions. -/
theorem conversions_literal {b : BitVec 8} {rest : List (BitVec 8)}
    (h : b ≠ percent ∨ rest.head? = some percent) :
    conversions ((if b = percent then rest else b :: rest).drop
      (literalLength (if b = percent then rest else b :: rest))) = conversions (b :: rest) := by
  by_cases hb : b = percent
  · have hhead := h.resolve_left (fun hne => hne hb)
    rw [if_pos hb]
    cases rest with
    | nil => simp at hhead
    | cons k rest =>
      obtain rfl : k = percent := by simpa using hhead
      rw [literalLength, List.tail_cons, Nat.add_comm, List.drop_succ_cons, conversions_drop_run,
        conversions, if_pos hb, if_pos rfl]
  · rw [if_neg hb, literalLength, List.tail_cons, Nat.add_comm, List.drop_succ_cons,
      conversions_drop_run, conversions_cons_of_ne hb]

theorem conversions_conversion {b k : BitVec 8} {rest : List (BitVec 8)} {conv : Conversion}
    (hb : b = percent) (hk : k ≠ percent) (hconv : conversionOf k = some conv) :
    conversions (b :: k :: rest) = conv :: conversions rest := by
  rw [conversions, if_pos hb, if_neg hk, hconv]

/-! ## What is written -/

theorem Holds.nil_of_head {string : List (BitVec 8)} (h : string.head? = some 0#8) :
    Holds string [] := by
  cases string with
  | nil => simp at h
  | cons c rest =>
    obtain rfl : c = 0#8 := by simpa using h
    exact ⟨rest, rfl, by simp⟩

theorem appendFrom_spec {string s data : List (BitVec 8)} {count : Nat} (h : Holds string s)
    (hdata : count ≤ data.length) (hnul : 0#8 ∉ data.take count)
    (hroom : s.length + count < string.length) :
    ∃ string', appendFrom string data count = .ok string' ∧
      Holds string' (s ++ data.take count) ∧ string'.length = string.length := by
  induction count with
  | zero => exact ⟨string, rfl, by simpa using h, rfl⟩
  | succ count ih =>
    have hlt : count < data.length := by omega
    have htake : data.take (count + 1) = data.take count ++ [data[count]] :=
      List.take_succ_eq_append_getElem hlt
    rw [htake] at hnul ⊢
    simp only [List.mem_append, List.mem_singleton, not_or] at hnul
    obtain ⟨string₁, hrun, hholds, hlen⟩ := ih (by omega) hnul.1 (by omega)
    obtain ⟨string', happend, hholds', hlen'⟩ := append_spec hholds (c := data[count])
      (fun he => hnul.2 he.symm) (by simp; omega)
    refine ⟨string', ?_, by simpa using hholds', hlen'.trans hlen⟩
    rw [appendFrom] at hrun ⊢
    rw [List.range_succ, List.foldlM_append, hrun, ok_bind, List.foldlM_cons,
      fetch_eq_ok (List.getElem?_eq_getElem hlt), ok_bind, happend]
    rfl

theorem fprintLoop_spec {out data : List (BitVec 8)} {count i : Nat} (h : i + count ≤ data.length) :
    fprintLoop data count i out = .ok (true, out ++ (data.drop i).take count) := by
  induction count generalizing i out with
  | zero => simp [fprintLoop]
  | succ count ih =>
    have hlt : i < data.length := by omega
    have hgood : ¬ (fputchar out data[i]).1 = eof := by simp [fputchar, eof]
    rw [fprintLoop, fetch_eq_ok (List.getElem?_eq_getElem hlt), ok_bind]
    show (if (fputchar out data[i]).1 = eof then _
      else fprintLoop data count (i + 1) (out ++ [data[i]])) = _
    rw [if_neg hgood, ih (by omega), List.drop_eq_getElem_cons hlt, List.take_succ_cons,
      List.append_assoc]
    rfl

/-- `fputchar` never reports an error, so `fprint` passes every byte on. -/
theorem fprint_spec {out data : List (BitVec 8)} {length : Nat} (h : length ≤ data.length) :
    fprint out data length = .ok (true, out ++ data.take length) := by
  rw [fprint, fprintLoop_spec (by omega), List.drop_zero]

theorem printedLength_eq {length : Nat} (h : length < 2 ^ 32) : printedLength length = length := by
  unfold printedLength wsub wrap
  omega

/-- A number is made of an argument that fits, and its text is a string. -/
theorem numberText_spec {conv : Conversion} {arg : Arg} (args : List Arg) (hc : conv ≠ .c)
    (hs : conv ≠ .s) (harg : conv.Takes arg) :
    ∃ i2 text, numberText conv (arg :: args) = .ok (i2, args) ∧ Holds i2 text ∧
      i2.length = 16 := by
  have hzero : Holds scratch [] := ⟨List.replicate 15 0#8, rfl, by simp⟩
  have hlen : scratch.length = 16 := rfl
  have hint : ∀ v base, ∃ i2, intToAsciiBase v scratch base = .ok i2 ∧ i2.length = 16 ∧
      0#8 ∈ i2 := fun v base => intToAsciiBase_spec v base (by omega)
  have htext : ∃ i2, numberText conv (arg :: args) = .ok (i2, args) ∧ i2.length = 16 ∧
      0#8 ∈ i2 := by
    cases conv with
    | c => exact absurd rfl hc
    | s => exact absurd rfl hs
    | p =>
      cases arg with
      | ptr v =>
        obtain ⟨i2, hrun, htext⟩ := hexToAscii_spec v hzero (by omega)
        refine ⟨i2, ?_, htext⟩
        simp only [numberText, vaPtr, ok_bind, hrun]
        rfl
      | int v => exact harg.elim
      | str v => exact harg.elim
    | x =>
      cases arg with
      | int v =>
        obtain ⟨i2, hrun, htext⟩ := hint v 16
        refine ⟨i2, ?_, htext⟩
        simp only [numberText, vaInt, ok_bind, hrun]
        rfl
      | ptr v => exact harg.elim
      | str v => exact harg.elim
    | d | i =>
      cases arg with
      | int v =>
        obtain ⟨i2, hrun, htext⟩ := hint v 10
        refine ⟨i2, ?_, htext⟩
        simp only [numberText, vaInt, ok_bind, intToAscii, hrun]
        rfl
      | ptr v => exact harg.elim
      | str v => exact harg.elim
  obtain ⟨i2, hrun, hlen', hmem⟩ := htext
  obtain ⟨text, hholds⟩ := holds_of_mem hmem
  exact ⟨i2, text, hrun, hholds, hlen'⟩

/-! ## A round -/

/-- What one round does in both formatters: it adds `chunk` to the text. -/
structure SameChunk {α : Type} (ran : List (BitVec 8) → Except Stop (α × List (BitVec 8)))
    (printed : List (BitVec 8) → Except Stop (α × List (BitVec 8))) (r : α)
    (chunk : List (BitVec 8)) : Prop where
  print : ∀ out, printed out = .ok (r, out ++ chunk)
  run : ∀ string s, Holds string s → s.length + chunk.length < string.length →
    ∃ string', ran string = .ok (r, string') ∧ Holds string' (s ++ chunk) ∧
      string'.length = string.length

/-- The conversion does the same in both formatters, and leaves the arguments `args`. -/
def SameConversion (conv : Conversion) (arg : Arg) (args : List Arg) (maxrem : Nat) : Prop :=
  ∃ r chunk, SameChunk (sprintfConversion conv (arg :: args) maxrem)
    (vfprintfConversion conv (arg :: args) maxrem) r chunk ∧
    ∀ n args', r = some (n, args') → args' = args

/-- A round that gives up writes nothing. -/
theorem SameChunk.giveUp {α : Type} (r : α) :
    SameChunk (fun string => .ok (r, string)) (fun out => .ok (r, out)) r [] where
  print := fun out => by rw [List.append_nil]
  run := fun string s h _ => ⟨string, rfl, by rwa [List.append_nil], rfl⟩

/-- Bytes of a string written by a loop over them. -/
theorem SameChunk.copy {α : Type} {data : List (BitVec 8)} {count : Nat} (r : α)
    (hcount : count ≤ data.length) (hnul : 0#8 ∉ data.take count) :
    SameChunk (fun string => do return (r, ← appendFrom string data count))
      (fun out => do
        let (_, out) ← fprint out data count
        return (r, out)) r (data.take count) where
  print := fun out => by
    rw [fprint_spec hcount]
    rfl
  run := fun string s h hroom => by
    rw [List.length_take, Nat.min_eq_left hcount] at hroom
    obtain ⟨string', hrun, hholds, hlen⟩ := appendFrom_spec h hcount hnul hroom
    refine ⟨string', ?_, hholds, hlen⟩
    rw [hrun]
    rfl

theorem sprintfConversion_number {conv : Conversion} (hc : conv ≠ .c) (hs : conv ≠ .s)
    (args : List Arg) (maxrem : Nat) (string : List (BitVec 8)) :
    sprintfConversion conv args maxrem string = (do
      let (i2, args) ← numberText conv args
      let length ← strlen i2
      if maxrem = 0 then return (none, string)
      else return (some (1, args), ← appendFrom string i2 (printedLength length))) := by
  cases conv with
  | c => exact absurd rfl hc
  | s => exact absurd rfl hs
  | d | i | x | p => rfl

theorem vfprintfConversion_number {conv : Conversion} (hc : conv ≠ .c) (hs : conv ≠ .s)
    (args : List Arg) (maxrem : Nat) (out : List (BitVec 8)) :
    vfprintfConversion conv args maxrem out = (do
      let (i2, args) ← numberText conv args
      let length ← strlen i2
      if maxrem = 0 then return (none, out)
      else
        let (ok, out) ← fprint out i2 (printedLength length)
        return (if ok ∨ conv = .p then some (1, args) else none, out)) := by
  cases conv with
  | c => exact absurd rfl hc
  | s => exact absurd rfl hs
  | d | i | x | p => rfl

theorem number_same {conv : Conversion} {arg : Arg} (args : List Arg) (maxrem : Nat)
    (hc : conv ≠ .c) (hs : conv ≠ .s) (harg : conv.Takes arg) :
    SameConversion conv arg args maxrem := by
  obtain ⟨i2, text, hnumber, hholds, hlen⟩ := numberText_spec args hc hs harg
  have hshort := hholds.length_lt
  have hprinted : printedLength text.length = text.length := printedLength_eq (by omega)
  have htake : i2.take text.length = text := by
    obtain ⟨rest, rfl, -⟩ := hholds
    simp
  have hnul : 0#8 ∉ i2.take text.length := by
    obtain ⟨rest, -, hnul⟩ := hholds
    rwa [htake]
  by_cases hmax : maxrem = 0
  · refine ⟨none, [], ?_, by simp⟩
    have hgive := SameChunk.giveUp (none : Option (Nat × List Arg))
    refine ⟨fun out => ?_, fun string s h hroom => ?_⟩
    · rw [vfprintfConversion_number hc hs, hnumber, ok_bind]
      simp only [hholds.strlen, ok_bind, hmax, if_true]
      exact hgive.print out
    · rw [sprintfConversion_number hc hs, hnumber, ok_bind]
      simp only [hholds.strlen, ok_bind, hmax, if_true]
      exact hgive.run string s h hroom
  · have hcopy := SameChunk.copy (some (1, args)) (show text.length ≤ i2.length by omega) hnul
    refine ⟨some (1, args), i2.take text.length, ⟨fun out => ?_, fun string s h hroom => ?_⟩, ?_⟩
    · rw [vfprintfConversion_number hc hs, hnumber, ok_bind]
      simp only [hholds.strlen, ok_bind, hmax, if_false, hprinted]
      rw [fprint_spec (by omega)]
      rfl
    · rw [sprintfConversion_number hc hs, hnumber, ok_bind]
      simp only [hholds.strlen, ok_bind, hmax, if_false, hprinted]
      exact hcopy.run string s h hroom
    · intro n args' he
      exact (Prod.mk.inj (Option.some.inj he)).2.symm

theorem char_same {v : BitVec 32} (args : List Arg) (maxrem : Nat) (hv : v.setWidth 8 ≠ 0#8) :
    SameConversion .c (.int v) args maxrem := by
  by_cases hmax : maxrem = 0
  · refine ⟨none, [], ?_, by simp⟩
    have hgive := SameChunk.giveUp (none : Option (Nat × List Arg))
    refine ⟨fun out => ?_, fun string s h hroom => ?_⟩
    · simp only [vfprintfConversion, vaInt, ok_bind, hmax, if_true]
      exact hgive.print out
    · simp only [sprintfConversion, vaInt, ok_bind, hmax, if_true]
      exact hgive.run string s h hroom
  · refine ⟨some (1, args), [v.setWidth 8], ⟨fun out => ?_, fun string s h hroom => ?_⟩, ?_⟩
    · simp only [vfprintfConversion, vaInt, ok_bind, hmax, if_false]
      rw [fprint_spec (by simp)]
      rfl
    · obtain ⟨string', hrun, hholds, hlen⟩ := append_spec h hv (by simpa using hroom)
      refine ⟨string', ?_, hholds, hlen⟩
      simp only [sprintfConversion, vaInt, ok_bind, hmax, if_false, hrun]
      rfl
    · intro n args' he
      exact (Prod.mk.inj (Option.some.inj he)).2.symm

theorem str_same (str : CString) (args : List Arg) (maxrem : Nat) :
    SameConversion .s (.str str) args maxrem := by
  by_cases hmax : maxrem < str.bytes.length
  · refine ⟨none, [], ?_, by simp⟩
    have hgive := SameChunk.giveUp (none : Option (Nat × List Arg))
    refine ⟨fun out => ?_, fun string s h hroom => ?_⟩
    · simp only [vfprintfConversion, vaStr, ok_bind, hmax, if_true]
      exact hgive.print out
    · simp only [sprintfConversion, vaStr, ok_bind, hmax, if_true]
      exact hgive.run string s h hroom
  · have hcopy := SameChunk.copy (some (str.bytes.length, args)) (Nat.le_refl str.bytes.length)
      (by simpa using str.noNul)
    refine ⟨some (str.bytes.length, args), str.bytes.take str.bytes.length,
      ⟨fun out => ?_, fun string s h hroom => ?_⟩, ?_⟩
    · simp only [vfprintfConversion, vaStr, ok_bind, hmax, if_false]
      rw [fprint_spec (Nat.le_refl _)]
      rfl
    · simp only [sprintfConversion, vaStr, ok_bind, hmax, if_false]
      exact hcopy.run string s h hroom
    · intro n args' he
      exact (Prod.mk.inj (Option.some.inj he)).2.symm

/-- **A conversion writes the same in both formatters.** -/
theorem conversion_same {conv : Conversion} {arg : Arg} (args : List Arg) (maxrem : Nat)
    (harg : conv.Takes arg) : SameConversion conv arg args maxrem := by
  by_cases hc : conv = .c
  · subst hc
    cases arg with
    | int v => exact char_same args maxrem harg
    | str s => exact harg.elim
    | ptr v => exact harg.elim
  · by_cases hs : conv = .s
    · subst hs
      cases arg with
      | str s => exact str_same s args maxrem
      | int v => exact harg.elim
      | ptr v => exact harg.elim
    · exact number_same args maxrem hc hs harg

/-! ## The loops -/

/-- The same, where the two are only known to run alike. -/
theorem SameChunk.congr {α : Type} {ran printed ran' printed' :
    List (BitVec 8) → Except Stop (α × List (BitVec 8))} {r : α} {chunk : List (BitVec 8)}
    (h : SameChunk ran printed r chunk) (hran : ∀ string, ran' string = ran string)
    (hprinted : ∀ out, printed' out = printed out) : SameChunk ran' printed' r chunk where
  print := fun out => by
    rw [hprinted]
    exact h.print out
  run := fun string s hholds hroom => by
    rw [hran]
    exact h.run string s hholds hroom

/-- One chunk after another; what comes after may look at the first result. -/
theorem SameChunk.bind {α β : Type}
    {ran printed : List (BitVec 8) → Except Stop (α × List (BitVec 8))}
    {ran' printed' : α → List (BitVec 8) → Except Stop (β × List (BitVec 8))} {r : α} {v : β}
    {chunk chunk' : List (BitVec 8)} (h : SameChunk ran printed r chunk)
    (h' : SameChunk (ran' r) (printed' r) v chunk') :
    SameChunk (fun string => ran string >>= fun x => ran' x.1 x.2)
      (fun out => printed out >>= fun x => printed' x.1 x.2) v (chunk ++ chunk') where
  print := fun out => by
    rw [h.print, ok_bind, ← List.append_assoc]
    exact h'.print (out ++ chunk)
  run := fun string s hholds hroom => by
    rw [List.length_append] at hroom
    obtain ⟨string₁, hrun, hholds₁, hlen₁⟩ := h.run string s hholds (by omega)
    obtain ⟨string', hrun', hholds', hlen'⟩ := h'.run string₁ (s ++ chunk) hholds₁
      (by simp only [List.length_append]; omega)
    refine ⟨string', ?_, by rwa [← List.append_assoc], hlen'.trans hlen₁⟩
    rw [hrun, ok_bind]
    exact hrun'

/-- A piece of the format written as it stands, and what follows. -/
theorem SameChunk.text {ran printed : List (BitVec 8) → Except Stop (Int × List (BitVec 8))}
    {data chunk : List (BitVec 8)} {count : Nat} {v : Int} (hcount : count ≤ data.length)
    (hnul : 0#8 ∉ data) (h : SameChunk ran printed v chunk) :
    SameChunk (fun string => do
        let string ← appendFrom string data count
        ran string)
      (fun out => do
        match ← fprint out data count with
        | (false, out) => return (-1, out)
        | (true, out) => printed out) v (data.take count ++ chunk) := by
  have hcopy := SameChunk.copy true hcount fun hin => hnul (List.mem_of_mem_take hin)
  refine (@SameChunk.bind _ _ _ _ (fun _ string => ran string) (fun _ out => printed out) _ _ _ _
    hcopy h).congr (fun string => ?_) fun out => ?_
  · cases appendFrom string data count <;> rfl
  · rw [fprint_spec hcount]
    rfl

/-- What follows a conversion in the loops. -/
def afterConversion (loop : List Arg → Nat → List (BitVec 8) → Except Stop (Int × List (BitVec 8)))
    (written : Nat) : Option (Nat × List Arg) → List (BitVec 8) →
      Except Stop (Int × List (BitVec 8))
  | none, text => .ok (-1, text)
  | some (n, args), text => loop args (written + n) text

/-- A piece of the format and what follows it, unless the count would pass `INT_MAX`. -/
theorem SameChunk.round {ran printed : List (BitVec 8) → Except Stop (Int × List (BitVec 8))}
    {data : List (BitVec 8)} {count : Nat} (maxrem : Nat) (hcount : count ≤ data.length)
    (hnul : 0#8 ∉ data) (h : ∃ v chunk, SameChunk ran printed v chunk) :
    ∃ v chunk, SameChunk
      (fun string =>
        if maxrem < count then .ok (-1, string)
        else do
          let string ← appendFrom string data count
          ran string)
      (fun out =>
        if maxrem < count then .ok (-1, out)
        else do
          match ← fprint out data count with
          | (false, out) => return (-1, out)
          | (true, out) => printed out) v chunk := by
  by_cases hmax : maxrem < count
  · simp only [if_pos hmax]
    exact ⟨-1, [], SameChunk.giveUp (-1 : Int)⟩
  · simp only [if_neg hmax]
    obtain ⟨v, chunk, h⟩ := h
    exact ⟨v, _, SameChunk.text hcount hnul h⟩

/-- From here on both loops write the same and return the same. -/
def LoopsAgree (fuel : Nat) (format : List (BitVec 8)) (args : List Arg) (written : Nat) : Prop :=
  ∃ v chunk, SameChunk (sprintfLoop fuel format args written)
    (vfprintfLoop fuel format args written) v chunk

/-- A literal run, or an escaped percent sign and the run behind it. -/
theorem loopsAgree_literal {fuel : Nat} {b : BitVec 8} {rest format : List (BitVec 8)}
    {args : List Arg} {written : Nat} (hlit : b ≠ percent ∨ rest.head? = some percent)
    (hformat : (if b = percent then rest else b :: rest) = format) (hne : format ≠ [])
    (hnul : 0#8 ∉ format)
    (h : LoopsAgree fuel (format.drop (literalLength format)) args
      (written + literalLength format)) :
    LoopsAgree (fuel + 1) (b :: rest) args written := by
  obtain ⟨v, chunk, hround⟩ := SameChunk.round (intMax - written) (literalLength_le hne) hnul h
  refine ⟨v, chunk, hround.congr (fun string => ?_) fun out => ?_⟩
  · simp only [sprintfLoop, if_pos hlit, hformat]
  · simp only [vfprintfLoop, if_pos hlit, hformat]

/-- An unknown conversion, or a percent sign at the end: the rest is text. -/
theorem loopsAgree_rest {fuel : Nat} {b : BitVec 8} {rest : List (BitVec 8)} {args : List Arg}
    {written : Nat} (hlit : ¬(b ≠ percent ∨ rest.head? = some percent))
    (hconv : rest.head?.bind conversionOf = none) (hnul : 0#8 ∉ b :: rest)
    (h : LoopsAgree fuel ((b :: rest).drop (b :: rest).length) args
      (written + (b :: rest).length)) :
    LoopsAgree (fuel + 1) (b :: rest) args written := by
  obtain ⟨v, chunk, hround⟩ := SameChunk.round (intMax - written) (Nat.le_refl _) hnul h
  refine ⟨v, chunk, hround.congr (fun string => ?_) fun out => ?_⟩
  · simp only [sprintfLoop, if_neg hlit, hconv]
  · simp only [vfprintfLoop, if_neg hlit, hconv]

/-- A conversion, and what follows it. -/
theorem loopsAgree_conversion {fuel : Nat} {b k : BitVec 8} {rest : List (BitVec 8)} {arg : Arg}
    {args : List Arg} {written : Nat} {conv : Conversion}
    (hlit : ¬(b ≠ percent ∨ (k :: rest).head? = some percent)) (hof : conversionOf k = some conv)
    (harg : conv.Takes arg) (h : ∀ n, LoopsAgree fuel rest args (written + n)) :
    LoopsAgree (fuel + 1) (b :: k :: rest) (arg :: args) written := by
  obtain ⟨r, chunk, hsame, hargs⟩ := conversion_same args (intMax - written) harg
  have hafter : ∃ v chunk', SameChunk (afterConversion (sprintfLoop fuel rest) written r)
      (afterConversion (vfprintfLoop fuel rest) written r) v chunk' := by
    cases r with
    | none => exact ⟨-1, [], SameChunk.giveUp (-1 : Int)⟩
    | some ret =>
      obtain ⟨n, args'⟩ := ret
      obtain rfl := hargs n args' rfl
      exact h n
  obtain ⟨v, chunk', hrest⟩ := hafter
  have hconv : (k :: rest).head?.bind conversionOf = some conv := hof
  refine ⟨v, _, (hsame.bind hrest).congr (fun string => ?_) fun out => ?_⟩
  · simp only [sprintfLoop, if_neg hlit, hconv, List.tail_cons]
    cases sprintfConversion conv (arg :: args) (intMax - written) string with
    | error e => rfl
    | ok x =>
      obtain ⟨_ | ⟨n, args'⟩, string'⟩ := x
      · rfl
      · rfl
  · simp only [vfprintfLoop, if_neg hlit, hconv, List.tail_cons]
    cases vfprintfConversion conv (arg :: args) (intMax - written) out with
    | error e => rfl
    | ok x =>
      obtain ⟨_ | ⟨n, args'⟩, out'⟩ := x
      · rfl
      · rfl

/-- The piece of format a literal round starts from: `%%` leaves its second sign. -/
theorem literalPart_spec {b : BitVec 8} {rest : List (BitVec 8)}
    (hlit : b ≠ percent ∨ rest.head? = some percent) :
    (if b = percent then rest else b :: rest) ≠ [] ∧
      (if b = percent then rest else b :: rest) <:+ b :: rest := by
  by_cases hb : b = percent
  · rw [if_pos hb]
    have hhead := hlit.resolve_left (not_not.mpr hb)
    exact ⟨fun hnil => by simp [hnil] at hhead, List.suffix_cons b rest⟩
  · rw [if_neg hb]
    exact ⟨List.cons_ne_nil b rest, List.suffix_rfl⟩

/-- **The loops agree**, from the same format, arguments and count. -/
theorem loops_agree {fuel : Nat} {format : List (BitVec 8)} {args : List Arg} (written : Nat)
    (hfuel : format.length < fuel) (hnul : 0#8 ∉ format) (hfits : Fits (conversions format) args) :
    LoopsAgree fuel format args written := by
  induction fuel generalizing format args written with
  | zero => omega
  | succ fuel ih =>
    cases format with
    | nil =>
      exact ⟨written, [], (SameChunk.giveUp (written : Int)).congr (fun _ => rfl) fun _ => rfl⟩
    | cons b rest =>
      by_cases hlit : b ≠ percent ∨ rest.head? = some percent
      · have hconv := conversions_literal hlit
        obtain ⟨hne, hsuffix⟩ := literalPart_spec hlit
        generalize hformat : (if b = percent then rest else b :: rest) = format at hconv hne hsuffix
        have hnul' : 0#8 ∉ format := fun hin => hnul (hsuffix.subset hin)
        have hpos : 1 ≤ literalLength format := Nat.le_add_right 1 _
        have hamount := literalLength_le hne
        have hlen := hsuffix.length_le
        apply loopsAgree_literal hlit hformat hne hnul'
        apply ih
        · rw [List.length_drop]
          omega
        · exact fun hin => hnul' (List.mem_of_mem_drop hin)
        · rwa [hconv]
      · obtain ⟨hb, hhead⟩ := not_or.mp hlit
        have hb : b = percent := not_not.mp hb
        cases hconv : rest.head?.bind conversionOf with
        | some conv =>
          cases rest with
          | nil => simp at hconv
          | cons k rest =>
            have hk : k ≠ percent := fun he => hhead (by rw [he, List.head?_cons])
            rw [conversions_conversion hb hk hconv] at hfits
            simp only [List.length_cons] at hfuel
            cases args with
            | nil => exact hfits.elim
            | cons arg args =>
              apply loopsAgree_conversion hlit hconv hfits.1
              intro n
              apply ih (written + n) (by omega) _ hfits.2
              exact fun hin => hnul (by simp [hin])
        | none =>
          have hdrop : (b :: rest).drop (b :: rest).length = [] := List.drop_length
          apply loopsAgree_rest hlit hconv hnul
          rw [hdrop]
          apply ih
          · simp at hfuel ⊢
            omega
          · simp
          · trivial

/-- **The two formatters agree.**  For a format with an argument for each conversion,
`vfprintf` returns, and into an empty string with room `sprintf` writes the bytes that
`vfprintf` passes on and returns the same value. -/
theorem formatters_agree (format : CString) {args : List Arg}
    (hfits : Fits (conversions format.bytes) args) :
    ∃ v out, vfprintf format args = .ok (v, out) ∧
      ∀ string : List (BitVec 8), string.head? = some 0#8 → out.length < string.length →
        ∃ string', sprintf string format args = .ok (v, string') ∧ Holds string' out := by
  obtain ⟨v, out, h⟩ := loops_agree 0 (Nat.lt_succ_self format.bytes.length) format.noNul hfits
  refine ⟨v, out, ?_, fun string hempty hroom => ?_⟩
  · have hprint := h.print []
    rwa [List.nil_append] at hprint
  · obtain ⟨string', hrun, hholds, -⟩ :=
      h.run string [] (Holds.nil_of_head hempty) (by simpa using hroom)
    exact ⟨string', hrun, by simpa using hholds⟩

/-- `"%d%%%c%"` with -42 and a letter, into twelve bytes. -/
def mixedFormat : CString where
  bytes := [0x25#8, 0x64#8, 0x25#8, 0x25#8, 0x25#8, 0x63#8, 0x25#8]
  noNul := by decide

theorem formatters_agree_mixedFormat :
    vfprintf mixedFormat [.int (-42#32), .int 0x41#32] =
        .ok (4, [0x2D#8, 0x34#8, 0x32#8, 0x25#8, 0x41#8, 0x25#8]) ∧
      ∃ v out, vfprintf mixedFormat [.int (-42#32), .int 0x41#32] = .ok (v, out) ∧
        ∀ string : List (BitVec 8), string.head? = some 0#8 → out.length < string.length →
          ∃ string', sprintf string mixedFormat [.int (-42#32), .int 0x41#32] = .ok (v, string') ∧
            Holds string' out := by
  have hfits : Fits (conversions mixedFormat.bytes) [.int (-42#32), .int 0x41#32] := by
    refine ⟨trivial, ?_, trivial⟩
    show (0x41#32).setWidth 8 ≠ 0#8
    decide
  exact ⟨by decide +kernel, formatters_agree mixedFormat hfits⟩

end Libc
end Medusa
