import Medusa.Libc.Numbers
import Medusa.Libc.Printf

/-!
# Formats as pieces

Both formatters are one loop over two parameters: where a character goes, and the
array that a number is made in.  A format with matching arguments is a list of
pieces; the loop writes one after another, counts them, and gives up at the piece
that would bring the count above `INT_MAX`.  The count of a number is one.
-/

namespace Medusa
namespace Libc

open Machine Kernel

/-! ## One loop -/

section Loop

variable {σ : Type} (putc : σ → BitVec 8 → Except Stop σ) (i2 : List (BitVec 8))

/-- The first `count` bytes of `data`, one by one. -/
def copyFrom (s : σ) (data : List (BitVec 8)) (count : Nat) : Except Stop σ :=
  (List.range count).foldlM (fun s i => do putc s (← fetch data i)) s

/-- The text of a number, made in the array `i2`. -/
def numberTextIn (conv : Conversion) (args : List Arg) :
    Except Stop (List (BitVec 8) × List Arg) := do
  match conv with
  | .p =>
    let (v, args) ← vaPtr args
    return (← hexToAscii v i2, args)
  | .x =>
    let (v, args) ← vaInt args
    return (← intToAsciiBase v i2 16, args)
  | _ =>
    let (v, args) ← vaInt args
    return (← intToAscii v i2, args)

/-- A conversion: what is added to `written` and the arguments left, or `none` where
the function returns -1. -/
def conversionIn (conv : Conversion) (args : List Arg) (maxrem : Nat) (s : σ) :
    Except Stop (Option (Nat × List Arg) × σ) := do
  match conv with
  | .c =>
    let (v, args) ← vaInt args
    if maxrem = 0 then return (none, s)
    else return (some (1, args), ← putc s (v.setWidth 8))
  | .s =>
    let (str, args) ← vaStr args
    let len := str.bytes.length
    if maxrem < len then return (none, s)
    else return (some (len, args), ← copyFrom putc s str.bytes len)
  | conv =>
    let (text, args) ← numberTextIn i2 conv args
    let length ← strlen text
    if maxrem = 0 then return (none, s)
    else return (some (1, args), ← copyFrom putc s text (printedLength length))

def formatLoop : Nat → List (BitVec 8) → List Arg → Nat → σ → Except Stop (Int × σ)
  | 0, _, _, _, _ => .error .fuel
  | _ + 1, [], _, written, s => .ok (written, s)
  | fuel + 1, b :: rest, args, written, s =>
    let maxrem := intMax - written
    if b ≠ percent ∨ rest.head? = some percent then
      let format := if b = percent then rest else b :: rest
      let amount := literalLength format
      if maxrem < amount then .ok (-1, s)
      else do
        let s ← copyFrom putc s format amount
        formatLoop fuel (format.drop amount) args (written + amount) s
    else
      match rest.head?.bind conversionOf with
      | some conv => do
        match ← conversionIn putc i2 conv args maxrem s with
        | (none, s) => return (-1, s)
        | (some (n, args), s) => formatLoop fuel rest.tail args (written + n) s
      | none =>
        let len := (b :: rest).length
        if maxrem < len then .ok (-1, s)
        else do
          let s ← copyFrom putc s (b :: rest) len
          formatLoop fuel ((b :: rest).drop len) args (written + len) s

def formatIn (format : CString) (args : List Arg) (s : σ) : Except Stop (Int × σ) :=
  formatLoop putc i2 (format.bytes.length + 1) format.bytes args 0 s

end Loop

/-- `fputchar`, which always answers zero. -/
def push (out : List (BitVec 8)) (c : BitVec 8) : Except Stop (List (BitVec 8)) :=
  .ok (fputchar out c).2

theorem sprintfLoop_eq (fuel : Nat) (format : List (BitVec 8)) (args : List Arg) (written : Nat)
    (string : List (BitVec 8)) :
    sprintfLoop fuel format args written string =
      formatLoop append scratch fuel format args written string := by
  induction fuel generalizing format args written string with
  | zero => rfl
  | succ fuel ih =>
    cases format with
    | nil => rfl
    | cons b rest =>
      rw [sprintfLoop, formatLoop]
      simp only [ih]
      by_cases hlit : b ≠ percent ∨ rest.head? = some percent
      · simp only [if_pos hlit]
        rfl
      · simp only [if_neg hlit]
        cases rest.head?.bind conversionOf with
        | none => rfl
        | some conv =>
          have hconv : sprintfConversion conv args (intMax - written) string =
              conversionIn append scratch conv args (intMax - written) string := rfl
          dsimp only
          rw [hconv]
          cases conversionIn append scratch conv args (intMax - written) string with
          | error e => rfl
          | ok r =>
            obtain ⟨_ | ⟨n, args⟩, string⟩ := r
            · rfl
            · rfl

/-- **`sprintf`** is the loop over `append`. -/
theorem sprintf_eq_formatIn (string : List (BitVec 8)) (format : CString) (args : List Arg) :
    sprintf string format args = formatIn append scratch format args string :=
  sprintfLoop_eq _ _ _ _ _

theorem fprint_eq (out data : List (BitVec 8)) (count : Nat) :
    fprint out data count = copyFrom push out data count >>= fun out => .ok (true, out) := by
  have hgo : ∀ i out, fprintLoop data count i out =
      (List.range' i count).foldlM (fun out i => do push out (← fetch data i)) out >>=
        fun out => .ok (true, out) := by
    induction count with
    | zero => exact fun i out => rfl
    | succ count ih =>
      intro i out
      rw [fprintLoop, List.range'_succ, List.foldlM_cons]
      cases fetch data i with
      | error e => rfl
      | ok c =>
        rw [ok_bind, ok_bind, push, ok_bind, ← ih]
        exact if_neg (by simp [eof])
  rw [fprint, hgo, copyFrom, List.range_eq_range']

theorem vfprintfConversion_eq (conv : Conversion) (args : List Arg) (maxrem : Nat)
    (out : List (BitVec 8)) :
    vfprintfConversion conv args maxrem out =
      conversionIn push scratch conv args maxrem out := by
  by_cases hc : conv = .c
  · subst hc
    rw [vfprintfConversion, conversionIn]
    cases vaInt args with
    | error e => rfl
    | ok r =>
      simp only [ok_bind, fprint_eq]
      split
      · rfl
      · rfl
  · by_cases hs : conv = .s
    · subst hs
      rw [vfprintfConversion, conversionIn]
      cases vaStr args with
      | error e => rfl
      | ok r =>
        simp only [ok_bind, fprint_eq]
        split
        · rfl
        · cases copyFrom push out r.1.bytes r.1.bytes.length with
          | error e => rfl
          | ok out => rfl
    · have hright : conversionIn push scratch conv args maxrem out = (do
          let (text, args) ← numberText conv args
          let length ← strlen text
          if maxrem = 0 then return (none, out)
          else return (some (1, args), ← copyFrom push out text (printedLength length))) := by
        cases conv with
        | c => exact absurd rfl hc
        | s => exact absurd rfl hs
        | d | i | x | p => rfl
      rw [vfprintfConversion_number hc hs, hright]
      cases numberText conv args with
      | error e => rfl
      | ok r =>
        rw [ok_bind, ok_bind]
        dsimp only
        cases strlen r.1 with
        | error e => rfl
        | ok length =>
          simp only [ok_bind, fprint_eq]
          split
          · rfl
          · cases copyFrom push out r.1 (printedLength length) with
            | error e => rfl
            | ok out => rfl

theorem vfprintfLoop_eq (fuel : Nat) (format : List (BitVec 8)) (args : List Arg) (written : Nat)
    (out : List (BitVec 8)) :
    vfprintfLoop fuel format args written out =
      formatLoop push scratch fuel format args written out := by
  induction fuel generalizing format args written out with
  | zero => rfl
  | succ fuel ih =>
    cases format with
    | nil => rfl
    | cons b rest =>
      rw [vfprintfLoop, formatLoop]
      simp only [ih]
      by_cases hlit : b ≠ percent ∨ rest.head? = some percent
      · simp only [if_pos hlit, fprint_eq]
        generalize (if b = percent then rest else b :: rest) = format
        split
        · rfl
        · cases copyFrom push out format (literalLength format) with
          | error e => rfl
          | ok out => rfl
      · simp only [if_neg hlit]
        cases rest.head?.bind conversionOf with
        | none =>
          simp only [fprint_eq]
          split
          · rfl
          · cases copyFrom push out (b :: rest) (b :: rest).length with
            | error e => rfl
            | ok out => rfl
        | some conv =>
          dsimp only
          rw [vfprintfConversion_eq]
          cases conversionIn push scratch conv args (intMax - written) out with
          | error e => rfl
          | ok r =>
            obtain ⟨_ | ⟨n, args⟩, out⟩ := r
            · rfl
            · rfl

/-- **`vfprintf`** is the loop over `fputchar`. -/
theorem vfprintf_eq_formatIn (format : CString) (args : List Arg) :
    vfprintf format args = formatIn push scratch format args [] :=
  vfprintfLoop_eq _ _ _ _ _

/-! ## Pieces -/

/-- The text that a conversion makes of a number. -/
def numberOut : Conversion → BitVec 32 → List (BitVec 8)
  | .p, v => hexText v
  | .x, v => intText v 16
  | _, v => intText v 10

/-- What one round of the loop writes: text of the format or of an argument, or a
number. -/
inductive Piece where
  | text (bytes : List (BitVec 8))
  | number (conv : Conversion) (v : BitVec 32)

namespace Piece

def output : Piece → List (BitVec 8)
  | text bytes => bytes
  | number conv v => numberOut conv v

/-- What the round adds to `written`. -/
def count : Piece → Nat
  | text bytes => bytes.length
  | number _ _ => 1

/-- The number that the round converts. -/
def converted : Piece → List (Conversion × BitVec 32)
  | text _ => []
  | number conv v => [(conv, v)]

/-- The conversion stays inside an array of `room` bytes. -/
def Fits (room : Nat) : Piece → Prop
  | text _ => True
  | number conv v => (numberOut conv v).length < room

instance (room : Nat) : DecidablePred (Fits room)
  | text _ => inferInstanceAs (Decidable True)
  | number conv v => inferInstanceAs (Decidable ((numberOut conv v).length < room))

theorem fits_text (room : Nat) (bytes : List (BitVec 8)) : (text bytes).Fits room := trivial

/-- The piece of a conversion. -/
def ofArg : Conversion → Arg → Piece
  | .c, .int v => text [v.setWidth 8]
  | _, .str s => text s.bytes
  | conv, .int v => number conv v
  | conv, .ptr v => number conv v

end Piece

/-- The argument has the type that the conversion reads. -/
def Conversion.Reads : Conversion → Arg → Prop
  | .c, .int _ => True
  | .s, .str _ => True
  | .d, .int _ => True
  | .i, .int _ => True
  | .x, .int _ => True
  | .p, .ptr _ => True
  | _, _ => False

/-- The arguments match the conversions: there is one of the right type for each. -/
def Matches : List Conversion → List Arg → Prop
  | [], _ => True
  | _ :: _, [] => False
  | conv :: convs, arg :: args => conv.Reads arg ∧ Matches convs args

/-- The pieces of a format, one for each round of the loop. -/
def piecesLoop : Nat → List (BitVec 8) → List Arg → List Piece
  | 0, _, _ => []
  | _ + 1, [], _ => []
  | fuel + 1, b :: rest, args =>
    if b ≠ percent ∨ rest.head? = some percent then
      let format := if b = percent then rest else b :: rest
      let amount := literalLength format
      .text (format.take amount) :: piecesLoop fuel (format.drop amount) args
    else
      match rest.head?.bind conversionOf with
      | some conv => args.head?.elim [] fun arg =>
          .ofArg conv arg :: piecesLoop fuel rest.tail args.tail
      | none => [.text (b :: rest)]

def pieces (format : CString) (args : List Arg) : List Piece :=
  piecesLoop (format.bytes.length + 1) format.bytes args

section Run

variable {σ : Type} (putc : σ → BitVec 8 → Except Stop σ)

/-- The loop over pieces. -/
def runPieces (room : Nat) : List Piece → Nat → σ → Except Stop (Int × σ)
  | [], written, s => .ok (written, s)
  | p :: ps, written, s =>
    if ¬ p.Fits room then .error .fault
    else if intMax - written < p.count then .ok (-1, s)
    else do
      let s ← p.output.foldlM putc s
      runPieces room ps (written + p.count) s

variable {putc}

theorem runPieces_text (room : Nat) (bytes : List (BitVec 8)) (ps : List Piece) (written : Nat)
    (s : σ) :
    runPieces putc room (.text bytes :: ps) written s =
      if intMax - written < bytes.length then .ok (-1, s)
      else bytes.foldlM putc s >>= runPieces putc room ps (written + bytes.length) :=
  if_neg (not_not.mpr (Piece.fits_text room bytes))

theorem copyFrom_eq {data : List (BitVec 8)} {count : Nat} (hcount : count ≤ data.length) (s : σ) :
    copyFrom putc s data count = (data.take count).foldlM putc s := by
  induction count with
  | zero => rfl
  | succ count ih =>
    have hprev := ih (by omega)
    have hlt : count < data.length := by omega
    rw [copyFrom] at hprev ⊢
    rw [List.range_succ, List.foldlM_append, hprev, List.take_succ_eq_append_getElem hlt,
      List.foldlM_append]
    simp only [List.foldlM_cons, List.foldlM_nil, fetch_eq_ok (List.getElem?_eq_getElem hlt),
      ok_bind]

/-- A round that writes the first characters of the format. -/
theorem runPieces_take {format : List (BitVec 8)} {amount : Nat} (hamount : amount ≤ format.length)
    {room written : Nat} {ps : List Piece} {rest : σ → Except Stop (Int × σ)}
    (hrest : ∀ s, rest s = runPieces putc room ps (written + amount) s) (s : σ) :
    (if intMax - written < amount then .ok (-1, s) else copyFrom putc s format amount >>= rest) =
      runPieces putc room (.text (format.take amount) :: ps) written s := by
  have htake : (format.take amount).length = amount := by
    rw [List.length_take, Nat.min_eq_left hamount]
  rw [runPieces_text, htake, copyFrom_eq hamount, funext hrest]

/-- Which conversions print numbers. -/
theorem Conversion.Reads.number_cases {conv : Conversion} {arg : Arg} {v : BitVec 32}
    (hreads : conv.Reads arg) (hpiece : Piece.ofArg conv arg = .number conv v) :
    (conv = .p ∧ arg = .ptr v) ∨ ((conv = .d ∨ conv = .i ∨ conv = .x) ∧ arg = .int v) := by
  cases arg with
  | ptr w =>
    cases conv with
    | p =>
      injection hpiece with _ hw
      exact .inl ⟨rfl, by rw [hw]⟩
    | c | s | d | i | x => exact hreads.elim
  | str str =>
    cases conv with
    | s => cases hpiece
    | c | d | i | x | p => exact hreads.elim
  | int w =>
    cases conv with
    | c => cases hpiece
    | s | p => exact hreads.elim
    | d | i | x =>
      injection hpiece with _ hw
      exact .inr ⟨by simp, by rw [hw]⟩

/-- A number is made in an array of `k + 1` zeros, or past its end. -/
theorem numberTextIn_eq {conv : Conversion} {arg : Arg} {v : BitVec 32} (hreads : conv.Reads arg)
    (hpiece : Piece.ofArg conv arg = .number conv v) (args : List Arg) (k : Nat) :
    numberTextIn (List.replicate (k + 1) 0#8) conv (arg :: args) =
      if (numberOut conv v).length < k + 1 then
        .ok (numberOut conv v ++ 0#8 :: List.replicate (k - (numberOut conv v).length) 0#8, args)
      else .error .fault := by
  have hint : ∀ base, intToAsciiBase v (List.replicate (k + 1) 0#8) base =
      if (intText v base).length < k + 1 then
        .ok (intText v base ++ 0#8 :: List.replicate (k - (intText v base).length) 0#8)
      else .error .fault := by
    intro base
    rw [intToAsciiBase_eq, List.length_replicate, List.drop_replicate, Nat.add_sub_add_right]
  have hhex : hexToAscii v (List.replicate (k + 1) 0#8) =
      if (hexText v).length < k + 1 then
        .ok (hexText v ++ 0#8 :: List.replicate (k - (hexText v).length) 0#8)
      else .error .fault := by
    have h := hexToAscii_eq v (s := []) (by simp) (List.replicate k 0#8)
    rw [List.nil_append, ← List.replicate_succ] at h
    rw [h, appended, List.length_nil, List.replicate_zero, List.nil_append, List.nil_append,
      List.length_replicate, List.drop_replicate]
    by_cases hfits : (hexText v).length < k + 1
    · rw [if_pos hfits, if_pos (by omega)]
    · rw [if_neg hfits, if_neg (by omega)]
  rcases hreads.number_cases hpiece with ⟨rfl, rfl⟩ | ⟨rfl | rfl | rfl, rfl⟩
  · simp only [numberTextIn, vaPtr, ok_bind, hhex, ite_ok_bind, numberOut]
    rfl
  · simp only [numberTextIn, vaInt, ok_bind, intToAscii, hint, ite_ok_bind, numberOut]
    rfl
  · simp only [numberTextIn, vaInt, ok_bind, intToAscii, hint, ite_ok_bind, numberOut]
    rfl
  · simp only [numberTextIn, vaInt, ok_bind, hint, ite_ok_bind, numberOut]
    rfl

theorem nul_not_mem_numberOut (conv : Conversion) (v : BitVec 32) : 0#8 ∉ numberOut conv v := by
  cases conv with
  | p => exact nul_not_mem_hexText v
  | x => exact nul_not_mem_intText v 16
  | c | s | d | i => exact nul_not_mem_intText v 10

theorem conversionIn_number {conv : Conversion} {arg : Arg} {v : BitVec 32}
    (hreads : conv.Reads arg) (hpiece : Piece.ofArg conv arg = .number conv v) (args : List Arg)
    (maxrem : Nat) {k : Nat} (hk : k < 2 ^ 31) (s : σ) :
    conversionIn putc (List.replicate (k + 1) 0#8) conv (arg :: args) maxrem s =
      if ¬(numberOut conv v).length < k + 1 then .error .fault
      else if maxrem < 1 then .ok (none, s)
      else (numberOut conv v).foldlM putc s >>= fun s => .ok (some (1, args), s) := by
  have hunfold : conversionIn putc (List.replicate (k + 1) 0#8) conv (arg :: args) maxrem s = (do
      let (text, args) ← numberTextIn (List.replicate (k + 1) 0#8) conv (arg :: args)
      let length ← strlen text
      if maxrem = 0 then return (none, s)
      else return (some (1, args), ← copyFrom putc s text (printedLength length))) := by
    rcases hreads.number_cases hpiece with ⟨rfl, -⟩ | ⟨rfl | rfl | rfl, -⟩
    · rfl
    · rfl
    · rfl
    · rfl
  rw [hunfold, numberTextIn_eq hreads hpiece]
  by_cases hfits : (numberOut conv v).length < k + 1
  · rw [if_pos hfits, if_neg (not_not.mpr hfits), ok_bind]
    dsimp only
    rw [strlen_append_zero _ (nul_not_mem_numberOut conv v), ok_bind,
      printedLength_eq (by omega), copyFrom_eq (by simp), List.take_left]
    by_cases hmax : maxrem = 0
    · rw [if_pos hmax, if_pos (by omega)]
      rfl
    · rw [if_neg hmax, if_neg (by omega)]
      rfl
  · rw [if_neg hfits, if_pos hfits]
    rfl

/-- A conversion writes its piece. -/
theorem conversionIn_eq {conv : Conversion} {arg : Arg} (hreads : conv.Reads arg)
    (args : List Arg) (maxrem : Nat) {k : Nat} (hk : k < 2 ^ 31) (s : σ) :
    conversionIn putc (List.replicate (k + 1) 0#8) conv (arg :: args) maxrem s =
      if ¬(Piece.ofArg conv arg).Fits (k + 1) then .error .fault
      else if maxrem < (Piece.ofArg conv arg).count then .ok (none, s)
      else (Piece.ofArg conv arg).output.foldlM putc s >>= fun s =>
        .ok (some ((Piece.ofArg conv arg).count, args), s) := by
  have hnumber : ∀ v, Piece.ofArg conv arg = .number conv v →
      conversionIn putc (List.replicate (k + 1) 0#8) conv (arg :: args) maxrem s =
        if ¬(Piece.ofArg conv arg).Fits (k + 1) then .error .fault
        else if maxrem < (Piece.ofArg conv arg).count then .ok (none, s)
        else (Piece.ofArg conv arg).output.foldlM putc s >>= fun s =>
          .ok (some ((Piece.ofArg conv arg).count, args), s) := by
    intro v hpiece
    rw [conversionIn_number hreads hpiece args maxrem hk]
    simp only [hpiece]
    rfl
  cases arg with
  | ptr v =>
    cases conv with
    | p => exact hnumber v rfl
    | c | s | d | i | x => exact hreads.elim
  | str str =>
    cases conv with
    | s =>
      show _ = if ¬True then _ else if maxrem < str.bytes.length then _ else
        str.bytes.foldlM putc s >>= fun s => .ok (some (str.bytes.length, args), s)
      rw [if_neg (not_not.mpr trivial)]
      simp only [conversionIn, vaStr, ok_bind, copyFrom_eq (Nat.le_refl str.bytes.length),
        List.take_length]
      rfl
    | c | d | i | x | p => exact hreads.elim
  | int v =>
    cases conv with
    | c =>
      show _ = if ¬True then _ else if maxrem < 1 then _ else
        [v.setWidth 8].foldlM putc s >>= fun s => .ok (some (1, args), s)
      rw [if_neg (not_not.mpr trivial)]
      simp only [conversionIn, vaInt, ok_bind, List.foldlM_cons, List.foldlM_nil, bind_pure]
      by_cases hmax : maxrem = 0
      · rw [if_pos hmax, if_pos (by omega)]
        rfl
      · rw [if_neg hmax, if_neg (by omega)]
        rfl
    | d => exact hnumber v rfl
    | i => exact hnumber v rfl
    | x => exact hnumber v rfl
    | s | p => exact hreads.elim

/-- The loop over a format is the loop over its pieces. -/
theorem formatLoop_eq {fuel : Nat} {format : List (BitVec 8)} {args : List Arg} (written : Nat)
    {k : Nat} (hk : k < 2 ^ 31) (hfuel : format.length < fuel)
    (hmatches : Matches (conversions format) args) (s : σ) :
    formatLoop putc (List.replicate (k + 1) 0#8) fuel format args written s =
      runPieces putc (k + 1) (piecesLoop fuel format args) written s := by
  induction fuel generalizing format args written s with
  | zero => omega
  | succ fuel ih =>
    cases format with
    | nil => rfl
    | cons b rest =>
      rw [formatLoop, piecesLoop]
      by_cases hlit : b ≠ percent ∨ rest.head? = some percent
      · have hconv := conversions_literal hlit
        obtain ⟨hne, hsuffix⟩ := literalPart_spec hlit
        simp only [if_pos hlit]
        generalize (if b = percent then rest else b :: rest) = format at hconv hne hsuffix ⊢
        have hpos : 1 ≤ literalLength format := Nat.le_add_right 1 _
        have hamount := literalLength_le hne
        have hlen := hsuffix.length_le
        apply runPieces_take hamount
        intro s
        apply ih
        · rw [List.length_drop]
          omega
        · rwa [hconv]
      · obtain ⟨hb, hhead⟩ := not_or.mp hlit
        have hb : b = percent := not_not.mp hb
        simp only [if_neg hlit]
        cases hconv : rest.head?.bind conversionOf with
        | none =>
          have hfuel' : 0 < fuel := by
            simp only [List.length_cons] at hfuel
            omega
          obtain ⟨fuel, rfl⟩ := Nat.exists_eq_succ_of_ne_zero hfuel'.ne'
          have hround := @runPieces_take σ putc (b :: rest) _ (Nat.le_refl _)
          rw [List.take_length] at hround
          apply hround
          intro s
          rw [List.drop_length]
          rfl
        | some conv =>
          cases rest with
          | nil => simp at hconv
          | cons c rest =>
            have hc : c ≠ percent := fun he => hhead (by rw [he, List.head?_cons])
            rw [conversions_conversion hb hc hconv] at hmatches
            simp only [List.length_cons] at hfuel
            cases args with
            | nil => exact hmatches.elim
            | cons arg args =>
              simp only [List.tail_cons, List.head?_cons, Option.elim_some, runPieces,
                conversionIn_eq hmatches.1 args _ hk]
              by_cases hfits : (Piece.ofArg conv arg).Fits (k + 1)
              · rw [if_neg (not_not.mpr hfits), if_neg (not_not.mpr hfits)]
                by_cases hmax : intMax - written < (Piece.ofArg conv arg).count
                · rw [if_pos hmax, if_pos hmax]
                  rfl
                · rw [if_neg hmax, if_neg hmax, bind_assoc]
                  congr 1
                  funext s
                  exact ih _ (by omega) hmatches.2 s
              · rw [if_pos hfits, if_pos hfits]
                rfl

/-! ## What a run converts and writes -/

/-- The numbers that the loop converts, the one it gives up at included. -/
def converted : List Piece → Nat → List (Conversion × BitVec 32)
  | [], _ => []
  | p :: ps, written =>
    p.converted ++ if intMax - written < p.count then [] else converted ps (written + p.count)

/-- What the loop returns and all that it writes. -/
def emit : List Piece → Nat → Int × List (BitVec 8)
  | [], written => (written, [])
  | p :: ps, written =>
    if intMax - written < p.count then (-1, [])
    else ((emit ps (written + p.count)).1, p.output ++ (emit ps (written + p.count)).2)

theorem fits_iff (room : Nat) (p : Piece) :
    p.Fits room ↔ ∀ q ∈ p.converted, (numberOut q.1 q.2).length < room := by
  cases p with
  | text bytes => exact iff_of_true (Piece.fits_text room bytes) fun q hq => by cases hq
  | number conv v =>
    constructor
    · intro h q hq
      rw [List.mem_singleton.mp hq]
      exact h
    · exact fun h => h (conv, v) (List.mem_singleton_self _)

/-- A run whose numbers fit writes everything in order. -/
theorem runPieces_eq {room : Nat} {ps : List Piece} {written : Nat}
    (h : ∀ q ∈ converted ps written, (numberOut q.1 q.2).length < room) (s : σ) :
    runPieces putc room ps written s =
      (emit ps written).2.foldlM putc s >>= fun s => .ok ((emit ps written).1, s) := by
  induction ps generalizing written s with
  | nil => rfl
  | cons p ps ih =>
    rw [converted] at h
    have hfits : p.Fits room := (fits_iff room p).mpr fun q hq => h q (List.mem_append_left _ hq)
    rw [runPieces, if_neg (not_not.mpr hfits), emit]
    by_cases hmax : intMax - written < p.count
    · rw [if_pos hmax, if_pos hmax]
      rfl
    · rw [if_neg hmax, if_neg hmax, List.foldlM_append, bind_assoc]
      rw [if_neg hmax] at h
      congr 1
      funext s
      exact ih (fun q hq => h q (List.mem_append_right _ hq)) s

/-- A run that returns has converted only numbers that fit. -/
theorem fits_of_runPieces {room : Nat} {ps : List Piece} {written : Nat} {s : σ} {r : Int × σ}
    (h : runPieces putc room ps written s = .ok r) :
    ∀ q ∈ converted ps written, (numberOut q.1 q.2).length < room := by
  induction ps generalizing written s with
  | nil => exact fun q hq => by cases hq
  | cons p ps ih =>
    rw [runPieces] at h
    by_cases hfits : p.Fits room
    · rw [if_neg (not_not.mpr hfits)] at h
      intro q hq
      rw [converted] at hq
      rcases List.mem_append.mp hq with hq | hq
      · exact (fits_iff room p).mp hfits q hq
      · by_cases hmax : intMax - written < p.count
        · rw [if_pos hmax] at hq
          cases hq
        · rw [if_neg hmax] at h hq
          obtain ⟨s', -, hrest⟩ := bind_eq_ok h
          exact ih hrest q hq
    · rw [if_pos hfits] at h
      cases h

/-- Sixteen bytes are enough for every number. -/
theorem length_numberOut (conv : Conversion) (v : BitVec 32) : (numberOut conv v).length < 16 := by
  have hbase : ∀ base, (baseText base).length ≤ 2 := by
    intro base
    unfold baseText
    split
    · decide
    · decide
  have hsign : (signText v).length ≤ 1 := by
    unfold signText
    split
    · decide
    · decide
  have hmagnitude : (magnitudeText v).length ≤ 10 := by
    have hlt := BitVec.toInt_lt (x := v)
    have hle := BitVec.le_toInt (x := v)
    unfold magnitudeText
    split
    · decide
    · rw [decimalText, List.length_map, length_digitsOf_le_iff (by decide) _ (by decide)]
      omega
  have hint : ∀ base, (intText v base).length < 16 := by
    intro base
    have hpre := hbase base
    rw [intText, List.length_append, List.length_append]
    omega
  have hhex : (significant (v.toNat / 16)).length ≤ 7 := by
    have hlt := v.isLt
    unfold significant
    split
    · decide
    · rw [length_digitsOf_le_iff (by decide) _ (by decide)]
      omega
  cases conv with
  | p =>
    show (hexText v).length < 16
    simp only [hexText, List.length_append, List.length_map, List.length_cons, List.length_nil]
    omega
  | x => exact hint 16
  | c | s | d | i => exact hint 10

/-- **A formatter with room for its numbers** returns what its pieces give, and writes
what they write. -/
theorem formatIn_eq (format : CString) {args : List Arg}
    (hmatches : Matches (conversions format.bytes) args) (s : σ) :
    formatIn putc scratch format args s =
      (emit (pieces format args) 0).2.foldlM putc s >>= fun s =>
        .ok ((emit (pieces format args) 0).1, s) := by
  have hloop := @formatLoop_eq σ putc _ format.bytes args 0 15 (by decide)
    (Nat.lt_succ_self format.bytes.length) hmatches s
  rw [formatIn, show scratch = List.replicate (15 + 1) 0#8 from rfl, hloop]
  exact runPieces_eq (fun q _ => length_numberOut q.1 q.2) s

end Run

end Libc
end Medusa
