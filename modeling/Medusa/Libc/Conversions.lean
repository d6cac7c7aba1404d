import Medusa.Libc.Pieces
import Medusa.Libc.Strtol

/-!
# Number conversions

Whether the texts of numbers denote them in base 16, and whether they fit the array
of ten bytes that both formatters make them in.
-/

namespace Medusa
namespace Libc

open Machine Kernel

/-! ## Hexadecimal texts -/

/-- `0x` and digits of base 16 that are worth `n`. -/
def DenotesHex (n : BitVec 32) (text : List (BitVec 8)) : Prop :=
  ∃ ds, text = [0x30#8, 0x78#8] ++ ds ∧ ds ≠ [] ∧ (∀ c ∈ ds, digitValue c < 16) ∧
    valueOf 16 (ds.map digitValue) = n.toNat

/-- `f` leaves `text` in every buffer that holds a string and has room for it. -/
def Produces (f : List (BitVec 8) → Except Stop (List (BitVec 8))) (text : List (BitVec 8)) :
    Prop :=
  ∀ buf s, Holds buf s → text.length < buf.length → ∃ buf', f buf = .ok buf' ∧ Holds buf' text

theorem Holds.unique {buf s t : List (BitVec 8)} (hs : Holds buf s) (ht : Holds buf t) : s = t := by
  have hlen : s.length = t.length := Except.ok.inj (hs.strlen.symm.trans ht.strlen)
  obtain ⟨rest, rfl, -⟩ := hs
  obtain ⟨rest', heq, -⟩ := ht
  exact (List.append_inj heq hlen).1

/-- A text that is produced is the only one. -/
theorem Produces.unique {f : List (BitVec 8) → Except Stop (List (BitVec 8))}
    {p q : List (BitVec 8)} (hp : Produces f p) (hq : Produces f q) : p = q := by
  have hempty : Holds (List.replicate (p.length + q.length + 1) 0#8) [] :=
    ⟨List.replicate (p.length + q.length) 0#8, rfl, by simp⟩
  obtain ⟨buf, hrun, hholds⟩ := hp _ _ hempty (by simp)
  obtain ⟨buf', hrun', hholds'⟩ := hq _ _ hempty (by simp)
  obtain rfl := Except.ok.inj (hrun.symm.trans hrun')
  exact hholds.unique hholds'

theorem produces_intToAsciiBase (n : BitVec 32) (base : Nat) :
    Produces (fun buf => intToAsciiBase n buf base) (intText n base) := by
  intro buf s _ hroom
  have hrun := intToAsciiBase_eq n buf base
  rw [if_pos hroom] at hrun
  exact ⟨_, hrun, ⟨_, rfl, nul_not_mem_intText n base⟩⟩

theorem produces_hexToAscii (n : BitVec 32) : Produces (hexToAscii n) (hexText n) := by
  rintro _ s ⟨rest, rfl, hs⟩ hroom
  have hrun := hexToAscii_eq n hs rest
  rw [appended, if_pos (by simp at hroom ⊢; omega), List.nil_append] at hrun
  exact ⟨_, hrun, ⟨_, rfl, nul_not_mem_hexText n⟩⟩

theorem digitValue_hexDigit {d : Nat} (h : d < 16) :
    digitValue (hexDigit d) < 16 ↔ d ≠ 10 := by
  unfold hexDigit
  by_cases hten : d = 10
  · rw [if_pos hten]
    exact iff_of_false (by decide) (not_not.mpr hten)
  · rw [if_neg hten, digitValue_digitByte (by omega)]
    exact iff_of_true h hten

theorem mem_significant {m : Nat} : 10 ∈ significant m ↔ ∃ k, m / 16 ^ k % 16 = 10 := by
  have hmem : 10 ∈ significant m ↔ 10 ∈ Nat.digits 16 m := by
    unfold significant digitsOf lowDigits
    by_cases hm : m = 0
    · simp [hm]
    · simp [hm]
  have hdigit : ∀ k, (Nat.digits 16 m).getD k 0 = m / 16 ^ k % 16 := fun k =>
    Nat.getD_digits m k (by decide)
  rw [hmem]
  constructor
  · intro hin
    obtain ⟨k, hk, hten⟩ := List.getElem_of_mem hin
    refine ⟨k, ?_⟩
    rw [← hdigit k, List.getD_eq_getElem _ _ hk, hten]
  · rintro ⟨k, hten⟩
    have hk : k < (Nat.digits 16 m).length := by
      by_contra hge
      have hzero := hdigit k
      rw [List.getD_eq_default _ _ (by omega)] at hzero
      omega
    have hget := hdigit k
    rw [List.getD_eq_getElem _ _ hk, hten] at hget
    rw [← hget]
    exact List.getElem_mem hk

/-- A pointer is printed right exactly if none of its nibbles but the last is ten. -/
theorem denotesHex_hexText (n : BitVec 32) :
    DenotesHex n (hexText n) ↔ ∀ k, n.toNat / 16 ^ (k + 1) % 16 ≠ 10 := by
  have hnibble : ∀ k, n.toNat / 16 ^ (k + 1) = n.toNat / 16 / 16 ^ k := by
    intro k
    rw [Nat.pow_succ', Nat.div_div_eq_div_mul]
  have hten : (∀ k, n.toNat / 16 ^ (k + 1) % 16 ≠ 10) ↔ 10 ∉ significant (n.toNat / 16) := by
    rw [mem_significant, not_exists]
    simp only [hnibble, ne_eq]
  rw [hten]
  constructor
  · rintro ⟨ds, htext, -, hvalid, -⟩ hin
    rw [hexText, List.append_assoc] at htext
    have hds := List.append_cancel_left htext
    have hcolon := hvalid (hexDigit 10)
      (by rw [← hds]; exact List.mem_append_left _ (List.mem_map_of_mem hin))
    exact absurd rfl ((digitValue_hexDigit (by decide)).mp hcolon)
  · intro hnone
    have hdigits : (significant (n.toNat / 16)).map hexDigit =
        (significant (n.toNat / 16)).map digitByte :=
      List.map_congr_left fun d hd => if_neg (by
        rintro rfl
        exact hnone hd)
    have hlt : ∀ d ∈ significant (n.toNat / 16) ++ [n.toNat % 16], d < 16 := by
      intro d hd
      rcases List.mem_append.mp hd with hd | hd
      · exact lt_of_mem_significant hd
      · rw [List.mem_singleton.mp hd]
        omega
    have hvalue : valueOf 16 (significant (n.toNat / 16)) = n.toNat / 16 := by
      unfold significant
      split
      · rename_i hzero
        rw [valueOf_nil, hzero]
      · exact valueOf_digitsOf 16 _
    refine ⟨(significant (n.toNat / 16) ++ [n.toNat % 16]).map digitByte, ?_, by simp, ?_, ?_⟩
    · rw [hexText, hdigits, List.map_append, List.append_assoc, List.map_singleton]
    · intro c hc
      obtain ⟨d, hd, rfl⟩ := List.mem_map.mp hc
      rw [digitValue_digitByte (by have hsmall := hlt d hd; omega)]
      exact hlt d hd
    · rw [map_digitValue_digitByte (fun d hd => by have hsmall := hlt d hd; omega), valueOf_snoc,
        hvalue]
      omega

/-- Decimal digits are worth more in base 16, if there is more than one. -/
theorem lt_valueOf_digitsOf {m : Nat} (h : 10 ≤ m) : m < valueOf 16 (digitsOf 10 m) := by
  have hle : m / 10 ≤ valueOf 16 (digitsOf 10 (m / 10)) := by
    have hmono := Nat.ofDigits_monotone (p := 10) (q := 16) (digitsOf 10 (m / 10)).reverse (by decide)
    have hten := valueOf_digitsOf 10 (m / 10)
    unfold valueOf at hten ⊢
    omega
  rw [digitsOf_of_le (by decide) h, valueOf_snoc]
  omega

/-- `%x` is right about the numbers of one decimal digit only. -/
theorem denotesHex_intText (n : BitVec 32) : DenotesHex n (intText n 16) ↔ n.toNat < 10 := by
  have hint : n.toInt = if 2 * n.toNat < 2 ^ 32 then (n.toNat : Int) else n.toNat - 2 ^ 32 :=
    BitVec.toInt_eq_toNat_cond n
  have htext : intText n 16 = [0x30#8, 0x78#8] ++ (signText n ++ magnitudeText n) := by
    rw [intText, List.append_assoc]
    rfl
  have hdigits : 0 ≤ n.toInt → signText n ++ magnitudeText n =
      (digitsOf 10 n.toNat).map digitByte := by
    intro hpos
    have hmin : n ≠ BitVec.intMin 32 := by
      rintro rfl
      exact absurd hpos (by decide)
    have habs : n.toInt.natAbs = n.toNat := by
      split at hint
      · omega
      · omega
    rw [signText, if_neg (by omega), List.nil_append, magnitudeText, if_neg hmin, decimalText, habs]
  have hvalues : ∀ m, ((digitsOf 10 m).map digitByte).map digitValue = digitsOf 10 m := fun m =>
    map_digitValue_digitByte fun d hd => by
      have hlt := lt_of_mem_digitsOf (b := 10) (by decide) hd
      omega
  constructor
  · rintro ⟨ds, heq, -, hvalid, hvalue⟩
    rw [htext] at heq
    have hds := List.append_cancel_left heq
    by_cases hneg : n.toInt < 0
    · -- the sign is no digit
      have hsign : signText n = [0x2D#8] := if_pos hneg
      have hminus := hvalid 0x2D#8 (by rw [← hds, hsign]; exact List.mem_cons_self ..)
      exact absurd hminus (by decide)
    · rw [hdigits (by omega)] at hds
      rw [← hds, hvalues] at hvalue
      by_contra hbig
      have hlt := lt_valueOf_digitsOf (m := n.toNat) (by omega)
      omega
  · intro hsmall
    have hpos : 0 ≤ n.toInt := by
      rw [if_pos (by omega)] at hint
      omega
    refine ⟨(digitsOf 10 n.toNat).map digitByte, by rw [htext, hdigits hpos], ?_, ?_, ?_⟩
    · exact fun hnil => digitsOf_ne_nil _ _ (List.map_eq_nil_iff.mp hnil)
    · intro c hc
      obtain ⟨d, hd, rfl⟩ := List.mem_map.mp hc
      have hlt := lt_of_mem_digitsOf (by decide) hd
      rw [digitValue_digitByte (by omega)]
      omega
    · rw [hvalues, digitsOf_of_lt hsmall, valueOf_singleton]

/-- **Hexadecimal texts.**  `hex_to_ascii` denotes the word exactly if none of its
nibbles but the last is ten, `int_to_ascii_base` exactly if the word is below ten, and
then the two texts are the same. -/
theorem hexTexts_right_iff (n : BitVec 32) :
    ((∃ p, Produces (hexToAscii n) p ∧ DenotesHex n p) ↔
      ∀ k, n.toNat / 16 ^ (k + 1) % 16 ≠ 10) ∧
    ((∃ x, Produces (fun buf => intToAsciiBase n buf 16) x ∧ DenotesHex n x) ↔ n.toNat < 10) ∧
    ((∃ p x, Produces (hexToAscii n) p ∧ DenotesHex n p ∧
        Produces (fun buf => intToAsciiBase n buf 16) x ∧ DenotesHex n x ∧ p = x) ↔
      n.toNat < 10) := by
  have hhex := produces_hexToAscii n
  have hint := produces_intToAsciiBase n 16
  have hdecimal : (∃ x, Produces (fun buf => intToAsciiBase n buf 16) x ∧ DenotesHex n x) ↔
      n.toNat < 10 := by
    constructor
    · rintro ⟨x, hx, hdenotes⟩
      rw [hx.unique hint] at hdenotes
      exact (denotesHex_intText n).mp hdenotes
    · exact fun hsmall => ⟨_, hint, (denotesHex_intText n).mpr hsmall⟩
  refine ⟨?_, hdecimal, ?_⟩
  · constructor
    · rintro ⟨p, hp, hdenotes⟩
      rw [hp.unique hhex] at hdenotes
      exact (denotesHex_hexText n).mp hdenotes
    · exact fun hnone => ⟨_, hhex, (denotesHex_hexText n).mpr hnone⟩
  · constructor
    · rintro ⟨p, x, -, -, hx, hdenotes, -⟩
      exact hdecimal.mp ⟨x, hx, hdenotes⟩
    · intro hsmall
      have hnone : ∀ k, n.toNat / 16 ^ (k + 1) % 16 ≠ 10 := by
        intro k
        have hzero : n.toNat / 16 ^ (k + 1) = 0 := by
          rw [Nat.pow_succ', ← Nat.div_div_eq_div_mul, Nat.div_eq_of_lt (by omega : n.toNat < 16),
            Nat.zero_div]
        omega
      have hsame : hexText n = intText n 16 := by
        have hall : ∀ m : Nat, m < 10 → hexText (BitVec.ofNat 32 m) = intText (BitVec.ofNat 32 m) 16 := by
          decide +kernel
        have h := hall n.toNat hsmall
        rwa [BitVec.ofNat_toNat, BitVec.setWidth_eq] at h
      exact ⟨_, _, hhex, (denotesHex_hexText n).mpr hnone, hint, (denotesHex_intText n).mpr hsmall,
        hsame⟩

/-- 0xA0 is printed as `0x:0` and as `0x160`, and neither denotes it. -/
theorem hexTexts_wrong :
    hexToAscii 0xA0#32 (List.replicate 16 0#8) =
        .ok ([0x30#8, 0x78#8, 0x3A#8, 0x30#8] ++ List.replicate 12 0#8) ∧
      intToAsciiBase 0xA0#32 (List.replicate 16 0#8) 16 =
        .ok ([0x30#8, 0x78#8, 0x31#8, 0x36#8, 0x30#8] ++ List.replicate 11 0#8) ∧
      (¬ ∃ p, Produces (hexToAscii 0xA0#32) p ∧ DenotesHex 0xA0#32 p) ∧
      ¬ ∃ x, Produces (fun buf => intToAsciiBase 0xA0#32 buf 16) x ∧ DenotesHex 0xA0#32 x := by
  refine ⟨by decide +kernel, by decide +kernel, ?_, ?_⟩
  · rintro ⟨p, hp, hdenotes⟩
    rw [hp.unique (produces_hexToAscii _), denotesHex_hexText] at hdenotes
    exact hdenotes 0 (by decide)
  · rintro ⟨x, hx, hdenotes⟩
    rw [hx.unique (produces_intToAsciiBase _ 16), denotesHex_intText] at hdenotes
    exact absurd hdenotes (by decide)

/-! ## The local array -/

/-- `char i2[10]` after `memset`. -/
def localArray : List (BitVec 8) := List.replicate 10 0#8

/-- An optional minus sign and decimal digits. -/
def IsInteger (text : List (BitVec 8)) : Prop :=
  ∃ sign ds, text = sign ++ ds ∧ (sign = [] ∨ sign = [0x2D#8]) ∧ ds ≠ [] ∧
    ∀ c ∈ ds, 0x30#8 ≤ c ∧ c ≤ 0x39#8

/-- The values that a conversion makes a good text of in the array. -/
def Conversion.InRange : Conversion → BitVec 32 → Prop
  | .p, v => v.toNat < 2 ^ 28
  | .x, v => -10 ^ 6 < v.toInt ∧ v.toInt < 10 ^ 7 ∨ v = BitVec.intMin 32
  | _, v => -10 ^ 8 < v.toInt ∧ v.toInt < 10 ^ 9

theorem isInteger_intText {n : BitVec 32} (hn : n ≠ BitVec.intMin 32) :
    IsInteger (intText n 10) := by
  have htext : intText n 10 = signText n ++ decimalText n.toInt.natAbs := by
    rw [intText, magnitudeText, if_neg hn]
    rfl
  refine ⟨signText n, decimalText n.toInt.natAbs, htext, ?_, ?_, ?_⟩
  · unfold signText
    split
    · exact .inr rfl
    · exact .inl rfl
  · exact fun hnil => digitsOf_ne_nil _ _ (List.map_eq_nil_iff.mp hnil)
  · intro c hc
    obtain ⟨d, hd, rfl⟩ := List.mem_map.mp hc
    have hlt := lt_of_mem_digitsOf (by decide) hd
    have hall : ∀ d, d < 10 → 0x30#8 ≤ digitByte d ∧ digitByte d ≤ 0x39#8 := by decide
    exact hall d hlt

/-- The least integer is printed as a minus sign and a parenthesis. -/
theorem not_isInteger_intMin : ¬ IsInteger (intText (BitVec.intMin 32) 10) := by
  have htext : intText (BitVec.intMin 32) 10 = [0x2D#8, 0x28#8] := by decide
  rintro ⟨sign, ds, heq, hsign, hne, hds⟩
  rw [htext] at heq
  have hparen : 0x28#8 ∈ ds := by
    rcases hsign with rfl | rfl
    · obtain rfl : [0x2D#8, 0x28#8] = ds := heq
      decide
    · obtain rfl : [0x28#8] = ds := by simpa using heq
      decide
  exact absurd (hds 0x28#8 hparen) (by decide)

theorem length_intText (n : BitVec 32) (base : Nat) (hn : n ≠ BitVec.intMin 32) :
    (intText n base).length = (if base = 16 then 2 else 0) + (if n.toInt < 0 then 1 else 0) +
      (digitsOf 10 n.toInt.natAbs).length := by
  rw [intText, magnitudeText, if_neg hn, decimalText, List.length_append, List.length_append,
    List.length_map]
  congr 2
  · unfold baseText
    split
    · rfl
    · rfl
  · unfold signText
    split
    · rfl
    · rfl

theorem intText_ten_fits {n : BitVec 32} (hn : n ≠ BitVec.intMin 32) :
    (intText n 10).length < 10 ↔ -10 ^ 8 < n.toInt ∧ n.toInt < 10 ^ 9 := by
  have hlen := length_intText n 10 hn
  rw [if_neg (by decide)] at hlen
  by_cases hneg : n.toInt < 0
  · have h := length_digitsOf_le_iff (b := 10) (by decide) n.toInt.natAbs (k := 8) (by decide)
    rw [if_pos hneg] at hlen
    omega
  · have h := length_digitsOf_le_iff (b := 10) (by decide) n.toInt.natAbs (k := 9) (by decide)
    rw [if_neg hneg] at hlen
    omega

theorem intText_sixteen_fits {n : BitVec 32} (hn : n ≠ BitVec.intMin 32) :
    (intText n 16).length < 10 ↔ -10 ^ 6 < n.toInt ∧ n.toInt < 10 ^ 7 := by
  have hlen := length_intText n 16 hn
  rw [if_pos rfl] at hlen
  by_cases hneg : n.toInt < 0
  · have h := length_digitsOf_le_iff (b := 10) (by decide) n.toInt.natAbs (k := 6) (by decide)
    rw [if_pos hneg] at hlen
    omega
  · have h := length_digitsOf_le_iff (b := 10) (by decide) n.toInt.natAbs (k := 7) (by decide)
    rw [if_neg hneg] at hlen
    omega

theorem hexText_fits (n : BitVec 32) : (hexText n).length < 10 ↔ n.toNat < 2 ^ 28 := by
  have hlen : (hexText n).length = 3 + (significant (n.toNat / 16)).length := by
    simp only [hexText, List.length_append, List.length_map, List.length_cons, List.length_nil]
    omega
  rw [hlen]
  unfold significant
  by_cases hzero : n.toNat / 16 = 0
  · rw [if_pos hzero]
    exact iff_of_true (by decide) (by omega)
  · have h := length_digitsOf_le_iff (b := 16) (by decide) (n.toNat / 16) (k := 6) (by decide)
    rw [if_neg hzero]
    omega

/-- One conversion: its text fits and, if it is `%d` or `%i`, is an integer. -/
theorem conversion_fits_iff (conv : Conversion) (v : BitVec 32) :
    ((numberOut conv v).length < 10 ∧ (conv = .x ∨ conv = .p ∨ IsInteger (numberOut conv v))) ↔
      conv.InRange v := by
  have hdecimal : (intText v 10).length < 10 ∧ IsInteger (intText v 10) ↔
      -10 ^ 8 < v.toInt ∧ v.toInt < 10 ^ 9 := by
    by_cases hmin : v = BitVec.intMin 32
    · subst hmin
      exact iff_of_false (fun h => not_isInteger_intMin h.2) (by decide)
    · exact (and_iff_left (isInteger_intText hmin)).trans (intText_ten_fits hmin)
  cases conv with
  | p =>
    show (hexText v).length < 10 ∧ _ ↔ v.toNat < 2 ^ 28
    rw [hexText_fits]
    exact and_iff_left (.inr (.inl rfl))
  | x =>
    show (intText v 16).length < 10 ∧ _ ↔ _ ∨ _
    by_cases hmin : v = BitVec.intMin 32
    · subst hmin
      exact iff_of_true ⟨by decide, .inl rfl⟩ (.inr rfl)
    · rw [intText_sixteen_fits hmin, or_iff_left hmin]
      exact and_iff_left (.inl rfl)
  | c | s | d | i =>
    simp only [numberOut, reduceCtorEq, false_or]
    exact hdecimal

/-- A format whose numbers are made in the local array: both formatters return without
a write outside, and `%d` and `%i` print integers.  `sprintf` has room for its output. -/
structure ConversionsSafe (format : CString) (args : List Arg) : Prop where
  printed : ∃ r, formatIn push localArray format args [] = .ok r
  appended : ∀ string s, Holds string s →
    s.length + (emit (pieces format args) 0).2.length < string.length →
    ∃ r, formatIn append localArray format args string = .ok r
  integers : ∀ q ∈ converted (pieces format args) 0, q.1 = .x ∨ q.1 = .p ∨
    IsInteger (numberOut q.1 q.2)

theorem formatIn_localArray {σ : Type} (putc : σ → BitVec 8 → Except Stop σ) (format : CString)
    {args : List Arg} (hmatches : Matches (conversions format.bytes) args) (s : σ) :
    formatIn putc localArray format args s = runPieces putc 10 (pieces format args) 0 s :=
  @formatLoop_eq σ putc _ format.bytes args 0 9 (by decide) (Nat.lt_succ_self _) hmatches s

theorem foldlM_push (out cs : List (BitVec 8)) : cs.foldlM push out = .ok (out ++ cs) := by
  induction cs generalizing out with
  | nil => rw [List.append_nil]; rfl
  | cons c cs ih =>
    rw [List.foldlM_cons, push, ok_bind, ih]
    simp [fputchar]

/-- **Numeric conversions fit their array** exactly if every number that is converted
lies in the range of its conversion. -/
theorem conversionsSafe_iff (format : CString) {args : List Arg}
    (hmatches : Matches (conversions format.bytes) args) :
    ConversionsSafe format args ↔
      ∀ q ∈ converted (pieces format args) 0, q.1.InRange q.2 := by
  constructor
  · intro h q hq
    obtain ⟨r, hrun⟩ := h.printed
    rw [formatIn_localArray push format hmatches] at hrun
    exact (conversion_fits_iff q.1 q.2).mp ⟨fits_of_runPieces hrun q hq, h.integers q hq⟩
  · intro h
    have hgood := fun q hq => (conversion_fits_iff q.1 q.2).mpr (h q hq)
    refine ⟨?_, fun string s hholds hroom => ?_, fun q hq => (hgood q hq).2⟩
    · rw [formatIn_localArray push format hmatches, runPieces_eq (fun q hq => (hgood q hq).1),
        foldlM_push]
      exact ⟨_, rfl⟩
    · obtain ⟨string', hrun, -, -⟩ := foldlM_append_of_room hholds hroom
      rw [formatIn_localArray append format hmatches, runPieces_eq (fun q hq => (hgood q hq).1),
        hrun]
      exact ⟨_, rfl⟩

/-- `"%d/%x"`. -/
def slashFormat : CString where
  bytes := [0x25#8, 0x64#8, 0x2F#8, 0x25#8, 0x78#8]
  noNul := by decide

theorem conversionsSafe_slashFormat :
    ConversionsSafe slashFormat [.int 999999999#32, .int 7#32] := by
  have hmatches : Matches (conversions slashFormat.bytes) [.int 999999999#32, .int 7#32] :=
    ⟨trivial, trivial, trivial⟩
  refine (conversionsSafe_iff slashFormat hmatches).mpr ?_
  have hall : converted (pieces slashFormat [.int 999999999#32, .int 7#32]) 0 =
      [(.d, 999999999#32), (.x, 7#32)] := by rfl
  rw [hall]
  simp only [List.mem_cons, List.not_mem_nil, or_false, forall_eq_or_imp, forall_eq]
  exact ⟨by show _ ∧ _; decide, .inl (by decide)⟩

/-- `"%d"`. -/
def intFormat : CString where
  bytes := [0x25#8, 0x64#8]
  noNul := by decide

/-- -1234567890 does not fit the array, and the least integer is no integer once it is
printed. -/
theorem conversions_unsafe :
    ¬ ConversionsSafe intFormat [.int (-1234567890#32)] ∧
      ¬ ConversionsSafe intFormat [.int (BitVec.intMin 32)] := by
  constructor
  · intro h
    obtain ⟨r, hrun⟩ := h.printed
    have hfault : formatIn push localArray intFormat [.int (-1234567890#32)] [] =
        .error .fault := by decide +kernel
    rw [hfault] at hrun
    cases hrun
  · intro h
    have hmin := h.integers (.d, BitVec.intMin 32) (List.mem_singleton_self _)
    rcases hmin with hx | hp | hint
    · cases hx
    · cases hp
    · exact not_isInteger_intMin hint

end Libc
end Medusa
