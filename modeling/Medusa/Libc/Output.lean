import Medusa.Libc.Conversions

/-!
# Counts and targets

What `vfprintf` and `sprintf` return is the sum of the counts of the pieces, as long
as it stays below `INT_MAX`; what they write is the pieces' texts.  The two differ
where a number has more than one character.  And `sprintf` writes behind the string
that is already in its target.
-/

namespace Medusa
namespace Libc

open Machine Kernel

/-! ## Counts -/

/-- The count of all pieces. -/
def total (ps : List Piece) : Nat := (ps.map Piece.count).sum

/-- The text of all pieces. -/
def wholeText (ps : List Piece) : List (BitVec 8) := ps.flatMap Piece.output

theorem emit_spec (ps : List Piece) {written : Nat} (hw : written ≤ intMax) :
    (written + total ps ≤ intMax →
      emit ps written = (((written + total ps : Nat) : Int), wholeText ps)) ∧
    (intMax < written + total ps → (emit ps written).1 = -1) := by
  induction ps generalizing written with
  | nil =>
    refine ⟨fun _ => ?_, fun hmore => ?_⟩
    · rfl
    · rw [total, List.map_nil, List.sum_nil] at hmore
      omega
  | cons p ps ih =>
    have htotal : total (p :: ps) = p.count + total ps := by
      rw [total, List.map_cons, List.sum_cons, total]
    rw [emit, htotal]
    by_cases hmax : intMax - written < p.count
    · rw [if_pos hmax]
      exact ⟨fun hle => by omega, fun _ => rfl⟩
    · rw [if_neg hmax]
      have hrest := @ih (written + p.count) (by omega)
      refine ⟨fun hle => ?_, fun hmore => hrest.2 (by omega)⟩
      rw [hrest.1 (by omega), ← Nat.add_assoc]
      rfl

theorem length_output_pos (conv : Conversion) (v : BitVec 32) : 0 < (numberOut conv v).length := by
  have hint : ∀ base, 0 < (intText v base).length := by
    intro base
    have hpos : 0 < (magnitudeText v).length := by
      unfold magnitudeText
      split
      · decide
      · rw [decimalText, List.length_map]
        exact length_digitsOf_pos _ _
    rw [intText, List.length_append]
    omega
  cases conv with
  | p =>
    show 0 < (hexText v).length
    simp [hexText]
  | x => exact hint 16
  | c | s | d | i => exact hint 10

/-- No text is shorter than its count, and a number that is longer makes the whole
longer. -/
theorem total_le (ps : List Piece) :
    total ps ≤ (wholeText ps).length ∧
      (total ps = (wholeText ps).length ↔
        ∀ conv v, Piece.number conv v ∈ ps → (numberOut conv v).length = 1) := by
  induction ps with
  | nil => simp [total, wholeText]
  | cons p ps ih =>
    obtain ⟨hle, heq⟩ := ih
    have htotal : total (p :: ps) = p.count + total ps := by
      rw [total, List.map_cons, List.sum_cons, total]
    have hwhole : (wholeText (p :: ps)).length = p.output.length + (wholeText ps).length := by
      rw [wholeText, List.flatMap_cons, List.length_append, wholeText]
    rw [htotal, hwhole]
    cases p with
    | text bytes =>
      show bytes.length + _ ≤ bytes.length + _ ∧ (bytes.length + _ = bytes.length + _ ↔ _)
      refine ⟨by omega, (by omega : _ ↔ total ps = (wholeText ps).length).trans (heq.trans ?_)⟩
      simp
    | number conv v =>
      have hpos := length_output_pos conv v
      show 1 + _ ≤ (numberOut conv v).length + _ ∧ (1 + _ = (numberOut conv v).length + _ ↔ _)
      refine ⟨by omega, ?_⟩
      constructor
      · intro hsum conv' v' hin
        have hone : (numberOut conv v).length = 1 := by omega
        rcases List.mem_cons.mp hin with he | hin
        · obtain ⟨rfl, rfl⟩ := Piece.number.inj he
          exact hone
        · exact heq.mp (by omega) conv' v' hin
      · intro h
        have hone := h conv v (List.mem_cons_self ..)
        have hrest := heq.mpr fun conv' v' hin => h conv' v' (List.mem_cons_of_mem _ hin)
        omega

/-- The only numbers of one character are those from 0 to 9, in decimal. -/
theorem length_numberOut_eq_one (conv : Conversion) (v : BitVec 32) :
    (numberOut conv v).length = 1 ↔ conv ≠ .x ∧ conv ≠ .p ∧ v.toNat < 10 := by
  have hint : v.toInt = if 2 * v.toNat < 2 ^ 32 then (v.toNat : Int) else v.toNat - 2 ^ 32 :=
    BitVec.toInt_eq_toNat_cond v
  have hlong : ∀ base, base = 16 → 1 < (intText v base).length := by
    rintro base rfl
    rw [intText, List.append_assoc, List.length_append]
    show 1 < 2 + _
    omega
  have hdecimal : (intText v 10).length = 1 ↔ v.toNat < 10 := by
    by_cases hmin : v = BitVec.intMin 32
    · subst hmin
      exact iff_of_false (by decide) (by decide)
    · have hlen := length_intText v 10 hmin
      have h := length_digitsOf_le_iff (b := 10) (by decide) v.toInt.natAbs (k := 1) (by decide)
      have hpos := length_digitsOf_pos 10 v.toInt.natAbs
      rw [if_neg (by decide)] at hlen
      by_cases hneg : v.toInt < 0
      · rw [if_pos hneg] at hlen
        split at hint
        · omega
        · omega
      · rw [if_neg hneg] at hlen
        split at hint
        · omega
        · omega
  cases conv with
  | p =>
    refine iff_of_false ?_ (fun h => h.2.1 rfl)
    show (hexText v).length ≠ 1
    simp [hexText]
  | x =>
    refine iff_of_false ?_ (fun h => h.1 rfl)
    have h := hlong 16 rfl
    show (intText v 16).length ≠ 1
    omega
  | c | s | d | i =>
    simp only [numberOut, hdecimal, ne_eq, reduceCtorEq, not_false_eq_true, true_and]

/-- `append`, with a record of the characters it is called with. -/
def appendLogged (st : List (BitVec 8) × List (BitVec 8)) (c : BitVec 8) :
    Except Stop (List (BitVec 8) × List (BitVec 8)) := do
  let string ← append st.1 c
  return (string, st.2 ++ [c])

theorem foldlM_appendLogged (string log cs : List (BitVec 8)) :
    cs.foldlM appendLogged (string, log) =
      cs.foldlM append string >>= fun string => .ok (string, log ++ cs) := by
  induction cs generalizing string log with
  | nil => rw [List.append_nil]; rfl
  | cons c cs ih =>
    rw [List.foldlM_cons, List.foldlM_cons, appendLogged]
    cases append string c with
    | error e => rfl
    | ok string =>
      show cs.foldlM appendLogged (string, log ++ [c]) = _
      rw [ih, List.append_assoc]
      rfl

/-- The record changes nothing. -/
theorem sprintf_logged (string : List (BitVec 8)) (format : CString) {args : List Arg}
    (hmatches : Matches (conversions format.bytes) args) :
    sprintf string format args = formatIn appendLogged scratch format args (string, []) >>=
      fun r => .ok (r.1, r.2.1) := by
  rw [sprintf_eq_formatIn, formatIn_eq format hmatches, formatIn_eq format hmatches,
    foldlM_appendLogged]
  cases (emit (pieces format args) 0).2.foldlM append string with
  | error e => rfl
  | ok string => rfl

/-- What a call that returned `v` should have written: `v` characters, and it should
have given up if there are more than `INT_MAX` to write. -/
def Counted (format : CString) (args : List Arg) (v : Int) (n : Nat) : Prop :=
  (0 ≤ v → v = n) ∧ (intMax < (wholeText (pieces format args)).length → v = -1)

/-- Both formatters count the characters they pass on. -/
structure CountsRight (format : CString) (args : List Arg) : Prop where
  printed : ∀ v out, vfprintf format args = .ok (v, out) → Counted format args v out.length
  appended : ∀ string v string' log,
    formatIn appendLogged scratch format args (string, []) = .ok (v, (string', log)) →
      Counted format args v log.length

theorem vfprintf_eq_emit (format : CString) {args : List Arg}
    (hmatches : Matches (conversions format.bytes) args) :
    vfprintf format args = .ok (emit (pieces format args) 0) := by
  rw [vfprintf_eq_formatIn, formatIn_eq format hmatches, foldlM_push]
  rfl

/-- **The formatters count what they write** exactly if every number has one digit, or
there are so many characters that they give up in any case. -/
theorem countsRight_iff (format : CString) {args : List Arg}
    (hmatches : Matches (conversions format.bytes) args) :
    CountsRight format args ↔
      (∀ conv v, Piece.number conv v ∈ pieces format args →
        conv ≠ .x ∧ conv ≠ .p ∧ v.toNat < 10) ∨ intMax < total (pieces format args) := by
  obtain ⟨hfull, hgiveUp⟩ := emit_spec (pieces format args) (Nat.zero_le intMax)
  rw [Nat.zero_add] at hfull hgiveUp
  obtain ⟨hle, hone⟩ := total_le (pieces format args)
  simp only [length_numberOut_eq_one] at hone
  constructor
  · intro h
    by_cases hmore : intMax < total (pieces format args)
    · exact .inr hmore
    · have hv := vfprintf_eq_emit format hmatches
      rw [hfull (by omega)] at hv
      have hcount := (h.printed _ _ hv).1 (by omega)
      exact .inl (hone.mp (by omega))
  · intro h
    have hcounted : Counted format args (emit (pieces format args) 0).1
        (emit (pieces format args) 0).2.length := by
      by_cases hmore : intMax < total (pieces format args)
      · rw [Counted, hgiveUp hmore]
        exact ⟨fun hneg => by omega, fun _ => rfl⟩
      · have hsame := hone.mpr (h.resolve_right hmore)
        rw [hfull (by omega)]
        exact ⟨fun _ => by dsimp only; omega, fun hlong => by omega⟩
    refine ⟨fun v out hrun => ?_, fun string v string' log hrun => ?_⟩
    · rw [vfprintf_eq_emit format hmatches] at hrun
      rw [Except.ok.inj hrun] at hcounted
      exact hcounted
    · rw [formatIn_eq format hmatches, foldlM_appendLogged, bind_assoc] at hrun
      obtain ⟨string₁, -, hrest⟩ := bind_eq_ok hrun
      rw [ok_bind, List.nil_append] at hrest
      obtain ⟨rfl, hlog⟩ := Prod.mk.inj (Except.ok.inj hrest)
      obtain ⟨-, rfl⟩ := Prod.mk.inj hlog
      exact hcounted

/-- `"n=%d"` with one digit. -/
def oneDigitFormat : CString where
  bytes := [0x6E#8, 0x3D#8, 0x25#8, 0x64#8]
  noNul := by decide

theorem countsRight_oneDigit : CountsRight oneDigitFormat [.int 7#32] := by
  have hmatches : Matches (conversions oneDigitFormat.bytes) [.int 7#32] := ⟨trivial, trivial⟩
  have hpieces : pieces oneDigitFormat [.int 7#32] =
      [.text [0x6E#8, 0x3D#8], .number .d 7#32] := by rfl
  refine (countsRight_iff oneDigitFormat hmatches).mpr (.inl fun conv v hin => ?_)
  rw [hpieces] at hin
  obtain ⟨rfl, rfl⟩ : conv = .d ∧ v = 7#32 := by simpa using hin
  decide

/-- `"%d"` of 42 prints two characters and counts one. -/
theorem counts_wrong :
    vfprintf intFormat [.int 42#32] = .ok (1, [0x34#8, 0x32#8]) ∧
      formatIn appendLogged scratch intFormat [.int 42#32] (List.replicate 8 0#8, []) =
        .ok (1, ([0x34#8, 0x32#8] ++ List.replicate 6 0#8, [0x34#8, 0x32#8])) ∧
      ¬ CountsRight intFormat [.int 42#32] := by
  have hrun : vfprintf intFormat [.int 42#32] = .ok (1, [0x34#8, 0x32#8]) := by decide +kernel
  refine ⟨hrun, by decide +kernel, fun h => ?_⟩
  exact absurd ((h.printed _ _ hrun).1 (by decide)) (by decide)

/-! ## Targets -/

/-- The two contents of a buffer become the same string. -/
def SameString (format : CString) (args : List Arg) (buf₁ buf₂ : List (BitVec 8)) : Prop :=
  ∃ s v₁ v₂ buf₁' buf₂', sprintf buf₁ format args = .ok (v₁, buf₁') ∧
    sprintf buf₂ format args = .ok (v₂, buf₂') ∧ Holds buf₁' s ∧ Holds buf₂' s

/-- What a call writes. -/
def outputOf (format : CString) (args : List Arg) : List (BitVec 8) :=
  (emit (pieces format args) 0).2

/-- There is room in the buffer to append the output to the string `s`. -/
def RoomFor (output s buf : List (BitVec 8)) : Prop :=
  output = [] ∨ s.length + (kept output.dropLast).length + 1 < buf.length

theorem append_of_not_mem {buf : List (BitVec 8)} (h : 0#8 ∉ buf) (c : BitVec 8) :
    append buf c = .error .fault := by
  have hlen : strlen buf = .error .fault := by
    induction buf with
    | nil => rfl
    | cons d buf ih =>
      obtain ⟨hd, hrest⟩ := not_or.mp (fun hor => h (List.mem_cons.mpr hor))
      rw [strlen, if_neg (fun he => hd he.symm), ih hrest]
      rfl
  rw [append, hlen]
  rfl

/-- What a call does to a buffer: it appends to the string that is there. -/
theorem sprintf_iff (format : CString) {args : List Arg}
    (hmatches : Matches (conversions format.bytes) args) {buf t : List (BitVec 8)} :
    (∃ v buf', sprintf buf format args = .ok (v, buf') ∧ Holds buf' t) ↔
      ∃ s, Holds buf s ∧ RoomFor (outputOf format args) s buf ∧
        t = s ++ kept (outputOf format args) := by
  rw [sprintf_eq_formatIn, formatIn_eq format hmatches]
  show (∃ v buf', (outputOf format args).foldlM append buf >>= _ = _ ∧ _) ↔ _
  constructor
  · rintro ⟨v, buf', hrun, hholds⟩
    obtain ⟨buf₁, hfold, hrest⟩ := bind_eq_ok hrun
    obtain ⟨-, rfl⟩ := Prod.mk.inj (Except.ok.inj hrest)
    by_cases hmem : 0#8 ∈ buf
    · obtain ⟨s, hs⟩ := holds_of_mem hmem
      obtain ⟨hgood, hbad⟩ := foldlM_append_holds hs (outputOf format args)
      have hroom : RoomFor (outputOf format args) s buf := by
        by_contra hfull
        rw [hbad hfull] at hfold
        cases hfold
      obtain ⟨buf', hfold', hholds', -⟩ := hgood hroom
      obtain rfl := Except.ok.inj (hfold.symm.trans hfold')
      exact ⟨s, hs, hroom, hholds.unique hholds'⟩
    · -- without a terminator nothing can be appended, and no string is there
      cases hout : outputOf format args with
      | nil =>
        rw [hout] at hfold
        obtain rfl := Except.ok.inj hfold
        obtain ⟨rest, rfl, -⟩ := hholds
        exact absurd (by simp) hmem
      | cons c cs =>
        rw [hout, List.foldlM_cons, append_of_not_mem hmem] at hfold
        cases hfold
  · rintro ⟨s, hs, hroom, rfl⟩
    obtain ⟨buf', hfold, hholds, -⟩ := (foldlM_append_holds hs (outputOf format args)).1 hroom
    refine ⟨(emit (pieces format args) 0).1, buf', ?_, hholds⟩
    rw [hfold]
    rfl

/-- **`sprintf` overwrites its target** only if there is nothing to overwrite: two
contents become the same string exactly if they hold the same string already, with
room behind it. -/
theorem sameString_iff (format : CString) {args : List Arg}
    (hmatches : Matches (conversions format.bytes) args) {buf₁ buf₂ : List (BitVec 8)}
    (hlen : buf₁.length = buf₂.length) :
    SameString format args buf₁ buf₂ ↔
      ∃ s, Holds buf₁ s ∧ Holds buf₂ s ∧ RoomFor (outputOf format args) s buf₁ := by
  constructor
  · rintro ⟨t, v₁, v₂, buf₁', buf₂', hrun₁, hrun₂, hholds₁, hholds₂⟩
    obtain ⟨s, hs, hroom, ht⟩ := (sprintf_iff format hmatches).mp ⟨v₁, buf₁', hrun₁, hholds₁⟩
    obtain ⟨s', hs', -, ht'⟩ := (sprintf_iff format hmatches).mp ⟨v₂, buf₂', hrun₂, hholds₂⟩
    obtain rfl : s = s' := List.append_cancel_right (ht.symm.trans ht')
    exact ⟨s, hs, hs', hroom⟩
  · rintro ⟨s, hs, hs', hroom⟩
    have hroom' : RoomFor (outputOf format args) s buf₂ := by
      rwa [RoomFor, ← hlen]
    obtain ⟨v₁, buf₁', hrun₁, hholds₁⟩ := (sprintf_iff format hmatches).mpr ⟨s, hs, hroom, rfl⟩
    obtain ⟨v₂, buf₂', hrun₂, hholds₂⟩ := (sprintf_iff format hmatches).mpr ⟨s, hs', hroom', rfl⟩
    exact ⟨_, v₁, v₂, buf₁', buf₂', hrun₁, hrun₂, hholds₁, hholds₂⟩

end Libc
end Medusa
