import Medusa.Libc.Numbers
import Medusa.Libc.Printf

/-!
# `strtol` and `atoi`

The string is read from the front, so a pointer into it is what is left of it, with
the terminator.  The value is kept in 32 bits, and a digit that makes it smaller is
taken for an overflow.

What a call should do is said by `Numeral`: white space, a sign, a prefix and digits,
as many as there are.  `strtol` follows it, except that a product can wrap around
without getting smaller, that the least integer is reached through a product that
does, and that a prefix without a digit behind it loses the zero it starts with.
-/

namespace Medusa
namespace Libc

open Machine Kernel

/-! ## The code -/

/-- `ERANGE`. -/
def erange : Int := 2

/-- The white space of the first loop. -/
def isSpace (c : BitVec 8) : Bool :=
  c = 0x20#8 || c = 0x09#8 || c = 0x0A#8 || c = 0x0C#8 || c = 0x0D#8 || c = 0x0B#8

def skipSpace : List (BitVec 8) → Except Stop (List (BitVec 8))
  | [] => .error .fault
  | c :: p => if isSpace c then skipSpace p else .ok (c :: p)

/-- `neg`, and where the number goes on. -/
def takeSign : List (BitVec 8) → Except Stop (Bool × List (BitVec 8))
  | [] => .error .fault
  | c :: p => if c = 0x2D#8 ∨ c = 0x2B#8 then .ok (decide (c = 0x2D#8), p) else .ok (false, c :: p)

/-- `p[1] == 'x' || p[1] == 'X'`. -/
def xFollows (p : List (BitVec 8)) : Except Stop Bool := do
  let c ← fetch p 1
  return decide (c = 0x78#8 ∨ c = 0x58#8)

/-- `*p == '0'`. -/
def zeroAt (p : List (BitVec 8)) : Except Stop Bool := do
  let c ← fetch p 0
  return decide (c = 0x30#8)

/-- The base and where the digits start, or `none` for `goto Return`. -/
def chooseBase (base : Int) (p : List (BitVec 8)) :
    Except Stop (Option (Int × List (BitVec 8))) := do
  if base = 0 then
    if ← zeroAt p then
      if ← xFollows p then return some (16, p.drop 2) else return some (8, p)
    else return some (10, p)
  else if base = 16 then
    if ← zeroAt p then
      if ← xFollows p then return some (base, p.drop 2) else return some (base, p)
    else return some (base, p)
  else if base < 0 ∨ 36 < base then return none
  else return some (base, p)

/-- `v` for the character `c`, a `char` that is signed. -/
def digitOf (base : Int) (c : BitVec 8) : Int :=
  if 0x30 ≤ c.toInt ∧ c.toInt ≤ 0x39 then c.toInt - 0x30
  else if 0x61 ≤ c.toInt ∧ c.toInt ≤ 0x7A then c.toInt - 0x61 + 10
  else if 0x41 ≤ c.toInt ∧ c.toInt ≤ 0x5A then c.toInt - 0x41 + 10
  else base

/-- Where the digit loop has got. -/
structure Digits where
  n : BitVec 32
  ovfl : Bool
  ndig : Nat

/-- The digit `v` is taken. -/
def Digits.next (d : Digits) (base v : Int) : Digits :=
  let nn := d.n * BitVec.ofInt 32 base + BitVec.ofInt 32 v
  { n := nn, ovfl := d.ovfl || nn.slt d.n, ndig := d.ndig + 1 }

def takeDigits (base : Int) : List (BitVec 8) → Digits → Except Stop (Digits × List (BitVec 8))
  | [], _ => .error .fault
  | c :: p, d =>
    if base ≤ digitOf base c then .ok (d, c :: p)
    else takeDigits base p (d.next base (digitOf base c))

/-- The value, `*endptr` and `errno` when `strtol` has returned. -/
structure Strtol where
  value : BitVec 32
  endptr : List (BitVec 8)
  errno : Int
deriving DecidableEq

/-- What stands behind the label `Return`. -/
def finish (nptr : List (BitVec 8)) (errno : Int) (neg : Bool) (d : Digits)
    (p : List (BitVec 8)) : Strtol where
  value := if neg then -d.n else d.n
  endptr := if d.ndig = 0 then nptr else p
  errno := if d.ovfl then erange else errno

def strtol (nptr : List (BitVec 8)) (base : Int) (errno : Int) : Except Stop Strtol := do
  let p ← skipSpace nptr
  let (neg, p) ← takeSign p
  match ← chooseBase base p with
  | none => return finish nptr errno neg ⟨0, false, 0⟩ p
  | some (base, p) =>
    let (d, p) ← takeDigits base p ⟨0, false, 0⟩
    return finish nptr errno neg d p

/-- `atoi`: the value and `errno`. -/
def atoi (str : List (BitVec 8)) (errno : Int) : Except Stop (BitVec 32 × Int) := do
  let r ← strtol str 10 errno
  return (r.value, r.errno)

/-! ## Numerals in a string -/

/-- The value of a digit in the bases up to 36; 36 for any other character. -/
def digitValue (c : BitVec 8) : Nat :=
  if 0x30 ≤ c.toNat ∧ c.toNat ≤ 0x39 then c.toNat - 0x30
  else if 0x61 ≤ c.toNat ∧ c.toNat ≤ 0x7A then c.toNat - 0x61 + 10
  else if 0x41 ≤ c.toNat ∧ c.toNat ≤ 0x5A then c.toNat - 0x41 + 10
  else 36

/-- `0x` or `0X` at the front. -/
def XFront (body : List (BitVec 8)) : Prop :=
  ∃ x t, body = 0x30#8 :: x :: t ∧ (x = 0x78#8 ∨ x = 0x58#8)

/-- The bases that allow the prefix. -/
def TakesPrefix (base : Nat) : Prop := base = 0 ∨ base = 16

/-- A string that begins with a number: white space, a sign, a prefix where the base
allows it, and all the digits that follow.  The prefix is one if a digit follows it. -/
structure Numeral (base : Nat) (s : List (BitVec 8)) where
  space : List (BitVec 8)
  sign : List (BitVec 8)
  pre : List (BitVec 8)
  digits : List (BitVec 8)
  rest : List (BitVec 8)
  radix : Nat
  text : s = space ++ (sign ++ (pre ++ (digits ++ rest)))
  white : ∀ c ∈ space, isSpace c = true
  signed : sign = [] ∨ sign = [0x2D#8] ∨ sign = [0x2B#8]
  prefixed : pre = [] ∨ TakesPrefix base ∧ (pre = [0x30#8, 0x78#8] ∨ pre = [0x30#8, 0x58#8])
  /-- A prefix with a digit of base 16 behind it is taken. -/
  taken : pre = [] → TakesPrefix base → XFront (digits ++ rest) →
    ∀ c, (digits ++ rest)[2]? = some c → ¬ digitValue c < 16
  radix_eq : radix = if base ≠ 0 then base else if pre ≠ [] then 16
    else if digits.head? = some 0x30#8 then 8 else 10
  nonempty : digits ≠ []
  valid : ∀ c ∈ digits, digitValue c < radix
  maximal : ∀ c, rest.head? = some c → ¬ digitValue c < radix

namespace Numeral

variable {base : Nat} {s : List (BitVec 8)}

/-- The value of the first `k` digits. -/
def valueTo (N : Numeral base s) (k : Nat) : Nat :=
  valueOf N.radix ((N.digits.take k).map digitValue)

def value (N : Numeral base s) : Nat := valueOf N.radix (N.digits.map digitValue)

def negative (N : Numeral base s) : Prop := N.sign = [0x2D#8]

instance (N : Numeral base s) : Decidable N.negative := inferInstanceAs (Decidable (_ = _))

/-- The number. -/
def number (N : Numeral base s) : Int := if N.negative then -(N.value : Int) else N.value

/-- The zero is the first character of a prefix that no digit follows. -/
def Dangling (N : Numeral base s) : Prop :=
  N.pre = [] ∧ TakesPrefix base ∧ XFront (N.digits ++ N.rest)

/-- Modulo 2^32 and with its sign, the value gets smaller by some digit. -/
def Drops (N : Numeral base s) : Prop :=
  ∃ k < N.digits.length, toInt (wrap (N.valueTo (k + 1))) < toInt (wrap (N.valueTo k))

end Numeral

/-- What a call should do: the number and `errno` as it was, or `ERANGE` if the number
is no `long`; and the end of the digits, or the start if there are none. -/
def StrtolRight (base : Nat) (s : CString) (junk : List (BitVec 8)) : Prop :=
  ∀ errno, ∃ r, strtol (s.bytes ++ 0#8 :: junk) base errno = .ok r ∧
    (∀ N : Numeral base s.bytes, r.endptr = N.rest ++ 0#8 :: junk ∧
      if -2 ^ 31 ≤ N.number ∧ N.number < 2 ^ 31 then
        r.value.toInt = N.number ∧ r.errno = errno
      else r.errno = erange) ∧
    (IsEmpty (Numeral base s.bytes) → r.endptr = s.bytes ++ 0#8 :: junk)

/-! ## The digits -/

theorem digitOf_eq {base : Nat} (hbase : base ≤ 36) (c : BitVec 8) :
    (¬ (base : Int) ≤ digitOf base c ↔ digitValue c < base) ∧
      (digitValue c < base → digitOf base c = digitValue c) := by
  have hlt := c.isLt
  have hsigned := BitVec.toInt_eq_toNat_cond c
  unfold digitOf digitValue
  by_cases hlow : 2 * c.toNat < 2 ^ 8
  · rw [if_pos hlow] at hsigned
    rw [hsigned]
    grind
  · rw [if_neg hlow] at hsigned
    rw [hsigned]
    grind

/-- The digits taken one after another. -/
def Digits.run (base : Nat) (ds : List (BitVec 8)) : Digits :=
  ds.foldl (fun d c => d.next base (digitValue c)) ⟨0, false, 0⟩

theorem takeDigits_eq {base : Nat} (hbase : base ≤ 36) {ds p : List (BitVec 8)} {c : BitVec 8}
    (hds : ∀ c ∈ ds, digitValue c < base) (hc : ¬ digitValue c < base) (d : Digits) :
    takeDigits base (ds ++ c :: p) d =
      .ok (ds.foldl (fun d c => d.next base (digitValue c)) d, c :: p) := by
  induction ds generalizing d with
  | nil =>
    have hend : (base : Int) ≤ digitOf base c := by
      by_contra hlt
      exact hc ((digitOf_eq hbase c).1.mp hlt)
    rw [List.nil_append, takeDigits, if_pos hend]
    rfl
  | cons e ds ih =>
    have he := hds e (List.mem_cons_self ..)
    rw [List.cons_append, takeDigits, if_neg ((digitOf_eq hbase e).1.mpr he),
      (digitOf_eq hbase e).2 he, ih fun c hc => hds c (List.mem_cons_of_mem e hc)]
    rfl

theorem toInt_ofNat (m : Nat) : (BitVec.ofNat 32 m).toInt = toInt (wrap m) := by
  rw [BitVec.toInt_eq_toNat_cond, BitVec.toNat_ofNat, toInt, wrap]
  split
  · rw [if_pos (by omega)]
  · rw [if_neg (by omega)]
    rfl

/-- The accumulator holds the value of the digits, modulo 2^32, and the flag says
whether it has got smaller. -/
theorem Digits.run_spec (base : Nat) (ds : List (BitVec 8)) :
    (Digits.run base ds).n = BitVec.ofNat 32 (valueOf base (ds.map digitValue)) ∧
      (Digits.run base ds).ndig = ds.length ∧
      ((Digits.run base ds).ovfl = true ↔ ∃ k < ds.length,
        toInt (wrap (valueOf base ((ds.take (k + 1)).map digitValue))) <
          toInt (wrap (valueOf base ((ds.take k).map digitValue)))) := by
  induction ds using List.reverseRecOn with
  | nil => simp [run]
  | append_singleton ds c ih =>
    obtain ⟨hn, hndig, hovfl⟩ := ih
    have hrun : Digits.run base (ds ++ [c]) = (Digits.run base ds).next base (digitValue c) := by
      rw [run, List.foldl_append]
      rfl
    have hnext : (Digits.run base (ds ++ [c])).n =
        BitVec.ofNat 32 (valueOf base ((ds ++ [c]).map digitValue)) := by
      rw [hrun, List.map_append, List.map_singleton, valueOf_snoc, next, hn]
      simp only [BitVec.ofInt_natCast, BitVec.ofNat_add, BitVec.ofNat_mul]
    refine ⟨hnext, by rw [hrun, next, hndig, List.length_append]; rfl, ?_⟩
    have hflag : (Digits.run base (ds ++ [c])).ovfl = true ↔ (Digits.run base ds).ovfl = true ∨
        toInt (wrap (valueOf base ((ds ++ [c]).map digitValue))) <
          toInt (wrap (valueOf base (ds.map digitValue))) := by
      rw [← toInt_ofNat, ← toInt_ofNat, ← hnext, ← hn, hrun]
      simp [next, BitVec.slt]
    rw [hflag, hovfl, List.length_append, List.length_singleton]
    constructor
    · rintro (⟨k, hk, hdrop⟩ | hdrop)
      · refine ⟨k, by omega, ?_⟩
        rwa [List.take_append_of_le_length (by omega), List.take_append_of_le_length (by omega)]
      · refine ⟨ds.length, by omega, ?_⟩
        rwa [List.take_of_length_le (by simp), List.take_left]
    · rintro ⟨k, hk, hdrop⟩
      by_cases hlast : k = ds.length
      · refine .inr ?_
        rwa [hlast, List.take_of_length_le (by simp), List.take_left] at hdrop
      · refine .inl ⟨k, by omega, ?_⟩
        rwa [List.take_append_of_le_length (by omega), List.take_append_of_le_length (by omega)]
          at hdrop

/-! ## What stands in front of the digits -/

/-- A string cut into white space, a sign and the rest. -/
structure Heading (s : List (BitVec 8)) where
  space : List (BitVec 8)
  sign : List (BitVec 8)
  body : List (BitVec 8)
  text : s = space ++ (sign ++ body)
  white : ∀ c ∈ space, isSpace c = true
  signed : sign = [] ∨ sign = [0x2D#8] ∨ sign = [0x2B#8]
  bare : sign = [] → ∀ c, body.head? = some c → isSpace c = false ∧ ¬(c = 0x2D#8 ∨ c = 0x2B#8)

theorem exists_heading (s : List (BitVec 8)) : Nonempty (Heading s) := by
  have hcut := List.takeWhile_append_dropWhile (p := isSpace) (l := s)
  have hwhite : ∀ c ∈ s.takeWhile isSpace, isSpace c = true := fun c hc =>
    List.all_eq_true.mp List.all_takeWhile c hc
  have hhead : ∀ c, (s.dropWhile isSpace).head? = some c → isSpace c = false := by
    intro c hc
    have h := List.head?_dropWhile_not isSpace s
    rw [hc] at h
    simpa using h
  generalize s.takeWhile isSpace = space at hcut hwhite
  generalize s.dropWhile isSpace = body at hcut hhead
  cases body with
  | nil => exact ⟨⟨space, [], [], hcut.symm, hwhite, .inl rfl, fun _ c hc => by cases hc⟩⟩
  | cons c body =>
    by_cases hminus : c = 0x2D#8
    · subst hminus
      exact ⟨⟨space, [0x2D#8], body, hcut.symm, hwhite, .inr (.inl rfl), fun h => by cases h⟩⟩
    · by_cases hplus : c = 0x2B#8
      · subst hplus
        exact ⟨⟨space, [0x2B#8], body, hcut.symm, hwhite, .inr (.inr rfl), fun h => by cases h⟩⟩
      · refine ⟨⟨space, [], c :: body, hcut.symm, hwhite, .inl rfl, fun _ d hd => ?_⟩⟩
        obtain rfl : c = d := by simpa using hd
        exact ⟨hhead c rfl, fun h => h.elim hminus hplus⟩

theorem skipSpace_eq {space p : List (BitVec 8)} {c : BitVec 8}
    (hspace : ∀ c ∈ space, isSpace c = true) (hc : isSpace c = false) :
    skipSpace (space ++ c :: p) = .ok (c :: p) := by
  induction space with
  | nil => rw [List.nil_append, skipSpace, if_neg (by simp [hc])]
  | cons d space ih =>
    rw [List.cons_append, skipSpace, if_pos (hspace d (List.mem_cons_self ..))]
    exact ih fun c hc => hspace c (List.mem_cons_of_mem d hc)

/-- The first two loops end behind the sign. -/
theorem skip_eq {space sign body : List (BitVec 8)} (white : ∀ c ∈ space, isSpace c = true)
    (signed : sign = [] ∨ sign = [0x2D#8] ∨ sign = [0x2B#8])
    (bare : sign = [] → ∀ c, body.head? = some c →
      isSpace c = false ∧ ¬(c = 0x2D#8 ∨ c = 0x2B#8)) (junk : List (BitVec 8)) :
    skipSpace (space ++ (sign ++ body) ++ 0#8 :: junk) >>= takeSign =
      .ok (decide (sign = [0x2D#8]), body ++ 0#8 :: junk) := by
  rw [List.append_assoc]
  rcases signed with rfl | rfl | rfl
  · cases body with
    | nil =>
      rw [List.nil_append, List.nil_append, skipSpace_eq white (by decide), ok_bind]
      rfl
    | cons c body =>
      obtain ⟨hspace, hbare⟩ := bare rfl c rfl
      rw [List.nil_append, List.cons_append, skipSpace_eq white hspace, ok_bind, takeSign,
        if_neg hbare]
      rfl
  · rw [List.append_assoc, List.singleton_append, skipSpace_eq white (by decide), ok_bind]
    rfl
  · rw [List.append_assoc, List.singleton_append, skipSpace_eq white (by decide), ok_bind]
    rfl

theorem Heading.skip {s : List (BitVec 8)} (H : Heading s) (junk : List (BitVec 8)) :
    skipSpace (s ++ 0#8 :: junk) >>= takeSign =
      .ok (decide (H.sign = [0x2D#8]), H.body ++ 0#8 :: junk) := by
  have h := skip_eq H.white H.signed H.bare junk
  rwa [← H.text] at h

instance (body : List (BitVec 8)) : Decidable (XFront body) :=
  decidable_of_iff (body.head? = some 0x30#8 ∧
    (body[1]? = some 0x78#8 ∨ body[1]? = some 0x58#8)) <| by
    match body with
    | [] => simp [XFront]
    | [c] => simp [XFront]
    | c :: x :: t =>
      constructor
      · rintro ⟨hc, hx⟩
        exact ⟨x, t, by simpa using hc, by simpa using hx⟩
      · rintro ⟨x', t', he, hx⟩
        obtain ⟨rfl, rfl, rfl⟩ : c = 0x30#8 ∧ x = x' ∧ t = t' := by simpa using he
        exact ⟨rfl, by simpa using hx⟩

instance (base : Nat) : Decidable (TakesPrefix base) := inferInstanceAs (Decidable (_ ∨ _))

/-- The base that the code takes and where its digits start. -/
def chosen (base : Nat) (body : List (BitVec 8)) : Nat × List (BitVec 8) :=
  if TakesPrefix base ∧ XFront body then (16, body.drop 2)
  else if base = 0 then (if body.head? = some 0x30#8 then 8 else 10, body)
  else (base, body)

/-- The bases of which there are digits. -/
def IsBase (base : Nat) : Prop := base = 0 ∨ 2 ≤ base ∧ base ≤ 36

theorem IsBase.chosen {base : Nat} (h : IsBase base) (body : List (BitVec 8)) :
    2 ≤ (chosen base body).1 ∧ (chosen base body).1 ≤ 36 := by
  unfold IsBase at h
  unfold Libc.chosen
  split
  · dsimp only
    omega
  · split
    · dsimp only
      split
      · decide
      · decide
    · dsimp only
      omega

theorem zeroAt_eq (body junk : List (BitVec 8)) :
    zeroAt (body ++ 0#8 :: junk) = .ok (decide (body.head? = some 0x30#8)) := by
  cases body with
  | nil => rfl
  | cons c body => simp [zeroAt, fetch, ok_bind, pure, Except.pure]

theorem xFollows_eq {body : List (BitVec 8)} (h : body.head? = some 0x30#8)
    (junk : List (BitVec 8)) : xFollows (body ++ 0#8 :: junk) = .ok (decide (XFront body)) := by
  match body, h with
  | [c], h =>
    obtain rfl : c = 0x30#8 := by simpa using h
    have hx : ¬ XFront [0x30#8] := by decide
    rw [decide_eq_false hx]
    rfl
  | c :: x :: t, h =>
    obtain rfl : c = 0x30#8 := by simpa using h
    have hx : XFront (0x30#8 :: x :: t) ↔ x = 0x78#8 ∨ x = 0x58#8 := by
      constructor
      · rintro ⟨x', t', he, hx⟩
        obtain ⟨rfl, -⟩ : x = x' ∧ t = t' := by simpa using he
        exact hx
      · exact fun hx => ⟨x, t, rfl, hx⟩
    rw [decide_eq_decide.mpr hx]
    rfl

theorem XFront.head {body : List (BitVec 8)} (h : XFront body) : body.head? = some 0x30#8 := by
  obtain ⟨x, t, rfl, -⟩ := h
  rfl

theorem XFront.drop {body : List (BitVec 8)} (h : XFront body) (junk : List (BitVec 8)) :
    (body ++ junk).drop 2 = body.drop 2 ++ junk := by
  obtain ⟨x, t, rfl, -⟩ := h
  rfl

theorem chooseBase_eq {base : Nat} (hbase : IsBase base) (body junk : List (BitVec 8)) :
    chooseBase base (body ++ 0#8 :: junk) =
      .ok (some ((chosen base body).1, (chosen base body).2 ++ 0#8 :: junk)) := by
  unfold chooseBase chosen
  rw [zeroAt_eq]
  by_cases hzero : base = 0
  · subst hzero
    rw [if_pos (by simp), if_pos rfl]
    by_cases hhead : body.head? = some 0x30#8
    · rw [decide_eq_true hhead, xFollows_eq hhead]
      by_cases hx : XFront body
      · rw [decide_eq_true hx, if_pos ⟨.inl rfl, hx⟩, ← hx.drop]
        rfl
      · rw [decide_eq_false hx, if_neg (fun h => hx h.2), if_pos hhead]
        rfl
    · rw [decide_eq_false hhead, if_neg (fun h => hhead h.2.head), if_neg hhead]
      rfl
  · rw [if_neg (by simpa using hzero), if_neg hzero]
    by_cases hsixteen : base = 16
    · subst hsixteen
      rw [if_pos (by decide)]
      by_cases hhead : body.head? = some 0x30#8
      · rw [decide_eq_true hhead, xFollows_eq hhead]
        by_cases hx : XFront body
        · rw [decide_eq_true hx, if_pos ⟨.inr rfl, hx⟩, ← hx.drop]
          rfl
        · rw [decide_eq_false hx, if_neg (fun h => hx h.2)]
          rfl
      · rw [decide_eq_false hhead, if_neg (fun h => hhead h.2.head)]
        rfl
    · have hno : ¬(TakesPrefix base ∧ XFront body) := fun h => h.1.elim hzero hsixteen
      unfold IsBase at hbase
      rw [if_neg (by omega), if_neg (by omega), if_neg hno]
      rfl

/-- **What `strtol` returns**, in terms of its parts. -/
theorem strtol_eq {base : Nat} (hbase : IsBase base) {s ds p : List (BitVec 8)} (H : Heading s)
    (junk : List (BitVec 8)) (errno : Int) (hcut : (chosen base H.body).2 = ds ++ p)
    (hds : ∀ c ∈ ds, digitValue c < (chosen base H.body).1)
    (hp : ∀ c, p.head? = some c → ¬ digitValue c < (chosen base H.body).1) :
    strtol (s ++ 0#8 :: junk) base errno =
      .ok (finish (s ++ 0#8 :: junk) errno (decide (H.sign = [0x2D#8]))
        (Digits.run (chosen base H.body).1 ds) (p ++ 0#8 :: junk)) := by
  obtain ⟨htwo, hmany⟩ := hbase.chosen H.body
  have hdigits : takeDigits (chosen base H.body).1 (ds ++ (p ++ 0#8 :: junk)) ⟨0, false, 0⟩ =
      .ok (Digits.run (chosen base H.body).1 ds, p ++ 0#8 :: junk) := by
    cases p with
    | nil =>
      have hzero : ¬ digitValue 0#8 < (chosen base H.body).1 := by
        have h : digitValue 0#8 = 36 := by decide
        omega
      exact takeDigits_eq hmany hds hzero _
    | cons c p => exact takeDigits_eq hmany hds (hp c rfl) _
  have hskip := H.skip junk
  have hchoose := chooseBase_eq hbase H.body junk
  rw [hcut, List.append_assoc] at hchoose
  rw [strtol, ← bind_assoc, hskip, ok_bind]
  simp only [hchoose, ok_bind, hdigits]
  rfl

/-! ## Numerals and what `strtol` makes of them -/

theorem not_space_of_digit {c : BitVec 8} (h : digitValue c < 36) :
    isSpace c = false ∧ ¬(c = 0x2D#8 ∨ c = 0x2B#8) := by
  revert c
  decide +kernel

namespace Numeral

variable {base : Nat} {s : List (BitVec 8)}

theorem radix_bounds (N : Numeral base s) (hbase : IsBase base) : 2 ≤ N.radix ∧ N.radix ≤ 36 := by
  unfold IsBase at hbase
  rw [N.radix_eq]
  grind

/-- The numeral begins with a digit, or with the zero of its prefix. -/
def heading (N : Numeral base s) (hbase : IsBase base) : Heading s where
  space := N.space
  sign := N.sign
  body := N.pre ++ (N.digits ++ N.rest)
  text := N.text
  white := N.white
  signed := N.signed
  bare := fun _ c hc => by
    have hbound := N.radix_bounds hbase
    have hvalid := N.valid
    rcases N.prefixed with hpre | ⟨-, hpre | hpre⟩
    · cases hdigits : N.digits with
      | nil => exact absurd hdigits N.nonempty
      | cons d ds =>
        rw [hpre, hdigits] at hc
        obtain rfl : d = c := by simpa using hc
        have hd := hvalid d (by rw [hdigits]; exact List.mem_cons_self ..)
        exact not_space_of_digit (by omega)
    · rw [hpre] at hc
      obtain rfl : 0x30#8 = c := by simpa using hc
      decide
    · rw [hpre] at hc
      obtain rfl : 0x30#8 = c := by simpa using hc
      decide

theorem chosen_eq (N : Numeral base s) (h : ¬ N.Dangling) :
    chosen base (N.pre ++ (N.digits ++ N.rest)) = (N.radix, N.digits ++ N.rest) := by
  have hradix := N.radix_eq
  by_cases hpre : N.pre = []
  · have hno : ¬(TakesPrefix base ∧ XFront (N.digits ++ N.rest)) := fun hx =>
      h ⟨hpre, hx.1, hx.2⟩
    have hhead : (N.digits ++ N.rest).head? = N.digits.head? :=
      List.head?_append_of_ne_nil _ N.nonempty
    rw [hpre, List.nil_append, chosen, if_neg hno, hhead]
    by_cases hzero : base = 0
    · rw [if_neg (not_not.mpr hzero), if_neg (not_not.mpr hpre)] at hradix
      rw [if_pos hzero, hradix]
    · rw [if_pos hzero] at hradix
      rw [if_neg hzero, hradix]
  · obtain ⟨htakes, hx⟩ := N.prefixed.resolve_left hpre
    have hfront : XFront (N.pre ++ (N.digits ++ N.rest)) ∧
        (N.pre ++ (N.digits ++ N.rest)).drop 2 = N.digits ++ N.rest := by
      rcases hx with hx | hx
      · rw [hx]
        exact ⟨⟨_, _, rfl, .inl rfl⟩, rfl⟩
      · rw [hx]
        exact ⟨⟨_, _, rfl, .inr rfl⟩, rfl⟩
    have hsixteen : N.radix = 16 := by
      rw [hradix, if_pos hpre]
      rcases htakes with hzero | hsixteen
      · rw [if_neg (not_not.mpr hzero)]
      · rw [hsixteen]
        rfl
    rw [chosen, if_pos ⟨htakes, hfront.1⟩, hfront.2, hsixteen]

/-- What a call returns for a numeral. -/
theorem run (N : Numeral base s) (hbase : IsBase base) (h : ¬ N.Dangling)
    (junk : List (BitVec 8)) (errno : Int) :
    strtol (s ++ 0#8 :: junk) base errno =
      .ok (finish (s ++ 0#8 :: junk) errno (decide N.negative)
        (Digits.run N.radix N.digits) (N.rest ++ 0#8 :: junk)) := by
  have hchosen := N.chosen_eq h
  have hrun := @strtol_eq base hbase s N.digits N.rest (N.heading hbase) junk errno
  change (chosen base (N.pre ++ (N.digits ++ N.rest))).2 = _ →
    (∀ c ∈ N.digits, digitValue c < (chosen base (N.pre ++ (N.digits ++ N.rest))).1) →
    (∀ c, N.rest.head? = some c →
      ¬ digitValue c < (chosen base (N.pre ++ (N.digits ++ N.rest))).1) →
    strtol (s ++ 0#8 :: junk) base errno =
      .ok (finish (s ++ 0#8 :: junk) errno (decide N.negative)
        (Digits.run (chosen base (N.pre ++ (N.digits ++ N.rest))).1 N.digits) _) at hrun
  rw [hchosen] at hrun
  exact hrun rfl N.valid N.maximal

/-- A prefix that no digit follows is skipped, and then there are no digits. -/
theorem run_dangling (N : Numeral base s) (hbase : IsBase base) (h : N.Dangling)
    (junk : List (BitVec 8)) (errno : Int) :
    ∃ r, strtol (s ++ 0#8 :: junk) base errno = .ok r ∧ r.endptr = s ++ 0#8 :: junk := by
  obtain ⟨hpre, htakes, hx⟩ := h
  have hchosen : chosen base (N.heading hbase).body = (16, (N.digits ++ N.rest).drop 2) := by
    change chosen base (N.pre ++ (N.digits ++ N.rest)) = _
    rw [hpre, List.nil_append, chosen, if_pos ⟨htakes, hx⟩]
  have hstop : ∀ c, ((N.digits ++ N.rest).drop 2).head? = some c → ¬ digitValue c < 16 := by
    intro c hc
    rw [List.head?_drop] at hc
    exact N.taken hpre htakes hx c hc
  have hrun := @strtol_eq base hbase s [] ((N.digits ++ N.rest).drop 2) (N.heading hbase) junk errno
    (by rw [hchosen]; rfl) (fun _ hc => by cases hc)
    (by rw [hchosen]; exact hstop)
  exact ⟨_, hrun, rfl⟩

theorem valueTo_succ (N : Numeral base s) {k : Nat} (hk : k < N.digits.length) :
    ∃ d, N.valueTo (k + 1) = N.valueTo k * N.radix + d := by
  refine ⟨digitValue N.digits[k], ?_⟩
  rw [valueTo, List.take_succ_eq_append_getElem hk, List.map_append, List.map_singleton,
    valueOf_snoc, valueTo]

theorem valueTo_le (N : Numeral base s) (hbase : IsBase base) (k : Nat) :
    N.valueTo k ≤ N.value := by
  have hbound := N.radix_bounds hbase
  rw [valueTo, value, List.map_take]
  exact valueOf_take_le (by omega) _ k

theorem valueTo_length (N : Numeral base s) : N.valueTo N.digits.length = N.value := by
  rw [valueTo, List.take_length, value]

/-- From 2^31 on only the least integer is a `long`. -/
theorem not_long (N : Numeral base s) (hbig : 2 ^ 31 ≤ N.value)
    (hleast : ¬(N.negative ∧ N.value = 2 ^ 31)) : ¬(-2 ^ 31 ≤ N.number ∧ N.number < 2 ^ 31) := by
  rw [number]
  split
  · rename_i hneg
    have hne : N.value ≠ 2 ^ 31 := fun he => hleast ⟨hneg, he⟩
    omega
  · omega

theorem long_of_lt (N : Numeral base s) (h : N.value < 2 ^ 31) :
    -2 ^ 31 ≤ N.number ∧ N.number < 2 ^ 31 := by
  rw [number]
  split
  · omega
  · omega

/-- Nothing wraps while the value is a `long`. -/
theorem not_drops (N : Numeral base s) (hbase : IsBase base) (h : N.value < 2 ^ 31) :
    ¬ N.Drops := by
  rintro ⟨k, hk, hdrop⟩
  have hbound := N.radix_bounds hbase
  have hle := N.valueTo_le hbase k
  have hle' := N.valueTo_le hbase (k + 1)
  obtain ⟨d, hnext⟩ := N.valueTo_succ hk
  have hgrow : N.valueTo k * 1 ≤ N.valueTo k * N.radix := Nat.mul_le_mul_left _ (by omega)
  rw [wrap_of_lt (by omega), wrap_of_lt (by omega), toInt_of_lt (by omega),
    toInt_of_lt (by omega)] at hdrop
  omega

/-- The step to 2^31 is one to the least integer. -/
theorem drops_of_value_eq (N : Numeral base s) (hbase : IsBase base) (h : N.value = 2 ^ 31) :
    N.Drops := by
  have hbound := N.radix_bounds hbase
  have hpos := List.length_pos_of_ne_nil N.nonempty
  refine ⟨N.digits.length - 1, by omega, ?_⟩
  obtain ⟨d, hnext⟩ := N.valueTo_succ (k := N.digits.length - 1) (by omega)
  rw [Nat.sub_add_cancel hpos, N.valueTo_length, h] at hnext
  have hhalf : N.valueTo (N.digits.length - 1) * 2 ≤
      N.valueTo (N.digits.length - 1) * N.radix := Nat.mul_le_mul_left _ hbound.1
  have hneg := toInt_neg (n := 2 ^ 31) (by decide) (by decide)
  rw [Nat.sub_add_cancel hpos, N.valueTo_length, h, wrap_of_lt (by decide),
    wrap_of_lt (by omega), toInt_of_lt (n := N.valueTo (N.digits.length - 1)) (by omega)]
  omega

/-- The three parts of what a call returns for a numeral. -/
theorem finish_spec (N : Numeral base s) (nptr p : List (BitVec 8)) (errno : Int) :
    (finish nptr errno (decide N.negative) (Digits.run N.radix N.digits) p).value =
        (if N.negative then -BitVec.ofNat 32 N.value else BitVec.ofNat 32 N.value) ∧
      (finish nptr errno (decide N.negative) (Digits.run N.radix N.digits) p).endptr = p ∧
      (N.Drops → (finish nptr errno (decide N.negative)
        (Digits.run N.radix N.digits) p).errno = erange) ∧
      (¬ N.Drops → (finish nptr errno (decide N.negative)
        (Digits.run N.radix N.digits) p).errno = errno) := by
  obtain ⟨hn, hndig, hovfl⟩ := Digits.run_spec N.radix N.digits
  have hpos := List.length_pos_of_ne_nil N.nonempty
  refine ⟨?_, ?_, fun hdrops => ?_, fun hdrops => ?_⟩
  · rw [finish, hn]
    by_cases hneg : N.negative
    · simp [hneg, value]
    · simp [hneg, value]
  · rw [finish, hndig]
    exact if_neg (by omega)
  · exact if_pos (hovfl.mpr hdrops)
  · exact if_neg (fun ho => hdrops (hovfl.mp ho))

/-- Value and `errno` are right if every value from 2^31 on is noticed, and is none of
a `long`. -/
theorem finish_right (N : Numeral base s) (hbase : IsBase base)
    (hbig : 2 ^ 31 ≤ N.value → N.Drops ∧ ¬(N.negative ∧ N.value = 2 ^ 31))
    (nptr p : List (BitVec 8)) (errno : Int) :
    if -2 ^ 31 ≤ N.number ∧ N.number < 2 ^ 31 then
      (finish nptr errno (decide N.negative) (Digits.run N.radix N.digits) p).value.toInt =
          N.number ∧
        (finish nptr errno (decide N.negative) (Digits.run N.radix N.digits) p).errno = errno
    else (finish nptr errno (decide N.negative) (Digits.run N.radix N.digits) p).errno =
      erange := by
  obtain ⟨hvalue, -, hset, hkept⟩ := N.finish_spec nptr p errno
  by_cases hlong : N.value < 2 ^ 31
  · have hword : (BitVec.ofNat 32 N.value).toInt = N.value := by
      rw [toInt_ofNat, wrap_of_lt (by omega), toInt_of_lt hlong]
    rw [if_pos (N.long_of_lt hlong), hvalue]
    refine ⟨?_, hkept (N.not_drops hbase hlong)⟩
    rw [number]
    split
    · rw [toInt_neg_of_ne, hword]
      intro hmin
      rw [hmin] at hword
      have hleast : (BitVec.intMin 32).toInt = -2 ^ 31 := by decide
      omega
    · exact hword
  · obtain ⟨hdrops, hleast⟩ := hbig (by omega)
    rw [if_neg (N.not_long (by omega) hleast)]
    exact hset hdrops

/-- And only then: with `errno` 0 before, a change shows. -/
theorem drops_of_finish_right (N : Numeral base s) (hbase : IsBase base)
    (nptr p : List (BitVec 8)) (hbig : 2 ^ 31 ≤ N.value)
    (h : if -2 ^ 31 ≤ N.number ∧ N.number < 2 ^ 31 then
        (finish nptr 0 (decide N.negative) (Digits.run N.radix N.digits) p).value.toInt =
            N.number ∧
          (finish nptr 0 (decide N.negative) (Digits.run N.radix N.digits) p).errno = 0
      else (finish nptr 0 (decide N.negative) (Digits.run N.radix N.digits) p).errno = erange) :
    N.Drops ∧ ¬(N.negative ∧ N.value = 2 ^ 31) := by
  obtain ⟨-, -, hset, hkept⟩ := N.finish_spec nptr p 0
  have hleast : ¬(N.negative ∧ N.value = 2 ^ 31) := by
    rintro ⟨hneg, hvalue⟩
    have hnum : N.number = -2 ^ 31 := by
      rw [number, if_pos hneg, hvalue]
      rfl
    rw [if_pos (by omega), hset (N.drops_of_value_eq hbase hvalue)] at h
    exact absurd h.2 (by decide)
  refine ⟨?_, hleast⟩
  by_contra hdrops
  rw [if_neg (N.not_long hbig hleast), hkept hdrops] at h
  exact absurd h (by decide)

end Numeral

/-- Digits where the code looks for them are those of a numeral. -/
theorem Heading.numeral {base : Nat} {s : List (BitVec 8)} (H : Heading s)
    {ds rest : List (BitVec 8)} (hcut : (chosen base H.body).2 = ds ++ rest) (hne : ds ≠ [])
    (hvalid : ∀ c ∈ ds, digitValue c < (chosen base H.body).1)
    (hmaximal : ∀ c, rest.head? = some c → ¬ digitValue c < (chosen base H.body).1) :
    Nonempty (Numeral base s) := by
  have htext := H.text
  by_cases hx : TakesPrefix base ∧ XFront H.body
  · have hchosen : chosen base H.body = (16, H.body.drop 2) := if_pos hx
    rw [hchosen] at hcut hvalid hmaximal
    obtain ⟨htakes, x, t, hbody, hx⟩ := hx
    dsimp only at hcut hvalid hmaximal
    rw [hbody] at htext hcut
    have hpre : [0x30#8, x] = [0x30#8, 0x78#8] ∨ [0x30#8, x] = [0x30#8, 0x58#8] := by
      rcases hx with rfl | rfl
      · exact .inl rfl
      · exact .inr rfl
    have hbase : 16 = if base ≠ 0 then base else if [0x30#8, x] ≠ [] then 16
        else if ds.head? = some 0x30#8 then 8 else 10 := by
      rcases htakes with rfl | rfl
      · rfl
      · rfl
    exact ⟨{
      space := H.space
      sign := H.sign
      pre := [0x30#8, x]
      digits := ds
      rest := rest
      radix := 16
      text := by
        rw [← hcut]
        exact htext
      white := H.white
      signed := H.signed
      prefixed := .inr ⟨htakes, hpre⟩
      taken := fun h => by cases h
      radix_eq := hbase
      nonempty := hne
      valid := hvalid
      maximal := hmaximal }⟩
  · have hbody : H.body = ds ++ rest := by
      rw [← hcut, chosen, if_neg hx]
      split
      · rfl
      · rfl
    have hhead : H.body.head? = ds.head? := by
      rw [hbody]
      exact List.head?_append_of_ne_nil _ hne
    have hbase : (chosen base H.body).1 = if base ≠ 0 then base
        else if ([] : List (BitVec 8)) ≠ [] then 16
        else if ds.head? = some 0x30#8 then 8 else 10 := by
      rw [chosen, if_neg hx, hhead]
      by_cases hzero : base = 0
      · rw [if_pos hzero, if_neg (not_not.mpr hzero)]
        rfl
      · rw [if_neg hzero, if_pos hzero]
    rw [hbody] at htext hx
    exact ⟨{
      space := H.space
      sign := H.sign
      pre := []
      digits := ds
      rest := rest
      radix := (chosen base H.body).1
      text := htext
      white := H.white
      signed := H.signed
      prefixed := .inl rfl
      taken := fun _ htakes hfront => absurd ⟨htakes, hfront⟩ hx
      radix_eq := hbase
      nonempty := hne
      valid := hvalid
      maximal := hmaximal }⟩

/-- A call on a string that does not begin with a number gives the start back. -/
theorem strtol_of_isEmpty {base : Nat} (hbase : IsBase base) {s : List (BitVec 8)}
    (hnone : IsEmpty (Numeral base s)) (junk : List (BitVec 8)) (errno : Int) :
    ∃ r, strtol (s ++ 0#8 :: junk) base errno = .ok r ∧ r.endptr = s ++ 0#8 :: junk := by
  obtain ⟨H⟩ := exists_heading s
  generalize hradix : (chosen base H.body).1 = radix
  have hcut := List.takeWhile_append_dropWhile (p := fun c => decide (digitValue c < radix))
    (l := (chosen base H.body).2)
  have hvalid : ∀ c ∈ (chosen base H.body).2.takeWhile fun c => decide (digitValue c < radix),
      digitValue c < radix := fun c hc => by
    simpa using List.all_eq_true.mp List.all_takeWhile c hc
  have hmaximal : ∀ c, ((chosen base H.body).2.dropWhile
      fun c => decide (digitValue c < radix)).head? = some c → ¬ digitValue c < radix := by
    intro c hc
    have h := List.head?_dropWhile_not (fun c => decide (digitValue c < radix))
      (chosen base H.body).2
    rw [hc] at h
    simpa using h
  generalize ((chosen base H.body).2.takeWhile fun c => decide (digitValue c < radix)) = ds
    at hcut hvalid
  generalize ((chosen base H.body).2.dropWhile fun c => decide (digitValue c < radix)) = rest
    at hcut hmaximal
  subst hradix
  have hempty : ds = [] := by
    by_contra hne
    obtain ⟨N⟩ := H.numeral hcut.symm hne hvalid hmaximal
    exact hnone.false N
  subst hempty
  exact ⟨_, strtol_eq hbase H junk errno hcut.symm hvalid hmaximal, rfl⟩

/-! ## When `strtol` is right -/

/-- **`strtol` is right** about a number exactly if it does not begin with a prefix
that no digit follows and, from 2^31 on, is not the least integer and makes the
accumulator smaller at some digit. -/
theorem strtol_right_iff {base : Nat} (hbase : IsBase base) (s : CString)
    (junk : List (BitVec 8)) :
    StrtolRight base s junk ↔ ∀ N : Numeral base s.bytes, ¬ N.Dangling ∧
      (2 ^ 31 ≤ N.value → N.Drops ∧ ¬(N.negative ∧ N.value = 2 ^ 31)) := by
  constructor
  · intro h N
    obtain ⟨r, hrun, hN, -⟩ := h 0
    obtain ⟨hend, hnumber⟩ := hN N
    have hdangling : ¬ N.Dangling := by
      intro hd
      obtain ⟨r', hrun', hend'⟩ := N.run_dangling hbase hd junk 0
      obtain rfl := Except.ok.inj (hrun.symm.trans hrun')
      have hlen := congrArg List.length (hend.symm.trans hend')
      have hpos := List.length_pos_of_ne_nil N.nonempty
      have htext := congrArg List.length N.text
      simp only [List.length_append] at hlen htext
      omega
    refine ⟨hdangling, fun hbig => ?_⟩
    obtain rfl := Except.ok.inj (hrun.symm.trans (N.run hbase hdangling junk 0))
    exact N.drops_of_finish_right hbase _ _ hbig hnumber
  · intro h errno
    by_cases hsome : IsEmpty (Numeral base s.bytes)
    · obtain ⟨r, hrun, hend⟩ := strtol_of_isEmpty hbase hsome junk errno
      exact ⟨r, hrun, fun N => (hsome.false N).elim, fun _ => hend⟩
    · obtain ⟨N₀⟩ := not_isEmpty_iff.mp hsome
      refine ⟨_, N₀.run hbase (h N₀).1 junk errno, fun N => ?_, fun hnone => absurd hnone hsome⟩
      obtain ⟨hdangling, hbig⟩ := h N
      -- the call does not depend on the numeral that it is looked at with
      have hsame := Except.ok.inj ((N₀.run hbase (h N₀).1 junk errno).symm.trans
        (N.run hbase hdangling junk errno))
      obtain ⟨-, hend, -, -⟩ := N.finish_spec (s.bytes ++ 0#8 :: junk) (N.rest ++ 0#8 :: junk) errno
      rw [hsame]
      exact ⟨hend, N.finish_right hbase hbig _ _ errno⟩

/-- A numeral of fewer than ten digits is far from the limits. -/
theorem Numeral.value_lt {s : List (BitVec 8)} (N : Numeral 10 s) (hs : s.length < 10) :
    N.value < 2 ^ 31 := by
  have hradix : N.radix = 10 := N.radix_eq
  have hlen : N.digits.length < 10 := by
    have htext := congrArg List.length N.text
    simp only [List.length_append] at htext
    omega
  have hlt : N.value < 10 ^ N.digits.length := by
    have hvalid := N.valid
    rw [hradix] at hvalid
    have h := @valueOf_lt 10 (by decide) (N.digits.map digitValue) (by
      intro d hd
      obtain ⟨c, hc, rfl⟩ := List.mem_map.mp hd
      exact hvalid c hc)
    rw [List.length_map] at h
    rw [Numeral.value, hradix]
    exact h
  have hpow : 10 ^ N.digits.length ≤ 10 ^ 9 := Nat.pow_le_pow_right (by decide) (by omega)
  omega

/-- `" -12;"`. -/
def minusTwelve : CString where
  bytes := [0x20#8, 0x2D#8, 0x31#8, 0x32#8, 0x3B#8]
  noNul := by decide

theorem strtol_right_minusTwelve :
    strtol (minusTwelve.bytes ++ [0#8]) 10 7 = .ok ⟨-12#32, [0x3B#8, 0#8], 7⟩ ∧
      StrtolRight 10 minusTwelve [] := by
  refine ⟨by decide +kernel, (strtol_right_iff (.inr (by decide)) minusTwelve []).mpr ?_⟩
  intro N
  have hlt := N.value_lt (by decide)
  refine ⟨fun h => absurd h.2.1 (by decide), fun hbig => ?_⟩
  omega

/-- One numeral with another outcome is enough. -/
theorem not_right {base : Nat} {s : CString} {junk : List (BitVec 8)} {r : Strtol}
    (N : Numeral base s.bytes) (hrun : strtol (s.bytes ++ 0#8 :: junk) base 0 = .ok r)
    (hwrong : ¬(r.endptr = N.rest ++ 0#8 :: junk ∧
      if -2 ^ 31 ≤ N.number ∧ N.number < 2 ^ 31 then r.value.toInt = N.number ∧ r.errno = 0
      else r.errno = erange)) : ¬ StrtolRight base s junk := by
  intro h
  obtain ⟨r', hrun', hN, -⟩ := h 0
  obtain rfl := Except.ok.inj (hrun.symm.trans hrun')
  exact hwrong (hN N)

/-- `"9999999999"`. -/
def tenNines : CString where
  bytes := List.replicate 10 0x39#8
  noNul := by decide

/-- `"-2147483648"`. -/
def leastLong : CString where
  bytes := [0x2D#8, 0x32#8, 0x31#8, 0x34#8, 0x37#8, 0x34#8, 0x38#8, 0x33#8, 0x36#8, 0x34#8, 0x38#8]
  noNul := by decide

/-- `"0xg"`. -/
def barePrefix : CString where
  bytes := [0x30#8, 0x78#8, 0x67#8]
  noNul := by decide

theorem not_takesPrefix_ten : ¬ TakesPrefix 10 := by decide

/-- A product that wraps to a larger number goes unnoticed, the least integer is taken
for an overflow, and a prefix without digits loses its zero. -/
theorem strtol_wrong :
    ¬ StrtolRight 10 tenNines [] ∧ ¬ StrtolRight 10 leastLong [] ∧
      ¬ StrtolRight 16 barePrefix [] := by
  refine ⟨?_, ?_, ?_⟩
  · exact not_right (r := ⟨1410065407#32, [0#8], 0⟩) {
      space := [], sign := [], pre := [], digits := tenNines.bytes, rest := [], radix := 10
      text := rfl, white := by decide, signed := by decide, prefixed := .inl rfl
      taken := fun _ h => absurd h not_takesPrefix_ten, radix_eq := rfl, nonempty := by decide
      valid := by decide, maximal := fun _ h => by cases h } (by decide +kernel) (by decide +kernel)
  · exact not_right (r := ⟨0x80000000#32, [0#8], 2⟩) {
      space := [], sign := [0x2D#8], pre := [], digits := leastLong.bytes.tail, rest := []
      radix := 10, text := rfl, white := by decide, signed := by decide, prefixed := .inl rfl
      taken := fun _ h => absurd h not_takesPrefix_ten, radix_eq := rfl, nonempty := by decide
      valid := by decide, maximal := fun _ h => by cases h } (by decide +kernel) (by decide +kernel)
  · exact not_right (r := ⟨0#32, [0x30#8, 0x78#8, 0x67#8, 0#8], 0⟩) {
      space := [], sign := [], pre := [], digits := [0x30#8], rest := [0x78#8, 0x67#8], radix := 16
      text := rfl, white := by decide, signed := by decide, prefixed := .inl rfl
      taken := fun _ _ _ c h => by
        obtain rfl : 0x67#8 = c := by simpa using h
        decide
      radix_eq := rfl, nonempty := by decide, valid := by decide
      maximal := fun c h => by
        obtain rfl : 0x78#8 = c := by simpa using h
        decide } (by decide +kernel) (by decide +kernel)

/-! ## Printing and parsing -/

theorem digitValue_digitByte {d : Nat} (h : d < 36) : digitValue (digitByte d) = d := by
  unfold digitValue
  rw [toNat_digitByte h]
  grind

theorem map_digitValue_digitByte {ds : List Nat} (h : ∀ d ∈ ds, d < 36) :
    (ds.map digitByte).map digitValue = ds := by
  rw [List.map_map]
  conv_rhs => rw [← List.map_id ds]
  exact List.map_congr_left fun d hd => digitValue_digitByte (h d hd)

/-- The text of an integer begins with a number, which is all of it. -/
def textNumeral (n : BitVec 32) : Numeral 10 (signText n ++ decimalText n.toInt.natAbs) where
  space := []
  sign := signText n
  pre := []
  digits := decimalText n.toInt.natAbs
  rest := []
  radix := 10
  text := by rw [List.append_nil]; rfl
  white := fun _ h => by cases h
  signed := by
    unfold signText
    split
    · exact .inr (.inl rfl)
    · exact .inl rfl
  prefixed := .inl rfl
  taken := fun _ h => absurd h not_takesPrefix_ten
  radix_eq := rfl
  nonempty := fun h => digitsOf_ne_nil _ _ (List.map_eq_nil_iff.mp h)
  valid := fun c hc => by
    obtain ⟨d, hd, rfl⟩ := List.mem_map.mp hc
    have hlt := lt_of_mem_digitsOf (by decide) hd
    rwa [digitValue_digitByte (by omega)]
  maximal := fun _ h => by cases h

theorem textNumeral_value (n : BitVec 32) : (textNumeral n).value = n.toInt.natAbs := by
  have hvalues := map_digitValue_digitByte
    (show ∀ d ∈ digitsOf 10 n.toInt.natAbs, d < 36 from fun d hd => by
      have hlt := lt_of_mem_digitsOf (by decide) hd
      omega)
  rw [Numeral.value]
  show valueOf 10 ((decimalText n.toInt.natAbs).map digitValue) = _
  rw [decimalText, hvalues, valueOf_digitsOf]

theorem textNumeral_negative (n : BitVec 32) : (textNumeral n).negative ↔ n.toInt < 0 := by
  show signText n = [0x2D#8] ↔ _
  unfold signText
  by_cases hneg : n.toInt < 0
  · rw [if_pos hneg]
    exact iff_of_true rfl hneg
  · rw [if_neg hneg]
    exact iff_of_false (by decide) hneg

/-- `atoi` of a string that begins with digits. -/
theorem atoi_digits {ds tail : List (BitVec 8)} (hne : ds ≠ [])
    (hds : ∀ c ∈ ds, digitValue c < 10)
    (htail : ∀ c, tail.head? = some c → ¬ digitValue c < 10) (junk : List (BitVec 8))
    (errno : Int) :
    ∃ errno', atoi (ds ++ tail ++ 0#8 :: junk) errno =
      .ok (BitVec.ofNat 32 (valueOf 10 (ds.map digitValue)), errno') := by
  let N : Numeral 10 (ds ++ tail) := {
    space := [], sign := [], pre := [], digits := ds, rest := tail, radix := 10
    text := rfl, white := fun _ h => absurd h List.not_mem_nil, signed := .inl rfl
    prefixed := .inl rfl, taken := fun _ h => absurd h not_takesPrefix_ten, radix_eq := rfl
    nonempty := hne, valid := hds, maximal := htail }
  have hnonneg : ¬ N.negative := fun h => by cases h
  have hrun := N.run (.inr (by decide)) (fun h => absurd h.2.1 not_takesPrefix_ten) junk errno
  obtain ⟨hvalue, -, -, -⟩ := N.finish_spec (ds ++ tail ++ 0#8 :: junk)
    (N.rest ++ 0#8 :: junk) errno
  rw [if_neg hnonneg] at hvalue
  generalize finish (ds ++ tail ++ 0#8 :: junk) errno (decide N.negative)
    (Digits.run N.radix N.digits) (N.rest ++ 0#8 :: junk) = r at hrun hvalue
  refine ⟨r.errno, ?_⟩
  rw [atoi]
  show (strtol _ ((10 : Nat) : Int) errno >>= _) = _
  rw [hrun, ok_bind, hvalue]
  rfl

/-- `atoi` of the text of an integer. -/
theorem atoi_text {n : BitVec 32} (hn : n ≠ BitVec.intMin 32) (junk : List (BitVec 8))
    (errno : Int) :
    atoi (signText n ++ decimalText n.toInt.natAbs ++ 0#8 :: junk) errno = .ok (n, errno) := by
  have hbase : IsBase 10 := .inr (by decide)
  have hvalue := textNumeral_value n
  have hleast : -2 ^ 31 < n.toInt := by
    have hle := BitVec.le_toInt n
    have hne : n.toInt ≠ -2 ^ 31 := fun he => hn (BitVec.eq_of_toInt_eq he)
    omega
  have hlt := BitVec.toInt_lt (x := n)
  have hrun := (textNumeral n).run hbase (fun h => absurd h.2.1 not_takesPrefix_ten) junk errno
  obtain ⟨hword, -, -, hkept⟩ := (textNumeral n).finish_spec
    (signText n ++ decimalText n.toInt.natAbs ++ 0#8 :: junk) ((textNumeral n).rest ++ 0#8 :: junk)
    errno
  have herrno := hkept ((textNumeral n).not_drops hbase (by omega))
  have hnat : BitVec.ofNat 32 n.toInt.natAbs = BitVec.ofInt 32 n.toInt.natAbs :=
    (BitVec.ofInt_natCast 32 _).symm
  rw [hvalue, hnat] at hword
  have hsame : (if (textNumeral n).negative then -BitVec.ofInt 32 n.toInt.natAbs
      else BitVec.ofInt 32 n.toInt.natAbs) = n := by
    by_cases hneg : n.toInt < 0
    · rw [if_pos ((textNumeral_negative n).mpr hneg), ← BitVec.ofInt_neg,
        show -(n.toInt.natAbs : Int) = n.toInt by omega, BitVec.ofInt_toInt]
    · rw [if_neg (fun h => hneg ((textNumeral_negative n).mp h)),
        show (n.toInt.natAbs : Int) = n.toInt by omega, BitVec.ofInt_toInt]
  rw [hsame] at hword
  rw [atoi]
  show (strtol _ ((10 : Nat) : Int) errno >>= _) = _
  rw [hrun, ok_bind, hword, herrno]
  rfl

/-- **Printing and parsing are inverse** on every integer but the least: in a buffer
with room, `int_to_ascii` leaves a minus sign for a negative number and the shortest
numeral of its absolute value, and `atoi` reads the number back. -/
theorem atoi_intToAscii {n : BitVec 32} (hn : n ≠ BitVec.intMin 32) {buf : List (BitVec 8)}
    (hroom : (signText n ++ decimalText n.toInt.natAbs).length < buf.length) (errno : Int) :
    ∃ ds buf', Shortest 10 n.toInt.natAbs ds ∧ intToAscii n buf = .ok buf' ∧
      Holds buf' (signText n ++ ds.map digitByte) ∧ atoi buf' errno = .ok (n, errno) := by
  have htext : intText n 10 = signText n ++ decimalText n.toInt.natAbs := by
    rw [intText, magnitudeText, if_neg hn]
    rfl
  have hrun := intToAsciiBase_eq n buf 10
  have hnul := nul_not_mem_intText n 10
  rw [htext] at hrun hnul
  rw [if_pos hroom] at hrun
  exact ⟨digitsOf 10 n.toInt.natAbs, _, digitsOf_shortest (by decide) _, hrun, ⟨_, rfl, hnul⟩,
    atoi_text hn _ errno⟩

theorem atoi_intToAscii_minusForty :
    intToAscii (-40#32) (List.replicate 4 0xFF#8) = .ok [0x2D#8, 0x34#8, 0x30#8, 0#8] ∧
      ∃ ds buf', Shortest 10 (-40#32).toInt.natAbs ds ∧ intToAscii (-40#32) (List.replicate 4 0xFF#8) = .ok buf' ∧
        Holds buf' (signText (-40#32) ++ ds.map digitByte) ∧ atoi buf' 0 = .ok (-40#32, 0) := by
  have hroom : (signText (-40#32) ++ decimalText (-40#32).toInt.natAbs).length <
      (List.replicate 4 0xFF#8).length := by decide +kernel
  exact ⟨by decide +kernel, atoi_intToAscii (by decide) hroom 0⟩

end Libc
end Medusa
