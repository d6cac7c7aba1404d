import Medusa.Kernel.Buffer
import Medusa.Machine.Loop

/-!
# C strings in buffers

`strlen`, `append`, `reverse` and the number formatters of the C library, on a
buffer that a string may not fill.  `Holds buf s` says that the string in `buf` is
`s`: its bytes, a terminator, and anything behind.
-/

namespace Medusa
namespace Libc

open Machine Kernel

/-- `strlen`.  A buffer without a terminator is read past its end. -/
def strlen : List (BitVec 8) → Except Stop Nat
  | [] => .error .fault
  | c :: rest => if c = 0#8 then .ok 0 else do return (← strlen rest) + 1

def append (s : List (BitVec 8)) (n : BitVec 8) : Except Stop (List (BitVec 8)) := do
  let len ← strlen s
  let s ← store s len n
  store s (len + 1) 0#8

/-- One round of the loop of `reverse`. -/
def swapRound (len : Nat) (str1 : List (BitVec 8)) (i : Nat) : Except Stop (List (BitVec 8)) := do
  let temp ← fetch str1 i
  let other ← fetch str1 (len - i - 1)
  let str1 ← store str1 i other
  store str1 (len - i - 1) temp

def reverse (str1 : List (BitVec 8)) : Except Stop (List (BitVec 8)) := do
  let len ← strlen str1
  (List.range (len / 2)).foldlM (swapRound len) str1

/-- The loop of `int_to_ascii_base`: the least digit first. -/
def digitLoop : Nat → Int → Nat → List (BitVec 8) → Except Stop (Nat × List (BitVec 8))
  | 0, _, _, _ => .error .fuel
  | fuel + 1, n, i, str => do
    let str ← store str i (BitVec.ofInt 8 (n.tmod 10 + 0x30))
    let n := n.tdiv 10
    if 0 < n then digitLoop fuel n (i + 1) str else return (i + 1, str)

/-- `if (sign < 0) str[i++] = '-'`. -/
def putSign (negative : Bool) (i : Nat) (str : List (BitVec 8)) :
    Except Stop (Nat × List (BitVec 8)) :=
  if negative then do return (i + 1, ← store str i 0x2D#8) else .ok (i, str)

/-- `if (base == 16)`: `x` and `0`, which `reverse` puts in front. -/
def putBase (base i : Nat) (str : List (BitVec 8)) : Except Stop (Nat × List (BitVec 8)) :=
  if base = 16 then do
    let str ← store str i 0x78#8
    return (i + 2, ← store str (i + 1) 0x30#8)
  else .ok (i, str)

/-- `int_to_ascii_base`.  The digits are decimal whatever the base.  `-n` of the
least integer is that integer again, and its loop ends after one round. -/
def intToAsciiBase (n : BitVec 32) (str : List (BitVec 8)) (base : Nat) :
    Except Stop (List (BitVec 8)) := do
  let negative := decide (n.toInt < 0)
  let magnitude := if negative then (-n).toInt else n.toInt
  let (i, str) ← digitLoop 10 magnitude 0 str
  let (i, str) ← putSign negative i str
  let (i, str) ← putBase base i str
  let str ← store str i 0#8
  reverse str

def intToAscii (n : BitVec 32) (str : List (BitVec 8)) : Except Stop (List (BitVec 8)) :=
  intToAsciiBase n str 10

/-- One round of the loop of `hex_to_ascii`, for the nibble at bit `i`.  The test is
`tmp > 0xA`, and ten becomes a colon. -/
def hexRound (n : BitVec 32) (i : Nat) (st : Bool × List (BitVec 8)) :
    Except Stop (Bool × List (BitVec 8)) := do
  let tmp := (n.sshiftRight i &&& 0xF#32).setWidth 8
  if tmp = 0#8 ∧ st.1 = false then return st
  else
    let str ← append st.2 (if 0xA#8 < tmp then tmp - 0xA#8 + 0x61#8 else tmp + 0x30#8)
    return (true, str)

/-- `hex_to_ascii`.  `memset` clears the string that is there. -/
def hexToAscii (n : BitVec 32) (str : List (BitVec 8)) : Except Stop (List (BitVec 8)) := do
  let len ← strlen str
  let str := List.replicate len 0#8 ++ str.drop len
  let str ← append str 0x30#8
  let str ← append str 0x78#8
  let (_, str) ← [28, 24, 20, 16, 12, 8, 4].foldlM (fun st i => hexRound n i st) (false, str)
  let tmp := (n &&& 0xF#32).setWidth 8
  append str (if 0xA#8 ≤ tmp then tmp - 0xA#8 + 0x61#8 else tmp + 0x30#8)

/-! ## Strings -/

/-- The string in `buf` is `s`. -/
def Holds (buf s : List (BitVec 8)) : Prop :=
  ∃ rest, buf = s ++ 0#8 :: rest ∧ 0#8 ∉ s

variable {buf s : List (BitVec 8)}

theorem Holds.length_lt (h : Holds buf s) : s.length < buf.length := by
  obtain ⟨rest, rfl, -⟩ := h
  simp

theorem strlen_append_zero (rest : List (BitVec 8)) (hs : 0#8 ∉ s) :
    strlen (s ++ 0#8 :: rest) = .ok s.length := by
  induction s with
  | nil => simp [strlen]
  | cons c s ih =>
    have hc : c ≠ 0#8 := fun he => hs (by simp [he])
    have hrest : 0#8 ∉ s := fun hin => hs (List.mem_cons_of_mem c hin)
    rw [List.cons_append, strlen, if_neg hc, ih hrest]
    rfl

theorem Holds.strlen (h : Holds buf s) : strlen buf = .ok s.length := by
  obtain ⟨rest, rfl, hs⟩ := h
  exact strlen_append_zero rest hs

theorem holds_of_mem (h : 0#8 ∈ buf) : ∃ s, Holds buf s := by
  induction buf with
  | nil => simp at h
  | cons c buf ih =>
    by_cases hc : c = 0#8
    · exact ⟨[], buf, by simp [hc], by simp⟩
    · have hin : 0#8 ∈ buf := by
        rcases List.mem_cons.mp h with he | hin
        · exact absurd he.symm hc
        · exact hin
      obtain ⟨s, rest, rfl, hs⟩ := ih hin
      refine ⟨c :: s, rest, rfl, ?_⟩
      simp only [List.mem_cons, not_or]
      exact ⟨fun he => hc he.symm, hs⟩

/-- Appending a character that is not the terminator, with room for it. -/
theorem append_spec (h : Holds buf s) {c : BitVec 8} (hc : c ≠ 0#8)
    (hroom : s.length + 1 < buf.length) :
    ∃ buf', append buf c = .ok buf' ∧ Holds buf' (s ++ [c]) ∧ buf'.length = buf.length := by
  have hlen := h.strlen
  obtain ⟨rest, rfl, hs⟩ := h
  cases rest with
  | nil => simp at hroom
  | cons d rest =>
    have hnext : store (s ++ c :: d :: rest) (s.length + 1) 0#8 =
        .ok (s ++ c :: 0#8 :: rest) := by
      have hstore := store_append_cons (s ++ [c]) rest 0#8 d
      simpa using hstore
    refine ⟨s ++ c :: 0#8 :: rest, ?_, ⟨rest, by simp, ?_⟩, by simp⟩
    · rw [append, hlen, ok_bind, store_append_cons, ok_bind, hnext]
    · simp only [List.mem_append, List.mem_singleton, not_or]
      exact ⟨hs, fun he => hc he.symm⟩

/-- `reverse` returns, and the buffer still holds a string. -/
theorem reverse_spec (h : Holds buf s) :
    ∃ buf', reverse buf = .ok buf' ∧ buf'.length = buf.length ∧ 0#8 ∈ buf' := by
  have hlen := h.strlen
  have hlt := h.length_lt
  have hzero : buf[s.length]? = some 0#8 := by
    obtain ⟨rest, rfl, -⟩ := h
    simp
  -- the swaps stay below the terminator
  have hloop := foldlM_range_induction (n := s.length / 2) (s := buf) (f := swapRound s.length)
    (fun _ t => t.length = buf.length ∧ t[s.length]? = some 0#8) (fun _ => False)
    ⟨rfl, hzero⟩
    (by
      intro i t hi ht
      have hi' : i < t.length := by omega
      have hj' : s.length - i - 1 < t.length := by omega
      have hfirst : fetch t i = .ok t[i] := fetch_eq_ok (List.getElem?_eq_getElem hi')
      have hsecond : fetch t (s.length - i - 1) = .ok t[s.length - i - 1] :=
        fetch_eq_ok (List.getElem?_eq_getElem hj')
      simp only [swapRound, hfirst, hsecond, ok_bind, store, hi', if_true]
      rw [if_pos (by simpa using hj')]
      refine ⟨by simpa using ht.1, ?_⟩
      rw [List.getElem?_set_ne (by omega), List.getElem?_set_ne (by omega)]
      exact ht.2)
  rw [reverse, hlen, ok_bind]
  cases hrun : (List.range (s.length / 2)).foldlM (swapRound s.length) buf with
  | error e =>
    rw [hrun] at hloop
    exact hloop.elim
  | ok t =>
    rw [hrun] at hloop
    exact ⟨t, rfl, hloop.1, List.mem_of_getElem? hloop.2⟩

/-! ## Numbers -/

/-- The digits of a number below a power of ten take at most as many bytes. -/
theorem digitLoop_spec {fuel i : Nat} {n : Int} (hn : n < 10 ^ fuel) (hfuel : 0 < fuel)
    (hroom : i + fuel ≤ buf.length) :
    ∃ j buf', digitLoop fuel n i buf = .ok (j, buf') ∧ j ≤ i + fuel ∧
      buf'.length = buf.length := by
  induction fuel generalizing n i buf with
  | zero => omega
  | succ fuel ih =>
    rw [digitLoop, store_eq_ok (by omega), ok_bind]
    by_cases hmore : 0 < n.tdiv 10
    · have hten : 10 ≤ n := by
        by_contra hlt
        have hdiv : n.tdiv 10 ≤ 0 := by
          by_cases hneg : n < 0
          · rw [← Int.neg_neg n, Int.neg_tdiv]
            have hpos := Int.tdiv_nonneg (a := -n) (b := 10) (by omega) (by omega)
            omega
          · rw [Int.tdiv_eq_ediv_of_nonneg (by omega)]
            omega
        omega
      have hsmall : n.tdiv 10 < 10 ^ fuel := by
        rw [Int.tdiv_eq_ediv_of_nonneg (by omega)]
        rw [Int.pow_succ] at hn
        omega
      have hpos : 0 < fuel := by
        rcases Nat.eq_zero_or_pos fuel with hzero | hpos
        · rw [hzero] at hn
          omega
        · exact hpos
      obtain ⟨j, buf', hrun, hj, hlen⟩ := @ih
        (buf.set i (BitVec.ofInt 8 (n.tmod 10 + 0x30))) (i + 1) (n.tdiv 10) hsmall hpos
        (by simp; omega)
      refine ⟨j, buf', ?_, by omega, by simpa using hlen⟩
      rw [← hrun]
      exact if_pos hmore
    · exact ⟨i + 1, _, if_neg hmore, by omega, by simp⟩

theorem putSign_spec {i : Nat} (negative : Bool) (hroom : i < buf.length) :
    ∃ j buf', putSign negative i buf = .ok (j, buf') ∧ j ≤ i + 1 ∧ buf'.length = buf.length := by
  cases negative with
  | false => exact ⟨i, buf, rfl, by omega, rfl⟩
  | true =>
    refine ⟨i + 1, buf.set i 0x2D#8, ?_, by omega, by simp⟩
    rw [putSign, if_pos rfl, store_eq_ok hroom]
    rfl

theorem putBase_spec {i : Nat} (base : Nat) (hroom : i + 1 < buf.length) :
    ∃ j buf', putBase base i buf = .ok (j, buf') ∧ j ≤ i + 2 ∧ buf'.length = buf.length := by
  by_cases hbase : base = 16
  · refine ⟨i + 2, (buf.set i 0x78#8).set (i + 1) 0x30#8, ?_, by omega, by simp⟩
    rw [putBase, if_pos hbase, store_eq_ok (by omega), ok_bind, store_eq_ok (by simpa using hroom)]
    rfl
  · exact ⟨i, buf, if_neg hbase, by omega, rfl⟩

/-- Fourteen bytes are enough for a number: ten digits, a sign, a base and the
terminator. -/
theorem intToAsciiBase_spec (n : BitVec 32) (base : Nat) (hroom : 14 ≤ buf.length) :
    ∃ buf', intToAsciiBase n buf base = .ok buf' ∧ buf'.length = buf.length ∧ 0#8 ∈ buf' := by
  have hbound : ∀ m : BitVec 32, m.toInt < 10 ^ 10 := by
    intro m
    have hlt := BitVec.toInt_lt (x := m)
    omega
  have hmag : (if decide (n.toInt < 0) = true then (-n).toInt else n.toInt) < 10 ^ 10 := by
    split
    · exact hbound (-n)
    · exact hbound n
  obtain ⟨i, buf₁, hdigits, hi, hlen₁⟩ := digitLoop_spec (i := 0) hmag (by decide)
    (show 0 + 10 ≤ buf.length by omega)
  obtain ⟨j, buf₂, hsign, hj, hlen₂⟩ := putSign_spec (decide (n.toInt < 0))
    (show i < buf₁.length by omega)
  obtain ⟨k, buf₃, hbase, hk, hlen₃⟩ := putBase_spec base (show j + 1 < buf₂.length by omega)
  have hlt : k < buf₃.length := by omega
  have hzero : 0#8 ∈ buf₃.set k 0#8 := by
    refine List.mem_of_getElem? (i := k) ?_
    rw [List.getElem?_set_self hlt]
  obtain ⟨s, hs⟩ := holds_of_mem hzero
  obtain ⟨buf', hrev, hlen, hmem⟩ := reverse_spec hs
  refine ⟨buf', ?_, by rw [hlen, List.length_set, hlen₃, hlen₂, hlen₁], hmem⟩
  rw [intToAsciiBase]
  simp only [hdigits, hsign, hbase, ok_bind, store_eq_ok hlt, hrev]

/-- A digit is never the terminator. -/
theorem hexDigit_ne (tmp : BitVec 8) (h : tmp.toNat < 16) :
    (if 0xA#8 < tmp then tmp - 0xA#8 + 0x61#8 else tmp + 0x30#8) ≠ 0#8 ∧
      (if 0xA#8 ≤ tmp then tmp - 0xA#8 + 0x61#8 else tmp + 0x30#8) ≠ 0#8 := by
  revert tmp
  decide +kernel

theorem nibble_lt (n : BitVec 32) : ((n &&& 0xF#32).setWidth 8).toNat < 16 := by
  rw [BitVec.toNat_setWidth, BitVec.toNat_and]
  have hand : n.toNat &&& (0xF#32).toNat ≤ 15 := Nat.and_le_right
  omega

theorem hexRound_spec (n : BitVec 32) (i : Nat) {st : Bool × List (BitVec 8)}
    (h : Holds st.2 s) (hroom : s.length + 1 < st.2.length) :
    ∃ st' s', hexRound n i st = .ok st' ∧ Holds st'.2 s' ∧ s'.length ≤ s.length + 1 ∧
      st'.2.length = st.2.length := by
  have hdigit := (hexDigit_ne _ (nibble_lt (n.sshiftRight i))).1
  by_cases hskip : (n.sshiftRight i &&& 0xF#32).setWidth 8 = 0#8 ∧ st.1 = false
  · exact ⟨st, s, if_pos hskip, h, by omega, rfl⟩
  · obtain ⟨buf', hrun, hholds, hlen⟩ := append_spec h hdigit hroom
    refine ⟨(true, buf'), _, (if_neg hskip).trans ?_, hholds, by simp, hlen⟩
    rw [hrun]
    rfl

theorem hexLoop_spec (n : BitVec 32) (shifts : List Nat) {st : Bool × List (BitVec 8)}
    (h : Holds st.2 s) (hroom : s.length + shifts.length < st.2.length) :
    ∃ st' s', shifts.foldlM (fun st i => hexRound n i st) st = .ok st' ∧ Holds st'.2 s' ∧
      s'.length ≤ s.length + shifts.length ∧ st'.2.length = st.2.length := by
  induction shifts generalizing s st with
  | nil => exact ⟨st, s, rfl, h, by omega, rfl⟩
  | cons i shifts ih =>
    simp only [List.length_cons] at hroom
    obtain ⟨st₁, s₁, hround, hholds, hle, hlen⟩ := hexRound_spec n i h (by omega)
    obtain ⟨st', s', hloop, hholds', hle', hlen'⟩ := ih hholds (by omega)
    refine ⟨st', s', ?_, hholds', by simp only [List.length_cons]; omega, hlen'.trans hlen⟩
    rw [List.foldlM_cons, hround]
    exact hloop

/-- Eleven bytes are enough for a pointer: two of prefix, eight digits and the
terminator. -/
theorem hexToAscii_spec (n : BitVec 32) (h : Holds buf []) (hroom : 11 ≤ buf.length) :
    ∃ buf', hexToAscii n buf = .ok buf' ∧ buf'.length = buf.length ∧ 0#8 ∈ buf' := by
  obtain ⟨buf₁, hzero, hholds₁, hlen₁⟩ := append_spec h (c := 0x30#8) (by decide) (by simp; omega)
  obtain ⟨buf₂, hx, hholds₂, hlen₂⟩ := append_spec hholds₁ (c := 0x78#8) (by decide) (by simp; omega)
  obtain ⟨st, s, hloop, hholds₃, hle, hlen₃⟩ := hexLoop_spec n [28, 24, 20, 16, 12, 8, 4]
    (show Holds (false, buf₂).2 _ from hholds₂) (by simp; omega)
  simp only [List.length_cons, List.length_nil, List.length_append] at hle
  have hdigit := (hexDigit_ne _ (nibble_lt n)).2
  obtain ⟨buf', hlast, hholds', hlen'⟩ := append_spec hholds₃ hdigit (by simp only at hlen₃; omega)
  refine ⟨buf', ?_, by rw [hlen', hlen₃, hlen₂, hlen₁], ?_⟩
  · rw [hexToAscii, h.strlen]
    simp only [ok_bind, List.length_nil, List.replicate_zero, List.nil_append, List.drop_zero, hzero,
      hx, hloop, hlast]
  · obtain ⟨rest, hbuf, -⟩ := hholds'
    rw [hbuf]
    simp

end Libc
end Medusa
