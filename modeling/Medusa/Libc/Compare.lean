import Mathlib.Data.Nat.Find
import Medusa.Libc.CString

/-!
# Comparing strings

`strcmp`, `strstr` and `startswith`.  A `char` is signed on i386, and `strcmp` subtracts
characters as they are, so it orders strings by their signed characters, the terminator
included.
-/

namespace Medusa
namespace Libc

open Machine Kernel

/-! ## The code -/

def strcmp : List (BitVec 8) → List (BitVec 8) → Except Stop Int
  | a :: s, b :: t => if a ≠ 0#8 ∧ a = b then strcmp s t else .ok (a.toInt - b.toInt)
  | _, _ => .error .fault

/-- The inner loop of `strstr`: where it leaves, with `n` rounds to go. -/
def matchLoop (str1 str2 : List (BitVec 8)) (len1 i : Nat) : Nat → Nat → Except Stop Nat
  | 0, j => .ok j
  | n + 1, j =>
    if len1 ≤ i + j then .ok j
    else do
      let c ← fetch str1 (i + j)
      let d ← fetch str2 j
      if c ≠ d then .ok j else matchLoop str1 str2 len1 i n (j + 1)

def searchLoop (str1 str2 : List (BitVec 8)) (len1 len2 : Nat) :
    Nat → Nat → Except Stop (Option Nat)
  | 0, _ => .ok none
  | n + 1, i => do
    let j ← matchLoop str1 str2 len1 i len2 0
    if j = len2 then .ok (some i) else searchLoop str1 str2 len1 len2 n (i + 1)

/-- The distance of the result from `str1`; `none` is `NULL`. -/
def strstr (str1 str2 : List (BitVec 8)) : Except Stop (Option Nat) := do
  let len1 ← strlen str1
  let len2 ← strlen str2
  searchLoop str1 str2 len1 len2 len1 0

/-- The characters that agree are counted; the loop does not stop at one that does not. -/
def startswith (str line : List (BitVec 8)) : Except Stop Bool := do
  let length ← strlen str
  let similarity ← (List.range length).foldlM (fun similarity i => do
    let c ← fetch str i
    let d ← fetch line i
    return if c = d then similarity + 1 else similarity) 0
  return decide (length ≤ similarity)

/-! ## Orders -/

/-- A string as `strcmp` sees it: signed characters, up to the terminator. -/
def signedText (s : List (BitVec 8)) : List Int := (s ++ [0#8]).map BitVec.toInt

section Order

variable {buf₁ buf₂ s t : List (BitVec 8)}

theorem toInt_ne_zero {a : BitVec 8} (ha : a ≠ 0#8) : a.toInt ≠ 0 :=
  fun h => ha (BitVec.toInt_inj.mp h)

/-- The characters that differ decide. -/
theorem sub_orders {a b : Int} (hab : a ≠ b) (as bs : List Int) :
    (a - b < 0 ↔ a :: as < b :: bs) ∧ (0 < a - b ↔ b :: bs < a :: as) := by
  rw [List.cons_lt_cons_iff, List.cons_lt_cons_iff]
  constructor
  · constructor
    · intro h
      exact Or.inl (by omega)
    · rintro (h | ⟨h, -⟩) <;> omega
  · constructor
    · intro h
      exact Or.inl (by omega)
    · rintro (h | ⟨h, -⟩) <;> omega

/-- Equal heads leave the comparison to the rest. -/
theorem cons_lt_cons_same (x : Int) (u v : List Int) : x :: u < x :: v ↔ u < v := by
  rw [List.cons_lt_cons_iff]
  simp

theorem strcmp_terminated (hs : 0#8 ∉ s) (ht : 0#8 ∉ t) (rest₁ rest₂ : List (BitVec 8)) :
    ∃ c, strcmp (s ++ 0#8 :: rest₁) (t ++ 0#8 :: rest₂) = .ok c ∧ (c = 0 ↔ s = t) ∧
      (c < 0 ↔ signedText s < signedText t) ∧ (0 < c ↔ signedText t < signedText s) := by
  induction s generalizing t with
  | nil =>
    cases t with
    | nil => exact ⟨0, rfl, by simp, by simp [signedText], by simp [signedText]⟩
    | cons b t =>
      have hb : b ≠ 0#8 := fun h => ht (h ▸ List.mem_cons_self)
      have hne := toInt_ne_zero hb
      obtain ⟨hlt, hgt⟩ := sub_orders (Ne.symm hne) [] (signedText t)
      exact ⟨0 - b.toInt, rfl, by simp [hne], hlt, hgt⟩
  | cons a s ih =>
    have ha : a ≠ 0#8 := fun h => hs (h ▸ List.mem_cons_self)
    have hs' : 0#8 ∉ s := fun h => hs (List.mem_cons_of_mem a h)
    cases t with
    | nil =>
      have hne := toInt_ne_zero ha
      obtain ⟨hlt, hgt⟩ := sub_orders hne (signedText s) []
      refine ⟨a.toInt - 0, ?_, by simp [hne], hlt, hgt⟩
      rw [List.cons_append, List.nil_append, strcmp, if_neg (fun h => ha h.2)]
      rfl
    | cons b t =>
      have ht' : 0#8 ∉ t := fun h => ht (List.mem_cons_of_mem b h)
      by_cases hab : a = b
      · subst hab
        obtain ⟨c, hrun, heq, hlt, hgt⟩ := ih hs' ht'
        refine ⟨c, ?_, by simp [heq], hlt.trans (cons_lt_cons_same _ _ _).symm,
          hgt.trans (cons_lt_cons_same _ _ _).symm⟩
        rw [List.cons_append, List.cons_append, strcmp, if_pos ⟨ha, rfl⟩, hrun]
      · have hne : a.toInt ≠ b.toInt := fun h => hab (BitVec.toInt_inj.mp h)
        obtain ⟨hlt, hgt⟩ := sub_orders hne (signedText s) (signedText t)
        refine ⟨a.toInt - b.toInt, ?_, ?_, hlt, hgt⟩
        · rw [List.cons_append, List.cons_append, strcmp, if_neg (fun h => hab h.2)]
        · simp [hab]
          omega

/-- For characters of seven bits that is the order of the dictionary. -/
theorem signedText_lt_iff (hs : ∀ x ∈ s, 0 < x.toNat ∧ x.toNat < 128)
    (ht : ∀ x ∈ t, 0 < x.toNat ∧ x.toNat < 128) :
    signedText s < signedText t ↔ s.map BitVec.toNat < t.map BitVec.toNat := by
  have hsign : ∀ x : BitVec 8, x.toNat < 128 → x.toInt = x.toNat := by
    intro x hx
    rw [BitVec.toInt_eq_toNat_cond, if_pos (by omega)]
  induction s generalizing t with
  | nil =>
    cases t with
    | nil => simp [signedText]
    | cons b t =>
      obtain ⟨hpos, hlt⟩ := ht b List.mem_cons_self
      have hb := hsign b hlt
      have hless : signedText [] < signedText (b :: t) :=
        (sub_orders (a := 0) (by omega) [] (signedText t)).1.mp (by omega)
      simp [hless]
  | cons a s ih =>
    obtain ⟨hpos, hlt⟩ := hs a List.mem_cons_self
    have ha := hsign a hlt
    cases t with
    | nil =>
      have hless : signedText [] < signedText (a :: s) :=
        (sub_orders (a := 0) (by omega) [] (signedText s)).1.mp (by omega)
      simp [List.lt_asymm hless]
    | cons b t =>
      have hb := hsign b (ht b List.mem_cons_self).2
      have hrest := ih (fun x hx => hs x (List.mem_cons_of_mem a hx))
        fun x hx => ht x (List.mem_cons_of_mem b hx)
      unfold signedText at hrest
      simp only [signedText, List.cons_append, List.map_cons, List.cons_lt_cons_iff, hrest, ha, hb,
        Int.ofNat_lt, Int.ofNat_inj]

/-- **`strcmp` orders strings.**  It returns for all strings, 0 exactly for equal ones, and
otherwise the sign says how their signed characters compare; in strings of seven-bit
characters that is the order of the dictionary. -/
theorem strcmp_orders (hs : Holds buf₁ s) (ht : Holds buf₂ t) :
    ∃ c, strcmp buf₁ buf₂ = .ok c ∧ (c = 0 ↔ s = t) ∧ (c < 0 ↔ signedText s < signedText t) ∧
      (0 < c ↔ signedText t < signedText s) ∧
      ((∀ x ∈ s ++ t, x.toNat < 128) →
        (c < 0 ↔ s.map BitVec.toNat < t.map BitVec.toNat)) := by
  obtain ⟨rest₁, rfl, hzero₁⟩ := hs
  obtain ⟨rest₂, rfl, hzero₂⟩ := ht
  obtain ⟨c, hrun, heq, hlt, hgt⟩ := strcmp_terminated hzero₁ hzero₂ rest₁ rest₂
  refine ⟨c, hrun, heq, hlt, hgt, fun hplain => hlt.trans (signedText_lt_iff ?_ ?_)⟩
  · intro x hx
    refine ⟨Nat.pos_of_ne_zero fun h => hzero₁ ?_, hplain x (List.mem_append_left t hx)⟩
    rwa [show x = 0#8 from BitVec.eq_of_toNat_eq h] at hx
  · intro x hx
    refine ⟨Nat.pos_of_ne_zero fun h => hzero₂ ?_, hplain x (List.mem_append_right s hx)⟩
    rwa [show x = 0#8 from BitVec.eq_of_toNat_eq h] at hx

/-- A byte from 128 on comes before the end of the string, here before the empty string. -/
theorem strcmp_orders_accented :
    ∃ c, strcmp [0xE9#8, 0#8] [0#8] = .ok c ∧ (c = 0 ↔ [0xE9#8] = []) ∧
      (c < 0 ↔ signedText [0xE9#8] < signedText []) ∧
      (0 < c ↔ signedText [] < signedText [0xE9#8]) ∧
      ((∀ x ∈ [0xE9#8] ++ [], x.toNat < 128) →
        (c < 0 ↔ [0xE9#8].map BitVec.toNat < ([] : List (BitVec 8)).map BitVec.toNat)) :=
  strcmp_orders ⟨[], rfl, by decide⟩ ⟨[], rfl, by decide⟩

end Order

/-! ## Searches -/

section Search

variable {buf₁ buf₂ s t : List (BitVec 8)}

theorem Holds.fetch (h : Holds buf₁ s) {i : Nat} (hi : i < s.length) :
    Kernel.fetch buf₁ i = .ok s[i] := by
  obtain ⟨rest, rfl, -⟩ := h
  apply fetch_eq_ok
  rw [List.getElem?_append_left hi, List.getElem?_eq_getElem hi]

/-- The inner loop goes on to the end exactly where the rest of `t` stands in `s`. -/
theorem matchLoop_spec (hs : Holds buf₁ s) (ht : Holds buf₂ t) (i n j : Nat)
    (hj : j + n = t.length) :
    ∃ j', matchLoop buf₁ buf₂ s.length i n j = .ok j' ∧
      (j' = t.length ↔ t.drop j <+: s.drop (i + j)) := by
  induction n generalizing j with
  | zero => exact ⟨j, rfl, by simp [show j = t.length from hj]⟩
  | succ n ih =>
    have hjt : j < t.length := by omega
    rw [List.drop_eq_getElem_cons hjt]
    unfold matchLoop
    by_cases hend : s.length ≤ i + j
    · refine ⟨j, if_pos hend, iff_of_false hjt.ne ?_⟩
      rw [List.drop_eq_nil_of_le hend]
      exact fun h => List.cons_ne_nil _ _ (List.prefix_nil.mp h)
    · have hij : i + j < s.length := by omega
      rw [if_neg hend, hs.fetch hij, ok_bind, ht.fetch hjt, ok_bind, List.drop_eq_getElem_cons hij]
      by_cases hne : s[i + j] ≠ t[j]
      · refine ⟨j, if_pos hne, iff_of_false hjt.ne ?_⟩
        exact fun h => hne (List.cons_prefix_cons.mp h).1.symm
      · obtain ⟨j', hrun, hiff⟩ := ih (j + 1) (by omega)
        refine ⟨j', (if_neg hne).trans hrun, ?_⟩
        rw [hiff, List.cons_prefix_cons, ← Nat.add_assoc]
        simp [not_not.mp hne]

/-- The outer loop from `i` on finds the first place at which `t` stands in `s`. -/
theorem searchLoop_spec (hs : Holds buf₁ s) (ht : Holds buf₂ t) (n i : Nat)
    (hi : i + n = s.length) :
    ∃ r, searchLoop buf₁ buf₂ s.length t.length n i = .ok r ∧
      ∀ k, r = some k ↔
        (i ≤ k ∧ k < s.length) ∧ t <+: s.drop k ∧ ∀ m, i ≤ m → m < k → ¬ t <+: s.drop m := by
  induction n generalizing i with
  | zero =>
    refine ⟨none, rfl, fun k => ⟨fun h => absurd h (by simp), fun h => ?_⟩⟩
    omega
  | succ n ih =>
    obtain ⟨j, hmatch, hj⟩ := matchLoop_spec hs ht i t.length 0 (by omega)
    rw [List.drop_zero, Nat.add_zero] at hj
    unfold searchLoop
    rw [hmatch, ok_bind]
    by_cases hfound : j = t.length
    · refine ⟨some i, if_pos hfound, fun k => ⟨?_, ?_⟩⟩
      · intro h
        cases h
        exact ⟨by omega, hj.mp hfound, fun m him hmi => absurd hmi (by omega)⟩
      · intro h
        have hik : ¬ i < k := fun hlt => h.2.2 i le_rfl hlt (hj.mp hfound)
        rw [show k = i by omega]
    · obtain ⟨r, hrun, hr⟩ := ih (i + 1) (by omega)
      have hnot : ¬ t <+: s.drop i := fun h => hfound (hj.mpr h)
      refine ⟨r, (if_neg hfound).trans hrun, fun k => (hr k).trans ⟨?_, ?_⟩⟩
      · intro h
        refine ⟨by omega, h.2.1, fun m him hmk => ?_⟩
        by_cases hmi : m = i
        · rwa [hmi]
        · exact h.2.2 m (by omega) hmk
      · intro h
        have hki : k ≠ i := fun he => hnot (he ▸ h.2.1)
        exact ⟨by omega, h.2.1, fun m him => h.2.2 m (by omega)⟩

/-- A string that stands somewhere in a nonempty one stands before its end. -/
theorem infix_iff_exists_drop (hs : s ≠ []) :
    t <:+: s ↔ ∃ k < s.length, t <+: s.drop k := by
  constructor
  · rintro ⟨before, after, rfl⟩
    by_cases ht : t = []
    · exact ⟨0, List.length_pos_of_ne_nil hs, by simp [ht]⟩
    · have hpos := List.length_pos_of_ne_nil ht
      refine ⟨before.length, by simp; omega, ?_⟩
      rw [List.append_assoc, List.drop_left]
      exact List.prefix_append t after
  · rintro ⟨k, -, h⟩
    exact h.isInfix.trans (List.drop_suffix k s).isInfix

/-- **`strstr` finds the first occurrence.**  It returns for all strings: the first place at
which the second stands in the first, and `NULL` exactly when there is none.  The empty string
has no place in it, not even for the empty string. -/
theorem strstr_first (hs : Holds buf₁ s) (ht : Holds buf₂ t) :
    ∃ r, strstr buf₁ buf₂ = .ok r ∧
      (∀ k, r = some k ↔ k < s.length ∧ t <+: s.drop k ∧ ∀ m < k, ¬ t <+: s.drop m) ∧
      (r = none ↔ s = [] ∨ ¬ t <:+: s) := by
  obtain ⟨r, hrun, hr⟩ := searchLoop_spec hs ht s.length 0 (by omega)
  have hfirst : ∀ k, r = some k ↔
      k < s.length ∧ t <+: s.drop k ∧ ∀ m < k, ¬ t <+: s.drop m := by
    intro k
    rw [hr k]
    simp
  refine ⟨r, ?_, hfirst, ?_⟩
  · unfold strstr
    rw [hs.strlen, ok_bind, ht.strlen, ok_bind, hrun]
  · rw [Option.eq_none_iff_forall_not_mem]
    constructor
    · intro hnone
      by_contra hsome
      push Not at hsome
      obtain ⟨hne, hinfix⟩ := hsome
      have hex := (infix_iff_exists_drop hne).mp hinfix
      obtain ⟨hlt, hat⟩ := Nat.find_spec hex
      apply hnone (Nat.find hex)
      apply (hfirst _).mpr
      refine ⟨hlt, hat, fun m hm hbefore => ?_⟩
      exact Nat.find_min hex hm ⟨by omega, hbefore⟩
    · intro h k hk
      obtain ⟨hlt, hat, -⟩ := (hfirst k).mp hk
      cases h with
      | inl hnil => simp [hnil] at hlt
      | inr hnot =>
        exact hnot (hat.isInfix.trans (List.drop_suffix k s).isInfix)

theorem strstr_first_overlap :
    ∃ r, strstr [0x61#8, 0x61#8, 0x62#8, 0#8] [0x61#8, 0x62#8, 0#8] = .ok r ∧
      (∀ k, r = some k ↔ k < [0x61#8, 0x61#8, 0x62#8].length ∧
        [0x61#8, 0x62#8] <+: [0x61#8, 0x61#8, 0x62#8].drop k ∧
        ∀ m < k, ¬ [0x61#8, 0x62#8] <+: [0x61#8, 0x61#8, 0x62#8].drop m) ∧
      (r = none ↔ [0x61#8, 0x61#8, 0x62#8] = [] ∨
        ¬ [0x61#8, 0x62#8] <:+: [0x61#8, 0x61#8, 0x62#8]) :=
  strstr_first ⟨[], rfl, by decide⟩ ⟨[], rfl, by decide⟩

/-! ## Prefixes -/

theorem Holds.prefix_iff (hs : 0#8 ∉ s) (ht : Holds buf₂ t) : s <+: buf₂ ↔ s <+: t := by
  obtain ⟨rest, rfl, -⟩ := ht
  constructor
  · intro h
    rcases List.prefix_or_prefix_of_prefix h (List.prefix_append t (0#8 :: rest)) with hst | hts
    · exact hst
    · obtain ⟨more, rfl⟩ := hts
      cases more with
      | nil => simp
      | cons c more =>
        rw [List.prefix_append_right_inj, List.cons_prefix_cons] at h
        exact absurd (by simp [h.1]) hs
  · exact fun h => h.trans (List.prefix_append t (0#8 :: rest))

/-- **`startswith` tells prefixes.**  It counts the characters that agree and does not stop at
the first that does not, so the line needs as much room as the word is long; then it tells
whether the word begins the line. -/
theorem startswith_prefix (hs : Holds buf₁ s) (ht : Holds buf₂ t)
    (hroom : s.length ≤ buf₂.length) :
    ∃ b, startswith buf₁ buf₂ = .ok b ∧ (b = true ↔ s <+: t) := by
  have hloop : Exits (fun similarity =>
      similarity ≤ s.length ∧ (similarity = s.length ↔ s.take s.length = buf₂.take s.length))
      (fun _ => False) ((List.range s.length).foldlM (fun similarity i => do
        let c ← fetch buf₁ i
        let d ← fetch buf₂ i
        return if c = d then similarity + 1 else similarity) 0) := by
    apply foldlM_range_induction (fun k similarity =>
      similarity ≤ k ∧ (similarity = k ↔ s.take k = buf₂.take k))
    · simp
    · intro k similarity hk hinv
      have hkt : k < buf₂.length := by omega
      rw [hs.fetch hk, ok_bind, fetch_eq_ok (List.getElem?_eq_getElem hkt), ok_bind,
        List.take_succ_eq_append_getElem hk, List.take_succ_eq_append_getElem hkt]
      obtain ⟨hle, hall⟩ := hinv
      by_cases hc : s[k] = buf₂[k]
      · rw [if_pos hc]
        refine ⟨by omega, ?_⟩
        rw [hc, List.append_left_inj, ← hall]
        omega
      · rw [if_neg hc]
        refine ⟨by omega, iff_of_false (by omega) fun h => hc ?_⟩
        simpa using (List.append_inj h (by simp; omega)).2
  obtain ⟨similarity, hrun, hle, hall⟩ := exits_false hloop
  refine ⟨decide (s.length ≤ similarity), ?_, ?_⟩
  · unfold startswith
    rw [hs.strlen, ok_bind, hrun]
    rfl
  · obtain ⟨-, -, hzero⟩ := hs
    rw [decide_eq_true_iff, ← Holds.prefix_iff hzero ht, List.prefix_iff_eq_take]
    rw [List.take_length] at hall
    rw [← hall]
    omega

end Search

end Libc
end Medusa
