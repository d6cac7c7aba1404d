import Medusa.Libc.Compare

/-!
# Comparing fields

`strncmp` and `memcmp` look at a number of bytes that they are given.  `strncmp` also stops at
a terminator, and as `strcmp` does it orders by signed characters; `memcmp` orders by unsigned
bytes.
-/

namespace Medusa
namespace Libc

open Machine Kernel

/-! ## The code -/

def strncmp : List (BitVec 8) → List (BitVec 8) → Nat → Except Stop Int
  | _, _, 0 => .ok 0
  | a :: s1, b :: s2, n + 1 =>
    if a = 0#8 ∨ b ≠ a then .ok (a.toInt - b.toInt) else strncmp s1 s2 n
  | _, _, _ + 1 => .error .fault

def memcmp : List (BitVec 8) → List (BitVec 8) → Nat → Except Stop Int
  | _, _, 0 => .ok 0
  | a :: aptr, b :: bptr, size + 1 =>
    if a < b then .ok (-1) else if b < a then .ok 1 else memcmp aptr bptr size
  | _, _, _ + 1 => .error .fault

/-! ## Orders -/

section Orders

variable {buf buf₁ buf₂ s t : List (BitVec 8)} {n : Nat}

/-- A field of `n` characters with the text `s`, which ends in a terminator unless it fills the
field. -/
structure Field (n : Nat) (buf s : List (BitVec 8)) : Prop where
  clean : 0#8 ∉ s
  holds : ∃ rest, buf = s ++ rest ∧ (s.length < n → rest.head? = some 0#8)

/-- The text of a field is empty, or has a first character before the text of a shorter one. -/
theorem Field.cases (h : Field (n + 1) buf s) :
    (s = [] ∧ ∃ rest, buf = 0#8 :: rest) ∨
      ∃ a s' buf', s = a :: s' ∧ buf = a :: buf' ∧ a ≠ 0#8 ∧ Field n buf' s' := by
  obtain ⟨rest, rfl, hends⟩ := h.holds
  cases s with
  | nil =>
    obtain ⟨rest, rfl⟩ := List.head?_eq_some_iff.mp (hends (Nat.succ_pos n))
    exact Or.inl ⟨rfl, rest, rfl⟩
  | cons a s =>
    refine Or.inr ⟨a, s, s ++ rest, rfl, rfl, fun ha => h.clean (ha ▸ List.mem_cons_self), ?_, ?_⟩
    · exact fun hs => h.clean (List.mem_cons_of_mem a hs)
    · exact ⟨rest, rfl, fun hs => hends (Nat.succ_lt_succ hs)⟩

theorem take_signedText_nil (n : Nat) : (signedText []).take (n + 1) = [0] := by
  simp [signedText]

theorem take_signedText_cons (a : BitVec 8) (s : List (BitVec 8)) (n : Nat) :
    (signedText (a :: s)).take (n + 1) = a.toInt :: (signedText s).take n := rfl

/-- **`strncmp` orders fields.**  It reads no further than the fields go, and returns 0 exactly
if they have the same text as far as they go; otherwise the sign says how their signed
characters compare. -/
theorem strncmp_orders (h₁ : Field n buf₁ s) (h₂ : Field n buf₂ t) :
    ∃ c, strncmp buf₁ buf₂ n = .ok c ∧ (c = 0 ↔ s.take n = t.take n) ∧
      (c < 0 ↔ (signedText s).take n < (signedText t).take n) ∧
      (0 < c ↔ (signedText t).take n < (signedText s).take n) := by
  induction n generalizing buf₁ buf₂ s t with
  | zero => exact ⟨0, by rw [strncmp], by simp, by simp, by simp⟩
  | succ n ih =>
    rcases h₁.cases with ⟨rfl, rest₁, rfl⟩ | ⟨a, s, buf₁, rfl, rfl, ha, hs⟩
    · rcases h₂.cases with ⟨rfl, rest₂, rfl⟩ | ⟨b, t, buf₂, rfl, rfl, hb, -⟩
      · exact ⟨0, by rw [strncmp, if_pos (Or.inl rfl)]; rfl, by simp, by simp, by simp⟩
      · have hne := toInt_ne_zero hb
        obtain ⟨hlt, hgt⟩ := sub_orders (Ne.symm hne) [] ((signedText t).take n)
        refine ⟨0 - b.toInt, ?_, by simp [hne], ?_, ?_⟩
        · rw [strncmp, if_pos (Or.inl rfl)]
          rfl
        · rw [take_signedText_nil, take_signedText_cons]
          exact hlt
        · rw [take_signedText_nil, take_signedText_cons]
          exact hgt
    · rcases h₂.cases with ⟨rfl, rest₂, rfl⟩ | ⟨b, t, buf₂, rfl, rfl, hb, ht⟩
      · have hne := toInt_ne_zero ha
        obtain ⟨hlt, hgt⟩ := sub_orders hne ((signedText s).take n) []
        refine ⟨a.toInt - 0, ?_, by simp [hne], ?_, ?_⟩
        · rw [strncmp, if_pos (Or.inr (Ne.symm ha))]
          rfl
        · rw [take_signedText_nil, take_signedText_cons]
          exact hlt
        · rw [take_signedText_nil, take_signedText_cons]
          exact hgt
      · rw [take_signedText_cons, take_signedText_cons]
        by_cases hab : b = a
        · subst hab
          obtain ⟨c, hrun, heq, hlt, hgt⟩ := ih hs ht
          refine ⟨c, ?_, by simp [heq], hlt.trans (cons_lt_cons_same _ _ _).symm,
            hgt.trans (cons_lt_cons_same _ _ _).symm⟩
          rw [strncmp, if_neg (not_or_intro hb (not_not_intro rfl)), hrun]
        · have hne : a.toInt ≠ b.toInt := fun h => hab (BitVec.toInt_inj.mp h.symm)
          obtain ⟨hlt, hgt⟩ := sub_orders hne ((signedText s).take n) ((signedText t).take n)
          refine ⟨a.toInt - b.toInt, by rw [strncmp, if_pos (Or.inr hab)], ?_, hlt, hgt⟩
          refine iff_of_false (sub_ne_zero.mpr hne) fun h => ?_
          exact hab (List.cons.inj h).1.symm

/-- Two fields that are filled to the end, and have no terminators. -/
theorem strncmp_orders_filled : ∃ c, strncmp [0x61#8, 0x62#8] [0x61#8, 0xE9#8] 2 = .ok c ∧
    (c = 0 ↔ [0x61#8, 0x62#8].take 2 = [0x61#8, 0xE9#8].take 2) ∧
    (c < 0 ↔ (signedText [0x61#8, 0x62#8]).take 2 < (signedText [0x61#8, 0xE9#8]).take 2) ∧
    (0 < c ↔ (signedText [0x61#8, 0xE9#8]).take 2 < (signedText [0x61#8, 0x62#8]).take 2) :=
  strncmp_orders ⟨by decide, [], rfl, by decide⟩ ⟨by decide, [], rfl, by decide⟩

/-- **`memcmp` orders blocks.**  It returns 0 exactly for equal blocks, and otherwise -1 or 1 as
their unsigned bytes compare. -/
theorem memcmp_orders (h₁ : n ≤ buf₁.length) (h₂ : n ≤ buf₂.length) :
    ∃ c, memcmp buf₁ buf₂ n = .ok c ∧ (c = 0 ↔ buf₁.take n = buf₂.take n) ∧
      (c = -1 ↔ (buf₁.take n).map BitVec.toNat < (buf₂.take n).map BitVec.toNat) ∧
      (c = 1 ↔ (buf₂.take n).map BitVec.toNat < (buf₁.take n).map BitVec.toNat) := by
  induction n generalizing buf₁ buf₂ with
  | zero => exact ⟨0, by rw [memcmp], by simp, by simp, by simp⟩
  | succ n ih =>
    obtain ⟨a, buf₁, rfl⟩ := List.exists_cons_of_length_pos (Nat.lt_of_lt_of_le (Nat.succ_pos n) h₁)
    obtain ⟨b, buf₂, rfl⟩ := List.exists_cons_of_length_pos (Nat.lt_of_lt_of_le (Nat.succ_pos n) h₂)
    simp only [List.take_succ_cons, List.map_cons, List.cons_lt_cons_iff, List.cons.injEq]
    rcases Nat.lt_trichotomy a.toNat b.toNat with hlt | heq | hgt
    · refine ⟨-1, by rw [memcmp, if_pos (BitVec.lt_def.mpr hlt)], ?_, ?_, ?_⟩
      · exact iff_of_false (by decide) fun h => Nat.ne_of_lt hlt (congrArg BitVec.toNat h.1)
      · exact iff_of_true rfl (Or.inl hlt)
      · exact iff_of_false (by decide) (by omega)
    · obtain rfl := BitVec.eq_of_toNat_eq heq
      have hself : ¬ a < a := fun h => Nat.lt_irrefl _ (BitVec.lt_def.mp h)
      obtain ⟨c, hrun, hsame, hless, hmore⟩ :=
        ih (Nat.le_of_succ_le_succ h₁) (Nat.le_of_succ_le_succ h₂)
      refine ⟨c, ?_, by simp [hsame], by simp [hless], by simp [hmore]⟩
      rw [memcmp, if_neg hself, if_neg hself, hrun]
    · have hnot : ¬ a < b := fun h => Nat.lt_asymm hgt (BitVec.lt_def.mp h)
      refine ⟨1, by rw [memcmp, if_neg hnot, if_pos (BitVec.lt_def.mpr hgt)], ?_, ?_, ?_⟩
      · exact iff_of_false (by decide) fun h => Nat.ne_of_gt hgt (congrArg BitVec.toNat h.1)
      · exact iff_of_false (by decide) (by omega)
      · exact iff_of_true rfl (Or.inl hgt)

/-- The byte 233 comes behind the letter `b`. -/
theorem memcmp_orders_accented : ∃ c, memcmp [0x61#8, 0x62#8] [0x61#8, 0xE9#8] 2 = .ok c ∧
    (c = 0 ↔ [0x61#8, 0x62#8].take 2 = [0x61#8, 0xE9#8].take 2) ∧
    (c = -1 ↔ ([0x61#8, 0x62#8].take 2).map BitVec.toNat <
      ([0x61#8, 0xE9#8].take 2).map BitVec.toNat) ∧
    (c = 1 ↔ ([0x61#8, 0xE9#8].take 2).map BitVec.toNat <
      ([0x61#8, 0x62#8].take 2).map BitVec.toNat) :=
  memcmp_orders (by decide) (by decide)

end Orders

end Libc
end Medusa
