import Medusa.Libc.Strtok

/-!
# `strtok_r`

The reentrant splitter takes one field at a time and keeps its place in a variable of the
caller.  A later call that meets the end of the text returns the last field; the first call
that meets it returns `NULL`, so a text without a delimiter has no fields.
-/

namespace Medusa
namespace Libc
namespace StrtokR

open Machine Kernel
open UserStack (StrAt)
open Strtok (Str)

/-! ## The code -/

/-- `for (i = 0; base[i] != '\0'; i++)` up to the delimiter; `none` at the end of the text. -/
def findDelimiter (m : Mem) (base : Nat) (delimitor : BitVec 8) :
    Nat → Nat → Except Stop (Option Nat)
  | 0, _ => .error .fuel
  | fuel + 1, i =>
    if m (wrap (base + i)) = 0#8 then .ok none
    else if m (wrap (base + i)) = delimitor then .ok (some i)
    else findDelimiter m base delimitor fuel (i + 1)

/-- `strtok_r`, for callers that pass the address of a variable: what it returns, the
memory, and the variable.  `none` is a variable that has not been set, and reading it stops
the model. -/
def strtokR (m : Mem) (text : Nat) (delimitor : BitVec 8) (save : Option Nat) :
    Except Stop (Nat × Mem × Option Nat) :=
  if text ≠ 0 then do
    match ← findDelimiter m text delimitor (2 ^ 32) 0 with
    | some i => return (text, Function.update m (wrap (text + i)) 0#8, some (wrap (text + i + 1)))
    | none => return (0, m, save)
  else
    match save with
    | none => .error .fault
    | some start =>
      if start ≠ 0 then do
        match ← findDelimiter m start delimitor (2 ^ 32) 0 with
        | some i =>
          return (start, Function.update m (wrap (start + i)) 0#8, some (wrap (start + i + 1)))
        | none => return (start, m, some 0)
      else .ok (0, m, save)

/-- `while (pch != NULL)`: the pointers that were returned, each with the memory of the
time, from a call that returned `pch` on. -/
def untilNull (delimitor : BitVec 8) : Nat → Nat × Mem × Option Nat → Except Stop (List (Nat × Mem))
  | 0, _ => .error .fuel
  | fuel + 1, (pch, m, save) =>
    if pch = 0 then .ok []
    else do
      let next ← strtokR m 0 delimitor save
      let later ← untilNull delimitor fuel next
      return (pch, m) :: later

/-- `strtok_r(text, delimitor, &save)`, and `strtok_r(NULL, delimitor, &save)` until `NULL`. -/
def splitText (m : Mem) (text : Nat) (delimitor : BitVec 8) : Except Stop (List (Nat × Mem)) := do
  let first ← strtokR m text delimitor none
  untilNull delimitor (2 ^ 32) first

/-- The calls return these fields, one by one, and then `NULL`. -/
def Splits (m : Mem) (text : Nat) (delimitor : BitVec 8) (fields : List (List (BitVec 8))) : Prop :=
  ∃ returned, splitText m text delimitor = .ok returned ∧
    List.Forall₂ (fun call field => StrAt call.2 call.1 field) returned fields

/-! ## One call -/

variable {m : Mem} {a : Nat} {c : BitVec 8} {s : List (BitVec 8)}

theorem findDelimiter_none {fuel i : Nat} (h : Str m (a + i) s) (hc : c ∉ s)
    (hfuel : s.length < fuel) : findDelimiter m a c fuel i = .ok none := by
  induction s generalizing fuel i with
  | nil =>
    obtain ⟨fuel, rfl⟩ := Nat.exists_eq_add_of_lt hfuel
    rw [findDelimiter, wrap_of_lt (show a + i < 2 ^ 32 from h.fits), if_pos h.nil]
  | cons x s ih =>
    obtain ⟨fuel, rfl⟩ := Nat.exists_eq_add_of_lt hfuel
    have hfits := h.fits
    rw [List.length_cons] at hfits
    have hx : x ≠ c := fun heq => hc (by rw [heq]; exact List.mem_cons_self)
    rw [findDelimiter, wrap_of_lt (by omega), h.head.1, if_neg h.head.2, if_neg hx]
    exact ih h.tail (fun hmem => hc (List.mem_cons_of_mem x hmem)) (by rw [List.length_cons]; omega)

theorem findDelimiter_some {pre rest : List (BitVec 8)} {fuel i : Nat}
    (h : Str m (a + i) (pre ++ c :: rest)) (hc : c ∉ pre) (hfuel : pre.length < fuel) :
    findDelimiter m a c fuel i = .ok (some (i + pre.length)) := by
  induction pre generalizing fuel i with
  | nil =>
    obtain ⟨fuel, rfl⟩ := Nat.exists_eq_add_of_lt hfuel
    have hfits := h.fits
    rw [findDelimiter, wrap_of_lt (by omega), h.head.1, if_neg h.head.2, if_pos rfl]
    rfl
  | cons x pre ih =>
    obtain ⟨fuel, rfl⟩ := Nat.exists_eq_add_of_lt hfuel
    have hfits := h.fits
    have hx : x ≠ c := fun heq => hc (by rw [heq]; exact List.mem_cons_self)
    rw [findDelimiter, wrap_of_lt (by omega), h.head.1, if_neg h.head.2, if_neg hx,
      ih h.tail (fun hmem => hc (List.mem_cons_of_mem x hmem)) (by rw [List.length_cons]; omega),
      List.length_cons, Nat.add_assoc, Nat.add_comm 1]

theorem strtokR_new (ha : a ≠ 0) (save : Option Nat) : strtokR m a c save = do
    match ← findDelimiter m a c (2 ^ 32) 0 with
    | some i => return (a, Function.update m (wrap (a + i)) 0#8, some (wrap (a + i + 1)))
    | none => return (0, m, save) := by
  simp [strtokR, ha]

theorem strtokR_later (ha : a ≠ 0) : strtokR m 0 c (some a) = do
    match ← findDelimiter m a c (2 ^ 32) 0 with
    | some i => return (a, Function.update m (wrap (a + i)) 0#8, some (wrap (a + i + 1)))
    | none => return (a, m, some 0) := by
  simp [strtokR, ha]

/-- Nothing comes after the last field. -/
theorem strtokR_done : strtokR m 0 c (some 0) = .ok (0, m, some 0) := rfl

theorem untilNull_null {fuel : Nat} (hfuel : 0 < fuel) (save : Option Nat) :
    untilNull c fuel (0, m, save) = .ok [] := by
  obtain ⟨fuel, rfl⟩ := Nat.exists_eq_add_of_lt hfuel
  simp [untilNull]

theorem untilNull_cons {p fuel : Nat} {save : Option Nat} {returned : List (Nat × Mem)}
    (hp : p ≠ 0) (h : (strtokR m 0 c save >>= untilNull c fuel) = .ok returned) :
    untilNull c (fuel + 1) (p, m, save) = .ok ((p, m) :: returned) := by
  rw [untilNull.eq_def]
  simp only [if_neg hp]
  rw [← bind_assoc, h]
  rfl

/-- A field that a delimiter ends is cut off, by a first call and by a later one. -/
theorem strtokR_cut {pre rest : List (BitVec 8)} {text : Nat} {save : Option Nat}
    (h : Str m a (pre ++ c :: rest)) (hc : c ∉ pre)
    (hcall : text = a ∨ text = 0 ∧ save = some a) :
    strtokR m text c save = .ok (a, Function.update m (a + pre.length) 0#8,
        some (a + pre.length + 1)) ∧
      StrAt (Function.update m (a + pre.length) 0#8) a pre ∧
      Str (Function.update m (a + pre.length) 0#8) (a + pre.length + 1) rest := by
  have hfits := h.fits
  have hpos := h.pos
  have hend : Str m (a + pre.length) (c :: rest) := h.drop
  rw [List.length_append, List.length_cons] at hfits
  refine ⟨?_, h.cut, hend.tail.update (.inl (by omega))⟩
  have hfind : findDelimiter m a c (2 ^ 32) 0 = .ok (some (0 + pre.length)) :=
    findDelimiter_some h hc (by omega)
  rw [Nat.zero_add] at hfind
  rcases hcall with rfl | ⟨rfl, rfl⟩
  · rw [strtokR_new (by omega), hfind, ok_bind]
    simp only [wrap_of_lt (show text + pre.length < 2 ^ 32 by omega),
      wrap_of_lt (show text + pre.length + 1 < 2 ^ 32 by omega)]
    rfl
  · rw [strtokR_later (by omega), hfind, ok_bind]
    simp only [wrap_of_lt (show a + pre.length < 2 ^ 32 by omega),
      wrap_of_lt (show a + pre.length + 1 < 2 ^ 32 by omega)]
    rfl

/-- A later call returns the last field and clears the variable. -/
theorem strtokR_last (h : Str m a s) (hc : c ∉ s) :
    strtokR m 0 c (some a) = .ok (a, m, some 0) := by
  have hfits := h.fits
  have hpos := h.pos
  have hfind : findDelimiter m a c (2 ^ 32) 0 = .ok none := findDelimiter_none h hc (by omega)
  rw [strtokR_later (by omega), hfind, ok_bind]
  rfl

/-- The first call has no last field, and leaves the variable alone. -/
theorem strtokR_first (h : Str m a s) (hc : c ∉ s) (save : Option Nat) :
    strtokR m a c save = .ok (0, m, save) := by
  have hfits := h.fits
  have hpos := h.pos
  have hfind : findDelimiter m a c (2 ^ 32) 0 = .ok none := findDelimiter_none h hc (by omega)
  rw [strtokR_new (by omega), hfind, ok_bind]
  rfl

/-! ## All calls -/

/-- What a later call and those after it return. -/
theorem untilNull_later (h : Str m a s) {fuel : Nat} (hfuel : s.length + 1 < fuel) :
    ∃ returned, (strtokR m 0 c (some a) >>= untilNull c fuel) = .ok returned ∧
      List.Forall₂ (fun call field => StrAt call.2 call.1 field) returned (s.splitOn c) := by
  induction fuel generalizing m a s with
  | zero => exact absurd hfuel (Nat.not_lt_zero _)
  | succ fuel ih =>
    have hpos := h.pos
    by_cases hc : c ∈ s
    · obtain ⟨pre, rest, rfl, hpre⟩ := List.eq_append_cons_of_mem hc
      obtain ⟨hcall, hfield, hrest⟩ := strtokR_cut h hpre (.inr ⟨rfl, rfl⟩)
      rw [List.length_append, List.length_cons] at hfuel
      obtain ⟨returned, hlater, hfields⟩ := ih hrest (by omega)
      refine ⟨(a, Function.update m (a + pre.length) 0#8) :: returned, ?_, ?_⟩
      · rw [hcall, ok_bind]
        exact untilNull_cons (by omega) hlater
      · rw [List.splitOn_append_cons_self_of_not_mem hpre]
        exact .cons hfield hfields
    · refine ⟨[(a, m)], ?_, ?_⟩
      · obtain ⟨fuel, rfl⟩ := Nat.exists_eq_add_of_lt (show 0 < fuel by omega)
        rw [strtokR_last h hc, ok_bind]
        exact untilNull_cons (by omega) (by
          rw [strtokR_done, ok_bind, untilNull_null (Nat.succ_pos _)])
      · rw [List.splitOn_eq_singleton hc]
        exact .cons h.held .nil

/-- **Which texts `strtok_r` splits.**  Those in which the delimiter occurs; from the others
it takes no field at all. -/
theorem splits_fields_iff (h : Str m a s) (c : BitVec 8) : Splits m a c (s.splitOn c) ↔ c ∈ s := by
  have hfits := h.fits
  have hpos := h.pos
  constructor
  · rintro ⟨returned, hrun, hfields⟩
    by_contra hc
    rw [splitText, strtokR_first h hc, ok_bind, untilNull_null (by decide)] at hrun
    obtain rfl := Except.ok.inj hrun
    rw [List.splitOn_eq_singleton hc] at hfields
    cases hfields
  · intro hc
    obtain ⟨pre, rest, rfl, hpre⟩ := List.eq_append_cons_of_mem hc
    rw [List.length_append, List.length_cons] at hfits
    have hfirst : a = a ∨ a = 0 ∧ (none : Option Nat) = some a := .inl rfl
    obtain ⟨hcall, hfield, hrest⟩ := strtokR_cut h hpre hfirst
    obtain ⟨returned, hlater, hfields⟩ :=
      @untilNull_later _ _ c _ hrest (2 ^ 32 - 1) (by omega)
    refine ⟨(a, Function.update m (a + pre.length) 0#8) :: returned, ?_, ?_⟩
    · rw [splitText, hcall, ok_bind]
      exact untilNull_cons (by omega) hlater
    · rw [List.splitOn_append_cons_self_of_not_mem hpre]
      exact .cons hfield hfields

/-- "/a" is an empty field and "a". -/
theorem splits_fields_slash : Splits (Strtok.sample [0x2F#8, 0x61#8]) 100 0x2F#8
    (([0x2F#8, 0x61#8] : List (BitVec 8)).splitOn 0x2F#8) :=
  (splits_fields_iff (Strtok.sample_ready [0x2F#8, 0x61#8] (by decide) (by decide)).text
    0x2F#8).mpr (by decide)

/-- "a" is one field, and the first call returns `NULL`. -/
theorem splits_nothing : ([0x61#8] : List (BitVec 8)).splitOn 0x2F#8 = [[0x61#8]] ∧
    splitText (Strtok.sample [0x61#8]) 100 0x2F#8 = .ok [] ∧
    ¬ Splits (Strtok.sample [0x61#8]) 100 0x2F#8 (([0x61#8] : List (BitVec 8)).splitOn 0x2F#8) := by
  have h := (Strtok.sample_ready [0x61#8] (by decide) (by decide)).text
  have hrun : splitText (Strtok.sample [0x61#8]) 100 0x2F#8 = .ok [] := by
    rw [splitText, strtokR_first h (by decide), ok_bind, untilNull_null (by decide)]
  have hone : ([0x61#8] : List (BitVec 8)).splitOn 0x2F#8 = [[0x61#8]] :=
    List.splitOn_eq_singleton (by decide)
  refine ⟨hone, hrun, ?_⟩
  rintro ⟨returned, hok, hfields⟩
  obtain rfl := Except.ok.inj (hrun.symm.trans hok)
  rw [hone] at hfields
  cases hfields

end StrtokR
end Libc
end Medusa
