import Medusa.Machine.Split
import Medusa.Proc.UserStack

/-!
# `strtok`

The token scanner on byte memory, with the static pointer it keeps between calls.  A
token that no delimiter follows is skipped over and `NULL` is returned for it, so of the
maximal runs of a string exactly those that a delimiter ends come out.
-/

namespace Medusa
namespace Libc
namespace Strtok

open Machine Kernel
open UserStack (StrAt)

/-! ## The code -/

def strchrLoop (m : Mem) (str : Nat) (character : BitVec 8) : Nat → Nat → Except Stop Nat
  | 0, _ => .error .fuel
  | fuel + 1, i =>
    if m (wrap (str + i)) = character then .ok (wrap (str + i))
    else if m (wrap (str + i)) = 0#8 then .ok 0
    else strchrLoop m str character fuel (i + 1)

def strchr (m : Mem) (str : Nat) (character : BitVec 8) : Except Stop Nat :=
  strchrLoop m str character (2 ^ 32) 0

/-- The loop that skips the delimiters in front of a token: where it stops. -/
def skipDelimiters (m : Mem) (delimiters : Nat) : Nat → Nat → Except Stop Nat
  | 0, _ => .error .fuel
  | fuel + 1, nextStart =>
    if m nextStart = 0#8 then .ok nextStart
    else do
      if (← strchr m delimiters (m nextStart)) ≠ 0 then
        skipDelimiters m delimiters fuel (wrap (nextStart + 1))
      else return nextStart

/-- The loop that measures a token: where it stops, and the length. -/
def skipToken (m : Mem) (delimiters : Nat) : Nat → Nat → Nat → Except Stop (Nat × Nat)
  | 0, _, _ => .error .fuel
  | fuel + 1, nextStart, length =>
    if m nextStart = 0#8 then .ok (nextStart, length)
    else do
      if (← strchr m delimiters (m nextStart)) = 0 then
        skipToken m delimiters fuel (wrap (nextStart + 1)) (length + 1)
      else return (nextStart, length)

/-- `strtok` from `next_start` on: the token, or zero for `NULL`, the memory, and
`next_start`. -/
def scan (m : Mem) (nextStart delimiters : Nat) : Except Stop (Nat × Mem × Nat) := do
  if m nextStart = 0#8 then return (0, m, nextStart)
  let nextStart ← skipDelimiters m delimiters (2 ^ 32) nextStart
  if m nextStart = 0#8 then return (0, m, nextStart)
  let (nextStart, length) ← skipToken m delimiters (2 ^ 32) nextStart 0
  if m nextStart = 0#8 then return (0, m, nextStart)
  let token := nextStart
  return (wsub token length, Function.update m token 0#8, wrap (nextStart + 1))

def strtok (m : Mem) (nextStart str delimiters : Nat) : Except Stop (Nat × Mem × Nat) :=
  scan m (if str ≠ 0 then str else nextStart) delimiters

/-- `strtok(str, delimiters)` and then `strtok(NULL, delimiters)`, `k` times. -/
def calls (m : Mem) (nextStart str delimiters : Nat) : Nat → Except Stop (Nat × Mem × Nat)
  | 0 => strtok m nextStart str delimiters
  | k + 1 => do
    let (_, m, nextStart) ← calls m nextStart str delimiters k
    strtok m nextStart 0 delimiters

/-! ## Strings and delimiters in memory -/

/-- A string of C at an address, with its terminator below the end of memory. -/
structure Str (m : Mem) (a : Nat) (bytes : List (BitVec 8)) : Prop where
  held : StrAt m a bytes
  noNul : 0#8 ∉ bytes
  pos : 0 < a
  fits : a + bytes.length < 2 ^ 32

variable {m : Mem} {a d : Nat} {s delims : List (BitVec 8)}

theorem Str.terminator (h : Str m a s) : m (a + s.length) = 0#8 := by
  rw [h.held _ (Nat.le_refl _), List.getD_eq_default _ _ (Nat.le_refl _)]

/-- The rest of a string. -/
theorem Str.drop {pre rest : List (BitVec 8)} (h : Str m a (pre ++ rest)) :
    Str m (a + pre.length) rest where
  held := by
    intro i hi
    rw [Nat.add_assoc, h.held _ (by rw [List.length_append]; omega),
      List.getD_append_right _ _ _ _ (by omega), Nat.add_sub_cancel_left]
  noNul := fun hmem => h.noNul (List.mem_append_right pre hmem)
  pos := Nat.lt_of_lt_of_le h.pos (Nat.le_add_right _ _)
  fits := by
    have hfits := h.fits
    rw [List.length_append] at hfits
    omega

theorem Str.tail {c : BitVec 8} {rest : List (BitVec 8)} (h : Str m a (c :: rest)) :
    Str m (a + 1) rest := by
  rw [← List.singleton_append] at h
  exact h.drop

theorem Str.head {c : BitVec 8} {rest : List (BitVec 8)} (h : Str m a (c :: rest)) :
    m a = c ∧ c ≠ 0#8 := by
  have hc : m (a + 0) = c := h.held 0 (Nat.zero_le _)
  exact ⟨hc, fun hzero => h.noNul (by rw [← hzero]; exact List.mem_cons_self)⟩

theorem Str.nil (h : Str m a []) : m a = 0#8 := h.terminator

theorem Str.ne_zero (h : Str m a s) (hs : s ≠ []) : m a ≠ 0#8 := by
  obtain ⟨c, rest, rfl⟩ := List.exists_cons_of_ne_nil hs
  rw [h.head.1]
  exact h.head.2

/-- A store elsewhere leaves a string alone. -/
theorem Str.update {q : Nat} {c : BitVec 8} (h : Str m a s) (hq : q < a ∨ a + s.length < q) :
    Str (Function.update m q c) a s where
  held := h.held.congr fun x _ _ => Function.update_of_ne (by omega) _ _
  noNul := h.noNul
  pos := h.pos
  fits := h.fits

/-- A terminator behind a part cuts the rest off. -/
theorem Str.cut {pre rest : List (BitVec 8)} (h : Str m a (pre ++ rest)) :
    StrAt (Function.update m (a + pre.length) 0#8) a pre := by
  intro i hi
  by_cases hend : i = pre.length
  · rw [hend, Function.update_self, List.getD_eq_default _ _ (Nat.le_refl _)]
  · rw [Function.update_of_ne (by omega), h.held i (by rw [List.length_append]; omega),
      List.getD_append _ _ _ _ (by omega)]

/-! ## One call -/

theorem strchrLoop_eq {c : BitVec 8} (hc : c ≠ 0#8) {fuel i : Nat}
    (h : Str m (d + i) delims) (hfuel : delims.length < fuel) :
    ∃ p, strchrLoop m d c fuel i = .ok p ∧ (p ≠ 0 ↔ c ∈ delims) := by
  induction delims generalizing i fuel with
  | nil =>
    obtain ⟨fuel, rfl⟩ := Nat.exists_eq_add_of_lt hfuel
    refine ⟨0, ?_, by simp⟩
    rw [strchrLoop, wrap_of_lt (show d + i < 2 ^ 32 from h.fits), h.nil, if_neg (Ne.symm hc),
      if_pos rfl]
  | cons x delims ih =>
    obtain ⟨fuel, rfl⟩ := Nat.exists_eq_add_of_lt hfuel
    have hfits := h.fits
    rw [List.length_cons] at hfits
    rw [strchrLoop, wrap_of_lt (by omega), h.head.1]
    by_cases hx : x = c
    · refine ⟨d + i, if_pos hx, ?_⟩
      have hpos := h.pos
      simp only [hx, List.mem_cons_self, iff_true]
      omega
    · obtain ⟨p, hrun, hp⟩ := @ih ((x :: delims).length + fuel) (i + 1) h.tail
        (by rw [List.length_cons]; omega)
      refine ⟨p, ?_, ?_⟩
      · rw [if_neg hx, if_neg h.head.2]
        exact hrun
      · rw [hp, List.mem_cons, or_iff_right (fun heq => hx heq.symm)]

theorem strchr_eq {c : BitVec 8} (hc : c ≠ 0#8) (h : Str m d delims) :
    ∃ p, strchr m d c = .ok p ∧ (p ≠ 0 ↔ c ∈ delims) := by
  have hfits := h.fits
  exact strchrLoop_eq (i := 0) hc h (by omega)

/-- The first of several is found. -/
theorem strchr_found {c : BitVec 8} {pre rest : List (BitVec 8)} (h : Str m a (pre ++ c :: rest))
    (hpre : c ∉ pre) : strchr m a c = .ok (a + pre.length) := by
  have hloop : ∀ (fuel i : Nat) (pre : List (BitVec 8)), Str m (a + i) (pre ++ c :: rest) → c ∉ pre →
      pre.length < fuel → strchrLoop m a c fuel i = .ok (a + i + pre.length) := by
    intro fuel i pre
    induction pre generalizing fuel i with
    | nil =>
      intro h _ hfuel
      obtain ⟨fuel, rfl⟩ := Nat.exists_eq_add_of_lt hfuel
      have hfits := h.fits
      rw [strchrLoop, wrap_of_lt (by omega), if_pos h.head.1]
      rfl
    | cons x pre ih =>
      intro h hpre hfuel
      obtain ⟨fuel, rfl⟩ := Nat.exists_eq_add_of_lt hfuel
      have hfits := h.fits
      have hne : x ≠ c := fun heq => hpre (by rw [heq]; exact List.mem_cons_self)
      have hrest := ih ((x :: pre).length + fuel) (i + 1) h.tail
        (fun hmem => hpre (List.mem_cons_of_mem x hmem)) (by rw [List.length_cons]; omega)
      rw [strchrLoop, wrap_of_lt (by omega), h.head.1, if_neg hne, if_neg h.head.2]
      rw [show a + i + (x :: pre).length = a + (i + 1) + pre.length by
        rw [List.length_cons]; omega]
      exact hrest
  have hfits := h.fits
  rw [List.length_append] at hfits
  exact hloop (2 ^ 32) 0 pre h hpre (by omega)

/-- The predicate that the runs are about. -/
def isDelimiter {α : Type} [DecidableEq α] (delims : List α) (c : α) : Bool := decide (c ∈ delims)

theorem skipDelimiters_eq (hd : Str m d delims) {pre rest : List (BitVec 8)} {fuel : Nat}
    (h : Str m a (pre ++ rest)) (hpre : ∀ c ∈ pre, isDelimiter delims c = true)
    (hrest : ∀ c ∈ rest.head?, isDelimiter delims c = false) (hfuel : pre.length < fuel) :
    skipDelimiters m d fuel a = .ok (a + pre.length) := by
  induction pre generalizing a fuel with
  | nil =>
    obtain ⟨fuel, rfl⟩ := Nat.exists_eq_add_of_lt hfuel
    rw [skipDelimiters]
    cases rest with
    | nil => rw [if_pos h.nil]; rfl
    | cons c rest =>
      obtain ⟨p, hrun, hp⟩ := strchr_eq h.head.2 hd
      have hno : c ∉ delims := of_decide_eq_false (hrest c rfl)
      rw [h.head.1, if_neg h.head.2, hrun, ok_bind, if_neg fun hne => hno (hp.mp hne)]
      rfl
  | cons c pre ih =>
    obtain ⟨fuel, rfl⟩ := Nat.exists_eq_add_of_lt hfuel
    obtain ⟨p, hrun, hp⟩ := strchr_eq h.head.2 hd
    have hmem : c ∈ delims := of_decide_eq_true (hpre c List.mem_cons_self)
    have hfits := h.fits
    rw [List.cons_append, List.length_cons] at hfits
    rw [skipDelimiters, h.head.1, if_neg h.head.2, hrun, ok_bind, if_pos (hp.mpr hmem),
      wrap_of_lt (by omega), ih h.tail (fun x hx => hpre x (List.mem_cons_of_mem c hx))
        (by rw [List.length_cons]; omega), List.length_cons, Nat.add_assoc, Nat.add_comm 1]

theorem skipToken_eq (hd : Str m d delims) {run rest : List (BitVec 8)} {fuel length : Nat}
    (h : Str m a (run ++ rest)) (hrun : ∀ c ∈ run, isDelimiter delims c = false)
    (hrest : ∀ c ∈ rest.head?, isDelimiter delims c = true) (hfuel : run.length < fuel) :
    skipToken m d fuel a length = .ok (a + run.length, length + run.length) := by
  induction run generalizing a fuel length with
  | nil =>
    obtain ⟨fuel, rfl⟩ := Nat.exists_eq_add_of_lt hfuel
    rw [skipToken]
    cases rest with
    | nil => rw [if_pos h.nil]; rfl
    | cons c rest =>
      obtain ⟨p, hcall, hp⟩ := strchr_eq h.head.2 hd
      have hmem : c ∈ delims := of_decide_eq_true (hrest c rfl)
      rw [h.head.1, if_neg h.head.2, hcall, ok_bind, if_neg (hp.mpr hmem)]
      rfl
  | cons c run ih =>
    obtain ⟨fuel, rfl⟩ := Nat.exists_eq_add_of_lt hfuel
    obtain ⟨p, hcall, hp⟩ := strchr_eq h.head.2 hd
    have hno : c ∉ delims := of_decide_eq_false (hrun c List.mem_cons_self)
    have hfits := h.fits
    rw [List.cons_append, List.length_cons] at hfits
    rw [skipToken, h.head.1, if_neg h.head.2, hcall, ok_bind,
      if_pos (not_not.mp fun hne => hno (hp.mp hne)), wrap_of_lt (by omega),
      ih h.tail (fun x hx => hrun x (List.mem_cons_of_mem c hx)) (by rw [List.length_cons]; omega),
      List.length_cons, Nat.add_assoc, Nat.add_assoc, Nat.add_comm 1]

/-- String and delimiters lie apart. -/
structure Ready (m : Mem) (d : Nat) (delims : List (BitVec 8)) (a : Nat) (s : List (BitVec 8)) :
    Prop where
  text : Str m a s
  delimiters : Str m d delims
  apart : a + s.length < d ∨ d + delims.length < a

/-- A run that a delimiter ends is cut off and returned. -/
theorem scan_ended {pre run rest : List (BitVec 8)} {sep : BitVec 8}
    (h : Ready m d delims a (pre ++ (run ++ sep :: rest)))
    (hpre : ∀ c ∈ pre, isDelimiter delims c = true) (hne : run ≠ [])
    (hrun : ∀ c ∈ run, isDelimiter delims c = false) (hsep : isDelimiter delims sep = true) :
    scan m a d = .ok (a + pre.length, Function.update m (a + pre.length + run.length) 0#8,
      a + pre.length + run.length + 1) := by
  have hfits := h.text.fits
  simp only [List.length_append, List.length_cons] at hfits
  have hrest : Str m (a + pre.length) (run ++ sep :: rest) := h.text.drop
  have hend : Str m (a + pre.length + run.length) (sep :: rest) := hrest.drop
  have hhead : ∀ c ∈ (run ++ sep :: rest).head?, isDelimiter delims c = false := by
    intro c hc
    rw [List.head?_append_of_ne_nil run hne] at hc
    exact hrun c (List.mem_of_mem_head? hc)
  have hskip : skipDelimiters m d (2 ^ 32) a = _ :=
    skipDelimiters_eq h.delimiters h.text hpre hhead (by omega)
  have htoken : skipToken m d (2 ^ 32) (a + pre.length) 0 = _ := skipToken_eq h.delimiters hrest hrun
    (fun c hc => by
      rw [List.head?_cons, Option.mem_some_iff] at hc
      rw [← hc]
      exact hsep) (by omega)
  rw [Nat.zero_add] at htoken
  rw [scan, if_neg (h.text.ne_zero (by simp))]
  simp only [hskip, htoken, ok_bind, if_neg (hrest.ne_zero (by simp)),
    if_neg (hend.ne_zero (by simp)),
    wsub_of_le (show run.length ≤ a + pre.length + run.length by omega) (by omega),
    Nat.add_sub_cancel, wrap_of_lt (show a + pre.length + run.length + 1 < 2 ^ 32 by omega)]
  rfl

/-- A run that nothing follows is skipped, and nothing is returned. -/
theorem scan_last {pre run : List (BitVec 8)} (h : Ready m d delims a (pre ++ run))
    (hpre : ∀ c ∈ pre, isDelimiter delims c = true)
    (hrun : ∀ c ∈ run, isDelimiter delims c = false) :
    scan m a d = .ok (0, m, a + pre.length + run.length) := by
  have hfits := h.text.fits
  simp only [List.length_append] at hfits
  have hrest : Str m (a + pre.length) run := h.text.drop
  have hhead : ∀ c ∈ run.head?, isDelimiter delims c = false := fun c hc =>
    hrun c (List.mem_of_mem_head? hc)
  have hwhole : Str m (a + pre.length) (run ++ []) := by
    rw [List.append_nil]
    exact hrest
  have hskip : skipDelimiters m d (2 ^ 32) a = _ :=
    skipDelimiters_eq h.delimiters h.text hpre hhead (by omega)
  have htoken : skipToken m d (2 ^ 32) (a + pre.length) 0 = _ :=
    skipToken_eq h.delimiters hwhole hrun (by simp) (by omega)
  rw [scan]
  by_cases hempty : pre ++ run = []
  · obtain ⟨rfl, rfl⟩ := List.append_eq_nil_iff.mp hempty
    rw [if_pos h.text.nil]
    rfl
  · rw [if_neg (h.text.ne_zero hempty)]
    by_cases hblank : run = []
    · subst hblank
      simp only [hskip, ok_bind, if_pos hrest.nil]
      rfl
    · simp only [hskip, htoken, ok_bind, if_neg (hrest.ne_zero hblank),
        if_pos hrest.terminator]
      rfl

/-! ## All calls -/

/-- A call returned the token, or `NULL` where there is none. -/
def Returns (token : Option (List (BitVec 8))) (p : Nat) (m : Mem) : Prop :=
  match token with
  | some bytes => p ≠ 0 ∧ StrAt m p bytes
  | none => p = 0

/-- One call takes the next ended run; what is left is ready for the next. -/
theorem scan_spec (h : Ready m d delims a s) :
    ∃ p m' a' rest, scan m a d = .ok (p, m', a') ∧ Ready m' d delims a' rest ∧
      Returns (endedRuns (isDelimiter delims) s).head? p m' ∧
      endedRuns (isDelimiter delims) rest = (endedRuns (isDelimiter delims) s).tail := by
  have hfits := h.text.fits
  have hapart := h.apart
  cases front (isDelimiter delims) s with
  | ended pre run sep rest hpre hne hrun hsep =>
    simp only [List.length_append, List.length_cons] at hfits hapart
    have hrest : Str m (a + pre.length) (run ++ sep :: rest) := h.text.drop
    have hend : Str m (a + pre.length + run.length) (sep :: rest) := hrest.drop
    have hruns : endedRuns (isDelimiter delims) (pre ++ (run ++ sep :: rest)) =
        run :: endedRuns (isDelimiter delims) rest := by
      rw [endedRuns_append_sep hpre, endedRuns_ended hne hrun hsep]
    refine ⟨_, _, _, rest, scan_ended h hpre hne hrun hsep, ⟨?_, ?_, ?_⟩, ?_, ?_⟩
    · exact hend.tail.update (.inl (by omega))
    · exact h.delimiters.update (by omega)
    · omega
    · rw [hruns]
      exact ⟨Nat.pos_iff_ne_zero.mp hrest.pos, hrest.cut⟩
    · rw [hruns, List.tail_cons]
  | last pre run hpre hrun =>
    simp only [List.length_append] at hfits hapart
    have hnone : endedRuns (isDelimiter delims) (pre ++ run) = [] := by
      rw [endedRuns_append_sep hpre, endedRuns_last hrun]
    have hrest : Str m (a + pre.length) (run ++ []) := by
      rw [List.append_nil]
      exact h.text.drop
    refine ⟨_, _, _, [], scan_last h hpre hrun, ⟨hrest.drop, h.delimiters, ?_⟩, ?_, ?_⟩
    · rw [List.length_nil]
      omega
    · rw [hnone]
      rfl
    · rw [hnone]
      rfl

/-- Call number `k` returns ended run number `k`. -/
theorem calls_spec (h : Ready m d delims a s) (nextStart k : Nat) :
    ∃ p m' a' rest, calls m nextStart a d k = .ok (p, m', a') ∧ Ready m' d delims a' rest ∧
      Returns (endedRuns (isDelimiter delims) s)[k]? p m' ∧
      endedRuns (isDelimiter delims) rest = (endedRuns (isDelimiter delims) s).drop (k + 1) := by
  induction k with
  | zero =>
    have ha : a ≠ 0 := Nat.pos_iff_ne_zero.mp h.text.pos
    obtain ⟨p, m', a', rest, hrun, hready, hreturns, hrest⟩ := scan_spec h
    refine ⟨p, m', a', rest, ?_, hready, ?_, ?_⟩
    · rw [calls, strtok, if_pos ha, hrun]
    · rwa [← List.head?_eq_getElem?]
    · rw [hrest, List.drop_one]
  | succ k ih =>
    obtain ⟨p, m', a', rest, hrun, hready, -, hrest⟩ := ih
    obtain ⟨p', m'', a'', rest', hrun', hready', hreturns', hrest'⟩ := scan_spec hready
    refine ⟨p', m'', a'', rest', ?_, hready', ?_, ?_⟩
    · rw [calls, hrun, ok_bind]
      exact hrun'
    · rwa [hrest, List.head?_drop] at hreturns'
    · rw [hrest', hrest, List.tail_drop]

/-- The calls return these tokens, one by one, and then `NULL`. -/
def Yields (m : Mem) (nextStart a d : Nat) (tokens : List (List (BitVec 8))) : Prop :=
  ∀ k, ∃ p m' a', calls m nextStart a d k = .ok (p, m', a') ∧ Returns tokens[k]? p m'

/-- **Which tokens `strtok` yields.**  All maximal runs without delimiters exactly when
the string is empty or ends with a delimiter; otherwise the last one is missing. -/
theorem yields_runs_iff (nextStart : Nat) (h : Ready m d delims a s) :
    Yields m nextStart a d (runs (isDelimiter delims) s) ↔ ∀ c ∈ s.getLast?, c ∈ delims := by
  have hlast : (∀ c ∈ s.getLast?, c ∈ delims) ↔ lastRun (isDelimiter delims) s = [] := by
    rw [lastRun_eq_nil_iff]
    simp only [isDelimiter, decide_eq_true_eq]
  have hruns := runs_eq (isDelimiter delims) s
  rw [hlast]
  constructor
  · intro hyields
    by_contra hne
    rw [if_neg hne] at hruns
    -- the call whose turn the last run is
    obtain ⟨p, m', a', hrun, htoken⟩ := hyields (endedRuns (isDelimiter delims) s).length
    obtain ⟨p', m'', a'', -, hrun', -, hnull, -⟩ := calls_spec h nextStart
      (endedRuns (isDelimiter delims) s).length
    rw [hrun] at hrun'
    obtain ⟨rfl, -⟩ := Prod.mk.inj (Except.ok.inj hrun')
    rw [hruns, List.getElem?_append_right (Nat.le_refl _), Nat.sub_self] at htoken
    rw [List.getElem?_eq_none (Nat.le_refl _)] at hnull
    exact htoken.1 hnull
  · intro hnil k
    rw [if_pos hnil, List.append_nil] at hruns
    obtain ⟨p, m', a', -, hrun, -, htoken, -⟩ := calls_spec h nextStart k
    rw [hruns]
    exact ⟨p, m', a', hrun, htoken⟩

/-- A text at 100 and a blank at 200. -/
def sample (text : List (BitVec 8)) : Mem := fun x =>
  if x = 200 then 0x20#8 else if 100 ≤ x ∧ x < 200 then text.getD (x - 100) 0#8 else 0#8

theorem sample_ready (text : List (BitVec 8)) (hnul : 0#8 ∉ text) (hlen : text.length < 100) :
    Ready (sample text) 200 [0x20#8] 100 text where
  text := {
    held := by
      intro i hi
      rw [sample, if_neg (by omega), if_pos (by omega), Nat.add_sub_cancel_left]
    noNul := hnul
    pos := by omega
    fits := by omega }
  delimiters := {
    held := by
      intro i hi
      rw [List.length_singleton] at hi
      rcases Nat.le_one_iff_eq_zero_or_eq_one.mp hi with rfl | rfl
      · rfl
      · rfl
    noNul := by decide
    pos := by omega
    fits := by decide }
  apart := .inl (by omega)

/-- "a " -/
theorem yields_runs_blankAtEnd :
    Yields (sample [0x61#8, 0x20#8]) 0 100 200 (runs (isDelimiter [0x20#8]) [0x61#8, 0x20#8]) := by
  apply (yields_runs_iff 0 (sample_ready _ (by decide) (by decide))).mpr
  decide

/-- "a" yields nothing at all. -/
theorem yields_nothing :
    runs (isDelimiter [0x20#8]) [0x61#8] = [[0x61#8]] ∧
      (∃ m' a', calls (sample [0x61#8]) 0 100 200 0 = .ok (0, m', a')) ∧
      ¬ Yields (sample [0x61#8]) 0 100 200 (runs (isDelimiter [0x20#8]) [0x61#8]) := by
  have hruns : runs (isDelimiter [0x20#8]) [0x61#8] = [[0x61#8]] := by decide
  obtain ⟨p, m', a', -, hrun, -, hnull, -⟩ :=
    calls_spec (sample_ready [0x61#8] (by decide) (by decide)) 0 0
  have hp : p = 0 := hnull
  rw [hp] at hrun
  refine ⟨hruns, ⟨m', a', hrun⟩, fun hyields => ?_⟩
  obtain ⟨p', m'', a'', hrun', htoken⟩ := hyields 0
  rw [hrun] at hrun'
  obtain ⟨rfl, -⟩ := Prod.mk.inj (Except.ok.inj hrun')
  rw [hruns] at htoken
  exact htoken.1 rfl

end Strtok
end Libc
end Medusa
