import Mathlib.Data.List.Basic

/-!
# Runs between separators

The maximal runs of a list without separators, and those among them that a separator
ends.  A scanner that takes one run after another needs three facts: separators in
front do not matter, a run that is ended comes off the front, and only the last run
can lack an end.
-/

namespace Medusa
namespace Machine

variable {α : Type} {p : α → Bool}

/-- The maximal runs without separators. -/
def runs (p : α → Bool) (s : List α) : List (List α) := (s.splitOnP p).filter (· ≠ [])

/-- Those that a separator ends. -/
def endedRuns (p : α → Bool) (s : List α) : List (List α) :=
  (s.splitOnP p).dropLast.filter (· ≠ [])

/-- What a list starts with: separators, and then a run that a separator ends or that
nothing follows. -/
inductive Front (p : α → Bool) : List α → Prop
  | ended (pre run : List α) (sep : α) (rest : List α) (hpre : ∀ x ∈ pre, p x = true)
      (hne : run ≠ []) (hrun : ∀ x ∈ run, p x = false) (hsep : p sep = true) :
      Front p (pre ++ (run ++ sep :: rest))
  | last (pre run : List α) (hpre : ∀ x ∈ pre, p x = true) (hrun : ∀ x ∈ run, p x = false) :
      Front p (pre ++ run)

/-- A separator in front of the rest of a list. -/
theorem Front.cons_sep {x : α} {s : List α} (hx : p x = true) (h : Front p s) :
    Front p (x :: s) := by
  have hcons : ∀ pre : List α, (∀ y ∈ pre, p y = true) → ∀ y ∈ x :: pre, p y = true := by
    intro pre hpre y hy
    rcases List.mem_cons.mp hy with rfl | hy
    · exact hx
    · exact hpre y hy
  cases h with
  | ended pre run sep rest hpre hne hrun hsep =>
    exact .ended (x :: pre) run sep rest (hcons pre hpre) hne hrun hsep
  | last pre run hpre hrun => exact .last (x :: pre) run (hcons pre hpre) hrun

/-- Another element joins the run that follows it, if no separator is between. -/
theorem Front.cons_run {x : α} {s : List α} (hx : p x = false) (h : Front p s) :
    Front p (x :: s) := by
  have hone : ∀ y ∈ [x], p y = false := by simpa using hx
  have hcons : ∀ run : List α, (∀ y ∈ run, p y = false) → ∀ y ∈ x :: run, p y = false := by
    intro run hrun y hy
    rcases List.mem_cons.mp hy with rfl | hy
    · exact hx
    · exact hrun y hy
  cases h with
  | ended pre run sep rest hpre hne hrun hsep =>
    cases pre with
    | nil => exact .ended [] (x :: run) sep rest hpre (List.cons_ne_nil x run) (hcons run hrun) hsep
    | cons y pre =>
      exact .ended [] [x] y (pre ++ (run ++ sep :: rest)) (by simp) (List.cons_ne_nil x []) hone
        (hpre y List.mem_cons_self)
  | last pre run hpre hrun =>
    cases pre with
    | nil => exact .last [] (x :: run) hpre (hcons run hrun)
    | cons y pre =>
      exact .ended [] [x] y (pre ++ run) (by simp) (List.cons_ne_nil x []) hone
        (hpre y List.mem_cons_self)

theorem front (p : α → Bool) (s : List α) : Front p s := by
  induction s with
  | nil => exact .last [] [] (by simp) (by simp)
  | cons x s ih =>
    cases hx : p x with
    | true => exact ih.cons_sep hx
    | false => exact ih.cons_run hx

theorem splitOnP_cons_sep {x : α} (hx : p x = true) (s : List α) :
    (x :: s).splitOnP p = [] :: s.splitOnP p := by
  rw [List.splitOnP_cons_eq_if_modifyHead, if_pos hx]

/-- Separators in front make no runs. -/
theorem endedRuns_append_sep {pre : List α} (hpre : ∀ x ∈ pre, p x = true) (s : List α) :
    endedRuns p (pre ++ s) = endedRuns p s := by
  induction pre with
  | nil => rfl
  | cons x pre ih =>
    have hrest := ih fun y hy => hpre y (List.mem_cons_of_mem x hy)
    rw [List.cons_append, endedRuns, splitOnP_cons_sep (hpre x List.mem_cons_self),
      List.dropLast_cons_of_ne_nil (List.splitOnP_ne_nil p _), List.filter_cons_of_neg (by simp)]
    exact hrest

theorem endedRuns_ended {run : List α} {sep : α} (hne : run ≠ [])
    (hrun : ∀ x ∈ run, p x = false) (hsep : p sep = true) (rest : List α) :
    endedRuns p (run ++ sep :: rest) = run :: endedRuns p rest := by
  rw [endedRuns, List.splitOnP_append_cons_of_forall_mem hrun sep hsep,
    List.dropLast_cons_of_ne_nil (List.splitOnP_ne_nil p _),
    List.filter_cons_of_pos (by simpa using hne)]
  rfl

theorem endedRuns_last {run : List α} (hrun : ∀ x ∈ run, p x = false) : endedRuns p run = [] := by
  rw [endedRuns, List.splitOnP_eq_singleton hrun]
  rfl

/-- The run at the end of a list, which no separator ends. -/
def lastRun (p : α → Bool) (s : List α) : List α := (s.splitOnP p).getLastD []

/-- Every run is ended, or it is the last one. -/
theorem runs_eq (p : α → Bool) (s : List α) :
    runs p s = endedRuns p s ++ if lastRun p s = [] then [] else [lastRun p s] := by
  have hsplit : s.splitOnP p = (s.splitOnP p).dropLast ++ [lastRun p s] := by
    rw [lastRun, List.getLastD_eq_getLast?, List.getLast?_eq_some_getLast (List.splitOnP_ne_nil p s)]
    exact (List.dropLast_append_getLast (List.splitOnP_ne_nil p s)).symm
  have hone : [lastRun p s].filter (· ≠ []) = if lastRun p s = [] then [] else [lastRun p s] := by
    split
    · next hnil => rw [hnil, List.filter_cons_of_neg (by simp), List.filter_nil]
    · next hne => rw [List.filter_cons_of_pos (by simpa using hne), List.filter_nil]
  calc runs p s = ((s.splitOnP p).dropLast ++ [lastRun p s]).filter (· ≠ []) := by
        rw [runs, ← hsplit]
    _ = _ := by rw [List.filter_append, hone, endedRuns]

theorem lastRun_of_none {s : List α} (h : ∀ x ∈ s, p x = false) : lastRun p s = s := by
  rw [lastRun, List.splitOnP_eq_singleton h]
  rfl

theorem lastRun_append {sep : α} {run : List α} (hsep : p sep = true)
    (hrun : ∀ x ∈ run, p x = false) (s : List α) : lastRun p (s ++ sep :: run) = run := by
  rw [lastRun, List.splitOnP_append_cons s run hsep, List.splitOnP_eq_singleton hrun]
  simp

/-- A list has no separator, or a last one. -/
theorem last_separator (p : α → Bool) (s : List α) : (∀ x ∈ s, p x = false) ∨
    ∃ pre sep run, s = pre ++ sep :: run ∧ p sep = true ∧ ∀ x ∈ run, p x = false := by
  induction s with
  | nil => exact .inl (by simp)
  | cons x s ih =>
    rcases ih with hnone | ⟨pre, sep, run, rfl, hsep, hrun⟩
    · cases hx : p x with
      | true => exact .inr ⟨[], x, s, rfl, hx, hnone⟩
      | false =>
        refine .inl fun y hy => ?_
        rcases List.mem_cons.mp hy with rfl | hy
        · exact hx
        · exact hnone y hy
    · exact .inr ⟨x :: pre, sep, run, rfl, hsep, hrun⟩

/-- Nothing follows the last separator when the list ends with one, or is empty. -/
theorem lastRun_eq_nil_iff (p : α → Bool) (s : List α) :
    lastRun p s = [] ↔ ∀ x ∈ s.getLast?, p x = true := by
  rcases last_separator p s with hnone | ⟨pre, sep, run, rfl, hsep, hrun⟩
  · rw [lastRun_of_none hnone]
    constructor
    · rintro rfl
      simp
    · intro h
      by_contra hne
      have hlast := h _ (List.getLast?_eq_some_getLast hne)
      rw [hnone _ (List.getLast_mem hne)] at hlast
      exact absurd hlast (by simp)
  · rw [lastRun_append hsep hrun]
    constructor
    · rintro rfl
      simp [hsep]
    · intro h
      by_contra hne
      have hlast := h (run.getLast hne) (by simp [List.getLast?_append, List.getLast?_cons,
        List.getLast?_eq_some_getLast hne])
      rw [hrun _ (List.getLast_mem hne)] at hlast
      exact absurd hlast (by simp)

end Machine
end Medusa
