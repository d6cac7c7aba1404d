import Medusa.Machine.Iterate

/-!
# Chains of nodes

A node is an address and `next` says where it points.  A path is followed from an address
to wherever it stops, so two paths compose; a chain is a path to the null pointer, and it
begins with every other path from its head.  The two loops that run along chains look for
the last node and for a node with a property.
-/

namespace Medusa
namespace Machine
namespace Chain

/-- `nodes` are the nodes on the way from an address to `stop`. -/
def Path (next : Nat → Nat) (stop : Nat) : Nat → List Nat → Prop
  | a, [] => a = stop
  | a, b :: nodes => a = b ∧ b ≠ 0 ∧ Path next stop (next b) nodes

/-- `while (next(temp) != NULL) temp = next(temp)`. -/
def lastStep (next : Nat → Nat) (temp : Nat) : Option Nat :=
  if next temp = 0 then none else some (next temp)

/-- `while (temp != NULL && !found(temp)) temp = next(temp)`. -/
def searchStep (next : Nat → Nat) (found : Nat → Prop) [DecidablePred found] (temp : Nat) :
    Option Nat :=
  if temp = 0 ∨ found temp then none else some (next temp)

variable {next next' : Nat → Nat} {stop a b p t fuel : Nat} {nodes nodes' : List Nat}

theorem path_append :
    Path next stop a (nodes ++ nodes') ↔ ∃ b, Path next b a nodes ∧ Path next stop b nodes' := by
  induction nodes generalizing a with
  | nil => simp [Path]
  | cons c nodes ih =>
    simp only [List.cons_append, Path, ih]
    constructor
    · rintro ⟨rfl, hc, b, hleft, hright⟩
      exact ⟨b, ⟨rfl, hc, hleft⟩, hright⟩
    · rintro ⟨b, ⟨rfl, hc, hleft⟩, hright⟩
      exact ⟨rfl, hc, b, hleft, hright⟩

/-- A chain from the null pointer has no nodes. -/
theorem Path.eq_nil (h : Path next 0 0 nodes) : nodes = [] := by
  cases nodes with
  | nil => rfl
  | cons b nodes => exact absurd h.1.symm h.2.1

/-- A chain from any other address begins there. -/
theorem Path.eq_cons (h : Path next 0 a nodes) (ha : a ≠ 0) :
    ∃ rest, nodes = a :: rest ∧ Path next 0 (next a) rest := by
  cases nodes with
  | nil => exact absurd h ha
  | cons b nodes =>
    obtain ⟨rfl, -, hrest⟩ := h
    exact ⟨nodes, rfl, hrest⟩

/-- A path depends on its own nodes only. -/
theorem Path.congr (h : Path next stop a nodes) (hnext : ∀ b ∈ nodes, next' b = next b) :
    Path next' stop a nodes := by
  induction nodes generalizing a with
  | nil => exact h
  | cons b nodes ih =>
    obtain ⟨rfl, hb, hrest⟩ := h
    simp only [List.mem_cons, forall_eq_or_imp] at hnext
    rw [← hnext.1] at hrest
    exact ⟨rfl, hb, ih hrest hnext.2⟩

/-- A chain begins with every path from its head. -/
theorem Path.extends (h : Path next stop a nodes) (hchain : Path next 0 a nodes') :
    ∃ rest, nodes' = nodes ++ rest ∧ Path next 0 stop rest := by
  induction nodes generalizing a nodes' with
  | nil =>
    obtain rfl := h
    exact ⟨nodes', rfl, hchain⟩
  | cons b nodes ih =>
    obtain ⟨rfl, hb, hrest⟩ := h
    cases nodes' with
    | nil => exact absurd hchain hb
    | cons c nodes' =>
      obtain ⟨rfl, -, hchain⟩ := hchain
      obtain ⟨rest, rfl, hend⟩ := ih hrest hchain
      exact ⟨rest, rfl, hend⟩

/-- The node that was last points to `p` now, and the path goes on to where `p` points. -/
theorem Path.graft (h : Path next 0 a (nodes ++ [t])) (hsame : ∀ b ∈ nodes, next' b = next b)
    (ht : next' t = p) (hp : p ≠ 0) : Path next' (next' p) a (nodes ++ [t] ++ [p]) := by
  rw [path_append] at h
  obtain ⟨_, hfront, rfl, hne, -⟩ := h
  rw [path_append]
  refine ⟨p, ?_, rfl, hp, rfl⟩
  rw [path_append]
  exact ⟨_, hfront.congr hsame, rfl, hne, ht⟩

/-! ## Loops along a chain -/

theorem lastStep_of_null (h : next t = 0) : lastStep next t = none := if_pos h

theorem lastStep_of_ne (h : next t ≠ 0) : lastStep next t = some (next t) := if_neg h

theorem Path.walk (h : Path next 0 a (nodes ++ [t])) (hfuel : nodes.length < fuel) :
    runLoop (lastStep next) fuel a = some t := by
  induction nodes generalizing a fuel with
  | nil =>
    obtain ⟨fuel, rfl⟩ := Nat.exists_eq_succ_of_ne_zero (Nat.ne_zero_of_lt hfuel)
    obtain ⟨rfl, -, hlast⟩ := h
    exact runLoop_of_none (lastStep_of_null hlast) fuel
  | cons b nodes ih =>
    obtain ⟨fuel, rfl⟩ := Nat.exists_eq_succ_of_ne_zero (Nat.ne_zero_of_lt hfuel)
    obtain ⟨rfl, -, hrest⟩ := h
    have hnext : next a ≠ 0 := by
      intro hzero
      rw [hzero] at hrest
      cases nodes with
      | nil => exact hrest.2.1 hrest.1.symm
      | cons c nodes => exact hrest.2.1 hrest.1.symm
    rw [runLoop_of_some (lastStep_of_ne hnext)]
    exact ih hrest (Nat.lt_of_succ_lt_succ hfuel)

theorem searchStep_null {found : Nat → Prop} [DecidablePred found] :
    searchStep next found 0 = none := if_pos (.inl rfl)

theorem searchStep_of_found {found : Nat → Prop} [DecidablePred found] (h : found t) :
    searchStep next found t = none := if_pos (.inr h)

theorem searchStep_of_ne {found : Nat → Prop} [DecidablePred found] (ht : t ≠ 0)
    (h : ¬ found t) : searchStep next found t = some (next t) := if_neg (not_or.mpr ⟨ht, h⟩)

theorem Path.search {found : Nat → Prop} [DecidablePred found] (h : Path next 0 a nodes)
    (hfuel : nodes.length < fuel) :
    ∃ t, runLoop (searchStep next found) fuel a = some t ∧ (t ≠ 0 ↔ ∃ b ∈ nodes, found b) := by
  induction nodes generalizing a fuel with
  | nil =>
    obtain ⟨fuel, rfl⟩ := Nat.exists_eq_succ_of_ne_zero (Nat.ne_zero_of_lt hfuel)
    obtain rfl := h
    exact ⟨0, runLoop_of_none searchStep_null fuel, by simp⟩
  | cons b nodes ih =>
    obtain ⟨fuel, rfl⟩ := Nat.exists_eq_succ_of_ne_zero (Nat.ne_zero_of_lt hfuel)
    obtain ⟨rfl, hne, hrest⟩ := h
    by_cases hfound : found a
    · exact ⟨a, runLoop_of_none (searchStep_of_found hfound) fuel, by simp [hne, hfound]⟩
    · obtain ⟨t, hrun, ht⟩ := ih hrest (Nat.lt_of_succ_lt_succ hfuel)
      refine ⟨t, ?_, by simp [ht, hfound]⟩
      rw [runLoop_of_some (searchStep_of_ne hne hfound), hrun]

end Chain
end Machine
end Medusa
