import Medusa.Graphics.Lines

/-!
# The ends of a line

A row or a column is painted from one end to the other.  The loops for the other lines stop
before the end that they reach last, and which end that is depends on the order of the two.
-/

namespace Medusa
namespace Graphics

open Machine Kernel

/-- The line contains its ends, and it is the same line from either end. -/
def Inclusive (x0 y0 x1 y1 : Int) : Prop :=
  ∃ there back, drawLine x0 y0 x1 y1 = .ok there ∧ drawLine x1 y1 x0 y0 = .ok back ∧
    (x0, y0) ∈ there ∧ (x1, y1) ∈ there ∧ ∀ p, p ∈ there ↔ p ∈ back

variable {x0 y0 x1 y1 : Int} {pixels : List (Int × Int)}

/-! ## Rows and columns -/

theorem mem_row {x y last : Int} {p : Int × Int} :
    p ∈ row x y last ↔ p.2 = y ∧ x ≤ p.1 ∧ p.1 ≤ x + last := by
  simp only [row, List.mem_map, List.mem_range]
  constructor
  · rintro ⟨i, hi, rfl⟩
    exact ⟨rfl, by dsimp only; omega⟩
  · rintro ⟨hy, hlo, hhi⟩
    exact ⟨(p.1 - x).toNat, by omega, Prod.ext (by dsimp only; omega) hy.symm⟩

theorem mem_column {x y last : Int} {p : Int × Int} :
    p ∈ column x y last ↔ p.1 = x ∧ y ≤ p.2 ∧ p.2 ≤ y + last := by
  simp only [column, List.mem_map, List.mem_range]
  constructor
  · rintro ⟨i, hi, rfl⟩
    exact ⟨rfl, by dsimp only; omega⟩
  · rintro ⟨hx, hlo, hhi⟩
    exact ⟨(p.2 - y).toNat, by omega, Prod.ext hx.symm (by dsimp only; omega)⟩

/-- A row is painted from end to end, in whatever order the ends are given. -/
theorem drawLineHorizontal_spec {y : Int} (h0 : |x0| < 2 ^ 28) (h1 : |x1| < 2 ^ 28) :
    ∃ pixels, drawLineHorizontal x0 x1 y = .ok pixels ∧
      ∀ p, p ∈ pixels ↔ p.2 = y ∧ min x0 x1 ≤ p.1 ∧ p.1 ≤ max x0 x1 := by
  unfold drawLineHorizontal
  by_cases hswap : x1 < x0
  · have hlast := cInt_of_abs ((abs_sub_lt h0 h1).trans (by decide))
    simp only [if_pos hswap, hlast, ok_bind]
    refine ⟨_, rfl, fun p => ?_⟩
    rw [mem_row]
    omega
  · have hlast := cInt_of_abs ((abs_sub_lt h1 h0).trans (by decide))
    simp only [if_neg hswap, hlast, ok_bind]
    refine ⟨_, rfl, fun p => ?_⟩
    rw [mem_row]
    omega

theorem drawLineVertical_spec {x : Int} (h0 : |y0| < 2 ^ 28) (h1 : |y1| < 2 ^ 28) :
    ∃ pixels, drawLineVertical x y0 y1 = .ok pixels ∧
      ∀ p, p ∈ pixels ↔ p.1 = x ∧ min y0 y1 ≤ p.2 ∧ p.2 ≤ max y0 y1 := by
  unfold drawLineVertical
  by_cases hswap : y1 < y0
  · have hlast := cInt_of_abs ((abs_sub_lt h0 h1).trans (by decide))
    simp only [if_pos hswap, hlast, ok_bind]
    refine ⟨_, rfl, fun p => ?_⟩
    rw [mem_column]
    omega
  · have hlast := cInt_of_abs ((abs_sub_lt h1 h0).trans (by decide))
    simp only [if_neg hswap, hlast, ok_bind]
    refine ⟨_, rfl, fun p => ?_⟩
    rw [mem_column]
    omega

/-! ## The other lines -/

theorem Follows.columns_lt {u₀ v₀ u₁ v₁ : Int} {points : List (Int × Int)}
    (h : Follows u₀ v₀ u₁ v₁ points) : ∀ p ∈ points, u₀ ≤ p.1 ∧ p.1 < u₁ := by
  intro p hp
  have hcolumn := List.mem_map_of_mem (f := Prod.fst) hp
  rw [h.columns, List.mem_map] at hcolumn
  obtain ⟨k, hk, heq⟩ := hcolumn
  rw [List.mem_range] at hk
  omega

theorem FollowsOblique.box (h : FollowsOblique x0 y0 x1 y1 pixels) : ∀ p ∈ pixels,
    min x0 x1 ≤ p.1 ∧ p.1 ≤ max x0 x1 ∧ min y0 y1 ≤ p.2 ∧ p.2 ≤ max y0 y1 := by
  intro p hp
  have hswap : p.swap ∈ pixels.map Prod.swap := List.mem_map_of_mem hp
  unfold FollowsOblique FollowsLow FollowsHigh at h
  split at h
  · split at h
    · have hbox := Follows.box h p hp
      omega
    · exact Follows.box h p hp
  · split at h
    · have hbox := Follows.box h p.swap hswap
      rw [Prod.fst_swap, Prod.snd_swap] at hbox
      omega
    · have hbox := Follows.box h p.swap hswap
      rw [Prod.fst_swap, Prod.snd_swap] at hbox
      omega

/-- The end that is drawn last is left out. -/
theorem FollowsOblique.end_missing (h : FollowsOblique x0 y0 x1 y1 pixels) :
    (x0, y0) ∉ pixels ∨ (x1, y1) ∉ pixels := by
  unfold FollowsOblique FollowsLow FollowsHigh at h
  split at h
  · split at h
    · exact .inl fun hp => absurd (Follows.columns_lt h _ hp).2 (lt_irrefl _)
    · exact .inr fun hp => absurd (Follows.columns_lt h _ hp).2 (lt_irrefl _)
  · split at h
    · exact .inl fun hp => absurd (Follows.columns_lt h _ (List.mem_map_of_mem hp)).2 (lt_irrefl _)
    · exact .inr fun hp => absurd (Follows.columns_lt h _ (List.mem_map_of_mem hp)).2 (lt_irrefl _)

/-- A column is painted twice, the second time as a line without its last end. -/
theorem drawLine_column {x : Int} (h : Ends x y0 x y1) (hy : y0 ≠ y1) :
    ∃ pixels, drawLine x y0 x y1 = .ok pixels ∧
      ∀ p, p ∈ pixels ↔ p.1 = x ∧ min y0 y1 ≤ p.2 ∧ p.2 ≤ max y0 y1 := by
  obtain ⟨first, hfirst, hmem⟩ := @drawLineVertical_spec _ _ x h.y0 h.y1
  obtain ⟨rest, hrest, hfollows⟩ := drawLineOblique_follows h hy
  refine ⟨first ++ rest, ?_, fun p => ?_⟩
  · rw [drawLine, if_neg hy, if_pos rfl, hfirst, ok_bind, hrest]
    rfl
  · rw [List.mem_append, hmem]
    constructor
    · rintro (hp | hp)
      · exact hp
      · have hbox := hfollows.box p hp
        omega
    · exact fun hp => .inl hp

theorem inclusive_of_spec {there back : List (Int × Int)} {P : Int × Int → Prop}
    (hthere : drawLine x0 y0 x1 y1 = .ok there) (hback : drawLine x1 y1 x0 y0 = .ok back)
    (hmem : ∀ p, p ∈ there ↔ P p) (hmem' : ∀ p, p ∈ back ↔ P p) (h0 : P (x0, y0))
    (h1 : P (x1, y1)) : Inclusive x0 y0 x1 y1 :=
  ⟨there, back, hthere, hback, (hmem _).mpr h0, (hmem _).mpr h1, fun p =>
    (hmem p).trans (hmem' p).symm⟩

/-- **Which lines include both ends.**  Rows and columns do, and no other line. -/
theorem inclusive_iff (h : Ends x0 y0 x1 y1) : Inclusive x0 y0 x1 y1 ↔ x0 = x1 ∨ y0 = y1 := by
  constructor
  · rintro ⟨there, back, hthere, -, h0, h1, -⟩
    by_contra hoblique
    obtain ⟨hx, hy⟩ := not_or.mp hoblique
    obtain ⟨pixels, hrun, hfollows⟩ := drawLine_follows h hx hy
    obtain rfl := Except.ok.inj (hrun.symm.trans hthere)
    rcases hfollows.end_missing with hmissing | hmissing
    · exact hmissing h0
    · exact hmissing h1
  · intro hstraight
    by_cases hy : y0 = y1
    · subst hy
      obtain ⟨there, hthere, hmem⟩ := @drawLineHorizontal_spec _ _ y0 h.x0 h.x1
      obtain ⟨back, hback, hmem'⟩ := @drawLineHorizontal_spec _ _ y0 h.x1 h.x0
      refine inclusive_of_spec (P := fun p => p.2 = y0 ∧ min x0 x1 ≤ p.1 ∧ p.1 ≤ max x0 x1)
        (by rw [drawLine, if_pos rfl, hthere]) (by rw [drawLine, if_pos rfl, hback]) hmem ?_ ?_ ?_
      · intro p
        rw [hmem', min_comm, max_comm]
      · exact ⟨rfl, min_le_left _ _, le_max_left _ _⟩
      · exact ⟨rfl, min_le_right _ _, le_max_right _ _⟩
    · obtain rfl := hstraight.resolve_right hy
      obtain ⟨there, hthere, hmem⟩ := drawLine_column h hy
      obtain ⟨back, hback, hmem'⟩ := drawLine_column h.swap (Ne.symm hy)
      refine inclusive_of_spec (P := fun p => p.1 = x0 ∧ min y0 y1 ≤ p.2 ∧ p.2 ≤ max y0 y1)
        hthere hback hmem ?_ ?_ ?_
      · intro p
        rw [hmem', min_comm, max_comm]
      · exact ⟨rfl, min_le_left _ _, le_max_left _ _⟩
      · exact ⟨rfl, min_le_right _ _, le_max_right _ _⟩

theorem inclusive_iff_row : Inclusive 3 7 (-2) 7 ↔ (3 : Int) = -2 ∨ (7 : Int) = 7 :=
  inclusive_iff ⟨by decide, by decide, by decide, by decide⟩

/-- The diagonal from (0, 0) to (1, 1) is one pixel. -/
theorem diagonal_not_inclusive :
    drawLine 0 0 1 1 = .ok [(0, 0)] ∧ drawLine 1 1 0 0 = .ok [(0, 0)] ∧ ¬ Inclusive 0 0 1 1 := by
  have hrun : drawLine 0 0 1 1 = .ok [(0, 0)] := by decide +kernel
  refine ⟨hrun, by decide +kernel, ?_⟩
  rintro ⟨there, -, hthere, -, -, hend, -⟩
  obtain rfl := Except.ok.inj (hrun.symm.trans hthere)
  exact absurd hend (by decide)

end Graphics
end Medusa
