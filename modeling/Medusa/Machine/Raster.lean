import Mathlib.Data.List.Induction
import Mathlib.Data.Set.Insert
import Mathlib.Order.Interval.Set.Basic
import Medusa.Machine.Memory

/-!
# Pictures in memory

A raster keeps one word a pixel, in rows that start a pitch apart.  Two pixels of it
share no byte, so a drawing is what it paints on each pixel of a set, and drawings
compose as pictures do.  The pictures of a stack of layers are seen through from the
front.
-/

namespace Medusa
namespace Machine

structure Raster where
  address : Nat
  pitch : Nat
  width : Nat
  height : Nat
  row_le : 4 * width ≤ pitch

namespace Raster

def place (r : Raster) (q : Nat × Nat) : Nat := r.address + q.2 * r.pitch + 4 * q.1

def area (r : Raster) : Set (Nat × Nat) := {q | q.1 < r.width ∧ q.2 < r.height}

def get (r : Raster) (m : Mem) (q : Nat × Nat) : Nat := read32 m (r.place q)

def bytes (r : Raster) (S : Set (Nat × Nat)) : Set Nat :=
  {a | ∃ q ∈ S, r.place q ≤ a ∧ a < r.place q + 4}

variable {r : Raster} {p q : Nat × Nat} {S T : Set (Nat × Nat)} {m m' m₀ : Mem} {a : Nat}

theorem place_right (r : Raster) (x y j : Nat) :
    r.place (x + j, y) = r.place (x, y) + 4 * j := by
  unfold place
  dsimp only
  omega

theorem place_down (r : Raster) (x y : Nat) : r.place (x, y + 1) = r.place (x, y) + r.pitch := by
  unfold place
  dsimp only
  rw [Nat.succ_mul]
  omega

/-- A pixel of an upper row ends before the lower row starts. -/
theorem place_lt (hp : p ∈ r.area) (h : p.2 < q.2) : r.place p + 4 ≤ r.place q := by
  have hrow := Nat.mul_le_mul_right r.pitch (Nat.succ_le_of_lt h)
  have hwide := r.row_le
  have hin : p.1 < r.width := hp.1
  rw [Nat.succ_mul] at hrow
  unfold place
  omega

theorem place_apart (hp : p ∈ r.area) (hq : q ∈ r.area) (hne : p ≠ q) :
    r.place p + 4 ≤ r.place q ∨ r.place q + 4 ≤ r.place p := by
  rcases Nat.lt_trichotomy p.2 q.2 with hlt | heq | hgt
  · exact Or.inl (place_lt hp hlt)
  · have hcolumn : p.1 ≠ q.1 := fun h => hne (Prod.ext h heq)
    unfold place
    rw [heq]
    omega
  · exact Or.inr (place_lt hq hgt)

theorem place_add_le (hq : q ∈ r.area) :
    r.place q + 4 ≤ r.address + r.height * r.pitch := by
  have hrow := Nat.mul_le_mul_right r.pitch (Nat.succ_le_of_lt hq.2)
  have hwide := r.row_le
  have hin : q.1 < r.width := hq.1
  rw [Nat.succ_mul] at hrow
  unfold place
  omega

/-- All pixels lie in the block of the raster. -/
theorem bytes_area_subset :
    r.bytes r.area ⊆ Set.Ico r.address (r.address + r.height * r.pitch) := by
  rintro a ⟨q, hq, hlo, hhi⟩
  have hend := place_add_le hq
  have hstart : r.address ≤ r.place q := by
    unfold place
    omega
  exact ⟨by omega, by omega⟩

theorem bytes_mono (h : S ⊆ T) : r.bytes S ⊆ r.bytes T :=
  fun _ ⟨q, hq, hbyte⟩ => ⟨q, h hq, hbyte⟩

theorem get_congr (h : ∀ a, r.place q ≤ a → a < r.place q + 4 → m' a = m a) :
    r.get m' q = r.get m q := read32_congr h

end Raster

open Raster

/-! ## Painting -/

/-- Memory off `S` is as it was. -/
def OnlyIn (S : Set Nat) (m m' : Mem) : Prop := ∀ a, a ∉ S → m' a = m a

section OnlyIn

variable {S T : Set Nat} {m m' m'' : Mem}

theorem OnlyIn.refl (S : Set Nat) (m : Mem) : OnlyIn S m m := fun _ _ => rfl

theorem OnlyIn.trans (h : OnlyIn S m m') (h' : OnlyIn S m' m'') : OnlyIn S m m'' :=
  fun a ha => (h' a ha).trans (h a ha)

theorem OnlyIn.mono (h : OnlyIn S m m') (hST : S ⊆ T) : OnlyIn T m m' :=
  fun a ha => h a fun hin => ha (hST hin)

theorem onlyIn_foldl {β : Type} {l : List β} {f : Mem → β → Mem}
    (h : ∀ b ∈ l, ∀ m, OnlyIn S m (f m b)) (m : Mem) : OnlyIn S m (l.foldl f m) := by
  induction l generalizing m with
  | nil => exact OnlyIn.refl S m
  | cons b l ih =>
    exact (h b List.mem_cons_self m).trans (ih (fun b hb => h b (List.mem_cons_of_mem _ hb)) _)

end OnlyIn

/-- A drawing that takes `m` to `m'` gives the pixels of `S` the colours of `pic` and
changes nothing else. -/
structure Paints (r : Raster) (S : Set (Nat × Nat)) (pic : Nat × Nat → Nat) (m m' : Mem) :
    Prop where
  inside : S ⊆ r.area
  on : ∀ q ∈ S, r.get m' q = pic q
  off : ∀ a, a ∉ r.bytes S → m' a = m a

section Paints

variable {r : Raster} {q : Nat × Nat} {S T : Set (Nat × Nat)} {pic pic' pic'' : Nat × Nat → Nat}
  {m m' m'' m₀ : Mem}

theorem Paints.elsewhere (h : Paints r S pic m m') (hq : q ∈ r.area) (hnot : q ∉ S) :
    r.get m' q = r.get m q := by
  refine get_congr fun a hlo hhi => h.off a ?_
  rintro ⟨p, hp, hlo', hhi'⟩
  have happart := place_apart (h.inside hp) hq fun he => hnot (he ▸ hp)
  omega

theorem Paints.onlyIn (h : Paints r S pic m m') : OnlyIn (r.bytes r.area) m m' :=
  OnlyIn.mono h.off (bytes_mono h.inside)

theorem paints_empty (r : Raster) (pic : Nat × Nat → Nat) (m : Mem) : Paints r ∅ pic m m :=
  ⟨fun _ h => h.elim, fun _ h => h.elim, fun _ _ => rfl⟩

theorem paints_write (hq : q ∈ r.area) {v : Nat} (hv : v % 2 ^ 32 = pic q) :
    Paints r {q} pic m (write32 m (r.place q) v) := by
  refine ⟨fun p hp => by rw [Set.mem_singleton_iff.mp hp]; exact hq, fun p hp => ?_, fun a ha => ?_⟩
  · rw [Set.mem_singleton_iff.mp hp, Raster.get, read32_write32_self, hv]
  · refine write32_outside ?_
    by_contra hin
    exact ha ⟨q, rfl, by omega, by omega⟩

theorem Paints.congr (h : Paints r S pic m m') (hST : ∀ q, q ∈ S ↔ q ∈ T)
    (hpic : ∀ q ∈ T, pic q = pic' q) : Paints r T pic' m m' := by
  obtain rfl : S = T := Set.ext hST
  exact ⟨h.inside, fun q hq => (h.on q hq).trans (hpic q hq), h.off⟩

/-- One drawing on the other; where both paint, the second is seen. -/
theorem Paints.trans (h : Paints r S pic m m') (h' : Paints r T pic' m' m'')
    (hfirst : ∀ q ∈ S, q ∉ T → pic q = pic'' q) (hsecond : ∀ q ∈ T, pic' q = pic'' q) :
    Paints r (S ∪ T) pic'' m m'' := by
  refine ⟨Set.union_subset h.inside h'.inside, fun q hq => ?_, fun a ha => ?_⟩
  · by_cases hT : q ∈ T
    · exact (h'.on q hT).trans (hsecond q hT)
    · have hS := hq.resolve_right hT
      rw [h'.elsewhere (h.inside hS) hT, h.on q hS, hfirst q hS hT]
  · rw [h'.off a fun hin => ha (bytes_mono Set.subset_union_right hin),
      h.off a fun hin => ha (bytes_mono Set.subset_union_left hin)]

/-- A loop whose rounds paint parts of one picture.  What a round reads may lie off the
raster, where memory is as it was at the start. -/
theorem paints_foldl {β : Type} {l : List β} {f : Mem → β → Mem} {S : β → Set (Nat × Nat)}
    (hm : OnlyIn (r.bytes r.area) m₀ m)
    (h : ∀ b ∈ l, ∀ m, OnlyIn (r.bytes r.area) m₀ m → Paints r (S b) pic m (f m b)) :
    Paints r {q | ∃ b ∈ l, q ∈ S b} pic m (l.foldl f m) := by
  induction l generalizing m with
  | nil => exact (paints_empty r pic m).congr (by simp) fun _ _ => rfl
  | cons b l ih =>
    have hfirst := h b List.mem_cons_self m hm
    have hrest := ih (hm.trans hfirst.onlyIn) fun b hb => h b (List.mem_cons_of_mem _ hb)
    exact (hfirst.trans hrest (fun _ _ _ => rfl) fun _ _ => rfl).congr (by simp) fun _ _ => rfl

end Paints

/-! ## Layers -/

/-- Something flat: what it covers, and how it looks. -/
structure Layer (Q α : Type) where
  covers : Q → Bool
  picture : Q → α

/-- What is seen of a stack of layers, the front one last, before a background. -/
def view {Q α : Type} (layers : List (Layer Q α)) (base : Q → α) (q : Q) : α :=
  match layers.reverse.find? (·.covers q) with
  | some l => l.picture q
  | none => base q

section Layers

variable {Q α : Type} {layers below above : List (Layer Q α)} {l : Layer Q α} {base : Q → α} {q : Q}

theorem view_concat :
    view (layers ++ [l]) base q = if l.covers q then l.picture q else view layers base q := by
  unfold view
  rw [List.reverse_append, List.reverse_singleton, List.singleton_append, List.find?_cons]
  cases l.covers q
  · rfl
  · rfl

/-- The layer in front is seen. -/
theorem view_front (hcovers : l.covers q = true) (habove : ∀ k ∈ above, k.covers q = false) :
    view (below ++ l :: above) base q = l.picture q := by
  induction above using List.reverseRecOn with
  | nil => rw [view_concat, if_pos hcovers]
  | append_singleton above k ih =>
    have hk : k.covers q = false := habove k (by simp)
    rw [← List.cons_append, ← List.append_assoc, view_concat, hk]
    exact ih fun k hk => habove k (by simp [hk])

/-- Before an empty place the background is seen. -/
theorem view_uncovered (h : ∀ k ∈ layers, k.covers q = false) : view layers base q = base q := by
  have hnone : layers.reverse.find? (·.covers q) = none := by
    rw [List.find?_eq_none]
    intro k hk
    rw [h k (List.mem_reverse.mp hk)]
    exact Bool.false_ne_true
  unfold view
  rw [hnone]

end Layers

end Machine
end Medusa
