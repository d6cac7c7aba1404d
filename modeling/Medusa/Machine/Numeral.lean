import Mathlib.Data.Nat.Digits.Lemmas

/-!
# Numerals

A numeral in base `b` is the list of its digits, the first one the most
significant.  `digitsOf b n` is the shortest numeral of `n`, which is `[0]` for zero:
the list that a do-while loop over remainders makes, reversed.
-/

namespace Medusa
namespace Machine

/-- The number that a list of digits stands for. -/
def valueOf (b : Nat) (ds : List Nat) : Nat := Nat.ofDigits b ds.reverse

/-- The remainders of a do-while loop: the least digit first, and at least one. -/
def lowDigits (b n : Nat) : List Nat := if n = 0 then [0] else Nat.digits b n

/-- The shortest numeral of a number. -/
def digitsOf (b n : Nat) : List Nat := (lowDigits b n).reverse

variable {b : Nat}

@[simp] theorem valueOf_nil : valueOf b [] = 0 := rfl

@[simp] theorem valueOf_snoc (ds : List Nat) (d : Nat) :
    valueOf b (ds ++ [d]) = valueOf b ds * b + d := by
  rw [valueOf, List.reverse_append, List.reverse_singleton, List.singleton_append,
    Nat.ofDigits_cons, valueOf, Nat.mul_comm, Nat.add_comm]

theorem valueOf_append (ds es : List Nat) :
    valueOf b (ds ++ es) = valueOf b ds * b ^ es.length + valueOf b es := by
  rw [valueOf, List.reverse_append, Nat.ofDigits_append, List.length_reverse, Nat.add_comm,
    Nat.mul_comm]
  rfl

theorem valueOf_singleton (d : Nat) : valueOf b [d] = d := by
  rw [valueOf, List.reverse_singleton, Nat.ofDigits_singleton]

theorem valueOf_lt (hb : 1 < b) {ds : List Nat} (hds : ∀ d ∈ ds, d < b) :
    valueOf b ds < b ^ ds.length := by
  have h := Nat.ofDigits_lt_base_pow_length hb (l := ds.reverse) fun d hd =>
    hds d (List.mem_reverse.mp hd)
  rwa [List.length_reverse] at h

/-- A numeral is worth at least what its first digits are. -/
theorem valueOf_take_le (hb : 0 < b) (ds : List Nat) (k : Nat) :
    valueOf b (ds.take k) ≤ valueOf b ds := by
  have h := valueOf_append (b := b) (ds.take k) (ds.drop k)
  rw [List.take_append_drop] at h
  have hpos : 0 < b ^ (ds.drop k).length := Nat.pow_pos hb
  have hle := Nat.le_mul_of_pos_right (valueOf b (ds.take k)) hpos
  omega

/-! ## The shortest numeral -/

theorem lowDigits_of_lt {n : Nat} (h : n < b) : lowDigits b n = [n] := by
  unfold lowDigits
  by_cases hn : n = 0
  · rw [if_pos hn, hn]
  · rw [if_neg hn, Nat.digits_of_lt b n hn h]

theorem lowDigits_of_le (hb : 1 < b) {n : Nat} (h : b ≤ n) :
    lowDigits b n = n % b :: lowDigits b (n / b) := by
  have hpos : 0 < n / b := Nat.div_pos h (by omega)
  unfold lowDigits
  rw [if_neg (by omega), if_neg (by omega), Nat.digits_def' hb (by omega)]

theorem digitsOf_of_lt {n : Nat} (h : n < b) : digitsOf b n = [n] := by
  rw [digitsOf, lowDigits_of_lt h, List.reverse_singleton]

theorem digitsOf_of_le (hb : 1 < b) {n : Nat} (h : b ≤ n) :
    digitsOf b n = digitsOf b (n / b) ++ [n % b] := by
  rw [digitsOf, lowDigits_of_le hb h, List.reverse_cons, digitsOf]

theorem valueOf_digitsOf (b n : Nat) : valueOf b (digitsOf b n) = n := by
  rw [valueOf, digitsOf, List.reverse_reverse, lowDigits]
  split
  · rename_i hn
    rw [Nat.ofDigits_singleton, hn]
  · exact Nat.ofDigits_digits b n

theorem lt_of_mem_digitsOf (hb : 1 < b) {n d : Nat} (h : d ∈ digitsOf b n) : d < b := by
  rw [digitsOf, List.mem_reverse, lowDigits] at h
  split at h
  · rw [List.mem_singleton.mp h]
    omega
  · exact Nat.digits_lt_base hb h

theorem digitsOf_ne_nil (b n : Nat) : digitsOf b n ≠ [] := by
  rw [digitsOf, lowDigits]
  split
  · simp
  · rename_i hn
    rw [Ne, List.reverse_eq_nil_iff]
    exact Nat.digits_ne_nil_iff_ne_zero.mpr hn

/-- How many digits a number takes. -/
theorem length_digitsOf_le_iff (hb : 1 < b) (n : Nat) {k : Nat} (hk : 0 < k) :
    (digitsOf b n).length ≤ k ↔ n < b ^ k := by
  rw [digitsOf, List.length_reverse, lowDigits]
  split
  · rename_i hn
    have hpow : 0 < b ^ k := Nat.pow_pos (by omega)
    rw [hn]
    exact iff_of_true hk hpow
  · exact Nat.digits_length_le_iff hb n

theorem length_digitsOf_pos (b n : Nat) : 0 < (digitsOf b n).length :=
  List.length_pos_of_ne_nil (digitsOf_ne_nil b n)

/-- A numeral of `n` than which none has fewer digits. -/
structure Shortest (b n : Nat) (ds : List Nat) : Prop where
  nonempty : ds ≠ []
  valid : ∀ d ∈ ds, d < b
  value : valueOf b ds = n
  least : ∀ es : List Nat, es ≠ [] → (∀ d ∈ es, d < b) → valueOf b es = n → ds.length ≤ es.length

theorem digitsOf_shortest (hb : 1 < b) (n : Nat) : Shortest b n (digitsOf b n) where
  nonempty := digitsOf_ne_nil b n
  valid := fun _ hd => lt_of_mem_digitsOf hb hd
  value := valueOf_digitsOf b n
  least := fun es hne hes hvalue => by
    have hlt := valueOf_lt hb hes
    rw [hvalue] at hlt
    exact (length_digitsOf_le_iff hb n (List.length_pos_of_ne_nil hne)).mpr hlt

end Machine
end Medusa
