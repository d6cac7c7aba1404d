import Mathlib.Algebra.Order.BigOperators.Group.Finset
import Mathlib.Data.Int.CardIntervalMod
import Medusa.Machine.Congruential

/-!
# Random numbers

`rand` of `rand.c`.  A value is made of bits 16 to 30 of the seed, so the values come from
a generator modulo `2 ^ 31`.  In `2 ^ 31` calls in a row each value is returned equally
often, and then the values repeat.
-/

namespace Medusa
namespace Libc

open Machine Finset

/-! ## The code -/

def randMax : BitVec 32 := 32767

/-- `_Randseed` before the first call. -/
def initialSeed : BitVec 32 := 1

/-- The value and the next seed. -/
def rand (seed : BitVec 32) : BitVec 32 × BitVec 32 :=
  let seed := seed * 1103515245#32 + 12345#32
  ((seed >>> 16) &&& randMax, seed)

/-- The random number of a CHIP-8 program: `rand() % 256`. -/
def randomByte (seed : BitVec 32) : BitVec 32 := (rand seed).1 % 256

/-- The seed after `n` calls. -/
def seedAfter (seed : BitVec 32) (n : Nat) : BitVec 32 := (fun s => (rand s).2)^[n] seed

/-! ## The generator -/

/-- The values are taken from the seeds of this generator. -/
def nextSeed : Nat → Nat := lcg 1103515245 12345 (2 ^ 31)

theorem rand_snd_toNat (seed : BitVec 32) :
    (rand seed).2.toNat = lcg 1103515245 12345 (2 ^ 32) seed.toNat := by
  have hstep : (rand seed).2 = seed * 1103515245#32 + 12345#32 := rfl
  rw [hstep, BitVec.toNat_add, BitVec.toNat_mul, BitVec.toNat_ofNat, BitVec.toNat_ofNat,
    Nat.mod_eq_of_lt (by decide : 1103515245 < 2 ^ 32),
    Nat.mod_eq_of_lt (by decide : 12345 < 2 ^ 32), Nat.mod_add_mod, lcg, Nat.mul_comm]

theorem rand_fst_toNat (seed : BitVec 32) :
    (rand seed).1.toNat = (rand seed).2.toNat % 2 ^ 31 / 2 ^ 16 := by
  have hmask : randMax.toNat = 2 ^ 15 - 1 := rfl
  change ((rand seed).2 >>> 16 &&& randMax).toNat = _
  rw [BitVec.toNat_and, BitVec.toNat_ushiftRight, Nat.shiftRight_eq_div_pow, hmask,
    Nat.and_two_pow_sub_one_eq_mod]
  omega

theorem seedAfter_toNat (seed : BitVec 32) (n : Nat) :
    (seedAfter seed n).toNat = (lcg 1103515245 12345 (2 ^ 32))^[n] seed.toNat := by
  induction n with
  | zero => rfl
  | succ n ih =>
    rw [seedAfter, Function.iterate_succ_apply', Function.iterate_succ_apply', rand_snd_toNat,
      ← ih]
    rfl

/-- The low 31 bits of the seed, which the values come from. -/
theorem seedAfter_mod (seed : BitVec 32) (n : Nat) :
    (seedAfter seed n).toNat % 2 ^ 31 = nextSeed^[n] (seed.toNat % 2 ^ 31) := by
  rw [seedAfter_toNat, iterate_lcg_mod_two_pow (by decide : 31 ≤ 32)]
  rfl

/-- The value of call number `n`, counted from 0. -/
theorem rand_seedAfter (seed : BitVec 32) (n : Nat) :
    (rand (seedAfter seed n)).1.toNat = nextSeed^[n] (nextSeed (seed.toNat % 2 ^ 31)) / 2 ^ 16 := by
  have hnext : (rand (seedAfter seed n)).2 = seedAfter seed (n + 1) := by
    rw [seedAfter, seedAfter, Function.iterate_succ_apply']
  rw [rand_fst_toNat, hnext, seedAfter_mod, Function.iterate_succ_apply]

/-! ## The values -/

theorem card_div_eq {m v : Nat} (hv : v < m) :
    ((range (m * 2 ^ 16)).filter fun x => x / 2 ^ 16 = v).card = 2 ^ 16 := by
  have hrow : ((range (m * 2 ^ 16)).filter fun x => x / 2 ^ 16 = v) =
      Ico (v * 2 ^ 16) (v * 2 ^ 16 + 2 ^ 16) := by
    ext x
    rw [mem_filter, mem_range, mem_Ico, Nat.div_eq_iff (by decide)]
    have hle : (v + 1) * 2 ^ 16 ≤ m * 2 ^ 16 := Nat.mul_le_mul_right _ hv
    omega
  rw [hrow, Nat.card_Ico, Nat.add_sub_cancel_left]

/-- Whatever is asked of the values, in `2 ^ 31` calls it is met `2 ^ 16` times for every
value that has it. -/
theorem card_rand (seed : BitVec 32) (p : Nat → Prop) [DecidablePred p] :
    ((range (2 ^ 31)).filter fun n => p (rand (seedAfter seed n)).1.toNat).card =
      ((range (2 ^ 15)).filter p).card * 2 ^ 16 := by
  have hlt : nextSeed (seed.toNat % 2 ^ 31) < 2 ^ 31 := Nat.mod_lt _ (by decide)
  have hcycle : ((range (2 ^ 31)).filter fun n =>
      p (nextSeed^[n] (nextSeed (seed.toNat % 2 ^ 31)) / 2 ^ 16)).card =
        ((range (2 ^ 31)).filter fun x => p (x / 2 ^ 16)).card :=
    card_iterate_lcg (by decide) (by decide) hlt fun x => p (x / 2 ^ 16)
  simp only [rand_seedAfter]
  rw [hcycle]
  have hmaps : ∀ x ∈ (range (2 ^ 31)).filter (fun x => p (x / 2 ^ 16)),
      x / 2 ^ 16 ∈ (range (2 ^ 15)).filter p := by
    intro x hx
    obtain ⟨hx, hp⟩ := mem_filter.mp hx
    have hx' := mem_range.mp hx
    exact mem_filter.mpr ⟨mem_range.mpr (by omega), hp⟩
  rw [card_eq_sum_card_fiberwise hmaps]
  apply sum_const_nat
  intro v hv
  obtain ⟨hv, hp⟩ := mem_filter.mp hv
  rw [filter_filter]
  have hsame : ((range (2 ^ 31)).filter fun x => p (x / 2 ^ 16) ∧ x / 2 ^ 16 = v) =
      (range (2 ^ 15 * 2 ^ 16)).filter fun x => x / 2 ^ 16 = v := by
    apply filter_congr
    intro x _
    exact ⟨fun h => h.2, fun h => ⟨h ▸ hp, h⟩⟩
  rw [hsame, card_div_eq (mem_range.mp hv)]

/-- **`rand` is equidistributed.**  From any seed, any `2 ^ 31` calls in a row return every
value up to `RAND_MAX` exactly `2 ^ 16` times and every random byte of a CHIP-8 program
exactly `2 ^ 23` times; then the values repeat.  The seed itself comes back after `2 ^ 32`
calls and not before. -/
theorem rand_equidistributed (seed : BitVec 32) :
    (∀ v, v ≤ randMax.toNat →
      ((range (2 ^ 31)).filter fun n => (rand (seedAfter seed n)).1.toNat = v).card = 2 ^ 16) ∧
    (∀ b, b < 256 →
      ((range (2 ^ 31)).filter fun n => (randomByte (seedAfter seed n)).toNat = b).card =
        2 ^ 23) ∧
    (∀ n, (rand (seedAfter seed (n + 2 ^ 31))).1 = (rand (seedAfter seed n)).1) ∧
    ∀ n, seedAfter seed n = seed ↔ 2 ^ 32 ∣ n := by
  refine ⟨fun v hv => ?_, fun b hb => ?_, fun n => ?_, fun n => ?_⟩
  · have hlt : v < 2 ^ 15 := Nat.lt_succ_of_le hv
    rw [card_rand seed fun x => x = v, filter_eq', if_pos (mem_range.mpr hlt), card_singleton,
      Nat.one_mul]
  · have hbyte : ∀ s, (randomByte s).toNat = (rand s).1.toNat % 256 := fun s => BitVec.toNat_umod
    simp only [hbyte]
    have hcount : ((range (2 ^ 15)).filter fun x => x % 256 = b).card = 2 ^ 7 := by
      have hcount := Nat.count_modEq_card (2 ^ 15) (r := 256) (by decide) b
      rw [Nat.count_eq_card_filter_range, Nat.mod_eq_of_lt hb] at hcount
      simpa [Nat.ModEq, Nat.mod_eq_of_lt hb] using hcount
    rw [card_rand seed fun x => x % 256 = b, hcount]
    rfl
  · apply BitVec.eq_of_toNat_eq
    have hlt : nextSeed (seed.toNat % 2 ^ 31) < 2 ^ 31 := Nat.mod_lt _ (by decide)
    have hback : nextSeed^[2 ^ 31] (nextSeed (seed.toNat % 2 ^ 31)) =
        nextSeed (seed.toNat % 2 ^ 31) :=
      (iterate_lcg_eq_iff (by decide) (by decide) hlt (2 ^ 31)).mpr dvd_rfl
    rw [rand_seedAfter, rand_seedAfter, Function.iterate_add_apply, hback]
  · have hperiod : (lcg 1103515245 12345 (2 ^ 32))^[n] seed.toNat = seed.toNat ↔ 2 ^ 32 ∣ n :=
      iterate_lcg_eq_iff (by decide) (by decide) seed.isLt n
    rw [← hperiod, ← seedAfter_toNat]
    exact BitVec.toNat_inj.symm

/-- The value 7, from the seed that the kernel starts with. -/
theorem rand_seven :
    ((range (2 ^ 31)).filter fun n => (rand (seedAfter initialSeed n)).1.toNat = 7).card = 2 ^ 16 :=
  (rand_equidistributed initialSeed).1 7 (by decide)

end Libc
end Medusa
