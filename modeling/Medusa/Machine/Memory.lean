import Mathlib.Data.Nat.Bitwise
import Mathlib.Logic.Function.Basic

/-!
# Byte memory

A memory gives a byte for every address.  Multi-byte fields are little-endian.
The lemmas are the three a proof about a layout needs: reading back what was
written, reading past a write that lies elsewhere, and reading from a memory
that agrees on the bytes of the field.
-/

namespace Medusa
namespace Machine

abbrev Mem := Nat → BitVec 8

def read16 (m : Mem) (a : Nat) : Nat := (m a).toNat + 2 ^ 8 * (m (a + 1)).toNat

def read32 (m : Mem) (a : Nat) : Nat :=
  (m a).toNat + 2 ^ 8 * (m (a + 1)).toNat + 2 ^ 16 * (m (a + 2)).toNat +
    2 ^ 24 * (m (a + 3)).toNat

def read64 (m : Mem) (a : Nat) : Nat := read32 m a + 2 ^ 32 * read32 m (a + 4)

/-- Store the low 32 bits of `v`. -/
def write32 (m : Mem) (a v : Nat) : Mem := fun x =>
  if x = a then BitVec.ofNat 8 v
  else if x = a + 1 then BitVec.ofNat 8 (v / 2 ^ 8)
  else if x = a + 2 then BitVec.ofNat 8 (v / 2 ^ 16)
  else if x = a + 3 then BitVec.ofNat 8 (v / 2 ^ 24)
  else m x

/-- Store the low 16 bits of `v`. -/
def write16 (m : Mem) (a v : Nat) : Mem := fun x =>
  if x = a then BitVec.ofNat 8 v else if x = a + 1 then BitVec.ofNat 8 (v / 2 ^ 8) else m x

/-- The two memories hold the same bytes at `[lo, hi)`. -/
def Agree (m m' : Mem) (lo hi : Nat) : Prop := ∀ x, lo ≤ x → x < hi → m' x = m x

theorem Agree.refl (m : Mem) (lo hi : Nat) : Agree m m lo hi := fun _ _ _ => rfl

theorem Agree.mono {m m' : Mem} {lo hi lo' hi' : Nat} (h : Agree m m' lo hi) (hl : lo ≤ lo')
    (hh : hi' ≤ hi) : Agree m m' lo' hi' :=
  fun x hlo hhi => h x (hl.trans hlo) (lt_of_lt_of_le hhi hh)

theorem Agree.trans {m m' m'' : Mem} {lo hi : Nat} (h : Agree m m' lo hi)
    (h' : Agree m' m'' lo hi) : Agree m m'' lo hi :=
  fun x hlo hhi => (h' x hlo hhi).trans (h x hlo hhi)

theorem read32_lt (m : Mem) (a : Nat) : read32 m a < 2 ^ 32 := by
  have h0 := (m a).isLt
  have h1 := (m (a + 1)).isLt
  have h2 := (m (a + 2)).isLt
  have h3 := (m (a + 3)).isLt
  unfold read32
  omega

theorem read16_congr {m m' : Mem} {a : Nat} (h : Agree m m' a (a + 2)) :
    read16 m' a = read16 m a := by
  unfold read16
  rw [h a (by omega) (by omega), h (a + 1) (by omega) (by omega)]

theorem read32_congr {m m' : Mem} {a : Nat} (h : Agree m m' a (a + 4)) :
    read32 m' a = read32 m a := by
  unfold read32
  rw [h a (by omega) (by omega), h (a + 1) (by omega) (by omega), h (a + 2) (by omega) (by omega),
    h (a + 3) (by omega) (by omega)]

theorem write16_outside {m : Mem} {a v x : Nat} (h : x < a ∨ a + 2 ≤ x) : write16 m a v x = m x := by
  unfold write16
  rw [if_neg (by omega), if_neg (by omega)]

theorem read16_write16_self (m : Mem) (a v : Nat) : read16 (write16 m a v) a = v % 2 ^ 16 := by
  have e0 : write16 m a v a = BitVec.ofNat 8 v := by simp [write16]
  have e1 : write16 m a v (a + 1) = BitVec.ofNat 8 (v / 2 ^ 8) := by simp [write16]
  unfold read16
  rw [e0, e1]
  simp only [BitVec.toNat_ofNat]
  omega

theorem write32_outside {m : Mem} {a v x : Nat} (h : x < a ∨ a + 4 ≤ x) :
    write32 m a v x = m x := by
  unfold write32
  rw [if_neg (by omega), if_neg (by omega), if_neg (by omega), if_neg (by omega)]

/-- A byte after a store depends on that byte before it. -/
theorem write32_apply_congr {m m' : Mem} {x : Nat} (h : m' x = m x) (a v : Nat) :
    write32 m' a v x = write32 m a v x := by
  unfold write32
  rw [h]

/-- Only the low 32 bits are stored. -/
theorem write32_congr {m : Mem} {a v w : Nat} (h : v % 2 ^ 32 = w % 2 ^ 32) :
    write32 m a v = write32 m a w := by
  have hbyte : ∀ k, k ≤ 24 → v / 2 ^ k % 2 ^ 8 = w / 2 ^ k % 2 ^ 8 := by
    intro k hk
    have hsplit : (2 : Nat) ^ 32 = 2 ^ k * 2 ^ (32 - k) := by
      rw [← Nat.pow_add, Nat.add_sub_cancel' (by omega)]
    have hdvd : (2 : Nat) ^ 8 ∣ 2 ^ (32 - k) := Nat.pow_dvd_pow 2 (by omega)
    have hquot : v / 2 ^ k % 2 ^ (32 - k) = w / 2 ^ k % 2 ^ (32 - k) := by
      rw [← Nat.mod_mul_right_div_self, ← Nat.mod_mul_right_div_self, ← hsplit, h]
    rw [← Nat.mod_mod_of_dvd _ hdvd, hquot, Nat.mod_mod_of_dvd _ hdvd]
  have hof : ∀ k, k ≤ 24 → BitVec.ofNat 8 (v / 2 ^ k) = BitVec.ofNat 8 (w / 2 ^ k) :=
    fun k hk => BitVec.eq_of_toNat_eq (by rw [BitVec.toNat_ofNat, BitVec.toNat_ofNat, hbyte k hk])
  have h0 := hof 0 (by decide)
  rw [pow_zero, Nat.div_one, Nat.div_one] at h0
  funext x
  unfold write32
  rw [h0, hof 8 (by decide), hof 16 (by decide), hof 24 (by decide)]

theorem agree_write32 {m : Mem} {a v lo hi : Nat} (h : hi ≤ a ∨ a + 4 ≤ lo) :
    Agree m (write32 m a v) lo hi :=
  fun _ _ _ => write32_outside (by omega)

theorem read32_write32_self (m : Mem) (a v : Nat) : read32 (write32 m a v) a = v % 2 ^ 32 := by
  have e0 : write32 m a v a = BitVec.ofNat 8 v := by simp [write32]
  have e1 : write32 m a v (a + 1) = BitVec.ofNat 8 (v / 2 ^ 8) := by simp [write32]
  have e2 : write32 m a v (a + 2) = BitVec.ofNat 8 (v / 2 ^ 16) := by simp [write32]
  have e3 : write32 m a v (a + 3) = BitVec.ofNat 8 (v / 2 ^ 24) := by simp [write32]
  unfold read32
  rw [e0, e1, e2, e3]
  simp only [BitVec.toNat_ofNat]
  omega

theorem read32_write32_of_disjoint {m : Mem} {a b v : Nat} (h : b + 4 ≤ a ∨ a + 4 ≤ b) :
    read32 (write32 m a v) b = read32 m b :=
  read32_congr (agree_write32 (by omega))

/-- The bytes that a word leaves do not depend on where it is stored. -/
theorem write32_offset (m m' : Mem) (a b v : Nat) {o : Nat} (ho : o < 4) :
    write32 m a v (a + o) = write32 m' b v (b + o) := by
  rcases (show o = 0 ∨ o = 1 ∨ o = 2 ∨ o = 3 by omega) with rfl | rfl | rfl | rfl <;>
    simp [write32]

/-- The memory that holds `f k` as its word number `k`. -/
def ofWords (f : Nat → Nat) : Mem := fun a => BitVec.ofNat 8 (f (a / 4) / 2 ^ (8 * (a % 4)))

theorem read32_ofWords (f : Nat → Nat) (k : Nat) : read32 (ofWords f) (4 * k) = f k % 2 ^ 32 := by
  have hbyte : ∀ o, o < 4 → (ofWords f (4 * k + o)).toNat = f k / 2 ^ (8 * o) % 2 ^ 8 := by
    intro o ho
    rw [ofWords, BitVec.toNat_ofNat, show (4 * k + o) / 4 = k by omega,
      show (4 * k + o) % 4 = o by omega]
  have h0 := hbyte 0 (by decide)
  rw [Nat.add_zero] at h0
  rw [read32, h0, hbyte 1 (by decide), hbyte 2 (by decide), hbyte 3 (by decide)]
  omega

end Machine
end Medusa
