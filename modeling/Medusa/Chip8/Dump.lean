import Medusa.Chip8.Sandbox

/-!
# What register dumps move

The loops of `FX55` and `FX65` are bounded by what register `x` holds, not by `x`.
The second one overwrites that register while it runs.
-/

namespace Medusa
namespace Chip8

open Machine

variable {e t : Emulator} {x k n : Nat}

/-! ## What the loops leave -/

/-- Registers 0, …, `n - 1` stored from `i` on. -/
def stored (e : Emulator) (n : Nat) : Emulator :=
  { e with ram := fun a =>
      if e.i.toNat ≤ a ∧ a < e.i.toNat + n then e.vregisters (a - e.i.toNat) else e.ram a }

/-- Registers 0, …, `n - 1` loaded from `i` on. -/
def loaded (e : Emulator) (n : Nat) : Emulator :=
  { e with vregisters := fun k => if k < n then e.ram (e.i.toNat + k) else e.vregisters k }

@[simp] theorem stored_vregisters : (stored e n).vregisters = e.vregisters := rfl

theorem stored_inside (hk : k < n) : (stored e n).ram (e.i.toNat + k) = e.vregisters k := by
  show (if _ then _ else _) = _
  rw [if_pos (by omega), Nat.add_sub_cancel_left]

theorem stored_outside (hk : n ≤ k) :
    (stored e n).ram (e.i.toNat + k) = e.ram (e.i.toNat + k) := by
  show (if _ then _ else _) = _
  rw [if_neg (by omega)]

theorem stored_below {a : Nat} (ha : a < e.i.toNat) : (stored e n).ram a = e.ram a := by
  show (if _ then _ else _) = _
  rw [if_neg (by omega)]

theorem loaded_inside (hk : k < n) : (loaded e n).vregisters k = e.ram (e.i.toNat + k) :=
  if_pos hk

theorem loaded_outside (hk : n ≤ k) : (loaded e n).vregisters k = e.vregisters k :=
  if_neg (by omega)

theorem stored_succ (e : Emulator) (k : Nat) :
    { stored e k with
      ram := Function.update (stored e k).ram (e.i.toNat + k) (e.vregisters k) } =
      stored e (k + 1) := by
  have hram : Function.update (stored e k).ram (e.i.toNat + k) (e.vregisters k) =
      (stored e (k + 1)).ram := by
    funext a
    by_cases ha : a = e.i.toNat + k
    · subst ha
      rw [Function.update_self, stored_inside (by omega)]
    · rw [Function.update_of_ne ha]
      show (if _ then _ else _) = (if _ then _ else _)
      by_cases hin : e.i.toNat ≤ a ∧ a < e.i.toNat + k
      · rw [if_pos hin, if_pos (by omega)]
      · rw [if_neg hin, if_neg (by omega)]
  rw [hram]
  rfl

theorem loaded_succ (e : Emulator) (k : Nat) :
    { loaded e k with
      vregisters := Function.update (loaded e k).vregisters k (e.ram (e.i.toNat + k)) } =
      loaded e (k + 1) := by
  have hregisters : Function.update (loaded e k).vregisters k (e.ram (e.i.toNat + k)) =
      (loaded e (k + 1)).vregisters := by
    funext a
    by_cases ha : a = k
    · subst ha
      rw [Function.update_self, loaded_inside (by omega)]
    · rw [Function.update_of_ne ha]
      by_cases hin : a < k
      · rw [loaded_inside hin, loaded_inside (by omega)]
      · rw [loaded_outside (by omega), loaded_outside (by omega)]
  rw [hregisters]
  rfl

theorem stored_zero (e : Emulator) : stored e 0 = e := by
  have hram : (stored e 0).ram = e.ram := by
    funext a
    show (if _ then _ else _) = _
    rw [if_neg (by omega)]
  show { e with ram := (stored e 0).ram } = e
  rw [hram]

theorem loaded_zero (e : Emulator) : loaded e 0 = e := by
  have hregisters : (loaded e 0).vregisters = e.vregisters := by
    funext a
    rw [loaded_outside (by omega)]
  show { e with vregisters := (loaded e 0).vregisters } = e
  rw [hregisters]

theorem of_readV {v : BitVec 8} (h : readV e k = .ok v) : v = e.vregisters k := by
  rw [readV] at h
  split at h
  · exact (Except.ok.inj h).symm
  · exact nomatch h

theorem of_readRam {v : BitVec 8} (h : readRam e k = .ok v) : v = e.ram k := by
  rw [readRam] at h
  split at h
  · exact (Except.ok.inj h).symm
  · exact nomatch h

theorem of_writeV {v : BitVec 8} (h : writeV e k v = .ok t) :
    t = { e with vregisters := Function.update e.vregisters k v } := by
  rw [writeV] at h
  split at h
  · exact (Except.ok.inj h).symm
  · exact nomatch h

theorem of_writeRam {v : BitVec 8} (h : writeRam e k v = .ok t) :
    t = { e with ram := Function.update e.ram k v } := by
  rw [writeRam] at h
  split at h
  · exact (Except.ok.inj h).symm
  · exact nomatch h

/-- From round `k` on, `FX55` stores up to the bound. -/
theorem storeRegisters_stored (hx : x < 16) {fuel k : Nat} (hfuel : 256 ≤ k + fuel)
    (hk : k ≤ (e.vregisters x).toNat + 1)
    (h : storeRegisters (stored e k) x fuel k = .ok t) :
    t = stored e ((e.vregisters x).toNat + 1) := by
  have hbyte := (e.vregisters x).isLt
  induction fuel generalizing k with
  | zero => rw [← Except.ok.inj h, show k = (e.vregisters x).toNat + 1 by omega]
  | succ fuel ih =>
    rw [storeRegisters, readV_ok hx, ok_bind, stored_vregisters] at h
    by_cases hmore : k ≤ (e.vregisters x).toNat
    · rw [if_pos hmore] at h
      obtain ⟨v, hv, hwrite⟩ := bind_eq_ok h
      obtain ⟨u, hu, hrest⟩ := bind_eq_ok hwrite
      have hnext : u = stored e (k + 1) := by
        rw [of_writeRam hu, of_readV hv]
        exact stored_succ e k
      rw [hnext] at hrest
      exact ih (by omega) (by omega) hrest
    · rw [if_neg hmore] at h
      rw [← Except.ok.inj h, show k = (e.vregisters x).toNat + 1 by omega]

/-- The bound that `FX65` reads before round `k` lets it go on up to `lastLoaded`. -/
theorem loadBound_iff (hk : k ≤ lastLoaded e x + 1) :
    k ≤ ((loaded e k).vregisters x).toNat ↔ k ≤ lastLoaded e x := by
  by_cases hxk : x < k
  · rw [loaded_inside hxk]
    by_cases hlow : (e.vregisters x).toNat < x
    · rw [lastLoaded, if_pos hlow] at hk
      omega
    · rw [lastLoaded, if_neg hlow]
      omega
  · rw [loaded_outside (by omega)]
    by_cases hlow : (e.vregisters x).toNat < x
    · rw [lastLoaded, if_pos hlow]
    · rw [lastLoaded, if_neg hlow]
      omega

theorem lastLoaded_lt (hx : x < 16) : lastLoaded e x < 256 := by
  have hbound := (e.vregisters x).isLt
  have hbyte := (e.ram (e.i.toNat + x)).isLt
  rw [lastLoaded]
  split
  · exact hbound
  · omega

/-- From round `k` on, `FX65` loads up to `lastLoaded`. -/
theorem loadRegisters_loaded (hx : x < 16) {fuel k : Nat} (hfuel : 256 ≤ k + fuel)
    (hk : k ≤ lastLoaded e x + 1) (h : loadRegisters (loaded e k) x fuel k = .ok t) :
    t = loaded e (lastLoaded e x + 1) := by
  have hlast := lastLoaded_lt (e := e) hx
  induction fuel generalizing k with
  | zero => rw [← Except.ok.inj h, show k = lastLoaded e x + 1 by omega]
  | succ fuel ih =>
    rw [loadRegisters, readV_ok hx, ok_bind] at h
    by_cases hmore : k ≤ lastLoaded e x
    · rw [if_pos ((loadBound_iff hk).mpr hmore)] at h
      obtain ⟨v, hv, hwrite⟩ := bind_eq_ok h
      obtain ⟨u, hu, hrest⟩ := bind_eq_ok hwrite
      have hnext : u = loaded e (k + 1) := by
        rw [of_writeV hu, of_readRam hv]
        exact loaded_succ e k
      rw [hnext] at hrest
      exact ih (by omega) (by omega) hrest
    · rw [if_neg fun hle => hmore ((loadBound_iff hk).mp hle)] at h
      rw [← Except.ok.inj h, show k = lastLoaded e x + 1 by omega]

/-! ## The instructions -/

/-- A dump of `n + 1` registers stays inside. -/
def Fits (e : Emulator) (n : Nat) : Prop := n < 16 ∧ e.i.toNat + n < 4096

variable {opcode1 : BitVec 8}

theorem store_ok_iff (hF : (opcode1 >>> 4).toNat = 0xF) :
    chip8ExecuteInstruction e opcode1 0x55 = .ok t ↔
      Fits e (e.vregisters (regX opcode1)).toNat ∧
        t = stored { e with pc := e.pc + 2 } ((e.vregisters (regX opcode1)).toNat + 1) := by
  have hexec : chip8ExecuteInstruction e opcode1 0x55 =
      storeRegisters { e with pc := e.pc + 2 } (regX opcode1) 256 0 := by
    unfold chip8ExecuteInstruction
    rw [hF]
    rfl
  have hspec := returns_iff_of_spec (storeRegisters_spec (regX_lt opcode1) 256 0
    { e with pc := e.pc + 2 } (by omega))
  have hexact : ∀ u, storeRegisters { e with pc := e.pc + 2 } (regX opcode1) 256 0 = .ok u →
      u = stored { e with pc := e.pc + 2 } ((e.vregisters (regX opcode1)).toNat + 1) := by
    intro u hu
    rw [← stored_zero { e with pc := e.pc + 2 }] at hu
    exact storeRegisters_stored (regX_lt opcode1) (by omega) (by omega) hu
  rw [hexec]
  exact ok_iff_of_returns (hspec.trans (forall_prop_of_true (Nat.zero_le _))) hexact

theorem load_ok_iff (hF : (opcode1 >>> 4).toNat = 0xF) :
    chip8ExecuteInstruction e opcode1 0x65 = .ok t ↔
      Fits e (lastLoaded e (regX opcode1)) ∧
        t = loaded { e with pc := e.pc + 2 } (lastLoaded e (regX opcode1) + 1) := by
  have hexec : chip8ExecuteInstruction e opcode1 0x65 =
      loadRegisters { e with pc := e.pc + 2 } (regX opcode1) 256 0 := by
    unfold chip8ExecuteInstruction
    rw [hF]
    rfl
  have hspec := returns_iff_of_spec (loadRegisters_spec (regX_lt opcode1) 256 0
    { e with pc := e.pc + 2 } (by omega) (Nat.zero_le _))
  have hexact : ∀ u, loadRegisters { e with pc := e.pc + 2 } (regX opcode1) 256 0 = .ok u →
      u = loaded { e with pc := e.pc + 2 } (lastLoaded e (regX opcode1) + 1) := by
    intro u hu
    rw [← loaded_zero { e with pc := e.pc + 2 }] at hu
    exact loadRegisters_loaded (regX_lt opcode1) (by omega) (by omega) hu
  rw [hexec]
  exact ok_iff_of_returns (hspec.trans (forall_prop_of_true (Nat.zero_le _))) hexact

/-! ## When that is right -/

/-- What `FX55` is for. -/
structure Dumps (e : Emulator) (x : Nat) (t : Emulator) : Prop where
  ram : ∀ k, k ≤ x → t.ram (e.i.toNat + k) = e.vregisters k
  others : ∀ a, ¬ (e.i.toNat ≤ a ∧ a ≤ e.i.toNat + x) → t.ram a = e.ram a
  vregisters : t.vregisters = e.vregisters
  i : t.i = e.i

/-- What `FX65` is for. -/
structure Loads (e : Emulator) (x : Nat) (t : Emulator) : Prop where
  vregisters : ∀ k, k ≤ x → t.vregisters k = e.ram (e.i.toNat + k)
  others : ∀ k, x < k → t.vregisters k = e.vregisters k
  ram : t.ram = e.ram
  i : t.i = e.i

/-- Moving registers 0, …, `n` instead of 0, …, `x` stays inside and makes no
difference: between the two, memory and registers already agree. -/
def Coincides (e : Emulator) (x n : Nat) : Prop :=
  Fits e n ∧ ∀ k, (n < k ∧ k ≤ x) ∨ (x < k ∧ k ≤ n) →
    e.ram (e.i.toNat + k) = e.vregisters k

theorem stored_dumps_iff :
    Dumps e x (stored { e with pc := e.pc + 2 } (n + 1)) ↔
      ∀ k, (n < k ∧ k ≤ x) ∨ (x < k ∧ k ≤ n) → e.ram (e.i.toNat + k) = e.vregisters k := by
  have hin : ∀ k, k < n + 1 →
      (stored { e with pc := e.pc + 2 } (n + 1)).ram (e.i.toNat + k) = e.vregisters k := fun k hk =>
    stored_inside (e := { e with pc := e.pc + 2 }) hk
  have hout : ∀ k, n + 1 ≤ k →
      (stored { e with pc := e.pc + 2 } (n + 1)).ram (e.i.toNat + k) = e.ram (e.i.toNat + k) :=
    fun k hk => stored_outside (e := { e with pc := e.pc + 2 }) hk
  constructor
  · rintro h k (⟨hnk, hkx⟩ | ⟨hxk, hkn⟩)
    · rw [← hout k hnk]
      exact h.ram k hkx
    · rw [← h.others _ (by omega)]
      exact hin k (by omega)
  · intro h
    refine ⟨fun k hk => ?_, fun a ha => ?_, rfl, rfl⟩
    · by_cases hkn : k ≤ n
      · exact hin k (by omega)
      · rw [hout k (by omega)]
        exact h k (.inl ⟨by omega, hk⟩)
    · by_cases hlow : a < e.i.toNat
      · exact stored_below (e := { e with pc := e.pc + 2 }) hlow
      · obtain ⟨k, rfl⟩ := Nat.exists_eq_add_of_le (Nat.not_lt.mp hlow)
        by_cases hkn : k ≤ n
        · rw [hin k (by omega)]
          exact (h k (.inr ⟨by omega, hkn⟩)).symm
        · exact hout k (by omega)

theorem loaded_loads_iff :
    Loads e x (loaded { e with pc := e.pc + 2 } (n + 1)) ↔
      ∀ k, (n < k ∧ k ≤ x) ∨ (x < k ∧ k ≤ n) → e.ram (e.i.toNat + k) = e.vregisters k := by
  have hin : ∀ k, k < n + 1 → (loaded { e with pc := e.pc + 2 } (n + 1)).vregisters k =
      e.ram (e.i.toNat + k) := fun k hk => loaded_inside (e := { e with pc := e.pc + 2 }) hk
  have hout : ∀ k, n + 1 ≤ k → (loaded { e with pc := e.pc + 2 } (n + 1)).vregisters k =
      e.vregisters k := fun k hk => loaded_outside (e := { e with pc := e.pc + 2 }) hk
  constructor
  · rintro h k (⟨hnk, hkx⟩ | ⟨hxk, hkn⟩)
    · rw [← hout k hnk]
      exact (h.vregisters k hkx).symm
    · rw [← h.others k hxk]
      exact (hin k (by omega)).symm
  · intro h
    refine ⟨fun k hk => ?_, fun k hk => ?_, rfl, rfl⟩
    · by_cases hkn : k ≤ n
      · exact hin k (by omega)
      · rw [hout k (by omega)]
        exact (h k (.inl ⟨by omega, hk⟩)).symm
    · by_cases hkn : k ≤ n
      · rw [hin k (by omega)]
        exact h k (.inr ⟨hk, hkn⟩)
      · exact hout k (by omega)

/-- What FX55 left in memory comes back.  Both bounds reach `x`; or what was not
stored, or not loaded, is in its place already. -/
def RoundTrips (e u : Emulator) (x : Nat) : Prop :=
  let b := (e.vregisters x).toNat
  let b' := (u.vregisters x).toNat
  (x ≤ b ∧ x ≤ b') ∨
    (b < x ∧ x ≤ b' ∧ ∀ k, b < k → k ≤ x → e.ram (e.i.toNat + k) = e.vregisters k) ∨
    (b < x ∧ b' < x ∧ ∀ k, b < k → k ≤ x → u.vregisters k = e.vregisters k)

/-- After a load, register `k` is what was in memory, or untouched. -/
theorem load_register (hF : (opcode1 >>> 4).toNat = 0xF)
    (h : chip8ExecuteInstruction e opcode1 0x65 = .ok t) (k : Nat) :
    t.vregisters k = if k ≤ lastLoaded e (regX opcode1) then e.ram (e.i.toNat + k)
      else e.vregisters k := by
  obtain ⟨-, rfl⟩ := (load_ok_iff hF).mp h
  by_cases hk : k ≤ lastLoaded e (regX opcode1)
  · rw [if_pos hk]
    exact loaded_inside (by omega)
  · rw [if_neg hk]
    exact loaded_outside (by omega)

/-- After a store, byte `k` is what was in the register, or untouched. -/
theorem store_byte (hF : (opcode1 >>> 4).toNat = 0xF)
    (h : chip8ExecuteInstruction e opcode1 0x55 = .ok t) (k : Nat) :
    t.ram (e.i.toNat + k) = if k ≤ (e.vregisters (regX opcode1)).toNat then e.vregisters k
      else e.ram (e.i.toNat + k) := by
  obtain ⟨-, rfl⟩ := (store_ok_iff hF).mp h
  by_cases hk : k ≤ (e.vregisters (regX opcode1)).toNat
  · rw [if_pos hk]
    exact stored_inside (e := { e with pc := e.pc + 2 }) (by omega)
  · rw [if_neg hk]
    exact stored_outside (e := { e with pc := e.pc + 2 }) (by omega)

/-- A load that stays inside restores register `k` if memory or the register has it. -/
theorem load_restores {u : Emulator} (hF : (opcode1 >>> 4).toNat = 0xF)
    (hfits : Fits u (lastLoaded u (regX opcode1)))
    (h : ∀ k, k ≤ regX opcode1 → (if k ≤ lastLoaded u (regX opcode1) then u.ram (u.i.toNat + k)
      else u.vregisters k) = e.vregisters k) :
    ∃ t, chip8ExecuteInstruction u opcode1 0x65 = .ok t ∧
      ∀ k, k ≤ regX opcode1 → t.vregisters k = e.vregisters k := by
  have hload := (load_ok_iff hF).mpr ⟨hfits, rfl⟩
  refine ⟨_, hload, fun k hk => ?_⟩
  rw [load_register hF hload k]
  exact h k hk

theorem lastLoaded_of_lt (h : (e.vregisters x).toNat < x) :
    lastLoaded e x = (e.vregisters x).toNat := if_pos h

theorem lastLoaded_of_le (h : x ≤ (e.vregisters x).toNat) :
    lastLoaded e x = max x (e.ram (e.i.toNat + x)).toNat := if_neg (by omega)

/-- **A dump and the load after it**, from whatever state has `i` and the dump. -/
theorem restores_iff {e e₁ u : Emulator} (hF : (opcode1 >>> 4).toNat = 0xF)
    (hi : e.i.toNat + regX opcode1 < 4096)
    (hstore : chip8ExecuteInstruction e opcode1 0x55 = .ok e₁) (hui : u.i = e.i)
    (hram : ∀ k, k ≤ regX opcode1 → u.ram (e.i.toNat + k) = e₁.ram (e.i.toNat + k)) :
    (∃ t, chip8ExecuteInstruction u opcode1 0x65 = .ok t ∧
        ∀ k, k ≤ regX opcode1 → t.vregisters k = e.vregisters k) ↔
      RoundTrips e u (regX opcode1) := by
  have hx := regX_lt opcode1
  obtain ⟨⟨hb, hib⟩, -⟩ := (store_ok_iff hF).mp hstore
  -- what memory holds when the load starts
  have hdumped : ∀ k, k ≤ regX opcode1 → k ≤ (e.vregisters (regX opcode1)).toNat →
      u.ram (u.i.toNat + k) = e.vregisters k := by
    intro k hk hkb
    rw [hui, hram k hk, store_byte hF hstore k, if_pos hkb]
  have hkept : ∀ k, k ≤ regX opcode1 → (e.vregisters (regX opcode1)).toNat < k →
      u.ram (u.i.toNat + k) = e.ram (e.i.toNat + k) := by
    intro k hk hkb
    rw [hui, hram k hk, store_byte hF hstore k, if_neg (by omega)]
  generalize hxdef : regX opcode1 = x at *
  constructor
  · rintro ⟨t, hload, hrestored⟩
    have hregister : ∀ k, k ≤ x → e.vregisters k =
        if k ≤ lastLoaded u x then u.ram (u.i.toNat + k) else u.vregisters k := by
      intro k hk
      rw [← hrestored k hk, load_register hF hload k, hxdef]
    by_cases hux : (u.vregisters x).toNat < x
    · -- register `x` was not loaded, so it held the right bound already
      have hlast := lastLoaded_of_lt hux
      have hbound := hregister x (Nat.le_refl x)
      rw [if_neg (by omega)] at hbound
      refine .inr (.inr ⟨by rw [hbound]; exact hux, hux, fun k hbk hk => ?_⟩)
      have hk' := hregister k hk
      rw [hbound] at hbk
      rw [if_neg (by omega)] at hk'
      exact hk'.symm
    · have hlast := lastLoaded_of_le (Nat.not_lt.mp hux)
      by_cases hex : (e.vregisters x).toNat < x
      · refine .inr (.inl ⟨hex, by omega, fun k hbk hk => ?_⟩)
        have hk' := hregister k hk
        rw [if_pos (by omega), hkept k hk hbk] at hk'
        exact hk'.symm
      · exact .inl ⟨by omega, by omega⟩
  · rintro (⟨hbx, hux⟩ | ⟨hbx, hux, hsame⟩ | ⟨hbx, hux, hsame⟩)
    · have hlast := lastLoaded_of_le hux
      rw [hdumped x (Nat.le_refl x) hbx, max_eq_right hbx] at hlast
      have hrestores := load_restores (e := e) (u := u) hF
      rw [hxdef, hlast] at hrestores
      refine hrestores ⟨hb, by rw [hui]; exact hib⟩ fun k hk => ?_
      rw [if_pos (by omega), hdumped k hk (by omega)]
    · have hlast := lastLoaded_of_le hux
      rw [hkept x (Nat.le_refl x) hbx, hsame x hbx (Nat.le_refl x), max_eq_left hbx.le] at hlast
      have hrestores := load_restores (e := e) (u := u) hF
      rw [hxdef, hlast] at hrestores
      refine hrestores ⟨hx, by rw [hui]; exact hi⟩ fun k hk => ?_
      rw [if_pos hk]
      by_cases hkb : k ≤ (e.vregisters x).toNat
      · exact hdumped k hk hkb
      · rw [hkept k hk (by omega)]
        exact hsame k (by omega) hk
    · have hlast := lastLoaded_of_lt hux
      have hbound := hsame x hbx (Nat.le_refl x)
      rw [hbound] at hlast
      have hrestores := load_restores (e := e) (u := u) hF
      rw [hxdef, hlast] at hrestores
      refine hrestores ⟨hb, by rw [hui]; exact hib⟩ fun k hk => ?_
      by_cases hkb : k ≤ (e.vregisters x).toNat
      · rw [if_pos hkb]
        exact hdumped k hk hkb
      · rw [if_neg hkb]
        exact hsame k (by omega) hk

/-- **Dumps and loads.**  With `b` the number in register `x`, a dump moves
registers 0, …, `b`, and a load as many or, once it has loaded a larger bound, more;
it is right exactly when that makes no difference.  A dump comes back into whatever
state has kept `i` and the bytes exactly in the cases of `RoundTrips`. -/
theorem dump_load_iff (opcode1 : BitVec 8) (hF : (opcode1 >>> 4).toNat = 0xF) :
    (∀ e : Emulator, e.i.toNat + regX opcode1 < 4096 →
      ((∃ t, chip8ExecuteInstruction e opcode1 0x55 = .ok t ∧ Dumps e (regX opcode1) t) ↔
        Coincides e (regX opcode1) (e.vregisters (regX opcode1)).toNat)) ∧
    (∀ e : Emulator, e.i.toNat + regX opcode1 < 4096 →
      ((∃ t, chip8ExecuteInstruction e opcode1 0x65 = .ok t ∧ Loads e (regX opcode1) t) ↔
        Coincides e (regX opcode1) (lastLoaded e (regX opcode1)))) ∧
    (∀ e e₁ e₂ : Emulator, e.i.toNat + regX opcode1 < 4096 →
      chip8ExecuteInstruction e opcode1 0x55 = .ok e₁ → e₂.i = e.i →
      (∀ k, k ≤ regX opcode1 → e₂.ram (e.i.toNat + k) = e₁.ram (e.i.toNat + k)) →
      ((∃ t, chip8ExecuteInstruction e₂ opcode1 0x65 = .ok t ∧
          ∀ k, k ≤ regX opcode1 → t.vregisters k = e.vregisters k) ↔
        RoundTrips e e₂ (regX opcode1))) := by
  refine ⟨fun e _ => ?_, fun e _ => ?_, fun e e₁ e₂ hi hstore hsame hram => ?_⟩
  · constructor
    · rintro ⟨t, hrun, hdumps⟩
      obtain ⟨hfits, rfl⟩ := (store_ok_iff hF).mp hrun
      exact ⟨hfits, stored_dumps_iff.mp hdumps⟩
    · rintro ⟨hfits, hsame⟩
      exact ⟨_, (store_ok_iff hF).mpr ⟨hfits, rfl⟩, stored_dumps_iff.mpr hsame⟩
  · constructor
    · rintro ⟨t, hrun, hloads⟩
      obtain ⟨hfits, rfl⟩ := (load_ok_iff hF).mp hrun
      exact ⟨hfits, loaded_loads_iff.mp hloads⟩
    · rintro ⟨hfits, hsame⟩
      exact ⟨_, (load_ok_iff hF).mpr ⟨hfits, rfl⟩, loaded_loads_iff.mpr hsame⟩
  · exact restores_iff hF hi hstore hsame hram

/-- Registers 0 and 1 of a state whose registers all hold 1. -/
theorem dump_load_ones :
    ∃ e e₁ t : Emulator, e.vregisters 1 = 1 ∧ chip8ExecuteInstruction e 0xF1 0x55 = .ok e₁ ∧
      Dumps e 1 e₁ ∧ chip8ExecuteInstruction e₁ 0xF1 0x65 = .ok t ∧
      ∀ k, k ≤ 1 → t.vregisters k = e.vregisters k := by
  obtain ⟨hdump, -, hround⟩ := dump_load_iff 0xF1 rfl
  have hcoincides : Coincides { Emulator.zero 1 with vregisters := fun _ => 1 } 1 1 :=
    ⟨⟨by decide, by decide⟩, fun k hk => by omega⟩
  obtain ⟨e₁, hstore, hdumps⟩ :=
    (hdump { Emulator.zero 1 with vregisters := fun _ => 1 } (by decide)).mpr hcoincides
  have hi : e₁.i = 0 := hdumps.i
  have hv : e₁.vregisters = fun _ => 1 := hdumps.vregisters
  obtain ⟨t, hload, hback⟩ := (hround { Emulator.zero 1 with vregisters := fun _ => 1 } e₁ e₁
    (by decide) hstore hi fun _ _ => rfl).mpr (.inl ⟨by decide, by rw [hv]; decide⟩)
  exact ⟨_, e₁, t, rfl, hstore, hdumps, hload, hback⟩

/-- `F255` with 0 in register 2 stores register 0 only; after `6100`, `F265` does not
bring register 1 back. -/
theorem dump_lost :
    ∃ e e₁ e₂ t : Emulator, e.vregisters 1 = 5 ∧ e.i.toNat + 2 < 4096 ∧
      chip8ExecuteInstruction e 0xF2 0x55 = .ok e₁ ∧ e₁.ram (e.i.toNat + 1) = 0 ∧
      chip8ExecuteInstruction e₁ 0x61 0x00 = .ok e₂ ∧ e₂.i = e.i ∧ e₂.ram = e₁.ram ∧
      chip8ExecuteInstruction e₂ 0xF2 0x65 = .ok t ∧ t.vregisters 1 = 0 := by
  refine ⟨{ Emulator.zero 1 with vregisters := fun k => if k = 1 then 5 else 0 }, _, _, _,
    rfl, by decide, rfl, rfl, rfl, rfl, rfl, rfl, rfl⟩

end Chip8
end Medusa
