import Medusa.Machine.DoubleRead
import Medusa.Rtc.Calendar

/-!
# Reading the clock

The clock goes on while `read_rtc_date` reads its registers one after another.  It is
regular if it does not stay long in an update and if its dates are far enough apart; both
are counted in accesses.  Then the call returns, and what it returns is a date that the
clock showed during the call, never a mixture of two.
-/

namespace Medusa
namespace Rtc

open Machine Kernel Libc

/-- The date in the registers at one time; the code assumes century 20 where there is no
register for it. -/
def shownAt (clock : Clock) (centuryRegister : BitVec 16) (t : Nat) : Reading where
  second := clock t 0x00
  minute := clock t 0x02
  hour := clock t 0x04
  day := clock t 0x07
  month := clock t 0x08
  year := clock t 0x09
  century := if centuryRegister ≠ 0 then clock t (centuryRegister.setWidth 8) else 20

/-- Each register is read at its own access. -/
def registerByRegister : Sampler Reading where
  span := 7
  sample y := {
    second := (y 0).second
    minute := (y 1).minute
    hour := (y 2).hour
    day := (y 3).day
    month := (y 4).month
    year := (y 5).year
    century := (y 6).century }
  sample_congr x y h := by
    rw [h 0 (by decide), h 1 (by decide), h 2 (by decide), h 3 (by decide), h 4 (by decide),
      h 5 (by decide), h 6 (by decide)]
  sample_const _ := rfl

/-- The accesses of one round of the loop: the update flag, and seven registers. -/
def roundLength (wait : Nat) : Nat := wait + 8

/-- The update flag is down within `wait` accesses of any time, and dates are four rounds
apart. -/
structure Regular (clock : Clock) (centuryRegister : BitVec 16) (wait : Nat) : Prop where
  settles : ∀ t, ∃ k, k ≤ wait ∧ clock (t + k) 0x0A &&& 0x80 = 0
  spaced : Spaced (shownAt clock centuryRegister) (4 * roundLength wait)

section

variable {clock : Clock} {centuryRegister : BitVec 16} {wait fuel : Nat}

/-- What the code reads from access `t` on. -/
def readFrom (clock : Clock) (centuryRegister : BitVec 16) (t : Nat) : Reading :=
  registerByRegister.readAt (shownAt clock centuryRegister) t

theorem waitUpdate_ok {t : Nat} (h : ∃ k, k ≤ wait ∧ clock (t + k) 0x0A &&& 0x80 = 0)
    (hfuel : wait < fuel) :
    ∃ u, waitUpdate clock fuel t = .ok u ∧ t < u ∧ u ≤ t + wait + 1 := by
  induction wait generalizing t fuel with
  | zero =>
    obtain ⟨k, hk, hflag⟩ := h
    obtain rfl := Nat.le_zero.mp hk
    cases fuel with
    | zero => exact absurd hfuel (Nat.lt_irrefl 0)
    | succ fuel => exact ⟨t + 1, by rw [waitUpdate, if_neg (fun h => h hflag)], by omega, by omega⟩
  | succ wait ih =>
    cases fuel with
    | zero => exact absurd hfuel (Nat.not_lt_zero _)
    | succ fuel =>
      by_cases hdown : clock t 0x0A &&& 0x80 = 0
      · exact ⟨t + 1, by rw [waitUpdate, if_neg (fun h => h hdown)], by omega, by omega⟩
      · obtain ⟨k, hk, hflag⟩ := h
        have hpos : k ≠ 0 := by
          rintro rfl
          exact hdown hflag
        have hlater : ∃ k, k ≤ wait ∧ clock (t + 1 + k) 0x0A &&& 0x80 = 0 :=
          ⟨k - 1, by omega, by rw [show t + 1 + (k - 1) = t + k by omega]; exact hflag⟩
        have hless : wait < fuel := Nat.lt_of_succ_lt_succ hfuel
        obtain ⟨u, hu, hlo, hhi⟩ := ih hlater hless
        exact ⟨u, by rw [waitUpdate, if_pos hdown, hu], by omega, by omega⟩

theorem readRegisters_eq (clock : Clock) {century : BitVec 8}
    (hcentury : centuryRegister = 0 → century = 20) (t : Nat) :
    ∃ e, readRegisters clock centuryRegister century t = (readFrom clock centuryRegister t, e) ∧
      t + 6 ≤ e ∧ e ≤ t + 7 := by
  by_cases hregister : centuryRegister ≠ 0
  · refine ⟨t + 7, ?_, by omega, by omega⟩
    simp only [readRegisters, readFrom, Sampler.readAt, registerByRegister, shownAt,
      if_pos hregister, Nat.add_zero]
  · refine ⟨t + 6, ?_, by omega, by omega⟩
    simp only [readRegisters, readFrom, Sampler.readAt, registerByRegister, shownAt,
      if_neg hregister, Nat.add_zero, hcentury (Classical.not_not.mp hregister)]

theorem readFrom_century (clock : Clock) (t : Nat) (h : centuryRegister = 0) :
    (readFrom clock centuryRegister t).century = 20 := by
  exact if_neg (fun hne : centuryRegister ≠ 0 => hne h)

/-- One round of the loop, behind a reading that began at `t`. -/
theorem Regular.round (h : Regular clock centuryRegister wait) (fuel : Nat) (hfuel : wait < fuel)
    {t e : Nat} (he : t + 6 ≤ e) (he' : e ≤ t + 7) :
    ∃ u e', t + 7 ≤ u ∧ u ≤ t + roundLength wait ∧ u + 6 ≤ e' ∧ e' ≤ u + 7 ∧
      readStable clock centuryRegister (fuel + 1) (readFrom clock centuryRegister t) e =
        if readFrom clock centuryRegister u ≠ readFrom clock centuryRegister t then
          readStable clock centuryRegister fuel (readFrom clock centuryRegister u) e'
        else .ok (readFrom clock centuryRegister u, e') := by
  obtain ⟨u, hwait, hlo, hhi⟩ := waitUpdate_ok (h.settles e) hfuel
  obtain ⟨e', hread, hlo', hhi'⟩ :=
    readRegisters_eq clock (readFrom_century clock t) u
  refine ⟨u, e', by omega, by unfold roundLength; omega, hlo', hhi', ?_⟩
  rw [readStable, hwait, ok_bind, hread]
  rfl

/-- **The loop ends.**  It ends after at most three rounds, with a date that was shown
since the first reading began. -/
theorem Regular.stable (h : Regular clock centuryRegister wait) (hfuel : wait + 3 < fuel)
    {t e : Nat} (he : t + 6 ≤ e) (he' : e ≤ t + 7) :
    ∃ v e', v ≤ t + 3 * roundLength wait ∧
      readStable clock centuryRegister fuel (readFrom clock centuryRegister t) e =
        .ok (shownAt clock centuryRegister v, e') := by
  have htwice : ∀ u v, u + 7 ≤ v → v ≤ u + roundLength wait →
      readFrom clock centuryRegister v = readFrom clock centuryRegister u →
      ∃ w, w ≤ v ∧ readFrom clock centuryRegister v = shownAt clock centuryRegister w := by
    intro u v huv hvu heq
    have hwindow : v + 7 ≤ u + 4 * roundLength wait := by unfold roundLength at *; omega
    rcases registerByRegister.eq_of_twice h.spaced huv hwindow heq.symm with hu | hv
    · exact ⟨u, by omega, hu⟩
    · exact ⟨v, Nat.le_refl v, hv⟩
  obtain ⟨f, rfl⟩ : ∃ f, fuel = f + 1 + 1 + 1 := ⟨fuel - 3, by omega⟩
  obtain ⟨t₁, e₁, h₁, h₁', he₁, he₁', hround₁⟩ := h.round (f + 1 + 1) (by omega) he he'
  by_cases heq₁ : readFrom clock centuryRegister t₁ = readFrom clock centuryRegister t
  · obtain ⟨v, hv, hshown⟩ := htwice t t₁ h₁ h₁' heq₁
    exact ⟨v, e₁, by omega, by rw [hround₁, if_neg (fun hne => hne heq₁), hshown]⟩
  obtain ⟨t₂, e₂, h₂, h₂', he₂, he₂', hround₂⟩ := h.round (f + 1) (by omega) he₁ he₁'
  by_cases heq₂ : readFrom clock centuryRegister t₂ = readFrom clock centuryRegister t₁
  · obtain ⟨v, hv, hshown⟩ := htwice t₁ t₂ h₂ h₂' heq₂
    refine ⟨v, e₂, by omega, ?_⟩
    rw [hround₁, if_pos heq₁, hround₂, if_neg (fun hne => hne heq₂), hshown]
  obtain ⟨t₃, e₃, h₃, h₃', -, -, hround₃⟩ := h.round f (by omega) he₂ he₂'
  -- the first two readings differ, so the last two agree
  have heq₃ : readFrom clock centuryRegister t₃ = readFrom clock centuryRegister t₂ := by
    have hwindow : t₃ + 7 ≤ t + 4 * roundLength wait := by unfold roundLength at *; omega
    rcases registerByRegister.agree_of_four h.spaced h₁ h₂ h₃ hwindow with hfirst | hlast
    · exact absurd hfirst.symm heq₁
    · exact hlast.symm
  obtain ⟨v, hv, hshown⟩ := htwice t₂ t₃ h₃ h₃' heq₃
  refine ⟨v, e₃, by omega, ?_⟩
  rw [hround₁, if_pos heq₁, hround₂, if_pos heq₂, hround₃, if_neg (fun hne => hne heq₃), hshown]

/-- **The date is one that the clock showed.**  On a regular clock `read_rtc_date` returns,
and it converts registers as they stood together at one time of the call. -/
theorem dateArgs_consistent (h : Regular clock centuryRegister wait) {registerB : BitVec 8}
    (hmode : ∀ t, clock t 0x0B = registerB) (hfuel : wait + 3 < fuel) :
    ∃ t, t ≤ 4 * roundLength wait ∧ dateArgs clock centuryRegister fuel =
      .ok (converted centuryRegister registerB (shownAt clock centuryRegister t)) := by
  obtain ⟨t, hwait, -, ht⟩ := waitUpdate_ok (h.settles 0) (by omega : wait < fuel)
  have hinit : centuryRegister = 0 → (20 : BitVec 8) = 20 := fun _ => rfl
  obtain ⟨e, hread, he, he'⟩ := readRegisters_eq clock hinit t
  obtain ⟨v, e', hv, hstable⟩ := h.stable hfuel he he'
  refine ⟨v, by unfold roundLength at *; omega, ?_⟩
  rw [dateArgs, hwait, ok_bind, hread]
  dsimp only
  rw [hstable, ok_bind]
  dsimp only
  rw [hmode e']
  rfl

end

/-- The clock at noon, which goes on by a second during the first reading. -/
def tickingClock : Clock := fun t register =>
  if register = 0x00 then (if t ≤ 4 then 0 else 1) else noonClock t register

theorem tickingClock_regular : Regular tickingClock 0 0 where
  settles _ := ⟨0, Nat.le_refl 0, by simp [tickingClock, noonClock]⟩
  spaced := by
    have honly : ∀ t, ChangesAt (shownAt tickingClock 0) t → t = 4 := by
      intro t hchange
      by_contra hne
      refine hchange ?_
      have hsecond : tickingClock t 0x00 = tickingClock (t + 1) 0x00 := by
        simp only [tickingClock, if_true]
        split_ifs <;> first | rfl | omega
      simp only [shownAt, hsecond]
      rfl
    intro t u hlt ht hu
    have h₁ := honly t ht
    have h₂ := honly u hu
    omega

theorem tickingClock_consistent :
    ∃ t, t ≤ 4 * roundLength 0 ∧ dateArgs tickingClock 0 4 =
      .ok (converted 0 0x06 (shownAt tickingClock 0 t)) :=
  dateArgs_consistent tickingClock_regular (fun _ => rfl) (by decide)

end Rtc
end Medusa
