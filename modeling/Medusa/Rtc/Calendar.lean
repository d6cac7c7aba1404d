import Medusa.Rtc.Date

/-!
# What the registers of the clock mean

Register B says whether the clock counts in BCD or in binary, and whether its hours are
counted to 12 with a flag for the afternoon.  `DateTime.registers` is what a clock in
such a mode shows at a date, and `converted` is what `read_rtc_date` makes of it.
-/

namespace Medusa
namespace Rtc

open Machine Kernel Libc

/-- A date of the calendar, as far as the clock checks it. -/
structure DateTime where
  second : Nat
  minute : Nat
  hour : Nat
  day : Nat
  month : Nat
  year : Nat
  second_lt : second < 60
  minute_lt : minute < 60
  hour_lt : hour < 24
  day_le : day ≤ 31
  month_le : month ≤ 12
  year_lt : year < 10000

/-- A number below 100 in a register. -/
def encode (registerB : BitVec 8) (n : Nat) : BitVec 8 :=
  BitVec.ofNat 8 (if registerB &&& 0x04 = 0 then n / 10 * 16 + n % 10 else n)

/-- The hours of a half day are 12, 1, .., 11. -/
def encodeHour (registerB : BitVec 8) (hour : Nat) : BitVec 8 :=
  if registerB &&& 0x02 = 0 then
    encode registerB (if hour % 12 = 0 then 12 else hour % 12) |||
      (if 12 ≤ hour then 0x80 else 0)
  else encode registerB hour

namespace DateTime

/-- What the clock shows.  Without a register for the century the code assumes 20. -/
def registers (d : DateTime) (centuryRegister : BitVec 16) (registerB : BitVec 8) : Reading where
  second := encode registerB d.second
  minute := encode registerB d.minute
  hour := encodeHour registerB d.hour
  day := encode registerB d.day
  month := encode registerB d.month
  year := encode registerB (d.year % 100)
  century := if centuryRegister ≠ 0 then encode registerB (d.year / 100) else 20

/-- What should be printed. -/
def args (d : DateTime) : List Arg :=
  [.int (BitVec.ofNat 32 d.hour), .int (BitVec.ofNat 32 d.minute),
    .int (BitVec.ofNat 32 d.second), .int (BitVec.ofNat 32 d.day),
    .int (BitVec.ofNat 32 d.month), .int (BitVec.ofNat 32 d.year)]

end DateTime

/-- The end of `read_rtc_date`, from the registers to the arguments of `sprintf`. -/
def converted (centuryRegister : BitVec 16) (registerB : BitVec 8) (stable : Reading) :
    List Arg :=
  let r := binary centuryRegister registerB stable
  [.int ((hour24 registerB r.hour).setWidth 32), .int (r.minute.setWidth 32),
    .int (r.second.setWidth 32), .int (r.day.setWidth 32), .int (r.month.setWidth 32),
    .int (fullYear centuryRegister r)]

/-! ## One register -/

/-- The two modes of register B. -/
def decode (registerB x : BitVec 8) : BitVec 8 := if registerB &&& 0x04 = 0 then fromBcd x else x

/-- The hours without the flag of the afternoon. -/
def decodeHour (registerB x : BitVec 8) : BitVec 8 :=
  if registerB &&& 0x04 = 0 then (x &&& 0x0F) + (x &&& 0x70) / 16 * 10 ||| x &&& 0x80 else x

theorem decode_encode (registerB : BitVec 8) {n : Nat} (hn : n < 100) :
    decode registerB (encode registerB n) = BitVec.ofNat 8 n := by
  have hbcd : ∀ n : Fin 100,
      fromBcd (BitVec.ofNat 8 (n / 10 * 16 + n % 10)) = BitVec.ofNat 8 n := by
    decide
  unfold decode encode
  split
  · exact hbcd ⟨n, hn⟩
  · rfl

theorem setWidth_decode_encode (registerB : BitVec 8) {n : Nat} (hn : n < 100) :
    (decode registerB (encode registerB n)).setWidth 32 = BitVec.ofNat 32 n := by
  rw [decode_encode registerB hn]
  apply BitVec.eq_of_toNat_eq
  simp only [BitVec.toNat_setWidth, BitVec.toNat_ofNat]
  omega

/-- Noon and midnight are the only hours that the conversion from 12 hours mistakes. -/
theorem hour24_iff (registerB : BitVec 8) {hour : Nat} (hhour : hour < 24) :
    (hour24 registerB (decodeHour registerB (encodeHour registerB hour))).setWidth 32 =
        BitVec.ofNat 32 hour ↔ registerB &&& 0x02 ≠ 0 ∨ hour % 12 ≠ 0 := by
  unfold hour24 decodeHour encodeHour encode
  -- two bits of the register are left, and 24 hours
  by_cases hbcd : registerB &&& 0x04 = 0
  · by_cases hhalf : registerB &&& 0x02 = 0
    · simp only [hbcd, hhalf, if_true, true_and, ne_eq, not_true_eq_false, false_or]
      revert hour
      decide
    · simp only [hbcd, hhalf, if_true, if_false, false_and, ne_eq, not_false_eq_true, true_or]
      revert hour
      decide
  · by_cases hhalf : registerB &&& 0x02 = 0
    · simp only [hbcd, hhalf, if_true, if_false, true_and, ne_eq, not_true_eq_false, false_or]
      revert hour
      decide
    · simp only [hbcd, hhalf, if_false, false_and, ne_eq, not_false_eq_true, true_or]
      revert hour
      decide

/-! ## All registers -/

theorem binary_eq (centuryRegister : BitVec 16) (registerB : BitVec 8) (r : Reading) :
    binary centuryRegister registerB r = {
      second := decode registerB r.second
      minute := decode registerB r.minute
      hour := decodeHour registerB r.hour
      day := decode registerB r.day
      month := decode registerB r.month
      year := decode registerB r.year
      century := if centuryRegister ≠ 0 then decode registerB r.century else r.century } := by
  unfold binary decode decodeHour
  split_ifs <;> rfl

/-- The year of the current century that is not before `currentYear`. -/
def guessedYear (year : Nat) : Nat :=
  if year % 100 < 23 then 2100 + year % 100 else 2000 + year % 100

theorem guessedYear_eq_iff (year : Nat) : guessedYear year = year ↔ 2023 ≤ year ∧ year ≤ 2122 := by
  unfold guessedYear
  split <;> omega

theorem fullYear_eq (centuryRegister : BitVec 16) (registerB : BitVec 8) (d : DateTime) :
    fullYear centuryRegister
        (binary centuryRegister registerB (d.registers centuryRegister registerB)) =
      BitVec.ofNat 32 (if centuryRegister ≠ 0 then d.year else guessedYear d.year) := by
  have hyear := setWidth_decode_encode registerB (Nat.mod_lt d.year (by decide : 0 < 100))
  have hlt := d.year_lt
  rw [binary_eq, fullYear]
  simp only [DateTime.registers, hyear]
  split
  · rw [setWidth_decode_encode registerB (by omega),
      show (100 : BitVec 32) = BitVec.ofNat 32 100 from rfl, ← BitVec.ofNat_mul, ← BitVec.ofNat_add,
      Nat.mul_comm, Nat.mod_add_div]
  · rw [show currentYear / 100 * 100 = BitVec.ofNat 32 2000 from by decide, ← BitVec.ofNat_add,
      show (100 : BitVec 32) = BitVec.ofNat 32 100 from rfl, ← BitVec.ofNat_add]
    have hpast : BitVec.ofNat 32 (d.year % 100 + 2000) < currentYear ↔ d.year % 100 < 23 := by
      rw [BitVec.lt_def, show currentYear.toNat = 2023 from rfl, BitVec.toNat_ofNat]
      omega
    rw [guessedYear]
    by_cases hguess : d.year % 100 < 23
    · rw [if_pos (hpast.mpr hguess), if_pos hguess]
      exact congrArg _ (by omega)
    · rw [if_neg (fun h => hguess (hpast.mp h)), if_neg hguess]
      exact congrArg _ (by omega)

/-- **When the date is right.**  In every mode of the clock, what `read_rtc_date` makes of
the registers is the date, except for two things: in the 12 hour mode the hours of noon
and midnight are exchanged, and without a register for the century only the years from
2023 to 2122 are known. -/
theorem converted_eq_args_iff (d : DateTime) (centuryRegister : BitVec 16) (registerB : BitVec 8) :
    converted centuryRegister registerB (d.registers centuryRegister registerB) = d.args ↔
      (registerB &&& 0x02 ≠ 0 ∨ d.hour % 12 ≠ 0) ∧
        (centuryRegister ≠ 0 ∨ 2023 ≤ d.year ∧ d.year ≤ 2122) := by
  have hsecond := setWidth_decode_encode registerB (Nat.lt_trans d.second_lt (by decide))
  have hminute := setWidth_decode_encode registerB (Nat.lt_trans d.minute_lt (by decide))
  have hday := setWidth_decode_encode registerB (Nat.lt_of_le_of_lt d.day_le (by decide))
  have hmonth := setWidth_decode_encode registerB (Nat.lt_of_le_of_lt d.month_le (by decide))
  have hhour := hour24_iff registerB d.hour_lt
  have hyear : BitVec.ofNat 32 (if centuryRegister ≠ 0 then d.year else guessedYear d.year) =
      BitVec.ofNat 32 d.year ↔ centuryRegister ≠ 0 ∨ 2023 ≤ d.year ∧ d.year ≤ 2122 := by
    have hlt := d.year_lt
    by_cases hregister : centuryRegister ≠ 0
    · rw [if_pos hregister]
      exact ⟨fun _ => Or.inl hregister, fun _ => rfl⟩
    · rw [if_neg hregister, ← guessedYear_eq_iff]
      simp only [hregister, false_or]
      refine ⟨fun h => ?_, fun h => by rw [h]⟩
      have hval := congrArg BitVec.toNat h
      simp only [BitVec.toNat_ofNat] at hval
      have hguess : guessedYear d.year < 10000 := by
        unfold guessedYear
        split <;> omega
      omega
  rw [← hhour, ← hyear, ← fullYear_eq centuryRegister registerB d, converted, DateTime.args]
  simp only [binary_eq, DateTime.registers] at *
  simp only [hsecond, hminute, hday, hmonth, List.cons.injEq, Arg.int.injEq, true_and, and_true]

end Rtc
end Medusa
