import Medusa.Libc.Output

/-!
# The date

`read_rtc_date`: the registers of the clock are read until two readings in a row are
the same, converted, and formatted into a block from `kmalloc`.  The clock answers any
byte to any access, so its registers may change between two readings.
-/

namespace Medusa
namespace Rtc

open Machine Kernel Libc

/-- What the clock answers: to the access number `t`, for a register. -/
abbrev Clock := Nat → BitVec 8 → BitVec 8

/-- The registers that are read in a row. -/
structure Reading where
  second : BitVec 8
  minute : BitVec 8
  hour : BitVec 8
  day : BitVec 8
  month : BitVec 8
  year : BitVec 8
  century : BitVec 8
deriving DecidableEq

/-- `while (get_update_in_progress_flag())`; the value is the next access. -/
def waitUpdate (clock : Clock) : Nat → Nat → Except Stop Nat
  | 0, _ => .error .fuel
  | fuel + 1, t =>
    if clock t 0x0A &&& 0x80 ≠ 0 then waitUpdate clock fuel (t + 1) else .ok (t + 1)

/-- One reading.  The century is read if there is a register for it. -/
def readRegisters (clock : Clock) (centuryRegister : BitVec 16) (century : BitVec 8) (t : Nat) :
    Reading × Nat :=
  let reading : Reading := {
    second := clock t 0x00
    minute := clock (t + 1) 0x02
    hour := clock (t + 2) 0x04
    day := clock (t + 3) 0x07
    month := clock (t + 4) 0x08
    year := clock (t + 5) 0x09
    century := century }
  if centuryRegister ≠ 0 then
    ({ reading with century := clock (t + 6) (centuryRegister.setWidth 8) }, t + 7)
  else (reading, t + 6)

/-- The do-while loop. -/
def readStable (clock : Clock) (centuryRegister : BitVec 16) :
    Nat → Reading → Nat → Except Stop (Reading × Nat)
  | 0, _, _ => .error .fuel
  | fuel + 1, last, t => do
    let t ← waitUpdate clock fuel t
    let (reading, t) := readRegisters clock centuryRegister last.century t
    if reading ≠ last then readStable clock centuryRegister fuel reading t
    else return (reading, t)

/-- `(x & 0x0F) + ((x / 16) * 10)`. -/
def fromBcd (x : BitVec 8) : BitVec 8 := (x &&& 0x0F) + x / 16 * 10

/-- The conversion from BCD, with the flag of the 12 hour clock kept. -/
def binary (centuryRegister : BitVec 16) (registerB : BitVec 8) (r : Reading) : Reading :=
  if registerB &&& 0x04 = 0 then {
    second := fromBcd r.second
    minute := fromBcd r.minute
    hour := (r.hour &&& 0x0F) + (r.hour &&& 0x70) / 16 * 10 ||| r.hour &&& 0x80
    day := fromBcd r.day
    month := fromBcd r.month
    year := fromBcd r.year
    century := if centuryRegister ≠ 0 then fromBcd r.century else r.century }
  else r

/-- The conversion to a 24 hour clock. -/
def hour24 (registerB hour : BitVec 8) : BitVec 8 :=
  if registerB &&& 0x02 = 0 ∧ hour &&& 0x80 ≠ 0 then ((hour &&& 0x7F) + 12) % 24 else hour

def currentYear : BitVec 32 := 2023

/-- The year with four digits. -/
def fullYear (centuryRegister : BitVec 16) (r : Reading) : BitVec 32 :=
  if centuryRegister ≠ 0 then r.year.setWidth 32 + r.century.setWidth 32 * 100
  else
    let year := r.year.setWidth 32 + currentYear / 100 * 100
    if year < currentYear then year + 100 else year

/-- The arguments of `sprintf`, from the clock alone. -/
def dateArgs (clock : Clock) (centuryRegister : BitVec 16) (fuel : Nat) :
    Except Stop (List Arg) := do
  let t ← waitUpdate clock fuel 0
  let (first, t) := readRegisters clock centuryRegister 20 t
  let (stable, t) ← readStable clock centuryRegister fuel first t
  let registerB := clock t 0x0B
  let r := binary centuryRegister registerB stable
  return [.int ((hour24 registerB r.hour).setWidth 32), .int (r.minute.setWidth 32),
    .int (r.second.setWidth 32), .int (r.day.setWidth 32), .int (r.month.setWidth 32),
    .int (fullYear centuryRegister r)]

/-- `"%d:%d:%d %d/%d/%d"`. -/
def dateFormat : CString where
  bytes := [0x25#8, 0x64#8, 0x3A#8, 0x25#8, 0x64#8, 0x3A#8, 0x25#8, 0x64#8, 0x20#8, 0x25#8, 0x64#8,
    0x2F#8, 0x25#8, 0x64#8, 0x2F#8, 0x25#8, 0x64#8]
  noNul := by decide

/-- `read_rtc_date`, with the block that `kmalloc` gives it. -/
def readRtcDate (clock : Clock) (centuryRegister : BitVec 16) (fuel : Nat)
    (block : List (BitVec 8)) : Except Stop (List (BitVec 8)) := do
  let args ← dateArgs clock centuryRegister fuel
  let (_, str) ← sprintf block dateFormat args
  return str

/-- The two contents of the block become the same date. -/
def SameDate (clock : Clock) (centuryRegister : BitVec 16) (fuel : Nat)
    (block₁ block₂ : List (BitVec 8)) : Prop :=
  ∃ s str₁ str₂, readRtcDate clock centuryRegister fuel block₁ = .ok str₁ ∧
    readRtcDate clock centuryRegister fuel block₂ = .ok str₂ ∧ Holds str₁ s ∧ Holds str₂ s

variable {clock : Clock} {centuryRegister : BitVec 16} {fuel : Nat} {args : List Arg}

/-- The six numbers are what the format asks for. -/
theorem dateArgs_matches (hargs : dateArgs clock centuryRegister fuel = .ok args) :
    Matches (conversions dateFormat.bytes) args := by
  obtain ⟨t, -, hargs⟩ := bind_eq_ok hargs
  obtain ⟨stable, -, hargs⟩ := bind_eq_ok hargs
  obtain rfl := Except.ok.inj hargs
  exact ⟨trivial, trivial, trivial, trivial, trivial, trivial, trivial⟩

/-- Once the clock is read, the date is what `sprintf` makes of it. -/
theorem readRtcDate_eq_ok (hargs : dateArgs clock centuryRegister fuel = .ok args)
    {block str : List (BitVec 8)} :
    readRtcDate clock centuryRegister fuel block = .ok str ↔
      ∃ v, sprintf block dateFormat args = .ok (v, str) := by
  rw [readRtcDate, hargs, ok_bind]
  constructor
  · intro hrun
    obtain ⟨⟨v, str'⟩, hsprintf, hrest⟩ := bind_eq_ok hrun
    obtain rfl := Except.ok.inj hrest
    exact ⟨v, hsprintf⟩
  · rintro ⟨v, hsprintf⟩
    rw [hsprintf]
    rfl

theorem sameDate_iff (hargs : dateArgs clock centuryRegister fuel = .ok args)
    {block₁ block₂ : List (BitVec 8)} :
    SameDate clock centuryRegister fuel block₁ block₂ ↔
      SameString dateFormat args block₁ block₂ := by
  simp only [SameDate, readRtcDate_eq_ok hargs]
  constructor
  · rintro ⟨s, str₁, str₂, ⟨v₁, hrun₁⟩, ⟨v₂, hrun₂⟩, hholds₁, hholds₂⟩
    exact ⟨s, v₁, v₂, str₁, str₂, hrun₁, hrun₂, hholds₁, hholds₂⟩
  · rintro ⟨s, v₁, v₂, str₁, str₂, hrun₁, hrun₂, hholds₁, hholds₂⟩
    exact ⟨s, str₁, str₂, ⟨v₁, hrun₁⟩, ⟨v₂, hrun₂⟩, hholds₁, hholds₂⟩

/-- **What the target held shows**: two contents of a buffer become the same string,
and two contents of the block the same date, exactly if they hold the same string
already, with room behind it. -/
theorem overwrites_iff (format : CString) {given : List Arg} {buf₁ buf₂ : List (BitVec 8)}
    (hmatches : Matches (conversions format.bytes) given) (hbufs : buf₁.length = buf₂.length)
    {block₁ block₂ : List (BitVec 8)} (hargs : dateArgs clock centuryRegister fuel = .ok args)
    (hblocks : block₁.length = block₂.length) :
    (SameString format given buf₁ buf₂ ↔
        ∃ s, Holds buf₁ s ∧ Holds buf₂ s ∧ RoomFor (outputOf format given) s buf₁) ∧
      (SameDate clock centuryRegister fuel block₁ block₂ ↔
        ∃ s, Holds block₁ s ∧ Holds block₂ s ∧ RoomFor (outputOf dateFormat args) s block₁) := by
  constructor
  · exact sameString_iff format hmatches hbufs
  · rw [sameDate_iff hargs]
    exact sameString_iff dateFormat (dateArgs_matches hargs) hblocks

/-- A clock that stands still: noon of the first of January 2024, in binary. -/
def noonClock : Clock := fun _ register =>
  match register.toNat with
  | 0x04 => 12
  | 0x07 => 1
  | 0x08 => 1
  | 0x09 => 24
  | 0x0B => 0x06
  | _ => 0

/-- `"12:0:0 1/1/2024"`. -/
def noonText : List (BitVec 8) :=
  [0x31#8, 0x32#8, 0x3A#8, 0x30#8, 0x3A#8, 0x30#8, 0x20#8, 0x31#8, 0x2F#8, 0x31#8, 0x2F#8,
    0x32#8, 0x30#8, 0x32#8, 0x34#8]

theorem dateArgs_noonClock :
    dateArgs noonClock 0 3 =
      .ok [.int 12#32, .int 0#32, .int 0#32, .int 1#32, .int 1#32, .int 2024#32] := by
  rfl

/-- Two blocks that both begin with a terminator, whatever is behind it. -/
theorem overwrites_noonClock :
    SameString intFormat [.int 7#32] (List.replicate 4 0#8) (0#8 :: List.replicate 3 0x78#8) ∧
      SameDate noonClock 0 3 (List.replicate 150 0#8) (0#8 :: List.replicate 149 0x78#8) := by
  have hlen : (List.replicate 150 0#8).length = (0#8 :: List.replicate 149 0x78#8).length := by
    simp
  obtain ⟨hstring, hdate⟩ := overwrites_iff intFormat
    (show Matches (conversions intFormat.bytes) [.int 7#32] from ⟨trivial, trivial⟩)
    (show (List.replicate 4 0#8).length = (0#8 :: List.replicate 3 0x78#8).length from rfl)
    dateArgs_noonClock hlen
  constructor
  · apply hstring.mpr
    exact ⟨[], ⟨_, rfl, by decide⟩, ⟨_, rfl, by decide⟩, .inr (by decide +kernel)⟩
  · apply hdate.mpr
    exact ⟨[], ⟨List.replicate 149 0#8, rfl, by decide⟩, ⟨_, rfl, by decide⟩,
      .inr (by decide +kernel)⟩

/-- A recycled block that holds `"x"` gives `"x12:0:0 1/1/2024"`. -/
theorem date_not_overwritten :
    readRtcDate noonClock 0 3 (List.replicate 150 0#8) =
        .ok (noonText ++ List.replicate 135 0#8) ∧
      readRtcDate noonClock 0 3 (0x78#8 :: List.replicate 149 0#8) =
        .ok (0x78#8 :: noonText ++ List.replicate 134 0#8) ∧
      ¬ SameDate noonClock 0 3 (List.replicate 150 0#8) (0x78#8 :: List.replicate 149 0#8) ∧
      ¬ SameString intFormat [.int 7#32] (List.replicate 4 0#8)
        (0x78#8 :: List.replicate 3 0#8) := by
  have hclean : readRtcDate noonClock 0 3 (List.replicate 150 0#8) =
      .ok (noonText ++ List.replicate 135 0#8) := by decide +kernel
  have hused : readRtcDate noonClock 0 3 (0x78#8 :: List.replicate 149 0#8) =
      .ok (0x78#8 :: noonText ++ List.replicate 134 0#8) := by decide +kernel
  refine ⟨hclean, hused, ?_, ?_⟩
  · rintro ⟨s, str₁, str₂, hrun₁, hrun₂, hholds₁, hholds₂⟩
    obtain rfl := Except.ok.inj (hrun₁.symm.trans hclean)
    obtain rfl := Except.ok.inj (hrun₂.symm.trans hused)
    have h₁ : Holds (noonText ++ List.replicate 135 0#8) noonText := ⟨_, rfl, by decide⟩
    have h₂ : Holds (0x78#8 :: noonText ++ List.replicate 134 0#8) (0x78#8 :: noonText) :=
      ⟨_, rfl, by decide⟩
    exact absurd ((h₁.unique hholds₁).trans (hholds₂.unique h₂)) (by decide)
  · rintro ⟨s, v₁, v₂, buf₁, buf₂, hrun₁, hrun₂, hholds₁, hholds₂⟩
    have hempty : sprintf (List.replicate 4 0#8) intFormat [.int 7#32] =
        .ok (1, [0x37#8, 0#8, 0#8, 0#8]) := by decide +kernel
    have hfull : sprintf (0x78#8 :: List.replicate 3 0#8) intFormat [.int 7#32] =
        .ok (1, [0x78#8, 0x37#8, 0#8, 0#8]) := by decide +kernel
    obtain ⟨-, rfl⟩ := Prod.mk.inj (Except.ok.inj (hrun₁.symm.trans hempty))
    obtain ⟨-, rfl⟩ := Prod.mk.inj (Except.ok.inj (hrun₂.symm.trans hfull))
    have h₁ : Holds [0x37#8, 0#8, 0#8, 0#8] [0x37#8] := ⟨_, rfl, by decide⟩
    have h₂ : Holds [0x78#8, 0x37#8, 0#8, 0#8] [0x78#8, 0x37#8] := ⟨_, rfl, by decide⟩
    exact absurd ((h₁.unique hholds₁).trans (hholds₂.unique h₂)) (by decide)

end Rtc
end Medusa
