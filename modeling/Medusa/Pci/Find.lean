import Medusa.Machine.Ports

/-!
# Searching the PCI bus

The configuration space of a device is read through two ports of 32 bits: an address
with bus, slot, function and offset goes to one, and the word comes from the other.
`pci_config_read` accesses both with `outb` and `inb`, which carry 8 bits.  So of the
address only the offset is sent, and of the word only the lowest byte comes back.

The upper half of a word, which holds the device id, the class and the subclass, is
therefore zero wherever it is read, and the searches decide without the bus.
-/

namespace Medusa
namespace Pci

open Machine

/-! ## The code -/

def configAddr : BitVec 16 := 0xCF8

def configData : BitVec 16 := 0xCFC

structure Location where
  bus : BitVec 8
  slot : BitVec 8
  func : BitVec 8
deriving DecidableEq, Repr

/-- A `pci_device_t` that is valid. -/
structure PciDevice where
  irqLine : BitVec 8
  bar0 : BitVec 32
  bar4 : BitVec 32
  bar5 : BitVec 32
  location : Location
deriving DecidableEq, Repr

section

variable {ε : Type} (hw : Hardware)

def configAddress (l : Location) (offset : BitVec 8) : BitVec 32 :=
  l.bus.setWidth 32 <<< 16 ||| l.slot.setWidth 32 <<< 11 ||| l.func.setWidth 32 <<< 8 |||
    (offset &&& 0xFC).setWidth 32 ||| 0x80000000

/-- The ports take and give bytes; the byte is shifted as a number of 32 bits. -/
def pciConfigRead (l : Location) (offset : BitVec 8) : PortAction ε (BitVec 16) := do
  outb configAddr ((configAddress l offset).setWidth 8)
  let data ← inb hw configData
  return ((data.setWidth 32 >>> ((offset &&& 2).toNat * 8)) &&& 0xFFFF).setWidth 16

def readIrqLine (l : Location) : PortAction ε (BitVec 8) := do
  let value ← pciConfigRead hw l 0x3C
  return value.setWidth 8

def readVendor (l : Location) : PortAction ε (BitVec 16) := pciConfigRead hw l 0x0

def readDevid (l : Location) : PortAction ε (BitVec 16) := pciConfigRead hw l 0x2

/-- The word is an `int16_t`, and shifted as such. -/
def upperByte (l : Location) (offset : BitVec 8) : PortAction ε (BitVec 8) := do
  let value ← pciConfigRead hw l offset
  return (value.sshiftRight 8).setWidth 8

def readClass (l : Location) : PortAction ε (BitVec 8) := upperByte hw l 0xA

def readSubclass (l : Location) : PortAction ε (BitVec 8) := do
  let value ← pciConfigRead hw l 0xA
  return value.setWidth 8

def readProgIf (l : Location) : PortAction ε (BitVec 8) := upperByte hw l 0x8

/-- `get_bar0`, `get_bar4` and `get_bar5`. -/
def getBar (l : Location) (offset : BitVec 8) : PortAction ε (BitVec 32) := do
  let lo ← pciConfigRead hw l offset
  let hi ← pciConfigRead hw l (offset + 2)
  return hi.setWidth 32 <<< 16 ||| lo.setWidth 32

def initDev (l : Location) : PortAction ε PciDevice := do
  let irqLine ← readIrqLine hw l
  let bar0 ← getBar hw l 0x10
  let bar4 ← getBar hw l 0x20
  let bar5 ← getBar hw l 0x24
  return ⟨irqLine, bar0, bar4, bar5, l⟩

/-- The locations in the order of the loops. -/
def locations : List Location :=
  (List.range 5).flatMap fun bus => (List.range 32).flatMap fun slot =>
    (List.range 8).map fun func => ⟨BitVec.ofNat 8 bus, BitVec.ofNat 8 slot, BitVec.ofNat 8 func⟩

def initFound : Option Location → PortAction ε (Option PciDevice)
  | none => return none
  | some l => return some (← initDev hw l)

/-- `interface_value` is an `int8_t`, the byte read is not. -/
def matchesClass (classCode subclassCode interfaceValue : BitVec 8) (l : Location) :
    PortAction ε Bool := do
  if (← readClass hw l) ≠ classCode then return false
  if (← readSubclass hw l) ≠ subclassCode then return false
  if interfaceValue.toInt ≠ -1 then
    let progIf ← readProgIf hw l
    return decide ((progIf.toNat : Int) = interfaceValue.toInt)
  return true

/-- `none` is a device that is not valid. -/
def pciFindAny (classCode subclassCode interfaceValue : BitVec 8) :
    PortAction ε (Option PciDevice) := do
  initFound hw (← firstWhere (matchesClass hw classCode subclassCode interfaceValue) locations)

def matchesIds (vendorId deviceId : BitVec 32) (l : Location) : PortAction ε Bool := do
  if (← readDevid hw l).setWidth 32 ≠ deviceId then return false
  return decide ((← readVendor hw l).setWidth 32 = vendorId)

def pciFind (vendorId deviceId : BitVec 32) : PortAction ε (Option PciDevice) := do
  initFound hw (← firstWhere (matchesIds hw vendorId deviceId) locations)

/-- `SATA_CONTROLLER_PCI_CLASS` and `SATA_CONTROLLER_PCI_SUBCLSS`. -/
def sataClass : BitVec 8 := 0x1

def sataSubclass : BitVec 8 := 0x6

/-- Whether `ahci_init` reports a controller. -/
def ahciInit : PortAction ε Bool := do
  return (← pciFindAny hw sataClass sataSubclass (-1)).isSome

end

/-- The search returns a valid device. -/
def Finds {ε : Type} (x : PortAction ε (Option PciDevice)) (h : Trace) : Prop :=
  ∃ dev h', x.run h = (.ok (some dev), h')

/-! ## One word -/

variable {ε : Type} {hw : Hardware}

/-- What a read of configuration space does to the ports, wherever it reads. -/
def reading (offset : BitVec 8) : Trace := [.output configAddr (offset &&& 0xFC), .input configData]

theorem configAddress_setWidth (l : Location) (offset : BitVec 8) :
    (configAddress l offset).setWidth 8 = offset &&& 0xFC := by
  apply BitVec.eq_of_getLsbD_eq
  intro i hi
  simp [configAddress, hi]

/-- The byte that came back is the lower byte of the word, or is shifted out of it. -/
theorem word_of_byte (data offset : BitVec 8) :
    ((data.setWidth 32 >>> ((offset &&& 2).toNat * 8)) &&& 0xFFFF).setWidth 16 =
      if offset &&& 2 = 0 then data.setWidth 16 else 0 := by
  have hbit : ∀ offset : BitVec 8, offset &&& 2 = 0 ∨ offset &&& 2 = 2 := by decide
  rcases hbit offset with hlow | hhigh
  · rw [hlow, if_pos rfl]
    revert data
    decide
  · rw [hhigh, if_neg (by decide)]
    revert data
    decide

theorem pciConfigRead_run (l : Location) (offset : BitVec 8) (h : Trace) :
    (pciConfigRead hw l offset : PortAction ε _).run h =
      (.ok (if offset &&& 2 = 0 then
          (hw (h ++ [.output configAddr (offset &&& 0xFC)]) configData).setWidth 16 else 0),
        h ++ reading offset) := by
  rw [pciConfigRead, Action.bind_ok (outb_run _ _ _), configAddress_setWidth,
    Action.bind_ok (inb_run _ _), pure_run, word_of_byte, List.append_assoc]
  rfl

/-- The upper half of every word is zero. -/
theorem pciConfigRead_upper (l : Location) {offset : BitVec 8} (hoffset : offset &&& 2 ≠ 0)
    (h : Trace) :
    (pciConfigRead hw l offset : PortAction ε _).run h = (.ok 0, h ++ reading offset) := by
  rw [pciConfigRead_run, if_neg hoffset]

theorem readDevid_run (l : Location) (h : Trace) :
    (readDevid hw l : PortAction ε _).run h = (.ok 0, h ++ reading 0x2) :=
  pciConfigRead_upper l (by decide) h

theorem readClass_run (l : Location) (h : Trace) :
    (readClass hw l : PortAction ε _).run h = (.ok 0, h ++ reading 0xA) := by
  rw [readClass, upperByte, Action.bind_ok (pciConfigRead_upper l (by decide) h)]
  rfl

theorem readSubclass_run (l : Location) (h : Trace) :
    (readSubclass hw l : PortAction ε _).run h = (.ok 0, h ++ reading 0xA) := by
  rw [readSubclass, Action.bind_ok (pciConfigRead_upper l (by decide) h)]
  rfl

/-- The upper byte of a lower half is zero too. -/
theorem readProgIf_run (l : Location) (h : Trace) :
    (readProgIf hw l : PortAction ε _).run h = (.ok 0, h ++ reading 0x8) := by
  have hbyte : ∀ data : BitVec 8, ((data.setWidth 16).sshiftRight 8).setWidth 8 = 0#8 := by decide
  rw [readProgIf, upperByte, Action.bind_ok (pciConfigRead_run l 0x8 h), if_pos (by decide),
    pure_run, hbyte]
  rfl

theorem readVendor_run (l : Location) (h : Trace) :
    (readVendor hw l : PortAction ε _).run h =
      (.ok ((hw (h ++ [.output configAddr 0]) configData).setWidth 16), h ++ reading 0x0) := by
  rw [readVendor, pciConfigRead_run, if_pos (by decide)]
  rfl

/-! ## The tests -/

/-- The class and the interface are looked for; what is compared with them is zero. -/
def ClassZero (classCode subclassCode interfaceValue : BitVec 8) : Prop :=
  classCode = 0 ∧ subclassCode = 0 ∧ (interfaceValue.toInt = -1 ∨ interfaceValue.toInt = 0)

instance (classCode subclassCode interfaceValue : BitVec 8) :
    Decidable (ClassZero classCode subclassCode interfaceValue) :=
  inferInstanceAs (Decidable (_ ∧ _))

theorem matchesClass_run (ε : Type) (hw : Hardware)
    (classCode subclassCode interfaceValue : BitVec 8) (l : Location) (h : Trace) :
    ∃ h', (matchesClass hw classCode subclassCode interfaceValue l : PortAction ε _).run h =
      (.ok (decide (ClassZero classCode subclassCode interfaceValue)), h') := by
  rw [matchesClass, Action.bind_ok (readClass_run l h)]
  by_cases hclass : classCode = 0
  · rw [if_neg (fun hne => hne hclass.symm), Action.bind_ok (readSubclass_run l _)]
    by_cases hsubclass : subclassCode = 0
    · rw [if_neg (fun hne => hne hsubclass.symm)]
      by_cases hany : interfaceValue.toInt = -1
      · rw [if_neg (fun hne => hne hany)]
        exact ⟨_, by rw [decide_eq_true ⟨hclass, hsubclass, Or.inl hany⟩]; rfl⟩
      · rw [if_pos hany, Action.bind_ok (readProgIf_run l _)]
        refine ⟨_, Prod.ext (congrArg Except.ok (decide_eq_decide.mpr ?_)) rfl⟩
        constructor
        · intro hzero
          exact ⟨hclass, hsubclass, Or.inr hzero.symm⟩
        · rintro ⟨-, -, hminus | hzero⟩
          · exact absurd hminus hany
          · exact hzero.symm
    · rw [if_pos (fun heq => hsubclass heq.symm),
        decide_eq_false (fun hzero => hsubclass hzero.2.1)]
      exact ⟨_, rfl⟩
  · rw [if_pos (fun heq => hclass heq.symm), decide_eq_false (fun hzero => hclass hzero.1)]
    exact ⟨_, rfl⟩

/-- The accesses of one test of `pci_find` for device 0. -/
def probe : Trace := reading 0x2 ++ reading 0x0

theorem matchesIds_run (vendorId : BitVec 32) (l : Location) (h : Trace) :
    (matchesIds hw vendorId 0 l : PortAction ε _).run h =
      (.ok (decide ((hw (h ++ reading 0x2 ++ [.output configAddr 0]) configData).setWidth 32 =
        vendorId)), h ++ probe) := by
  have hwiden : ∀ data : BitVec 8, (data.setWidth 16).setWidth 32 = data.setWidth 32 := by decide
  rw [matchesIds, Action.bind_ok (readDevid_run l h), if_neg (fun hne => hne rfl),
    Action.bind_ok (readVendor_run l _), hwiden, pure_run, probe, ← List.append_assoc h]

theorem matchesIds_ne (ε : Type) (hw : Hardware) {deviceId : BitVec 32} (hdevice : deviceId ≠ 0)
    (vendorId : BitVec 32) (l : Location) (h : Trace) :
    ∃ h', (matchesIds hw vendorId deviceId l : PortAction ε _).run h = (.ok false, h') := by
  rw [matchesIds, Action.bind_ok (readDevid_run l h), if_pos (fun heq => hdevice heq.symm)]
  exact ⟨_, rfl⟩

/-! ## The searches -/

theorem getBar_run (ε : Type) (hw : Hardware) (l : Location) (offset : BitVec 8) (h : Trace) :
    ∃ bar h', (getBar hw l offset : PortAction ε _).run h = (.ok bar, h') := by
  rw [getBar, Action.bind_ok (pciConfigRead_run l offset h),
    Action.bind_ok (pciConfigRead_run l _ _)]
  exact ⟨_, _, rfl⟩

theorem initDev_run (ε : Type) (hw : Hardware) (l : Location) (h : Trace) :
    ∃ dev h', (initDev hw l : PortAction ε _).run h = (.ok dev, h') := by
  have hirq : ∃ line h', (readIrqLine hw l : PortAction ε _).run h = (.ok line, h') := by
    rw [readIrqLine, Action.bind_ok (pciConfigRead_run l _ h)]
    exact ⟨_, _, rfl⟩
  obtain ⟨line, h₁, hline⟩ := hirq
  obtain ⟨bar0, h₂, hbar0⟩ := getBar_run ε hw l 0x10 h₁
  obtain ⟨bar4, h₃, hbar4⟩ := getBar_run ε hw l 0x20 h₂
  obtain ⟨bar5, h₄, hbar5⟩ := getBar_run ε hw l 0x24 h₃
  rw [initDev, Action.bind_ok hline, Action.bind_ok hbar0, Action.bind_ok hbar4,
    Action.bind_ok hbar5]
  exact ⟨_, _, rfl⟩

/-- A location that was found is made into a device. -/
theorem finds_iff (test : Location → PortAction ε Bool) (h : Trace) :
    Finds (do initFound hw (← firstWhere test locations)) h ↔
      ∃ l h', (firstWhere test locations).run h = (.ok (some l), h') := by
  constructor
  · rintro ⟨dev, h', hrun⟩
    obtain ⟨found, h₁, hsearch, hinit⟩ := Action.run_bind_eq_ok hrun
    cases found with
    | none => cases hinit
    | some l => exact ⟨l, h₁, hsearch⟩
  · rintro ⟨l, h₁, hsearch⟩
    obtain ⟨dev, h₂, hinit⟩ := initDev_run ε hw l h₁
    refine ⟨dev, h₂, ?_⟩
    rw [Action.bind_ok hsearch, initFound, Action.bind_ok hinit]
    rfl

theorem locations_length : locations.length = 1280 := by
  simp only [locations, List.length_flatMap, List.length_map, List.length_range]
  rfl

theorem pciFindAny_iff (classCode subclassCode interfaceValue : BitVec 8) (h : Trace) :
    Finds (pciFindAny hw classCode subclassCode interfaceValue : PortAction ε _) h ↔
      ClassZero classCode subclassCode interfaceValue := by
  rw [pciFindAny, finds_iff]
  by_cases hzero : ClassZero classCode subclassCode interfaceValue
  · refine ⟨fun _ => hzero, fun _ => ?_⟩
    obtain ⟨l, ls, hlocations⟩ : ∃ l ls, locations = l :: ls := ⟨_, _, rfl⟩
    obtain ⟨h', hrun⟩ := matchesClass_run ε hw classCode subclassCode
      interfaceValue l h
    rw [decide_eq_true hzero] at hrun
    exact ⟨l, h', by rw [hlocations, firstWhere_head hrun]⟩
  · refine ⟨fun ⟨l, h', hrun⟩ => ?_, fun hyes => absurd hyes hzero⟩
    obtain ⟨h'', hnone⟩ := firstWhere_none (fun l h => by
      have htest := matchesClass_run ε hw classCode subclassCode interfaceValue l h
      rwa [decide_eq_false hzero] at htest) locations h
    rw [hnone] at hrun
    cases hrun

theorem pciFind_iff (vendorId deviceId : BitVec 32) (h : Trace) :
    Finds (pciFind hw vendorId deviceId : PortAction ε _) h ↔
      deviceId = 0 ∧ ∃ k, k < 1280 ∧
        (hw (h ++ (List.replicate k probe).flatten ++ reading 0x2 ++ [.output configAddr 0])
          configData).setWidth 32 = vendorId := by
  rw [pciFind, finds_iff]
  by_cases hdevice : deviceId = 0
  · rw [hdevice, firstWhere_run (matchesIds_run vendorId), locations_length]
    simp only [decide_eq_true_eq, true_and]
  · refine ⟨fun ⟨l, h', hrun⟩ => ?_, fun hyes => absurd hyes.1 hdevice⟩
    obtain ⟨h'', hnone⟩ := firstWhere_none (matchesIds_ne ε hw hdevice vendorId) locations h
    rw [hnone] at hrun
    cases hrun

/-- **The searches are blind.**  Whatever hangs on the bus, `pci_find_any` finds a device
exactly for class 0, subclass 0 and interface 0 or any; `pci_find` finds one exactly for
device 0 and a vendor that some read of the port happened to answer; and `ahci_init` never
reports a controller. -/
theorem pci_searches_blind (hw : Hardware) (h : Trace) :
    (∀ classCode subclassCode interfaceValue,
      Finds (pciFindAny hw classCode subclassCode interfaceValue : PortAction ε _) h ↔
        ClassZero classCode subclassCode interfaceValue) ∧
    (∀ vendorId deviceId, Finds (pciFind hw vendorId deviceId : PortAction ε _) h ↔
      deviceId = 0 ∧ ∃ k, k < 1280 ∧
        (hw (h ++ (List.replicate k probe).flatten ++ reading 0x2 ++ [.output configAddr 0])
          configData).setWidth 32 = vendorId) ∧
    ∃ h', (ahciInit hw : PortAction ε _).run h = (.ok false, h') := by
  refine ⟨fun c s i => pciFindAny_iff c s i h, fun v d => pciFind_iff v d h, ?_⟩
  have hnot : ¬ ClassZero sataClass sataSubclass (-1) := by decide
  obtain ⟨h', hnone⟩ := firstWhere_none (fun l h => by
    have htest := matchesClass_run ε hw sataClass sataSubclass (-1) l h
    rwa [decide_eq_false hnot] at htest) locations h
  refine ⟨h', ?_⟩
  rw [ahciInit, pciFindAny, Action.bind_ok (Action.bind_ok hnone)]
  rfl

end Pci
end Medusa
