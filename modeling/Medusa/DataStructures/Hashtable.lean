import Medusa.Kernel.Buffer

/-!
# The hash table

Open addressing over a list of pointers to entries.  A probe reads the key of the
entry behind each slot it meets and stops at an entry without a key, so every slot
has to point at an entry; `hashtable_create` fills the slots with null pointers,
and no function stores anything else into them.  A null pointer that is followed
stops the model.
-/

namespace Medusa
namespace DataStructures

open Machine Kernel

/-- A C string: the bytes before its terminator. -/
abbrev Key := List (BitVec 8)

/-- `hashtable_entry`; the key is `NULL` in an empty entry. -/
structure Entry where
  key : Option Key
  value : Nat
deriving DecidableEq, Repr

/-- The `list_t` behind a table, with the data pointers of its items. -/
structure Entries where
  used : Nat
  size : Nat
  slots : List (Option Entry)
deriving DecidableEq, Repr

def initialCapacity : Nat := 16

/-- `list_create_ext(0, size)` and the loop that clears the items after it. -/
def createEntries (size : Nat) : Entries where
  used := 0
  size := size
  slots := List.replicate size none

def hashtableCreate : Entries := createEntries initialCapacity

/-- `hash_key`: FNV-1a on 64 bits, cut to an `int` and extended again. -/
def hashKey (key : Key) : BitVec 64 :=
  let hash := key.foldl (fun hash p => (hash ^^^ p.setWidth 64) * 1099511628211#64)
    14695981039346656037#64
  (hash.setWidth 32).signExtend 64

/-- `(size_t)(hash & (uint64_t)(size - 1))`. -/
def homeIndex (entries : Entries) (key : Key) : Nat :=
  wrap (hashKey key &&& BitVec.ofNat 64 (wsub entries.size 1)).toNat

/-- Where a probe ends. -/
inductive Probe where
  | hit (index : Nat) (entry : Entry)
  | free (index : Nat) (entry : Entry)
deriving DecidableEq, Repr

/-- The loop of `hashtable_set_entry` and `hashtable_get`. -/
def probeLoop (entries : Entries) (key : Key) : Nat → Nat → Except Stop Probe
  | 0, _ => .error .fuel
  | fuel + 1, index => do
    match ← fetch entries.slots index with
    | none => throw .fault
    | some entry =>
      match entry.key with
      | none => return .free index entry
      | some found =>
        if key = found then return .hit index entry
        else
          let index := index + 1
          probeLoop entries key fuel (if entries.size ≤ index then 0 else index)

/-- After as many rounds as there are slots the loop meets the same ones again. -/
def probe (entries : Entries) (key : Key) : Except Stop Probe :=
  probeLoop entries key (entries.size + 1) (homeIndex entries key)

def hashtableSetEntry (entries : Entries) (key : Key) (value : Nat) :
    Except Stop (Key × Entries) := do
  match ← probe entries key with
  | .hit index entry =>
    let slots ← store entries.slots index (some { entry with value := value })
    return (key, { entries with slots := slots })
  | .free index _ =>
    let slots ← store entries.slots index (some { key := some key, value := value })
    return (key, { entries with used := wrap (entries.used + 1), slots := slots })

/-- One round of the loop of `hashtable_expand`.  Its test follows the pointer when
it is null. -/
def rehash (new : Entries) (slot : Option Entry) : Except Stop Entries :=
  match slot with
  | none => .error .fault
  | some entry =>
    match entry.key with
    | none => .error .fault
    | some key => do
      let (_, new) ← hashtableSetEntry new key entry.value
      return new

/-- `hashtable_expand`; `none` where it returns false. -/
def hashtableExpand (entries : Entries) : Except Stop (Option Entries) :=
  let newCapacity := wrap (entries.size * 2)
  if newCapacity < entries.used then .ok none
  else do
    let new ← entries.slots.foldlM rehash (createEntries newCapacity)
    return some { new with size := newCapacity }

def hashtableGet (key : Key) (entries : Entries) : Except Stop Nat := do
  match ← probe entries key with
  | .hit _ entry => return entry.value
  | .free _ _ => return 0

/-- `hashtable_set`; the null pointer is `none` in its result. -/
def hashtableSet (entries : Entries) (key : Key) (value : Nat) :
    Except Stop (Option Key × Entries) :=
  if value = 0 then .ok (none, entries)
  else if entries.size / 2 ≤ entries.used then do
    match ← hashtableExpand entries with
    | none => return (none, entries)
    | some entries =>
      let (key, entries) ← hashtableSetEntry entries key value
      return (some key, entries)
  else do
    let (key, entries) ← hashtableSetEntry entries key value
    return (some key, entries)

/-! ## The law of a map -/

/-- A call `hashtable_set(t, key, value)`. -/
structure SetCall where
  key : Key
  value : Nat
deriving DecidableEq, Repr

def runSets (entries : Entries) (calls : List SetCall) : Except Stop Entries :=
  calls.foldlM (fun entries c => do
    let (_, entries) ← hashtableSet entries c.key c.value
    return entries) entries

/-- What a map holds after the calls: the value of the last one for the key. -/
def lastValue (calls : List SetCall) (key : Key) : Nat :=
  ((calls.reverse.find? fun c => c.key = key).map SetCall.value).getD 0

/-- The calls return, and so does a lookup after them, with what a map holds. -/
def ActsAsMap (calls : List SetCall) (key : Key) : Prop :=
  ∃ entries, runSets hashtableCreate calls = .ok entries ∧
    hashtableGet key entries = .ok (lastValue calls key)

/-! ## What the code does -/

/-- No slot of the table points at an entry. -/
def Hollow (entries : Entries) : Prop :=
  entries.slots = List.replicate entries.size none

theorem homeIndex_lt {entries : Entries} (hpos : 0 < entries.size) (hsize : entries.size < 2 ^ 32)
    (key : Key) : homeIndex entries key < entries.size := by
  have hle : (hashKey key &&& BitVec.ofNat 64 (wsub entries.size 1)).toNat ≤ entries.size - 1 := by
    rw [BitVec.toNat_and, wsub_of_le hpos hsize]
    refine Nat.and_le_right.trans ?_
    rw [BitVec.toNat_ofNat]
    exact Nat.mod_le _ _
  have hwrap : wrap (hashKey key &&& BitVec.ofNat 64 (wsub entries.size 1)).toNat ≤
      (hashKey key &&& BitVec.ofNat 64 (wsub entries.size 1)).toNat := Nat.mod_le _ _
  unfold homeIndex
  omega

/-- The first probe of a hollow table follows a null pointer. -/
theorem probe_hollow {entries : Entries} (h : Hollow entries) (hpos : 0 < entries.size)
    (hsize : entries.size < 2 ^ 32) (key : Key) : probe entries key = .error .fault := by
  have hlt := homeIndex_lt hpos hsize key
  have hslot : fetch entries.slots (homeIndex entries key) = .ok none := by
    apply fetch_eq_ok
    rw [h]
    simp [hlt]
  rw [probe, probeLoop, hslot]
  rfl

theorem hashtableGet_hollow {entries : Entries} (h : Hollow entries) (hpos : 0 < entries.size)
    (hsize : entries.size < 2 ^ 32) (key : Key) : hashtableGet key entries = .error .fault := by
  rw [hashtableGet, probe_hollow h hpos hsize]
  rfl

theorem hashtableSet_hollow {entries : Entries} (h : Hollow entries) (hpos : 0 < entries.size)
    (hsize : entries.size < 2 ^ 32) (hused : entries.used < entries.size / 2) (key : Key)
    {value : Nat} (hvalue : value ≠ 0) : hashtableSet entries key value = .error .fault := by
  rw [hashtableSet, if_neg hvalue, if_neg (Nat.not_le_of_lt hused), hashtableSetEntry,
    probe_hollow h hpos hsize]
  rfl

theorem hashtableCreate_hollow : Hollow hashtableCreate := rfl

/-- Calls on a fresh table follow a null pointer, or set nothing. -/
theorem runSets_create (calls : List SetCall) :
    runSets hashtableCreate calls = .error .fault ∨
      runSets hashtableCreate calls = .ok hashtableCreate := by
  induction calls with
  | nil => exact Or.inr rfl
  | cons c calls ih =>
    by_cases hvalue : c.value = 0
    · have hnull : hashtableSet hashtableCreate c.key c.value = .ok (none, hashtableCreate) :=
        if_pos hvalue
      have hrun : runSets hashtableCreate (c :: calls) = runSets hashtableCreate calls := by
        rw [runSets, List.foldlM_cons, hnull]
        rfl
      rw [hrun]
      exact ih
    · have hfault := hashtableSet_hollow hashtableCreate_hollow (by decide) (by decide) (by decide)
        c.key hvalue
      left
      rw [runSets, List.foldlM_cons, hfault]
      rfl

/-- **The table is never a map.**  Whatever is set on a fresh table, and whatever is
looked up then, a null pointer is followed. -/
theorem hashtable_never_map (calls : List SetCall) (key : Key) : ¬ ActsAsMap calls key := by
  rintro ⟨entries, hrun, hget⟩
  rcases runSets_create calls with hfault | hcreate
  · rw [hfault] at hrun
    simp at hrun
  · rw [hcreate] at hrun
    obtain rfl := Except.ok.inj hrun
    rw [hashtableGet_hollow hashtableCreate_hollow (by decide) (by decide)] at hget
    simp at hget

/-- The test of `kernel_main` that is commented out: one key is set and looked up. -/
theorem hashtable_testkey_faults :
    hashtableSet hashtableCreate [0x74, 0x65, 0x73, 0x74, 0x6B, 0x65, 0x79] 0xC0400014 =
        .error .fault ∧
      ¬ ActsAsMap [⟨[0x74, 0x65, 0x73, 0x74, 0x6B, 0x65, 0x79], 0xC0400014⟩]
        [0x74, 0x65, 0x73, 0x74, 0x6B, 0x65, 0x79] := by
  have hset : hashtableSet hashtableCreate [0x74, 0x65, 0x73, 0x74, 0x6B, 0x65, 0x79] 0xC0400014 =
      .error .fault := by decide
  refine ⟨hset, ?_⟩
  rintro ⟨entries, hrun, -⟩
  rw [runSets, List.foldlM_cons, hset] at hrun
  simp [bind, Except.bind] at hrun

end DataStructures
end Medusa
