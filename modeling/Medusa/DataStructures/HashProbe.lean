import Medusa.DataStructures.Hashtable
import Medusa.Machine.Loop
import Medusa.Machine.Probing

/-!
# Probes of the hash table

What `hashtable_set_entry` and `hashtable_get` do on slots that all point at entries of
their own.  No function of the kernel makes such a table, but on one they are a map: the
probe stops at the key or at a free entry, and no key gets out of reach.
-/

namespace Medusa
namespace DataStructures

open Machine Kernel Probing

/-- The key that the entry of a slot holds. -/
def keysOf (entries : Entries) (i : Nat) : Option Key := (entries.slots[i]?).join.bind Entry.key

/-- Every slot has an entry, the keys are distinct, and no free entry lies between a key and
its home. -/
structure Probed (entries : Entries) : Prop where
  power : ∃ b, entries.size = 2 ^ b
  size_lt : entries.size < 2 ^ 32
  length : entries.slots.length = entries.size
  own : none ∉ entries.slots
  findable : Findable entries.size (homeIndex entries) (keysOf entries)

variable {entries : Entries} {key : Key} {value i d : Nat}

theorem Probed.size_pos (h : Probed entries) : 0 < entries.size := by
  obtain ⟨b, hb⟩ := h.power
  rw [hb]
  exact Nat.two_pow_pos b

/-- What the loop reports of a slot. -/
def outcome (key : Key) (index : Nat) (entry : Entry) : Probe :=
  if entry.key = some key then .hit index entry else .free index entry

variable {used : Nat} {entry : Entry}

end DataStructures
end Medusa
