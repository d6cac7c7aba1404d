import Mathlib.Data.List.Chain
import Medusa.Heap.Defs

/-!
# The block list

The abstract heap is a list of blocks, each with an address, a capacity and a
flag.  `Linked` says that memory holds their headers, linked in order and on to a
given address; `Laid` says where they may stand.  Consecutive blocks are
twelve bytes and a capacity apart, so headers and data never overlap, and a
store into one header or into one payload leaves every other header alone.
-/

namespace Medusa
namespace Heap

open Machine Kernel Libc

structure Block where
  addr : Nat
  cap : Nat
  used : Bool
deriving DecidableEq, Repr

namespace Block

/-- The `size` field of the header. -/
def word (b : Block) : Nat := b.cap + if b.used then 1 else 0

def data (b : Block) : Nat := b.addr + 8

/-- Set the flag of the block at `a`. -/
def mark (a : Nat) (used : Bool) (b : Block) : Block :=
  if b.addr = a then { b with used := used } else b

@[simp] theorem mark_addr (a : Nat) (u : Bool) (b : Block) : (b.mark a u).addr = b.addr := by
  by_cases h : b.addr = a <;> simp [mark, h]

@[simp] theorem mark_cap (a : Nat) (u : Bool) (b : Block) : (b.mark a u).cap = b.cap := by
  by_cases h : b.addr = a <;> simp [mark, h]

theorem mark_of_ne {a : Nat} {u : Bool} {b : Block} (h : b.addr ≠ a) : b.mark a u = b := if_neg h

theorem mark_of_eq {a : Nat} {u : Bool} {b : Block} (h : b.addr = a) :
    b.mark a u = { b with used := u } := if_pos h

/-- The place of a block: in the heap, on word boundaries, with its data before
the limit. -/
structure Placed (b : Block) : Prop where
  low : heapBegin ≤ b.addr
  aligned : b.addr % 4 = 0
  words : b.cap % 4 = 0
  high : b.addr + 8 + b.cap ≤ heapLimit

/-- `c` is the next block after `b`: past its end, by a gap too small for a
filler. -/
structure Follows (b c : Block) : Prop where
  past : b.addr + 12 + b.cap ≤ c.addr
  close : c.addr ≤ b.addr + 12 + b.cap + 16

end Block

/-- The address a link to the list `blocks` holds when the list goes on at
`stop`. -/
def headAddr (stop : Nat) : List Block → Nat
  | [] => stop
  | b :: _ => b.addr

/-- Memory holds the headers of `blocks`, linked in order and on to `stop`. -/
def Linked (m : Mem) (stop : Nat) : List Block → Prop
  | [] => True
  | b :: rest => next m b.addr = headAddr stop rest ∧ size m b.addr = b.word ∧ Linked m stop rest

/-- The address of the last block, null when there is none. -/
def lastAddr (blocks : List Block) : Nat := (blocks.getLast?.map Block.addr).getD 0

structure Laid (blocks : List Block) : Prop where
  follows : blocks.IsChain Block.Follows
  placed : ∀ b ∈ blocks, b.Placed

/-- The heap `h` represents the list `blocks`; the empty list is the unset
heap. -/
structure Rep (h : State) (blocks : List Block) : Prop where
  bottom : h.bottom = headAddr 0 blocks
  top : h.top = lastAddr blocks
  linked : Linked h.mem 0 blocks
  laid : Laid blocks

/-! ## The flag bit -/

theorem clearFlag_eq {n : Nat} (h : n < 2 ^ 32) : clearFlag n = n / 2 * 2 :=
  and_high_eq (k := 1) h (by decide)

theorem or_one_of_even {n : Nat} (h : n % 2 = 0) : n ||| 1 = n + 1 :=
  or_low_eq (k := 1) h (by decide)

namespace Block

variable {b : Block}

theorem Placed.word_lt (h : b.Placed) : b.word < 2 ^ 32 := by
  have hlimit : heapLimit = 0xC2200000 := rfl
  have hhigh := h.high
  have hwords := h.words
  have hlow := h.low
  rw [word]
  split <;> omega

theorem Placed.clearFlag_word (h : b.Placed) : clearFlag b.word = b.cap := by
  have hwords := h.words
  rw [clearFlag_eq h.word_lt, word]
  split <;> omega

theorem Placed.word_and_one (h : b.Placed) : b.word &&& 1 = if b.used then 1 else 0 := by
  have hwords := h.words
  rw [Nat.and_one_is_mod, word]
  split <;> omega

theorem Placed.mark {a : Nat} {u : Bool} (h : b.Placed) : (b.mark a u).Placed :=
  ⟨by rw [mark_addr]; exact h.low, by rw [mark_addr]; exact h.aligned,
    by rw [mark_cap]; exact h.words, by rw [mark_addr, mark_cap]; exact h.high⟩

theorem Placed.addr_pos (h : b.Placed) : 0 < b.addr := by
  have hbegin : heapBegin = 0xC0400000 := rfl
  have hlow := h.low
  omega

theorem Placed.addr_lt (h : b.Placed) : b.addr < 2 ^ 32 := by
  have hlimit : heapLimit = 0xC2200000 := rfl
  have hhigh := h.high
  omega

end Block

/-! ## Order of the blocks -/

theorem Laid.pairwise {blocks : List Block} (h : Laid blocks) :
    blocks.Pairwise fun b c => b.addr + 12 + b.cap ≤ c.addr := by
  have htrans : IsTrans Block fun b c : Block => b.addr + 12 + b.cap ≤ c.addr :=
    ⟨fun a b c hab hbc => by omega⟩
  exact (h.follows.imp fun _ _ hf => hf.past).pairwise

/-- Two blocks of a list are the same block or lie apart. -/
theorem Laid.apart {blocks : List Block} (h : Laid blocks) {b c : Block} (hb : b ∈ blocks)
    (hc : c ∈ blocks) :
    b = c ∨ b.addr + 12 + b.cap ≤ c.addr ∨ c.addr + 12 + c.cap ≤ b.addr := by
  by_cases he : b = c
  · exact Or.inl he
  · have hsymm : Std.Symm fun b c : Block =>
        b.addr + 12 + b.cap ≤ c.addr ∨ c.addr + 12 + c.cap ≤ b.addr :=
      ⟨fun _ _ h => h.symm⟩
    have hp : blocks.Pairwise fun b c : Block =>
        b.addr + 12 + b.cap ≤ c.addr ∨ c.addr + 12 + c.cap ≤ b.addr :=
      h.pairwise.imp fun hbc => Or.inl hbc
    exact Or.inr (hp.forall hb hc he)

theorem Laid.eq_of_addr {blocks : List Block} (h : Laid blocks) {b c : Block} (hb : b ∈ blocks)
    (hc : c ∈ blocks) (ha : b.addr = c.addr) : b = c := by
  rcases h.apart hb hc with he | hlt | hlt
  · exact he
  · omega
  · omega

/-- A byte of a payload lies in no header. -/
theorem Laid.header_apart {blocks : List Block} (h : Laid blocks) {b c : Block} (hb : b ∈ blocks)
    (hc : c ∈ blocks) {x : Nat} (hlo : b.data ≤ x) (hhi : x < b.data + b.cap) :
    x < c.addr ∨ c.addr + 8 ≤ x := by
  rw [Block.data] at hlo hhi
  rcases h.apart hb hc with rfl | hlt | hlt
  · omega
  · omega
  · omega

theorem Laid.tail {b : Block} {rest : List Block} (h : Laid (b :: rest)) : Laid rest :=
  ⟨h.follows.tail, fun c hc => h.placed c (List.mem_cons_of_mem b hc)⟩

theorem Laid.left {l l' : List Block} (h : Laid (l ++ l')) : Laid l :=
  ⟨(List.isChain_append.mp h.follows).1, fun c hc => h.placed c (List.mem_append_left l' hc)⟩

/-- A list of `n` blocks takes at least twelve bytes for each. -/
theorem Laid.length_le : ∀ {blocks : List Block}, Laid blocks → 12 * blocks.length ≤ heapSize + 4
  | [], _ => by simp
  | b :: rest, h => by
    have hlast : ∀ (l : List Block) (c : Block), Laid (c :: l) →
        c.addr + 12 * (l.length + 1) ≤ heapLimit + 4 := by
      intro l
      induction l with
      | nil =>
        intro c hc
        have := (hc.placed c List.mem_cons_self).high
        simp only [List.length_nil]
        omega
      | cons d l ih =>
        intro c hc
        have hd := ih d hc.tail
        have hpast := (List.isChain_cons_cons.mp hc.follows).1.past
        simp only [List.length_cons] at hd ⊢
        omega
    have hsum : heapLimit = heapBegin + heapSize := rfl
    have hlow := (h.placed b List.mem_cons_self).low
    have hall := hlast rest b h
    simp only [List.length_cons]
    omega

/-! ## Links in memory -/

theorem headAddr_append (stop : Nat) (l l' : List Block) :
    headAddr stop (l ++ l') = headAddr (headAddr stop l') l := by
  cases l with
  | nil => rfl
  | cons b l => rfl

theorem headAddr_map_mark (stop a : Nat) (u : Bool) (blocks : List Block) :
    headAddr stop (blocks.map (Block.mark a u)) = headAddr stop blocks := by
  cases blocks with
  | nil => rfl
  | cons b rest => exact b.mark_addr a u

theorem linked_append {m : Mem} {stop : Nat} {l l' : List Block} :
    Linked m stop (l ++ l') ↔ Linked m (headAddr stop l') l ∧ Linked m stop l' := by
  induction l with
  | nil => simp [Linked]
  | cons b l ih => simp only [List.cons_append, Linked, headAddr_append, ih, and_assoc]

/-- The list is in the two words of each header. -/
theorem Linked.of_words {m m' : Mem} {stop : Nat} {blocks : List Block} (h : Linked m stop blocks)
    (hm : ∀ b ∈ blocks, next m' b.addr = next m b.addr ∧ size m' b.addr = size m b.addr) :
    Linked m' stop blocks := by
  induction blocks with
  | nil => trivial
  | cons b rest ih =>
    obtain ⟨hnext, hsize, hrest⟩ := h
    obtain ⟨hnext', hsize'⟩ := hm b List.mem_cons_self
    exact ⟨hnext'.trans hnext, hsize'.trans hsize,
      ih hrest fun c hc => hm c (List.mem_cons_of_mem b hc)⟩

theorem Linked.congr {m m' : Mem} {stop : Nat} {blocks : List Block} (h : Linked m stop blocks)
    (hm : ∀ b ∈ blocks, Agree m m' b.addr (b.addr + 8)) : Linked m' stop blocks := by
  refine h.of_words fun b hb => ⟨?_, ?_⟩
  · exact read32_congr ((hm b hb).mono (by omega) (by omega))
  · exact read32_congr ((hm b hb).mono (by omega) (by omega))

theorem Linked.size_eq {m : Mem} {stop : Nat} {blocks : List Block} (h : Linked m stop blocks)
    {b : Block} (hb : b ∈ blocks) : size m b.addr = b.word := by
  induction blocks with
  | nil => exact absurd hb List.not_mem_nil
  | cons c rest ih =>
    rcases List.mem_cons.mp hb with rfl | hb
    · exact h.2.1
    · exact ih h.2.2 hb

/-- Storing a new flag in one header sets the flag of that block and of no
other. -/
theorem Linked.setSize {m : Mem} {stop a v : Nat} {u : Bool} {blocks : List Block}
    (h : Linked m stop blocks)
    (hself : ∀ b ∈ blocks, b.addr = a → (b.mark a u).word = v % 2 ^ 32)
    (hother : ∀ b ∈ blocks, b.addr ≠ a → b.addr + 8 ≤ a ∨ a + 8 ≤ b.addr) :
    Linked (setSize m a v) stop (blocks.map (Block.mark a u)) := by
  induction blocks with
  | nil => trivial
  | cons b rest ih =>
    obtain ⟨hnext, hsize, hrest⟩ := h
    have hrest' := ih hrest (fun c hc => hself c (List.mem_cons_of_mem b hc))
      (fun c hc => hother c (List.mem_cons_of_mem b hc))
    refine ⟨?_, ?_, hrest'⟩
    · rw [headAddr_map_mark, ← hnext, Block.mark_addr]
      apply read32_write32_of_disjoint
      by_cases ha : b.addr = a
      · omega
      · have hfar := hother b List.mem_cons_self ha
        omega
    · rw [Block.mark_addr]
      by_cases ha : b.addr = a
      · rw [hself b List.mem_cons_self ha, ← ha]
        exact read32_write32_self m (b.addr + 4) v
      · have hfar := hother b List.mem_cons_self ha
        rw [Block.mark_of_ne ha, ← hsize]
        exact read32_write32_of_disjoint (by omega)

/-! ## The last block -/

@[simp] theorem lastAddr_append_singleton (l : List Block) (b : Block) :
    lastAddr (l ++ [b]) = b.addr := by
  simp [lastAddr]

theorem lastAddr_map_mark (a : Nat) (u : Bool) (blocks : List Block) :
    lastAddr (blocks.map (Block.mark a u)) = lastAddr blocks := by
  rcases List.eq_nil_or_concat blocks with rfl | ⟨l, b, rfl⟩
  · rfl
  · rw [List.concat_eq_append, List.map_append, List.map_singleton,
      lastAddr_append_singleton, lastAddr_append_singleton, Block.mark_addr]

theorem Laid.map_mark {a : Nat} {u : Bool} {blocks : List Block} (h : Laid blocks) :
    Laid (blocks.map (Block.mark a u)) where
  follows := by
    rw [List.isChain_map]
    refine h.follows.imp fun b c hbc => ⟨?_, ?_⟩
    · rw [Block.mark_addr, Block.mark_addr, Block.mark_cap]
      exact hbc.past
    · rw [Block.mark_addr, Block.mark_addr, Block.mark_cap]
      exact hbc.close
  placed := by
    intro c hc
    obtain ⟨b, hb, rfl⟩ := List.mem_map.mp hc
    exact (h.placed b hb).mark

end Heap
end Medusa
