import Medusa.Shell.Parse

/-!
# The loop that splits the arguments

At each space the array of the pointers is grown by one, the space is overwritten and the
new pointer is set behind it.  One round does this as long as the copy of `krealloc` leaves
the headers and the words alone, and a growth that fits the new block does.
-/

namespace Medusa
namespace Shell
namespace Parse

open Machine Kernel Libc Heap Libc.Strtok
open UserStack (StrAt)

/-! ## The array that grows -/

/-- How the growth of the array ends, by the block list alone. -/
inductive Growth where
  | refused
  | overrun
  | done
deriving DecidableEq, Repr

/-- `k` rounds of the loop, with the block of the array and the pointers in it. -/
def growth (blocks : List Block) (argv : Block) (argc : Nat) : Nat → Growth
  | 0 => .done
  | k + 1 =>
    match serve blocks ((argc + 1) * 4) with
    | none => .refused
    | some (b, blocks') =>
      if argv.cap ≤ b.cap then growth (release blocks' argv.addr) b (argc + 1) k else .overrun

/-- A run that ends in this way; a copy past the new block may end anyhow. -/
def Goes {α : Type} (g : Growth) (x : Except Stop α) (P : α → Prop) : Prop :=
  match g with
  | .refused => x = .error .abort
  | .overrun => True
  | .done => ∃ r, x = .ok r ∧ P r

theorem Goes.bind {α β : Type} {g : Growth} {x : Except Stop α} {f : α → Except Stop β}
    {P : α → Prop} {Q : β → Prop} (hx : Goes g x P) (hf : ∀ a, P a → ∃ b, f a = .ok b ∧ Q b) :
    Goes g (x >>= f) Q := by
  cases g with
  | refused =>
    have habort : x = .error .abort := hx
    rw [habort]
    rfl
  | overrun => trivial
  | done =>
    obtain ⟨a, hrun, ha⟩ := hx
    rw [hrun]
    exact hf a ha

/-- The object of an array with `n` pointers. -/
def arrayAt (p n : Nat) : Heap.Live := { ptr := p, align := 4, size := 4 * n }

/-- The loop after some words: the pointers to them are in the array, and the last one is
to the text that is still whole.  Words and text stand one behind the other in `buf`, an
object like `argv`; what else is held is in `rest`. -/
structure Splitting (rest : List Heap.Live) (command : Nat) (first : List (BitVec 8))
    (buf : Heap.Live) (ready : List Word) (text : List (BitVec 8)) (argv : Block)
    (blocks : List Block) (h : State) : Prop where
  invariant : Invariant { heap := h, live := arrayAt argv.data (ready.length + 1) :: buf :: rest }
    blocks
  mem : argv ∈ blocks
  backs : argv.Backs (arrayAt argv.data (ready.length + 1))
  commandHeld : Held rest command (command + first.length + 1)
  command : StrAt h.mem command first
  words : ∀ i w, ready[i]? = some w → StrAt h.mem (read32 h.mem (argv.data + 4 * i)) w.bytes ∧
    buf.ptr ≤ read32 h.mem (argv.data + 4 * i) ∧
    read32 h.mem (argv.data + 4 * i) + w.bytes.length < read32 h.mem (argv.data + 4 * ready.length)
  last : StrAt h.mem (read32 h.mem (argv.data + 4 * ready.length)) text
  low : buf.ptr ≤ read32 h.mem (argv.data + 4 * ready.length)
  high : read32 h.mem (argv.data + 4 * ready.length) + text.length < buf.ptr + buf.size

/-- What the loop leaves. -/
structure Split (command : Nat) (first : List (BitVec 8)) (words : List Word)
    (r : Nat × Nat × State) : Prop where
  argc : r.2.1 = words.length
  command : StrAt r.2.2.mem command first
  argv : ∀ i w, words[i]? = some w → StrAt r.2.2.mem (read32 r.2.2.mem (r.1 + 4 * i)) w.bytes

/-- A word that is copied byte for byte. -/
theorem read32_of_copied {m m' : Mem} {a b : Nat} (h : ∀ i < 4, m' (b + i) = m (a + i)) :
    read32 m' b = read32 m a := by
  have h0 := h 0 (by decide)
  rw [Nat.add_zero, Nat.add_zero] at h0
  rw [read32, read32, h0, h 1 (by decide), h 2 (by decide), h 3 (by decide)]

section Loop

variable {rest : List Heap.Live} {command : Nat} {first : List (BitVec 8)} {buf : Heap.Live}
  {ready : List Word} {argv : Block} {blocks : List Block} {h : State}

/-- Where array and words lie. -/
theorem Splitting.bounds {text : List (BitVec 8)}
    (hs : Splitting rest command first buf ready text argv blocks h) :
    heapBegin ≤ argv.data ∧ argv.data + 4 * (ready.length + 1) ≤ heapLimit ∧
      heapBegin ≤ buf.ptr ∧ buf.ptr + buf.size ≤ heapLimit ∧
      (argv.data + 4 * (ready.length + 1) ≤ buf.ptr ∨ buf.ptr + buf.size ≤ argv.data) := by
  have hclient : Client h (arrayAt argv.data (ready.length + 1) :: buf :: rest) :=
    ⟨blocks, hs.invariant⟩
  obtain ⟨hlow, hhigh, -⟩ := hclient.within List.mem_cons_self
  obtain ⟨hlow', hhigh', -⟩ := hclient.within (List.mem_cons_of_mem _ List.mem_cons_self)
  have hbuf : Held (buf :: rest) buf.ptr (buf.ptr + buf.size) := held_object List.mem_cons_self
  have hapart := hbuf.apart hclient
  dsimp only [arrayAt] at hlow hhigh hapart
  exact ⟨hlow, hhigh, hlow', hhigh', by omega⟩

theorem Splitting.str {text : List (BitVec 8)} (hnul : 0#8 ∉ text)
    (hs : Splitting rest command first buf ready text argv blocks h) :
    Str h.mem (read32 h.mem (argv.data + 4 * ready.length)) text where
  held := hs.last
  noNul := hnul
  pos := by
    have hbegin : heapBegin = 0xC0400000 := rfl
    have hbounds := hs.bounds
    have hlow := hs.low
    omega
  fits := by
    have hlimit : heapLimit = 0xC2200000 := rfl
    have hbounds := hs.bounds
    have hhigh := hs.high
    omega

/-- The last word. -/
theorem Splitting.finished {w : Word}
    (hs : Splitting rest command first buf ready w.bytes argv blocks h) (fuel : Nat) :
    ∃ r, splitLoop (fuel + 1) argv.data (ready.length + 1) h = .ok r ∧
      Split command first (ready ++ [w]) r := by
  have hlimit : heapLimit = 0xC2200000 := rfl
  have hbounds := hs.bounds
  obtain ⟨delim, hchr, hdelim⟩ := strchr_eq (c := 0x20#8) (by decide) (hs.str w.noNul)
  have hzero : delim = 0 := not_not.mp fun hne => w.noSpace (hdelim.mp hne)
  refine ⟨(argv.data, ready.length + 1, h), ?_, ?_, hs.command, ?_⟩
  · rw [splitLoop, Nat.add_sub_cancel, wrap_of_lt (by omega), hchr, ok_bind, if_pos hzero]
    rfl
  · rw [List.length_append, List.length_singleton]
  · intro i v hi
    rcases Nat.lt_or_ge i ready.length with hlt | hge
    · rw [List.getElem?_append_left hlt] at hi
      exact (hs.words i v hi).1
    · rw [List.getElem?_append_right hge] at hi
      have hlen := (List.getElem?_eq_some_iff.mp hi).1
      rw [List.length_singleton] at hlen
      obtain rfl : i = ready.length := by omega
      rw [Nat.sub_self, List.getElem?_cons_zero, Option.some.injEq] at hi
      rw [← hi]
      exact hs.last

/-- The stores of one round: the pointer to the next word, and the end of this one. -/
def cutAt (m : Mem) (slot delim : Nat) : Mem :=
  Function.update (write32 m slot (delim + 1)) delim 0#8

theorem cutAt_of_ne {m : Mem} {slot delim x : Nat} (hslot : x < slot ∨ slot + 4 ≤ x)
    (hne : x ≠ delim) : cutAt m slot delim x = m x := by
  rw [cutAt, Function.update_of_ne hne]
  exact write32_outside hslot

theorem read32_cutAt {m : Mem} {slot delim : Nat} (hapart : delim < slot ∨ slot + 4 ≤ delim)
    (hdelim : delim + 1 < 2 ^ 32) : read32 (cutAt m slot delim) slot = delim + 1 := by
  have hword := read32_write32_self m slot (delim + 1)
  rw [Nat.mod_eq_of_lt hdelim] at hword
  refine (read32_congr fun x hlo hhi => ?_).trans hword
  exact Function.update_of_ne (by omega) _ _

/-- The array has moved to `b`; the pointers went along and the text stayed. -/
structure Moved (rest : List Heap.Live) (command : Nat) (first : List (BitVec 8))
    (buf : Heap.Live) (n : Nat) (argv b : Block) (blocks' : List Block) (h h' : State) :
    Prop where
  invariant : Invariant { heap := h', live := arrayAt b.data (n + 2) :: buf :: rest } blocks'
  mem : b ∈ blocks'
  backs : b.Backs (arrayAt b.data (n + 2))
  copied : ∀ i < 4 * (n + 1), h'.mem (b.data + i) = h.mem (argv.data + i)
  text : Agree h.mem h'.mem buf.ptr (buf.ptr + buf.size)
  commandHeld : Held rest command (command + first.length + 1)
  command : StrAt h'.mem command first

/-- A copy that fits leaves the first word too. -/
theorem Splitting.moved {text : List (BitVec 8)} {b : Block} {blocks' : List Block} {h' : State}
    (hs : Splitting rest command first buf ready text argv blocks h)
    (hgrown : Regrown h (buf :: rest) ((ready.length + 2) * 4) argv b blocks' h')
    (hfits : argv.cap ≤ b.cap) :
    Moved rest command first buf ready.length argv b (release blocks' argv.addr) h h' := by
  have hroom := hs.backs.room
  dsimp only [arrayAt] at hroom
  have hbuf : Held (buf :: rest) buf.ptr (buf.ptr + buf.size) := held_object List.mem_cons_self
  have hcommand := hs.commandHeld.subset fun o ho => List.mem_cons_of_mem buf ho
  have hout := hbuf.apart_block hgrown.invariant hgrown.mem hgrown.backs
  have hout' := hcommand.apart_block hgrown.invariant hgrown.mem hgrown.backs
  refine ⟨?_, hgrown.mem, ?_, fun i hi => hgrown.copied i (by omega),
    hgrown.keeps _ _ hbuf (by omega), hs.commandHeld, ?_⟩
  · rw [arrayAt, Nat.mul_comm 4]
    exact hgrown.invariant
  · rw [arrayAt, Nat.mul_comm 4]
    exact hgrown.backs
  · exact hs.command.congr (hgrown.keeps _ _ hcommand (by omega))

section Cut

variable {n delim : Nat} {b : Block} {blocks' : List Block} {h' : State}
  (hmoved : Moved rest command first buf n argv b blocks' h h') (hlow : buf.ptr ≤ delim)
  (hhigh : delim < buf.ptr + buf.size)

include hmoved

/-- The array is apart from the words, at its new place too. -/
theorem Moved.apart :
    b.data + 4 * (n + 2) ≤ buf.ptr ∨ buf.ptr + buf.size ≤ b.data := by
  have hclient : Client h' (arrayAt b.data (n + 2) :: buf :: rest) := ⟨_, hmoved.invariant⟩
  have hbuf : Held (buf :: rest) buf.ptr (buf.ptr + buf.size) := held_object List.mem_cons_self
  have harray := hbuf.apart hclient
  dsimp only [arrayAt] at harray
  omega

/-- Of the text only the byte at the cut changes. -/
theorem Moved.cut_text {x : Nat} (hlo : buf.ptr ≤ x) (hhi : x < buf.ptr + buf.size)
    (hne : x ≠ delim) : cutAt h'.mem (b.data + 4 * (n + 1)) delim x = h.mem x := by
  have hapart := hmoved.apart
  rw [cutAt_of_ne (by omega) hne]
  exact hmoved.text x hlo hhi

include hlow hhigh

/-- The pointers to the words that are ready went along. -/
theorem Moved.cut_pointer {j : Nat} (hj : j ≤ n) :
    read32 (cutAt h'.mem (b.data + 4 * (n + 1)) delim) (b.data + 4 * j) =
      read32 h.mem (argv.data + 4 * j) := by
  have hapart := hmoved.apart
  refine read32_of_copied fun i hi => ?_
  rw [cutAt_of_ne (by omega) (by omega), Nat.add_assoc, Nat.add_assoc]
  exact hmoved.copied _ (by omega)

theorem Moved.cut_next :
    read32 (cutAt h'.mem (b.data + 4 * (n + 1)) delim) (b.data + 4 * (n + 1)) = delim + 1 := by
  have hlimit : heapLimit = 0xC2200000 := rfl
  have hapart := hmoved.apart
  have hclient : Client h' (arrayAt b.data (n + 2) :: buf :: rest) := ⟨_, hmoved.invariant⟩
  have hwithin := (hclient.within (List.mem_cons_of_mem _ List.mem_cons_self)).2.1
  exact read32_cutAt (by omega) (by omega)

/-- Both stores go into objects. -/
theorem Moved.cut_invariant :
    Invariant { heap := { h' with mem := cutAt h'.mem (b.data + 4 * (n + 1)) delim }
                live := arrayAt b.data (n + 2) :: buf :: rest } blocks' := by
  have hbuf : Held (buf :: rest) buf.ptr (buf.ptr + buf.size) := held_object List.mem_cons_self
  refine hmoved.invariant.store fun x => ?_
  by_cases hx : x < b.data + 4 * (n + 1) ∨ b.data + 4 * (n + 1) + 4 ≤ x
  · by_cases hne : x = delim
    · exact .inr ((hbuf.mono (by omega) (by omega)).subset fun o ho => List.mem_cons_of_mem _ ho)
    · exact .inl (cutAt_of_ne hx hne)
  · refine .inr ((held_object List.mem_cons_self).mono ?_ ?_)
    · dsimp only [arrayAt]
      omega
    · dsimp only [arrayAt]
      omega

/-- The first word lies outside of both objects. -/
theorem Moved.cut_command :
    StrAt (cutAt h'.mem (b.data + 4 * (n + 1)) delim) command first := by
  have hclient : Client h' (arrayAt b.data (n + 2) :: buf :: rest) := ⟨_, hmoved.invariant⟩
  have hcommand := hmoved.commandHeld.subset fun o ho => List.mem_cons_of_mem buf ho
  have hout := hcommand.apart hclient
  have hout' := hmoved.commandHeld.apart (hclient.forget (List.sublist_cons_self _ _).subperm)
  dsimp only [arrayAt] at hout
  exact hmoved.command.congr fun x hlo hhi => cutAt_of_ne (by omega) (by omega)

end Cut

/-- What one round leaves: the words and the rest of the text are where they were. -/
theorem Splitting.cut {w : Word} {text first' : List (BitVec 8)} {b : Block}
    {blocks' : List Block} {h' : State}
    (hs : Splitting rest command first buf ready (w.bytes ++ 0x20#8 :: text) argv blocks h)
    (hmoved : Moved rest command first' buf ready.length argv b blocks' h h') :
    Splitting rest command first' buf (ready ++ [w]) text b blocks'
      { h' with mem := cutAt h'.mem (b.data + 4 * (ready.length + 1))
                         (read32 h.mem (argv.data + 4 * ready.length) + w.bytes.length) } := by
  have hlow := hs.low
  have hhigh := hs.high
  have hlast := hs.last
  rw [List.length_append, List.length_cons] at hhigh
  generalize hp : read32 h.mem (argv.data + 4 * ready.length) = p at *
  have hcut : buf.ptr ≤ p + w.bytes.length := by omega
  have hcut' : p + w.bytes.length < buf.ptr + buf.size := by omega
  have hnew := hmoved.cut_next hcut hcut'
  have hlen : (ready ++ [w]).length = ready.length + 1 := by
    rw [List.length_append, List.length_singleton]
  constructor
  case invariant =>
    rw [hlen]
    exact hmoved.cut_invariant hcut hcut'
  case mem => exact hmoved.mem
  case backs =>
    rw [hlen]
    exact hmoved.backs
  case commandHeld => exact hmoved.commandHeld
  case command => exact hmoved.cut_command hcut hcut'
  case words =>
    intro i v hi
    rw [hlen, hnew]
    rcases Nat.lt_or_ge i ready.length with hlt | hge
    · rw [List.getElem?_append_left hlt] at hi
      obtain ⟨hstr, hfrom, hto⟩ := hs.words i v hi
      rw [hmoved.cut_pointer hcut hcut' hlt.le]
      refine ⟨hstr.congr fun x hlo hhi => hmoved.cut_text ?_ ?_ ?_, hfrom, ?_⟩ <;> omega
    · rw [List.getElem?_append_right hge] at hi
      have hsingle := (List.getElem?_eq_some_iff.mp hi).1
      rw [List.length_singleton] at hsingle
      obtain rfl : i = ready.length := by omega
      rw [Nat.sub_self, List.getElem?_cons_zero, Option.some.injEq] at hi
      rw [hmoved.cut_pointer hcut hcut' (Nat.le_refl _), hp, ← hi]
      refine ⟨fun k hk => ?_, hlow, Nat.lt_succ_self _⟩
      rcases hk.lt_or_eq with hlt | rfl
      · dsimp only
        rw [hmoved.cut_text (by omega) (by omega) (by omega),
          hlast k (by rw [List.length_append]; omega), List.getD_append _ _ _ _ hlt]
      · dsimp only
        rw [cutAt, Function.update_self, List.getD_eq_default _ _ (Nat.le_refl _)]
  case last =>
    rw [hlen, hnew]
    intro k hk
    dsimp only
    rw [hmoved.cut_text (by omega) (by omega) (by omega),
      show p + w.bytes.length + 1 + k = p + (w.bytes.length + 1 + k) by omega,
      hlast _ (by rw [List.length_append, List.length_cons]; omega),
      List.getD_append_right _ _ _ _ (by omega),
      show w.bytes.length + 1 + k - w.bytes.length = k + 1 by omega, List.getD_cons_succ]
  case low =>
    rw [hlen, hnew]
    omega
  case high =>
    rw [hlen, hnew]
    omega

/-- The heap after `krealloc` has copied the block of the array to `b`. -/
def regrown (h₁ : State) (argv b : Block) : State :=
  kfree { h₁ with mem := memcpy h₁.mem b.data argv.data argv.cap } argv.data

/-- One round: where the copy does no harm to the text, it is cut at its first space. -/
theorem Splitting.round {w : Word} {text : List (BitVec 8)} (hnul : 0#8 ∉ text)
    (hcount : ready.length < 300)
    (hs : Splitting rest command first buf ready (w.bytes ++ 0x20#8 :: text) argv blocks h)
    (fuel : Nat) :
    (serve blocks ((ready.length + 2) * 4) = none ∧
      splitLoop (fuel + 1) argv.data (ready.length + 1) h = .error .abort) ∨
    ∃ b blocks' h₁, serve blocks ((ready.length + 2) * 4) = some (b, blocks') ∧
      Obtained h (arrayAt argv.data (ready.length + 1) :: buf :: rest) blocks 4
        ((ready.length + 2) * 4) b blocks' h₁ ∧
      ∀ first', Moved rest command first' buf ready.length argv b (release blocks' argv.addr) h
          (regrown h₁ argv b) → ∃ h',
        splitLoop (fuel + 1) argv.data (ready.length + 1) h =
          splitLoop fuel b.data (ready.length + 2) h' ∧
        Splitting rest command first' buf (ready ++ [w]) text b (release blocks' argv.addr) h' := by
  have hlimit : heapLimit = 0xC2200000 := rfl
  have hsizes : heapSize = 0x1E00000 := rfl
  have hbounds := hs.bounds
  have hhigh := hs.high
  rw [List.length_append, List.length_cons] at hhigh
  have hwhole : 0#8 ∉ w.bytes ++ 0x20#8 :: text := by
    rw [List.mem_append, List.mem_cons]
    rintro (hword | hspace | htext)
    · exact w.noNul hword
    · exact absurd hspace (by decide)
    · exact hnul htext
  have hchr := strchr_found (hs.str hwhole) w.noSpace
  have hdelim : read32 h.mem (argv.data + 4 * ready.length) + w.bytes.length ≠ 0 := by
    have hpos := (hs.str hwhole).pos
    omega
  have hloop : splitLoop (fuel + 1) argv.data (ready.length + 1) h =
      krealloc h argv.data ((ready.length + 2) * 4) >>= fun r =>
        splitLoop fuel r.1 (ready.length + 2)
          { r.2 with mem := cutAt r.2.mem (wrap (r.1 + 4 * (ready.length + 1)))
                              (read32 h.mem (argv.data + 4 * ready.length) + w.bytes.length) } := by
    rw [splitLoop, Nat.add_sub_cancel, wrap_of_lt (by omega), hchr, ok_bind, if_neg hdelim,
      wrap_of_lt (show (ready.length + 1 + 1) * 4 < 2 ^ 32 by omega),
      wrap_of_lt (show read32 h.mem (argv.data + 4 * ready.length) + w.bytes.length + 1 < 2 ^ 32
        by omega)]
    rfl
  rw [hloop]
  rcases hs.invariant.regrow hs.mem hs.backs (show (ready.length + 2) * 4 ≠ 0 by omega) (by omega)
    with ⟨hnone, habort⟩ | ⟨b, blocks', h₁, halloc, hgot, hrun⟩
  · refine .inl ⟨hnone, ?_⟩
    rw [show krealloc h argv.data ((ready.length + 2) * 4) = _ from habort]
    rfl
  · refine .inr ⟨b, blocks', h₁, halloc, hgot, fun first' hmoved => ?_⟩
    have hcut := hs.cut hmoved
    have hbound := hcut.bounds
    rw [List.length_append, List.length_singleton] at hbound
    refine ⟨_, ?_, hcut⟩
    rw [show krealloc h argv.data ((ready.length + 2) * 4) = _ from hrun, ok_bind,
      wrap_of_lt (by omega), regrown]

/-- The whole loop. -/
theorem Splitting.goes {w : Word} {ws : List Word}
    (hs : Splitting rest command first buf ready (w.bytes ++ spaced ws) argv blocks h)
    (hcount : ready.length + ws.length < 300) {fuel : Nat} (hfuel : ws.length < fuel) :
    Goes (growth blocks argv (ready.length + 1) ws.length)
      (splitLoop fuel argv.data (ready.length + 1) h) (Split command first (ready ++ w :: ws)) := by
  induction ws generalizing w ready argv blocks h fuel with
  | nil =>
    obtain ⟨fuel, rfl⟩ := Nat.exists_eq_add_of_lt hfuel
    rw [spaced, List.append_nil] at hs
    exact hs.finished _
  | cons w' ws ih =>
    obtain ⟨fuel, rfl⟩ := Nat.exists_eq_add_of_lt hfuel
    rw [List.length_cons] at hcount ⊢
    rw [spaced] at hs
    rw [growth]
    rcases hs.round (noNul_append_spaced w' ws) (by omega) (ws.length + 1 + fuel) with
      ⟨hnone, habort⟩ | ⟨b, blocks', h₁, halloc, hgot, hround⟩
    · rw [hnone]
      exact habort
    · rw [halloc]
      by_cases hfits : argv.cap ≤ b.cap
      · have hmoved := hs.moved (hgot.regrown_of_fits hs.mem hs.backs hfits) hfits
        obtain ⟨h', hrun, hs'⟩ := hround first hmoved
        have hrest := ih hs' (by rw [List.length_append, List.length_singleton]; omega)
          (show ws.length < ws.length + 1 + fuel by omega)
        rw [List.length_append, List.length_singleton, List.append_assoc] at hrest
        simp only [if_pos hfits]
        rw [hrun]
        exact hrest
      · simp only [if_neg hfits]
        trivial

end Loop

end Parse
end Shell
end Medusa
