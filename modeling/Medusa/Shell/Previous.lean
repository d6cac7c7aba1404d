import Medusa.Shell.Outcome

/-!
# What was in the heap before

Two heaps on which the parser gets a line wrong.  In one the array moves to a small block in
front of the command, and the copy of the old block goes on into the command.  In the other
the empty block of a line with one word holds an old string.
-/

namespace Medusa
namespace Shell
namespace Parse

open Machine Kernel Libc Heap Libc.Strtok
open UserStack (StrAt)

/-! ## A copy past the new block -/

/-- The first growth of the array is from a block of 24 bytes to one of 8 in front of the
command.  Where the copy meets the header of the command's block the old block holds the
same words, and behind them a null byte. -/
structure Overrun (m : Mem) (argv b c : Block) (blocks' : List Block) : Prop where
  cap : argv.cap = 24
  before : argv.data + 24 ≤ b.addr
  behind : c.addr = b.addr + 20
  link : ∃ pre d post, blocks' = pre ++ c :: d :: post ∧ read32 m (argv.data + 12) = d.addr
  size : read32 m (argv.data + 16) = c.word
  nul : m (argv.data + 20) = 0#8

section Copy

variable {h h₁ : State} {o : Heap.Live} {live : List Heap.Live} {blocks blocks' : List Block}
  {argv b c : Block}

theorem Overrun.mem {m : Mem} (hover : Overrun m argv b c blocks') : c ∈ blocks' := by
  obtain ⟨pre, d, post, rfl, -⟩ := hover.link
  exact List.mem_append_right pre List.mem_cons_self

/-- The copy leaves every header what it was. -/
theorem Overrun.words (hover : Overrun h.mem argv b c blocks')
    (hgot : Obtained h (o :: live) blocks 4 8 b blocks' h₁) (hold : argv ∈ blocks)
    (hback : argv.Backs o) {e : Block} (he : e ∈ blocks') :
    next (memcpy h₁.mem b.data argv.data argv.cap) e.addr = next h₁.mem e.addr ∧
      Heap.size (memcpy h₁.mem b.data argv.data argv.cap) e.addr = Heap.size h₁.mem e.addr := by
  have hcap := hover.cap
  have hbefore := hover.before
  have hbehind := hover.behind
  have hold' := (hgot.allocated.keeps hold hback.used).1
  have hlaid := hgot.rep.laid
  have hlinked := hgot.rep.linked
  by_cases hsame : e = c
  · -- the words of the command's header come from the old block
    subst hsame
    have hword : ∀ k, k + 4 ≤ 24 → read32 (memcpy h₁.mem b.data argv.data argv.cap) (b.data + k) =
        read32 h.mem (argv.data + k) := by
      refine fun k hk => read32_of_copied fun i hi => ?_
      rw [Nat.add_assoc, Nat.add_assoc, memcpy_apply (by simp only [Block.data] at hbefore ⊢; omega)
        (by omega)]
      exact hgot.headers _ fun d hd => hlaid.header_apart hold' hd (Nat.le_add_right _ _) (by omega)
    obtain ⟨pre, d, post, hlist, hlink⟩ := hover.link
    have hnext := hlinked
    rw [hlist, linked_append] at hnext
    have hmem : e ∈ blocks' := hover.mem
    constructor
    · rw [next, next, hbehind, show b.addr + 20 = b.data + 12 by rw [Block.data],
        hword 12 (by decide), hlink]
      have hfrom : next h₁.mem e.addr = d.addr := hnext.2.1
      rw [next, hbehind] at hfrom
      exact hfrom.symm
    · rw [Heap.size, Heap.size, hbehind, show b.addr + 20 + 4 = b.data + 16 by rw [Block.data],
        hword 16 (by decide), hover.size]
      have hfrom := hlinked.size_eq hmem
      rw [Heap.size, hbehind] at hfrom
      exact hfrom.symm
  · have hout : Agree h₁.mem (memcpy h₁.mem b.data argv.data argv.cap) e.addr (e.addr + 8) := by
      intro x hlo hhi
      refine memcpy_outside ?_
      rw [Block.data]
      rcases hlaid.apart he hover.mem with heq | hlt | hlt
      · exact absurd heq hsame
      · rcases hlaid.apart he hgot.allocated.mem with rfl | hlt' | hlt' <;> omega
      · omega
    constructor
    · exact read32_congr (hout.mono (by omega) (by omega))
    · exact read32_congr (hout.mono (by omega) (by omega))

end Copy

section Loop

variable {rest : List Heap.Live} {first text : List (BitVec 8)} {buf : Heap.Live} {w : Word}
  {argv b c : Block} {blocks blocks' : List Block} {h : State}

/-- The command is lost, and nothing else. -/
theorem Splitting.moved_of_overrun {h₁ : State} (hcopy : copyOf c.data ∈ rest)
    (hs : Splitting rest c.data first buf [] text argv blocks h)
    (hgot : Obtained h (arrayAt argv.data 1 :: buf :: rest) blocks 4 8 b blocks' h₁)
    (hover : Overrun h.mem argv b c blocks') :
    Moved rest c.data [] buf 0 argv b (release blocks' argv.addr) h (regrown h₁ argv b) := by
  have hcap := hover.cap
  have hbefore := hover.before
  have hbehind := hover.behind
  have hgrown := hgot.regrown hs.mem hs.backs (fun e he => hover.words hgot hs.mem hs.backs he)
    (by omega)
  have hbuf : Held (buf :: rest) buf.ptr (buf.ptr + buf.size) := held_object List.mem_cons_self
  have hout : buf.ptr + buf.size ≤ b.data ∨ b.data + argv.cap ≤ buf.ptr := by
    obtain ⟨d, hd, hback⟩ := hgrown.invariant.backed buf (List.mem_cons_of_mem _ List.mem_cons_self)
    have hroom := hback.room
    have hptr := hback.ptr
    have hmem : c ∈ release blocks' argv.addr :=
      List.mem_map.mpr ⟨c, hover.mem, Block.mark_of_ne (by rw [Block.data] at hbefore; omega)⟩
    have hne : buf.ptr ≠ c.data :=
      (List.pairwise_cons.mp (List.pairwise_cons.mp hs.invariant.distinct).2).1 _ hcopy
    have hside := hbuf.apart_block hgrown.invariant hgrown.mem hgrown.backs
    have hlaid := hgrown.invariant.rep.laid
    rw [Block.data] at hptr hside
    rw [Block.data]
    rcases hlaid.apart hd hmem with rfl | hlt | hlt
    · exact absurd hback.ptr hne
    · rcases hlaid.apart hd hgrown.mem with rfl | hlt' | hlt' <;> omega
    · omega
  refine ⟨hgrown.invariant, hgrown.mem, hgrown.backs, fun i hi => hgrown.copied i (by omega),
    hgrown.keeps _ _ hbuf hout, ?_, ?_⟩
  · refine (held_object hcopy).mono (Nat.le_refl _) ?_
    dsimp only [copyOf]
    rw [List.length_nil]
    omega
  · intro i hi
    obtain rfl : i = 0 := Nat.le_zero.mp hi
    have hnul := hgrown.copied 20 (by omega)
    rw [hover.nul, show b.data + 20 = c.data by rw [Block.data, Block.data, hbehind]] at hnul
    exact hnul

end Loop

/-! ## Heaps to start from -/

/-- Blocks of these sizes, one behind the other. -/
def row (addr : Nat) : List (Nat × Bool) → List Block
  | [] => []
  | (cap, used) :: rest => { addr := addr, cap := cap, used := used } :: row (addr + 12 + cap) rest

theorem row_laid {addr : Nat} {caps : List (Nat × Bool)} (hlow : heapBegin ≤ addr)
    (halign : addr % 4 = 0) (hwords : ∀ p ∈ caps, p.1 % 4 = 0)
    (hhigh : addr + (caps.map fun p => 12 + p.1).sum ≤ heapLimit) : Laid (row addr caps) := by
  induction caps generalizing addr with
  | nil => exact ⟨List.isChain_nil, fun b hb => absurd hb List.not_mem_nil⟩
  | cons p caps ih =>
    have hp := hwords p List.mem_cons_self
    rw [List.map_cons, List.sum_cons] at hhigh
    have hrest := @ih (addr + 12 + p.1) (by omega) (by omega)
      (fun q hq => hwords q (List.mem_cons_of_mem p hq)) (by omega)
    constructor
    · rw [row, List.isChain_cons]
      refine ⟨fun b hb => ?_, hrest.follows⟩
      cases caps with
      | nil => exact absurd hb (Option.not_mem_none b)
      | cons q caps =>
        obtain rfl := (Option.mem_some_iff.mp hb).symm
        exact ⟨Nat.le_refl _, Nat.le_add_right _ 16⟩
    · intro b hb
      rcases List.mem_cons.mp hb with rfl | hb
      · exact ⟨hlow, halign, hp, by dsimp only; omega⟩
      · exact hrest.placed b hb

/-- Requests are rounded up to units of eight bytes. -/
theorem serve_units (blocks : List Block) {size : Nat} (hsize : size < 301) :
    serve blocks size = serve blocks (8 * ((size + 7) / 8)) := by
  have hlt := roundUp_lt size (show 0 < 8 by decide)
  have hround : roundUp (8 * ((size + 7) / 8)) 8 = roundUp size 8 := by
    rw [roundUp, roundUp]
    omega
  rw [serve, serve, alignTo_eq (by decide) (by omega), alignTo_eq (by decide) (by omega), hround]

theorem supply_units (blocks : List Block) {size : Nat} (hsize : size < 301) :
    supply blocks size = supply blocks (8 * ((size + 7) / 8)) := by
  simp only [supply, serve_units _ hsize]

/-- Memory with the line in it, and `stale` in the heap. -/
def typedMem (im : Image) (line : Line) (stale : Mem) (x : Nat) : BitVec 8 :=
  if heapBegin ≤ x then stale x
  else if im.lineCli ≤ x ∧ x < im.lineCli + 300 then line.bytes.getD (x - im.lineCli) 0#8
  else if x = im.space then 0x20#8
  else 0#8

theorem typed_typedMem (im : Image) (line : Line) (stale : Mem) :
    Typed im line (typedMem im line stale) := by
  have hlineEnd := im.lineCli_end
  have hspaceEnd := im.space_end
  have hapart := im.apart
  have hshort : line.bytes.length < 300 := line.short
  constructor
  · intro i hi
    rw [typedMem, if_neg (by omega), if_pos (by omega), Nat.add_sub_cancel_left]
  · intro i hi
    rw [List.length_singleton] at hi
    rw [typedMem, if_neg (by omega), if_neg (by omega)]
    rcases Nat.le_one_iff_eq_zero_or_eq_one.mp hi with rfl | rfl
    · exact if_pos rfl
    · exact if_neg (by omega)

/-- A heap for the line, with any blocks and any bytes in them. -/
theorem exists_typed (im : Image) (line : Line) {blocks : List Block} (hlaid : Laid blocks)
    (stale : Mem) :
    ∃ h, Rep h blocks ∧ Typed im line h.mem ∧
      ∀ x, heapBegin ≤ x → Clear blocks x → h.mem x = stale x := by
  obtain ⟨h, hrep, honly⟩ := exists_rep hlaid (typedMem im line stale)
  refine ⟨h, hrep, ?_, fun x hx hclear => ?_⟩
  · refine (typed_typedMem im line stale).congr fun x hx => honly x fun b hb => .inl ?_
    exact hx.trans_le (hlaid.placed b hb).low
  · rw [honly x hclear, typedMem, if_pos hx]

/-! ## An old block in the way -/

theorem growth_done_of_le {blocks : List Block} {argv : Block} {argc j k : Nat} (hle : j ≤ k)
    (hdone : growth blocks argv argc k = .done) : growth blocks argv argc j = .done := by
  induction j generalizing blocks argv argc k with
  | zero => rfl
  | succ j ih =>
    obtain ⟨k, rfl⟩ := Nat.exists_eq_add_of_lt hle
    rw [growth] at hdone ⊢
    cases halloc : serve blocks ((argc + 1) * 4) with
    | none =>
      rw [halloc] at hdone
      cases hdone
    | some r =>
      rw [halloc] at hdone
      dsimp only at hdone ⊢
      by_cases hfits : argv.cap ≤ r.1.cap
      · rw [if_pos hfits] at hdone ⊢
        exact ih (by omega) hdone
      · rw [if_neg hfits] at hdone
        cases hdone

/-- A heap for arguments that take up to 24 bytes with their terminator, or more. -/
def tight (small : Bool) : List Block :=
  row heapBegin [(0, true), (24, !small), (24, !small), (24, false), (8, false), (304, false),
    (24, false), (304, false), (304, false), (1200, false), (1200, false)]

/-- The list when the array has its first block. -/
def tightServed (small : Bool) : List Block :=
  row heapBegin [(0, true), (24, true), (24, true), (24, true), (8, false), (304, true),
    (24, false), (304, !small), (304, !small), (1200, false), (1200, false)]

/-- And when it has its second. -/
def tightGrown (small : Bool) : List Block :=
  row heapBegin [(0, true), (24, true), (24, true), (24, true), (8, true), (304, true),
    (24, false), (304, !small), (304, !small), (1200, false), (1200, false)]

def tightCopy : Block := { addr := 0xC040008C, cap := 304, used := true }

def tightArgv (second : Bool) : Block :=
  if second then { addr := 0xC0400078, cap := 8, used := true }
  else { addr := 0xC0400054, cap := 24, used := true }

def tightSupply (small : Bool) : Supply where
  copy := tightCopy
  args := if small then { addr := 0xC040000C, cap := 24, used := true }
    else { addr := 0xC04001EC, cap := 304, used := true }
  buf := if small then { addr := 0xC0400030, cap := 24, used := true }
    else { addr := 0xC0400328, cap := 304, used := true }
  argv := tightArgv false
  blocks := tightServed small

theorem tight_laid (small : Bool) : Laid (tight small) := by
  refine row_laid (Nat.le_refl _) (by decide) ?_ ?_ <;> cases small <;> decide

theorem tight_supply {size : Nat} (hpos : 0 < size) (hsize : size < 301) :
    supply (tight (decide (size ≤ 24))) size = some (tightSupply (decide (size ≤ 24))) := by
  have hunits : ∀ k < 39, 0 < k →
      supply (tight (decide (k ≤ 3))) (8 * k) = some (tightSupply (decide (k ≤ 3))) := by
    decide +kernel
  have hsmall : (size ≤ 24) = ((size + 7) / 8 ≤ 3) := propext (by omega)
  rw [supply_units _ hsize]
  simp only [hsmall]
  exact hunits _ (by omega) (by omega)

theorem tight_serve (small : Bool) :
    serve (tightServed small) 8 = some (tightArgv true, tightGrown small) := by
  cases small <;> decide

theorem tight_growth (small : Bool) :
    growth (release (tightGrown small) (tightArgv false).addr) (tightArgv true) 2 150 = .done := by
  cases small <;> decide +kernel

/-- The header of the command's block once more, in the block of the array. -/
def overlay : Mem := write32 (write32 (fun _ => 0#8) 0xC0400068 0xC04001C8) 0xC040006C 305

theorem tight_overrun (small : Bool) {m : Mem}
    (hm : ∀ x, 0xC0400068 ≤ x → x < 0xC0400074 → m x = overlay x) :
    Overrun m (tightArgv false) (tightArgv true) tightCopy (tightGrown small) where
  cap := rfl
  before := by decide
  behind := rfl
  link := by
    refine ⟨(tightGrown small).take 5, { addr := 0xC04001C8, cap := 24, used := false },
      (tightGrown small).drop 7, by cases small <;> rfl, ?_⟩
    calc read32 m 0xC0400068 = read32 overlay 0xC0400068 :=
          read32_congr fun x hlo hhi => hm x (by omega) (by omega)
      _ = 0xC04001C8 := by
          rw [overlay, read32_write32_of_disjoint (by omega), read32_write32_self]
          rfl
  size := by
    calc read32 m 0xC040006C = read32 overlay 0xC040006C :=
          read32_congr fun x hlo hhi => hm x (by omega) (by omega)
      _ = 305 := by
          rw [overlay, read32_write32_self]
          rfl
  nul := by
    calc m 0xC0400070 = overlay 0xC0400070 := hm _ (by omega) (by omega)
      _ = 0#8 := (write32_outside (by omega)).trans (write32_outside (by omega))

/-- From two arguments on the command can be lost. -/
theorem not_parses_of_many {im : Image} {line : Line} {w w' : Word} {ws : List Word}
    (hargs : line.args = w :: w' :: ws) : ¬ Parses im line := by
  intro hparses
  have hshort := line.short
  have hcount := line.args_lt
  rw [hargs, spaced, List.length_append, List.length_cons] at hshort
  rw [hargs, List.length_cons, List.length_cons] at hcount
  have hserved := @tight_supply ((w.bytes ++ spaced (w' :: ws)).length + 1) (by omega) (by omega)
  generalize hsmall : decide ((w.bytes ++ spaced (w' :: ws)).length + 1 ≤ 24) = small at hserved
  obtain ⟨h, hrep, htyped, hstale⟩ := exists_typed im line (tight_laid small) overlay
  rcases parse_started hargs hrep htyped 0 with ⟨hnone, -⟩ | ⟨s, h', hsupply, hrun, hstarted⟩
  · exact absurd (hserved.symm.trans hnone) (Option.some_ne_none _)
  obtain rfl := Option.some.inj (hserved.symm.trans hsupply)
  have hs := hstarted.splitting
  have hkept : ∀ x, 0xC0400068 ≤ x → x < 0xC0400074 → h'.mem x = overlay x := by
    intro x hlo hhi
    have hx : 0xC040005C ≤ x := by omega
    have hx' : x < 0xC040005C + 24 := by omega
    have hfree : (⟨0xC0400054, 24, false⟩ : Block) ∈ tight small := by cases small <;> decide
    have hsides : (x < (tightSupply small).args.data ∨
        (tightSupply small).args.data + ((w.bytes ++ spaced (w' :: ws)).length + 1) ≤ x) ∧
        (x < (tightSupply small).buf.data ∨
        (tightSupply small).buf.data + ((w.bytes ++ spaced (w' :: ws)).length + 1) ≤ x) := by
      cases small with
      | true =>
        have hsize := of_decide_eq_true hsmall
        exact ⟨.inr (show 0xC0400014 + _ ≤ x by omega), .inr (show 0xC0400038 + _ ≤ x by omega)⟩
      | false =>
        exact ⟨.inl (show x < 0xC04001F4 by omega), .inl (show x < 0xC0400330 by omega)⟩
    refine (hstarted.frame x ?_ ?_ hsides.1 hsides.2 ?_).trans (hstale x ?_ ?_)
    · exact fun c hc => hs.invariant.rep.laid.header_apart hs.mem hc hx hx'
    · exact .inl (show x < 0xC0400094 by omega)
    · exact .inr (show 0xC040005C + 4 ≤ x by omega)
    · exact (show heapBegin ≤ 0xC0400068 by decide).trans hlo
    · exact fun c hc => (tight_laid small).header_apart hfree hc hx hx'
  rw [spaced] at hs
  obtain ⟨h₁, hgot, hround⟩ :=
    of_served (hs.round (noNul_append_spaced w' ws) (by decide) (2 ^ 32 - 1)) (tight_serve small)
  obtain ⟨h'', hloop, hs'⟩ := hround [] (hs.moved_of_overrun
    (List.mem_cons_of_mem _ List.mem_cons_self) hgot (tight_overrun small hkept))
  have hgoes := hs'.goes (by rw [List.nil_append, List.length_singleton]; omega)
    (show ws.length < 2 ^ 32 - 1 by omega)
  have hdone : growth (release (tightGrown small) (tightSupply small).argv.addr) (tightArgv true)
      (([] ++ [w]).length + 1) ws.length = .done :=
    growth_done_of_le (by omega) (tight_growth small)
  rw [hdone] at hgoes
  obtain ⟨r, hend, hsplit⟩ := hgoes
  have hparse : parse im 0 h = .ok (finish (tightSupply small).copy.data r) := by
    rw [hrun, show splitLoop (2 ^ 32) (tightSupply small).argv.data 1 h' = _ from hloop]
    rw [show splitLoop (2 ^ 32 - 1) (tightArgv true).data ([].length + 2) h'' = _ from hend]
    rfl
  rcases hparses _ 0 h hrep htyped with habort | ⟨r', hok, hright⟩
  · exact absurd (hparse.symm.trans habort) (by simp)
  · obtain rfl := Except.ok.inj (hparse.symm.trans hok)
    have hpos := List.length_pos_of_ne_nil line.first.nonempty
    exact hright.command.ne_zero line.first.noNul hpos (hsplit.command 0 (Nat.zero_le _))

/-! ## An old string in the empty block -/

/-- Five blocks, the first `n` of them taken. -/
def idle (n : Nat) : List Block :=
  row heapBegin [(0, true), (304, decide (0 < n)), (304, decide (1 < n)), (304, decide (2 < n)),
    (304, decide (3 < n)), (304, decide (4 < n))]

def idleBlock (n : Nat) : Block := { addr := 0xC040000C + 316 * n, cap := 304, used := true }

theorem idle_laid (n : Nat) : Laid (idle n) := by
  refine row_laid (Nat.le_refl _) (by decide) (fun p hp => ?_) ?_
  · simp only [List.mem_cons, List.not_mem_nil, or_false] at hp
    rcases hp with rfl | rfl | rfl | rfl | rfl | rfl <;> simp
  · simp only [List.map_cons, List.map_nil]
    decide

theorem idle_serve {n size : Nat} (hn : n < 5) (hsize : size < 301) :
    serve (idle n) size = some (idleBlock n, idle (n + 1)) := by
  have hunits : ∀ n < 5, ∀ k < 39, serve (idle n) (8 * k) = some (idleBlock n, idle (n + 1)) := by
    decide +kernel
  rw [serve_units _ hsize]
  exact hunits n hn _ (by omega)

theorem idle_clear (n : Nat) {x : Nat} (hlo : 0xC040028C ≤ x) (hhi : x < 0xC040028C + 304) :
    Clear (idle n) x := by
  have hmem : (⟨0xC0400284, 304, decide (2 < n)⟩ : Block) ∈ idle n := by
    simp [idle, row, heapBegin]
  exact fun c hc => (idle_laid n).header_apart hmem hc hlo hhi

/-- The string `A` in the third block. -/
def oldString : Mem := Function.update (fun _ => 0#8) 0xC040028C 0x41#8

def oldWord : Word :=
  { bytes := [0x41#8], nonempty := by decide, noNul := by decide, noSpace := by decide }

theorem idle_supply {size : Nat} (hsize : size < 301) :
    supply (idle 0) size = some { copy := idleBlock 0, args := idleBlock 1, buf := idleBlock 2,
                                  argv := idleBlock 3, blocks := idle 4 } := by
  rw [supply, idle_serve (n := 0) (by decide) (by decide)]
  simp only [Option.bind_eq_bind, Option.bind_some, idle_serve (n := 1) (by decide) hsize,
    idle_serve (n := 2) (by decide) hsize, idle_serve (n := 3) (by decide) (by decide : 4 < 301)]
  rfl

/-- With one argument only the test of its first byte is in the way. -/
theorem first_byte_of_parses {im : Image} {line : Line} {w : Word} (hargs : line.args = [w])
    (hparses : Parses im line) : 7 ≤ (w.bytes.headD 0#8).toInt := by
  have hshort := line.short
  rw [hargs, spaced, List.length_append, List.length_cons] at hshort
  obtain ⟨h, hrep, htyped, -⟩ := exists_typed im line (idle_laid 0) oldString
  have hsupply := @idle_supply ((w.bytes ++ spaced []).length + 1) (by omega)
  rcases parse_goes hargs hrep htyped 0 with ⟨hnone, -⟩ | ⟨s, -, r, hrun, hiff⟩
  · exact absurd (hsupply.symm.trans hnone) (Option.some_ne_none _)
  · rcases hparses _ 0 h hrep htyped with habort | ⟨r', hok, hright⟩
    · exact absurd (hrun.symm.trans habort) (by simp)
    · obtain rfl := Except.ok.inj (hrun.symm.trans hok)
      exact hiff.mp hright

/-- Without arguments the old string is taken for one. -/
theorem old_argument (im : Image) {line : Line} (hargs : line.args = []) :
    ∃ h r, Rep h (idle 0) ∧ Typed im line h.mem ∧ parse im 0 h = .ok r ∧ r.argc = 1 := by
  have hlimit : heapLimit = 0xC2200000 := rfl
  have hshort : line.bytes.length < 300 := line.short
  have hbytes : line.bytes = line.first.bytes := by rw [Line.bytes, hargs, spaced, List.append_nil]
  obtain ⟨h, hrep, htyped, hstale⟩ := exists_typed im line (idle_laid 0) oldString
  obtain ⟨h₁, hrun₁, hfilled₁, hline⟩ := of_served (copyLine_spec (invariant_of_rep hrep) htyped)
    (idle_serve (n := 0) (by decide) (by decide))
  have htyped₁ := typed_of_keeps htyped hfilled₁.keeps
  obtain ⟨h₂, hrun₂, hfilled₂, hcommand⟩ := takeCommand_whole hargs hfilled₁.invariant htyped₁
    hline 0 (idle_serve (n := 1) (by decide) (by omega)) (show _ < 304 by omega)
  have hbounds := Client.within ⟨_, hfilled₂.invariant⟩ List.mem_cons_self
  dsimp only at hbounds
  have hheld : Held [{ ptr := (idleBlock 1).data, align := 4, size := line.bytes.length + 1 },
      copyOf (idleBlock 0).data] (idleBlock 1).data
      ((idleBlock 1).data + line.bytes.length + 1) := held_object List.mem_cons_self
  obtain ⟨h₃, hrun₃, hgot⟩ := takeArgs_none hfilled₂.invariant
    (typed_of_keeps htyped₁ hfilled₂.keeps) hcommand (by omega)
    (idle_serve (n := 2) (by decide) (by decide))
  have hkept : ∀ x, 0xC040028C ≤ x → x < 0xC040028E → h₃.mem x = oldString x := by
    intro x hlo hhi
    have hclear := fun n => @idle_clear n x hlo (by omega)
    calc h₃.mem x = h₂.mem x := hgot.headers x (hclear 3)
      _ = h₁.mem x := hfilled₂.frame x (hclear 2) (.inr (show 0xC0400150 + _ ≤ x by omega))
      _ = h.mem x := hfilled₁.frame x (hclear 1) (.inr (show 0xC0400014 + 300 ≤ x by omega))
      _ = oldString x := hstale x ((show heapBegin ≤ 0xC040028C by decide).trans hlo) (hclear 0)
  have hold : StrAt h₃.mem (idleBlock 2).data oldWord.bytes := by
    intro i hi
    rcases Nat.le_one_iff_eq_zero_or_eq_one.mp hi with rfl | rfl
    · exact (hkept _ (Nat.le_refl _) (by decide)).trans (Function.update_self ..)
    · exact (hkept _ (by decide) (by decide)).trans (Function.update_of_ne (by decide) _ _)
  rcases takeArgv_started (hgot.invariant 2 (by decide)) hold (held_object List.mem_cons_self)
      (by decide) (by decide) (by decide) (hheld.subset fun o ho => List.mem_cons_of_mem _ ho)
      (hcommand.congr (hgot.keeps _ _ hheld)) with
    ⟨hnone, -⟩ | ⟨buf, blocks₄, halloc₄, hrest⟩
  · exact absurd ((idle_serve (n := 3) (by decide) (by decide)).symm.trans hnone)
      (Option.some_ne_none _)
  obtain ⟨rfl, rfl⟩ := Prod.mk.inj (Option.some.inj
    ((idle_serve (n := 3) (by decide) (by decide)).symm.trans halloc₄))
  rcases hrest with ⟨hnone, -⟩ | ⟨argv, blocks₅, h₅, halloc₅, hrun₅, hs, -⟩
  · exact absurd ((idle_serve (n := 4) (by decide) (by decide)).symm.trans hnone)
      (Option.some_ne_none _)
  obtain ⟨r, hloop, hsplit⟩ := hs.finished (w := oldWord) (2 ^ 32 - 1)
  refine ⟨h, finish (idleBlock 1).data r, hrep, htyped, ?_, hsplit.finish_argc⟩
  rw [parse, hrun₁, ok_bind]
  simp only [hrun₂, ok_bind, hrun₃, hrun₅]
  rw [show splitLoop (2 ^ 32) argv.data 1 h₅ = _ from hloop]
  rfl

theorem not_parses_of_none {im : Image} {line : Line} (hargs : line.args = []) :
    ¬ Parses im line := by
  intro hparses
  obtain ⟨h, r, hrep, htyped, hparse, hargc⟩ := old_argument im hargs
  rcases hparses _ 0 h hrep htyped with habort | ⟨r', hok, hright⟩
  · exact absurd (hparse.symm.trans habort) (by simp)
  · obtain rfl := Except.ok.inj (hparse.symm.trans hok)
    rw [hright.argc, hargs] at hargc
    exact absurd hargc (by decide)

/-! ## The lines that are parsed -/

/-- A line is parsed right on every heap just when it has one argument that starts with no
control byte and with no byte that is negative as a `char`. -/
theorem parses_iff (im : Image) (line : Line) :
    Parses im line ↔ ∃ w, line.args = [w] ∧ 7 ≤ (w.bytes.headD 0#8).toInt := by
  constructor
  · intro hparses
    match hargs : line.args with
    | [] => exact absurd hparses (not_parses_of_none hargs)
    | [w] => exact ⟨w, rfl, first_byte_of_parses hargs hparses⟩
    | w :: w' :: ws => exact absurd hparses (not_parses_of_many hargs)
  · rintro ⟨w, hargs, hbyte⟩ blocks nextStart h hrep htyped
    rcases parse_goes hargs hrep htyped nextStart with ⟨-, habort⟩ | ⟨s, -, r, hrun, hiff⟩
    · exact .inl habort
    · exact .inr ⟨r, hrun, hiff.mpr hbyte⟩

def image : Image where
  lineCli := 0xC0100000
  space := 0xC0110000
  lineCli_pos := by decide
  space_pos := by decide
  lineCli_end := by decide
  space_end := by decide
  apart := .inl (by decide)

def date : Line where
  first := { bytes := [0x64#8, 0x61#8, 0x74#8, 0x65#8], nonempty := by decide,
             noNul := by decide, noSpace := by decide }
  args := []
  short := by decide

/-- `date` gets an argument that nobody has typed. -/
theorem date_old_argument :
    (∃ h r, Rep h (idle 0) ∧ Typed image date h.mem ∧ parse image 0 h = .ok r ∧ r.argc = 1) ∧
      ¬ Parses image date :=
  ⟨old_argument image rfl, not_parses_of_none rfl⟩

end Parse
end Shell
end Medusa
