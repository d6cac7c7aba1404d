import Medusa.Shell.Argv

/-!
# What the command parser computes

For a line with arguments the outcome is one of the block list: whether it has room, and
whether the array only moves to blocks as large as its own.
-/

namespace Medusa
namespace Shell
namespace Parse

open Machine Kernel Libc Heap Libc.Strtok
open UserStack (StrAt strdup strdup_filled)

/-! ## Up to the loop -/

/-- The blocks that the list serves to a line with arguments, and the list after them. -/
structure Supply where
  copy : Block
  args : Block
  buf : Block
  argv : Block
  blocks : List Block
deriving DecidableEq

/-- `size` is that of the arguments with their terminator. -/
def supply (blocks : List Block) (size : Nat) : Option Supply := do
  let (copy, blocks) ← serve blocks 300
  let (args, blocks) ← serve blocks size
  let (buf, blocks) ← serve blocks size
  let (argv, blocks) ← serve blocks 4
  return { copy := copy, args := args, buf := buf, argv := argv, blocks := blocks }

/-- `x` is in no header. -/
def Clear (blocks : List Block) (x : Nat) : Prop := ∀ c ∈ blocks, x < c.addr ∨ c.addr + 8 ≤ x

theorem laid_of_serve {blocks blocks' : List Block} {size : Nat} {b : Block} (hlaid : Laid blocks)
    (halloc : serve blocks size = some (b, blocks')) : Laid blocks' := by
  have hmod := alignTo_eight_mod size
  exact (allocated_of_allocate hlaid (by decide) (by decide) (by omega) halloc).laid

theorem Clear.of_serve {blocks blocks' : List Block} {size x : Nat} {b : Block}
    (hclear : Clear blocks' x) (hlaid : Laid blocks)
    (halloc : serve blocks size = some (b, blocks')) : Clear blocks x := by
  intro c hc
  have hmod := alignTo_eight_mod size
  obtain ⟨new, rfl⟩ := (allocated_of_allocate hlaid (by decide) (by decide) (by omega) halloc).grown
  have hmark := hclear (c.mark b.addr true)
    (List.mem_append_left _ (List.mem_map_of_mem (mem_ready hc)))
  rwa [Block.mark_addr] at hmark

/-- The state in front of the loop, for a line with these arguments. -/
structure Started (line : Line) (text : List (BitVec 8)) (h : State) (s : Supply) (h' : State) :
    Prop where
  splitting : Splitting [{ ptr := s.args.data, align := 4, size := text.length + 1 },
    copyOf s.copy.data] s.copy.data line.first.bytes
    { ptr := s.buf.data, align := 4, size := text.length + 1 } [] text s.argv s.blocks h'
  frame : ∀ x, Clear s.blocks x → (x < s.copy.data ∨ s.copy.data + 300 ≤ x) →
    (x < s.args.data ∨ s.args.data + (text.length + 1) ≤ x) →
    (x < s.buf.data ∨ s.buf.data + (text.length + 1) ≤ x) →
    (x < s.argv.data ∨ s.argv.data + 4 ≤ x) → h'.mem x = h.mem x

section Steps

variable {im : Image} {line : Line} {h : State} {blocks : List Block}

/-- The duplicate and the array, for any text that is in memory. -/
theorem takeArgv_started {live : List Heap.Live} {command args : Nat} {first text : List (BitVec 8)}
    (hinv : Invariant { heap := h, live := live } blocks) (htext : StrAt h.mem args text)
    (hargs : Held live args (args + text.length + 1)) (hnul : 0#8 ∉ text)
    (hend : args + text.length < 2 ^ 32) (hshort : text.length < 300)
    (hheld : Held live command (command + first.length + 1))
    (hcommand : StrAt h.mem command first) :
    (serve blocks (text.length + 1) = none ∧ takeArgv command args h = .error .abort) ∨
    ∃ buf blocks₁, serve blocks (text.length + 1) = some (buf, blocks₁) ∧
      ((serve blocks₁ 4 = none ∧ takeArgv command args h = .error .abort) ∨
      ∃ argv blocks₂ h', serve blocks₁ 4 = some (argv, blocks₂) ∧
        takeArgv command args h = (splitLoop (2 ^ 32) argv.data 1 h' >>= fun r =>
          pure (finish command r)) ∧
        Splitting live command first { ptr := buf.data, align := 4, size := text.length + 1 } []
          text argv blocks₂ h' ∧
        ∀ x, Clear blocks₂ x → (x < buf.data ∨ buf.data + (text.length + 1) ≤ x) →
          (x < argv.data ∨ argv.data + 4 ≤ x) → h'.mem x = h.mem x) := by
  have hlimit : heapLimit = 0xC2200000 := rfl
  have hsizes : heapSize = 0x1E00000 := rfl
  rw [takeArgv]
  rcases strdup_filled hinv htext hargs hnul hend (by omega) with
    ⟨hnone, habort⟩ | ⟨buf, blocks₁, h₁, halloc₁, hrun₁, hfilled₁, htext₁⟩
  · refine .inl ⟨hnone, ?_⟩
    rw [habort]
    rfl
  have hbounds := Client.within ⟨blocks₁, hfilled₁.invariant⟩ List.mem_cons_self
  dsimp only at hbounds
  refine .inr ⟨buf, blocks₁, halloc₁, ?_⟩
  simp only [hrun₁, ok_bind]
  rcases firstPointer_spec buf.data hfilled₁.invariant (by omega) with
    ⟨hnone, habort⟩ | ⟨argv, blocks₂, h₂, halloc₂, hrun₂, hfilled₂, hfirst⟩
  · refine .inl ⟨hnone, ?_⟩
    rw [habort]
    rfl
  have hbuf : Held ({ ptr := buf.data, align := 4, size := text.length + 1 } :: live) buf.data
      (buf.data + text.length + 1) := held_object List.mem_cons_self
  refine .inr ⟨argv, blocks₂, { h₂ with mem := write32 h₂.mem argv.data buf.data }, halloc₂, ?_,
    ?_, ?_⟩
  · simp only [hrun₂, ok_bind]
  · constructor
    case invariant => exact hfilled₂.invariant
    case mem => exact hfilled₂.mem
    case backs => exact hfilled₂.backs
    case commandHeld => exact hheld
    case command =>
      exact (hcommand.congr (hfilled₁.keeps _ _ hheld)).congr
        (hfilled₂.keeps _ _ (hheld.subset fun o ho => List.mem_cons_of_mem _ ho))
    case words => exact fun i v hi => absurd hi (by simp)
    case last =>
      rw [List.length_nil, Nat.mul_zero, Nat.add_zero, hfirst]
      exact htext₁.congr (hfilled₂.keeps _ _ hbuf)
    case low =>
      rw [List.length_nil, Nat.mul_zero, Nat.add_zero]
      exact hfirst.ge
    case high =>
      rw [List.length_nil, Nat.mul_zero, Nat.add_zero]
      dsimp only
      omega
  · intro x hclear hbufOut hargvOut
    have hclear₁ := hclear.of_serve hfilled₁.invariant.rep.laid halloc₂
    calc _ = h₁.mem x := hfilled₂.frame x hclear hargvOut
      _ = h.mem x := hfilled₁.frame x hclear₁ hbufOut

theorem parse_started {w : Word} {ws : List Word} (hargs : line.args = w :: ws)
    (hrep : Rep h blocks) (htyped : Typed im line h.mem) (nextStart : Nat) :
    (supply blocks ((w.bytes ++ spaced ws).length + 1) = none ∧
      parse im nextStart h = .error .abort) ∨
    ∃ s h', supply blocks ((w.bytes ++ spaced ws).length + 1) = some s ∧
      parse im nextStart h = (splitLoop (2 ^ 32) s.argv.data 1 h' >>= fun r =>
        pure (finish s.copy.data r)) ∧
      Started line (w.bytes ++ spaced ws) h s h' := by
  have hlimit : heapLimit = 0xC2200000 := rfl
  have hshort := line.short
  have hnul := noNul_append_spaced w ws
  rw [hargs, spaced, List.length_append, List.length_cons] at hshort
  rw [supply, parse]
  rcases copyLine_spec (invariant_of_rep hrep) htyped with
    ⟨hnone, habort⟩ | ⟨copy, blocks₁, h₁, halloc₁, hrun₁, hfilled₁, hline⟩
  · refine .inl ⟨by rw [hnone]; rfl, by rw [habort]; rfl⟩
  obtain ⟨h₂, hrun₂, hinv₂, htyped₂, hfirst, hframe⟩ := takeCommand_cut hargs hfilled₁.invariant
    (typed_of_keeps htyped hfilled₁.keeps) hline nextStart
  simp only [hrun₁, ok_bind, hrun₂, halloc₁, Option.bind_eq_bind, Option.bind_some]
  rcases takeArgs_rest hargs hinv₂ htyped₂ hfirst with
    ⟨hnone, habort⟩ | ⟨args, blocks₃, h₃, halloc₃, hrun₃, hfilled₃, htext⟩
  · refine .inl ⟨by rw [hnone]; rfl, by rw [habort]; rfl⟩
  generalize w.bytes ++ spaced ws = text at *
  have hbounds := Client.within ⟨blocks₃, hfilled₃.invariant⟩ List.mem_cons_self
  dsimp only at hbounds
  have hargsHeld : Held [{ ptr := args.data, align := 4, size := text.length + 1 },
      copyOf copy.data] args.data (args.data + text.length + 1) := held_object List.mem_cons_self
  have hcopy : Held [copyOf copy.data] copy.data (copy.data + line.first.bytes.length + 1) :=
    (held_object List.mem_cons_self).mono (Nat.le_refl _) (by dsimp only [copyOf]; omega)
  simp only [hrun₃, ok_bind, halloc₃, Option.bind_some]
  rcases takeArgv_started hfilled₃.invariant htext hargsHeld hnul (by omega) (by omega)
      (hcopy.subset fun o ho => List.mem_cons_of_mem _ ho)
      (hfirst.congr (hfilled₃.keeps _ _ hcopy)) with
    ⟨hnone, habort⟩ | ⟨buf, blocks₄, halloc₄, hrest⟩
  · refine .inl ⟨by rw [hnone]; rfl, habort⟩
  simp only [halloc₄, Option.bind_some]
  rcases hrest with ⟨hnone, habort⟩ | ⟨argv, blocks₅, h₅, halloc₅, hrun₅, hsplitting, hframe₅⟩
  · refine .inl ⟨by rw [hnone]; rfl, habort⟩
  simp only [halloc₅, Option.bind_some]
  refine .inr ⟨_, h₅, rfl, hrun₅, hsplitting, ?_⟩
  intro x hclear₅ hcopyOut hargsOut hbufOut hargvOut
  have hlaid₄ := laid_of_serve hfilled₃.invariant.rep.laid halloc₄
  have hclear₄ := hclear₅.of_serve hlaid₄ halloc₅
  have hclear₃ := hclear₄.of_serve hfilled₃.invariant.rep.laid halloc₄
  have hclear₁ := hclear₃.of_serve hinv₂.rep.laid halloc₃
  calc _ = h₃.mem x := hframe₅ x hclear₅ hbufOut hargvOut
    _ = h₂.mem x := hfilled₃.frame x hclear₃ hargsOut
    _ = h₁.mem x := hframe x hcopyOut
    _ = h.mem x := hfilled₁.frame x hclear₁ hcopyOut

/-- The test looks at the first byte of the first argument. -/
theorem Split.finish_argc {command : Nat} {first : List (BitVec 8)} {w : Word} {ws : List Word}
    {r : Nat × Nat × State} (hsplit : Split command first (w :: ws) r) :
    (finish command r).argc = if 7 ≤ (w.bytes.headD 0#8).toInt then ws.length + 1 else 0 := by
  obtain ⟨c, bytes, hbytes⟩ := List.exists_cons_of_ne_nil w.nonempty
  have hfirst := hsplit.argv 0 w rfl 0 (Nat.zero_le _)
  rw [hbytes, Nat.mul_zero, Nat.add_zero, Nat.add_zero, List.getD_cons_zero] at hfirst
  have hargc : (finish command r).argc = if c = 0#8 ∨ c.toInt < 7 then 0 else r.2.1 := by
    rw [← hfirst]
    rfl
  rw [hargc, hsplit.argc, hbytes, List.headD_cons, List.length_cons]
  by_cases hhigh : 7 ≤ c.toInt
  · have hne : c ≠ 0#8 := by
      rintro rfl
      exact absurd hhigh (by decide)
    rw [if_pos hhigh, if_neg (not_or.mpr ⟨hne, not_lt.mpr hhigh⟩)]
  · rw [if_neg hhigh, if_pos (.inr (not_le.mp hhigh))]

/-- What the loop leaves is right but for that test. -/
theorem Split.right_iff {command : Nat} {w : Word} {ws : List Word} {r : Nat × Nat × State}
    (hargs : line.args = w :: ws) (hsplit : Split command line.first.bytes (w :: ws) r) :
    Right line (finish command r) ↔ 7 ≤ (w.bytes.headD 0#8).toInt := by
  have hargc := hsplit.finish_argc
  constructor
  · intro hright
    by_contra hlow
    rw [if_neg hlow, hright.argc, hargs] at hargc
    exact absurd hargc (Nat.succ_ne_zero _)
  · intro hhigh
    rw [if_pos hhigh] at hargc
    refine ⟨hsplit.command, ?_, fun i v hi => hsplit.argv i v (hargs ▸ hi)⟩
    rw [hargc, hargs, List.length_cons]

/-- **The parser on a line with arguments.**  It runs out of memory, or it gets everything
right but for the test of the first byte, as long as each block that the array moves to is
as large as the one before it. -/
theorem parse_goes {w : Word} {ws : List Word} (hargs : line.args = w :: ws)
    (hrep : Rep h blocks) (htyped : Typed im line h.mem) (nextStart : Nat) :
    (supply blocks ((w.bytes ++ spaced ws).length + 1) = none ∧
      parse im nextStart h = .error .abort) ∨
    ∃ s, supply blocks ((w.bytes ++ spaced ws).length + 1) = some s ∧
      Goes (growth s.blocks s.argv 1 ws.length) (parse im nextStart h) fun r =>
        Right line r ↔ 7 ≤ (w.bytes.headD 0#8).toInt := by
  have hshort := line.args_lt
  rw [hargs, List.length_cons] at hshort
  rcases parse_started hargs hrep htyped nextStart with hnone | ⟨s, h', hsupply, hrun, hstarted⟩
  · exact .inl hnone
  · refine .inr ⟨s, hsupply, ?_⟩
    rw [hrun]
    have hgoes := hstarted.splitting.goes (by rw [List.length_nil]; omega)
      (show ws.length < 2 ^ 32 by omega)
    exact hgoes.bind fun r hsplit => ⟨_, rfl, hsplit.right_iff hargs⟩

end Steps

end Parse
end Shell
end Medusa
