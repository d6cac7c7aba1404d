import Medusa.Chip8.Sandbox

/-!
# Calls and returns

`2NNN` pushes the address of `pc`, not its value, and `00EE` pops it without
looking at it.  The stack comes back as it was; `pc` just goes on.
-/

namespace Medusa
namespace Chip8

open Machine DataStructures

variable {e t : Emulator} {x y n : Nat}

/-- An instruction as its two bytes. -/
abbrev Opcode := BitVec 8 × BitVec 8

/-- `2NNN`. -/
def Opcode.IsCall (op : Opcode) : Prop := (op.1 >>> 4).toNat = 0x2

/-- `00EE`; like the code, this does not look at the second digit. -/
def Opcode.IsReturn (op : Opcode) : Prop := (op.1 >>> 4).toNat = 0x0 ∧ op.2 = 0xEE

/-! ## What one instruction does to the stack -/

theorem call_eq {op : Opcode} (hcall : op.IsCall) :
    chip8ExecuteInstruction e op.1 op.2 =
      .ok { e with stack := pcAddress :: e.stack, pc := address op.1 op.2 } := by
  unfold chip8ExecuteInstruction
  rw [show (op.1 >>> 4).toNat = 0x2 from hcall]
  rfl

theorem return_eq {op : Opcode} (hret : op.IsReturn) :
    chip8ExecuteInstruction e op.1 op.2 =
      .ok { e with stack := (stackPop e.stack).2, pc := e.pc + 2 } := by
  unfold chip8ExecuteInstruction
  rw [hret.1, hret.2]
  rfl

/-- Stack and display are left alone. -/
structure Quiet (e t : Emulator) : Prop where
  stack : t.stack = e.stack
  display : t.display = e.display

theorem miscellaneous_quiet (hx : x < 16) {nn : Nat} (h : miscellaneous e x nn = .ok t) :
    Quiet e t := by
  unfold miscellaneous at h
  split at h
  case h_5 =>
    obtain ⟨hin, hout⟩ := storeRegisters_spec hx 256 0 e (by omega)
    obtain ⟨ram, hrun⟩ := hin (by_contra fun hno => hout hno ⟨t, h⟩)
    rw [hrun] at h
    rw [← Except.ok.inj h]
    exact ⟨rfl, rfl⟩
  case h_6 =>
    obtain ⟨hin, hout⟩ := loadRegisters_spec hx 256 0 e (by omega) (Nat.zero_le x)
    obtain ⟨v, hrun⟩ := hin (by_contra fun hno => hout hno ⟨t, h⟩)
    rw [hrun] at h
    rw [← Except.ok.inj h]
    exact ⟨rfl, rfl⟩
  case h_7 =>
    rw [← Except.ok.inj h]
    exact ⟨rfl, rfl⟩
  all_goals
    simp only [readV_ok hx, writeV_ok hx, ok_bind] at h
    rw [← Except.ok.inj h]
    exact ⟨rfl, rfl⟩

theorem skip_quiet (c : Prop) [Decidable c] (e : Emulator) :
    Quiet e (if c then skip { e with pc := e.pc + 2 } else { e with pc := e.pc + 2 }) := by
  split
  · exact ⟨rfl, rfl⟩
  · exact ⟨rfl, rfl⟩

/-- No other instruction touches the stack, and none touches the display. -/
theorem execute_quiet {op : Opcode} (hcall : ¬ op.IsCall) (hret : ¬ op.IsReturn)
    (h : chip8ExecuteInstruction e op.1 op.2 = .ok t) : Quiet e t := by
  have hx := regX_lt op.1
  have hy := regY_lt op.2
  unfold chip8ExecuteInstruction at h
  split at h
  case h_1 hn =>
    split at h
    · rw [← Except.ok.inj h]
      exact ⟨rfl, rfl⟩
    · rw [if_neg fun hee => hret ⟨hn, hee⟩] at h
      rw [← Except.ok.inj h]
      exact ⟨rfl, rfl⟩
  case h_3 hn => exact absurd hn hcall
  case h_9 hn =>
    obtain ⟨v, hrun⟩ := arithmetic_ok (e := { e with pc := e.pc + 2 }) hx hy (op.2 &&& 0x0F).toNat
    simp only [hrun] at h
    rw [← Except.ok.inj h]
    exact ⟨rfl, rfl⟩
  case h_14 hn =>
    simp only [writeV_ok (show 0xF < 16 by omega), ok_bind] at h
    obtain ⟨hin, hout⟩ := drawSprite_spec hx hy (op.2 &&& 0x0F).toNat 0
      { e with pc := e.pc + 2, vregisters := Function.update e.vregisters 0xF 0 }
    obtain ⟨screen, hrun⟩ := hin (by_contra fun hno => hout hno ⟨t, h⟩)
    rw [hrun] at h
    rw [← Except.ok.inj h]
    exact ⟨rfl, rfl⟩
  case h_15 hn =>
    obtain ⟨hstack, hdisplay⟩ := miscellaneous_quiet (e := { e with pc := e.pc + 2 }) hx h
    exact ⟨hstack, hdisplay⟩
  case h_4 | h_5 | h_6 | h_10 =>
    simp only [readV_ok hx, readV_ok hy, ok_bind] at h
    rw [← Except.ok.inj h]
    exact skip_quiet _ e
  case h_7 | h_8 | h_12 =>
    simp only [readV_ok hx, readV_ok (show 0 < 16 by omega), writeV_ok hx, ok_bind] at h
    rw [← Except.ok.inj h]
    exact ⟨rfl, rfl⟩
  case h_13 =>
    simp only [writeV_ok hx] at h
    rw [← Except.ok.inj h]
    exact ⟨rfl, rfl⟩
  case h_2 | h_11 | h_16 =>
    rw [← Except.ok.inj h]
    exact ⟨rfl, rfl⟩

/-- No instruction touches the display. -/
theorem execute_display (op : Opcode) (h : chip8ExecuteInstruction e op.1 op.2 = .ok t) :
    t.display = e.display := by
  by_cases hcall : op.IsCall
  · rw [call_eq hcall] at h
    rw [← Except.ok.inj h]
  · by_cases hret : op.IsReturn
    · rw [return_eq hret] at h
      rw [← Except.ok.inj h]
    · exact (execute_quiet hcall hret h).display

/-! ## Traces -/

/-- Instructions executed one after the other, with the ends of cycles and the
restarts of the main loop in between. -/
inductive Trace : Emulator → List Opcode → Emulator → Prop
  | nil (e : Emulator) : Trace e [] e
  | instruction {e u t : Emulator} {op : Opcode} {ops : List Opcode} (hpaused : e.paused = false)
      (hfetch : fetch e = .ok op) (hexec : chip8ExecuteInstruction e op.1 op.2 = .ok u)
      (hrest : Trace u ops t) : Trace e (op :: ops) t
  | endCycle {e u t : Emulator} {ops : List Opcode} (hend : endCycle e = .ok u)
      (hrest : Trace u ops t) : Trace e ops t
  | restart {e t : Emulator} {ops : List Opcode} (hrest : Trace (restart e) ops t) :
      Trace e ops t

/-- Calls and returns match. -/
inductive Balanced : List Opcode → Prop
  | nil : Balanced []
  | other {op : Opcode} {ops : List Opcode} (hcall : ¬ op.IsCall) (hret : ¬ op.IsReturn)
      (hrest : Balanced ops) : Balanced (op :: ops)
  | call {c r : Opcode} {body ops : List Opcode} (hcall : c.IsCall) (hbody : Balanced body)
      (hret : r.IsReturn) (hrest : Balanced ops) : Balanced (c :: (body ++ r :: ops))

theorem endCycle_stack (h : endCycle e = .ok t) : t.stack = e.stack := by
  obtain ⟨screen, hrun, -⟩ := updateFramebuffer_ok (if e.paused then e else chip8UpdateTimers e)
  rw [endCycle, hrun] at h
  rw [← Except.ok.inj h]
  show (if e.paused = true then e else chip8UpdateTimers e).stack = e.stack
  split
  · rfl
  · rw [chip8UpdateTimers]
    split
    · rfl
    · rfl

theorem trace_append {e t : Emulator} {ops ops' : List Opcode} (h : Trace e (ops ++ ops') t) :
    ∃ u, Trace e ops u ∧ Trace u ops' t := by
  generalize hall : ops ++ ops' = all at h
  induction h generalizing ops with
  | nil e =>
    obtain ⟨rfl, rfl⟩ := List.append_eq_nil_iff.mp hall
    exact ⟨e, .nil e, .nil e⟩
  | @instruction e v t op rest hpaused hfetch hexec hrest ih =>
    cases ops with
    | nil =>
      refine ⟨e, .nil e, ?_⟩
      rw [show ops' = op :: rest from hall]
      exact .instruction hpaused hfetch hexec hrest
    | cons op' ops =>
      obtain ⟨rfl, htail⟩ := List.cons.inj hall
      obtain ⟨u, hfirst, hlast⟩ := ih htail
      exact ⟨u, .instruction hpaused hfetch hexec hfirst, hlast⟩
  | endCycle hend _ ih =>
    obtain ⟨u, hfirst, hlast⟩ := ih hall
    exact ⟨u, .endCycle hend hfirst, hlast⟩
  | restart _ ih =>
    obtain ⟨u, hfirst, hlast⟩ := ih hall
    exact ⟨u, .restart hfirst, hlast⟩

theorem trace_cons {e t : Emulator} {op : Opcode} {ops : List Opcode}
    (h : Trace e (op :: ops) t) :
    ∃ u v, Trace e [] u ∧ chip8ExecuteInstruction u op.1 op.2 = .ok v ∧ Trace v ops t := by
  generalize hall : op :: ops = all at h
  induction h with
  | nil e => simp at hall
  | @instruction e v t op' rest _ _ hexec hrest _ =>
    obtain ⟨rfl, rfl⟩ := List.cons.inj hall
    exact ⟨e, v, .nil e, hexec, hrest⟩
  | endCycle hend _ ih =>
    obtain ⟨u, v, hfirst, hexec, hlast⟩ := ih hall
    exact ⟨u, v, .endCycle hend hfirst, hexec, hlast⟩
  | restart _ ih =>
    obtain ⟨u, v, hfirst, hexec, hlast⟩ := ih hall
    exact ⟨u, v, .restart hfirst, hexec, hlast⟩

theorem trace_nil_stack {e t : Emulator} (h : Trace e [] t) : t.stack = e.stack := by
  generalize hnil : ([] : List Opcode) = ops at h
  induction h with
  | nil e => rfl
  | instruction _ _ _ _ _ => simp at hnil
  | endCycle hend _ ih => rw [ih hnil, endCycle_stack hend]
  | restart _ ih => exact ih hnil

/-- A call, a part that leaves the stack alone, and a return. -/
theorem call_return_stack {e e₁ e₂ t : Emulator} {c r : Opcode} (hcall : c.IsCall)
    (hexec : chip8ExecuteInstruction e c.1 c.2 = .ok e₁) (hbody : e₂.stack = e₁.stack)
    (hret : r.IsReturn) (hexec' : chip8ExecuteInstruction e₂ r.1 r.2 = .ok t) :
    t.stack = e.stack := by
  rw [call_eq hcall] at hexec
  rw [return_eq hret] at hexec'
  rw [← Except.ok.inj hexec']
  show (stackPop e₂.stack).2 = e.stack
  rw [hbody, ← Except.ok.inj hexec]
  rfl

/-- Over a balanced part the stack comes back. -/
theorem balanced_stack {ops : List Opcode} (hbal : Balanced ops) :
    ∀ {e t : Emulator}, Trace e ops t → t.stack = e.stack := by
  induction hbal with
  | nil => exact trace_nil_stack
  | other hcall hret _ ih =>
    intro e t h
    obtain ⟨u, v, hquiet, hexec, hlast⟩ := trace_cons h
    rw [ih hlast, (execute_quiet hcall hret hexec).stack, trace_nil_stack hquiet]
  | call hcall _ hret _ ihbody ihrest =>
    intro e t h
    obtain ⟨u, v, hquiet, hexec, hlast⟩ := trace_cons h
    obtain ⟨w, hinner, hafter⟩ := trace_append hlast
    obtain ⟨u', v', hquiet', hexec', hlast'⟩ := trace_cons hafter
    have hinner' : u'.stack = v.stack := by rw [trace_nil_stack hquiet', ihbody hinner]
    rw [ihrest hlast', call_return_stack hcall hexec hinner' hret hexec', trace_nil_stack hquiet]

/-- **Calls do not return.**  After a call at `e.pc`, a balanced part and a return,
the stack is what it was before the call; `pc` follows the return instruction, so
it follows the call only if the two were at the same address. -/
theorem call_returns_iff {e e₁ e₂ t : Emulator} {c r : Opcode} {body : List Opcode}
    (hcall : c.IsCall) (_hfetch : fetch e = .ok c)
    (hexec : chip8ExecuteInstruction e c.1 c.2 = .ok e₁) (htrace : Trace e₁ body e₂)
    (hbal : Balanced body) (hret : r.IsReturn) (_hfetch' : fetch e₂ = .ok r)
    (hexec' : chip8ExecuteInstruction e₂ r.1 r.2 = .ok t) :
    (t.pc = e.pc + 2 ∧ t.stack = e.stack) ↔ e₂.pc = e.pc := by
  have hstack := call_return_stack hcall hexec (balanced_stack hbal htrace) hret hexec'
  have hpc : t.pc = e₂.pc + 2 := by
    rw [return_eq hret] at hexec'
    rw [← Except.ok.inj hexec']
  rw [hpc]
  constructor
  · rintro ⟨heq, -⟩
    bv_omega
  · intro heq
    rw [heq]
    exact ⟨rfl, hstack⟩

theorem call_returns_at_once :
    ∃ e e₁ t, setupChip8Emulator (Emulator.zero 1) [0x22, 0x02, 0x00, 0xEE] = .ok e ∧
      chip8ExecuteInstruction e 0x22 0x02 = .ok e₁ ∧
      chip8ExecuteInstruction e₁ 0x00 0xEE = .ok t ∧
      ((t.pc = e.pc + 2 ∧ t.stack = e.stack) ↔ e₁.pc = e.pc) := by
  refine ⟨_, _, _, rfl, rfl, rfl, ?_⟩
  exact call_returns_iff (c := (0x22, 0x02)) (r := (0x00, 0xEE)) rfl rfl rfl (.nil _) .nil
    ⟨rfl, rfl⟩ rfl rfl

/-- A call at 0x200 of a routine at 0x202 that returns at once: `pc` goes on to 0x204. -/
theorem call_falls_through :
    ∃ e e₁ t, setupChip8Emulator (Emulator.zero 1) [0x22, 0x02, 0x00, 0xEE] = .ok e ∧
      e.pc = 0x200 ∧ fetch e = .ok (0x22, 0x02) ∧ chip8ExecuteInstruction e 0x22 0x02 = .ok e₁ ∧
      fetch e₁ = .ok (0x00, 0xEE) ∧ chip8ExecuteInstruction e₁ 0x00 0xEE = .ok t ∧
      t.pc = 0x204 ∧ t.pc ≠ e.pc + 2 := by
  exact ⟨_, _, _, rfl, rfl, rfl, rfl, rfl, rfl, rfl, by decide⟩

end Chip8
end Medusa
