import Medusa.Gui.Windows
import Medusa.Libc.Conversions
import Medusa.Terminal.Framebuffer

/-!
# The line editor

`sys_key_handler` in text mode, with the edits of `line_cli`.  Appending finds the end
of the string and writes two bytes there whatever the end; deleting writes one byte
before the end, also when the string is empty.  The machine takes one scan code after
another and carries the line of the ideal editor along.
-/

namespace Medusa
namespace Terminal

open Machine Kernel Libc
open Gui (keyboardUs)

def lineCliSize : Nat := 300

/-! ## The code -/

inductive Key where
  | reboot
  | enter
  | delete
  | character (c : BitVec 8)
  /-- The prefix 0xE0, releases, and the two cursor keys. -/
  | other
deriving DecidableEq, Repr

/-- The tests of `sys_key_handler` on the scan code. -/
def keyOf (scanCode : BitVec 8) : Key :=
  if scanCode = 0xE0#8 then .other
  else if 128 ≤ scanCode.toNat then .other
  else if scanCode = 0x01#8 then .reboot
  else if scanCode = 0x1C#8 then .enter
  else if scanCode = 0x53#8 ∨ scanCode = 0x0E#8 then .delete
  else if scanCode = 0x4B#8 then .other
  else if scanCode = 0x75#8 then .other
  else .character (keyboardUs.getD scanCode.toNat 0#8)

/-- `terminal_framebuffer_keypress`. -/
def keypress (fb : Framebuffer) (font : Font) (s : State) (c : BitVec 8) :
    List Access × Option State :=
  match strlen s.lineCli with
  | .error _ => ([], none)
  | .ok len =>
    match append s.lineCli c with
    | .error _ => ([.writeLine len, .writeLine (len + 1)], none)
    | .ok lineCli =>
      let printed := putc fb font { s with lineCli := lineCli } c
      (.writeLine len :: .writeLine (len + 1) :: printed.1, printed.2)

/-- `empty_line_cli_framebuffer`. -/
def emptyLineCli (s : State) : List Access × State :=
  ((List.range lineCliSize).map fun i : Nat => .writeLine i,
    { s with lineCli := List.replicate lineCliSize 0#8 })

/-- A scan code, and what the terminal is when the command that the enter key launches
has returned and the prompt is printed, if that happens. -/
structure KeyEvent where
  scanCode : BitVec 8
  launched : Option State

/-- `sys_key_handler` in text mode, while no program has taken the keyboard. -/
def sysKeyHandler (fb : Framebuffer) (font : Font) (s : State) (e : KeyEvent) :
    List Access × Option State :=
  match keyOf e.scanCode with
  | .reboot => ([], none)
  | .enter =>
    match e.launched with
    | none => ([], none)
    | some s => ((emptyLineCli s).1, some (emptyLineCli s).2)
  | .delete => deleteCharacter s
  | .character c => keypress fb font s c
  | .other => ([], some s)

/-! ## The ideal editor -/

/-- The line after a key. -/
def ideal (line : List (BitVec 8)) : Key → List (BitVec 8)
  | .character c => if c ≠ 0#8 ∧ line.length < lineCliSize - 1 then line ++ [c] else line
  | .delete => line.dropLast
  | .enter => []
  | .reboot => line
  | .other => line

/-- The terminal and the line of the ideal editor. -/
structure Editor where
  terminal : State
  line : List (BitVec 8)

def Editor.step (fb : Framebuffer) (font : Font) (ed : Editor) (e : KeyEvent) : Option Editor :=
  (sysKeyHandler fb font ed.terminal e).2.map fun s => ⟨s, ideal ed.line (keyOf e.scanCode)⟩

/-- The byte of an edit lies in `line_cli`. -/
def Access.InLine : Access → Prop
  | .writeLine i => 0 ≤ i ∧ i < lineCliSize
  | _ => True

/-- `line_cli` holds a line, and has its size. -/
def HoldsLine (s : State) (line : List (BitVec 8)) : Prop :=
  Holds s.lineCli line ∧ s.lineCli.length = lineCliSize

/-- A key edits as the ideal editor does, inside `line_cli`. -/
def Edits (fb : Framebuffer) (font : Font) (ed : Editor) (e : KeyEvent) : Prop :=
  (∀ a ∈ (sysKeyHandler fb font ed.terminal e).1, a.InLine) ∧
    ∀ ed', ed.step fb font e = some ed' → HoldsLine ed'.terminal ed'.line

/-- There is room for a character, or there is one to delete. -/
def HasRoom (ed : Editor) (e : KeyEvent) : Prop :=
  match keyOf e.scanCode with
  | .character _ => ed.line.length < lineCliSize - 1
  | .delete => ed.line ≠ []
  | _ => True

/-! ## One key -/

variable {fb : Framebuffer} {font : Font} {s s' : State} {line : List (BitVec 8)} {c : BitVec 8}

theorem appendEscape_lineCli :
    (∀ a ∈ (appendEscape s c).1, a.InLine) ∧
      ∀ s', (appendEscape s c).2 = some s' → s'.lineCli = s.lineCli := by
  rw [appendEscape]
  cases strlen s.escapeCharBuf with
  | error e => simp
  | ok len =>
    refine ⟨by simp [Access.InLine], fun s' h => ?_⟩
    obtain ⟨buf, -, rfl⟩ := of_toOption_map h
    rfl

theorem advance_lineCli (fb : Framebuffer) (s : State) : (advance fb s).lineCli = s.lineCli := by
  unfold advance
  simp only
  split
  · split
    · rfl
    · rfl
  · rfl

/-- Printing leaves the line alone. -/
theorem putc_lineCli (fb : Framebuffer) (font : Font) (s : State) (c : BitVec 8) :
    (∀ a ∈ (putc fb font s c).1, a.InLine) ∧
      ∀ s', (putc fb font s c).2 = some s' → s'.lineCli = s.lineCli := by
  rw [putc]
  split
  · refine ⟨by simp [Access.InLine], fun s' h => ?_⟩
    rw [← Option.some.inj h]
  · split
    · refine ⟨by simp, fun s' h => ?_⟩
      rw [← Option.some.inj h]
    · split
      · exact appendEscape_lineCli
      · split
        · refine ⟨by simp, fun s' h => ?_⟩
          rw [← Option.some.inj h]
        · split
          · exact ⟨by simp [Access.InLine], fun s' h => absurd h (Option.some_ne_none s').symm⟩
          · refine ⟨?_, fun s' h => ?_⟩
            · simp only [drawGlyph, List.mem_flatMap, List.mem_cons]
              rintro a ⟨i, -, j, -, rfl | hink⟩
              · trivial
              · split at hink
                · rw [List.mem_singleton.mp hink]
                  trivial
                · simp at hink
            · rw [← Option.some.inj h, advance_lineCli]

/-- Appending the terminator changes nothing. -/
theorem append_zero {buf : List (BitVec 8)} (h : Holds buf line)
    (hroom : line.length + 1 < buf.length) :
    ∃ buf', append buf 0#8 = .ok buf' ∧ Holds buf' line ∧ buf'.length = buf.length := by
  have hlen := h.strlen
  obtain ⟨rest, rfl, hnul⟩ := h
  cases rest with
  | nil => simp at hroom
  | cons d rest =>
    have hnext : store (line ++ 0#8 :: d :: rest) (line.length + 1) 0#8 =
        .ok (line ++ 0#8 :: 0#8 :: rest) := by
      have hstore := store_append_cons (line ++ [0#8]) rest 0#8 d
      simpa using hstore
    refine ⟨line ++ 0#8 :: 0#8 :: rest, ?_, ⟨0#8 :: rest, rfl, hnul⟩, by simp⟩
    rw [append, hlen, ok_bind, store_append_cons, ok_bind, hnext]

/-- With room the string is that of the ideal editor. -/
theorem append_ideal {buf : List (BitVec 8)} (h : Holds buf line)
    (hsize : buf.length = lineCliSize) (hroom : line.length < lineCliSize - 1) (c : BitVec 8) :
    ∃ buf', append buf c = .ok buf' ∧ Holds buf' (ideal line (.character c)) ∧
      buf'.length = lineCliSize := by
  have hlt : line.length + 1 < buf.length := by
    rw [lineCliSize] at hroom hsize
    omega
  rw [ideal, ← hsize]
  by_cases hc : c = 0#8
  · rw [if_neg (fun h => h.1 hc), hc]
    exact append_zero h hlt
  · rw [if_pos ⟨hc, by rw [hsize]; exact hroom⟩]
    exact append_spec h hc hlt

theorem keypress_ideal (h : HoldsLine s line) (hroom : line.length < lineCliSize - 1) :
    (∀ a ∈ (keypress fb font s c).1, a.InLine) ∧
      ∀ s', (keypress fb font s c).2 = some s' → HoldsLine s' (ideal line (.character c)) := by
  obtain ⟨hheld, hsize⟩ := h
  obtain ⟨buf, happend, hbuf, hsize'⟩ := append_ideal hheld hsize hroom c
  obtain ⟨hinside, hkeep⟩ := putc_lineCli fb font { s with lineCli := buf } c
  rw [lineCliSize] at hroom
  rw [keypress, hheld.strlen]
  simp only [happend]
  constructor
  · intro a ha
    rcases List.mem_cons.mp ha with rfl | ha
    · exact ⟨by omega, by rw [lineCliSize]; omega⟩
    · rcases List.mem_cons.mp ha with rfl | ha
      · exact ⟨by omega, by rw [lineCliSize]; omega⟩
      · exact hinside a ha
  · intro s' hs'
    rw [HoldsLine, hkeep s' hs']
    exact ⟨hbuf, hsize'⟩

/-- A full line is written behind its end. -/
theorem keypress_full (h : HoldsLine s line) (hfull : ¬ line.length < lineCliSize - 1) :
    ∃ a ∈ (keypress fb font s c).1, ¬ a.InLine := by
  obtain ⟨hheld, hsize⟩ := h
  have hmem : Access.writeLine ((line.length : Int) + 1) ∈ (keypress fb font s c).1 := by
    rw [keypress, hheld.strlen]
    cases append s.lineCli c with
    | error e => simp
    | ok buf => simp
  refine ⟨_, hmem, fun hin => ?_⟩
  have hlt := hin.2
  rw [lineCliSize] at hlt hfull
  omega

theorem painted_inLine {s : State} {a : Access}
    (ha : a ∈ (List.range 16).flatMap fun i => (List.range 8).map fun j => drawCell s i j) :
    a.InLine := by
  simp only [List.mem_flatMap, List.mem_map] at ha
  obtain ⟨i, -, j, -, rfl⟩ := ha
  trivial

theorem deleteCharacter_ideal (h : HoldsLine s line) (hne : line ≠ []) :
    (∀ a ∈ (deleteCharacter s).1, a.InLine) ∧
      ∀ s', (deleteCharacter s).2 = some s' → HoldsLine s' (ideal line .delete) := by
  obtain ⟨hheld, hsize⟩ := h
  have hpos := List.length_pos_of_ne_nil hne
  have hlt := hheld.length_lt
  rw [hsize, lineCliSize] at hlt
  rw [deleteCharacter, hheld.strlen]
  constructor
  · intro a ha
    rcases List.mem_append.mp ha with ha | ha
    · exact painted_inLine ha
    · rw [List.mem_singleton.mp ha]
      exact ⟨by omega, by rw [lineCliSize]; omega⟩
  · intro s' hs'
    rw [← Option.some.inj hs', HoldsLine, if_neg (by omega)]
    refine ⟨?_, by rw [List.length_set, hsize]⟩
    obtain ⟨rest, hbuf, hnul⟩ := hheld
    refine ⟨0#8 :: rest, ?_, fun hmem => hnul (List.mem_of_mem_dropLast hmem)⟩
    obtain ⟨init, last, rfl⟩ := (List.eq_nil_or_concat line).resolve_left hne
    have hset := List.set_append_right (s := init) (t := last :: 0#8 :: rest) init.length 0#8
      (Nat.le_refl _)
    rw [Nat.sub_self, List.set_cons_zero] at hset
    show s.lineCli.set _ _ = _
    rw [hbuf, ideal, List.concat_eq_append, List.dropLast_concat, List.length_append,
      List.length_singleton, Nat.add_sub_cancel, List.append_assoc, List.singleton_append, hset]

theorem deleteCharacter_empty (h : HoldsLine s []) :
    ∃ a ∈ (deleteCharacter s).1, ¬ a.InLine := by
  refine ⟨.writeLine (-1), ?_, fun hin => absurd hin.1 (by omega)⟩
  rw [deleteCharacter, h.1.strlen]
  simp

/-- **One key.**  From a line that is the ideal one, the key edits as it should exactly
when there is room. -/
theorem edits_iff (ed : Editor) (e : KeyEvent) (h : HoldsLine ed.terminal ed.line) :
    Edits fb font ed e ↔ HasRoom ed e := by
  have hstep : (∀ ed', ed.step fb font e = some ed' → HoldsLine ed'.terminal ed'.line) ↔
      ∀ s', (sysKeyHandler fb font ed.terminal e).2 = some s' →
        HoldsLine s' (ideal ed.line (keyOf e.scanCode)) := by
    rw [Editor.step]
    constructor
    · intro hall s' hs'
      rw [hs'] at hall
      exact hall _ rfl
    · intro hall ed' hed'
      obtain ⟨s', hs', rfl⟩ := Option.map_eq_some_iff.mp hed'
      exact hall s' hs'
  rw [Edits, hstep, sysKeyHandler, HasRoom]
  cases keyOf e.scanCode with
  | reboot => exact iff_of_true ⟨by simp, by simp⟩ trivial
  | other =>
    refine iff_of_true ⟨by simp, fun s' hs' => ?_⟩ trivial
    rw [← Option.some.inj hs']
    exact h
  | enter =>
    refine iff_of_true ?_ trivial
    cases e.launched with
    | none => exact ⟨by simp, by simp⟩
    | some s =>
      refine ⟨?_, fun s' hs' => ?_⟩
      · simp only [emptyLineCli, List.mem_map, List.mem_range]
        rintro a ⟨i, hi, rfl⟩
        exact ⟨by omega, by omega⟩
      · rw [← Option.some.inj hs']
        exact ⟨⟨List.replicate 299 0#8, rfl, by simp [ideal]⟩, List.length_replicate⟩
  | delete =>
    constructor
    · rintro ⟨hin, -⟩ hnil
      rw [hnil] at h
      obtain ⟨a, ha, hout⟩ := deleteCharacter_empty h
      exact hout (hin a ha)
    · exact deleteCharacter_ideal h
  | character c =>
    constructor
    · rintro ⟨hin, -⟩
      by_contra hfull
      obtain ⟨a, ha, hout⟩ := keypress_full h hfull
      exact hout (hin a ha)
    · exact keypress_ideal h

/-- **The line editor.**  From an empty line, every key of a run edits `line_cli` as the
ideal editor does, and writes nothing else, exactly when no character is typed on a full
line and none is deleted from an empty one. -/
theorem edits_throughout_iff (fb : Framebuffer) (font : Font)
    (junk : Fin escapeCharBufSize → BitVec 8) (events : List KeyEvent) :
    Throughout (Editor.step fb font) (Edits fb font)
        ⟨start junk (List.replicate lineCliSize 0#8), []⟩ events ↔
      Throughout (Editor.step fb font) HasRoom
        ⟨start junk (List.replicate lineCliSize 0#8), []⟩ events := by
  apply throughout_iff fun ed => HoldsLine ed.terminal ed.line
  · exact fun ed e h => edits_iff ed e h
  · intro ed e ed' h hroom hstep
    exact ((edits_iff ed e h).mpr hroom).2 ed' hstep
  · exact ⟨⟨List.replicate 299 0#8, rfl, by simp⟩, List.length_replicate⟩

/-- Backspace on the empty line writes in front of it. -/
theorem edits_backspace :
    ¬ Throughout (Editor.step vga fun _ => 0#8) (Edits vga fun _ => 0#8)
      ⟨start (fun _ => 0#8) (List.replicate lineCliSize 0#8), []⟩ [⟨0x0E#8, none⟩] := by
  intro h
  have hwrite := h.1.1 (.writeLine (-1)) (by decide)
  exact absurd hwrite.1 (by omega)

end Terminal
end Medusa
