import Medusa.Graphics.LineEnds
import Medusa.Gui.Windows
import Medusa.Machine.Action
import Medusa.Machine.Box
import Medusa.Terminal.Framebuffer

/-!
# What the windows draw

The functions of the window manager with the pixels that they write to the screen.  A
window is drawn from its corner over its whole size, and nothing is clipped.  Where it lies
is decided when it is opened, by what its block held before, and when it is moved, by a
test on its corner.
-/

namespace Medusa
namespace Gui
namespace Drawing

open Machine Kernel Graphics
open Terminal (side)

/-- The manager, and the pixels written so far. -/
structure Painted where
  gui : State
  pixels : List (Int × Int)

/-- Why a drawing does not return: as the manager does, or in a sum that `int` cannot
hold. -/
inductive Halt where
  | ended (e : End)
  | overflow
deriving DecidableEq, Repr

abbrev Draw (α : Type) := Action Halt Painted α

/-! ## The code -/

def gui : Draw State := Action.read Painted.gui

def setGui (f : State → State) : Draw Unit := Action.modify fun t => { t with gui := f t.gui }

def paint (pixels : List (Int × Int)) : Draw Unit :=
  Action.modify fun t => { t with pixels := t.pixels ++ pixels }

/-- A part of the manager that draws nothing. -/
def quietly {α : Type} (x : Except End α) : Draw α :=
  match x with
  | .ok a => pure a
  | .error e => Action.stop (.ended e)

def paintLine (line : Except Stop (List (Int × Int))) : Draw Unit :=
  match line with
  | .ok pixels => paint pixels
  | .error _ => Action.stop .overflow

/-- The window that a pointer points to. -/
def window (p : Nat) : Draw Window := do
  let s ← gui
  quietly (deref s p)

/-- `x + w - 1`. -/
def lastOf (x w : Int) : Except Stop Int := do
  let stop ← cInt (x + w)
  cInt (stop - 1)

def drawBorder (x y w h : Int) : Draw Unit := do
  paintLine (do drawLineHorizontal x (← lastOf x w) y)
  paintLine (do drawLineHorizontal x (← lastOf x w) (← lastOf y h))
  paintLine (do drawLineVertical x y (← lastOf y h))
  paintLine (do drawLineVertical (← lastOf x w) y (← lastOf y h))

/-- The coordinates `x + win->x` of a row of pixels, or `y + win->y` of a column. -/
def span (start size : BitVec 32) : List Int :=
  (List.range size.toNat).map fun i => (BitVec.ofNat 32 i + start).toInt

/-- The pixels of the loops of `fill_window_place` and `render_window`; the buffer of a
window has the size of the window. -/
def contents (win : Window) : List (Int × Int) :=
  (span win.y win.height).flatMap fun y => (span win.x win.width).map fun x => (x, y)

def fillWindowPlace (p : Nat) : Draw Unit := do
  let win ← window p
  paint (contents win)

def renderWindow (p : Nat) : Draw Unit := do
  let win ← window p
  paint (contents win)
  if win.flags &&& noBorder = 0#32 then
    drawBorder win.x.toInt win.y.toInt win.width.toInt win.height.toInt
  else pure ()

def renderVisible (p : Nat) (win : Window) : Draw Unit :=
  if win.flags &&& notVisible = 0#32 then renderWindow p else pure ()

/-- One round of `render_screen`; the title goes to the buffer of the top bar. -/
def renderEntry (p : Nat) : Draw Unit := do
  let win ← window p
  renderVisible p win
  let s ← gui
  let _ ← window s.topBarWindow

def renderEntries : List Nat → Draw Unit
  | [] => pure ()
  | p :: rest => do
    renderEntry p
    renderEntries rest

def renderScreen : Draw Unit := do
  let s ← gui
  -- `clear_window_list`
  renderWindow s.topBarWindow
  renderEntries s.windowList.items
  renderWindow s.topBarWindow

def openWindow (env : Env) (width height flags : BitVec 32) : Draw Unit := do
  let s ← gui
  let s' ← quietly (Gui.openWindow env s width height flags)
  setGui fun _ => s'

/-- `window->x += x` and `window->y += y`. -/
def Window.shift (win : Window) (dx dy : BitVec 32) : Window :=
  { win with x := win.x + dx, y := win.y + dy }

def moveWindow (env : Env) (p : Nat) (dx dy : BitVec 32) : Draw Unit := do
  let win ← window p
  if leavesScreen env win dx dy then pure ()
  else do
    fillWindowPlace p
    setGui fun s => { s with mem := Function.update s.mem p (Window.shift win dx dy) }
    renderScreen

def closeWindow (env : Env) (p : Nat) : Draw Unit := do
  let _ ← window p
  let s ← gui
  let windowList ← quietly (listRemove env s.opened p s.windowList)
  setGui fun s => { s with windowList := windowList }
  let s ← gui
  let focused ← quietly (if s.focused = p then findFirstNormalWindow s else .ok s.focused)
  setGui fun s => { s with focused := focused }
  renderScreen
  setGui fun s => { s with live := s.live.filter (· ≠ p) }

/-- The manager before `init_gui`, on a screen that nothing was drawn on. -/
def blank : Painted where
  gui :=
    { live := [], mem := fun _ => ⟨0#32, 0#32, 0#32, 0#32, 0#32⟩, opened := 0, focused := 0,
      backgroundWindow := 0, topBarWindow := 0, windowList := ⟨[], 1⟩,
      rowPutchar := 0#32, columnPutchar := 8#32, keyPressed := fun _ => false }
  pixels := []

/-- `init_gui`; the two rectangles go to the buffers of the windows. -/
def initGui (env : Env) : Draw Unit := do
  openWindow env env.fbWidth env.fbHeight (noBorder ||| wmWindow)
  setGui fun s => { s with backgroundWindow := s.focused }
  openWindow env env.fbWidth (env.fbHeight / 15#32) (noBorder ||| wmWindow)
  setGui fun s => { s with topBarWindow := s.focused }
  renderScreen

inductive Op where
  | openWindow (width height flags : BitVec 32)
  | moveWindow (p : Nat) (dx dy : BitVec 32)
  | renderWindow (p : Nat)
  | fillWindowPlace (p : Nat)
  | closeWindow (p : Nat)

def Op.run (env : Env) : Op → Draw Unit
  | .openWindow width height flags => Drawing.openWindow env width height flags
  | .moveWindow p dx dy => Drawing.moveWindow env p dx dy
  | .renderWindow p => Drawing.renderWindow p
  | .fillWindowPlace p => Drawing.fillWindowPlace p
  | .closeWindow p => Drawing.closeWindow env p

/-- An operation on a screen whose pixels so far are not of interest. -/
def Op.from (env : Env) (s : State) (op : Op) : Except Halt Unit × Painted :=
  (op.run env).run { gui := s, pixels := [] }

def step (env : Env) (s : State) (op : Op) : Option State :=
  match op.from env s with
  | (.ok _, t) => some t.gui
  | (.error _, _) => none

/-! ## The law and its condition -/

def Inside (env : Env) (q : Int × Int) : Prop :=
  Within env.fbWidth.toNat env.fbHeight.toNat q.1 q.2

/-- The first and the last of `size` coordinates are on a screen of `n`. -/
def Spans (n start size : BitVec 32) : Prop :=
  0 ≤ start.toInt ∧ start.toInt < side n ∧
    0 ≤ start.toInt + size.toNat - 1 ∧ start.toInt + size.toNat - 1 < side n

/-- The window lies on the screen; without a border and without area there is nothing of
it. -/
def Fits (env : Env) (win : Window) : Prop :=
  (win.flags &&& noBorder ≠ 0#32 ∧ (win.width = 0#32 ∨ win.height = 0#32)) ∨
    Spans env.fbWidth win.x win.width ∧ Spans env.fbHeight win.y win.height

instance (n start size : BitVec 32) : Decidable (Spans n start size) :=
  inferInstanceAs (Decidable (_ ∧ _ ∧ _ ∧ _))

instance (env : Env) (win : Window) : Decidable (Fits env win) :=
  inferInstanceAs (Decidable (_ ∨ _))

/-- The window that `open_window` makes, at the position that its block holds. -/
def opened (env : Env) (s : State) (width height flags : BitVec 32) : Window :=
  ⟨width, height, flags, (env.junk s.opened).1, (env.junk s.opened).2⟩

/-- What the code needs.  A window is opened on a block that holds a position where it
lies on the screen, and moved to where it does, unless the move is refused. -/
def Placed (env : Env) (s : State) : Op → Prop
  | .openWindow width height flags => Fits env (opened env s width height flags)
  | .moveWindow p dx dy => p ∈ s.live →
    leavesScreen env (s.mem p) dx dy = true ∨ Fits env (Window.shift (s.mem p) dx dy)
  | _ => True

/-- All pixels that an operation writes are on the screen. -/
def Sound (env : Env) (s : State) (op : Op) : Prop :=
  ∀ q ∈ (op.from env s).2.pixels, Inside env q

variable {env : Env} {s t : State} {p : Nat} {win : Window} {q : Int × Int}

/-! ## Coordinates -/

theorem coordinate_eq_bmod (start : BitVec 32) (i : Nat) :
    (BitVec.ofNat 32 i + start).toInt = (start.toInt + i).bmod (2 ^ 32) := by
  rw [BitVec.toInt_add, BitVec.toInt_ofNat', Int.bmod_add_bmod, Int.add_comm]

/-- Up to the largest `int` no sum is cut. -/
theorem coordinate_eq (start : BitVec 32) {i : Nat} (h0 : 0 ≤ start.toInt)
    (hi : start.toInt + i < 2 ^ 31) : (BitVec.ofNat 32 i + start).toInt = start.toInt + i := by
  rw [coordinate_eq_bmod, Int.bmod_eq_of_le (by omega) (by omega)]

theorem exists_mem_span (start : BitVec 32) {size : BitVec 32} (hsize : size ≠ 0#32) :
    ∃ v, v ∈ span start size := by
  have hpos : 0 < size.toNat := by
    rw [Nat.pos_iff_ne_zero]
    exact fun hzero => hsize (BitVec.eq_of_toNat_eq hzero)
  exact ⟨_, List.mem_map_of_mem (List.mem_range.mpr hpos)⟩

theorem span_inside_iff (n start : BitVec 32) {size : BitVec 32} (hsize : size ≠ 0#32) :
    (∀ v ∈ span start size, 0 ≤ v ∧ v < n.toNat) ↔ Spans n start size := by
  have hpos : 0 < size.toNat := by
    rw [Nat.pos_iff_ne_zero]
    exact fun hzero => hsize (BitVec.eq_of_toNat_eq hzero)
  have hlt := BitVec.toInt_lt (x := start)
  simp only [span, List.forall_mem_map, List.mem_range, Spans, side]
  constructor
  · intro h
    have hfirst := h 0 hpos
    rw [show BitVec.ofNat 32 0 + start = start from BitVec.zero_add start] at hfirst
    -- the coordinate that is cut first would be negative
    have hroom : start.toInt + size.toNat - 1 < 2 ^ 31 := by
      by_contra hlarge
      have hcut := (h (2 ^ 31 - start.toInt).toNat (by omega)).1
      have hsum : start.toInt + ((2 ^ 31 - start.toInt).toNat : Int) = 2 ^ 31 := by omega
      rw [coordinate_eq_bmod, hsum] at hcut
      exact absurd hcut (by decide)
    have hlast := (h (size.toNat - 1) (by omega)).2
    rw [coordinate_eq start hfirst.1 (by omega)] at hlast
    omega
  · intro h i hi
    rw [coordinate_eq start h.1 (by omega)]
    omega

/-- The loops stay on the screen exactly when they draw nothing or both their first and
their last pixel are there. -/
theorem contents_inside_iff (env : Env) (win : Window) :
    (∀ q ∈ contents win, Inside env q) ↔ win.width = 0#32 ∨ win.height = 0#32 ∨
      Spans env.fbWidth win.x win.width ∧ Spans env.fbHeight win.y win.height := by
  by_cases hw : win.width = 0#32
  · simp [contents, span, hw]
  by_cases hh : win.height = 0#32
  · simp [contents, span, hh]
  have hx := span_inside_iff env.fbWidth win.x hw
  have hy := span_inside_iff env.fbHeight win.y hh
  simp only [hw, hh, false_or, ← hx, ← hy, contents, List.forall_mem_flatMap, List.forall_mem_map,
    Inside, Within]
  constructor
  · intro h
    obtain ⟨v₀, hv₀⟩ := exists_mem_span win.y hh
    obtain ⟨u₀, hu₀⟩ := exists_mem_span win.x hw
    refine ⟨fun u hu => ?_, fun v hv => ?_⟩
    · have hin := h v₀ hv₀ u hu
      exact ⟨hin.1, hin.2.1⟩
    · exact (h v hv u₀ hu₀).2.2
  · intro h v hv u hu
    exact ⟨(h.1 u hu).1, (h.1 u hu).2, (h.2 v hv).1, (h.2 v hv).2⟩

theorem window_run {t : Painted} (hp : p ∈ t.gui.live) :
    (window p).run t = (.ok (t.gui.mem p), t) := by
  rw [window, gui, Action.bind_ok rfl, deref_eq hp]
  rfl

theorem window_run_error {t : Painted} (hp : p ∉ t.gui.live) :
    (window p).run t = (.error (.ended .wildPointer), t) := by
  rw [window, gui, Action.bind_ok rfl, deref_eq_error hp]
  rfl

/-- The last coordinate of a border that can be computed is that of its window. -/
theorem lastOf_eq {n start size : BitVec 32} {last : Int} (h : Spans n start size)
    (hlast : lastOf start.toInt size.toInt = .ok last) :
    last = start.toInt + size.toNat - 1 := by
  obtain ⟨stop, hstop, hlast⟩ := bind_eq_ok hlast
  obtain ⟨rfl, -⟩ := cInt_eq_ok hstop
  obtain ⟨rfl, hlow, -⟩ := cInt_eq_ok hlast
  have hside : side n ≤ 2 ^ 31 := min_le_right _ _
  have hend := h.2.2.2
  rw [BitVec.toInt_eq_toNat_cond size] at hlow ⊢
  by_cases hsize : 2 * size.toNat < 2 ^ 32
  · rw [if_pos hsize]
  · rw [if_neg hsize] at hlow
    omega

theorem step_eq_some {op : Op} (h : step env s op = some t) :
    ∃ u, op.from env s = (.ok (), u) ∧ u.gui = t := by
  unfold step at h
  split at h
  · next u hrun => exact ⟨u, hrun, Option.some.inj h⟩
  · cases h

theorem openWindow_run {t u : Painted} {width height flags : BitVec 32}
    (hrun : (openWindow env width height flags).run t = (.ok (), u)) :
    Gui.openWindow env t.gui width height flags = .ok u.gui := by
  unfold openWindow at hrun
  rw [gui, Action.bind_ok rfl] at hrun
  cases hopen : Gui.openWindow env t.gui width height flags with
  | error e =>
    rw [hopen] at hrun
    cases hrun
  | ok s =>
    rw [hopen] at hrun
    obtain rfl := (Prod.mk.inj hrun).2
    rfl

/-- The drawing changes nothing of the manager, and if it returns then `P` holds of it. -/
def Looks {α : Type} (P : State → Prop) (x : Draw α) : Prop :=
  ∀ t, (x.run t).2.gui = t.gui ∧ ((x.run t).1.isOk = true → P t.gui)

theorem looks_bind {α β : Type} {P Q : State → Prop} {x : Draw α} {f : α → Draw β}
    (hx : Looks P x) (hf : ∀ a, Looks Q (f a)) : Looks (fun s => P s ∧ Q s) (x >>= f) := by
  intro t
  have ht := hx t
  match hrun : x.run t with
  | (.ok a, u) =>
    rw [hrun] at ht
    have hu := hf a u
    rw [Action.bind_ok hrun]
    rw [show u.gui = t.gui from ht.1] at hu
    exact ⟨hu.1, fun hok => ⟨ht.2 rfl, hu.2 hok⟩⟩
  | (.error e, u) =>
    rw [hrun] at ht
    rw [Action.bind_error hrun]
    exact ⟨ht.1, fun hok => by cases hok⟩

theorem Looks.mono {α : Type} {P Q : State → Prop} {x : Draw α} (h : Looks P x)
    (himp : ∀ s, P s → Q s) : Looks Q x :=
  fun t => ⟨(h t).1, fun hok => himp _ ((h t).2 hok)⟩

theorem looks_pure (a : Unit) : Looks (fun _ => True) (pure a : Draw Unit) :=
  fun _ => ⟨rfl, fun _ => trivial⟩

theorem looks_paintLine (line : Except Stop (List (Int × Int))) :
    Looks (fun _ => True) (paintLine line) := by
  cases line with
  | ok pixels => exact fun _ => ⟨rfl, fun _ => trivial⟩
  | error e => exact fun _ => ⟨rfl, fun _ => trivial⟩

theorem looks_drawBorder (x y w h : Int) : Looks (fun _ => True) (drawBorder x y w h) :=
  (looks_bind (looks_paintLine _) fun _ => looks_bind (looks_paintLine _) fun _ =>
    looks_bind (looks_paintLine _) fun _ => looks_paintLine _).mono fun _ _ => trivial

theorem looks_window (p : Nat) : Looks (p ∈ ·.live) (window p) := by
  intro t
  by_cases hp : p ∈ t.gui.live
  · rw [window_run hp]
    exact ⟨rfl, fun _ => hp⟩
  · rw [window_run_error hp]
    exact ⟨rfl, fun hok => by cases hok⟩

theorem looks_gui {α : Type} {P : State → State → Prop} {f : State → Draw α}
    (h : ∀ s, Looks (P s) (f s)) : Looks (fun s => P s s) (gui >>= f) := by
  intro t
  rw [gui, Action.bind_ok rfl]
  exact h t.gui t

theorem looks_fillWindowPlace (p : Nat) : Looks (p ∈ ·.live) (fillWindowPlace p) :=
  (looks_bind (Q := fun _ => True) (looks_window p) fun _ _ => ⟨rfl, fun _ => trivial⟩).mono
    fun _ h => h.1

theorem looks_renderWindow (p : Nat) : Looks (p ∈ ·.live) (renderWindow p) := by
  refine (looks_bind (Q := fun _ => True) (looks_window p) fun win => ?_).mono fun _ h => h.1
  refine (looks_bind (P := fun _ => True) (Q := fun _ => True) (fun _ => ⟨rfl, fun _ => trivial⟩)
    fun _ => ?_).mono fun _ _ => trivial
  split
  · exact looks_drawBorder _ _ _ _
  · exact looks_pure ()

theorem looks_renderEntry (p : Nat) :
    Looks (fun s => p ∈ s.live ∧ s.topBarWindow ∈ s.live) (renderEntry p) := by
  have hvisible : ∀ win, Looks (fun _ => True) (renderVisible p win) := by
    intro win
    unfold renderVisible
    split
    · exact (looks_renderWindow p).mono fun _ _ => trivial
    · exact looks_pure ()
  have hbar : Looks (fun s => s.topBarWindow ∈ s.live)
      (do let s ← gui; let _ ← window s.topBarWindow) :=
    looks_gui (P := fun s₀ s => s₀.topBarWindow ∈ s.live) fun s₀ =>
      (looks_bind (looks_window s₀.topBarWindow) fun _ => looks_pure ()).mono fun _ h => h.1
  exact (looks_bind (looks_window p) fun win => looks_bind (hvisible win) fun _ => hbar).mono
    fun _ h => ⟨h.1, h.2.2⟩

theorem looks_renderEntries (items : List Nat) :
    Looks (fun s => ∀ p ∈ items, p ∈ s.live) (renderEntries items) := by
  induction items with
  | nil => exact (looks_pure ()).mono fun _ _ p hp => absurd hp List.not_mem_nil
  | cons p items ih =>
    refine (looks_bind (looks_renderEntry p) fun _ => ih).mono fun s h => ?_
    simp only [List.mem_cons, forall_eq_or_imp]
    exact ⟨h.1.1, h.2⟩

theorem looks_renderScreen : Looks (fun s => Gui.renderScreen s = .ok ()) renderScreen := by
  refine (looks_gui (P := fun s₀ s => s₀.topBarWindow ∈ s.live ∧
    (∀ p ∈ s₀.windowList.items, p ∈ s.live) ∧ s₀.topBarWindow ∈ s.live) fun s₀ =>
    looks_bind (looks_renderWindow s₀.topBarWindow) fun _ =>
      looks_bind (looks_renderEntries s₀.windowList.items) fun _ =>
        looks_renderWindow s₀.topBarWindow).mono fun s h => ?_
  rw [renderScreen_eq h.2.1, if_pos h.1]

theorem Looks.run_eq {P : State → Prop} {x : Draw Unit} {t u : Painted} (h : Looks P x)
    (hrun : x.run t = (.ok (), u)) : u.gui = t.gui ∧ P t.gui := by
  have ht := h t
  rw [hrun] at ht
  exact ⟨ht.1, ht.2 rfl⟩

theorem window_run_eq {t u : Painted} (hrun : (window p).run t = (.ok win, u)) :
    u = t ∧ deref t.gui p = .ok win := by
  by_cases hp : p ∈ t.gui.live
  · rw [window_run hp] at hrun
    obtain ⟨hwin, hsame⟩ := Prod.mk.inj hrun
    exact ⟨hsame.symm, (deref_eq hp).trans (congrArg Except.ok (Except.ok.inj hwin))⟩
  · rw [window_run_error hp] at hrun
    cases hrun

theorem quietly_run_eq {α : Type} {x : Except End α} {t u : Painted} {a : α}
    (hrun : (quietly x : Draw α).run t = (.ok a, u)) : x = .ok a ∧ u = t := by
  cases x with
  | error e => cases hrun
  | ok b =>
    obtain ⟨hvalue, hsame⟩ := Prod.mk.inj hrun
    exact ⟨congrArg Except.ok (Except.ok.inj hvalue), hsame.symm⟩

theorem moveWindow_run {t u : Painted} {dx dy : BitVec 32}
    (hrun : (moveWindow env p dx dy).run t = (.ok (), u)) :
    Gui.moveWindow env t.gui p dx dy = .ok u.gui := by
  obtain ⟨win, t₁, hwin, hmove⟩ := Action.run_bind_eq_ok hrun
  obtain ⟨rfl, hderef⟩ := window_run_eq hwin
  rw [Gui.moveWindow, hderef, ok_bind]
  by_cases hleaves : leavesScreen env win dx dy = true
  · rw [if_pos hleaves] at hmove ⊢
    obtain rfl := (Prod.mk.inj hmove).2
    rfl
  · rw [if_neg hleaves] at hmove ⊢
    obtain ⟨_, t₂, hfill, hplace⟩ := Action.run_bind_eq_ok hmove
    obtain ⟨_, t₃, hset, hscreen⟩ := Action.run_bind_eq_ok hplace
    have hfilled := ((looks_fillWindowPlace p).run_eq hfill).1
    obtain rfl := (Prod.mk.inj hset).2
    obtain ⟨hsame, hrender⟩ := looks_renderScreen.run_eq hscreen
    dsimp only [Window.shift] at hsame hrender ⊢
    rw [hfilled] at hsame hrender
    rw [hrender, ok_bind, hsame]
    rfl

theorem closeWindow_run {t u : Painted} (hrun : (closeWindow env p).run t = (.ok (), u)) :
    Gui.closeWindow env t.gui p = .ok u.gui := by
  obtain ⟨win, t₁, hwin, hclose⟩ := Action.run_bind_eq_ok hrun
  obtain ⟨rfl, hderef⟩ := window_run_eq hwin
  rw [gui, Action.bind_ok rfl] at hclose
  obtain ⟨windowList, t₂, hlist, hrest⟩ := Action.run_bind_eq_ok hclose
  obtain ⟨hremove, rfl⟩ := quietly_run_eq hlist
  obtain ⟨_, t₃, hset, helect⟩ := Action.run_bind_eq_ok hrest
  obtain rfl := (Prod.mk.inj hset).2
  rw [Action.bind_ok rfl] at helect
  obtain ⟨focused, t₄, hchosen, hdraw⟩ := Action.run_bind_eq_ok helect
  obtain ⟨hfocused, rfl⟩ := quietly_run_eq hchosen
  obtain ⟨_, t₅, hset, hdraw⟩ := Action.run_bind_eq_ok hdraw
  obtain rfl := (Prod.mk.inj hset).2
  obtain ⟨_, t₆, hscreen, hfree⟩ := Action.run_bind_eq_ok hdraw
  obtain ⟨hsame, hrender⟩ := looks_renderScreen.run_eq hscreen
  obtain rfl := (Prod.mk.inj hfree).2
  rw [Gui.closeWindow, hderef, ok_bind, hremove, ok_bind]
  dsimp only at hfocused hrender hsame ⊢
  by_cases hfocus : t₂.gui.focused = p
  · rw [if_pos hfocus] at hfocused ⊢
    rw [hfocused, ok_bind, hrender, ok_bind, hsame]
    rfl
  · rw [if_neg hfocus] at hfocused ⊢
    rw [hfocused, ok_bind, hrender, ok_bind, hsame]
    rfl

/-- What an operation is for the manager. -/
def Op.managed (env : Env) (s : State) : Op → Except End State
  | .openWindow width height flags => Gui.openWindow env s width height flags
  | .moveWindow p dx dy => Gui.moveWindow env s p dx dy
  | .renderWindow _ => .ok s
  | .fillWindowPlace _ => .ok s
  | .closeWindow p => Gui.closeWindow env s p

/-- The drawing run is a run of the manager. -/
theorem step_managed {op : Op} (hstep : step env s op = some t) : op.managed env s = .ok t := by
  obtain ⟨u, hrun, rfl⟩ := step_eq_some hstep
  cases op with
  | openWindow width height flags => exact openWindow_run hrun
  | moveWindow p dx dy => exact moveWindow_run hrun
  | renderWindow p => exact congrArg Except.ok ((looks_renderWindow p).run_eq hrun).1.symm
  | fillWindowPlace p => exact congrArg Except.ok ((looks_fillWindowPlace p).run_eq hrun).1.symm
  | closeWindow p => exact closeWindow_run hrun

/-- For a window with area the condition is exact as soon as it is drawn. -/
theorem fillWindowPlace_sound_iff (hp : p ∈ s.live) (hwidth : (s.mem p).width ≠ 0#32)
    (hheight : (s.mem p).height ≠ 0#32) :
    Sound env s (.fillWindowPlace p) ↔ Fits env (s.mem p) := by
  have hpixels : (Op.from env s (.fillWindowPlace p)).2.pixels = contents (s.mem p) := by
    show ((window p >>= fun win => paint (contents win)).run _).2.pixels = _
    rw [Action.bind_ok (window_run hp)]
    rfl
  rw [Sound, hpixels, contents_inside_iff, Fits]
  simp [hwidth, hheight]

end Drawing
end Gui
end Medusa
