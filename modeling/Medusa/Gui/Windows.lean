import Mathlib.Logic.Function.Basic
import Medusa.Machine.Loop
import Medusa.Machine.Run

/-!
# The window manager

Windows are `window_t`s from `kmalloc`, known by their addresses.  The manager keeps
three kinds of pointers to them: the list, `focused`, and the globals for the two
windows that `init_gui` opens.  A key may open a window, close, move or fill the
focused one, and most keys draw the whole screen again, which reads every window of
the list and the top bar.

Pixels, titles and the clock are not modelled, nor is a heap that runs out, where
`kmalloc` ends the run.
-/

namespace Medusa
namespace Gui

open Machine

/-- `window_t`, as far as the handlers of keys look at it. -/
structure Window where
  width : BitVec 32
  height : BitVec 32
  flags : BitVec 32
  x : BitVec 32
  y : BitVec 32

def noBorder : BitVec 32 := 0x01#32
def notVisible : BitVec 32 := 0x02#32
def wmWindow : BitVec 32 := 0x04#32

/-- `list_t`; `used` is the length of `items`. -/
structure WindowList where
  items : List Nat
  size : Nat

/-- The screen, and what the heap does while the window with the given number is
opened: the block that `kmalloc` returns, the position that lies in it, and whether
`krealloc` finds a block for the list that has room for a copy of the whole old one. -/
structure Env where
  fbWidth : BitVec 32
  fbHeight : BitVec 32
  kmalloc : Nat → Nat
  junk : Nat → BitVec 32 × BitVec 32
  copyFits : Nat → Bool
  kmalloc_ne_null : ∀ n, kmalloc n ≠ 0

structure State where
  live : List Nat
  mem : Nat → Window
  opened : Nat
  focused : Nat
  backgroundWindow : Nat
  topBarWindow : Nat
  windowList : WindowList
  rowPutchar : BitVec 32
  columnPutchar : BitVec 32
  keyPressed : BitVec 8 → Bool

/-- Why a handler leaves no state: it followed a pointer to no window, `krealloc`
copied past its block, or the machine rebooted. -/
inductive End where
  | wildPointer
  | overrun
  | reboot
deriving DecidableEq, Repr

/-! ## Windows and their list -/

def deref (s : State) (p : Nat) : Except End Window :=
  if p ∈ s.live then .ok (s.mem p) else .error .wildPointer

def listAppend (env : Env) (n p : Nat) (l : WindowList) : Except End WindowList :=
  if l.items.length = l.size then
    if env.copyFits n then .ok ⟨l.items ++ [p], l.size * 2⟩ else .error .overrun
  else .ok ⟨l.items ++ [p], l.size⟩

/-- `list_remove` copies all other elements to a new list. -/
def listRemove (env : Env) (n p : Nat) (l : WindowList) : Except End WindowList :=
  l.items.foldlM (fun new q => if q ≠ p then listAppend env n q new else .ok new) ⟨[], l.size⟩

/-- One round of `render_screen`: `render_window` and `add_to_top_bar_window_list`. -/
def renderEntry (s : State) (p : Nat) : Except End Unit := do
  let _ ← deref s p
  let _ ← deref s s.topBarWindow
  .ok ()

/-- `render_screen`.  `clear_window_list` and the date are drawn into the top bar. -/
def renderScreen (s : State) : Except End Unit := do
  let _ ← deref s s.topBarWindow
  s.windowList.items.forM (renderEntry s)
  let _ ← deref s s.topBarWindow
  .ok ()

/-- `open_window`.  The position is not set. -/
def openWindow (env : Env) (s : State) (width height flags : BitVec 32) : Except End State := do
  let win := env.kmalloc s.opened
  let junk := env.junk s.opened
  let windowList ← listAppend env s.opened win s.windowList
  return { s with
    live := win :: s.live
    mem := Function.update s.mem win ⟨width, height, flags, junk.1, junk.2⟩
    opened := s.opened + 1
    focused := win
    windowList := windowList }

def firstNormal (s : State) : List Nat → Except End Nat
  | [] => .ok 0
  | p :: rest => do
    let win ← deref s p
    if win.flags &&& wmWindow = 0#32 ∧ win.flags &&& notVisible = 0#32 then return p
    else firstNormal s rest

def findFirstNormalWindow (s : State) : Except End Nat :=
  firstNormal s s.windowList.items

/-- `close_window`.  The window is freed when the screen has been drawn. -/
def closeWindow (env : Env) (s : State) (win : Nat) : Except End State := do
  let _ ← deref s win
  let windowList ← listRemove env s.opened win s.windowList
  let s := { s with windowList := windowList }
  let focused ← if s.focused = win then findFirstNormalWindow s else .ok s.focused
  let s := { s with focused := focused }
  renderScreen s
  return { s with live := s.live.filter (· ≠ win) }

/-- `window->x + x < 0 || window->x + x > fb.width`, and the same for `y`. -/
def leavesScreen (env : Env) (win : Window) (dx dy : BitVec 32) : Bool :=
  (win.x + dx).toInt < 0 || env.fbWidth < win.x + dx ||
    (win.y + dy).toInt < 0 || env.fbHeight < win.y + dy

def moveWindow (env : Env) (s : State) (p : Nat) (dx dy : BitVec 32) : Except End State := do
  let win ← deref s p
  if leavesScreen env win dx dy then return s
  else
    let s := { s with mem := Function.update s.mem p { win with x := win.x + dx, y := win.y + dy } }
    renderScreen s
    return s

/-- The end of `putchar_gui`; `column_putchar >= focused->width - 16` compares
unsigned words. -/
def advanceCursor (s : State) (win : Window) : State :=
  let column := s.columnPutchar + 8#32
  let row := s.rowPutchar + 12#32
  if win.width - 16#32 ≤ column then
    { s with columnPutchar := 8#32, rowPutchar := if row = win.height then 0#32 else row }
  else { s with columnPutchar := column }

def putcharGui (s : State) (c : BitVec 8) : Except End State := do
  if c = 0x0A#8 then
    return { s with rowPutchar := s.rowPutchar + 12#32, columnPutchar := 8#32 }
  else
    let win ← deref s s.focused
    let s := advanceCursor s win
    renderScreen s
    return s

/-! ## Keys -/

def keyboardUs : List (BitVec 8) :=
  [0, 27, 0x31, 0x32, 0x33, 0x34, 0x35, 0x36, 0x37, 0x38, 0x39, 0x30, 0x2D, 0x3D, 8, 9,
    0x71, 0x77, 0x65, 0x72, 0x74, 0x79, 0x75, 0x69, 0x6F, 0x70, 0x5B, 0x5D, 0x0A, 0,
    0x61, 0x73, 0x64, 0x66, 0x67, 0x68, 0x6A, 0x6B, 0x6C, 0x3B, 0x27, 0x60, 0, 0x5C,
    0x7A, 0x78, 0x63, 0x76, 0x62, 0x6E, 0x6D, 0x2C, 0x2E, 0x2F, 0, 0x2A, 0, 0x20, 0,
    0, 0, 0, 0, 0, 0, 0, 0, 0, 0, 0, 0, 0, 0, 0, 0x2D, 0, 0, 0, 0x2B]

inductive Key where
  | escape
  | arrow (dx dy : BitVec 32)
  | letter (c : BitVec 8)
deriving DecidableEq, Repr

/-- The tests on the scan code of a key that is pressed; `move_window_wm` moves by a
hundred pixels. -/
def keyOf (scanCode : BitVec 8) : Key :=
  if scanCode = 0x01#8 then .escape
  else if scanCode = 0x4B#8 then .arrow (-100#32) 0#32
  else if scanCode = 0x48#8 then .arrow 0#32 (-100#32)
  else if scanCode = 0x4D#8 then .arrow 100#32 0#32
  else if scanCode = 0x50#8 then .arrow 0#32 100#32
  else .letter (keyboardUs.getD scanCode.toNat 0#8)

def press (env : Env) (s : State) : Key → Except End State
  | .escape => .error .reboot
  | .arrow dx dy => moveWindow env s s.focused dx dy
  | .letter c =>
    if c = 0x6E#8 then do
      let s ← openWindow env s 300#32 125#32 0#32
      -- `draw_string` and `render_window` of the window `open_window` returned
      let _ ← deref s s.focused
      return s
    else if c = 0x71#8 then closeWindow env s s.focused
    else putcharGui s c

def setKeyPressed (s : State) (scanCode : BitVec 8) (pressed : Bool) : State :=
  { s with keyPressed := Function.update s.keyPressed scanCode pressed }

/-- `sys_key_handler` in GUI mode, where `custom_keypress_function` stays `NULL`. -/
def sysKeyHandler (env : Env) (s : State) (scanCode : BitVec 8) : Except End State :=
  if scanCode = 0xE0#8 then .ok s
  else if 128 ≤ scanCode.toNat then .ok (setKeyPressed s (scanCode - 128#8) false)
  else press env (setKeyPressed s scanCode true) (keyOf scanCode)

def step (env : Env) (s : State) (scanCode : BitVec 8) : Option State :=
  (sysKeyHandler env s scanCode).toOption

def initGui (env : Env) : Except End State := do
  let s : State :=
    { live := [], mem := fun _ => ⟨0#32, 0#32, 0#32, 0#32, 0#32⟩, opened := 0, focused := 0,
      backgroundWindow := 0, topBarWindow := 0, windowList := ⟨[], 1⟩,
      rowPutchar := 0#32, columnPutchar := 8#32, keyPressed := fun _ => false }
  let s ← openWindow env s env.fbWidth env.fbHeight (noBorder ||| wmWindow)
  let s := { s with backgroundWindow := s.focused }
  let s ← openWindow env s env.fbWidth (env.fbHeight / 15#32) (noBorder ||| wmWindow)
  let s := { s with topBarWindow := s.focused }
  renderScreen s
  return s

/-! ## The law and its condition -/

def FocusListed (s : State) : Prop :=
  s.focused = 0 ∨ s.focused ∈ s.windowList.items

/-- Pointers to live windows only were followed, and the focus is on a window of the
list. -/
def EndsWell : Except End State → Prop
  | .ok s => FocusListed s
  | .error e => e = .reboot

def Sound (env : Env) (s : State) (scanCode : BitVec 8) : Prop :=
  EndsWell (sysKeyHandler env s scanCode)

/-- There is a focused window, and the top bar has not been closed. -/
def CanDraw (s : State) : Prop :=
  s.focused ≠ 0 ∧ s.topBarWindow ∈ s.live

def PressSteady (env : Env) (s : State) : Key → Prop
  | .escape => True
  | .arrow dx dy => s.focused ≠ 0 ∧
    (leavesScreen env (s.mem s.focused) dx dy = true ∨ s.topBarWindow ∈ s.live)
  | .letter c =>
    if c = 0x6E#8 then
      s.windowList.items.length ≠ s.windowList.size ∨ env.copyFits s.opened = true
    else if c = 0x71#8 then CanDraw s
    else c = 0x0A#8 ∨ CanDraw s

/-- What the code needs.  To move, fill or close the focused window there has to be
one; to draw the screen again the top bar has to be there; to open a window the list
has to have room, or `krealloc` a block that can take it. -/
def Steady (env : Env) (s : State) (scanCode : BitVec 8) : Prop :=
  128 ≤ scanCode.toNat ∨ PressSteady env s (keyOf scanCode)

/-! ## What each function does -/

/-- Between two keys: no window is at `NULL`, and the pointers of the list and the
focus are live. -/
structure Good (s : State) : Prop where
  null : 0 ∉ s.live
  listed : ∀ p ∈ s.windowList.items, p ∈ s.live
  focus : FocusListed s
  room : s.windowList.items.length ≤ s.windowList.size
  size_pos : 0 < s.windowList.size

variable {env : Env} {s : State} {p : Nat}

theorem deref_eq (h : p ∈ s.live) : deref s p = .ok (s.mem p) := if_pos h

theorem deref_eq_error (h : p ∉ s.live) : deref s p = .error .wildPointer := if_neg h

/-- A screen without its top bar cannot be drawn. -/
theorem renderScreen_eq (hlisted : ∀ p ∈ s.windowList.items, p ∈ s.live) :
    renderScreen s = if s.topBarWindow ∈ s.live then .ok () else .error .wildPointer := by
  unfold renderScreen
  by_cases htop : s.topBarWindow ∈ s.live
  · have hloop : ∀ items : List Nat, (∀ p ∈ items, p ∈ s.live) →
        items.forM (renderEntry s) = .ok () := by
      intro items hitems
      induction items with
      | nil => rfl
      | cons p items ih =>
        simp only [List.mem_cons, forall_eq_or_imp] at hitems
        have hentry : renderEntry s p = .ok () := by
          rw [renderEntry, deref_eq hitems.1, ok_bind, deref_eq htop, ok_bind]
        show (renderEntry s p >>= fun _ => items.forM (renderEntry s)) = .ok ()
        rw [hentry, ok_bind]
        exact ih hitems.2
    rw [if_pos htop, deref_eq htop, ok_bind, hloop _ hlisted, ok_bind, ok_bind]
  · rw [if_neg htop, deref_eq_error htop]
    rfl

/-- The election finds no window or one of the list. -/
theorem firstNormal_spec {items : List Nat} (h : ∀ p ∈ items, p ∈ s.live) :
    ∃ f, firstNormal s items = .ok f ∧ (f = 0 ∨ f ∈ items) := by
  induction items with
  | nil => exact ⟨0, rfl, Or.inl rfl⟩
  | cons p items ih =>
    simp only [List.mem_cons, forall_eq_or_imp] at h
    rw [firstNormal, deref_eq h.1, ok_bind]
    by_cases hnormal : (s.mem p).flags &&& wmWindow = 0#32 ∧ (s.mem p).flags &&& notVisible = 0#32
    · rw [if_pos hnormal]
      exact ⟨p, rfl, Or.inr (by simp)⟩
    · rw [if_neg hnormal]
      obtain ⟨f, hf, hin⟩ := ih h.2
      exact ⟨f, hf, hin.imp_right (List.mem_cons_of_mem p)⟩

/-- The new list is created with the size of the old one, so it never grows. -/
theorem listRemove_eq {l : WindowList} (n p : Nat) (h : l.items.length ≤ l.size) :
    listRemove env n p l = .ok ⟨l.items.filter (· ≠ p), l.size⟩ := by
  have hloop : ∀ items done : List Nat, done.length + items.length ≤ l.size →
      items.foldlM (fun new q => if q ≠ p then listAppend env n q new else .ok new)
        (⟨done, l.size⟩ : WindowList) =
      (.ok ⟨done ++ items.filter (· ≠ p), l.size⟩ : Except End WindowList) := by
    intro items
    induction items with
    | nil => simp [pure, Except.pure]
    | cons q items ih =>
      intro done hroom
      simp only [List.length_cons] at hroom
      rw [List.foldlM_cons]
      by_cases hq : q ≠ p
      · have hspare : ¬ done.length = l.size := by omega
        rw [if_pos hq, listAppend, if_neg hspare, ok_bind, ih _ (by simp; omega)]
        simp [hq]
      · rw [if_neg hq, ok_bind, ih _ (by omega)]
        simp [hq]
  exact hloop l.items [] (by simpa using h)

theorem listAppend_eq (n p : Nat) (l : WindowList) :
    listAppend env n p l =
      if l.items.length ≠ l.size ∨ env.copyFits n = true then
        .ok ⟨l.items ++ [p], if l.items.length = l.size then l.size * 2 else l.size⟩
      else .error .overrun := by
  unfold listAppend
  by_cases hfull : l.items.length = l.size
  · simp [hfull]
  · simp [hfull]

theorem Good.deref_focused (h : Good s) :
    deref s s.focused = if s.focused = 0 then .error .wildPointer else .ok (s.mem s.focused) := by
  by_cases hnone : s.focused = 0
  · rw [if_pos hnone, hnone, deref_eq_error h.null]
  · rw [if_neg hnone, deref_eq (h.listed _ (h.focus.resolve_left hnone))]

/-! ## One key

Under the invariant a handler either meets the condition, and keeps the invariant,
or follows a pointer to no window or copies past a block. -/

def Settles (C : Prop) (outcome : Except End State) : Prop :=
  (C → ∃ s', outcome = .ok s' ∧ Good s') ∧
    (¬ C → outcome = .error .wildPointer ∨ outcome = .error .overrun)

theorem openWindow_settles (env : Env) (h : Good s) (width height flags : BitVec 32) :
    Settles (s.windowList.items.length ≠ s.windowList.size ∨ env.copyFits s.opened = true)
      (openWindow env s width height flags) := by
  simp only [openWindow, listAppend_eq]
  constructor
  · intro hroom
    rw [if_pos hroom]
    refine ⟨_, rfl, ?_, ?_, Or.inr (by simp), ?_, ?_⟩
    · have hnull := env.kmalloc_ne_null s.opened
      simp only [List.mem_cons, not_or]
      exact ⟨fun he => hnull he.symm, h.null⟩
    · intro p hp
      simp only [List.mem_append, List.mem_singleton] at hp
      rcases hp with hold | rfl
      · exact List.mem_cons_of_mem _ (h.listed p hold)
      · exact List.mem_cons_self
    · have hle := h.room
      have hpos := h.size_pos
      simp only [List.length_append, List.length_singleton]
      split <;> omega
    · have hpos := h.size_pos
      simp only
      split <;> omega
  · intro hfull
    rw [if_neg hfull]
    exact Or.inr rfl

theorem closeWindow_settles (h : Good s) :
    Settles (CanDraw s) (closeWindow env s s.focused) := by
  unfold closeWindow
  by_cases hnone : s.focused = 0
  · rw [h.deref_focused, if_pos hnone]
    exact ⟨fun hdraw => absurd hnone hdraw.1, fun _ => Or.inl rfl⟩
  · have hlisted : ∀ p ∈ s.windowList.items.filter (· ≠ s.focused), p ∈ s.live := by
      intro p hp
      exact h.listed p (List.mem_of_mem_filter hp)
    rw [h.deref_focused, if_neg hnone, ok_bind, listRemove_eq _ _ h.room, ok_bind]
    simp only [if_true, findFirstNormalWindow]
    obtain ⟨f, hf, helect⟩ := firstNormal_spec (s := { s with
      windowList := ⟨s.windowList.items.filter (· ≠ s.focused), s.windowList.size⟩ }) hlisted
    rw [hf, ok_bind, renderScreen_eq hlisted]
    constructor
    · intro hdraw
      rw [if_pos hdraw.2]
      refine ⟨_, rfl, ?_, ?_, helect, ?_, h.size_pos⟩
      · intro hzero
        exact h.null (List.mem_of_mem_filter hzero)
      · intro p hp
        have hne := (List.mem_filter.mp hp).2
        exact List.mem_filter.mpr ⟨hlisted p hp, hne⟩
      · exact Nat.le_trans (List.length_filter_le _ _) h.room
    · intro hdraw
      rw [if_neg fun htop => hdraw ⟨hnone, htop⟩]
      exact Or.inl rfl

theorem moveWindow_settles (h : Good s) (dx dy : BitVec 32) :
    Settles (s.focused ≠ 0 ∧
        (leavesScreen env (s.mem s.focused) dx dy = true ∨ s.topBarWindow ∈ s.live))
      (moveWindow env s s.focused dx dy) := by
  unfold moveWindow
  by_cases hnone : s.focused = 0
  · rw [h.deref_focused, if_pos hnone]
    exact ⟨fun hmove => absurd hnone hmove.1, fun _ => Or.inl rfl⟩
  · rw [h.deref_focused, if_neg hnone, ok_bind]
    by_cases hleaves : leavesScreen env (s.mem s.focused) dx dy = true
    · rw [if_pos hleaves]
      exact ⟨fun _ => ⟨s, rfl, h⟩, fun hmove => absurd ⟨hnone, Or.inl hleaves⟩ hmove⟩
    · rw [if_neg hleaves]
      dsimp only
      rw [renderScreen_eq]
      · constructor
        · intro hmove
          rw [if_pos (hmove.2.resolve_left hleaves)]
          exact ⟨_, rfl, h.null, h.listed, h.focus, h.room, h.size_pos⟩
        · intro hmove
          rw [if_neg fun htop => hmove ⟨hnone, Or.inr htop⟩]
          exact Or.inl rfl
      · exact h.listed

theorem advanceCursor_same (s : State) (win : Window) :
    (advanceCursor s win).live = s.live ∧ (advanceCursor s win).windowList = s.windowList ∧
      (advanceCursor s win).focused = s.focused ∧
      (advanceCursor s win).topBarWindow = s.topBarWindow := by
  unfold advanceCursor
  dsimp only
  split
  · exact ⟨rfl, rfl, rfl, rfl⟩
  · exact ⟨rfl, rfl, rfl, rfl⟩

theorem Good.advanceCursor (h : Good s) (win : Window) : Good (advanceCursor s win) := by
  obtain ⟨hlive, hlist, hfocus, -⟩ := advanceCursor_same s win
  constructor
  · rw [hlive]
    exact h.null
  · rw [hlive, hlist]
    exact h.listed
  · rw [FocusListed, hfocus, hlist]
    exact h.focus
  · rw [hlist]
    exact h.room
  · rw [hlist]
    exact h.size_pos

theorem putcharGui_settles (h : Good s) (c : BitVec 8) :
    Settles (c = 0x0A#8 ∨ CanDraw s) (putcharGui s c) := by
  unfold putcharGui
  by_cases hfeed : c = 0x0A#8
  · rw [if_pos hfeed]
    exact ⟨fun _ => ⟨_, rfl, h.null, h.listed, h.focus, h.room, h.size_pos⟩,
      fun hnot => absurd (Or.inl hfeed) hnot⟩
  · rw [if_neg hfeed]
    by_cases hnone : s.focused = 0
    · rw [h.deref_focused, if_pos hnone]
      exact ⟨fun hdraw => absurd hnone (hdraw.resolve_left hfeed).1, fun _ => Or.inl rfl⟩
    · rw [h.deref_focused, if_neg hnone, ok_bind]
      have hgood := h.advanceCursor (s.mem s.focused)
      have hsame := advanceCursor_same s (s.mem s.focused)
      dsimp only
      rw [renderScreen_eq hgood.listed, hsame.2.2.2, hsame.1]
      constructor
      · intro hdraw
        rw [if_pos (hdraw.resolve_left hfeed).2]
        exact ⟨_, rfl, hgood⟩
      · intro hdraw
        rw [if_neg fun hbar => hdraw (Or.inr ⟨hnone, hbar⟩)]
        exact Or.inl rfl

/-! ## Whole runs -/

theorem Good.setKeyPressed (h : Good s) (scanCode : BitVec 8) (pressed : Bool) :
    Good (setKeyPressed s scanCode pressed) :=
  ⟨h.null, h.listed, h.focus, h.room, h.size_pos⟩

theorem openWindow_focused {width height flags : BitVec 32} {s' : State}
    (h : openWindow env s width height flags = .ok s') : s'.focused ≠ 0 := by
  simp only [openWindow, listAppend_eq] at h
  split at h
  · obtain rfl := Except.ok.inj h
    exact env.kmalloc_ne_null s.opened
  · cases h

theorem press_settles (h : Good s) {key : Key} (hkey : key ≠ .escape) :
    Settles (PressSteady env s key) (press env s key) := by
  cases key with
  | escape => exact absurd rfl hkey
  | arrow dx dy => exact moveWindow_settles h dx dy
  | letter c =>
    unfold press PressSteady
    dsimp only
    by_cases hopen : c = 0x6E#8
    · have hsettles := openWindow_settles env h 300#32 125#32 0#32
      rw [if_pos hopen, if_pos hopen]
      constructor
      · intro hroom
        obtain ⟨s', hrun, hgood⟩ := hsettles.1 hroom
        refine ⟨s', ?_, hgood⟩
        rw [hrun, ok_bind, hgood.deref_focused, if_neg (openWindow_focused hrun)]
        rfl
      · intro hfull
        rcases hsettles.2 hfull with hrun | hrun
        · rw [hrun]
          exact Or.inl rfl
        · rw [hrun]
          exact Or.inr rfl
    · rw [if_neg hopen, if_neg hopen]
      by_cases hclose : c = 0x71#8
      · rw [if_pos hclose, if_pos hclose]
        exact closeWindow_settles h
      · rw [if_neg hclose, if_neg hclose]
        exact putcharGui_settles h c

theorem good_step {scanCode : BitVec 8} {s' : State} (h : Good s)
    (hsteady : Steady env s scanCode) (hstep : step env s scanCode = some s') : Good s' := by
  unfold step sysKeyHandler at hstep
  by_cases hextended : scanCode = 0xE0#8
  · rw [if_pos hextended] at hstep
    obtain rfl := Option.some.inj hstep
    exact h
  · rw [if_neg hextended] at hstep
    by_cases hreleased : 128 ≤ scanCode.toNat
    · rw [if_pos hreleased] at hstep
      obtain rfl := Option.some.inj hstep
      exact h.setKeyPressed _ _
    · rw [if_neg hreleased] at hstep
      by_cases hescape : keyOf scanCode = .escape
      · rw [hescape] at hstep
        cases hstep
      · obtain ⟨t, hrun, hgood⟩ := (press_settles (h.setKeyPressed scanCode true) hescape).1
          (hsteady.resolve_left hreleased)
        rw [hrun] at hstep
        obtain rfl := Option.some.inj hstep
        exact hgood

/-- A screen of 640 by 480 and a heap that always finds a new place. -/
def calmEnv : Env where
  fbWidth := 640#32
  fbHeight := 480#32
  kmalloc n := n + 1
  junk _ := (0#32, 0#32)
  copyFits _ := true
  kmalloc_ne_null := Nat.succ_ne_zero

end Gui
end Medusa
