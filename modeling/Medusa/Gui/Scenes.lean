import Medusa.Gui.Composition
import Medusa.Libc.String
import Medusa.Machine.Run

/-!
# Runs with pictures

The operations of the manager together with the buffers of its windows.  A window that is
opened gets a buffer of its own and a place on the screen, and keeps to them: whatever
operations follow, a window's buffer changes only when a character is written into that
window, and whenever the screen is drawn it shows the windows as they are stacked.
-/

namespace Medusa
namespace Gui
namespace Composition

open Machine Kernel Graphics Graphics.Pixels
open Fb (FbInfo)
open Drawing (Halt)

/-- The manager, and the memory with the screen and the buffers. -/
structure Scene where
  display : Display
  mem : Mem

inductive Op where
  | openWindow (title : List (BitVec 8)) (width height flags : BitVec 32)
  | moveWindow (p : Nat) (dx dy : BitVec 32)
  | closeWindow (p : Nat)
  | putcharGui (c : BitVec 8)

/-- An operation, and the date that the clock shows when it is done. -/
structure Call where
  op : Op
  date : List (BitVec 8)

/-! ## The code -/

section Code

variable (env : Env) (zalloc : Nat → Nat) (font : Glyphs)

/-- `open_window`; `zalloc` gives the blocks of the buffers. -/
def openWindow (s : Scene) (title : List (BitVec 8)) (width height flags : BitVec 32) :
    Except Halt Scene := do
  let gui ← ended (Gui.openWindow env s.display.gui width height flags)
  let win := gui.focused
  let address := zalloc s.display.gui.opened
  let size := wrap (wrap (height.toNat * width.toNat) * 32) / 8
  return {
    display := { s.display with
      gui := gui
      buffer := Function.update s.display.buffer win address
      title := Function.update s.display.title win title }
    mem := Libc.memset s.mem address 0#8 size }

/-- `fill_window_place`; `background_color` is never set. -/
def fillWindowPlace (fb : FbInfo) (win : Window) (m : Mem) : Mem :=
  (List.range win.height.toNat).foldl (fun m y => (List.range win.width.toNat).foldl (fun m x =>
    write32 m (offset fb (BitVec.ofNat 32 x + win.x) (BitVec.ofNat 32 y + win.y)) 0) m) m

/-- `window->x += x` and `window->y += y`. -/
def Display.shift (d : Display) (p : Nat) (dx dy : BitVec 32) : Display :=
  { d with gui := { d.gui with
    mem := Function.update d.gui.mem p (Drawing.Window.shift (d.gui.mem p) dx dy) } }

def moveWindow (s : Scene) (p : Nat) (dx dy : BitVec 32) (date : List (BitVec 8)) :
    Except Halt Scene := do
  let win ← ended (deref s.display.gui p)
  if leavesScreen env win dx dy then return s
  else
    let m := fillWindowPlace s.display.fb win s.mem
    let d := s.display.shift p dx dy
    let m ← renderScreen font d date m
    return ⟨d, m⟩

def closeWindow (s : Scene) (p : Nat) (date : List (BitVec 8)) : Except Halt Scene := do
  let gui := s.display.gui
  let _ ← ended (deref gui p)
  let windowList ← ended (listRemove env gui.opened p gui.windowList)
  let gui := { gui with windowList := windowList }
  let focused ← ended (if gui.focused = p then findFirstNormalWindow gui else .ok gui.focused)
  let gui := { gui with focused := focused }
  let m ← renderScreen font { s.display with gui := gui } date s.mem
  return ⟨{ s.display with gui := { gui with live := gui.live.filter (· ≠ p) } }, m⟩

def putcharGui (s : Scene) (c : BitVec 8) (date : List (BitVec 8)) : Except Halt Scene := do
  let gui := s.display.gui
  if c = 0x0A#8 then
    return { s with display := { s.display with
      gui := { gui with rowPutchar := gui.rowPutchar + 12#32, columnPutchar := 8#32 } } }
  else
    let win ← ended (deref gui gui.focused)
    let m := drawChar font (windowFb win (s.display.buffer gui.focused)) s.mem c gui.columnPutchar
      gui.rowPutchar 0xFFFFFF
    let d := { s.display with gui := advanceCursor gui win }
    let m ← renderScreen font d date m
    return ⟨d, m⟩

/-- `draw_rectangle` over the whole buffer of a window. -/
def fillWindow (s : Scene) (p col : Nat) : Except Halt Scene := do
  let win ← ended (deref s.display.gui p)
  return { s with
    mem := drawRectangle (windowFb win (s.display.buffer p)) s.mem 0#32 0#32 win.width win.height
      col }

def blank (fb : FbInfo) : Display where
  gui := Drawing.blank.gui
  fb := fb
  buffer _ := 0
  title _ := []

def bytesOf (text : String) : List (BitVec 8) := text.toList.map fun c => BitVec.ofNat 8 c.toNat

/-- `init_gui`, where `fb_get_info` returns `fb`. -/
def initGui (fb : FbInfo) (date : List (BitVec 8)) (m : Mem) : Except Halt Scene := do
  let s ← openWindow env zalloc ⟨blank fb, m⟩ (bytesOf "background window") env.fbWidth
    env.fbHeight (noBorder ||| wmWindow)
  let p := s.display.gui.focused
  let s := { s with display := { s.display with gui := { s.display.gui with
    backgroundWindow := p } } }
  let s ← fillWindow s p 0x0000ff
  let s ← openWindow env zalloc s (bytesOf "top bar window") env.fbWidth (env.fbHeight / 15#32)
    (noBorder ||| wmWindow)
  let p := s.display.gui.focused
  let s := { s with display := { s.display with gui := { s.display.gui with topBarWindow := p } } }
  let s ← fillWindow s p 0xff0000
  let m ← renderScreen font s.display date s.mem
  return { s with mem := m }

def Call.run (call : Call) (s : Scene) : Except Halt Scene :=
  match call.op with
  | .openWindow title width height flags => openWindow env zalloc s title width height flags
  | .moveWindow p dx dy => moveWindow env font s p dx dy call.date
  | .closeWindow p => closeWindow env font s p call.date
  | .putcharGui c => putcharGui font s c call.date

def next (s : Scene) (call : Call) : Option Scene := (call.run env zalloc font s).toOption

end Code

/-! ## The law and its condition -/

/-- The screen shows the windows as they are stacked, before something. -/
def Shown {d : Display} (h : Arranged d) (m : Mem) : Prop :=
  ∃ base, ∀ q ∈ h.screen.raster.area,
    h.screen.raster.get m q = view ((stack d).map (layer d m)) base q

/-- Between two operations. -/
structure Ready (s : Scene) : Prop where
  good : Good s.display.gui
  arranged : Arranged s.display

/-- The operation draws the screen anew. -/
def Redraws (env : Env) (s : Scene) : Op → Prop
  | .openWindow .. => False
  | .moveWindow p dx dy => leavesScreen env (s.display.gui.mem p) dx dy = false
  | .closeWindow _ => True
  | .putcharGui c => c ≠ 0x0A#8

/-- The window into whose buffer the operation writes. -/
def Target (s : Scene) : Op → Nat → Prop
  | .putcharGui _, p => p = s.display.gui.focused
  | _, _ => False

/-- The block of a new window's buffer is free. -/
structure Fresh (d : Display) (win : Window) (address : Nat) : Prop where
  bound : address + win.height.toNat * (4 * win.width.toNat) ≤ 2 ^ 32
  small : win.height.toNat * win.width.toNat < 2 ^ 27
  off : ∀ a ∈ block (windowFb win address), a ∉ block d.fb
  apart : ∀ p ∈ d.gui.live, ∀ a ∈ block (windowFb win address), a ∉ bufferOf d p

/-- What the code needs.  A window is opened in a free block where it lies on the screen,
and moved to where it does; a character is written where its window has room for it; the
top bar stays open, and has room for the titles and the date. -/
def Placed (env : Env) (zalloc : Nat → Nat) (s : Scene) (call : Call) : Prop :=
  match call.op with
  | .openWindow _ width height flags =>
    (s.display.gui.windowList.items.length ≠ s.display.gui.windowList.size ∨
      env.copyFits s.display.gui.opened = true) ∧
    env.kmalloc s.display.gui.opened ∉ s.display.gui.live ∧
    Lies s.display.fb (Drawing.opened env s.display.gui width height flags) ∧
    Fresh s.display (Drawing.opened env s.display.gui width height flags)
      (zalloc s.display.gui.opened)
  | .moveWindow p dx dy => p ∈ s.display.gui.live ∧
    (leavesScreen env (s.display.gui.mem p) dx dy = true ∨
      Lies s.display.fb (Drawing.Window.shift (s.display.gui.mem p) dx dy) ∧
        TextFits s.display call.date)
  | .closeWindow p => p ∈ s.display.gui.live ∧ p ≠ s.display.gui.topBarWindow ∧
    TextFits s.display call.date
  | .putcharGui c => c = 0x0A#8 ∨ s.display.gui.focused ∈ s.display.gui.live ∧
    Room (windowFb (s.display.gui.mem s.display.gui.focused)
      (s.display.buffer s.display.gui.focused)) (s.display.gui.columnPutchar.toNat + 8)
      s.display.gui.rowPutchar.toNat ∧ TextFits s.display call.date

/-- The operation returns, with the windows arranged again.  The screen, if it was drawn,
shows them, and the buffers of windows other than the target and the top bar are as they
were. -/
def Faithful (env : Env) (zalloc : Nat → Nat) (font : Glyphs) (s : Scene) (call : Call) : Prop :=
  ∃ s', call.run env zalloc font s = .ok s' ∧
    (∃ h : Ready s', Redraws env s call.op → Shown h.arranged s'.mem) ∧
    ∀ p ∈ s.display.gui.live, p ≠ s.display.gui.topBarWindow → ¬ Target s call.op p →
      ∀ a ∈ bufferOf s.display p, s'.mem a = s.mem a

variable {env : Env} {zalloc : Nat → Nat} {font : Glyphs} {s s' : Scene} {d d' : Display}
  {m m' : Mem} {p : Nat} {date : List (BitVec 8)} {win : Window}

/-! ## Windows that keep their sizes and buffers -/

/-- A window has the size and the buffer it had. -/
structure Keeps (d d' : Display) (p : Nat) : Prop where
  width : (d'.gui.mem p).width = (d.gui.mem p).width
  height : (d'.gui.mem p).height = (d.gui.mem p).height
  buffer : d'.buffer p = d.buffer p

theorem Keeps.fb_eq (h : Keeps d d' p) : windowFb (d'.gui.mem p) (d'.buffer p) =
    windowFb (d.gui.mem p) (d.buffer p) := by
  unfold windowFb
  rw [h.width, h.height, h.buffer]

theorem Keeps.bufferOf_eq (h : Keeps d d' p) : bufferOf d' p = bufferOf d p := by
  rw [bufferOf, bufferOf, h.fb_eq]

/-- The windows are arranged again when they keep their sizes and buffers and lie on the
screen. -/
theorem Arranged.keep (h : Arranged d) (hfb : d'.fb = d.fb)
    (htop : d'.gui.topBarWindow ∈ d'.gui.live)
    (hlisted : ∀ p ∈ d'.gui.windowList.items, p ∈ d'.gui.live)
    (hkeeps : ∀ p ∈ d'.gui.live, p ∈ d.gui.live ∧ Keeps d d' p)
    (hlies : ∀ p ∈ d'.gui.live, Lies d.fb (d'.gui.mem p)) : Arranged d' where
  screen := hfb ▸ h.screen
  topBar := htop
  listed := hlisted
  lies p hp := hfb ▸ hlies p hp
  bound p hp := by
    obtain ⟨hlive, hkeep⟩ := hkeeps p hp
    rw [hkeep.buffer, hkeep.width, hkeep.height]
    exact h.bound p hlive
  off p hp := by
    obtain ⟨hlive, hkeep⟩ := hkeeps p hp
    rw [hkeep.bufferOf_eq, hfb]
    exact h.off p hlive
  apart p hp p' hp' hne := by
    obtain ⟨hlive, hkeep⟩ := hkeeps p hp
    obtain ⟨hlive', hkeep'⟩ := hkeeps p' hp'
    rw [hkeep.bufferOf_eq, hkeep'.bufferOf_eq]
    exact h.apart p hlive p' hlive' hne

/-- The texts fit again when the top bar keeps its size and the titles got no longer. -/
theorem TextFits.keep (h : TextFits d date) (htop : d'.gui.topBarWindow = d.gui.topBarWindow)
    (hkeep : Keeps d d' d.gui.topBarWindow)
    (htitles : titlesEnd d' d'.gui.windowList.items ≤ titlesEnd d d.gui.windowList.items) :
    TextFits d' date where
  high := by
    rw [htop, hkeep.height]
    exact h.high
  titles := by
    have hshort := h.titles.short
    have hfits := h.titles.fits
    rw [htop, hkeep.fb_eq]
    exact ⟨by omega, by omega⟩
  date := by
    rw [htop, hkeep.width]
    exact h.date

/-- The screen is drawn anew after a change of memory off the other windows' buffers. -/
theorem redraw (font : Glyphs) (h : Arranged d) (htext : TextFits d date) (m : Mem) :
    ∃ m', renderScreen font d date m = .ok m' ∧ Shown h m' ∧ OnlyIn (drawn d) m m' := by
  obtain ⟨m', hrun, hshows, hconfined⟩ := renderScreen_view font h htext m
  exact ⟨m', hrun, ⟨_, hshows⟩, hconfined⟩

/-! ## One operation -/

theorem windowFb_block (hw : win.width.toNat < 2 ^ 27) (address : Nat) :
    block (windowFb win address) =
      Set.Ico address (address + win.height.toNat * (4 * win.width.toNat)) := by
  unfold block windowFb
  dsimp only
  rw [wrap_of_lt (by omega), show win.width.toNat * 32 / 8 = 4 * win.width.toNat by omega]

theorem openWindow_eq (width height flags : BitVec 32)
    (hroom : s.display.gui.windowList.items.length ≠ s.display.gui.windowList.size ∨
      env.copyFits s.display.gui.opened = true) :
    ∃ gui, Gui.openWindow env s.display.gui width height flags = .ok gui ∧
      gui.focused = env.kmalloc s.display.gui.opened ∧
      gui.live = env.kmalloc s.display.gui.opened :: s.display.gui.live ∧
      gui.mem = Function.update s.display.gui.mem (env.kmalloc s.display.gui.opened)
        (Drawing.opened env s.display.gui width height flags) ∧
      gui.topBarWindow = s.display.gui.topBarWindow ∧
      gui.windowList.items = s.display.gui.windowList.items ++
        [env.kmalloc s.display.gui.opened] := by
  unfold Gui.openWindow
  simp only [listAppend_eq, if_pos hroom, ok_bind]
  exact ⟨_, rfl, rfl, rfl, rfl, rfl, rfl⟩

theorem Arranged.opened (h : Arranged d) {new address : Nat} (title : List (BitVec 8)) {gui : State}
    (hnew : new ∉ d.gui.live) (hlies : Lies d.fb win) (hfresh : Fresh d win address)
    (hlive : gui.live = new :: d.gui.live) (hmem : gui.mem = Function.update d.gui.mem new win)
    (htop : gui.topBarWindow = d.gui.topBarWindow)
    (hitems : gui.windowList.items = d.gui.windowList.items ++ [new]) :
    Arranged { d with
      gui := gui
      buffer := Function.update d.buffer new address
      title := Function.update d.title new title } := by
  have hold : ∀ p ∈ d.gui.live, gui.mem p = d.gui.mem p ∧
      Function.update d.buffer new address p = d.buffer p := by
    intro p hp
    have hne : p ≠ new := fun he => hnew (he ▸ hp)
    rw [hmem, Function.update_of_ne hne, Function.update_of_ne hne]
    exact ⟨rfl, rfl⟩
  have hself : gui.mem new = win ∧ Function.update d.buffer new address new = address := by
    rw [hmem, Function.update_self, Function.update_self]
    exact ⟨rfl, rfl⟩
  constructor
  case screen => exact h.screen
  case topBar =>
    dsimp only
    rw [hlive, htop]
    exact List.mem_cons_of_mem _ h.topBar
  case listed =>
    intro p hp
    dsimp only at hp ⊢
    rw [hitems] at hp
    rw [hlive]
    rcases List.mem_append.mp hp with hp | hp
    · exact List.mem_cons_of_mem _ (h.listed p hp)
    · rw [List.mem_singleton.mp hp]
      exact List.mem_cons_self
  case lies =>
    intro p hp
    dsimp only at hp ⊢
    rw [hlive] at hp
    rcases List.mem_cons.mp hp with rfl | hp
    · rw [hself.1]
      exact hlies
    · rw [(hold p hp).1]
      exact h.lies p hp
  case bound =>
    intro p hp
    dsimp only at hp ⊢
    rw [hlive] at hp
    rcases List.mem_cons.mp hp with rfl | hp
    · rw [hself.1, hself.2]
      exact hfresh.bound
    · rw [(hold p hp).1, (hold p hp).2]
      exact h.bound p hp
  case off =>
    intro p hp
    dsimp only [bufferOf] at hp ⊢
    rw [hlive] at hp
    rcases List.mem_cons.mp hp with rfl | hp
    · rw [hself.1, hself.2]
      exact hfresh.off
    · rw [(hold p hp).1, (hold p hp).2]
      exact h.off p hp
  case apart =>
    intro p hp p' hp' hne
    dsimp only [bufferOf] at hp hp' ⊢
    rw [hlive] at hp hp'
    rcases List.mem_cons.mp hp with rfl | hlate
    · rcases List.mem_cons.mp hp' with rfl | hlate'
      · exact absurd rfl hne
      · rw [hself.1, hself.2, (hold p' hlate').1, (hold p' hlate').2]
        exact hfresh.apart p' hlate'
    · rcases List.mem_cons.mp hp' with rfl | hlate'
      · rw [hself.1, hself.2, (hold p hlate).1, (hold p hlate).2]
        exact fun a ha hin => hfresh.apart p hlate a hin ha
      · rw [(hold p hlate).1, (hold p hlate).2, (hold p' hlate').1, (hold p' hlate').2]
        exact h.apart p hlate p' hlate' hne

theorem openWindow_faithful (h : Ready s) {title : List (BitVec 8)} {width height flags : BitVec 32}
    (hplaced : Placed env zalloc s ⟨.openWindow title width height flags, date⟩) :
    Faithful env zalloc font s ⟨.openWindow title width height flags, date⟩ := by
  obtain ⟨hroom, hnew, hlies, hfresh⟩ := hplaced
  obtain ⟨gui, hrun, hfocused, hlive, hmem, htop, hitems⟩ :=
    openWindow_eq width height flags hroom
  obtain ⟨gui', hrun', hgood⟩ := (openWindow_settles env h.good width height flags).1 hroom
  obtain rfl := Except.ok.inj (hrun.symm.trans hrun')
  have harranged := h.arranged.opened title hnew hlies hfresh hlive hmem htop hitems
  have hright := hlies.right
  have hwidth := h.arranged.screen.width_lt
  have hsize : wrap (wrap (height.toNat * width.toNat) * 32) / 8 =
      height.toNat * (4 * width.toNat) := by
    have hsmall : height.toNat * width.toNat < 2 ^ 27 := hfresh.small
    rw [wrap_of_lt (show height.toNat * width.toNat < 2 ^ 32 by omega), wrap_of_lt (by omega),
      Nat.mul_left_comm]
    omega
  refine ⟨⟨_, Libc.memset s.mem (zalloc s.display.gui.opened) 0#8
    (wrap (wrap (height.toNat * width.toNat) * 32) / 8)⟩, ?_, 
    ⟨⟨hgood, harranged⟩, fun hnone => hnone.elim⟩, fun p hp _ _ a ha => ?_⟩
  · change openWindow env zalloc s title width height flags = _
    unfold openWindow
    rw [hrun]
    change Except.ok _ = _
    rw [hfocused]
  · dsimp only
    refine Libc.memset_outside ?_
    have hout : a ∉ block (windowFb (Drawing.opened env s.display.gui width height flags)
        (zalloc s.display.gui.opened)) := fun hin => hfresh.apart p hp a hin ha
    have hblock : (Drawing.opened env s.display.gui width height flags).width.toNat < 2 ^ 27 := by
      omega
    rw [windowFb_block hblock] at hout
    rw [hsize]
    by_contra hin
    exact hout ⟨by omega, by change a < _ + height.toNat * (4 * width.toNat); omega⟩

theorem fillWindowPlace_onlyIn (h : Arranged d) (hp : p ∈ d.gui.live) (m : Mem) :
    OnlyIn (drawn d) m (fillWindowPlace d.fb (d.gui.mem p) m) := by
  have hl := h.lies p hp
  have hright := hl.right
  have hbottom := hl.bottom
  have hwide := hl.width_pos
  have hwidth := h.screen.width_lt
  have hheight := h.screen.height_le (by omega)
  refine onlyIn_foldl (fun y hy m => onlyIn_foldl (fun x hx m => ?_) m) m
  have hx := List.mem_range.mp hx
  have hy := List.mem_range.mp hy
  have hin : (x + (d.gui.mem p).x.toNat, y + (d.gui.mem p).y.toNat) ∈ h.screen.raster.area :=
    ⟨show _ < d.fb.width by omega, show _ < d.fb.height by omega⟩
  have hto : offset d.fb (BitVec.ofNat 32 x + (d.gui.mem p).x)
      (BitVec.ofNat 32 y + (d.gui.mem p).y) =
      h.screen.raster.place (x + (d.gui.mem p).x.toNat, y + (d.gui.mem p).y.toNat) := by
    rw [offset, ofNat_add_toNat (by omega), ofNat_add_toNat (by omega)]
    exact h.screen.pixelOffset_eq hin
  rw [hto]
  have hpaints : Paints h.screen.raster _ (fun _ => 0) m (write32 m _ 0) :=
    paints_write hin (Nat.zero_mod _)
  exact hpaints.onlyIn.mono (screen_subset h)

theorem keeps_shift (p : Nat) {dx dy : BitVec 32} (p' : Nat) : Keeps d (d.shift p dx dy) p' := by
  by_cases hp : p' = p
  · subst hp
    constructor
    · simp [Display.shift, Drawing.Window.shift]
    · simp [Display.shift, Drawing.Window.shift]
    · rfl
  · constructor
    · simp [Display.shift, hp]
    · simp [Display.shift, hp]
    · rfl

theorem moveWindow_faithful (h : Ready s) {dx dy : BitVec 32}
    (hplaced : Placed env zalloc s ⟨.moveWindow p dx dy, date⟩) :
    Faithful env zalloc font s ⟨.moveWindow p dx dy, date⟩ := by
  obtain ⟨hp, hplace⟩ := hplaced
  by_cases hleaves : leavesScreen env (s.display.gui.mem p) dx dy = true
  · refine ⟨s, ?_, ⟨h, fun hdraw => ?_⟩, fun _ _ _ _ _ _ => rfl⟩
    · change moveWindow env font s p dx dy date = _
      rw [moveWindow, ended_deref hp, ok_bind, if_pos hleaves]
      rfl
    · exact absurd (hleaves.symm.trans hdraw) Bool.noConfusion
  · obtain ⟨hlies, htext⟩ := hplace.resolve_left hleaves
    have hgood := h.good
    have hlives : ∀ p' ∈ s.display.gui.live,
        Lies s.display.fb ((s.display.shift p dx dy).gui.mem p') := by
      intro p' hp'
      by_cases heq : p' = p
      · subst heq
        simpa [Display.shift] using hlies
      · simpa [Display.shift, heq] using h.arranged.lies p' hp'
    have hmoved : Arranged (s.display.shift p dx dy) := h.arranged.keep rfl h.arranged.topBar
      h.arranged.listed (fun p' hp' => ⟨hp', keeps_shift p p'⟩) hlives
    have hfits : TextFits (s.display.shift p dx dy) date :=
      htext.keep rfl (keeps_shift p _) (Nat.le_refl _)
    obtain ⟨m', hrun, hshown, hconfined⟩ := redraw font hmoved hfits
      (fillWindowPlace s.display.fb (s.display.gui.mem p) s.mem)
    have hsame : drawn (s.display.shift p dx dy) = drawn s.display :=
      congrArg (block s.display.fb ∪ ·) (keeps_shift p _).bufferOf_eq
    rw [hsame] at hconfined
    refine ⟨⟨s.display.shift p dx dy, m'⟩, ?_, ⟨⟨?_, hmoved⟩, fun _ => hshown⟩,
      fun p' hp' hne _ => buffer_of_drawn h.arranged hp' hne
        ((fillWindowPlace_onlyIn h.arranged hp s.mem).trans hconfined)⟩
    · change moveWindow env font s p dx dy date = _
      rw [moveWindow, ended_deref hp, ok_bind, if_neg hleaves]
      dsimp only
      rw [hrun]
      rfl
    · exact ⟨hgood.null, hgood.listed, hgood.focus, hgood.room, hgood.size_pos⟩

theorem titlesEnd_filter_le (f : Nat → Bool) (items : List Nat) :
    titlesEnd d (items.filter f) ≤ titlesEnd d items := by
  induction items with
  | nil => exact Nat.le_refl _
  | cons p items ih =>
    unfold titlesEnd at ih ⊢
    rw [List.filter_cons]
    split
    · simp only [List.map_cons, List.sum_cons]
      omega
    · simp only [List.map_cons, List.sum_cons]
      omega

theorem elected {gui : State} (hgood : Good gui) :
    ∃ f, ended (if gui.focused = p then findFirstNormalWindow { gui with
        windowList := ⟨gui.windowList.items.filter (· ≠ p), gui.windowList.size⟩ }
      else .ok gui.focused) = .ok f ∧ (f = 0 ∨ f ∈ gui.windowList.items.filter (· ≠ p)) := by
  by_cases hfocused : gui.focused = p
  · obtain ⟨f, hf, helect⟩ := firstNormal_spec (s := { gui with
      windowList := ⟨gui.windowList.items.filter (· ≠ p), gui.windowList.size⟩ })
      (show ∀ p' ∈ gui.windowList.items.filter (· ≠ p), p' ∈ gui.live from
        fun p' hp' => hgood.listed p' (List.mem_of_mem_filter hp'))
    refine ⟨f, ?_, helect⟩
    rw [if_pos hfocused, findFirstNormalWindow, hf]
    rfl
  · refine ⟨gui.focused, by rw [if_neg hfocused]; rfl, hgood.focus.imp_right fun hin => ?_⟩
    exact List.mem_filter.mpr ⟨hin, decide_eq_true hfocused⟩

theorem closeWindow_faithful (h : Ready s) (hplaced : Placed env zalloc s ⟨.closeWindow p, date⟩) :
    Faithful env zalloc font s ⟨.closeWindow p, date⟩ := by
  obtain ⟨hp, hne, htext⟩ := hplaced
  have hgood := h.good
  obtain ⟨f, hf, helect⟩ := elected (p := p) hgood
  obtain ⟨d', hd'⟩ : ∃ d' : Display, d' = { s.display with gui := { s.display.gui with
      windowList := ⟨s.display.gui.windowList.items.filter (· ≠ p), s.display.gui.windowList.size⟩
      focused := f } } := ⟨_, rfl⟩
  have hlist : d'.gui.windowList.items = s.display.gui.windowList.items.filter (· ≠ p) := by
    rw [hd']
  have hkeeps : ∀ p', Keeps s.display d' p' := fun p' => by
    rw [hd']
    exact ⟨rfl, rfl, rfl⟩
  have hlive : d'.gui.live = s.display.gui.live := by rw [hd']
  have htop : d'.gui.topBarWindow = s.display.gui.topBarWindow := by rw [hd']
  have hfb : d'.fb = s.display.fb := by rw [hd']
  have hmem : d'.gui.mem = s.display.gui.mem := by rw [hd']
  have hlisted : ∀ p' ∈ d'.gui.windowList.items, p' ∈ s.display.gui.live ∧ p' ≠ p := by
    intro p' hp'
    rw [hlist] at hp'
    exact ⟨h.arranged.listed p' (List.mem_of_mem_filter hp'), by simpa using
      (List.mem_filter.mp hp').2⟩
  have hdrawn : Arranged d' := h.arranged.keep hfb (by rw [hlive, htop]; exact h.arranged.topBar)
    (fun p' hp' => by rw [hlive]; exact (hlisted p' hp').1)
    (fun p' hp' => ⟨hlive ▸ hp', hkeeps p'⟩)
    fun p' hp' => by rw [hmem]; exact h.arranged.lies p' (hlive ▸ hp')
  have hfits : TextFits d' date := by
    refine htext.keep htop (hkeeps _) ?_
    have htitles : titlesEnd d' d'.gui.windowList.items =
        titlesEnd s.display (s.display.gui.windowList.items.filter (· ≠ p)) := by
      rw [hlist, hd']
      rfl
    rw [htitles]
    exact titlesEnd_filter_le _ _
  obtain ⟨m', hrun, hshown, hconfined⟩ := redraw font hdrawn hfits s.mem
  have hclosed : Arranged { d' with gui := { d'.gui with
      live := d'.gui.live.filter (· ≠ p) } } := by
    refine hdrawn.keep rfl ?_ ?_ (fun p' hp' => ⟨List.mem_of_mem_filter hp', rfl, rfl, rfl⟩)
      fun p' hp' => hdrawn.lies p' (List.mem_of_mem_filter hp')
    · refine List.mem_filter.mpr ⟨hdrawn.topBar, decide_eq_true ?_⟩
      dsimp only
      rw [htop]
      exact hne.symm
    · intro p' hp'
      obtain ⟨hin, hother⟩ := hlisted p' hp'
      exact List.mem_filter.mpr ⟨hlive ▸ hin, decide_eq_true hother⟩
  have hsame : drawn d' = drawn s.display := by
    rw [drawn, drawn, hfb, htop, (hkeeps _).bufferOf_eq]
  rw [hsame] at hconfined
  refine ⟨⟨_, m'⟩, ?_, ⟨⟨?_, hclosed⟩, fun _ => hshown⟩, fun p' hp' hne' _ =>
    buffer_of_drawn h.arranged hp' hne' hconfined⟩
  · change closeWindow env font s p date = _
    rw [closeWindow]
    dsimp only
    rw [ended_deref hp, ok_bind, listRemove_eq _ _ hgood.room]
    change (ended (if _ then findFirstNormalWindow _ else _) >>= _) = _
    rw [hf, ok_bind, ← hd', hrun, ok_bind, hd']
    rfl
  · constructor
    case null => exact fun hzero => hgood.null (hlive ▸ List.mem_of_mem_filter hzero)
    case listed => exact hclosed.listed
    case focus =>
      rw [hd']
      exact helect
    case room =>
      rw [hd']
      exact Nat.le_trans (List.length_filter_le _ _) hgood.room
    case size_pos =>
      rw [hd']
      exact hgood.size_pos

theorem Ready.cursor (h : Ready s) (gui : State) (hlive : gui.live = s.display.gui.live)
    (hmem : gui.mem = s.display.gui.mem) (htop : gui.topBarWindow = s.display.gui.topBarWindow)
    (hlist : gui.windowList = s.display.gui.windowList)
    (hfocused : gui.focused = s.display.gui.focused) :
    Good gui ∧ Arranged { s.display with gui := gui } ∧
      ∀ p, Keeps s.display { s.display with gui := gui } p := by
  have hgood := h.good
  have hkeeps : ∀ p, Keeps s.display { s.display with gui := gui } p := fun p =>
    ⟨by dsimp only; rw [hmem], by dsimp only; rw [hmem], rfl⟩
  refine ⟨⟨?_, ?_, ?_, ?_, ?_⟩, h.arranged.keep rfl ?_ ?_ ?_ ?_, hkeeps⟩
  · rw [hlive]
    exact hgood.null
  · rw [hlive, hlist]
    exact hgood.listed
  · rw [FocusListed, hfocused, hlist]
    exact hgood.focus
  · rw [hlist]
    exact hgood.room
  · rw [hlist]
    exact hgood.size_pos
  · dsimp only
    rw [hlive, htop]
    exact h.arranged.topBar
  · dsimp only
    rw [hlive, hlist]
    exact h.arranged.listed
  · dsimp only
    rw [hlive]
    exact fun p hp => ⟨hp, hkeeps p⟩
  · dsimp only
    rw [hlive, hmem]
    exact h.arranged.lies

theorem advanceCursor_fields (gui : State) (win : Window) :
    (advanceCursor gui win).live = gui.live ∧ (advanceCursor gui win).mem = gui.mem ∧
      (advanceCursor gui win).topBarWindow = gui.topBarWindow ∧
      (advanceCursor gui win).windowList = gui.windowList ∧
      (advanceCursor gui win).focused = gui.focused := by
  unfold advanceCursor
  dsimp only
  split
  · exact ⟨rfl, rfl, rfl, rfl, rfl⟩
  · exact ⟨rfl, rfl, rfl, rfl, rfl⟩

theorem putcharGui_faithful (h : Ready s) {c : BitVec 8}
    (hplaced : Placed env zalloc s ⟨.putcharGui c, date⟩) :
    Faithful env zalloc font s ⟨.putcharGui c, date⟩ := by
  by_cases hc : c = 0x0A#8
  · obtain ⟨hgood, harranged, -⟩ := h.cursor ({ s.display.gui with
      rowPutchar := s.display.gui.rowPutchar + 12#32, columnPutchar := 8#32 }) rfl rfl rfl rfl rfl
    refine ⟨⟨_, s.mem⟩, ?_, ⟨⟨hgood, harranged⟩, fun hdraw => absurd hc hdraw⟩,
      fun _ _ _ _ _ _ => rfl⟩
    change putcharGui font s c date = _
    rw [putcharGui]
    dsimp only
    rw [if_pos hc]
    rfl
  · obtain ⟨hp, hroom, htext⟩ := hplaced.resolve_left hc
    obtain ⟨hlive, hmem, htop, hlist, hfocused⟩ :=
      advanceCursor_fields s.display.gui (s.display.gui.mem s.display.gui.focused)
    obtain ⟨hgood, harranged, hkeeps⟩ := h.cursor _ hlive hmem htop hlist hfocused
    have hchar := drawChar_onlyIn (u := s.display.gui.columnPutchar)
      (v := s.display.gui.rowPutchar) font c 0xFFFFFF (h.arranged.window hp) hroom s.mem
    have hfits : TextFits { s.display with
        gui := advanceCursor s.display.gui (s.display.gui.mem s.display.gui.focused) } date := by
      refine htext.keep htop (hkeeps _) ?_
      dsimp only
      rw [hlist]
      exact Nat.le_refl _
    obtain ⟨m', hrun, hshown, hconfined⟩ := redraw font harranged hfits
      (drawChar font (windowFb (s.display.gui.mem s.display.gui.focused)
        (s.display.buffer s.display.gui.focused)) s.mem c s.display.gui.columnPutchar
        s.display.gui.rowPutchar 0xFFFFFF)
    refine ⟨⟨_, m'⟩, ?_, ⟨⟨hgood, harranged⟩, fun _ => hshown⟩,
      fun p hp' hne htarget a ha => ?_⟩
    · change putcharGui font s c date = _
      rw [putcharGui]
      dsimp only
      rw [if_neg hc, ended_deref hp, ok_bind, hrun]
      rfl
    · have hafter : m' a = _ := hconfined a fun hin => by
        rcases hin with hscreen | hbar
        · exact h.arranged.off p hp' a ha hscreen
        · dsimp only at hbar
          rw [htop, (hkeeps _).bufferOf_eq] at hbar
          exact h.arranged.apart p hp' _ h.arranged.topBar hne a ha hbar
      exact hafter.trans (hchar a fun hin => h.arranged.apart p hp' _ hp htarget a ha hin)

/-! ## The start -/

section Boot

variable {fb : FbInfo}

def background (env : Env) : Window :=
  ⟨env.fbWidth, env.fbHeight, noBorder ||| wmWindow, (env.junk 0).1, (env.junk 0).2⟩

def bar (env : Env) : Window :=
  ⟨env.fbWidth, env.fbHeight / 15#32, noBorder ||| wmWindow, (env.junk 1).1, (env.junk 1).2⟩

/-- The manager that `init_gui` leaves. -/
def booted (env : Env) (zalloc : Nat → Nat) (fb : FbInfo) : Display where
  gui := { Drawing.blank.gui with
    live := [env.kmalloc 1, env.kmalloc 0]
    mem := Function.update (Function.update Drawing.blank.gui.mem (env.kmalloc 0) (background env))
      (env.kmalloc 1) (bar env)
    opened := 2
    focused := env.kmalloc 1
    backgroundWindow := env.kmalloc 0
    topBarWindow := env.kmalloc 1
    windowList := ⟨[env.kmalloc 0, env.kmalloc 1], 2⟩ }
  fb := fb
  buffer := Function.update (Function.update (fun _ => 0) (env.kmalloc 0) (zalloc 0))
    (env.kmalloc 1) (zalloc 1)
  title := Function.update (Function.update (fun _ => []) (env.kmalloc 0)
    (bytesOf "background window")) (env.kmalloc 1) (bytesOf "top bar window")

/-- What `init_gui` needs of the heap and of the screen. -/
structure Boots (env : Env) (zalloc : Nat → Nat) (fb : FbInfo) (date : List (BitVec 8)) : Prop where
  screen : Linear fb
  copyFits : env.copyFits 1 = true
  distinct : env.kmalloc 0 ≠ env.kmalloc 1
  background : Lies fb (background env)
  bar : Lies fb (bar env)
  background_bound : zalloc 0 + (Composition.background env).height.toNat *
    (4 * (Composition.background env).width.toNat) ≤ 2 ^ 32
  bar_bound : zalloc 1 + (Composition.bar env).height.toNat *
    (4 * (Composition.bar env).width.toNat) ≤ 2 ^ 32
  background_off : ∀ a ∈ block (windowFb (Composition.background env) (zalloc 0)), a ∉ block fb
  bar_off : ∀ a ∈ block (windowFb (Composition.bar env) (zalloc 1)), a ∉ block fb
  apart : ∀ a ∈ block (windowFb (Composition.background env) (zalloc 0)),
    a ∉ block (windowFb (Composition.bar env) (zalloc 1))
  text : TextFits (booted env zalloc fb) date

theorem fillWindow_eq (hp : p ∈ s.display.gui.live) (col : Nat) :
    ∃ m', fillWindow s p col = .ok ⟨s.display, m'⟩ := by
  rw [fillWindow, ended_deref hp, ok_bind]
  exact ⟨_, rfl⟩

def halfBooted (env : Env) (zalloc : Nat → Nat) (fb : FbInfo) : Display where
  gui := { Drawing.blank.gui with
    live := [env.kmalloc 0]
    mem := Function.update Drawing.blank.gui.mem (env.kmalloc 0) (background env)
    opened := 1
    focused := env.kmalloc 0
    backgroundWindow := env.kmalloc 0
    windowList := ⟨[env.kmalloc 0], 1⟩ }
  fb := fb
  buffer := Function.update (fun _ => 0) (env.kmalloc 0) (zalloc 0)
  title := Function.update (fun _ => []) (env.kmalloc 0) (bytesOf "background window")

variable (zalloc fb) in
/-- The second window, for which the list grows. -/
theorem openWindow_bar (hcopy : env.copyFits 1 = true) (m : Mem) :
    ∃ m', openWindow env zalloc ⟨halfBooted env zalloc fb, m⟩ (bytesOf "top bar window")
      env.fbWidth (env.fbHeight / 15#32) (noBorder ||| wmWindow) =
        .ok ⟨{ booted env zalloc fb with
          gui := { (booted env zalloc fb).gui with topBarWindow := 0 } }, m'⟩ := by
  have hlist : listAppend env 1 (env.kmalloc 1) ⟨[env.kmalloc 0], 1⟩ =
      .ok ⟨[env.kmalloc 0, env.kmalloc 1], 2⟩ := by
    rw [listAppend_eq, if_pos (Or.inr hcopy)]
    rfl
  have hgui : Gui.openWindow env (halfBooted env zalloc fb).gui env.fbWidth (env.fbHeight / 15#32)
      (noBorder ||| wmWindow) =
        .ok { (booted env zalloc fb).gui with topBarWindow := 0 } := by
    unfold Gui.openWindow
    change (listAppend env 1 (env.kmalloc 1) ⟨[env.kmalloc 0], 1⟩ >>= _) = _
    rw [hlist]
    rfl
  unfold openWindow
  rw [hgui]
  exact ⟨_, rfl⟩

variable (zalloc fb) in
theorem initGui_eq (font : Glyphs) (date : List (BitVec 8)) (hcopy : env.copyFits 1 = true)
    (m : Mem) : ∃ m₁, initGui env zalloc font fb date m =
      (do let m ← renderScreen font (booted env zalloc fb) date m₁
          return ⟨booted env zalloc fb, m⟩) := by
  obtain ⟨m₁, hback⟩ : ∃ m₁, openWindow env zalloc ⟨blank fb, m⟩ (bytesOf "background window")
      env.fbWidth env.fbHeight (noBorder ||| wmWindow) =
        .ok ⟨{ halfBooted env zalloc fb with
          gui := { (halfBooted env zalloc fb).gui with backgroundWindow := 0 } }, m₁⟩ := ⟨_, rfl⟩
  obtain ⟨m₂, hfill⟩ := fillWindow_eq (s := ⟨halfBooted env zalloc fb, m₁⟩)
    (p := env.kmalloc 0) List.mem_cons_self 0x0000ff
  obtain ⟨m₃, hbar⟩ := openWindow_bar zalloc fb hcopy m₂
  obtain ⟨m₄, hfill'⟩ := fillWindow_eq (s := ⟨booted env zalloc fb, m₃⟩)
    (p := env.kmalloc 1) List.mem_cons_self 0xff0000
  refine ⟨m₄, ?_⟩
  rw [initGui, hback, ok_bind]
  change (fillWindow ⟨halfBooted env zalloc fb, m₁⟩ (env.kmalloc 0) 0x0000ff >>= _) = _
  rw [hfill, ok_bind, hbar, ok_bind]
  change (fillWindow ⟨booted env zalloc fb, m₃⟩ (env.kmalloc 1) 0xff0000 >>= _) = _
  rw [hfill', ok_bind]

theorem booted_live (hp : p ∈ (booted env zalloc fb).gui.live) :
    p = env.kmalloc 1 ∨ p = env.kmalloc 0 := by
  simpa [booted] using hp

theorem booted_good : Good (booted env zalloc fb).gui where
  null := by
    simp only [booted, List.mem_cons, List.not_mem_nil, or_false, not_or]
    exact ⟨(env.kmalloc_ne_null 1).symm, (env.kmalloc_ne_null 0).symm⟩
  listed := by simp [booted]
  focus := Or.inr (by simp [booted])
  room := Nat.le_refl 2
  size_pos := Nat.succ_pos 1

variable {date : List (BitVec 8)}

theorem Boots.windows (h : Boots env zalloc fb date) :
    ((booted env zalloc fb).gui.mem (env.kmalloc 1) = Composition.bar env ∧
      (booted env zalloc fb).buffer (env.kmalloc 1) = zalloc 1) ∧
      (booted env zalloc fb).gui.mem (env.kmalloc 0) = Composition.background env ∧
      (booted env zalloc fb).buffer (env.kmalloc 0) = zalloc 0 := by
  simp [booted, h.distinct]

theorem Boots.arranged (h : Boots env zalloc fb date) : Arranged (booted env zalloc fb) := by
  obtain ⟨⟨hbar, hbarAt⟩, hback, hbackAt⟩ := h.windows
  constructor
  case screen => exact h.screen
  case topBar => exact List.mem_cons_self
  case listed => exact booted_good.listed
  case lies =>
    intro p hp
    rcases booted_live hp with rfl | rfl
    · rw [hbar]
      exact h.bar
    · rw [hback]
      exact h.background
  case bound =>
    intro p hp
    rcases booted_live hp with rfl | rfl
    · rw [hbar, hbarAt]
      exact h.bar_bound
    · rw [hback, hbackAt]
      exact h.background_bound
  case off =>
    intro p hp
    rw [bufferOf]
    rcases booted_live hp with rfl | rfl
    · rw [hbar, hbarAt]
      exact h.bar_off
    · rw [hback, hbackAt]
      exact h.background_off
  case apart =>
    intro p hp p' hp' hne
    rw [bufferOf, bufferOf]
    rcases booted_live hp with rfl | rfl
    · rcases booted_live hp' with rfl | rfl
      · exact absurd rfl hne
      · rw [hbar, hbarAt, hback, hbackAt]
        exact fun a ha hin => h.apart a hin ha
    · rcases booted_live hp' with rfl | rfl
      · rw [hbar, hbarAt, hback, hbackAt]
        exact h.apart
      · exact absurd rfl hne

/-- Blocks of two megabytes, as `desktop` has them. -/
def desktopBlock (n : Nat) : Nat := 0x2200000 + 0x200000 * n

theorem desktop_boots : Boots calmEnv desktopBlock desktop.fb [0x31#8] where
  screen := desktop_arranged.screen
  copyFits := rfl
  distinct := by decide
  background := ⟨by decide, by decide, by decide, by decide⟩
  bar := ⟨by decide, by decide, by decide, by decide⟩
  background_bound := by decide
  bar_bound := by decide
  background_off := block_apart (by decide)
  bar_off := block_apart (by decide)
  apart := block_apart (by decide)
  text := ⟨by decide, ⟨by decide, by decide⟩, by decide⟩

/-- `init_gui` leaves a screen that shows its windows. -/
theorem initGui_ready (font : Glyphs) (h : Boots env zalloc fb date) (m : Mem) :
    ∃ s, initGui env zalloc font fb date m = .ok s ∧
      ∃ hready : Ready s, Shown hready.arranged s.mem := by
  obtain ⟨m₁, hrun⟩ := initGui_eq zalloc fb font date h.copyFits m
  obtain ⟨m', hrender, hshown, -⟩ := redraw font h.arranged h.text m₁
  refine ⟨⟨booted env zalloc fb, m'⟩, ?_, ⟨booted_good, h.arranged⟩, hshown⟩
  rw [hrun, hrender]
  rfl

/-- On a screen of 640 by 480. -/
theorem initGui_ready_desktop : ∃ s,
    initGui calmEnv desktopBlock (fun _ _ => 0xFF#8) desktop.fb [0x31#8] (fun _ => 0#8) = .ok s ∧
      ∃ hready : Ready s, Shown hready.arranged s.mem :=
  initGui_ready (fun _ _ => 0xFF#8) desktop_boots fun _ => 0#8

end Boot

/-! ## Whole runs -/

theorem desktop_good : Good desktop.gui where
  null := by decide
  listed := by decide
  focus := Or.inr (by decide)
  room := by decide
  size_pos := by decide

theorem desktop_fresh : Fresh desktop (Drawing.opened calmEnv desktop.gui 300#32 125#32 0#32)
    (desktopBlock 2) where
  bound := by decide
  small := by decide
  off := block_apart (by decide)
  apart := by
    intro p hp
    rcases desktop_live hp with rfl | rfl
    · exact block_apart (by decide)
    · exact block_apart (by decide)

theorem call_faithful (font : Glyphs) (h : Ready s) {call : Call}
    (hplaced : Placed env zalloc s call) :
    Faithful env zalloc font s call := by
  obtain ⟨op, date⟩ := call
  cases op with
  | openWindow title width height flags => exact openWindow_faithful h hplaced
  | moveWindow p dx dy => exact moveWindow_faithful h hplaced
  | closeWindow p => exact closeWindow_faithful h hplaced
  | putcharGui c => exact putcharGui_faithful h hplaced

/-- **Windows keep their pictures, and the screen shows them.**  In every run from windows
that are arranged, in which windows are opened in free blocks and stay on the screen and
texts have room, every operation returns and leaves the windows arranged.  Whenever the
screen is drawn, each pixel is that of the front one of the windows over it; and no
operation changes the buffer of a window but the one it writes a character into and the
top bar. -/
theorem windows_shown (h : Ready s) {calls : List Call}
    (hplaced : Throughout (next env zalloc font) (Placed env zalloc) s calls) :
    Throughout (next env zalloc font) (Faithful env zalloc font) s calls := by
  refine throughout_of Ready (fun s call hs hcall => call_faithful font hs hcall)
    (fun s call s' hs hcall hstep => ?_) h hplaced
  obtain ⟨t, hrun, ⟨hready, -⟩, -⟩ := call_faithful font hs hcall
  rw [next, hrun] at hstep
  obtain rfl := Option.some.inj hstep
  exact hready

/-- A window is opened over the two of `init_gui` and moved down to the right. -/
theorem windows_shown_moved : Throughout (next calmEnv desktopBlock fun _ _ => 0xFF#8)
    (Faithful calmEnv desktopBlock fun _ _ => 0xFF#8) ⟨desktop, fun _ => 0#8⟩
    [⟨.openWindow [0x77#8] 300#32 125#32 0#32, []⟩, ⟨.moveWindow 3 100#32 100#32, [0x31#8]⟩] := by
  refine windows_shown ⟨desktop_good, desktop_arranged⟩ (throughout_cons ?_ rfl ⟨?_, fun _ _ =>
    trivial⟩)
  · exact ⟨Or.inr rfl, by decide, ⟨by decide, by decide, by decide, by decide⟩, desktop_fresh⟩
  · exact ⟨by decide, Or.inr ⟨⟨by decide, by decide, by decide, by decide⟩,
      ⟨by decide, ⟨by decide, by decide⟩, by decide⟩⟩⟩

end Composition
end Gui
end Medusa
