import Medusa.Graphics.Pixels
import Medusa.Gui.Drawing

/-!
# What the screen shows

`render_screen` copies the buffers of the windows to the screen, one over the other in
the order of the list, and the top bar over all of them, while the titles and the date
are drawn into the buffer of the top bar.  With windows that lie on the screen and
buffers of their own, each pixel of the screen then is that of the window in front.

The text of the clock is given, and what its reading does to the heap is not modelled.
-/

namespace Medusa
namespace Gui
namespace Composition

open Machine Kernel Graphics Graphics.Pixels
open Fb (FbInfo)
open Drawing (Halt)

/-- The manager, the screen, and for each window the address of its buffer and its
title. -/
structure Display where
  gui : State
  fb : FbInfo
  buffer : Nat → Nat
  title : Nat → List (BitVec 8)

/-! ## The code -/

/-- What `deref` says. -/
def ended {α : Type} (x : Except End α) : Except Halt α := x.mapError Halt.ended

def whole {α : Type} (x : Except Stop α) : Except Halt α := x.mapError fun _ => Halt.overflow

/-- `win->fb`, as `open_window` sets it. -/
def windowFb (win : Window) (address : Nat) : FbInfo where
  address := address
  pitch := wrap (win.width.toNat * 32) / 8
  width := win.width.toNat
  height := win.height.toNat
  bpp := 32

/-- A round of the loops of `render_window`. -/
def copyPixel (fb wfb : FbInfo) (win : Window) (y : Nat) (m : Mem) (x : Nat) : Mem :=
  write32 m (offset fb (BitVec.ofNat 32 x + win.x) (BitVec.ofNat 32 y + win.y))
    (read32 m (offset wfb (BitVec.ofNat 32 x) (BitVec.ofNat 32 y)))

def copyContents (fb wfb : FbInfo) (win : Window) (m : Mem) : Mem :=
  (List.range wfb.height).foldl (fun m y =>
    (List.range wfb.width).foldl (copyPixel fb wfb win y) m) m

def borderColor2 : Nat := 0x00AA1100

def renderWindow (d : Display) (m : Mem) (p : Nat) : Except Halt Mem := do
  let win ← ended (deref d.gui p)
  let m := copyContents d.fb (windowFb win (d.buffer p)) win m
  if win.flags &&& noBorder = 0#32 then
    whole (drawBorder d.fb m win.x.toInt win.y.toInt win.width.toInt win.height.toInt borderColor2)
  else .ok m

/-- The window of the top bar with its framebuffer. -/
def topBar (d : Display) : Except Halt (Window × FbInfo) := do
  let top ← ended (deref d.gui d.gui.topBarWindow)
  return (top, windowFb top (d.buffer d.gui.topBarWindow))

def clearWindowList (d : Display) (m : Mem) : Except Halt Mem := do
  let (top, fb) ← topBar d
  renderWindow d (drawRectangle fb m 0#32 0#32 top.width top.height 0xff0000) d.gui.topBarWindow

/-- `add_to_top_bar_window_list`; `pos` is `pos_text_top_bar`. -/
def addToTopBarWindowList (font : Glyphs) (d : Display) (title : List (BitVec 8)) (pos : BitVec 32)
    (m : Mem) : Except Halt (BitVec 32 × Mem) := do
  let (_, fb) ← topBar d
  let m := drawString font fb m title pos 0#32 0xFFFFFF
  let pos := pos + BitVec.ofNat 32 (9 * title.length)
  -- `"|"`
  let m := drawString font fb m [0x7C#8] pos 0#32 0xFFFFFF
  return (pos + 19#32, m)

def addDateToTopBar (font : Glyphs) (d : Display) (date : List (BitVec 8)) (m : Mem) :
    Except Halt Mem := do
  let (top, fb) ← topBar d
  return drawString font fb m date (top.width - BitVec.ofNat 32 (9 * date.length)) 0#32 0xFFFFFF

def renderVisible (d : Display) (m : Mem) (win : Window) (p : Nat) : Except Halt Mem :=
  if win.flags &&& notVisible = 0#32 then renderWindow d m p else .ok m

/-- A round of `render_screen`. -/
def renderEntry (font : Glyphs) (d : Display) (s : BitVec 32 × Mem) (p : Nat) :
    Except Halt (BitVec 32 × Mem) := do
  let win ← ended (deref d.gui p)
  let m ← renderVisible d s.2 win p
  addToTopBarWindowList font d (d.title p) s.1 m

def renderScreen (font : Glyphs) (d : Display) (date : List (BitVec 8)) (m : Mem) :
    Except Halt Mem := do
  let m ← clearWindowList d m
  let s ← d.gui.windowList.items.foldlM (renderEntry font d) (0#32, m)
  let m ← addDateToTopBar font d date s.2
  renderWindow d m d.gui.topBarWindow

/-! ## What is to be seen -/

def windowRaster (win : Window) (address : Nat) : Raster where
  address := address
  pitch := 4 * win.width.toNat
  width := win.width.toNat
  height := win.height.toNat
  row_le := Nat.le_refl _

/-- A window on the screen: its buffer, under a border if it has one. -/
def layer (d : Display) (m : Mem) (p : Nat) : Layer (Nat × Nat) Nat where
  covers q :=
    let win := d.gui.mem p
    decide (win.x.toNat ≤ q.1 ∧ q.1 < win.x.toNat + win.width.toNat ∧
      win.y.toNat ≤ q.2 ∧ q.2 < win.y.toNat + win.height.toNat)
  picture q :=
    let win := d.gui.mem p
    if win.flags &&& noBorder = 0#32 ∧
        (q.1 = win.x.toNat ∨ q.1 = win.x.toNat + win.width.toNat - 1 ∨
          q.2 = win.y.toNat ∨ q.2 = win.y.toNat + win.height.toNat - 1) then borderColor2
    else (windowRaster win (d.buffer p)).get m (q.1 - win.x.toNat, q.2 - win.y.toNat)

def visible (d : Display) (p : Nat) : Bool := (d.gui.mem p).flags &&& notVisible = 0#32

/-- The windows that are drawn, the front one last. -/
def stack (d : Display) : List Nat :=
  d.gui.windowList.items.filter (visible d) ++ [d.gui.topBarWindow]

def bufferOf (d : Display) (p : Nat) : Set Nat := block (windowFb (d.gui.mem p) (d.buffer p))

/-- The window has pixels, and all of them are on the screen. -/
structure Lies (fb : FbInfo) (win : Window) : Prop where
  width_pos : 0 < win.width.toNat
  height_pos : 0 < win.height.toNat
  right : win.x.toNat + win.width.toNat ≤ fb.width
  bottom : win.y.toNat + win.height.toNat ≤ fb.height

/-- The windows lie on the screen and have buffers of their own. -/
structure Arranged (d : Display) : Prop where
  screen : Linear d.fb
  topBar : d.gui.topBarWindow ∈ d.gui.live
  listed : ∀ p ∈ d.gui.windowList.items, p ∈ d.gui.live
  lies : ∀ p ∈ d.gui.live, Lies d.fb (d.gui.mem p)
  bound : ∀ p ∈ d.gui.live, d.buffer p +
    (d.gui.mem p).height.toNat * (4 * (d.gui.mem p).width.toNat) ≤ 2 ^ 32
  off : ∀ p ∈ d.gui.live, ∀ a ∈ bufferOf d p, a ∉ block d.fb
  apart : ∀ p ∈ d.gui.live, ∀ p' ∈ d.gui.live, p ≠ p' → ∀ a ∈ bufferOf d p, a ∉ bufferOf d p'

/-- Where the titles of some windows end in the top bar. -/
def titlesEnd (d : Display) (items : List Nat) : Nat :=
  (items.map fun p => 9 * (d.title p).length + 19).sum

/-- There is room in the top bar for the titles and the date. -/
structure TextFits (d : Display) (date : List (BitVec 8)) : Prop where
  high : 16 ≤ (d.gui.mem d.gui.topBarWindow).height.toNat
  titles : Room (windowFb (d.gui.mem d.gui.topBarWindow) (d.buffer d.gui.topBarWindow))
    (titlesEnd d d.gui.windowList.items) 0
  date : 9 * date.length ≤ (d.gui.mem d.gui.topBarWindow).width.toNat

variable {d : Display} {font : Glyphs} {date : List (BitVec 8)} {m m' m'' : Mem} {p : Nat}
  {q : Nat × Nat} {pos : BitVec 32}

/-! ## One window -/

theorem ended_deref (hp : p ∈ d.gui.live) : ended (deref d.gui p) = .ok (d.gui.mem p) := by
  rw [deref_eq hp]
  rfl

theorem Arranged.window (h : Arranged d) (hp : p ∈ d.gui.live) :
    Tight (windowFb (d.gui.mem p) (d.buffer p)) := by
  have hl := h.lies p hp
  have hright := hl.right
  have hwidth := h.screen.width_lt
  have hpitch : wrap ((d.gui.mem p).width.toNat * 32) / 8 = 4 * (d.gui.mem p).width.toNat := by
    rw [wrap_of_lt (by omega)]
    omega
  refine ⟨⟨rfl, show (d.gui.mem p).width.toNat < 2 ^ 27 by omega, ?_, ?_⟩, hpitch⟩
  · exact hpitch.ge
  · change _ + _ * (wrap _ / 8) ≤ _
    rw [hpitch]
    exact h.bound p hp

theorem windowRaster_eq (h : Tight (windowFb (d.gui.mem p) (d.buffer p))) :
    h.raster = windowRaster (d.gui.mem p) (d.buffer p) := by
  have hpitch : wrap ((d.gui.mem p).width.toNat * 32) / 8 = 4 * (d.gui.mem p).width.toNat :=
    h.row_eq
  simp only [Linear.raster, windowRaster, windowFb, hpitch]

theorem ofNat_add_toNat {k : Nat} {v : BitVec 32} (h : k + v.toNat < 2 ^ 32) :
    (BitVec.ofNat 32 k + v).toNat = k + v.toNat := by
  rw [BitVec.toNat_add, BitVec.toNat_ofNat]
  omega

/-- A buffer that a drawing on the screen does not reach. -/
theorem Arranged.buffer_eq (h : Arranged d) (hp : p ∈ d.gui.live)
    (hm : OnlyIn (h.screen.raster.bytes h.screen.raster.area) m m') {a : Nat}
    (ha : a ∈ bufferOf d p) : m' a = m a :=
  hm a fun hin => h.off p hp a ha (Raster.bytes_area_subset hin)

theorem window_place_mem (h : Tight (windowFb (d.gui.mem p) (d.buffer p))) {x y a : Nat}
    (hx : x < (d.gui.mem p).width.toNat) (hy : y < (d.gui.mem p).height.toNat)
    (hlo : h.raster.place (x, y) ≤ a) (hhi : a < h.raster.place (x, y) + 4) : a ∈ bufferOf d p :=
  Raster.bytes_area_subset (r := h.raster) ⟨(x, y), ⟨hx, hy⟩, hlo, hhi⟩

/-- The loops of `render_window` copy the buffer. -/
theorem copyContents_paints (h : Arranged d) (hp : p ∈ d.gui.live) (m : Mem) :
    Paints h.screen.raster (rect (d.gui.mem p).x.toNat (d.gui.mem p).y.toNat
        (d.gui.mem p).width.toNat (d.gui.mem p).height.toNat)
      (fun q => (windowRaster (d.gui.mem p) (d.buffer p)).get m
        (q.1 - (d.gui.mem p).x.toNat, q.2 - (d.gui.mem p).y.toNat)) m
      (copyContents d.fb (windowFb (d.gui.mem p) (d.buffer p)) (d.gui.mem p) m) := by
  have ht := h.window hp
  have hl := h.lies p hp
  have hright := hl.right
  have hbottom := hl.bottom
  have hwide := hl.width_pos
  have hwidth := h.screen.width_lt
  have hheight := h.screen.height_le (by omega)
  have hround : ∀ x y m', x < (d.gui.mem p).width.toNat → y < (d.gui.mem p).height.toNat →
      OnlyIn (h.screen.raster.bytes h.screen.raster.area) m m' →
      Paints h.screen.raster {(x + (d.gui.mem p).x.toNat, y + (d.gui.mem p).y.toNat)}
        (fun q => (windowRaster (d.gui.mem p) (d.buffer p)).get m
          (q.1 - (d.gui.mem p).x.toNat, q.2 - (d.gui.mem p).y.toNat)) m'
        (copyPixel d.fb (windowFb (d.gui.mem p) (d.buffer p)) (d.gui.mem p) y m' x) := by
    intro x y m' hx hy hm
    have htarget : (x + (d.gui.mem p).x.toNat, y + (d.gui.mem p).y.toNat) ∈
        h.screen.raster.area := ⟨show _ < d.fb.width by omega, show _ < d.fb.height by omega⟩
    have hsource : (x, y) ∈ ht.raster.area := ⟨hx, hy⟩
    have hto : offset d.fb (BitVec.ofNat 32 x + (d.gui.mem p).x)
        (BitVec.ofNat 32 y + (d.gui.mem p).y) =
        h.screen.raster.place (x + (d.gui.mem p).x.toNat, y + (d.gui.mem p).y.toNat) := by
      rw [offset, ofNat_add_toNat (by omega), ofNat_add_toNat (by omega)]
      exact h.screen.pixelOffset_eq htarget
    have hfrom : offset (windowFb (d.gui.mem p) (d.buffer p)) (BitVec.ofNat 32 x)
        (BitVec.ofNat 32 y) = ht.raster.place (x, y) := by
      rw [offset, BitVec.toNat_ofNat, BitVec.toNat_ofNat, Nat.mod_eq_of_lt (by omega),
        Nat.mod_eq_of_lt (by omega)]
      exact ht.pixelOffset_eq hsource
    unfold copyPixel
    rw [hto, hfrom]
    refine paints_write htarget ?_
    dsimp only
    rw [Nat.mod_eq_of_lt (read32_lt _ _), Nat.add_sub_cancel, Nat.add_sub_cancel,
      ← windowRaster_eq ht]
    exact read32_congr fun a hlo hhi =>
      h.buffer_eq hp hm (window_place_mem ht hx hy hlo hhi)
  refine (paints_foldl (S := fun y => {q | q.2 = y + (d.gui.mem p).y.toNat ∧
    (d.gui.mem p).x.toNat ≤ q.1 ∧ q.1 < (d.gui.mem p).x.toNat + (d.gui.mem p).width.toNat})
    (OnlyIn.refl _ m) fun y hy m₁ hm₁ => ?_).congr (fun q => ?_) fun _ _ => rfl
  · refine (paints_foldl
      (S := fun x => {(x + (d.gui.mem p).x.toNat, y + (d.gui.mem p).y.toNat)}) hm₁
      fun x hx m₂ hm₂ => hround x y m₂ (List.mem_range.mp hx) (List.mem_range.mp hy) hm₂).congr
      (fun q => ?_) fun _ _ => rfl
    simp only [List.mem_range, Set.mem_singleton_iff, Set.mem_ofPred_eq, Prod.ext_iff]
    constructor
    · rintro ⟨x, hx, hqx, hqy⟩
      omega
    · rintro ⟨hqy, hlo, hhi⟩
      exact ⟨q.1 - (d.gui.mem p).x.toNat, by omega, by omega, hqy⟩
  · simp only [List.mem_range, Set.mem_ofPred_eq, rect, windowFb]
    constructor
    · rintro ⟨y, hy, hqy, hlo, hhi⟩
      omega
    · rintro ⟨hlo, hhi, hlo', hhi'⟩
      exact ⟨q.2 - (d.gui.mem p).y.toNat, by omega, by omega, hlo, hhi⟩

theorem covers_iff : (layer d m p).covers q = true ↔ q ∈ rect (d.gui.mem p).x.toNat
    (d.gui.mem p).y.toNat (d.gui.mem p).width.toNat (d.gui.mem p).height.toNat :=
  decide_eq_true_iff

theorem Lies.toInt (hl : Lies d.fb (d.gui.mem p)) (hs : Linear d.fb) :
    (d.gui.mem p).x.toInt = (d.gui.mem p).x.toNat ∧ (d.gui.mem p).y.toInt = (d.gui.mem p).y.toNat ∧
      (d.gui.mem p).width.toInt = (d.gui.mem p).width.toNat ∧
      (d.gui.mem p).height.toInt = (d.gui.mem p).height.toNat := by
  have hright := hl.right
  have hbottom := hl.bottom
  have hwide := hl.width_pos
  have hwidth := hs.width_lt
  have hheight := hs.height_le (by omega)
  refine ⟨?_, ?_, ?_, ?_⟩
  all_goals exact BitVec.toInt_eq_toNat_of_lt (by omega)

theorem renderWindow_paints (h : Arranged d) (hp : p ∈ d.gui.live) (m : Mem) :
    ∃ m', renderWindow d m p = .ok m' ∧
      Paints h.screen.raster {q | (layer d m p).covers q = true} (layer d m p).picture m m' := by
  have hl := h.lies p hp
  obtain ⟨hx, hy, hw, hh⟩ := hl.toInt h.screen
  have hcopy := copyContents_paints h hp m
  unfold renderWindow
  rw [ended_deref hp, ok_bind]
  dsimp only
  by_cases hborder : (d.gui.mem p).flags &&& noBorder = 0#32
  · obtain ⟨m', hrun, hpaints⟩ := drawBorder_paints
      (m := copyContents d.fb (windowFb (d.gui.mem p) (d.buffer p)) (d.gui.mem p) m) h.screen
      hl.width_pos hl.height_pos hl.right hl.bottom (show borderColor2 < 2 ^ 32 by decide)
    refine ⟨m', ?_, ?_⟩
    · rw [if_pos hborder, hx, hy, hw, hh, hrun]
      rfl
    · have hboth : Paints h.screen.raster _ (layer d m p).picture m m' :=
        hcopy.trans hpaints (fun q hq hnot => ?_) fun q hq => ?_
      · refine hboth.congr (fun q => ?_) fun _ _ => rfl
        simp only [Set.mem_union, Set.mem_ofPred_eq, covers_iff]
        exact ⟨fun hin => hin.elim id And.left, Or.inl⟩
      · have hinner : ¬ onEdge (d.gui.mem p).x.toNat (d.gui.mem p).y.toNat
            (d.gui.mem p).width.toNat (d.gui.mem p).height.toNat q := fun hedge => hnot ⟨hq, hedge⟩
        exact (if_neg fun hedge => hinner hedge.2).symm
      · exact (if_pos ⟨hborder, hq.2⟩).symm
  · refine ⟨_, if_neg hborder, hcopy.congr (fun q => covers_iff.symm) fun q _ => ?_⟩
    exact (if_neg fun hedge => hborder hedge.1).symm

/-! ## The top bar -/

/-- The bytes that drawing the screen may change. -/
def drawn (d : Display) : Set Nat := block d.fb ∪ bufferOf d d.gui.topBarWindow

theorem screen_subset (h : Arranged d) : h.screen.raster.bytes h.screen.raster.area ⊆ drawn d :=
  fun _ ha => Or.inl (Raster.bytes_area_subset ha)

/-- A pixel of the screen does not change with the top bar's buffer. -/
theorem get_of_onlyIn (h : Arranged d) (hm : OnlyIn (bufferOf d d.gui.topBarWindow) m m')
    (hq : q ∈ h.screen.raster.area) : h.screen.raster.get m' q = h.screen.raster.get m q := by
  refine Raster.get_congr fun a hlo hhi => hm a fun hin => h.off _ h.topBar a hin ?_
  exact Raster.bytes_area_subset (r := h.screen.raster) ⟨q, hq, hlo, hhi⟩

theorem topBar_eq (h : Arranged d) : topBar d = .ok (d.gui.mem d.gui.topBarWindow,
    windowFb (d.gui.mem d.gui.topBarWindow) (d.buffer d.gui.topBarWindow)) := by
  rw [topBar, ended_deref h.topBar]
  rfl

theorem clearWindowList_spec (h : Arranged d) (m : Mem) :
    ∃ m', clearWindowList d m = .ok m' ∧ OnlyIn (drawn d) m m' ∧
      ∀ q ∈ h.screen.raster.area, (layer d m d.gui.topBarWindow).covers q = false →
        h.screen.raster.get m' q = h.screen.raster.get m q := by
  have ht := h.window h.topBar
  have hl := h.lies _ h.topBar
  obtain ⟨-, -, hw, hh⟩ := hl.toInt h.screen
  have hrect := rowsLoop_paints (m := m) (x := 0) (y := 0)
    (w := (d.gui.mem d.gui.topBarWindow).width.toNat)
    (n := (d.gui.mem d.gui.topBarWindow).height.toNat) (fun _ => 0xff0000) 0xff0000 ht.toLinear
    hl.width_pos
    (Nat.zero_add _).le (Nat.zero_add _).le (fun _ _ _ _ => rfl) fun _ => rfl
  have hfirst : OnlyIn (bufferOf d d.gui.topBarWindow) m
      (drawRectangle (windowFb (d.gui.mem d.gui.topBarWindow) (d.buffer d.gui.topBarWindow)) m
        0#32 0#32 (d.gui.mem d.gui.topBarWindow).width (d.gui.mem d.gui.topBarWindow).height
        0xff0000) := by
    have hstart : offset (windowFb (d.gui.mem d.gui.topBarWindow) (d.buffer d.gui.topBarWindow))
        0#32 0#32 = ht.raster.place (0, 0) :=
      ht.pixelOffset_eq (q := (0, 0)) ⟨hl.width_pos, hl.height_pos⟩
    rw [drawRectangle, hw, hh, hstart]
    exact hrect.onlyIn.mono Raster.bytes_area_subset
  obtain ⟨m', hrun, hpaints⟩ := renderWindow_paints h h.topBar (drawRectangle
    (windowFb (d.gui.mem d.gui.topBarWindow) (d.buffer d.gui.topBarWindow)) m 0#32 0#32
    (d.gui.mem d.gui.topBarWindow).width (d.gui.mem d.gui.topBarWindow).height 0xff0000)
  refine ⟨m', ?_, ?_, fun q hq hnot => ?_⟩
  · rw [clearWindowList, topBar_eq h]
    exact hrun
  · exact (hfirst.mono fun _ ha => Or.inr ha).trans (hpaints.onlyIn.mono (screen_subset h))
  · rw [hpaints.elsewhere hq fun hin => Bool.false_ne_true (hnot.symm.trans hin),
      get_of_onlyIn h hfirst hq]

theorem addToTopBarWindowList_spec (font : Glyphs) (h : Arranged d) (title : List (BitVec 8))
    (pos : BitVec 32) {e : Nat}
    (hroom : Room (windowFb (d.gui.mem d.gui.topBarWindow) (d.buffer d.gui.topBarWindow)) e 0)
    (hend : pos.toNat + (9 * title.length + 19) ≤ e) (m : Mem) :
    ∃ pos' m', addToTopBarWindowList font d title pos m = .ok (pos', m') ∧
      pos'.toNat = pos.toNat + (9 * title.length + 19) ∧
      OnlyIn (bufferOf d d.gui.topBarWindow) m m' := by
  have ht := h.window h.topBar
  have hshort := hroom.short
  have hfits := hroom.fits
  have hnext : (pos + BitVec.ofNat 32 (9 * title.length)).toNat = pos.toNat + 9 * title.length := by
    simp only [BitVec.toNat_add, BitVec.toNat_ofNat]
    omega
  have hzero : (0#32).toNat = 0 := rfl
  refine ⟨_, _, by rw [addToTopBarWindowList, topBar_eq h]; rfl, ?_, ?_⟩
  · simp only [BitVec.toNat_add, BitVec.toNat_ofNat]
    omega
  · refine OnlyIn.trans (drawString_onlyIn ht ⟨?_, ?_⟩ m) (drawString_onlyIn ht ⟨?_, ?_⟩ _)
    · omega
    · rw [hzero]
      omega
    · rw [hnext, List.length_singleton]
      omega
    · rw [hnext, hzero, List.length_singleton]
      omega

theorem addDateToTopBar_spec (font : Glyphs) (h : Arranged d) (htext : TextFits d date) (m : Mem) :
    ∃ m', addDateToTopBar font d date m = .ok m' ∧
      OnlyIn (bufferOf d d.gui.topBarWindow) m m' := by
  have ht := h.window h.topBar
  have hl := h.lies _ h.topBar
  have hright := hl.right
  have hwidth := h.screen.width_lt
  have hdate := htext.date
  refine ⟨_, by rw [addDateToTopBar, topBar_eq h]; rfl, ?_⟩
  cases date with
  | nil => exact OnlyIn.refl _ m
  | cons c rest =>
    simp only [List.length_cons] at hdate
    have hstart : ((d.gui.mem d.gui.topBarWindow).width -
        BitVec.ofNat 32 (9 * (c :: rest).length)).toNat =
        (d.gui.mem d.gui.topBarWindow).width.toNat - 9 * (rest.length + 1) := by
      simp only [List.length_cons, BitVec.toNat_sub, BitVec.toNat_ofNat]
      omega
    have hrows : 16 * (d.gui.mem d.gui.topBarWindow).width.toNat ≤
        (d.gui.mem d.gui.topBarWindow).height.toNat *
          (d.gui.mem d.gui.topBarWindow).width.toNat :=
      Nat.mul_le_mul_right _ htext.high
    refine drawString_onlyIn ht ⟨?_, ?_⟩ m
    · rw [hstart, List.length_cons]
      omega
    · rw [hstart, List.length_cons]
      change (0 + 15) * (d.gui.mem d.gui.topBarWindow).width.toNat + _ < _ * _
      simp only [windowFb]
      omega

/-! ## The whole screen -/

/-- Off the top bar the pixels show the windows drawn so far. -/
structure Progress (h : Arranged d) (m₀ : Mem) (done : List Nat) (s : BitVec 32 × Mem) : Prop where
  pos : s.1.toNat = titlesEnd d done
  onlyIn : OnlyIn (drawn d) m₀ s.2
  shows : ∀ q ∈ h.screen.raster.area, (layer d m₀ d.gui.topBarWindow).covers q = false →
    h.screen.raster.get s.2 q =
      view ((done.filter (visible d)).map (layer d m₀)) (h.screen.raster.get m₀) q

theorem layer_picture_congr (h : Arranged d) (hp : p ∈ d.gui.live)
    (hsame : ∀ a ∈ bufferOf d p, m' a = m a) (hq : (layer d m p).covers q = true) :
    (layer d m' p).picture q = (layer d m p).picture q := by
  have ht := h.window hp
  have hin := covers_iff.mp hq
  have hx : q.1 - (d.gui.mem p).x.toNat < (d.gui.mem p).width.toNat := by
    have hlo := hin.1
    have hhi := hin.2.1
    omega
  have hy : q.2 - (d.gui.mem p).y.toNat < (d.gui.mem p).height.toNat := by
    have hlo := hin.2.2.1
    have hhi := hin.2.2.2
    omega
  have hget : (windowRaster (d.gui.mem p) (d.buffer p)).get m'
      (q.1 - (d.gui.mem p).x.toNat, q.2 - (d.gui.mem p).y.toNat) =
      (windowRaster (d.gui.mem p) (d.buffer p)).get m
        (q.1 - (d.gui.mem p).x.toNat, q.2 - (d.gui.mem p).y.toNat) := by
    rw [← windowRaster_eq ht]
    exact Raster.get_congr fun a hlo hhi => hsame a (window_place_mem ht hx hy hlo hhi)
  simp only [layer, hget]

/-- Drawing the screen leaves the buffers of the other windows alone. -/
theorem buffer_of_drawn (h : Arranged d) (hp : p ∈ d.gui.live) (hne : p ≠ d.gui.topBarWindow)
    (hm : OnlyIn (drawn d) m m') : ∀ a ∈ bufferOf d p, m' a = m a := by
  refine fun a ha => hm a ?_
  rintro (hscreen | hbar)
  · exact h.off p hp a ha hscreen
  · exact h.apart p hp _ h.topBar hne a ha hbar

theorem titlesEnd_append (done : List Nat) (p : Nat) :
    titlesEnd d (done ++ [p]) = titlesEnd d done + (9 * (d.title p).length + 19) := by
  simp [titlesEnd]

theorem renderEntry_spec (font : Glyphs) (h : Arranged d) {m₀ : Mem} {done : List Nat}
    {s : BitVec 32 × Mem}
    (hs : Progress h m₀ done s) (hp : p ∈ d.gui.live) {e : Nat}
    (hroom : Room (windowFb (d.gui.mem d.gui.topBarWindow) (d.buffer d.gui.topBarWindow)) e 0)
    (hend : titlesEnd d (done ++ [p]) ≤ e) :
    ∃ s', renderEntry font d s p = .ok s' ∧ Progress h m₀ (done ++ [p]) s' := by
  have hwindow : ∃ m₁, renderVisible d s.2 (d.gui.mem p) p = .ok m₁ ∧ OnlyIn (drawn d) m₀ m₁ ∧
      ∀ q ∈ h.screen.raster.area, (layer d m₀ d.gui.topBarWindow).covers q = false →
        h.screen.raster.get m₁ q = view (((done ++ [p]).filter (visible d)).map (layer d m₀))
          (h.screen.raster.get m₀) q := by
    unfold renderVisible
    by_cases hvisible : (d.gui.mem p).flags &&& notVisible = 0#32
    · obtain ⟨m₁, hrun, hpaints⟩ := renderWindow_paints h hp s.2
      refine ⟨m₁, by rw [if_pos hvisible, hrun],
        hs.onlyIn.trans (hpaints.onlyIn.mono (screen_subset h)), fun q hq hbar => ?_⟩
      have hfilter : visible d p = true := decide_eq_true hvisible
      rw [List.filter_append, List.filter_singleton, hfilter, cond_true, List.map_append,
        List.map_singleton, view_concat]
      by_cases hcovers : (layer d m₀ p).covers q = true
      · have hne : p ≠ d.gui.topBarWindow := by
          rintro rfl
          exact Bool.false_ne_true (hbar.symm.trans hcovers)
        rw [if_pos hcovers, hpaints.on q hcovers]
        exact layer_picture_congr h hp (buffer_of_drawn h hp hne hs.onlyIn) hcovers
      · rw [if_neg hcovers, hpaints.elsewhere hq hcovers]
        exact hs.shows q hq hbar
    · have hfilter : visible d p = false := decide_eq_false hvisible
      refine ⟨s.2, if_neg hvisible, hs.onlyIn, fun q hq hbar => ?_⟩
      rw [List.filter_append, List.filter_singleton, hfilter, cond_false, List.append_nil]
      exact hs.shows q hq hbar
  obtain ⟨m₁, hrun₁, hconfined, hshows⟩ := hwindow
  obtain ⟨pos', m₂, hrun₂, hpos, htext⟩ := addToTopBarWindowList_spec font h
    (d.title p) s.1 hroom (by rw [hs.pos, ← titlesEnd_append]; exact hend) m₁
  refine ⟨(pos', m₂), ?_, ⟨?_, ?_, fun q hq hbar => ?_⟩⟩
  · rw [renderEntry, ended_deref hp, ok_bind, hrun₁, ok_bind, hrun₂]
  · rw [hpos, hs.pos, titlesEnd_append]
  · exact hconfined.trans (htext.mono fun _ ha => Or.inr ha)
  · exact (get_of_onlyIn h htext hq).trans (hshows q hq hbar)

/-- The windows of the list, one after the other. -/
theorem renderEntries_spec (font : Glyphs) (h : Arranged d) {m₀ : Mem} {items done : List Nat}
    {s : BitVec 32 × Mem} (hs : Progress h m₀ done s) (hitems : ∀ p ∈ items, p ∈ d.gui.live)
    (hroom : Room (windowFb (d.gui.mem d.gui.topBarWindow) (d.buffer d.gui.topBarWindow))
      (titlesEnd d (done ++ items)) 0) :
    ∃ s', items.foldlM (renderEntry font d) s = .ok s' ∧ Progress h m₀ (done ++ items) s' := by
  induction items generalizing done s with
  | nil => exact ⟨s, rfl, by rwa [List.append_nil]⟩
  | cons p items ih =>
    have hsplit : done ++ p :: items = done ++ [p] ++ items := by simp
    rw [hsplit] at hroom ⊢
    obtain ⟨s₁, hrun, hs₁⟩ := renderEntry_spec font h hs (hitems p List.mem_cons_self)
      hroom (by
        simp only [titlesEnd, List.map_append, List.sum_append]
        omega)
    obtain ⟨s₂, hrest, hs₂⟩ := ih hs₁ (fun p hp => hitems p (List.mem_cons_of_mem _ hp)) hroom
    exact ⟨s₂, by rw [List.foldlM_cons, hrun, ok_bind, hrest], hs₂⟩

theorem view_map_congr {β : Type} {f g : β → Layer (Nat × Nat) Nat} {l : List β}
    {base : Nat × Nat → Nat} (hcovers : ∀ b ∈ l, (f b).covers q = (g b).covers q)
    (hpicture : ∀ b ∈ l, (f b).covers q = true → (f b).picture q = (g b).picture q) :
    view (l.map f) base q = view (l.map g) base q := by
  induction l using List.reverseRecOn with
  | nil => rfl
  | append_singleton l b ih =>
    have hb : b ∈ l ++ [b] := by simp
    rw [List.map_append, List.map_append, List.map_singleton, List.map_singleton, view_concat,
      view_concat, ← hcovers b hb, ih (fun b hb => hcovers b (by simp [hb]))
        fun b hb => hpicture b (by simp [hb])]
    by_cases hin : (f b).covers q = true
    · rw [if_pos hin, if_pos hin, hpicture b hb hin]
    · rw [if_neg hin, if_neg hin]

/-- `render_screen` returns with a view of the stack of windows. -/
theorem renderScreen_view (font : Glyphs) (h : Arranged d) (htext : TextFits d date) (m : Mem) :
    ∃ m', renderScreen font d date m = .ok m' ∧
      (∀ q ∈ h.screen.raster.area, h.screen.raster.get m' q =
        view ((stack d).map (layer d m')) (h.screen.raster.get m) q) ∧
      OnlyIn (drawn d) m m' := by
  obtain ⟨m₁, hclear, hconfined₁, hshows₁⟩ := clearWindowList_spec h m
  have hstart : Progress h m [] (0#32, m₁) := ⟨rfl, hconfined₁, hshows₁⟩
  obtain ⟨s, hentries, hs⟩ := renderEntries_spec font h hstart h.listed htext.titles
  obtain ⟨m₂, hdate, hconfined₂⟩ := addDateToTopBar_spec font h htext s.2
  obtain ⟨m', hlast, hpaints⟩ := renderWindow_paints h h.topBar m₂
  have hall : OnlyIn (drawn d) m m₂ := hs.onlyIn.trans (hconfined₂.mono fun _ ha => Or.inr ha)
  have hend : OnlyIn (drawn d) m m' := hall.trans (hpaints.onlyIn.mono (screen_subset h))
  refine ⟨m', ?_, fun q hq => ?_, hend⟩
  · rw [renderScreen, hclear, ok_bind, hentries, ok_bind, hdate, ok_bind, hlast]
  · rw [stack, List.map_append, List.map_singleton, view_concat]
    by_cases hbar : (layer d m' d.gui.topBarWindow).covers q = true
    · rw [if_pos hbar, hpaints.on q hbar]
      exact (layer_picture_congr h h.topBar (fun a ha =>
        h.buffer_eq h.topBar hpaints.onlyIn ha) hbar).symm
    · have hnot : (layer d m d.gui.topBarWindow).covers q = false := Bool.eq_false_iff.mpr hbar
      rw [if_neg hbar, hpaints.elsewhere hq hbar, get_of_onlyIn h hconfined₂ hq,
        hs.shows q hq hnot]
      refine view_map_congr (fun _ _ => rfl) fun p hp hcovers => ?_
      have hlive := h.listed p (List.mem_of_mem_filter hp)
      have hne : p ≠ d.gui.topBarWindow := by
        rintro rfl
        exact Bool.false_ne_true (hnot.symm.trans hcovers)
      exact (layer_picture_congr h hlive (buffer_of_drawn h hlive hne hend) hcovers).symm

/-- **The screen shows the windows.**  `render_screen` returns, and each pixel of the
screen is that of the front one of the windows over it, in the order of the list with the
top bar over all, and as it was where there is none.  Of the rest of memory only the
buffer of the top bar changes. -/
theorem renderScreen_shows (font : Glyphs) (h : Arranged d) (htext : TextFits d date) (m : Mem) :
    ∃ m', renderScreen font d date m = .ok m' ∧
      (∀ q ∈ h.screen.raster.area, ∀ below p above, stack d = below ++ p :: above →
        (layer d m' p).covers q = true → (∀ p' ∈ above, (layer d m' p').covers q = false) →
        h.screen.raster.get m' q = (layer d m' p).picture q) ∧
      (∀ q ∈ h.screen.raster.area, (∀ p ∈ stack d, (layer d m' p).covers q = false) →
        h.screen.raster.get m' q = h.screen.raster.get m q) ∧
      OnlyIn (drawn d) m m' := by
  obtain ⟨m', hrun, hview, hconfined⟩ := renderScreen_view font h htext m
  refine ⟨m', hrun, fun q hq below p above hstack hcovers habove => ?_, fun q hq hnone => ?_,
    hconfined⟩
  · rw [hview q hq, hstack, List.map_append, List.map_cons]
    exact view_front hcovers (List.forall_mem_map.mpr habove)
  · rw [hview q hq]
    exact view_uncovered (List.forall_mem_map.mpr hnone)

/-- The two windows of `init_gui` on a screen of 640 by 480. -/
def desktop : Display where
  gui :=
    { live := [2, 1]
      mem := fun p => if p = 1 then ⟨640#32, 480#32, 5#32, 0#32, 0#32⟩
        else ⟨640#32, 32#32, 5#32, 0#32, 0#32⟩
      opened := 2, focused := 2, backgroundWindow := 1, topBarWindow := 2
      windowList := ⟨[1, 2], 2⟩, rowPutchar := 0#32, columnPutchar := 8#32
      keyPressed := fun _ => false }
  fb := { address := 0x1000000, pitch := 2560, width := 640, height := 480, bpp := 32 }
  buffer p := 0x2000000 + 0x200000 * p
  title _ := [0x77#8]

theorem desktop_live (hp : p ∈ desktop.gui.live) : p = 2 ∨ p = 1 := by
  simpa [desktop] using hp

theorem desktop_arranged : Arranged desktop := by
  constructor
  case screen => exact ⟨rfl, by decide, by decide, by decide⟩
  case topBar => decide
  case listed => decide
  case lies =>
    intro p hp
    rcases desktop_live hp with rfl | rfl
    · exact ⟨by decide, by decide, by decide, by decide⟩
    · exact ⟨by decide, by decide, by decide, by decide⟩
  case bound =>
    intro p hp
    rcases desktop_live hp with rfl | rfl
    · decide
    · decide
  case off =>
    intro p hp
    rcases desktop_live hp with rfl | rfl
    · exact block_apart (by decide)
    · exact block_apart (by decide)
  case apart =>
    intro p hp p' hp' hne
    rcases desktop_live hp with rfl | rfl
    · rcases desktop_live hp' with rfl | rfl
      · exact absurd rfl hne
      · exact block_apart (by decide)
    · rcases desktop_live hp' with rfl | rfl
      · exact block_apart (by decide)
      · exact absurd rfl hne

theorem desktop_textFits : TextFits desktop [0x31#8] :=
  ⟨by decide, ⟨by decide, by decide⟩, by decide⟩

/-- The corner of the screen shows the corner of the top bar. -/
theorem renderScreen_shows_corner : ∃ m', renderScreen (fun _ _ => 0xFF#8) desktop [0x31#8]
      (fun _ => 0#8) = .ok m' ∧
    read32 m' 0x1000000 = read32 m' 0x2400000 := by
  obtain ⟨m', hrun, hshows, -, -⟩ := renderScreen_shows (fun _ _ => 0xFF#8) desktop_arranged
    desktop_textFits fun _ => 0#8
  exact ⟨m', hrun, hshows (0, 0) ⟨by decide, by decide⟩ [1, 2] 2 [] (by decide) rfl
    fun p hp => absurd hp List.not_mem_nil⟩

end Composition
end Gui
end Medusa
