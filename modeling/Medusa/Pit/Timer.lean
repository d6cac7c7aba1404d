import Mathlib.Tactic.Ring
import Medusa.Kernel.Misc
import Medusa.Machine.Polling

/-!
# The interval timer

`pit_init` gives channel 0 of the timer a count, and from then on the channel raises the
ticks of the system.  `pit_mdelay`, which the beeper and the command `sleep` wait with, puts a
control word for channel 0 in front of a loop that loads channel 2.  A control word takes the
count away, so after a delay there are no ticks until `pit_init` is called again.

The chip is the abstract level: a channel has the control word that it was last given, and the
count that was completely written since.
-/

namespace Medusa
namespace Pit

open Machine Kernel

/-! ## The chip -/

structure Channel where
  control : BitVec 8
  /-- The low byte of a count whose high byte is still to come. -/
  low : Option (BitVec 8)
  /-- `none` while the channel waits for a count. -/
  count : Option (BitVec 16)

/-- Bits 4 and 5 of a control word: which bytes of a count are written. -/
def bytesOf (control : BitVec 8) : BitVec 2 := (control >>> 4).setWidth 2

namespace Channel

def program (v : BitVec 8) : Channel := { control := v, low := none, count := none }

def write (c : Channel) (v : BitVec 8) : Channel :=
  if bytesOf c.control = 1#2 then { c with count := some (0#8 ++ v) }
  else if bytesOf c.control = 2#2 then { c with count := some (v ++ 0#8) }
  else if bytesOf c.control = 3#2 then
    match c.low with
    | none => { c with low := some v }
    | some low => { c with low := none, count := some (v ++ low) }
  else c

/-- What an access does to channel `i`.  A control word without bytes only latches. -/
def step (i : BitVec 2) (c : Channel) : PortAccess → Channel
  | .input _ => c
  | .output p v =>
    if p = 0x43 then if v.extractLsb' 6 2 = i ∧ bytesOf v ≠ 0 then program v else c
    else if p = 0x40 + i.setWidth 16 then c.write v
    else c

end Channel

/-- Channel 0, which began as `c`. -/
def timerAfter (c : Channel) (h : Trace) : Channel := h.foldl (Channel.step 0) c

theorem timerAfter_snoc (c : Channel) (h : Trace) (a : PortAccess) :
    timerAfter c (h ++ [a]) = (timerAfter c h).step 0 a := by
  rw [timerAfter, List.foldl_append]
  rfl

/-! ## The code -/

def internalFreq : Nat := 1193182

def internalFreq3x : Nat := 3579546

/-- `count` in `pit_init`; it stays below 2 ^ 32. -/
def pitCount (frequency : BitVec 32) : Nat :=
  if frequency.toNat ≤ 18 then 0xffff
  else if internalFreq ≤ frequency.toNat then 1
  else
    let count := internalFreq3x / frequency.toNat
    let remainder := internalFreq3x % frequency.toNat
    let count := if internalFreq3x / 2 ≤ remainder then count + 1 else count
    let count := count / 3
    -- the remainder of the quotient, not of the division
    let remainder := count % 3
    if 1 ≤ remainder then count + 1 else count

variable {ε : Type}

def pitInit (frequency : BitVec 32) : PortAction ε Unit := do
  let divisor := BitVec.ofNat 16 (pitCount frequency)
  outb 0x43 0x34
  outb 0x40 (divisor.setWidth 8)
  outb 0x40 ((divisor >>> 8).setWidth 8)

def pitSetCounter (channel : BitVec 8) (count : BitVec 16) : PortAction ε Unit := do
  if channel < 3 then
    outb (0x40 + channel.setWidth 16) (count.setWidth 8)
    outb (0x40 + channel.setWidth 16) ((count >>> 8).setWidth 8)

def delayLoop (hw : Hardware) (fuel : Nat) : Nat → PortAction Stop Unit
  | 0 => pure ()
  | ms + 1 => do
    pitSetCounter 2 (BitVec.ofNat 16 (internalFreq / 1000))
    pollUntil hw .fuel 0x61 (fun b => b &&& 0x20#8 != 0#8) fuel
    delayLoop hw fuel ms

def pitMdelay (hw : Hardware) (fuel : Nat) (ms : BitVec 64) : PortAction Stop Unit := do
  outb 0x43 0x30
  delayLoop hw fuel ms.toNat

def pitPhaseC2 (hz : BitVec 32) : PortAction Stop Unit := do
  if hz = 0 then Action.stop .fault
  else
    let divisor := 1193180#32 / hz
    outb 0x43 0xB6
    outb 0x42 (divisor.setWidth 8)
    outb 0x42 ((divisor >>> 8).setWidth 8)

def pcspkrToneOn (hw : Hardware) (hz : BitVec 32) : PortAction Stop Unit := do
  pitPhaseC2 hz
  let tmp ← inb hw 0x61
  if tmp ≠ tmp ||| 3 then outb 0x61 (tmp ||| 3)

def pcspkrToneOff (hw : Hardware) : PortAction Stop Unit := do
  let tmp ← inb hw 0x61
  outb 0x61 (tmp &&& 0xFC)
  pitPhaseC2 1

def nosound (hw : Hardware) : PortAction Stop Unit := do
  let tmp ← inb hw 0x61
  outb 0x61 (tmp &&& 0xFC)

def pcspkrBeep (hw : Hardware) (fuel : Nat) (mst : BitVec 32) (hz : BitVec 16) :
    PortAction Stop Unit := do
  pcspkrToneOn hw (hz.setWidth 32)
  pitMdelay hw fuel (mst.setWidth 64)
  pcspkrToneOff hw

def initSpeaker (hw : Hardware) : PortAction Stop Unit := do
  let tmp ← inb hw 0x61
  outb 0x61 (tmp ||| 1)

/-- The calls of the timer and the beeper. -/
inductive Call where
  | init (frequency : BitVec 32)
  | delay (ms : BitVec 64)
  | toneOn (hz : BitVec 32)
  | toneOff
  | nosound
  | beep (mst : BitVec 32) (hz : BitVec 16)
  | initSpeaker

def Call.run (hw : Hardware) (fuel : Nat) : Call → PortAction Stop Unit
  | init frequency => pitInit frequency
  | delay ms => pitMdelay hw fuel ms
  | toneOn hz => pcspkrToneOn hw hz
  | toneOff => pcspkrToneOff hw
  | nosound => Pit.nosound hw
  | beep mst hz => pcspkrBeep hw fuel mst hz
  | initSpeaker => Pit.initSpeaker hw

def runCalls (hw : Hardware) (fuel : Nat) : List Call → PortAction Stop Unit
  | [] => pure ()
  | call :: calls => do
    call.run hw fuel
    runCalls hw fuel calls

/-! ## The count -/

/-- No other count comes closer to the frequency. -/
def Nearest (frequency count : Nat) : Prop :=
  ∀ other : Nat,
    |(internalFreq : Int) - count * frequency| ≤ |(internalFreq : Int) - other * frequency|

theorem pitCount_eq {frequency : BitVec 32} (hlo : 18 < frequency.toNat)
    (hhi : frequency.toNat < internalFreq) :
    pitCount frequency = internalFreq / frequency.toNat +
      if 3 ∣ internalFreq / frequency.toNat then 0 else 1 := by
  have hrem : internalFreq3x % frequency.toNat < internalFreq3x / 2 := by
    have hlt := Nat.mod_lt internalFreq3x (show 0 < frequency.toNat by omega)
    unfold internalFreq at hhi
    unfold internalFreq3x at *
    omega
  have hquot : internalFreq3x / frequency.toNat / 3 = internalFreq / frequency.toNat := by
    rw [Nat.div_div_eq_div_mul, show internalFreq3x = internalFreq * 3 from rfl]
    exact Nat.mul_div_mul_right _ _ (by decide)
  unfold pitCount
  rw [if_neg (by omega), if_neg (by omega)]
  simp only [if_neg (Nat.not_le.mpr hrem), hquot]
  split <;> split <;> omega

/-- The two counts around the exact quotient. -/
theorem nearest_iff {f q r : Nat} (hf : r < f) (hq : internalFreq = q * f + r) :
    (Nearest f q ↔ 2 * r ≤ f) ∧ (Nearest f (q + 1) ↔ f ≤ 2 * r) := by
  have hlow : |(internalFreq : Int) - q * f| = r := by
    rw [hq, abs_of_nonneg]
    · push_cast
      omega
    · push_cast
      omega
  have hhigh : |(internalFreq : Int) - (q + 1 : Nat) * f| = f - r := by
    have heq : (internalFreq : Int) - (q + 1 : Nat) * f = r - f := by
      rw [hq]
      push_cast
      ring
    rw [heq, abs_of_nonpos (by omega)]
    omega
  have hother : ∀ other : Nat, (r : Int) ≤ |(internalFreq : Int) - other * f| ∨
      (f : Int) - r ≤ |(internalFreq : Int) - other * f| := by
    intro other
    by_cases hle : other ≤ q
    · have hmul : (other : Int) * f ≤ q * f := by exact_mod_cast Nat.mul_le_mul_right f hle
      refine Or.inl (le_trans ?_ (le_abs_self _))
      rw [hq]
      push_cast
      omega
    · have hmul : ((q + 1 : Nat) : Int) * f ≤ other * f := by
        exact_mod_cast Nat.mul_le_mul_right f (show q + 1 ≤ other by omega)
      refine Or.inr (le_trans ?_ (neg_le_abs _))
      rw [hq]
      push_cast at hmul ⊢
      ring_nf at hmul ⊢
      omega
  unfold Nearest
  rw [hlow, hhigh]
  constructor
  · constructor
    · intro h
      have hnext := h (q + 1)
      rw [hhigh] at hnext
      omega
    · intro h other
      rcases hother other with h' | h' <;> omega
  · constructor
    · intro h
      have hprev := h q
      rw [hlow] at hprev
      omega
    · intro h other
      rcases hother other with h' | h' <;> omega

/-! ## Channel 0 -/

section Frame

variable {c : Channel} {hw : Hardware} {fuel : Nat}

/-- Channel 0 is left as it was. -/
def Leaves (c : Channel) (_ : Bool) (h h' : Trace) : Prop := timerAfter c h' = timerAfter c h

theorem leaves_composes (c : Channel) : Action.Composes (Leaves c) where
  refl _ _ := rfl
  trans hst htu := Eq.trans htu hst

theorem leaves_inb (p : BitVec 16) : Action.Keeps (Leaves c) (inb hw p : PortAction ε _) :=
  fun h => timerAfter_snoc c h (.input p)

/-- Bytes for other ports. -/
theorem leaves_data {p : BitVec 16} (v : BitVec 8) (h40 : p ≠ 0x40) (h43 : p ≠ 0x43) :
    Action.Keeps (Leaves c) (outb p v : PortAction ε _) := by
  intro h
  refine (timerAfter_snoc c h (.output p v)).trans ?_
  rw [Channel.step, if_neg h43]
  exact if_neg h40

/-- Control words for other channels. -/
theorem leaves_control {v : BitVec 8} (hv : v.extractLsb' 6 2 ≠ 0) :
    Action.Keeps (Leaves c) (outb 0x43 v : PortAction ε _) := by
  intro h
  refine (timerAfter_snoc c h (.output 0x43 v)).trans ?_
  rw [Channel.step, if_pos rfl]
  exact if_neg fun h => hv h.1

theorem leaves_pollUntil (e : ε) (p : BitVec 16) (passes : BitVec 8 → Bool) (fuel : Nat) :
    Action.Keeps (Leaves c) (pollUntil hw e p passes fuel) := by
  induction fuel with
  | zero => exact (leaves_composes c).stop e
  | succ fuel ih =>
    refine (leaves_composes c).bind (leaves_inb p) fun b => ?_
    cases passes b
    · exact ih
    · exact (leaves_composes c).pure ()

theorem leaves_setCounter_two (count : BitVec 16) :
    Action.Keeps (Leaves c) (pitSetCounter 2 count : PortAction ε _) :=
  (leaves_composes c).bind (leaves_data _ (by decide) (by decide)) fun _ =>
    leaves_data _ (by decide) (by decide)

theorem leaves_delayLoop (hw : Hardware) (fuel ms : Nat) :
    Action.Keeps (Leaves c) (delayLoop hw fuel ms) := by
  induction ms with
  | zero => exact (leaves_composes c).pure ()
  | succ ms ih =>
    exact (leaves_composes c).bind (leaves_setCounter_two _) fun _ =>
      (leaves_composes c).bind (leaves_pollUntil _ _ _ _) fun _ => ih

theorem leaves_phaseC2 (hz : BitVec 32) : Action.Keeps (Leaves c) (pitPhaseC2 hz) := by
  unfold pitPhaseC2
  split
  · exact (leaves_composes c).stop _
  · exact (leaves_composes c).bind (leaves_control (by decide)) fun _ =>
      (leaves_composes c).bind (leaves_data _ (by decide) (by decide)) fun _ =>
        leaves_data _ (by decide) (by decide)

theorem leaves_toneOn (hz : BitVec 32) : Action.Keeps (Leaves c) (pcspkrToneOn hw hz) := by
  refine (leaves_composes c).bind (leaves_phaseC2 hz) fun _ =>
    (leaves_composes c).bind (leaves_inb 0x61) fun tmp => ?_
  split
  · exact leaves_data _ (by decide) (by decide)
  · exact (leaves_composes c).pure ()

theorem leaves_nosound : Action.Keeps (Leaves c) (nosound hw) :=
  (leaves_composes c).bind (leaves_inb 0x61) fun _ => leaves_data _ (by decide) (by decide)

theorem leaves_toneOff : Action.Keeps (Leaves c) (pcspkrToneOff hw) :=
  (leaves_composes c).bind (leaves_inb 0x61) fun _ =>
    (leaves_composes c).bind (leaves_data _ (by decide) (by decide)) fun _ => leaves_phaseC2 1

theorem leaves_initSpeaker : Action.Keeps (Leaves c) (initSpeaker hw) :=
  (leaves_composes c).bind (leaves_inb 0x61) fun _ => leaves_data _ (by decide) (by decide)

theorem append_bytes (x : BitVec 16) : (x >>> 8).setWidth 8 ++ x.setWidth 8 = x := by
  apply BitVec.eq_of_getElem_eq
  intro i hi
  rw [BitVec.getElem_append]
  split
  · rw [BitVec.getElem_setWidth, BitVec.getLsbD_eq_getElem hi]
  · rw [BitVec.getElem_setWidth, BitVec.getLsbD_ushiftRight, show 8 + (i - 8) = i by omega,
      BitVec.getLsbD_eq_getElem hi]

/-- A control word for both bytes, and the bytes. -/
theorem load_count {c : Channel} {v : BitVec 8} (hchannel : v.extractLsb' 6 2 = 0#2)
    (hbytes : bytesOf v = 3#2) (low high : BitVec 8) :
    (((c.step 0 (.output 0x43 v)).step 0 (.output 0x40 low)).step 0 (.output 0x40 high)).count =
      some (high ++ low) := by
  have hprogram : c.step 0 (.output 0x43 v) = Channel.program v := by
    rw [Channel.step, if_pos rfl, if_pos ⟨hchannel, by rw [hbytes]; decide⟩]
  have hwrite : ∀ (d : Channel) (b : BitVec 8), d.step 0 (.output 0x40 b) = d.write b :=
    fun _ _ => rfl
  rw [hprogram, hwrite, hwrite]
  simp [Channel.write, Channel.program, hbytes]

/-- After `pit_init` the channel has the count. -/
theorem pitInit_count (frequency : BitVec 32) (h : Trace) :
    ∃ h', (pitInit frequency : PortAction ε Unit).run h = (.ok (), h') ∧
      (timerAfter c h').count = some (BitVec.ofNat 16 (pitCount frequency)) := by
  refine ⟨_, rfl, ?_⟩
  rw [timerAfter_snoc, timerAfter_snoc, timerAfter_snoc, load_count (by decide) (by decide),
    append_bytes]

/-- A delay takes the count away, whether it comes to its end or not. -/
theorem pitMdelay_count (hw : Hardware) (fuel : Nat) (ms : BitVec 64) (h : Trace) :
    (timerAfter c ((pitMdelay hw fuel ms).run h).2).count = none := by
  have hloop := leaves_delayLoop (c := c) hw fuel ms.toNat (h ++ [.output 0x43 0x30])
  rw [pitMdelay, Action.bind_ok (outb_run 0x43 0x30 h)]
  refine (congrArg Channel.count hloop).trans ?_
  rw [timerAfter_snoc]
  rfl

/-- The count of channel 0 after a call. -/
def tick (count : Option (BitVec 16)) : Call → Option (BitVec 16)
  | .init frequency => some (BitVec.ofNat 16 (pitCount frequency))
  | .delay _ => none
  | .beep _ _ => none
  | _ => count

theorem count_of_leaves {x : PortAction ε Unit} (hx : Action.Keeps (Leaves c) x) {h h' : Trace}
    (hrun : x.run h = (.ok (), h')) : (timerAfter c h').count = (timerAfter c h).count := by
  have hleaves := hx h
  rw [hrun] at hleaves
  exact congrArg Channel.count hleaves

/-- **One call.** -/
theorem Call.run_count (call : Call) {h h' : Trace}
    (hrun : (call.run hw fuel).run h = (.ok (), h')) :
    (timerAfter c h').count = tick (timerAfter c h).count call := by
  cases call with
  | init frequency =>
    obtain ⟨h₁, hinit, hcount⟩ := pitInit_count (c := c) frequency h
    rw [show h' = h₁ from congrArg Prod.snd (hrun.symm.trans hinit)]
    exact hcount
  | delay ms =>
    have hcount := pitMdelay_count (c := c) hw fuel ms h
    rw [show (pitMdelay hw fuel ms).run h = _ from hrun] at hcount
    exact hcount
  | toneOn hz => exact count_of_leaves (leaves_toneOn hz) hrun
  | toneOff => exact count_of_leaves leaves_toneOff hrun
  | nosound => exact count_of_leaves leaves_nosound hrun
  | beep mst hz =>
    obtain ⟨_, h₁, -, hrest⟩ := Action.run_bind_eq_ok hrun
    obtain ⟨_, h₂, hdelay, hoff⟩ := Action.run_bind_eq_ok hrest
    have hcount := pitMdelay_count (c := c) hw fuel (mst.setWidth 64) h₁
    rw [hdelay] at hcount
    exact (count_of_leaves leaves_toneOff hoff).trans hcount
  | initSpeaker => exact count_of_leaves leaves_initSpeaker hrun

end Frame

/-- **The count comes from `pit_init`.**  Every frequency gives channel 0 a count that the
chip can hold.  Between the bounds it is one of the two counts around the exact quotient: the
lower one if that is a multiple of three, and the upper one otherwise, whichever is nearer. -/
theorem pitInit_divisor (frequency : BitVec 32) (c : Channel) (h : Trace) :
    ∃ h' d, (pitInit frequency : PortAction ε Unit).run h = (.ok (), h') ∧
      (timerAfter c h').count = some d ∧
      (frequency.toNat ≤ 18 → d = 0xFFFF#16) ∧ (internalFreq ≤ frequency.toNat → d = 1#16) ∧
      (18 < frequency.toNat → frequency.toNat < internalFreq →
        d.toNat = internalFreq / frequency.toNat +
          (if 3 ∣ internalFreq / frequency.toNat then 0 else 1) ∧
        (Nearest frequency.toNat d.toNat ↔
          if 3 ∣ internalFreq / frequency.toNat then
            2 * (internalFreq % frequency.toNat) ≤ frequency.toNat
          else frequency.toNat ≤ 2 * (internalFreq % frequency.toNat))) := by
  obtain ⟨h', hrun, hcount⟩ := pitInit_count (c := c) frequency h
  refine ⟨h', _, hrun, hcount, fun hlo => ?_, fun hhi => ?_, fun hlo hhi => ?_⟩
  · rw [pitCount, if_pos hlo]
  · rw [pitCount, if_neg (by unfold internalFreq at hhi; omega), if_pos hhi]
  · have hcount_eq := pitCount_eq hlo hhi
    have hle : internalFreq / frequency.toNat ≤ internalFreq / 19 :=
      Nat.div_le_div_left (by omega) (by decide)
    have hd : (BitVec.ofNat 16 (pitCount frequency)).toNat = pitCount frequency := by
      rw [BitVec.toNat_ofNat, Nat.mod_eq_of_lt]
      rw [hcount_eq]
      unfold internalFreq at *
      split <;> omega
    rw [hd, hcount_eq]
    refine ⟨rfl, ?_⟩
    have hnear := nearest_iff (Nat.mod_lt internalFreq (show 0 < frequency.toNat by omega))
      (Nat.div_add_mod' internalFreq frequency.toNat).symm
    split
    · exact hnear.1
    · exact hnear.2

/-- The thousand ticks a second of `kernel_main`: 1193 would be nearer. -/
example : pitCount 1000 = 1194 := by decide

/-- **Delays stop the clock.**  Over any calls of the timer and the beeper that return, the
count of channel 0 is that of the last `pit_init`, unless `pit_mdelay` or a beep came after
it: then the channel waits for a count, and the system has no ticks. -/
theorem runCalls_count {hw : Hardware} {fuel : Nat} (calls : List Call) (c : Channel)
    {h h' : Trace} (hrun : (runCalls hw fuel calls).run h = (.ok (), h')) :
    (timerAfter c h').count = calls.foldl tick (timerAfter c h).count := by
  induction calls generalizing h with
  | nil =>
    rw [show h' = h from (congrArg Prod.snd hrun).symm]
    rfl
  | cons call calls ih =>
    obtain ⟨_, h₁, hcall, hrest⟩ := Action.run_bind_eq_ok hrun
    rw [ih hrest, Call.run_count call hcall]
    rfl

/-- The boot, and the command `sleep` with a device that is ready at once. -/
theorem runCalls_count_sleep : ∃ h', (runCalls (fun _ _ => 0xFF#8) 1
      [.init 1000, .initSpeaker, .delay 2]).run [] = (.ok (), h') ∧
    (timerAfter (Channel.program 0) h').count =
      [Call.init 1000, .initSpeaker, .delay 2].foldl tick
        (timerAfter (Channel.program 0) []).count := by
  refine ⟨_, rfl, ?_⟩
  exact runCalls_count _ _ (show (runCalls (fun _ _ => 0xFF#8) 1
    [.init 1000, .initSpeaker, .delay 2]).run [] = _ from rfl)

end Pit
end Medusa
