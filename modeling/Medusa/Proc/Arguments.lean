import Medusa.Proc.UserStack

/-!
# The arguments of a new process

The strings stand one below the other, each in as many words as it takes with its
terminator, and below them the pointers, the vector's address and the count.  So no
byte is stored twice.  But the pointers go down while the strings are counted up: the
word that the vector's address names is the last argument's.
-/

namespace Medusa
namespace UserStack

open Machine Kernel Libc Heap
open Proc (procStackPages procKernelStackPages processSize argRounds)

/-! ## The layout -/

def stackTop : Nat := 0xC0000000

def stackBottom : Nat := stackTop - 0x1000 * procStackPages

/-- The characters of argument `i`. -/
def text (args : List CString) (i : Nat) : List (BitVec 8) := (args.map CString.bytes).getD i []

/-- What the first `k` strings take. -/
def depth (args : List CString) : Nat → Nat
  | 0 => 0
  | k + 1 => depth args k + roundUp ((text args k).length + 1) 4

/-- What everything takes: strings, pointers, the vector's address and the count. -/
def stackBytes (args : List CString) : Nat := depth args args.length + 4 * (args.length + 2)

/-- Where string `i` starts. -/
def destOf (args : List CString) (i : Nat) : Nat := stackTop - depth args (i + 1)

/-- Where word `j` below the strings is. -/
def wordAt (args : List CString) (j : Nat) : Nat :=
  stackTop - depth args args.length - 4 * (j + 1)

variable {args : List CString}

theorem text_noNul (args : List CString) (i : Nat) : 0#8 ∉ text args i := by
  unfold text
  rw [List.getD_eq_getElem?_getD, List.getElem?_map]
  cases args[i]? with
  | none => exact List.not_mem_nil
  | some s => exact s.noNul

theorem depth_succ (args : List CString) (k : Nat) :
    depth args k + (text args k).length + 1 ≤ depth args (k + 1) ∧
      depth args (k + 1) ≤ depth args k + (text args k).length + 4 := by
  have hle := @le_roundUp ((text args k).length + 1) 4 (by decide)
  have hlt := roundUp_lt ((text args k).length + 1) (show 0 < 4 by decide)
  rw [depth]
  omega

theorem depth_mod (args : List CString) (k : Nat) : depth args k % 4 = 0 := by
  induction k with
  | zero => rfl
  | succ k ih =>
    have hmod := roundUp_mod ((text args k).length + 1) 4
    rw [depth]
    omega

theorem depth_mono {j k : Nat} (hjk : j ≤ k) : depth args j ≤ depth args k := by
  induction k with
  | zero => rw [Nat.le_zero.mp hjk]
  | succ k ih =>
    rcases hjk.lt_or_eq with hlt | rfl
    · have hstep := (depth_succ args k).1
      have hprev := ih (Nat.lt_succ_iff.mp hlt)
      omega
    · exact Nat.le_refl _

/-! ## Copies in the heap -/

/-- The copy of argument `i`. -/
def copyOf (args : List CString) (ptr : Nat → Nat) (i : Nat) : Live :=
  { ptr := ptr i, align := 4, size := (text args i).length + 1 }

/-- An array with a pointer for each argument. -/
def vectorAt (args : List CString) (p : Nat) : Live :=
  { ptr := p, align := 4, size := 4 * args.length }

/-- A word of an array is held. -/
theorem held_word (args : List CString) {live : List Live} {p i : Nat} (hmem : vectorAt args p ∈ live)
    (hi : i < args.length) : Held live (p + 4 * i) (p + 4 * i + 4) := by
  apply (held_object hmem).mono
  · exact Nat.le_add_right p (4 * i)
  · dsimp only [vectorAt]
    omega

/-- The arguments as the caller holds them. -/
structure Argv (m : Mem) (live : List Live) (argv : Nat) (args : List CString) : Prop where
  vector : Held live argv (argv + 4 * args.length)
  bound : argv + 4 * args.length ≤ 2 ^ 32
  strings : ∀ i, i < args.length → StrAt m (read32 m (argv + 4 * i)) (text args i) ∧
    Held live (read32 m (argv + 4 * i)) (read32 m (argv + 4 * i) + (text args i).length + 1) ∧
    read32 m (argv + 4 * i) + (text args i).length < 2 ^ 32

theorem Argv.congr {m m' : Mem} {live : List Live} {argv : Nat} (hargv : Argv m live argv args)
    (hm : ∀ lo hi, Held live lo hi → Agree m m' lo hi) : Argv m' live argv args := by
  refine ⟨hargv.vector, hargv.bound, fun i hi => ?_⟩
  have hword : read32 m' (argv + 4 * i) = read32 m (argv + 4 * i) :=
    read32_congr (hm _ _ (hargv.vector.mono (by omega) (by omega)))
  obtain ⟨hstr, hheld, hend⟩ := hargv.strings i hi
  rw [hword]
  exact ⟨hstr.congr (hm _ _ hheld), hheld, hend⟩

theorem strdup_spec {h : Heap.State} {live : List Live} {s : Nat} {bytes : List (BitVec 8)}
    (hclient : Client h live) (hstr : StrAt h.mem s bytes) (hheld : Held live s (s + bytes.length + 1))
    (hnul : 0#8 ∉ bytes) (hend : s + bytes.length < 2 ^ 32) (hsize : bytes.length + 1 ≤ heapSize) :
    strdup h s = .error .abort ∨
      ∃ r, strdup h s = .ok r ∧
        Client r.2 ({ ptr := r.1, align := 4, size := bytes.length + 1 } :: live) ∧
        StrAt r.2.mem r.1 bytes ∧ ∀ lo hi, Held live lo hi → Agree h.mem r.2.mem lo hi := by
  obtain ⟨blocks, hinv⟩ := hclient
  rcases strdup_filled hinv hstr hheld hnul hend hsize with
    ⟨-, habort⟩ | ⟨b, blocks', h', -, hrun, hfilled, hcopy⟩
  · exact .inl habort
  · exact .inr ⟨(b.data, h'), hrun, ⟨blocks', hfilled.invariant⟩, hcopy, hfilled.keeps⟩

/-- After `k` rounds of the loop that copies the arguments: the pointers are in the
array, and each names a copy. -/
structure Copied (args : List CString) (argv argvCopy : Nat) (live : List Live) (ptr : Nat → Nat)
    (k : Nat) (h : Heap.State) : Prop where
  client : Client h ((List.range k).map (copyOf args ptr) ++ vectorAt args argvCopy :: live)
  argv : Argv h.mem live argv args
  words : ∀ i, i < k → read32 h.mem (argvCopy + 4 * i) = ptr i
  strings : ∀ i, i < k → StrAt h.mem (ptr i) (text args i)

theorem copyArg_spec {argv argvCopy k : Nat} {live : List Live} {ptr : Nat → Nat} {h : Heap.State}
    (hk : k < args.length) (hsize : (text args k).length + 1 ≤ heapSize)
    (hc : Copied args argv argvCopy live ptr k h) :
    copyArg argvCopy argv h k = .error .abort ∨
      ∃ h', copyArg argvCopy argv h k = .ok h' ∧
        ∃ ptr', Copied args argv argvCopy live ptr' (k + 1) h' := by
  have hbound := hc.argv.bound
  obtain ⟨hstr, hheld, hend⟩ := hc.argv.strings k hk
  have hvector := hc.client.within (o := vectorAt args argvCopy) (by simp)
  dsimp only [vectorAt] at hvector
  have hlimit : heapLimit = 0xC2200000 := rfl
  have hsub : ∀ o ∈ live, o ∈ (List.range k).map (copyOf args ptr) ++ vectorAt args argvCopy :: live :=
    fun o ho => List.mem_append_right _ (List.mem_cons_of_mem _ ho)
  rw [copyArg, wrap_of_lt (by omega), wrap_of_lt (n := argvCopy + 4 * k) (by omega)]
  apply error_or_bind
  refine (strdup_spec hc.client hstr (hheld.subset hsub) (text_noNul args k) hend hsize).imp_right ?_
  rintro ⟨⟨copy, h₁⟩, hrun, hclient, hcopy, hkeep⟩
  dsimp only at hclient hcopy hkeep
  have hnew : ∀ i, i < k → Function.update ptr k copy i = ptr i :=
    fun i hi => Function.update_of_ne (Nat.ne_of_lt hi) _ _
  -- the array stands apart from everything else that is held
  have hfront : Client h₁ (vectorAt args argvCopy ::
      ((List.range (k + 1)).map (copyOf args (Function.update ptr k copy)) ++ live)) := by
    refine hclient.forget (List.Perm.subperm ?_)
    have hmap : (List.range (k + 1)).map (copyOf args (Function.update ptr k copy)) =
        (List.range k).map (copyOf args ptr) ++
          [{ ptr := copy, align := 4, size := (text args k).length + 1 }] := by
      rw [List.range_succ, List.map_append, List.map_singleton, copyOf, Function.update_self]
      congr 1
      refine List.map_congr_left fun i hi => ?_
      rw [copyOf, copyOf, hnew i (List.mem_range.mp hi)]
    rw [hmap, List.append_assoc]
    refine (List.perm_middle.symm).trans ?_
    exact (List.Perm.append_left _ (List.Perm.swap _ _ _)).trans List.perm_middle
  have hword : Held (vectorAt args argvCopy :: ((List.range (k + 1)).map
      (copyOf args (Function.update ptr k copy)) ++ live)) (argvCopy + 4 * k)
      (argvCopy + 4 * k + 4) := held_word args List.mem_cons_self hk
  have hrest : ∀ lo hi, Held ((List.range (k + 1)).map (copyOf args (Function.update ptr k copy)) ++
      live) lo hi → Agree h₁.mem (write32 h₁.mem (argvCopy + 4 * k) copy) lo hi := by
    intro lo hi hin
    have happart := hin.apart hfront
    dsimp only [vectorAt] at happart
    exact agree_write32 (by omega)
  refine ⟨_, hrun, .inr ⟨_, rfl, Function.update ptr k copy, ?_, ?_, ?_, ?_⟩⟩
  · exact (hfront.write32 hword).forget (List.Perm.subperm List.perm_middle)
  · refine (hc.argv.congr fun lo hi hin => hkeep lo hi (hin.subset hsub)).congr fun lo hi hin =>
      hrest lo hi (hin.subset fun o ho => List.mem_append_right _ ho)
  · apply forall_update_of_lt
      (P := fun i p => read32 (write32 h₁.mem (argvCopy + 4 * k) copy) (argvCopy + 4 * i) = p)
    · have hin := hclient.within List.mem_cons_self
      dsimp only at hin
      rw [read32_write32_self]
      exact Nat.mod_eq_of_lt (by omega)
    · intro i hi
      rw [read32_write32_of_disjoint (by omega), ← hc.words i hi]
      exact read32_congr (hkeep _ _ (held_word args (by simp) (by omega)))
  · have hcopies : ∀ i, i < k + 1 → StrAt h₁.mem (Function.update ptr k copy i) (text args i) := by
      apply forall_update_of_lt (P := fun i p => StrAt h₁.mem p (text args i)) hcopy
      intro i hi
      apply (hc.strings i hi).congr (hkeep _ _ (held_object (o := copyOf args ptr i) ?_))
      exact List.mem_append_left _ (List.mem_map_of_mem (List.mem_range.mpr hi))
    intro i hi
    have hmem : copyOf args (Function.update ptr k copy) i ∈
        (List.range (k + 1)).map (copyOf args (Function.update ptr k copy)) ++ live :=
      List.mem_append_left _ (List.mem_map_of_mem (List.mem_range.mpr hi))
    exact (hcopies i hi).congr (hrest _ _ (held_object hmem))

theorem copyLoop_spec {argv argvCopy : Nat} {live : List Live} {h : Heap.State}
    (hsize : ∀ i, i < args.length → (text args i).length + 1 ≤ heapSize)
    (hclient : Client h (vectorAt args argvCopy :: live)) (hargv : Argv h.mem live argv args) :
    (List.range args.length).foldlM (copyArg argvCopy argv) h = .error .abort ∨
      ∃ h', (List.range args.length).foldlM (copyArg argvCopy argv) h = .ok h' ∧
        ∃ ptr, Copied args argv argvCopy live ptr args.length h' := by
  have hinit : Copied args argv argvCopy live (fun _ => 0) 0 h :=
    ⟨hclient, hargv, fun i hi => absurd hi (Nat.not_lt_zero i),
      fun i hi => absurd hi (Nat.not_lt_zero i)⟩
  have hloop := @foldlM_range_induction Stop Heap.State (copyArg argvCopy argv) args.length
    (fun k h => ∃ ptr, Copied args argv argvCopy live ptr k h) (fun e => e = .abort) h
    ⟨_, hinit⟩ (by
      rintro k h hk ⟨ptr, hc⟩
      rcases copyArg_spec hk (hsize k hk) hc with habort | ⟨h', hrun, hc'⟩
      · rw [habort]
        rfl
      · rw [hrun]
        exact hc')
  cases hrun : (List.range args.length).foldlM (copyArg argvCopy argv) h with
  | error e =>
    rw [hrun] at hloop
    exact .inl (congrArg Except.error hloop)
  | ok h' =>
    rw [hrun] at hloop
    exact .inr ⟨h', rfl, hloop⟩

/-! ## Strings on the stack -/

/-- The strings and the words fit. -/
def Fits (args : List CString) : Prop := stackBytes args ≤ 0x1000 * procStackPages

instance (args : List CString) : Decidable (Fits args) :=
  inferInstanceAs (Decidable (stackBytes args ≤ 0x1000 * procStackPages))

theorem Fits.bound (hfits : Fits args) {k : Nat} (hk : k ≤ args.length) :
    depth args k + 4 * (args.length + 2) ≤ 0x4000 := by
  have hmono := @depth_mono args k args.length hk
  have hpages : 0x1000 * procStackPages = 0x4000 := rfl
  rw [Fits, stackBytes] at hfits
  omega

/-- After `k` rounds of the loop that pushes the strings: the other copies are still
there, and `k` strings stand on the stack with their addresses in the new array. -/
structure Pushed (args : List CString) (argvCopy argvNew : Nat) (ptr : Nat → Nat) (k : Nat)
    (st : State × Nat) : Prop where
  char : st.2 = stackTop - depth args k - 1
  client : Client st.1.heap ((List.range' k (args.length - k)).map (copyOf args ptr) ++
    [vectorAt args argvNew, vectorAt args argvCopy])
  copied : ∀ i, k ≤ i → i < args.length → read32 st.1.mem (argvCopy + 4 * i) = ptr i ∧
    StrAt st.1.mem (ptr i) (text args i)
  argv : ∀ i, i < k → read32 st.1.mem (argvNew + 4 * i) = destOf args i
  strings : ∀ i, i < k → StrAt st.1.mem (destOf args i) (text args i)
  stored : st.1.stored = (List.range k).flatMap fun i =>
    List.range' (destOf args i) ((text args i).length + 1)

/-- The arithmetic of one round: the address is brought to a word boundary and the
string's length further down. -/
theorem dest_eq (hfits : Fits args) {k : Nat} (hk : k < args.length) {char : Nat}
    (hchar : char = stackTop - depth args k - 1) :
    wsub (wsub char (wsub char (text args k).length % 4)) (text args k).length =
        stackTop - depth args (k + 1) ∧
      wsub (wsub char (wsub char (text args k).length % 4)) (wrap ((text args k).length + 1)) =
        stackTop - depth args (k + 1) - 1 := by
  have hbound := hfits.bound (k := k + 1) hk
  have hmod := depth_mod args k
  have htop : stackTop = 0xC0000000 := rfl
  have hstep := depth_succ args k
  have hslot := roundUp_mod ((text args k).length + 1) 4
  have hnext : depth args (k + 1) = depth args k + roundUp ((text args k).length + 1) 4 := rfl
  rw [wsub_of_le (a := char) (b := (text args k).length) (by omega) (by omega),
    wsub_of_le (a := char) (b := (char - (text args k).length) % 4) (by omega) (by omega),
    wrap_of_lt (by omega), wsub_of_le (by omega) (by omega), wsub_of_le (by omega) (by omega)]
  constructor
  · omega
  · omega

/-- One round: the string goes to the stack and its address to the new array, the copy
goes back to the heap, and everything else stays. -/
theorem pushArg_round (hfits : Fits args) {argvCopy argvNew k char : Nat} {ptr : Nat → Nat}
    {s : State} {others : List Live} (hk : k < args.length)
    (hchar : char = stackTop - depth args k - 1)
    (hclient : Client s.heap (vectorAt args argvNew :: copyOf args ptr k :: others))
    (hvector : vectorAt args argvCopy ∈ others) (hword : read32 s.mem (argvCopy + 4 * k) = ptr k)
    (hstr : StrAt s.mem (ptr k) (text args k)) :
    ∃ h, pushArg argvCopy argvNew (s, char) k = .ok ({ s with
        heap := h
        stored := s.stored ++ List.range' (destOf args k) ((text args k).length + 1) },
        destOf args k - 1) ∧
      Client h (vectorAt args argvNew :: others) ∧ StrAt h.mem (destOf args k) (text args k) ∧
      read32 h.mem (argvNew + 4 * k) = destOf args k ∧
      ∀ lo hi, Held (vectorAt args argvNew :: others) lo hi →
        hi ≤ destOf args k ∨ destOf args k + (text args k).length + 1 ≤ lo →
        hi ≤ argvNew + 4 * k ∨ argvNew + 4 * k + 4 ≤ lo → Agree s.mem h.mem lo hi := by
  have hbound := hfits.bound (k := k + 1) hk
  have hstep := depth_succ args k
  have htop : stackTop = 0xC0000000 := rfl
  have hbegin : heapBegin = 0xC0400000 := rfl
  have hlimit : heapLimit = 0xC2200000 := rfl
  have hdestOf : destOf args k = stackTop - depth args (k + 1) := rfl
  obtain ⟨hdest, hnext⟩ := dest_eq hfits hk hchar
  rw [← hdestOf] at hdest hnext
  have hcopy := hclient.within (List.mem_cons_of_mem _ List.mem_cons_self)
  have hnew := hclient.within List.mem_cons_self
  have hold := hclient.within (List.mem_cons_of_mem _ (List.mem_cons_of_mem _ hvector))
  dsimp only [copyOf, vectorAt] at hcopy hnew hold
  have hlen := strlen_eq hstr (text_noNul args k) (by omega)
  -- the string
  obtain ⟨m, hstrncpy, hcopied, hout⟩ := @strncpy_eq (text args k) s (destOf args k) (ptr k) hstr
    (text_noNul args k) (by omega) (by omega) (by omega)
  have hclient₁ : Client { s.heap with mem := m }
      (vectorAt args argvNew :: copyOf args ptr k :: others) := by
    refine hclient.store fun x => ?_
    by_cases hx : x < heapBegin
    · exact .inr (.inl hx)
    · exact .inl (hout x (by omega))
  -- its address
  have hclient₂ := hclient₁.write32 (v := destOf args k) (held_word args List.mem_cons_self hk)
  -- and the copy goes
  obtain ⟨hclient₃, hfree⟩ := hclient₂.free (List.mem_cons_of_mem _ List.mem_cons_self)
  refine ⟨kfree { s.heap with mem := write32 m (argvNew + 4 * k) (destOf args k) } (ptr k),
    ?_, ?_, ?_, ?_, ?_⟩
  · rw [pushArg]
    dsimp only
    rw [wrap_of_lt (by omega), hword, hlen, ok_bind, hdest, hnext, hstrncpy,
      wrap_of_lt (n := argvNew + 4 * k) (by omega)]
    rfl
  · rw [List.erase_cons_tail, List.erase_cons_head] at hclient₃
    · exact hclient₃
    · rw [beq_iff_eq]
      have hnodup := (List.nodup_cons.mp hclient.nodup).1
      exact fun he => hnodup (he ▸ List.mem_cons_self)
  · apply StrAt.congr _ (hfree _ _ (.inl (by omega)))
    exact hcopied.congr (agree_write32 (by omega))
  · apply (read32_congr (hfree _ _ (held_word args List.mem_cons_self hk))).trans
    dsimp only
    rw [read32_write32_self]
    exact Nat.mod_eq_of_lt (by omega)
  · intro lo hi hin hstack hslot x hlo hhi
    have hin' : Held (vectorAt args argvNew :: copyOf args ptr k :: others) lo hi :=
      hin.subset (List.cons_subset_cons _ (List.subset_cons_self _ _))
    calc _ = write32 m (argvNew + 4 * k) (destOf args k) x := hfree lo hi hin' x hlo hhi
      _ = m x := write32_outside (by omega)
      _ = s.mem x := hout x (by omega)

theorem pushArg_spec (hfits : Fits args) {argvCopy argvNew k : Nat} {ptr : Nat → Nat}
    {st : State × Nat} (hk : k < args.length) (hp : Pushed args argvCopy argvNew ptr k st) :
    ∃ st', pushArg argvCopy argvNew st k = .ok st' ∧
      Pushed args argvCopy argvNew ptr (k + 1) st' := by
  obtain ⟨s, char⟩ := st
  have hbound := hfits.bound (k := k + 1) hk
  have hstep := depth_succ args k
  have htop : stackTop = 0xC0000000 := rfl
  have hbegin : heapBegin = 0xC0400000 := rfl
  have hdest : destOf args k = stackTop - depth args (k + 1) := rfl
  obtain ⟨hword, hstr⟩ := hp.copied k (Nat.le_refl k) hk
  -- the new array stands apart from everything else that is held
  have hlist : (List.range' k (args.length - k)).map (copyOf args ptr) =
      copyOf args ptr k :: (List.range' (k + 1) (args.length - (k + 1))).map (copyOf args ptr) := by
    rw [show args.length - k = args.length - (k + 1) + 1 by omega, List.range'_succ]
    rfl
  generalize hrest : (List.range' (k + 1) (args.length - (k + 1))).map (copyOf args ptr) = rest
    at hlist
  have hclient := hp.client
  rw [hlist] at hclient
  have hfront : Client s.heap (vectorAt args argvNew :: copyOf args ptr k ::
      (rest ++ [vectorAt args argvCopy])) := by
    refine hclient.forget (List.Perm.subperm ?_)
    exact (@List.perm_middle _ _ (copyOf args ptr k :: rest) _).symm
  obtain ⟨h, hrun, hclient', hstring, haddress, hkeep⟩ := pushArg_round hfits hk hp.char hfront
    (by simp) hword hstr
  have hnew := hclient'.within List.mem_cons_self
  dsimp only [vectorAt] at hnew
  have hothers : ∀ lo hi, Held (rest ++ [vectorAt args argvCopy]) lo hi →
      hi ≤ destOf args k ∨ destOf args k + (text args k).length + 1 ≤ lo →
      Agree s.mem h.mem lo hi := by
    intro lo hi hin hstack
    have happart := hin.apart hclient'
    dsimp only [vectorAt] at happart
    exact hkeep lo hi (hin.subset (List.subset_cons_self _ _)) hstack (by omega)
  refine ⟨_, hrun, ⟨rfl, ?_, fun i hi hn => ⟨?_, ?_⟩, ?_, ?_, ?_⟩⟩
  · rw [hrest]
    exact hclient'.forget (List.Perm.subperm List.perm_middle)
  · have hold := hclient'.within (o := vectorAt args argvCopy) (by simp)
    dsimp only [vectorAt] at hold
    rw [← (hp.copied i (by omega) hn).1]
    exact read32_congr (hothers _ _ (held_word args (by simp) hn) (by omega))
  · have hmem : copyOf args ptr i ∈ rest := by
      rw [← hrest]
      exact List.mem_map_of_mem (List.mem_range'_1.mpr ⟨hi, by omega⟩)
    have hin := hclient.within (o := copyOf args ptr i) (by simp [hmem])
    dsimp only [copyOf] at hin
    apply (hp.copied i (by omega) hn).2.congr
    exact hothers _ _ (held_object (o := copyOf args ptr i) (by simp [hmem])) (by omega)
  · intro i hi
    rcases (by omega : i < k ∨ i = k) with hlt | rfl
    · rw [← hp.argv i hlt]
      apply read32_congr
      exact hkeep _ _ (held_word args List.mem_cons_self (by omega)) (by omega) (by omega)
    · exact haddress
  · intro i hi
    rcases (by omega : i < k ∨ i = k) with hlt | rfl
    · have hmono := @depth_mono args (i + 1) k hlt
      have hslot := depth_succ args i
      have hdest' : destOf args i = stackTop - depth args (i + 1) := rfl
      exact (hp.strings i hlt).congr (hkeep _ _ (.inl (by omega)) (by omega) (by omega))
    · exact hstring
  · show s.stored ++ _ = _
    have hprev := hp.stored
    dsimp only at hprev
    rw [hprev, List.range_succ, List.flatMap_append, List.flatMap_singleton]

theorem pushStrings_spec (hfits : Fits args) {argvCopy argvNew : Nat} {ptr : Nat → Nat}
    {st : State × Nat} (hp : Pushed args argvCopy argvNew ptr 0 st) :
    ∃ st', (List.range args.length).foldlM (pushArg argvCopy argvNew) st = .ok st' ∧
      Pushed args argvCopy argvNew ptr args.length st' := by
  have hloop := @foldlM_range_induction Stop (State × Nat) (pushArg argvCopy argvNew) args.length
    (Pushed args argvCopy argvNew ptr) (fun _ => False) st hp fun k t hk hpk => by
      obtain ⟨st', hrun, hp'⟩ := pushArg_spec hfits hk hpk
      rw [hrun]
      exact hp'
  cases hrun : (List.range args.length).foldlM (pushArg argvCopy argvNew) st with
  | error e =>
    rw [hrun] at hloop
    exact hloop.elim
  | ok st' =>
    rw [hrun] at hloop
    exact ⟨st', rfl, hloop⟩

/-! ## The words below -/

/-- The strings stand, and `j` words below them have been stored. -/
structure Pointed (args : List CString) (argvNew : Nat) (j : Nat) (st : State × Nat) : Prop where
  int : st.2 = wordAt args j
  argv : ∀ i, i < args.length → read32 st.1.mem (argvNew + 4 * i) = destOf args i
  strings : ∀ i, i < args.length → StrAt st.1.mem (destOf args i) (text args i)
  stored : st.1.stored = ((List.range args.length).flatMap fun i =>
      List.range' (destOf args i) ((text args i).length + 1)) ++
    (List.range j).flatMap fun i => List.range' (wordAt args i) 4

theorem wordAt_succ (args : List CString) (j : Nat) : wordAt args (j + 1) = wordAt args j - 4 := by
  unfold wordAt
  omega

/-- One more word: what is above it and what is in the heap stays. -/
theorem pushWord_spec (hfits : Fits args) {argvNew j v : Nat} {st : State × Nat}
    (hj : j < args.length + 2) (hnew : heapBegin ≤ argvNew) (hp : Pointed args argvNew j st) :
    Pointed args argvNew (j + 1) (pushWord st.1 st.2 v, wsub st.2 4) ∧
      read32 (pushWord st.1 st.2 v).mem (wordAt args j) = v % 2 ^ 32 ∧
      ∀ i, i < j → read32 (pushWord st.1 st.2 v).mem (wordAt args i) =
        read32 st.1.mem (wordAt args i) := by
  have hbound := hfits.bound (Nat.le_refl args.length)
  have htop : stackTop = 0xC0000000 := rfl
  have hbegin : heapBegin = 0xC0400000 := rfl
  have hword : ∀ i, wordAt args i = stackTop - depth args args.length - 4 * (i + 1) := fun _ => rfl
  have hj' := hword j
  have hmem : (pushWord st.1 st.2 v).mem = write32 st.1.mem (wordAt args j) v := by
    rw [← hp.int]
    rfl
  refine ⟨⟨?_, fun i hi => ?_, fun i hi => ?_, ?_⟩, ?_, fun i hi => ?_⟩
  · show wsub st.2 4 = _
    rw [hp.int, wordAt_succ, wsub_of_le (by omega) (by omega)]
  · show read32 (pushWord st.1 st.2 v).mem _ = _
    rw [hmem, read32_write32_of_disjoint (by omega)]
    exact hp.argv i hi
  · show StrAt (pushWord st.1 st.2 v).mem _ _
    have hmono := @depth_mono args (i + 1) args.length hi
    have hdest : destOf args i = stackTop - depth args (i + 1) := rfl
    rw [hmem]
    exact (hp.strings i hi).congr (agree_write32 (by omega))
  · show st.1.stored ++ List.range' st.2 4 = _
    rw [hp.stored, hp.int, List.range_succ, List.flatMap_append, List.flatMap_singleton,
      List.append_assoc]
  · rw [hmem, read32_write32_self]
  · have hi' := hword i
    rw [hmem, read32_write32_of_disjoint (by omega)]

/-- The pointers go down in the order of the arguments. -/
theorem pushPointers_spec (hfits : Fits args) {argvNew : Nat} {st : State × Nat}
    (hnew : heapBegin ≤ argvNew) (hend : argvNew + 4 * args.length ≤ heapLimit)
    (hp : Pointed args argvNew 0 st) :
    Pointed args argvNew args.length ((List.range args.length).foldl (pushPointer argvNew) st) ∧
      ∀ i, i < args.length →
        read32 ((List.range args.length).foldl (pushPointer argvNew) st).1.mem (wordAt args i) =
          destOf args i := by
  have hlimit : heapLimit = 0xC2200000 := rfl
  have htop : stackTop = 0xC0000000 := rfl
  refine foldl_range_induction (fun j (st : State × Nat) => Pointed args argvNew j st ∧
    ∀ i, i < j → read32 st.1.mem (wordAt args i) = destOf args i)
    ⟨hp, fun i hi => absurd hi (Nat.not_lt_zero i)⟩ ?_
  rintro j ⟨s, ustackInt⟩ hj ⟨hp, hpointers⟩
  have hvalue : read32 s.mem (wrap (argvNew + 4 * j)) = destOf args j := by
    rw [wrap_of_lt (by omega)]
    exact hp.argv j hj
  obtain ⟨hnext, hself, hkeep⟩ := @pushWord_spec args hfits argvNew j (destOf args j) _ (by omega)
    hnew hp
  have hround : pushPointer argvNew (s, ustackInt) j =
      (pushWord s ustackInt (destOf args j), wsub ustackInt 4) := by
    rw [pushPointer, hvalue]
  rw [hround]
  refine ⟨hnext, fun i hi => ?_⟩
  rcases (by omega : i < j ∨ i = j) with hlt | rfl
  · exact (hkeep i hlt).trans (hpointers i hlt)
  · refine hself.trans (Nat.mod_eq_of_lt ?_)
    rw [destOf]
    omega

/-! ## The whole stack -/

/-- The copies stand in the heap, with their pointers in the array. -/
structure Ready (args : List CString) (argvCopy : Nat) (ptr : Nat → Nat) (h : Heap.State) :
    Prop where
  client : Client h ((List.range args.length).map (copyOf args ptr) ++ [vectorAt args argvCopy])
  words : ∀ i, i < args.length → read32 h.mem (argvCopy + 4 * i) = ptr i
  strings : ∀ i, i < args.length → StrAt h.mem (ptr i) (text args i)

theorem Copied.ready {argv argvCopy : Nat} {live : List Live} {ptr : Nat → Nat} {h : Heap.State}
    (hc : Copied args argv argvCopy live ptr args.length h) : Ready args argvCopy ptr h := by
  refine ⟨hc.client.forget (List.Sublist.subperm ?_), hc.words, hc.strings⟩
  exact (List.Sublist.refl _).append ((List.nil_sublist live).cons_cons _)

/-- A further allocation leaves the copies alone. -/
theorem Ready.alloc {argvCopy align size : Nat} {ptr : Nat → Nat} {h : Heap.State}
    (hr : Ready args argvCopy ptr h) (ha : Aligns align) (hsize : size ≤ heapSize) :
    alignedAlloc h align size = .error .abort ∨
      ∃ p h', alignedAlloc h align size = .ok (p, h') ∧ Ready args argvCopy ptr h' ∧
        Client h' ({ ptr := p, align := align, size := size } ::
          ((List.range args.length).map (copyOf args ptr) ++ [vectorAt args argvCopy])) := by
  refine (hr.client.alloc ha hsize).imp_right ?_
  rintro ⟨p, h', hrun, hclient, hkeep⟩
  refine ⟨p, h', hrun, ⟨hclient.forget (List.sublist_cons_self _ _).subperm, fun i hi => ?_,
    fun i hi => ?_⟩, hclient⟩
  · rw [← hr.words i hi]
    exact read32_congr (hkeep _ _ (held_word args (by simp) hi))
  · refine (hr.strings i hi).congr (hkeep _ _ (held_object (o := copyOf args ptr i) ?_))
    exact List.mem_append_left _ (List.mem_map_of_mem (List.mem_range.mpr hi))

/-- What stands on the stack at the end, and what was stored there. -/
structure Layout (args : List CString) (b : Built) : Prop where
  int : b.ustackInt = wordAt args (args.length + 2)
  argv : ∀ i, i < args.length → read32 b.state.mem (b.argvNew + 4 * i) = destOf args i
  strings : ∀ i, i < args.length → StrAt b.state.mem (destOf args i) (text args i)
  pointers : ∀ i, i < args.length → read32 b.state.mem (wordAt args i) = destOf args i
  vector : read32 b.state.mem (wordAt args args.length) =
    if args.length ≠ 0 then wordAt args args.length + 4 else 0
  count : read32 b.state.mem (wordAt args (args.length + 1)) = args.length
  stored : b.state.stored = ((List.range args.length).flatMap fun i =>
      List.range' (destOf args i) ((text args i).length + 1)) ++
    (List.range (args.length + 2)).flatMap fun i => List.range' (wordAt args i) 4

theorem argRounds_eq {n : Nat} (hn : n < 2 ^ 31) : argRounds n = n := by
  rw [argRounds, toInt_of_lt hn]
  rfl

theorem pushArgs_spec (hfits : Fits args) {argvCopy : Nat} {ptr : Nat → Nat} {s : State}
    (hstored : s.stored = []) (hr : Ready args argvCopy ptr s.heap) :
    pushArgs s argvCopy args.length = .error .abort ∨
      ∃ b, pushArgs s argvCopy args.length = .ok b ∧ Layout args b := by
  have hbound := hfits.bound (Nat.le_refl args.length)
  have hheap : heapSize = 0x1E00000 := rfl
  have htop : stackTop = 0xC0000000 := rfl
  have hbegin : heapBegin = 0xC0400000 := rfl
  have hmod := depth_mod args args.length
  have hword : ∀ i, wordAt args i = stackTop - depth args args.length - 4 * (i + 1) := fun _ => rfl
  rw [pushArgs, argRounds_eq (by omega), wrap_of_lt (by omega)]
  apply error_or_bind
  refine (hr.alloc aligns_four (show 4 * args.length ≤ heapSize by omega)).imp_right ?_
  rintro ⟨argvNew, h, hkmalloc, hr', hclient⟩
  have hnew := hclient.within List.mem_cons_self
  dsimp only at hnew
  have hstart : Pushed args argvCopy argvNew ptr 0 ({ s with heap := h }, 0xC0000000 - 1) := by
    refine ⟨rfl, hclient.forget (List.Perm.subperm ?_), fun i _ hi => ⟨hr'.words i hi,
      hr'.strings i hi⟩, fun i hi => absurd hi (Nat.not_lt_zero i),
      fun i hi => absurd hi (Nat.not_lt_zero i), hstored⟩
    rw [Nat.sub_zero, ← List.range_eq_range']
    exact List.perm_middle
  obtain ⟨⟨s₁, ustackChar⟩, hstrings, hp⟩ := pushStrings_spec hfits hstart
  have hint : ustackChar &&& 0xFFFFFFFC = wordAt args 0 := by
    have hchar : ustackChar = stackTop - depth args args.length - 1 := hp.char
    have hmask := and_high_eq (n := ustackChar) (k := 2) (by omega) (by decide)
    rw [show (0xFFFFFFFC : Nat) = 2 ^ 32 - 2 ^ 2 by rfl, hmask, hword]
    omega
  have hwords : Pointed args argvNew 0 (s₁, ustackChar &&& 0xFFFFFFFC) :=
    ⟨hint, hp.argv, hp.strings, by rw [List.range_zero, List.flatMap_nil, List.append_nil]
                                   exact hp.stored⟩
  obtain ⟨hpointed, hpointers⟩ := pushPointers_spec hfits hnew.1 hnew.2.1 hwords
  refine ⟨(argvNew, h), hkmalloc, .inr ?_⟩
  dsimp only
  rw [hstrings, ok_bind]
  dsimp only
  generalize (List.range args.length).foldl (pushPointer argvNew)
    (s₁, ustackChar &&& 0xFFFFFFFC) = st at hpointed hpointers ⊢
  obtain ⟨s₂, ustackInt⟩ := st
  have hlast : ustackInt = wordAt args args.length := hpointed.int
  obtain ⟨hvector, hself, hkeep⟩ := @pushWord_spec args hfits argvNew args.length
    (if args.length ≠ 0 then wrap (ustackInt + 4) else 0) _ (by omega) hnew.1 hpointed
  obtain ⟨hcount, hself', hkeep'⟩ := @pushWord_spec args hfits argvNew (args.length + 1)
    args.length _ (by omega) hnew.1 hvector
  refine ⟨_, rfl, hcount.int, hcount.argv, hcount.strings, fun i hi => ?_, ?_, ?_,
    hcount.stored⟩
  · exact (hkeep' i (by omega)).trans ((hkeep i hi).trans (hpointers i hi))
  · refine (hkeep' args.length (Nat.lt_succ_self _)).trans (hself.trans ?_)
    rw [← hlast]
    split
    · rw [wrap_of_lt (by rw [hlast, hword]; omega)]
      exact Nat.mod_eq_of_lt (by rw [hlast, hword]; omega)
    · rfl
  · exact hself'.trans (Nat.mod_eq_of_lt (by omega))

theorem aligns_page : Aligns 0x1000 := ⟨by decide, by decide, by decide⟩

theorem ensureTempPage_spec {s : State} {live : List Live} {argv : Nat}
    (hclient : Client s.heap live) (hargv : Argv s.mem live argv args) :
    ensureTempPage s = .error .abort ∨
      ∃ s', ensureTempPage s = .ok s' ∧ Client s'.heap live ∧ Argv s'.mem live argv args ∧
        s'.stored = s.stored := by
  unfold ensureTempPage
  by_cases hpage : s.tempPage = 0
  · rw [if_pos hpage]
    apply error_or_bind
    refine (hclient.alloc aligns_page (show 0x1000 ≤ heapSize by decide)).imp_right ?_
    rintro ⟨p, h, hrun, hclient', hkeep⟩
    exact ⟨(p, h), hrun, .inr ⟨{ s with heap := h, tempPage := p }, rfl,
      hclient'.forget (List.sublist_cons_self _ _).subperm, hargv.congr hkeep, rfl⟩⟩
  · rw [if_neg hpage]
    exact .inr ⟨s, rfl, hclient, hargv, rfl⟩

/-- A run of `proc_run_code` whose arguments fit stops for want of memory in the heap,
or builds the stack. -/
theorem procRunCode_spec (hfits : Fits args) {s : State} {live : List Live} {argv : Nat}
    (hstored : s.stored = []) (hclient : Client s.heap live) (hargv : Argv s.mem live argv args) :
    procRunCode s argv args.length = .error .abort ∨
      ∃ b, procRunCode s argv args.length = .ok b ∧ Layout args b := by
  have hbound := hfits.bound (Nat.le_refl args.length)
  have hheap : heapSize = 0x1E00000 := rfl
  have hsize : ∀ i, i < args.length → (text args i).length + 1 ≤ heapSize := by
    intro i hi
    have hmono := @depth_mono args (i + 1) args.length hi
    have hslot := (depth_succ args i).1
    omega
  rw [procRunCode, argRounds_eq (by omega), wrap_of_lt (by omega)]
  apply error_or_bind
  refine (ensureTempPage_spec hclient hargv).imp_right ?_
  rintro ⟨s₁, hrun₁, hclient₁, hargv₁, hstored₁⟩
  refine ⟨s₁, hrun₁, error_or_bind ?_⟩
  -- the array for the copies
  refine (hclient₁.alloc aligns_four (show 4 * args.length ≤ heapSize by omega)).imp_right ?_
  rintro ⟨argvCopy, h₂, hrun₂, hclient₂, hkeep₂⟩
  refine ⟨(argvCopy, h₂), hrun₂, error_or_bind ?_⟩
  -- the copies
  refine (copyLoop_spec hsize hclient₂ (hargv₁.congr hkeep₂)).imp_right ?_
  rintro ⟨h₃, hrun₃, ptr, hc⟩
  refine ⟨h₃, hrun₃, error_or_bind ?_⟩
  -- the process and its kernel stack
  refine (hc.ready.alloc aligns_four (show processSize ≤ heapSize by decide)).imp_right ?_
  rintro ⟨process, h₄, hrun₄, hr₄, -⟩
  refine ⟨(process, h₄), hrun₄, error_or_bind ?_⟩
  refine (hr₄.alloc aligns_four
    (show 0x1000 * procKernelStackPages ≤ heapSize by decide)).imp_right ?_
  rintro ⟨kernelStack, h₅, hrun₅, hr₅, -⟩
  refine ⟨(kernelStack, h₅), hrun₅, ?_⟩
  exact pushArgs_spec (s := { s₁ with heap := h₅ }) hfits (hstored₁.trans hstored) hr₅

/-! ## What the process finds -/

/-- `arg_list.argv[i]`. -/
def argvOf (b : Built) (i : Nat) : Nat := read32 b.state.mem (b.argvNew + 4 * i)

/-- The pieces that were stored, as start and length: the strings, and from the top
down the pointers, the vector's address and the count, which end at `ustack_int`. -/
def piecesOf (args : List CString) (b : Built) : List (Nat × Nat) :=
  ((List.range args.length).map fun i => (argvOf b i, (text args i).length + 1)) ++
    (List.range (args.length + 2)).map fun j => (b.ustackInt + 4 * (args.length + 2 - j), 4)

/-- The strings are laid out intact. -/
structure Intact (args : List CString) (b : Built) : Prop where
  aligned : ∀ i, i < args.length → argvOf b i % 4 = 0
  strings : ∀ i, i < args.length → StrAt b.state.mem (argvOf b i) (text args i)
  stored : b.state.stored = (piecesOf args b).flatMap fun p => List.range' p.1 p.2
  apart : (piecesOf args b).Pairwise fun p q => p.1 + p.2 ≤ q.1 ∨ q.1 + q.2 ≤ p.1
  inside : ∀ a ∈ b.state.stored, stackBottom ≤ a ∧ a < stackTop

/-- The word that was pushed before the count: the address of the vector. -/
def vectorOf (b : Built) : Nat := read32 b.state.mem (b.ustackInt + 8)

/-- The last word that was pushed. -/
def countOf (b : Built) : Nat := read32 b.state.mem (b.ustackInt + 4)

/-- The vector names the strings in the order of the arguments. -/
structure InOrder (args : List CString) (b : Built) : Prop where
  vector : ∀ i, i < args.length → read32 b.state.mem (vectorOf b + 4 * i) = argvOf b i
  count : countOf b = args.length

theorem Layout.piecesOf_eq (hfits : Fits args) {b : Built} (hl : Layout args b) :
    piecesOf args b =
      ((List.range args.length).map fun i => (destOf args i, (text args i).length + 1)) ++
        (List.range (args.length + 2)).map fun j => (wordAt args j, 4) := by
  have hbound := hfits.bound (Nat.le_refl args.length)
  have htop : stackTop = 0xC0000000 := rfl
  unfold piecesOf
  congr 1
  · refine List.map_congr_left fun i hi => ?_
    rw [argvOf, hl.argv i (List.mem_range.mp hi)]
  · refine List.map_congr_left fun j hj => ?_
    have hlt := List.mem_range.mp hj
    rw [hl.int]
    unfold wordAt
    rw [Prod.mk.injEq]
    omega

/-- Each piece is below the one before. -/
theorem pieces_descend (hfits : Fits args) :
    (((List.range args.length).map fun i => (destOf args i, (text args i).length + 1)) ++
      (List.range (args.length + 2)).map fun j => (wordAt args j, 4)).Pairwise
        fun p q : Nat × Nat => q.1 + q.2 ≤ p.1 := by
  have hbound := hfits.bound (Nat.le_refl args.length)
  have htop : stackTop = 0xC0000000 := rfl
  rw [List.pairwise_append]
  refine ⟨?_, ?_, ?_⟩
  · rw [List.pairwise_map]
    refine List.pairwise_lt_range.imp_of_mem fun {i j} hi hj hij => ?_
    have hmono := @depth_mono args (i + 1) j hij
    have hslot := depth_succ args j
    have hlast := @depth_mono args (j + 1) args.length (List.mem_range.mp hj)
    unfold destOf
    omega
  · rw [List.pairwise_map]
    refine List.pairwise_lt_range.imp_of_mem fun {i j} hi hj hij => ?_
    have hlt := List.mem_range.mp hj
    unfold wordAt
    omega
  · intro p hp q hq
    obtain ⟨i, hi, rfl⟩ := List.mem_map.mp hp
    obtain ⟨j, hj, rfl⟩ := List.mem_map.mp hq
    have hmono := @depth_mono args (i + 1) args.length (List.mem_range.mp hi)
    have hlt := List.mem_range.mp hj
    show wordAt args j + 4 ≤ destOf args i
    unfold destOf wordAt
    omega

theorem Layout.intact (hfits : Fits args) {b : Built} (hl : Layout args b) : Intact args b := by
  have hbound := hfits.bound (Nat.le_refl args.length)
  have htop : stackTop = 0xC0000000 := rfl
  have hbottom : stackBottom = 0xBFFFC000 := rfl
  have hpieces := hl.piecesOf_eq hfits
  have hstored : b.state.stored = (piecesOf args b).flatMap fun p => List.range' p.1 p.2 := by
    rw [hl.stored, hpieces, List.flatMap_append, List.flatMap_map, List.flatMap_map]
  refine ⟨fun i hi => ?_, fun i hi => ?_, hstored, ?_, fun a ha => ?_⟩
  · have hmod := depth_mod args (i + 1)
    have hmono := @depth_mono args (i + 1) args.length hi
    rw [argvOf, hl.argv i hi, destOf]
    omega
  · rw [argvOf, hl.argv i hi]
    exact hl.strings i hi
  · rw [hpieces]
    exact (pieces_descend hfits).imp fun hle => .inr hle
  · rw [hl.stored, List.mem_append, List.mem_flatMap, List.mem_flatMap] at ha
    rcases ha with ⟨i, hi, ha⟩ | ⟨j, hj, ha⟩
    · have hmono := @depth_mono args (i + 1) args.length (List.mem_range.mp hi)
      have hslot := depth_succ args i
      rw [List.mem_range'_1, destOf] at ha
      omega
    · have hlt := List.mem_range.mp hj
      rw [List.mem_range'_1, wordAt] at ha
      omega

/-- **The arguments are laid out intact** on every stack that `proc_run_code` builds. -/
theorem procRunCode_intact (hfits : Fits args) {s : State} {live : List Live} {argv : Nat}
    (hstored : s.stored = []) (hclient : Client s.heap live) (hargv : Argv s.mem live argv args) :
    procRunCode s argv args.length = .error .abort ∨
      ∃ b, procRunCode s argv args.length = .ok b ∧ Intact args b :=
  (procRunCode_spec hfits hstored hclient hargv).imp_right fun ⟨b, hrun, hl⟩ =>
    ⟨b, hrun, hl.intact hfits⟩

/-- `"ls"`. -/
def listCommand : CString where
  bytes := [0x6C#8, 0x73#8]
  noNul := by decide

/-- `"-l"`. -/
def longFlag : CString where
  bytes := [0x2D#8, 0x6C#8]
  noNul := by decide

/-- The two strings and their vector, below the heap, which is not used yet. -/
def shellState : State where
  heap := {
    mem := write32 (write32 (write32 (write32 (fun _ => 0#8) 0x2000 0x736C) 0x2010 0x6C2D)
      0x1000 0x2000) 0x1004 0x2010
    bottom := 0
    top := 0
    usedMemory := 0 }
  tempPage := 0
  stored := []

theorem shellState_client : Client shellState.heap [] := ⟨[], invariant_start _⟩

/-- The two strings as arguments, and the first alone. -/
theorem shellState_argv : Argv shellState.mem [] 0x1000 [listCommand, longFlag] ∧
    Argv shellState.mem [] 0x1000 [listCommand] := by
  have hword : read32 shellState.mem (0x1000 + 4 * 0) = 0x2000 := by decide
  have hword' : read32 shellState.mem (0x1000 + 4 * 1) = 0x2010 := by decide
  have hstr : StrAt shellState.mem 0x2000 [0x6C#8, 0x73#8] := by
    unfold StrAt
    decide
  have hstr' : StrAt shellState.mem 0x2010 [0x2D#8, 0x6C#8] := by
    unfold StrAt
    decide
  refine ⟨⟨.inl (by decide), by decide, fun i hi => ?_⟩, ⟨.inl (by decide), by decide,
    fun i hi => ?_⟩⟩
  · match i, hi with
    | 0, _ =>
      rw [hword]
      exact ⟨hstr, .inl (by decide), by decide⟩
    | 1, _ =>
      rw [hword']
      exact ⟨hstr', .inl (by decide), by decide⟩
  · match i, hi with
    | 0, _ =>
      rw [hword]
      exact ⟨hstr, .inl (by decide), by decide⟩

theorem procRunCode_intact_ls :
    ∃ b, procRunCode shellState 0x1000 2 = .ok b ∧ Intact [listCommand, longFlag] b := by
  have hok : (procRunCode shellState 0x1000 2).isOk = true := by decide +kernel
  rcases procRunCode_intact (show Fits [listCommand, longFlag] by decide) rfl shellState_client
    shellState_argv.1 with habort | hbuilt
  · rw [show 2 = [listCommand, longFlag].length by rfl, habort] at hok
    cases hok
  · exact hbuilt

/-- The vector's words name the strings from the last to the first. -/
theorem Layout.vector_reversed (hfits : Fits args) {b : Built} (hl : Layout args b) {i : Nat}
    (hi : i < args.length) :
    read32 b.state.mem (vectorOf b + 4 * i) = argvOf b (args.length - 1 - i) := by
  have hbound := hfits.bound (Nat.le_refl args.length)
  have htop : stackTop = 0xC0000000 := rfl
  have hword : ∀ i, wordAt args i = stackTop - depth args args.length - 4 * (i + 1) := fun _ => rfl
  have hn := hword args.length
  have hlow := hword (args.length + 2)
  have hback := hword (args.length - 1 - i)
  have hvector : vectorOf b = wordAt args args.length + 4 := by
    rw [vectorOf, hl.int, show wordAt args (args.length + 2) + 8 = wordAt args args.length by omega,
      hl.vector, if_pos (by omega)]
  rw [hvector, show wordAt args args.length + 4 + 4 * i = wordAt args (args.length - 1 - i) by omega,
    hl.pointers _ (by omega), argvOf, hl.argv _ (by omega)]

/-- **The vector is in order** exactly if there is one argument. -/
theorem inOrder_iff (hfits : Fits args) (hpos : 0 < args.length) {s : State} {live : List Live}
    {argv : Nat} {b : Built} (hstored : s.stored = []) (hclient : Client s.heap live)
    (hargv : Argv s.mem live argv args) (hrun : procRunCode s argv args.length = .ok b) :
    InOrder args b ↔ args.length = 1 := by
  have hbound := hfits.bound (Nat.le_refl args.length)
  have htop : stackTop = 0xC0000000 := rfl
  have hl : Layout args b := by
    rcases procRunCode_spec hfits hstored hclient hargv with habort | ⟨b', hrun', hl⟩
    · cases habort.symm.trans hrun
    · obtain rfl := Except.ok.inj (hrun.symm.trans hrun')
      exact hl
  constructor
  · intro horder
    have hfirst := (horder.vector 0 hpos).symm.trans (hl.vector_reversed hfits hpos)
    rw [argvOf, argvOf, hl.argv 0 hpos, hl.argv _ (by omega), destOf, destOf] at hfirst
    -- two strings with one address are one string
    by_contra hmore
    have hmono := @depth_mono args 1 (args.length - 1) (by omega)
    have hslot := depth_succ args (args.length - 1)
    have hlast := @depth_mono args (args.length - 1 + 1) args.length (by omega)
    rw [Nat.zero_add, Nat.sub_zero] at hfirst
    omega
  · intro hone
    refine ⟨fun i hi => ?_, ?_⟩
    · rw [hl.vector_reversed hfits hi, show args.length - 1 - i = i by omega]
    · have hword : ∀ i, wordAt args i = stackTop - depth args args.length - 4 * (i + 1) :=
        fun _ => rfl
      have hn := hword (args.length + 1)
      have hlow := hword (args.length + 2)
      rw [countOf, hl.int, show wordAt args (args.length + 2) + 4 = wordAt args (args.length + 1) by
        omega]
      exact hl.count

theorem inOrder_ls :
    ∃ b, procRunCode shellState 0x1000 1 = .ok b ∧ InOrder [listCommand] b := by
  have hok : (procRunCode shellState 0x1000 1).isOk = true := by decide +kernel
  cases hrun : procRunCode shellState 0x1000 1 with
  | error e =>
    rw [hrun] at hok
    cases hok
  | ok b =>
    exact ⟨b, rfl, (inOrder_iff (show Fits [listCommand] by decide) (by decide) rfl
      shellState_client shellState_argv.2 hrun).mpr rfl⟩

/-- With `"ls"` and `"-l"` the first word of the vector names `"-l"`. -/
theorem not_inOrder_ls :
    ∃ b, procRunCode shellState 0x1000 2 = .ok b ∧
      StrAt b.state.mem (read32 b.state.mem (vectorOf b)) longFlag.bytes ∧
      ¬ InOrder [listCommand, longFlag] b := by
  have hok : (procRunCode shellState 0x1000 2).isOk = true := by decide +kernel
  have hfits : Fits [listCommand, longFlag] := by decide
  rcases procRunCode_spec hfits rfl shellState_client shellState_argv.1 with
    habort | ⟨b, hrun, hl⟩
  · rw [show 2 = [listCommand, longFlag].length by rfl, habort] at hok
    cases hok
  · have hfirst : read32 b.state.mem (vectorOf b + 4 * 0) = argvOf b 1 :=
      hl.vector_reversed hfits (by decide)
    have hdest : argvOf b 0 ≠ argvOf b 1 := by
      rw [argvOf, argvOf, hl.argv 0 (by decide), hl.argv 1 (by decide)]
      decide
    refine ⟨b, hrun, ?_, fun horder => ?_⟩
    · rw [Nat.mul_zero, Nat.add_zero] at hfirst
      rw [hfirst, argvOf, hl.argv 1 (by decide)]
      exact hl.strings 1 (by decide)
    · exact hdest ((horder.vector 0 (by decide)).symm.trans hfirst)

end UserStack
end Medusa
