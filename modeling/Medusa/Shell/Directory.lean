import Medusa.Libc.Conversions

/-!
# The directory of the shell

The `cd` branch of `launch_command_framebuffer`, on its two local arrays, which are not
initialised.  Going up starts its search where the garbage in `temp_directory` ends and
keeps one byte of that garbage where the slash was.
-/

namespace Medusa
namespace Shell
namespace Directory

open Machine Kernel Libc

/-! ## The code -/

abbrev Bytes := List (BitVec 8)

def slash : BitVec 8 := 0x2F#8

def directoryPathSize : Nat := 100

/-- Copies a string, terminator included, to `pos` and on. -/
def copyString (dst : Bytes) (pos : Nat) : Bytes → Except Stop Bytes
  | [] => .error .fault
  | c :: src => do
    let dst ← store dst pos c
    if c = 0#8 then return dst else copyString dst (pos + 1) src

def strcpy (dst src : Bytes) : Except Stop Bytes := copyString dst 0 src

def strcat (dest src : Bytes) : Except Stop Bytes := do copyString dest (← strlen dest) src

/-- The loop that looks for a slash below `n`. -/
def findSlash (directory : Bytes) : Nat → Except Stop (Option Nat)
  | 0 => .ok none
  | n + 1 => do
    if (← fetch directory n) = slash then return some n else findSlash directory n

/-- `i` after that loop, which starts at `len - 2`. -/
def loopEnd (len : Nat) : Option Nat → Int
  | some i => i
  | none => if len = 0 then -2 else -1

/-- `temp_directory[i + 1] = '\0'`. -/
def terminate (tempDirectory : Bytes) (i : Int) : Except Stop Bytes :=
  if i + 1 < 0 then .error .fault else store tempDirectory (i + 1).toNat 0#8

/-- `cd ..`. -/
def goUp (directory tempDirectory : Bytes) : Except Stop Bytes := do
  let len ← strlen tempDirectory
  let found ← findSlash directory (len - 1)
  let tempDirectory ← (List.range (found.getD 0)).foldlM
    (fun tempDirectory i => do store tempDirectory i (← fetch directory i)) tempDirectory
  let tempDirectory ← terminate tempDirectory (loopEnd len found)
  strcpy directory tempDirectory

/-- `strcmp(temp_directory, "\0") == 0` decides how the name is added. -/
def addName (tempDirectory temp : Bytes) : Except Stop Bytes :=
  if tempDirectory.head? = some 0#8 then strcpy tempDirectory temp else strcat tempDirectory temp

/-- `cd` with another name. -/
def goDown (directory temp tempDirectory : Bytes) (dir : CString) : Except Stop Bytes := do
  let tempDirectory ← strcpy tempDirectory directory
  let temp ← strcpy temp (dir.bytes ++ [0#8])
  let tempDirectory ← addName tempDirectory temp
  let tempDirectory ← strcat tempDirectory [slash, 0#8]
  strcpy directory tempDirectory

/-- `".."` -/
def dotDot : CString := ⟨[0x2E#8, 0x2E#8], by decide⟩

/-- The `cd` branch: `directory` afterwards, for what the two arrays held. -/
def cd (directory temp tempDirectory : Bytes) (dir : CString) : Except Stop Bytes :=
  if dir.bytes = dotDot.bytes then goUp directory tempDirectory
  else goDown directory temp tempDirectory dir

/-! ## Copies -/

variable {buf src s t : Bytes}

/-- A copy replaces what is behind the border of two parts. -/
theorem copyString_append (hsrc : Holds src s) {done rest : Bytes}
    (hroom : s.length < rest.length) :
    copyString (done ++ rest) done.length src =
      .ok (done ++ s ++ 0#8 :: rest.drop (s.length + 1)) := by
  obtain ⟨behind, rfl, hnul⟩ := hsrc
  induction s generalizing done rest with
  | nil =>
    obtain ⟨x, rest, rfl⟩ := List.exists_cons_of_length_pos hroom
    rw [List.nil_append, copyString, store_append_cons, ok_bind, if_pos rfl]
    simp
    rfl
  | cons c s ih =>
    obtain ⟨x, rest, rfl⟩ := List.exists_cons_of_length_pos (by omega : 0 < rest.length)
    have hc : c ≠ 0#8 := fun hzero => hnul (by rw [hzero]; exact List.mem_cons_self)
    have hrest : copyString (done ++ [c] ++ rest) (done ++ [c]).length (s ++ 0#8 :: behind) = _ :=
      ih (by simp only [List.length_cons] at hroom; omega)
        (fun hmem => hnul (List.mem_cons_of_mem c hmem))
    rw [List.cons_append, copyString, store_append_cons, ok_bind, if_neg hc]
    simpa using hrest

theorem strcpy_spec (buf : Bytes) (hsrc : Holds src s) (hroom : s.length < buf.length) :
    ∃ buf', strcpy buf src = .ok buf' ∧ Holds buf' s ∧ buf'.length = buf.length := by
  have hcopy : copyString ([] ++ buf) 0 src = _ := copyString_append hsrc hroom
  refine ⟨_, hcopy, ⟨buf.drop (s.length + 1), by simp, ?_⟩, ?_⟩
  · obtain ⟨behind, rfl, hnul⟩ := hsrc
    exact hnul
  · simp
    omega

theorem strcat_spec (hbuf : Holds buf t) (hsrc : Holds src s)
    (hroom : t.length + s.length < buf.length) :
    ∃ buf', strcat buf src = .ok buf' ∧ Holds buf' (t ++ s) ∧ buf'.length = buf.length := by
  have hlen := hbuf.strlen
  obtain ⟨rest, rfl, hnul⟩ := hbuf
  rw [List.length_append] at hroom
  have hcopy : copyString (t ++ 0#8 :: rest) t.length src = _ :=
    copyString_append hsrc (by omega)
  rw [strcat, hlen, ok_bind]
  refine ⟨_, hcopy, ⟨(0#8 :: rest).drop (s.length + 1), rfl, ?_⟩, ?_⟩
  · obtain ⟨behind, rfl, hnul'⟩ := hsrc
    rw [List.mem_append, not_or]
    exact ⟨hnul, hnul'⟩
  · simp
    simp at hroom
    omega

/-! ## Going down -/

theorem holds_bytes (str : CString) : Holds (str.bytes ++ [0#8]) str.bytes :=
  ⟨[], rfl, str.noNul⟩

theorem Holds.head_eq_zero_iff (h : Holds buf s) : buf.head? = some 0#8 ↔ s = [] := by
  obtain ⟨rest, rfl, hnul⟩ := h
  cases s with
  | nil => simp
  | cons c s =>
    have hc : c ≠ 0#8 := fun hzero => hnul (by rw [hzero]; exact List.mem_cons_self)
    simp [hc]

variable {directory temp tempDirectory : Bytes}

/-- The name and a slash are appended. -/
theorem goDown_spec (hdir : Holds directory s) (hlen : directory.length = directoryPathSize)
    (htemp : temp.length = directoryPathSize) (harray : tempDirectory.length = directoryPathSize)
    (d : CString) (hfits : s.length + d.bytes.length + 2 ≤ directoryPathSize) :
    ∃ directory', goDown directory temp tempDirectory d = .ok directory' ∧
      Holds directory' (s ++ d.bytes ++ [slash]) ∧ directory'.length = directoryPathSize := by
  obtain ⟨array, hfirst, hheld, hsize⟩ := strcpy_spec tempDirectory hdir (by omega)
  obtain ⟨name, hname, hnameHeld, -⟩ := strcpy_spec temp (holds_bytes d) (by omega)
  have hjoin : ∃ array', addName array name = .ok array' ∧ Holds array' (s ++ d.bytes) ∧
      array'.length = array.length := by
    rw [addName]
    by_cases hnil : s = []
    · subst hnil
      rw [if_pos ((Holds.head_eq_zero_iff hheld).mpr rfl)]
      exact strcpy_spec array hnameHeld (by rw [List.nil_append]; omega)
    · rw [if_neg fun h => hnil ((Holds.head_eq_zero_iff hheld).mp h)]
      exact strcat_spec hheld hnameHeld (by omega)
  obtain ⟨array', hjoined, hheld', hsize'⟩ := hjoin
  have hslash : Holds [slash, 0#8] [slash] := ⟨[], rfl, by decide⟩
  obtain ⟨array'', hended, hheld'', hsize''⟩ := strcat_spec hheld' hslash (by
    simp only [List.length_append, List.length_singleton]
    omega)
  obtain ⟨directory', hlast, hresult, hsame⟩ := strcpy_spec directory hheld'' (by
    simp only [List.length_append, List.length_singleton]
    omega)
  refine ⟨directory', ?_, hresult, by omega⟩
  rw [goDown, hfirst, ok_bind, hname, ok_bind, hjoined, ok_bind, hended, ok_bind, hlast]

/-! ## Going up -/

/-- The search finds the last slash below its start. -/
theorem findSlash_spec (directory : Bytes) {n : Nat} (hn : n ≤ directory.length) :
    (∃ p, findSlash directory n = .ok (some p) ∧ p < n ∧ directory[p]? = some slash ∧
        ∀ q, p < q → q < n → directory[q]? ≠ some slash) ∨
      (findSlash directory n = .ok none ∧ ∀ q, q < n → directory[q]? ≠ some slash) := by
  induction n with
  | zero => exact .inr ⟨rfl, fun q hq => absurd hq (Nat.not_lt_zero q)⟩
  | succ n ih =>
    have hbyte : directory[n]? = some directory[n] := List.getElem?_eq_getElem hn
    rw [findSlash, fetch_eq_ok hbyte, ok_bind]
    by_cases hslash : directory[n] = slash
    · refine .inl ⟨n, if_pos hslash, Nat.lt_succ_self n, by rw [hbyte, hslash], ?_⟩
      intro q hnq hq
      omega
    · have hhere : directory[n]? ≠ some slash := fun h => hslash (by
        rw [hbyte] at h
        exact Option.some.inj h)
      rw [if_neg hslash]
      rcases ih (by omega) with ⟨p, hrun, hp, hfound, hafter⟩ | ⟨hrun, hnone⟩
      · refine .inl ⟨p, hrun, by omega, hfound, fun q hpq hq => ?_⟩
        by_cases hqn : q = n
        · rw [hqn]
          exact hhere
        · exact hafter q hpq (by omega)
      · refine .inr ⟨hrun, fun q hq => ?_⟩
        by_cases hqn : q = n
        · rw [hqn]
          exact hhere
        · exact hnone q (by omega)

/-- The loop that copies a prefix. -/
theorem copyPrefix_eq {pos : Nat} (hdirectory : pos ≤ directory.length)
    (harray : pos ≤ tempDirectory.length) :
    (List.range pos).foldlM (fun tempDirectory i => do
      store tempDirectory i (← fetch directory i)) tempDirectory =
        (.ok (directory.take pos ++ tempDirectory.drop pos) : Except Stop Bytes) := by
  induction pos with
  | zero =>
    rw [List.take_zero, List.drop_zero, List.nil_append]
    rfl
  | succ pos ih =>
    have hbyte : directory[pos]? = some directory[pos] := List.getElem?_eq_getElem hdirectory
    have hdone : (directory.take pos).length = pos := List.length_take_of_le (by omega)
    have hstore := store_append_cons (directory.take pos) (tempDirectory.drop (pos + 1))
      directory[pos] tempDirectory[pos]
    rw [hdone, ← List.drop_eq_getElem_cons] at hstore
    rw [List.range_succ, List.foldlM_append, ih (by omega) (by omega), ok_bind, List.foldlM_cons,
      fetch_eq_ok hbyte, ok_bind, hstore, ok_bind, List.foldlM_nil,
      List.take_succ_eq_append_getElem hdirectory, List.append_assoc, List.singleton_append]
    rfl

/-- An empty garbage string makes the last write go below the array. -/
theorem goUp_empty (harray : Holds tempDirectory []) :
    goUp directory tempDirectory = .error .fault := by
  rw [goUp, harray.strlen]
  rfl

/-- No slash: the root. -/
theorem goUp_none {g : Bytes} (harray : Holds tempDirectory g) (hg : g ≠ [])
    (hfind : findSlash directory (g.length - 1) = .ok none) (hlen : 0 < directory.length) :
    ∃ directory', goUp directory tempDirectory = .ok directory' ∧ Holds directory' [] := by
  have hpos : g.length ≠ 0 := fun h => hg (List.length_eq_zero_iff.mp h)
  have hlen' := harray.length_lt
  have hcut : Holds (tempDirectory.set 0 0#8) [] := by
    obtain ⟨x, rest, rfl⟩ := List.exists_cons_of_length_pos (by omega : 0 < tempDirectory.length)
    exact ⟨rest, rfl, by simp⟩
  obtain ⟨directory', hcopy, hheld, -⟩ := strcpy_spec directory hcut hlen
  refine ⟨directory', ?_, hheld⟩
  have hend : terminate tempDirectory (loopEnd g.length none) = .ok (tempDirectory.set 0 0#8) := by
    rw [loopEnd, if_neg hpos, terminate, if_neg (by omega)]
    exact store_eq_ok (by omega) 0#8
  rw [goUp, harray.strlen, ok_bind, hfind, ok_bind, Option.getD_none, List.range_zero,
    List.foldlM_nil]
  show (terminate tempDirectory (loopEnd g.length none) >>= fun t => strcpy directory t) = _
  rw [hend, ok_bind, hcopy]

/-- A slash behind the string lies behind its terminator. -/
theorem Holds.lt_of_slash {p : Nat} (hdir : Holds directory s) (hp : ¬ p < s.length)
    (hslash : directory[p]? = some slash) : s.length < p := by
  obtain ⟨rest, rfl, -⟩ := hdir
  rcases Nat.lt_or_eq_of_le (Nat.not_lt.mp hp) with hlt | heq
  · exact hlt
  · rw [← heq] at hslash
    simp [slash] at hslash

/-- A slash at `p`: what is in front of it, and a byte of the garbage. -/
theorem goUp_some {g : Bytes} {p : Nat} (hdir : Holds directory s) (harray : Holds tempDirectory g)
    (hsize : g.length < directory.length)
    (hfind : findSlash directory (g.length - 1) = .ok (some p))
    (hp : p < g.length - 1) (hslash : directory[p]? = some slash) :
    ∃ directory', goUp directory tempDirectory = .ok directory' ∧
      Holds directory' (if p < s.length then s.take p ++ [g.getD p 0#8] else s) := by
  have hlen := harray.length_lt
  have hslen := hdir.length_lt
  have hbyte : tempDirectory[p] = g.getD p 0#8 := by
    obtain ⟨rest, rfl, -⟩ := harray
    rw [List.getElem_append_left (by omega), List.getD_eq_getElem _ _ (by omega)]
  have hne : g.getD p 0#8 ≠ 0#8 := by
    obtain ⟨rest, rfl, hnul⟩ := harray
    rw [List.getD_eq_getElem _ _ (by omega)]
    exact fun hzero => hnul (by rw [← hzero]; exact List.getElem_mem _)
  have hdone : (directory.take p).length = p := List.length_take_of_le (by omega)
  have hstore : store (directory.take p ++ tempDirectory.drop p) (p + 1) 0#8 =
      .ok (directory.take p ++ g.getD p 0#8 :: 0#8 :: tempDirectory.drop (p + 2)) := by
    have hborder := store_append_cons (directory.take p ++ [g.getD p 0#8])
      (tempDirectory.drop (p + 2)) 0#8 tempDirectory[p + 1]
    rw [List.length_append, hdone, List.length_singleton, ← List.drop_eq_getElem_cons,
      List.append_assoc, ← hbyte, List.singleton_append, ← List.drop_eq_getElem_cons,
      List.append_assoc] at hborder
    rw [hborder, hbyte]
    rfl
  -- what `temp_directory` holds at the end
  have hheld : Holds (directory.take p ++ g.getD p 0#8 :: 0#8 :: tempDirectory.drop (p + 2))
      (if p < s.length then s.take p ++ [g.getD p 0#8] else s) := by
    obtain ⟨rest, rfl, hnul⟩ := hdir
    by_cases hin : p < s.length
    · rw [if_pos hin, List.take_append_of_le_length (by omega)]
      refine ⟨tempDirectory.drop (p + 2), by simp, ?_⟩
      simp only [List.mem_append, List.mem_singleton, not_or]
      exact ⟨fun hmem => hnul (List.mem_of_mem_take hmem), Ne.symm hne⟩
    · have hbehind := Holds.lt_of_slash ⟨rest, rfl, hnul⟩ hin hslash
      rw [if_neg hin]
      obtain ⟨k, rfl⟩ := Nat.exists_eq_add_of_lt hbehind
      refine ⟨rest.take k ++ g.getD (s.length + k + 1) 0#8 :: 0#8 ::
        tempDirectory.drop (s.length + k + 1 + 2), ?_, hnul⟩
      rw [List.take_append, List.take_of_length_le (by omega),
        show s.length + k + 1 - s.length = k + 1 by omega, List.take_succ_cons]
      simp
  have hroom : (if p < s.length then s.take p ++ [g.getD p 0#8] else s).length <
      directory.length := by
    split
    · rw [List.length_append, List.length_take, List.length_singleton]
      omega
    · exact hslen
  obtain ⟨directory', hcopy, hresult, -⟩ := strcpy_spec directory hheld hroom
  refine ⟨directory', ?_, hresult⟩
  rw [goUp, harray.strlen, ok_bind, hfind, ok_bind, Option.getD_some,
    copyPrefix_eq (by omega) (by omega), ok_bind, loopEnd, terminate, if_neg (by omega),
    show ((p : Int) + 1).toNat = p + 1 by omega, hstore, ok_bind, hcopy]

/-! ## Down and up again -/

/-- The two local arrays of one command. -/
structure Locals where
  temp : Bytes
  tempDirectory : Bytes
  temp_length : temp.length = directoryPathSize
  tempDirectory_length : tempDirectory.length = directoryPathSize

/-- What `directory` can be after some `cd` commands. -/
inductive Reachable : Bytes → Prop
  | start : Reachable (List.replicate directoryPathSize 0#8)
  | cd {directory directory' : Bytes} {l : Locals} {dir : CString} (h : Reachable directory)
      (hrun : cd directory l.temp l.tempDirectory dir = .ok directory') : Reachable directory'

theorem copyString_ok {dst dst' : Bytes} {pos : Nat} (h : copyString dst pos src = .ok dst') :
    dst'.length = dst.length ∧ 0#8 ∈ dst' := by
  induction src generalizing dst pos with
  | nil => cases h
  | cons c src ih =>
    rw [copyString] at h
    obtain ⟨dst₁, hstore, hrest⟩ := bind_eq_ok h
    obtain ⟨hpos, rfl⟩ := store_inside hstore
    by_cases hc : c = 0#8
    · rw [if_pos hc] at hrest
      rw [← Except.ok.inj hrest, hc]
      exact ⟨List.length_set, List.mem_set hpos _⟩
    · rw [if_neg hc] at hrest
      obtain ⟨hlength, hmem⟩ := ih hrest
      exact ⟨by rw [hlength, List.length_set], hmem⟩

/-- Both ways end with a copy into `directory`. -/
theorem cd_ok {directory' : Bytes} {dir : CString}
    (h : cd directory temp tempDirectory dir = .ok directory') :
    ∃ array, strcpy directory array = .ok directory' := by
  rw [cd] at h
  split at h
  · obtain ⟨len, -, h⟩ := bind_eq_ok h
    obtain ⟨found, -, h⟩ := bind_eq_ok h
    obtain ⟨array, -, h⟩ := bind_eq_ok h
    obtain ⟨array', -, hcopy⟩ := bind_eq_ok h
    exact ⟨array', hcopy⟩
  · obtain ⟨array, -, h⟩ := bind_eq_ok h
    obtain ⟨name, -, h⟩ := bind_eq_ok h
    obtain ⟨array', -, h⟩ := bind_eq_ok h
    obtain ⟨array'', -, hcopy⟩ := bind_eq_ok h
    exact ⟨array'', hcopy⟩

theorem Reachable.length (h : Reachable directory) : directory.length = directoryPathSize := by
  induction h with
  | start => exact List.length_replicate
  | cd _ hrun ih =>
    obtain ⟨array, hcopy⟩ := cd_ok hrun
    rw [(copyString_ok hcopy).1, ih]

/-- `cd d` and then `cd ..`. -/
def downAndUp (directory : Bytes) (d : CString) (down up : Locals) : Except Stop Bytes := do
  let directory ← cd directory down.temp down.tempDirectory d
  cd directory up.temp up.tempDirectory dotDot

/-- `g` is the string that the array `temp_directory` of `cd ..` happened to hold.  From
the root it must end within the name that was added.  Elsewhere the directory has to
end with a slash, `g` to end within the name, and to have a slash in the same place. -/
def LuckyGarbage (s d g : Bytes) : Prop :=
  if s = [] then 1 ≤ g.length ∧ g.length ≤ d.length + 1
  else s.getLast? = some slash ∧ s.length + 1 ≤ g.length ∧ g.length ≤ s.length + d.length + 1 ∧
    g.getD (s.length - 1) 0#8 = slash

/-- The directory between the two commands. -/
theorem down_get {d : Bytes} {D : Bytes} (h : Holds D (s ++ d ++ [slash])) :
    (∀ q, q < s.length → D[q]? = s[q]?) ∧
      (∀ q, s.length ≤ q → q < s.length + d.length → D[q]? = d[q - s.length]?) ∧
      D[s.length + d.length]? = some slash := by
  obtain ⟨rest, rfl, -⟩ := h
  refine ⟨fun q hq => ?_, fun q hq hq' => ?_, ?_⟩
  · rw [List.append_assoc, List.append_assoc, List.getElem?_append_left hq]
  · rw [List.append_assoc, List.append_assoc, List.getElem?_append_right hq,
      List.getElem?_append_left (by omega)]
  · rw [List.append_assoc, List.getElem?_append_right (by rw [List.length_append])]
    simp

/-- No slash inside the name. -/
theorem down_no_slash {d : CString} (hname : slash ∉ d.bytes) {D : Bytes}
    (h : Holds D (s ++ d.bytes ++ [slash])) {q : Nat} (hq : s.length ≤ q)
    (hq' : q < s.length + d.bytes.length) : D[q]? ≠ some slash := by
  rw [(down_get h).2.1 q hq hq']
  exact fun hget => hname (List.mem_of_getElem? hget)

/-- A directory that ends with a slash has it in front of the name. -/
theorem down_slash {d : Bytes} {D : Bytes} (h : Holds D (s ++ d ++ [slash])) (hs : s ≠ [])
    (hlast : s.getLast? = some slash) : D[s.length - 1]? = some slash := by
  have hpos := List.length_pos_of_ne_nil hs
  rw [(down_get h).1 _ (by omega), ← List.getLast?_eq_getElem?, hlast]

/-- A run that returned restores `s` exactly when that is what it left. -/
theorem restores_iff_of_run {x : Except Stop Bytes} {D' t : Bytes} (hrun : x = .ok D')
    (hheld : Holds D' t) : (∃ D', x = .ok D' ∧ Holds D' s) ↔ t = s := by
  constructor
  · rintro ⟨D'', hrun', hheld'⟩
    rw [hrun] at hrun'
    rw [← Except.ok.inj hrun'] at hheld'
    exact Holds.unique hheld hheld'
  · rintro rfl
    exact ⟨D', hrun, hheld⟩

section Lucky

variable {d : CString} {D g : Bytes} {p : Nat} (h : Holds D (s ++ d.bytes ++ [slash]))
  (hslash : D[p]? = some slash)
  (hafter : ∀ q, p < q → q < g.length - 1 → D[q]? ≠ some slash)

include h hslash hafter

/-- What is cut at the slash that was found is `s` only with a byte of lucky garbage. -/
theorem lucky_of_cut (hp : p < (s ++ d.bytes ++ [slash]).length)
    (hcut : (s ++ d.bytes ++ [slash]).take p ++ [g.getD p 0#8] = s) (hpg : p < g.length - 1) :
    LuckyGarbage s d.bytes g := by
  obtain ⟨hfront, -, hend⟩ := down_get h
  have hlen : (s ++ d.bytes ++ [slash]).length = s.length + d.bytes.length + 1 := by
    rw [List.length_append, List.length_append, List.length_singleton]
  have hps := congrArg List.length hcut
  rw [List.length_append, List.length_take, List.length_singleton] at hps
  have hbyte : s[p]? = some (g.getD p 0#8) := by
    rw [← hcut, List.getElem?_append_right (by rw [List.length_take]; omega),
      List.length_take, show p - min p _ = 0 by omega]
    rfl
  have hslash' : s[p]? = some slash := by rw [← hfront p (by omega), hslash]
  have hgp : g.getD p 0#8 = slash := Option.some.inj (hbyte.symm.trans hslash')
  have hs : s ≠ [] := fun hnil => by
    rw [hnil, List.length_nil] at hps
    omega
  rw [LuckyGarbage, if_neg hs, show s.length - 1 = p by omega]
  refine ⟨?_, by omega, ?_, hgp⟩
  · rw [List.getLast?_eq_getElem?, show s.length - 1 = p by omega, hslash']
  · by_contra hlong
    exact hafter (s.length + d.bytes.length) (by omega) (by omega) hend

/-- With lucky garbage the slash that is found is the last byte of `s`. -/
theorem cut_of_lucky (hname : slash ∉ d.bytes) (hpg : p < g.length - 1)
    (hlucky : LuckyGarbage s d.bytes g) :
    p < (s ++ d.bytes ++ [slash]).length ∧
      (s ++ d.bytes ++ [slash]).take p ++ [g.getD p 0#8] = s := by
  rw [LuckyGarbage] at hlucky
  by_cases hs : s = []
  · rw [if_pos hs] at hlucky
    rw [hs] at h
    exact absurd hslash (down_no_slash hname h (Nat.zero_le p) (by rw [List.length_nil]; omega))
  · rw [if_neg hs] at hlucky
    obtain ⟨hlast, hlow, hhigh, hgarbage⟩ := hlucky
    have hpos := List.length_pos_of_ne_nil hs
    have hp' : p = s.length - 1 := by
      rcases Nat.lt_trichotomy p (s.length - 1) with hlt | heq | hgt
      · exact absurd (down_slash h hs hlast) (hafter _ hlt (by omega))
      · exact heq
      · exact absurd hslash (down_no_slash hname h (by omega) (by omega))
    constructor
    · rw [List.length_append, List.length_append]
      omega
    · rw [hp', hgarbage, List.append_assoc, List.take_append_of_le_length (by omega),
        ← List.dropLast_eq_take]
      exact List.dropLast_append_getLast? slash hlast

end Lucky

/-- Where no slash was found, `cd ..` goes to the root. -/
theorem root_iff_lucky {d : CString} {D g : Bytes} (h : Holds D (s ++ d.bytes ++ [slash]))
    (hpos : g.length ≠ 0) (hnone : ∀ q, q < g.length - 1 → D[q]? ≠ some slash) :
    [] = s ↔ LuckyGarbage s d.bytes g := by
  obtain ⟨-, -, hend⟩ := down_get h
  constructor
  · intro hs
    rw [LuckyGarbage, if_pos hs.symm]
    rw [← hs, List.length_nil] at hend
    refine ⟨by omega, ?_⟩
    by_contra hlong
    exact hnone (0 + d.bytes.length) (by omega) hend
  · intro hlucky
    by_contra hs
    rw [LuckyGarbage, if_neg (Ne.symm hs)] at hlucky
    have hslen := List.length_pos_of_ne_nil (Ne.symm hs)
    exact hnone (s.length - 1) (by omega) (down_slash h (Ne.symm hs) hlucky.1)

/-- **`cd ..` after `cd d`**, for a string `g` in the array of `cd ..`. -/
theorem up_restores_iff {d : CString} (hname : slash ∉ d.bytes) {D : Bytes}
    (h : Holds D (s ++ d.bytes ++ [slash])) {g : Bytes} (harray : Holds tempDirectory g)
    (hsize : g.length < D.length) :
    (∃ D', goUp D tempDirectory = .ok D' ∧ Holds D' s) ↔ LuckyGarbage s d.bytes g := by
  by_cases hg : g = []
  · subst hg
    rw [goUp_empty harray]
    constructor
    · rintro ⟨D', hrun, -⟩
      cases hrun
    · intro hlucky
      rw [LuckyGarbage, List.length_nil] at hlucky
      split at hlucky
      · omega
      · omega
  · have hpos : g.length ≠ 0 := fun hzero => hg (List.length_eq_zero_iff.mp hzero)
    rcases @findSlash_spec D (g.length - 1) (by omega) with
      ⟨p, hfind, hp, hslash, hafter⟩ | ⟨hfind, hnone⟩
    · -- the search stopped at `p`
      obtain ⟨D', hrun, hheld⟩ := goUp_some h harray hsize hfind hp hslash
      rw [restores_iff_of_run hrun hheld]
      constructor
      · intro heq
        by_cases hin : p < (s ++ d.bytes ++ [slash]).length
        · rw [if_pos hin] at heq
          exact lucky_of_cut h hslash hafter hin heq hp
        · rw [if_neg hin] at heq
          have hlen := congrArg List.length heq
          rw [List.length_append, List.length_append, List.length_singleton] at hlen
          omega
      · intro hlucky
        obtain ⟨hin, hcut⟩ := cut_of_lucky h hslash hafter hname hp hlucky
        rw [if_pos hin, hcut]
    · -- there was no slash to stop at
      obtain ⟨D', hrun, hheld⟩ := goUp_none harray hg hfind (by omega)
      rw [restores_iff_of_run hrun hheld]
      exact root_iff_lucky h hpos hnone

/-- A length that was found has a string before it. -/
theorem holds_of_strlen {n : Nat} (h : strlen buf = .ok n) : ∃ g, Holds buf g := by
  apply holds_of_mem
  induction buf generalizing n with
  | nil => cases h
  | cons c buf ih =>
    rw [strlen] at h
    by_cases hc : c = 0#8
    · rw [hc]
      exact List.mem_cons_self
    · rw [if_neg hc] at h
      obtain ⟨k, hk, -⟩ := bind_eq_ok h
      exact List.mem_cons_of_mem c (ih hk)

/-- **`cd ..` and `cd`.**  For every directory the shell can be in and every name that
fits, `cd ..` brings it back exactly when its uninitialised array holds a string, and a
lucky one. -/
theorem cd_undone_iff (hreach : Reachable directory) (hdir : Holds directory s) (d : CString)
    (hname : slash ∉ d.bytes) (hdots : d.bytes ≠ dotDot.bytes)
    (hfits : s.length + d.bytes.length + 2 ≤ directoryPathSize) (down up : Locals) :
    (∃ directory', downAndUp directory d down up = .ok directory' ∧ Holds directory' s) ↔
      ∃ g, Holds up.tempDirectory g ∧ LuckyGarbage s d.bytes g := by
  obtain ⟨D, hdown, hheld, hsize⟩ := goDown_spec hdir hreach.length down.temp_length
    down.tempDirectory_length d hfits
  have hrun : downAndUp directory d down up = goUp D up.tempDirectory := by
    rw [downAndUp, cd, if_neg hdots, hdown, ok_bind, cd, if_pos rfl]
  rw [hrun]
  constructor
  · rintro ⟨D', hup, hheld'⟩
    rw [goUp] at hup
    obtain ⟨len, hlen, -⟩ := bind_eq_ok hup
    obtain ⟨g, hg⟩ := holds_of_strlen hlen
    rw [← goUp] at hup
    refine ⟨g, hg, (up_restores_iff hname hheld hg ?_).mp ⟨D', hup, hheld'⟩⟩
    have hglen := hg.length_lt
    rw [up.tempDirectory_length] at hglen
    omega
  · rintro ⟨g, hg, hlucky⟩
    have hglen := hg.length_lt
    rw [up.tempDirectory_length] at hglen
    exact (up_restores_iff hname hheld hg (by omega)).mpr hlucky

/-- Both arrays begin with `n` bytes `x` and hold zeros behind. -/
def garbage (n : Nat) (hn : n ≤ directoryPathSize) : Locals where
  temp := List.replicate n 0x78#8 ++ List.replicate (directoryPathSize - n) 0#8
  tempDirectory := List.replicate n 0x78#8 ++ List.replicate (directoryPathSize - n) 0#8
  temp_length := by
    rw [List.length_append, List.length_replicate, List.length_replicate]
    omega
  tempDirectory_length := by
    rw [List.length_append, List.length_replicate, List.length_replicate]
    omega

/-- `"a"` -/
def nameA : CString := ⟨[0x61#8], by decide⟩

/-- One byte of garbage, and the root is found again. -/
theorem cd_undone_root :
    ∃ directory', downAndUp (List.replicate directoryPathSize 0#8) nameA
      (garbage 1 (by decide)) (garbage 1 (by decide)) = .ok directory' ∧ Holds directory' [] := by
  apply (cd_undone_iff .start (s := []) ⟨List.replicate 99 0#8, rfl, by simp⟩ nameA (by decide)
    (by decide) (by decide) (garbage 1 (by decide)) (garbage 1 (by decide))).mpr
  refine ⟨[0x78#8], ⟨List.replicate 98 0#8, rfl, by decide⟩, ?_⟩
  rw [LuckyGarbage, if_pos rfl]
  decide

/-- With three bytes of garbage `cd a` and `cd ..` end in `ax`. -/
theorem cd_not_undone :
    ∃ directory', downAndUp (List.replicate directoryPathSize 0#8) nameA
      (garbage 3 (by decide)) (garbage 3 (by decide)) = .ok directory' ∧
      Holds directory' [0x61#8, 0x78#8] ∧ ¬ Holds directory' [] := by
  refine ⟨0x61#8 :: 0x78#8 :: 0#8 :: List.replicate 97 0#8, ?_, ?_, ?_⟩
  · rfl
  · exact ⟨List.replicate 97 0#8, rfl, by decide⟩
  · intro h
    have hfirst := (Holds.head_eq_zero_iff h).mpr rfl
    exact absurd hfirst (by decide)

end Directory
end Shell
end Medusa
