import Medusa.Libc.CString

/-!
# Parsing paths

`parse_path` of `vfs.c` on bytes, with the scratch buffer as it is: 4096 bytes that
come from `kmalloc` with whatever was in them, and are cleared at every slash.  A
folder is only appended when a slash ends it, and nothing is appended at the first
slash, so the last component of a path is always lost and the first one of a
relative path is too.
-/

namespace Medusa
namespace Vfs
namespace Path

open Machine Libc Kernel

abbrev Bytes := List (BitVec 8)

def slash : BitVec 8 := 0x2F#8

def tempSize : Nat := 4096

/-- The buffer as `kmalloc` returns it. -/
structure Fresh where
  bytes : Bytes
  size : bytes.length = tempSize

structure Parse where
  tempPath : Bytes
  isFirstSlash : Bool
  folders : List Bytes

def strdup (s : Bytes) : Except Stop Bytes := do
  let len ← strlen s
  return s.take len

/-- One round of the loop of `parse_path`. -/
def parseRound (p : Parse) (c : BitVec 8) : Except Stop Parse :=
  if c = slash then
    if p.isFirstSlash then
      .ok { p with tempPath := List.replicate tempSize 0#8, isFirstSlash := false }
    else do
      let folder ← strdup p.tempPath
      return { p with tempPath := List.replicate tempSize 0#8, folders := p.folders ++ [folder] }
  else do
    let tempPath ← append p.tempPath c
    return { p with tempPath := tempPath }

def parsePath (fresh : Fresh) (path : Bytes) : Except Stop (List Bytes) := do
  let p ← path.foldlM parseRound
    { tempPath := fresh.bytes, isFirstSlash := true, folders := [] }
  return p.folders

/-! ## Joining -/

/-- A component of a path, as the scratch buffer can hold it. -/
structure Component where
  bytes : Bytes
  ne_nil : bytes ≠ []
  no_slash : slash ∉ bytes
  no_zero : 0#8 ∉ bytes
  length_lt : bytes.length < tempSize

def joinTail (cs : List Component) : Bytes := cs.flatMap fun c => slash :: c.bytes

/-- The components, joined with slashes. -/
def join : List Component → Bytes
  | [] => []
  | c :: cs => c.bytes ++ joinTail cs

def absolute (cs : List Component) : Bytes := slash :: join cs

/-! ## One component -/

section

variable {p : Parse} {s : Bytes} {c : BitVec 8}

theorem strdup_holds (h : Holds p.tempPath s) : strdup p.tempPath = .ok s := by
  have hlen := h.strlen
  obtain ⟨rest, hbuf, -⟩ := h
  rw [strdup, hlen, ok_bind, hbuf]
  simp [pure, Except.pure]

/-- The cleared buffer. -/
theorem holds_cleared : Holds (List.replicate tempSize 0#8) [] :=
  ⟨List.replicate (tempSize - 1) 0#8, rfl, by simp⟩

theorem parseRound_first (h : p.isFirstSlash = true) :
    parseRound p slash =
      .ok { p with tempPath := List.replicate tempSize 0#8, isFirstSlash := false } := by
  rw [parseRound, if_pos rfl, if_pos h]

theorem parseRound_slash (h : p.isFirstSlash = false) (hs : Holds p.tempPath s) :
    parseRound p slash =
      .ok { p with tempPath := List.replicate tempSize 0#8, folders := p.folders ++ [s] } := by
  rw [parseRound, if_pos rfl, h, if_neg (by decide), strdup_holds hs]
  rfl

/-- A character that is appended leaves the folders alone, whatever the buffer holds. -/
theorem parseRound_char {p' : Parse} (hc : c ≠ slash) (h : parseRound p c = .ok p') :
    p'.isFirstSlash = p.isFirstSlash ∧ p'.folders = p.folders := by
  rw [parseRound, if_neg hc] at h
  obtain ⟨tempPath, -, hnew⟩ := bind_eq_ok h
  obtain rfl := Except.ok.inj hnew
  exact ⟨rfl, rfl⟩

theorem foldlM_chars {cs : Bytes} {p' : Parse} (hcs : slash ∉ cs)
    (h : cs.foldlM parseRound p = .ok p') :
    p'.isFirstSlash = p.isFirstSlash ∧ p'.folders = p.folders := by
  induction cs generalizing p with
  | nil =>
    obtain rfl := Except.ok.inj h
    exact ⟨rfl, rfl⟩
  | cons c cs ih =>
    rw [List.foldlM_cons] at h
    obtain ⟨p₁, hround, hrest⟩ := bind_eq_ok h
    have hc : c ≠ slash := fun he => hcs (he ▸ List.mem_cons_self)
    obtain ⟨hflag, hfolders⟩ := parseRound_char hc hround
    obtain ⟨hflag', hfolders'⟩ := ih (fun hin => hcs (List.mem_cons_of_mem c hin)) hrest
    exact ⟨hflag'.trans hflag, hfolders'.trans hfolders⟩

/-- A component read onto a string with room for it. -/
theorem foldlM_component {cs : Bytes} (hslash : slash ∉ cs) (hzero : 0#8 ∉ cs)
    (hs : Holds p.tempPath s) (hroom : s.length + cs.length < p.tempPath.length) :
    ∃ tempPath, cs.foldlM parseRound p = .ok { p with tempPath := tempPath } ∧
      Holds tempPath (s ++ cs) ∧ tempPath.length = p.tempPath.length := by
  induction cs generalizing p s with
  | nil => exact ⟨p.tempPath, rfl, by rwa [List.append_nil], rfl⟩
  | cons c cs ih =>
    rw [List.length_cons] at hroom
    have hc : c ≠ slash := fun he => hslash (he ▸ List.mem_cons_self)
    have hc0 : c ≠ 0#8 := fun he => hzero (he ▸ List.mem_cons_self)
    obtain ⟨buf, happend, hbuf, hlen⟩ := append_spec hs hc0 (by omega)
    have hround : parseRound p c = .ok { p with tempPath := buf } := by
      rw [parseRound, if_neg hc, happend]
      rfl
    obtain ⟨tempPath, hrun, hholds, hlen'⟩ := @ih { p with tempPath := buf } (s ++ [c])
      (fun hin => hslash (List.mem_cons_of_mem c hin))
      (fun hin => hzero (List.mem_cons_of_mem c hin)) hbuf
      (by rw [List.length_append, List.length_singleton, hlen]; omega)
    refine ⟨tempPath, ?_, ?_, hlen'.trans hlen⟩
    · rw [List.foldlM_cons, hround]
      exact hrun
    · rwa [List.append_assoc, List.singleton_append] at hholds

end

/-! ## A path -/

/-- A slash empties the buffer, and the component behind it is read. -/
theorem foldlM_slash_component (c : Component) {p p₁ : Parse} (cs : List Component)
    (hround : parseRound p slash = .ok p₁) (htemp : p₁.tempPath = List.replicate tempSize 0#8) :
    ∃ tempPath, (joinTail (c :: cs)).foldlM parseRound p =
        (joinTail cs).foldlM parseRound { p₁ with tempPath := tempPath } ∧
      Holds tempPath c.bytes := by
  have hlen : p₁.tempPath.length = tempSize := by rw [htemp, List.length_replicate]
  have hlt := c.length_lt
  obtain ⟨tempPath, hrun, hholds, -⟩ := foldlM_component (p := p₁) (s := []) c.no_slash c.no_zero
    (htemp ▸ holds_cleared) (by rw [List.length_nil]; omega)
  refine ⟨tempPath, ?_, hholds⟩
  rw [joinTail, List.flatMap_cons, List.cons_append, List.foldlM_cons, hround, ok_bind,
    List.foldlM_append, hrun]
  rfl

/-- Behind a component that the buffer holds, every slash appends what is held. -/
theorem foldlM_joinTail (cs : List Component) {p : Parse} {s : Bytes}
    (hflag : p.isFirstSlash = false) (hs : Holds p.tempPath s) :
    ∃ p', (joinTail cs).foldlM parseRound p = .ok p' ∧
      p'.folders = p.folders ++ (s :: cs.map Component.bytes).dropLast := by
  induction cs generalizing p s with
  | nil => exact ⟨p, rfl, by simp⟩
  | cons c cs ih =>
    obtain ⟨tempPath, hrun, hholds⟩ :=
      foldlM_slash_component c cs (parseRound_slash hflag hs) rfl
    have hnext := @ih { p with tempPath := tempPath, folders := p.folders ++ [s] } c.bytes
      hflag hholds
    obtain ⟨p', hrest, hfolders⟩ := hnext
    refine ⟨p', hrun.trans hrest, ?_⟩
    rw [hfolders]
    simp

/-- From the first slash of a path on. -/
theorem foldlM_first (cs : List Component) {p : Parse} (hflag : p.isFirstSlash = true) :
    ∃ p', (joinTail cs).foldlM parseRound p = .ok p' ∧
      p'.folders = p.folders ++ (cs.map Component.bytes).dropLast := by
  cases cs with
  | nil => exact ⟨p, rfl, by simp⟩
  | cons c cs =>
    obtain ⟨tempPath, hrun, hholds⟩ := foldlM_slash_component c cs (parseRound_first hflag) rfl
    obtain ⟨p', hrest, hfolders⟩ := foldlM_joinTail cs (p := { p with
      tempPath := tempPath, isFirstSlash := false }) rfl hholds
    exact ⟨p', hrun.trans hrest, hfolders⟩

theorem absolute_cons (c : Component) (cs : List Component) :
    absolute (c :: cs) = joinTail (c :: cs) := by
  rw [absolute, join, joinTail, joinTail, List.flatMap_cons, List.cons_append]

/-- An absolute path gives all folders but the last. -/
theorem parsePath_absolute (fresh : Fresh) (cs : List Component) :
    parsePath fresh (absolute cs) = .ok (cs.map Component.bytes).dropLast := by
  cases cs with
  | nil => rfl
  | cons c cs =>
    obtain ⟨p', hrun, hfolders⟩ := foldlM_first (c :: cs) (p := { tempPath := fresh.bytes
                                                                  isFirstSlash := true
                                                                  folders := [] }) rfl
    rw [parsePath, absolute_cons, hrun, ok_bind, hfolders, List.nil_append]
    rfl

/-- A relative path that is read to its end gives neither the first nor the last. -/
theorem parsePath_join (fresh : Fresh) (cs : List Component) {folders : List Bytes}
    (h : parsePath fresh (join cs) = .ok folders) :
    folders = (cs.map Component.bytes).tail.dropLast := by
  obtain ⟨p, hrun, hfolders⟩ := bind_eq_ok h
  obtain rfl := Except.ok.inj hfolders
  cases cs with
  | nil =>
    obtain rfl := Except.ok.inj hrun
    rfl
  | cons c cs =>
    rw [join, List.foldlM_append] at hrun
    obtain ⟨p₁, hfirst, hrest⟩ := bind_eq_ok hrun
    obtain ⟨hflag, hnone⟩ := foldlM_chars c.no_slash hfirst
    obtain ⟨p', hrun', hfolders'⟩ := foldlM_first cs hflag
    obtain rfl := Except.ok.inj (hrest.symm.trans hrun')
    rw [hfolders', hnone]
    rfl

/-- **When parsing undoes joining.**  Only for the empty list of components, and
then for both spellings; otherwise an absolute path yields all components but the
last, and what a relative path yields is without the first and the last. -/
theorem parsePath_join_iff (fresh : Fresh) (cs : List Component) :
    (parsePath fresh (absolute cs) = .ok (cs.map Component.bytes) ↔ cs = []) ∧
      (parsePath fresh (join cs) = .ok (cs.map Component.bytes) ↔ cs = []) := by
  constructor
  · rw [parsePath_absolute]
    constructor
    · intro h
      have hlen := congrArg List.length (Except.ok.inj h)
      rw [List.length_dropLast, List.length_map] at hlen
      exact List.eq_nil_of_length_eq_zero (by omega)
    · intro h
      rw [h]
      rfl
  · constructor
    · intro h
      have hlen := congrArg List.length (parsePath_join fresh cs h)
      rw [List.length_dropLast, List.length_tail, List.length_map] at hlen
      exact List.eq_nil_of_length_eq_zero (by omega)
    · intro h
      rw [h]
      rfl

/-! ## The path of the source's comment -/

def letter (c : BitVec 8) (hslash : c ≠ slash) (hzero : c ≠ 0#8) : Component where
  bytes := [c]
  ne_nil := by simp
  no_slash := by simpa using hslash.symm
  no_zero := by simpa using hzero.symm
  length_lt := Nat.lt_of_lt_of_le Nat.one_lt_two (by decide)

/-- `a`, `b` and `c`. -/
def abc : List Component :=
  [letter 0x61#8 (by decide) (by decide), letter 0x62#8 (by decide) (by decide),
    letter 0x63#8 (by decide) (by decide)]

/-- The path `/a/b/c` becomes `a` and `b`, and `a/b/c` never becomes all three. -/
theorem parsePath_abc :
    absolute abc = [0x2F#8, 0x61#8, 0x2F#8, 0x62#8, 0x2F#8, 0x63#8] ∧
      (∀ fresh, parsePath fresh (absolute abc) = .ok [[0x61#8], [0x62#8]]) ∧
      ¬ ∀ fresh, parsePath fresh (absolute abc) = .ok (abc.map Component.bytes) ∧
        parsePath fresh (join abc) = .ok (abc.map Component.bytes) := by
  have habs : ∀ fresh, parsePath fresh (absolute abc) = .ok [[0x61#8], [0x62#8]] :=
    fun fresh => parsePath_absolute fresh abc
  refine ⟨rfl, habs, fun h => ?_⟩
  have hall := (h ⟨List.replicate tempSize 0#8, List.length_replicate⟩).1
  rw [habs] at hall
  simp [abc, letter] at hall

end Path
end Vfs
end Medusa
