import Medusa.Initrd.Scan

/-!
# Ustar archives

What a ramdisk is meant to hold: the bytes of a ustar archive as a function of the
list of its files.  The header fields that `initrd.c` does not read are arbitrary.
Scanning an archive collects the headers of its files, and reading a file copies
its content.
-/

namespace Medusa
namespace Initrd

open Machine

/-! ## The format -/

structure File where
  name : List (BitVec 8)
  typeflag : BitVec 8
  content : List (BitVec 8)
  /-- The bytes of the other header fields, by offset. -/
  other : Nat → BitVec 8
  name_pos : 1 ≤ name.length
  name_le : name.length ≤ 99
  name_ne_zero : ∀ b ∈ name, b ≠ 0
  /-- A plain file or a directory. -/
  typeflag_valid : typeflag = 0x30 ∨ typeflag = 0x35

namespace File

/-- Digit `j` of the eleven octal digits of the length, as a character. -/
def sizeDigit (f : File) (j : Nat) : BitVec 8 :=
  BitVec.ofNat 8 (48 + f.content.length / 8 ^ (10 - j) % 8)

def headerByte (f : File) (i : Nat) : BitVec 8 :=
  if i < 100 then f.name.getD i 0
  else if 124 ≤ i ∧ i < 135 then f.sizeDigit (i - 124)
  else if i = 135 then 0
  else if i = 156 then f.typeflag
  else f.other i

/-- The header and the content, with zeros up to the end of the last block. -/
def length (f : File) : Nat := 512 + (f.content.length + 511) / 512 * 512

def byte (f : File) (i : Nat) : BitVec 8 :=
  if i < 512 then f.headerByte i else f.content.getD (i - 512) 0

end File

/-- The files one after the other, then a block of zeros. -/
def archiveByte : List File → Nat → BitVec 8
  | [], _ => 0
  | f :: fs, i => if i < f.length then f.byte i else archiveByte fs (i - f.length)

def archiveLength : List File → Nat
  | [] => 512
  | f :: fs => f.length + archiveLength fs

/-- The archive of `files` lies at `start`. -/
def Holds (m : Mem) (start : Nat) (files : List File) : Prop :=
  ∀ i, i < archiveLength files → m (start + i) = archiveByte files i

/-- Where the header of file `i` lies. -/
def headerAt (start : Nat) (files : List File) (i : Nat) : Nat :=
  start + ((files.take i).map File.length).sum

theorem headerAt_succ (start : Nat) (f : File) (files : List File) (i : Nat) :
    headerAt start (f :: files) (i + 1) = headerAt (start + f.length) files i := by
  rw [headerAt, headerAt, List.take_succ_cons, List.map_cons, List.sum_cons, Nat.add_assoc]

/-- A file of the archive at its place. -/
structure FileAt (m : Mem) (address : Nat) (f : File) : Prop where
  below : address + f.length ≤ 2 ^ 32
  bytes : ∀ i, i < f.length → m (address + i) = f.byte i

section

variable {m : Mem} {start : Nat} {f : File} {files : List File}

theorem Holds.head (h : Holds m start (f :: files))
    (hend : start + archiveLength (f :: files) ≤ 2 ^ 32) : FileAt m start f := by
  rw [archiveLength] at hend
  refine ⟨by omega, fun i hi => ?_⟩
  have hbyte := h i (by rw [archiveLength]; omega)
  rwa [archiveByte, if_pos hi] at hbyte

theorem Holds.tail (h : Holds m start (f :: files)) : Holds m (start + f.length) files := by
  intro i hi
  have hbyte := h (f.length + i) (by rw [archiveLength]; omega)
  rwa [archiveByte, if_neg (by omega), Nat.add_sub_cancel_left, ← Nat.add_assoc] at hbyte

theorem Holds.nil (h : Holds m start []) : m start = 0 :=
  h 0 (by decide)

end

/-! ## One header -/

section

variable {m : Mem} {address : Nat} {f : File}

theorem FileAt.name_ne (h : FileAt m address f) : m address ≠ 0 := by
  have hpos := f.name_pos
  have hbyte := h.bytes 0 (by unfold File.length; omega)
  rw [Nat.add_zero, File.byte, if_pos (by decide), File.headerByte, if_pos (by decide),
    List.getD_eq_getElem _ _ hpos] at hbyte
  rw [hbyte]
  exact f.name_ne_zero _ (List.getElem_mem hpos)

theorem charDigit_octal {d : Nat} (hd : d < 8) : charDigit (BitVec.ofNat 8 (48 + d)) = d := by
  have hall : ∀ d : Fin 8, charDigit (BitVec.ofNat 8 (48 + d.val)) = d.val := by decide
  exact hall ⟨d, hd⟩

theorem FileAt.digit (h : FileAt m address f) {k : Nat} (hk : k < 11) :
    charDigit (m (wrap (wrap (address + sizeOffset) + (10 - k)))) =
      f.content.length / 8 ^ k % 8 := by
  have hlen : 512 ≤ f.length := by unfold File.length; omega
  have hbelow := h.below
  have haddr : wrap (wrap (address + sizeOffset) + (10 - k)) = address + (124 + (10 - k)) := by
    unfold sizeOffset wrap
    omega
  rw [haddr, h.bytes _ (by omega), File.byte, if_pos (by omega), File.headerByte,
    if_neg (by omega), if_pos (by omega), Nat.add_sub_cancel_left, File.sizeDigit,
    charDigit_octal (Nat.mod_lt _ (by decide)), show 10 - (10 - k) = k by omega]

/-- Eleven rounds put the octal digits together again. -/
theorem FileAt.getsize (h : FileAt m address f) :
    getsize m (wrap (address + sizeOffset)) = f.content.length := by
  have hsmall : f.content.length < 2 ^ 32 := by
    have hbelow := h.below
    unfold File.length at hbelow
    omega
  have hinv := foldl_range_induction (n := 11) (s := (0, 1))
    (f := sizeRound m (wrap (address + sizeOffset)))
    (fun k s => s.1 = wrap (f.content.length % 8 ^ k) ∧ s.2 = wrap (8 ^ k))
    ⟨by rw [pow_zero, Nat.mod_one]; rfl, rfl⟩
    (by
      rintro k ⟨size, count⟩ hk ⟨hsize, hcount⟩
      dsimp only at hsize hcount
      unfold sizeRound
      dsimp only
      rw [h.digit hk, hsize, hcount]
      constructor
      · rw [Nat.mod_pow_succ, wrap_add_wrap]
        unfold wrap
        rw [Nat.add_mod, Nat.mul_mod_mod, Nat.mul_comm, ← Nat.add_mod]
      · unfold wrap
        rw [Nat.mod_mul_mod, ← pow_succ])
  unfold Initrd.getsize
  rw [hinv.1, Nat.mod_eq_of_lt (Nat.lt_trans hsmall (by decide)), wrap_of_lt hsmall]

/-- The stride of the walk is the header and the padded content. -/
theorem FileAt.walk (h : FileAt m address f) (hnext : address + f.length < 2 ^ 32) :
    walk m address = some (address + f.length) := by
  have hsmall : advance address f.content.length = address + f.length := by
    unfold advance wrap File.length
    unfold File.length at hnext
    dsimp only
    split <;> omega
  rw [Initrd.walk, if_neg h.name_ne, h.getsize, hsmall]

/-- Reading the whole file copies its content, unless the buffer starts inside it. -/
theorem FileAt.read (h : FileAt m address f) {list : HeaderList} {inode buffer : Nat}
    (hheader : list.headers inode = address)
    (hapart : buffer ≤ address + blockSize ∨ address + blockSize + f.content.length ≤ buffer)
    (hbuffer : buffer + f.content.length < 2 ^ 32) :
    (initrdRead m list inode 0 f.content.length buffer).2 = f.content.length ∧
      ∀ j (hj : j < f.content.length),
        (initrdRead m list inode 0 f.content.length buffer).1 (buffer + j) = f.content[j] := by
  refine ⟨rfl, fun j hj => ?_⟩
  have hbelow := h.below
  have hlen : 512 + f.content.length ≤ f.length := by unfold File.length; omega
  have hsource : wrap (list.headers inode + blockSize + 0) = address + 512 := by
    rw [hheader, Nat.add_zero]
    exact wrap_of_lt (by unfold blockSize; omega)
  unfold blockSize at hapart
  rw [initrdRead]
  dsimp only
  rw [hsource, wrap_of_lt hbuffer, Function.update_of_ne (by omega),
    Libc.memcpy_apply hapart hj, Nat.add_assoc, h.bytes _ (by omega), File.byte,
    if_neg (by omega), Nat.add_sub_cancel_left, List.getD_eq_getElem _ _ hj]

end

/-! ## The whole archive -/

section

variable {m : Mem} {start : Nat} {files : List File}

theorem archiveLength_ge (files : List File) : 512 * (files.length + 1) ≤ archiveLength files := by
  induction files with
  | nil => exact Nat.le_refl 512
  | cons f files ih =>
    rw [archiveLength, List.length_cons]
    unfold File.length
    omega

theorem Holds.fileAt (h : Holds m start files) (hend : start + archiveLength files ≤ 2 ^ 32)
    {i : Nat} (hi : i < files.length) : FileAt m (headerAt start files i) files[i] := by
  induction files generalizing start i with
  | nil => exact absurd hi (Nat.not_lt_zero i)
  | cons f files ih =>
    cases i with
    | zero => exact h.head hend
    | succ i =>
      rw [headerAt_succ]
      rw [archiveLength] at hend
      exact ih h.tail (by omega) (Nat.lt_of_succ_lt_succ hi)

theorem Holds.stop (h : Holds m start files) : m (headerAt start files files.length) = 0 := by
  induction files generalizing start with
  | nil => exact h.nil
  | cons f files ih =>
    rw [List.length_cons, headerAt_succ]
    exact ih h.tail

/-- The walk goes through the headers of the files. -/
theorem Holds.rounds (h : Holds m start files) (hend : start + archiveLength files ≤ 2 ^ 32)
    {i : Nat} (hi : i ≤ files.length) :
    rounds (walk m) i start = some (headerAt start files i) := by
  induction files generalizing start i with
  | nil =>
    obtain rfl := Nat.le_zero.mp hi
    rfl
  | cons f files ih =>
    cases i with
    | zero => rfl
    | succ i =>
      have hfile := h.head hend
      rw [archiveLength] at hend
      have hge := archiveLength_ge files
      rw [rounds_succ_of_step (hfile.walk (by omega)), headerAt_succ]
      exact ih h.tail (by omega) (Nat.le_of_succ_le_succ hi)

theorem Holds.generate {krealloc : HeaderList → Nat → Nat → Nat}
    (h : Holds m start files) (hend : start + archiveLength files ≤ 2 ^ 32)
    (hkeep : KeepsStored krealloc) (fresh : Nat → Nat) {fuel : Nat} (hfuel : files.length < fuel) :
    ∃ list, generateListFilesInitrd krealloc fresh m fuel start = some list ∧
      list.used = files.length ∧ list.used ≤ list.size ∧
      ∀ i, i < files.length → list.headers i = headerAt start files i := by
  have hge := archiveLength_ge files
  have hwalk := h.rounds hend (Nat.le_refl files.length)
  rw [← generate_rounds_walk krealloc fresh] at hwalk
  obtain ⟨s, hs, haddr⟩ := Option.map_eq_some_iff.mp hwalk
  have hstop : generateRound krealloc m s = none := by
    rw [← Option.map_eq_none_iff, generateRound_walk, walk_eq_none_iff, haddr, h.stop]
  have hcollected := generate_collects hkeep (by omega) hs
  refine ⟨s.list, ?_, hcollected.used_eq, hcollected.used_le, fun i hi => ?_⟩
  · rw [generateListFilesInitrd, runLoop_eq_some_iff.mpr ⟨_, hfuel, hs, hstop⟩, Option.map_some]
  · have hstored := hcollected.stored i hi
    rw [h.rounds hend (Nat.le_of_lt hi)] at hstored
    exact (Option.some.inj hstored).symm

theorem Holds.number (h : Holds m start files) (hend : start + archiveLength files ≤ 2 ^ 32)
    {fuel : Nat} (hfuel : files.length < fuel) :
    initrdGetNumberFiles m fuel start = some files.length := by
  have hge := archiveLength_ge files
  have hwalk := h.rounds hend (Nat.le_refl files.length)
  rw [← number_rounds_walk] at hwalk
  obtain ⟨s, hs, haddr⟩ := Option.map_eq_some_iff.mp hwalk
  have hstop : numberRound m s = none := by
    rw [← Option.map_eq_none_iff, numberRound_walk, walk_eq_none_iff, haddr, h.stop]
  rw [initrdGetNumberFiles, runLoop_eq_some_iff.mpr ⟨_, hfuel, hs, hstop⟩, Option.map_some,
    number_counts (by omega) hs]

end

/-- **Scanning undoes archiving.**  With enough fuel both loops return: the list is
that of the files' headers in order and the count is theirs.  The size field of each
header reads as the length of the content, and reading that much copies it. -/
theorem archive_round_trip (m : Mem) (start : Nat) (files : List File)
    (h : Holds m start files) (hend : start + archiveLength files ≤ 2 ^ 32)
    (krealloc : HeaderList → Nat → Nat → Nat) (hkeep : KeepsStored krealloc)
    (fresh : Nat → Nat) (fuel : Nat) (hfuel : files.length < fuel) :
    initrdGetNumberFiles m fuel start = some files.length ∧
    ∃ list, generateListFilesInitrd krealloc fresh m fuel start = some list ∧
      list.used = files.length ∧ list.used ≤ list.size ∧
      ∀ i (hi : i < files.length),
        list.headers i = headerAt start files i ∧
        getsize m (wrap (list.headers i + sizeOffset)) = files[i].content.length ∧
        ∀ buffer, (buffer ≤ list.headers i + blockSize ∨
            list.headers i + blockSize + files[i].content.length ≤ buffer) →
          buffer + files[i].content.length < 2 ^ 32 →
          (initrdRead m list i 0 files[i].content.length buffer).2 = files[i].content.length ∧
          ∀ j (hj : j < files[i].content.length),
            (initrdRead m list i 0 files[i].content.length buffer).1 (buffer + j) =
              files[i].content[j] := by
  refine ⟨h.number hend hfuel, ?_⟩
  obtain ⟨list, hlist, hused, hsize, hheaders⟩ := h.generate hend hkeep fresh hfuel
  refine ⟨list, hlist, hused, hsize, fun i hi => ?_⟩
  have hfile := h.fileAt hend hi
  rw [hheaders i hi]
  exact ⟨rfl, hfile.getsize, fun buffer hapart hbuffer =>
    hfile.read (hheaders i hi) hapart hbuffer⟩

def helloFile : File where
  name := [0x68]
  typeflag := 0x30
  content := [0x48, 0x69]
  other := fun _ => 0x20
  name_pos := by decide
  name_le := by decide
  name_ne_zero := by decide
  typeflag_valid := .inl rfl

def docDir : File where
  name := [0x64, 0x2F]
  typeflag := 0x35
  content := []
  other := fun _ => 0
  name_pos := by decide
  name_le := by decide
  name_ne_zero := by decide
  typeflag_valid := .inr rfl

/-- Memory with the archive of `files` at `start`. -/
def archiveMemory (start : Nat) (files : List File) : Mem := fun x => archiveByte files (x - start)

theorem archiveMemory_holds (start : Nat) (files : List File) :
    Holds (archiveMemory start files) start files := by
  intro i _
  rw [archiveMemory, Nat.add_sub_cancel_left]

theorem archive_round_trip_hello :
    ∃ list, generateListFilesInitrd (fun list _ => list.headers) (fun _ => 0)
        (archiveMemory 0x100000 [docDir, helloFile]) 3 0x100000 = some list ∧
      list.headers 1 = 0x100200 ∧
      (initrdRead (archiveMemory 0x100000 [docDir, helloFile]) list 1 0 2 0x8000).1 0x8001 =
        0x69 := by
  obtain ⟨-, list, hlist, -, -, hfiles⟩ := archive_round_trip
    (archiveMemory 0x100000 [docDir, helloFile]) 0x100000 [docDir, helloFile]
    (archiveMemory_holds 0x100000 [docDir, helloFile]) (by decide) (fun list _ => list.headers)
    (fun _ _ _ _ => rfl) (fun _ => 0) 3 (by decide)
  obtain ⟨hheader, -, hread⟩ := hfiles 1 (by decide)
  refine ⟨list, hlist, hheader, ?_⟩
  exact (hread 0x8000 (.inl (by rw [hheader]; decide)) (by decide)).2 1 (by decide)

end Initrd
end Medusa
