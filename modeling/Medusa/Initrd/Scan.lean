import Medusa.Libc.String
import Medusa.Machine.Iterate
import Medusa.Machine.Word

/-!
# Scanning the initial ramdisk

`initrd.c`: the two loops that walk the headers of a tar archive, the growing list
of headers and the read of a file.  Both loops end at the first header with an
empty name and know no other end.  The kernel passes only the start of the module,
so neither can tell when it has left it.
-/

namespace Medusa
namespace Initrd

open Machine

/-! ## Headers -/

/-- The offset of `size` in `struct tar_header`. -/
def sizeOffset : Nat := 124

def blockSize : Nat := 512

/-- `in[j - 1] - '0'`, a signed difference that the multiplication turns into an
unsigned word. -/
def charDigit (c : BitVec 8) : Nat := ((c.toInt - 48) % 2 ^ 32).toNat

/-- One round of `getsize`: the size so far and the weight of the next digit. -/
def sizeRound (m : Mem) (field : Nat) (s : Nat × Nat) (k : Nat) : Nat × Nat :=
  (wrap (s.1 + charDigit (m (wrap (field + (10 - k)))) * s.2), wrap (s.2 * 8))

def getsize (m : Mem) (field : Nat) : Nat :=
  ((List.range 11).foldl (sizeRound m field) (0, 1)).1

/-- Go on to the next header. -/
def advance (address size : Nat) : Nat :=
  let next := wrap (address + wrap ((size / 512 + 1) * 512))
  if size % 512 ≠ 0 then wrap (next + 512) else next

/-- The header after the one at `address`, unless its name is empty. -/
def walk (m : Mem) (address : Nat) : Option Nat :=
  if m address = 0 then none
  else some (advance address (getsize m (wrap (address + sizeOffset))))

/-! ## The list of headers -/

/-- `initrd_list_header_t`; `headers` is what the allocated array holds. -/
structure HeaderList where
  headers : Nat → Nat
  used : Nat
  size : Nat

/-- `fresh` is what the new array happens to hold. -/
def initHeaderList (fresh : Nat → Nat) (initialSize : Nat) : HeaderList :=
  { headers := fresh, used := 0, size := initialSize }

/-- `krealloc` gives the contents of the array after it has been moved to a block
of the given number of bytes. -/
def addHeaderList (krealloc : HeaderList → Nat → Nat → Nat) (list : HeaderList) (header : Nat) :
    HeaderList :=
  let grown :=
    if list.used = list.size then
      { list with
        size := wrap (list.size * 2)
        headers := krealloc list (wrap (wrap (list.size * 2) * 4)) }
    else list
  { grown with
    headers := Function.update grown.headers grown.used header
    used := wrap (grown.used + 1) }

/-! ## The two loops -/

structure Scan where
  address : Nat
  i : Nat
  list : HeaderList

def generateRound (krealloc : HeaderList → Nat → Nat → Nat) (m : Mem) (s : Scan) : Option Scan :=
  (walk m s.address).map fun next =>
    { address := next
      i := wrap (s.i + 1)
      list := addHeaderList krealloc s.list s.address }

def startScan (fresh : Nat → Nat) (address : Nat) : Scan :=
  { address := address, i := 0, list := initHeaderList fresh 1 }

def generateListFilesInitrd (krealloc : HeaderList → Nat → Nat → Nat) (fresh : Nat → Nat)
    (m : Mem) (fuel address : Nat) : Option HeaderList :=
  (runLoop (generateRound krealloc m) fuel (startScan fresh address)).map Scan.list

/-- The address and the count. -/
def numberRound (m : Mem) (s : Nat × Nat) : Option (Nat × Nat) :=
  (walk m s.1).map fun next => (next, wrap (s.2 + 1))

def initrdGetNumberFiles (m : Mem) (fuel address : Nat) : Option Nat :=
  (runLoop (numberRound m) fuel (address, 0)).map Prod.snd

/-- `initrd_read`: the memory afterwards and the number returned. -/
def initrdRead (m : Mem) (list : HeaderList) (inode offset size buffer : Nat) : Mem × Nat :=
  let content := wrap (list.headers inode + blockSize + offset)
  (Function.update (Libc.memcpy m buffer content size) (wrap (buffer + size)) 0, size)

/-! ## Both loops make the same walk -/

variable {krealloc : HeaderList → Nat → Nat → Nat} {fresh : Nat → Nat} {m : Mem}

theorem walk_eq_none_iff {address : Nat} : walk m address = none ↔ m address = 0 := by
  unfold walk
  split
  case isTrue hzero => exact ⟨fun _ => hzero, fun _ => rfl⟩
  case isFalse hne => exact ⟨fun h => (nomatch h), fun h => absurd h hne⟩

theorem generateRound_walk (s : Scan) :
    (generateRound krealloc m s).map Scan.address = walk m s.address := by
  rw [generateRound, Option.map_map]
  cases walk m s.address with
  | none => rfl
  | some next => rfl

theorem numberRound_walk (s : Nat × Nat) : (numberRound m s).map Prod.fst = walk m s.1 := by
  rw [numberRound, Option.map_map]
  cases walk m s.1 with
  | none => rfl
  | some next => rfl

theorem generate_rounds_walk (krealloc : HeaderList → Nat → Nat → Nat) (fresh : Nat → Nat)
    (k address : Nat) :
    (rounds (generateRound krealloc m) k (startScan fresh address)).map Scan.address =
      rounds (walk m) k address :=
  rounds_map Scan.address generateRound_walk k (startScan fresh address)

theorem number_rounds_walk (k address : Nat) :
    (rounds (numberRound m) k (address, 0)).map Prod.fst = rounds (walk m) k address :=
  rounds_map Prod.fst numberRound_walk k (address, 0)

/-- A loop that follows the walk returns exactly when the walk meets an empty name
within the fuel. -/
theorem runLoop_of_walk {τ : Type} {step : τ → Option τ} {p : τ → Nat}
    (hp : ∀ x, (step x).map p = walk m (p x)) (fuel : Nat) (x : τ) :
    (∃ y, runLoop step fuel x = some y) ↔
      ∃ k stop, k < fuel ∧ rounds (walk m) k (p x) = some stop ∧ m stop = 0 := by
  constructor
  · rintro ⟨y, hy⟩
    obtain ⟨k, hk, hrounds, hstop⟩ := runLoop_eq_some_iff.mp hy
    refine ⟨k, p y, hk, ?_, ?_⟩
    · rw [← rounds_map p hp k x, hrounds, Option.map_some]
    · rw [← walk_eq_none_iff, ← hp y, hstop, Option.map_none]
  · rintro ⟨k, stop, hk, hrounds, hstop⟩
    rw [← rounds_map p hp k x] at hrounds
    obtain ⟨y, hy, rfl⟩ := Option.map_eq_some_iff.mp hrounds
    have hnone : step y = none := by
      rw [← Option.map_eq_none_iff, hp y, walk_eq_none_iff, hstop]
    exact ⟨y, runLoop_eq_some_iff.mpr ⟨k, hk, hy, hnone⟩⟩

/-! ## What the loops collect -/

/-- The list holds the first `k` headers of the walk. -/
structure Collected (m : Mem) (start k : Nat) (list : HeaderList) : Prop where
  used_eq : list.used = k
  used_le : list.used ≤ list.size
  size_pos : 0 < list.size
  size_le : list.size ≤ 2 * list.used + 1
  stored : ∀ j, j < k → rounds (walk m) j start = some (list.headers j)

theorem collected_init (m : Mem) (start : Nat) (fresh : Nat → Nat) :
    Collected m start 0 (initHeaderList fresh 1) where
  used_eq := rfl
  used_le := Nat.zero_le 1
  size_pos := Nat.one_pos
  size_le := Nat.le_refl 1
  stored := fun j hj => absurd hj (Nat.not_lt_zero j)

/-- What moving the array must do: the headers already in it stay. -/
def KeepsStored (krealloc : HeaderList → Nat → Nat → Nat) : Prop :=
  ∀ list bytes j, j < list.used → krealloc list bytes j = list.headers j

theorem Collected.add {start k header : Nat} {list : HeaderList} (h : Collected m start k list)
    (hkeep : KeepsStored krealloc) (hk : k < 2 ^ 30)
    (hheader : rounds (walk m) k start = some header) :
    Collected m start (k + 1) (addHeaderList krealloc list header) := by
  have hused := h.used_eq
  have hpos := h.size_pos
  have hle := h.used_le
  have hsize := h.size_le
  -- the array after making room for one more
  have hgrown : ∃ grown : HeaderList, grown.used = k ∧ k < grown.size ∧
      grown.size ≤ 2 * (k + 1) + 1 ∧ (∀ j, j < k → grown.headers j = list.headers j) ∧
      addHeaderList krealloc list header =
        { grown with
          headers := Function.update grown.headers grown.used header
          used := wrap (grown.used + 1) } := by
    by_cases hfull : list.used = list.size
    · have hdouble : wrap (list.size * 2) = list.size * 2 := wrap_of_lt (by omega)
      refine ⟨{ list with
          size := wrap (list.size * 2)
          headers := krealloc list (wrap (wrap (list.size * 2) * 4)) }, hused, ?_, ?_, ?_, ?_⟩
      · show k < wrap (list.size * 2)
        omega
      · show wrap (list.size * 2) ≤ 2 * (k + 1) + 1
        omega
      · intro j hj
        exact hkeep list _ j (by omega)
      · rw [addHeaderList, if_pos hfull]
    · refine ⟨list, hused, by omega, by omega, fun _ _ => rfl, ?_⟩
      rw [addHeaderList, if_neg hfull]
  obtain ⟨grown, hgused, hroom, hsmall, hsame, heq⟩ := hgrown
  have hnext : wrap (grown.used + 1) = k + 1 := by rw [hgused, wrap_of_lt (by omega)]
  rw [heq]
  constructor
  · exact hnext
  · show wrap (grown.used + 1) ≤ grown.size
    omega
  · exact Nat.zero_lt_of_lt hroom
  · show grown.size ≤ 2 * wrap (grown.used + 1) + 1
    omega
  · intro j hj
    show rounds (walk m) j start = some (Function.update grown.headers grown.used header j)
    rw [hgused]
    rcases Nat.lt_succ_iff_lt_or_eq.mp hj with hlt | rfl
    · rw [Function.update_of_ne (Nat.ne_of_lt hlt), hsame j hlt, h.stored j hlt]
    · rw [Function.update_self, hheader]

/-- After `k` rounds the list holds the headers at which the rounds began. -/
theorem generate_collects (hkeep : KeepsStored krealloc) {start k : Nat} (hk : k ≤ 2 ^ 30)
    {s : Scan} (h : rounds (generateRound krealloc m) k (startScan fresh start) = some s) :
    Collected m start k s.list := by
  induction k generalizing s with
  | zero =>
    obtain rfl := Option.some.inj h
    exact collected_init m start fresh
  | succ k ih =>
    rw [rounds_succ_last] at h
    obtain ⟨t, ht, hround⟩ := Option.bind_eq_some_iff.mp h
    have haddr : rounds (walk m) k start = some t.address := by
      rw [← generate_rounds_walk krealloc fresh, ht, Option.map_some]
    obtain ⟨next, -, rfl⟩ := Option.map_eq_some_iff.mp hround
    exact (ih (by omega) ht).add hkeep (by omega) haddr

theorem number_counts {start k : Nat} (hk : k < 2 ^ 32) {s : Nat × Nat}
    (h : rounds (numberRound m) k (start, 0) = some s) : s.2 = k := by
  induction k generalizing s with
  | zero =>
    obtain rfl := Option.some.inj h
    rfl
  | succ k ih =>
    rw [rounds_succ_last] at h
    obtain ⟨t, ht, hround⟩ := Option.bind_eq_some_iff.mp h
    obtain ⟨next, -, rfl⟩ := Option.map_eq_some_iff.mp hround
    show wrap (t.2 + 1) = k + 1
    rw [ih (by omega) ht, wrap_of_lt hk]

/-! ## When the scan stays in the module -/

def Inside (start len address : Nat) : Prop := start ≤ address ∧ address < start + len

/-- `generate_list_files_initrd` looks at a header at `address`. -/
def GenerateVisits (krealloc : HeaderList → Nat → Nat → Nat) (fresh : Nat → Nat) (m : Mem)
    (start address : Nat) : Prop :=
  ∃ k s, rounds (generateRound krealloc m) k (startScan fresh start) = some s ∧
    s.address = address

/-- `initrd_get_number_files` looks at a header at `address`. -/
def NumberVisits (m : Mem) (start address : Nat) : Prop :=
  ∃ k s, rounds (numberRound m) k (start, 0) = some s ∧ s.1 = address

/-- Both loops return, and look at no header outside the module. -/
structure ScanBounded (krealloc : HeaderList → Nat → Nat → Nat) (fresh : Nat → Nat) (m : Mem)
    (start len : Nat) : Prop where
  generate_returns : ∃ fuel list, generateListFilesInitrd krealloc fresh m fuel start = some list
  number_returns : ∃ fuel n, initrdGetNumberFiles m fuel start = some n
  generate_inside : ∀ address, GenerateVisits krealloc fresh m start address →
    Inside start len address
  number_inside : ∀ address, NumberVisits m start address → Inside start len address

/-- The chain of headers reaches an empty name, inside the module and within as many
headers as the module has blocks. -/
def EndsInside (m : Mem) (start len : Nat) : Prop :=
  ∃ k stop, k < (len + 511) / 512 ∧ rounds (walk m) k start = some stop ∧ m stop = 0 ∧
    ∀ j address, j ≤ k → rounds (walk m) j start = some address → Inside start len address

theorem generateVisits_iff {start address : Nat} :
    GenerateVisits krealloc fresh m start address ↔
      ∃ k, rounds (walk m) k start = some address := by
  unfold GenerateVisits
  apply exists_congr
  intro k
  rw [← generate_rounds_walk krealloc fresh, Option.map_eq_some_iff]

theorem numberVisits_iff {start address : Nat} :
    NumberVisits m start address ↔ ∃ k, rounds (walk m) k start = some address := by
  unfold NumberVisits
  apply exists_congr
  intro k
  rw [← number_rounds_walk, Option.map_eq_some_iff]

theorem advance_mod (address size : Nat) : advance address size % 512 = address % 512 := by
  unfold advance wrap
  dsimp only
  split <;> omega

/-- The walk stays in the blocks that start as the first one does. -/
theorem rounds_walk_mod {k start address : Nat} (h : rounds (walk m) k start = some address) :
    address % 512 = start % 512 := by
  induction k generalizing start with
  | zero => rw [Option.some.inj h]
  | succ k ih =>
    rw [rounds] at h
    obtain ⟨next, hnext, hrest⟩ := Option.bind_eq_some_iff.mp h
    rw [ih hrest]
    unfold walk at hnext
    split at hnext
    · simp at hnext
    · rw [← Option.some.inj hnext, advance_mod]

/-- The places of a module at which a header can start. -/
def blockStarts (start len : Nat) : Finset Nat :=
  (Finset.range ((len + 511) / 512)).image fun i => start + 512 * i

theorem mem_blockStarts {start len address : Nat} (hin : Inside start len address)
    (hmod : address % 512 = start % 512) : address ∈ blockStarts start len := by
  obtain ⟨hlo, hhi⟩ := hin
  apply Finset.mem_image.mpr
  refine ⟨(address - start) / 512, ?_, ?_⟩
  · rw [Finset.mem_range]
    omega
  · omega

theorem card_blockStarts_le (start len : Nat) : (blockStarts start len).card ≤ (len + 511) / 512 := by
  have hle := Finset.card_image_le (s := Finset.range ((len + 511) / 512))
    (f := fun i => start + 512 * i)
  rwa [Finset.card_range] at hle

/-- A loop that follows the walk returns, with enough fuel, exactly when the walk
meets an empty name. -/
theorem returns_of_walk {τ β : Type} {step : τ → Option τ} {p : τ → Nat}
    (hp : ∀ x, (step x).map p = walk m (p x)) (x : τ) (f : τ → β) :
    (∃ fuel b, (runLoop step fuel x).map f = some b) ↔
      ∃ k stop, rounds (walk m) k (p x) = some stop ∧ m stop = 0 := by
  constructor
  · rintro ⟨fuel, b, h⟩
    obtain ⟨y, hy, -⟩ := Option.map_eq_some_iff.mp h
    obtain ⟨k, stop, -, hrest⟩ := (runLoop_of_walk hp fuel x).mp ⟨y, hy⟩
    exact ⟨k, stop, hrest⟩
  · rintro ⟨k, stop, hrest⟩
    obtain ⟨y, hy⟩ := (runLoop_of_walk hp (k + 1) x).mpr ⟨k, stop, Nat.lt_succ_self k, hrest⟩
    exact ⟨k + 1, f y, Option.map_eq_some_iff.mpr ⟨y, hy, rfl⟩⟩

theorem generate_returns_iff {start : Nat} :
    (∃ fuel list, generateListFilesInitrd krealloc fresh m fuel start = some list) ↔
      ∃ k stop, rounds (walk m) k start = some stop ∧ m stop = 0 :=
  returns_of_walk generateRound_walk (startScan fresh start) Scan.list

theorem number_returns_iff {start : Nat} :
    (∃ fuel n, initrdGetNumberFiles m fuel start = some n) ↔
      ∃ k stop, rounds (walk m) k start = some stop ∧ m stop = 0 :=
  returns_of_walk numberRound_walk (start, 0) Prod.snd

/-- **When the scan is bounded.**  The two loops return and stay in the module
exactly when the chain of headers ends inside it, and then it ends within as many
headers as the module has blocks. -/
theorem scan_bounded_iff (krealloc : HeaderList → Nat → Nat → Nat) (fresh : Nat → Nat) (m : Mem)
    (start len : Nat) :
    ScanBounded krealloc fresh m start len ↔ EndsInside m start len := by
  constructor
  · intro h
    obtain ⟨k, stop, hk, hstop⟩ := number_returns_iff.mp h.number_returns
    have hinside : ∀ j address, rounds (walk m) j start = some address →
        Inside start len address :=
      fun j address hj => h.number_inside address (numberVisits_iff.mpr ⟨j, hj⟩)
    have hcard := rounds_lt_card hk (walk_eq_none_iff.mpr hstop) (blockStarts start len)
      fun j address hj => mem_blockStarts (hinside j address hj) (rounds_walk_mod hj)
    exact ⟨k, stop, Nat.lt_of_lt_of_le hcard (card_blockStarts_le start len), hk, hstop,
      fun j address _ hj => hinside j address hj⟩
  · rintro ⟨k, stop, -, hk, hstop, hinside⟩
    -- past the empty name there are no more rounds
    have hall : ∀ j address, rounds (walk m) j start = some address →
        Inside start len address := by
      intro j address hj
      apply hinside j address ?_ hj
      by_contra hgt
      obtain ⟨u, hu, hrest⟩ := rounds_le hj (Nat.le_of_not_le hgt)
      rw [hk] at hu
      obtain rfl := Option.some.inj hu
      have hzero := rounds_stop (walk_eq_none_iff.mpr hstop) hrest
      omega
    constructor
    · exact generate_returns_iff.mpr ⟨k, stop, hk, hstop⟩
    · exact number_returns_iff.mpr ⟨k, stop, hk, hstop⟩
    · intro address hvisit
      obtain ⟨j, hj⟩ := generateVisits_iff.mp hvisit
      exact hall j address hj
    · intro address hvisit
      obtain ⟨j, hj⟩ := numberVisits_iff.mp hvisit
      exact hall j address hj

/-- A header with the name `a` and these characters as its size. -/
def oneHeader (start : Nat) (size : List (BitVec 8)) : Mem := fun x =>
  if x = start then 97 else if start + sizeOffset ≤ x then size.getD (x - (start + sizeOffset)) 0
  else 0

/-- The size `37777777000`, for which the stride is 2^32. -/
def strideZero : Mem :=
  oneHeader 0x100000 [0x33, 0x37, 0x37, 0x37, 0x37, 0x37, 0x37, 0x37, 0x30, 0x30, 0x30]

/-- The size `00000000000`, in a module of one block. -/
def unterminated : Mem := oneHeader 0x100000 (List.replicate 11 0x30)

theorem strideZero_walk : walk strideZero 0x100000 = some 0x100000 := by decide

theorem unterminated_walk : walk unterminated 0x100000 = some 0x100200 := by decide

/-- The first module is scanned for ever; the scan of the second leaves it. -/
theorem scan_unbounded :
    (∀ fuel, initrdGetNumberFiles strideZero fuel 0x100000 = none) ∧
      (∀ krealloc fresh fuel,
        generateListFilesInitrd krealloc fresh strideZero fuel 0x100000 = none) ∧
      (∀ krealloc fresh len, ¬ ScanBounded krealloc fresh strideZero 0x100000 len) ∧
      NumberVisits unterminated 0x100000 0x100200 ∧ ¬ Inside 0x100000 512 0x100200 := by
  have hstay : ∀ k, rounds (walk strideZero) k 0x100000 = some 0x100000 := by
    intro k
    induction k with
    | zero => rfl
    | succ k ih => rw [rounds_succ_of_step strideZero_walk, ih]
  have hnever : ¬ ∃ k stop, rounds (walk strideZero) k 0x100000 = some stop ∧
      strideZero stop = 0 := by
    rintro ⟨k, stop, hk, hstop⟩
    rw [hstay k] at hk
    obtain rfl := Option.some.inj hk
    exact absurd hstop (by decide)
  refine ⟨?_, ?_, ?_, ?_, ?_⟩
  · intro fuel
    rw [Option.eq_none_iff_forall_not_mem]
    intro n hn
    exact hnever (number_returns_iff.mp ⟨fuel, n, hn⟩)
  · intro krealloc fresh fuel
    rw [Option.eq_none_iff_forall_not_mem]
    intro list hlist
    exact hnever (generate_returns_iff.mp ⟨fuel, list, hlist⟩)
  · intro krealloc fresh len hbounded
    exact hnever (number_returns_iff.mp hbounded.number_returns)
  · exact numberVisits_iff.mpr ⟨1, by rw [rounds_succ_of_step unterminated_walk]; rfl⟩
  · rintro ⟨-, hlt⟩
    exact absurd hlt (by decide)

end Initrd
end Medusa
