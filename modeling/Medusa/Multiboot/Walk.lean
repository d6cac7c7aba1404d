import Medusa.Pmm.Boot

/-!
# The four walks over the boot information

`init_pmm`, `mb2_find_tag`, `mb2_print_tags` and `kernel_main` each have a loop of
their own over the tags.  One tests the next tag, two test the previous one, and
one tests before its body; three round a tag's size with `align_to` and the last
with a mask.  Each loop is written here with the list of the tags whose header it
reads, and on a well-formed block the four lists are the same.
-/

namespace Medusa
namespace Multiboot

open Machine Kernel Pmm

/-! ## The loops with the tags they read -/

/-- The module loop of `init_pmm`.  The tag that ends it is read as well. -/
def moduleWalk (m : Mem) : Nat → Nat → Nat → Except Stop (List Nat × Nat)
  | 0, _, _ => .error .fuel
  | fuel + 1, tag, kernelEnd =>
    let kernelEnd := if tagType m tag = 3 then maxInt (modEnd m tag) kernelEnd else kernelEnd
    if tagType m (nextTag m tag) ≠ 0 then do
      let (visited, kernelEnd) ← moduleWalk m fuel (nextTag m tag) kernelEnd
      return (tag :: visited, kernelEnd)
    else .ok ([tag, nextTag m tag], kernelEnd)

/-- The loop of `mb2_find_tag`. -/
def findTagWalk (m : Mem) (type : Nat) : Nat → Nat → Except Stop (List Nat × Nat)
  | 0, _ => .error .fuel
  | fuel + 1, tag =>
    if tagType m tag = type then .ok ([tag], tag)
    else if tagType m tag ≠ 0 then do
      let (visited, found) ← findTagWalk m type fuel (nextTag m tag)
      return (tag :: visited, found)
    else .ok ([tag], 0)

def tagTable : List String :=
  ["TAG_END", "TAG_CMDLINE", "<unknown>", "TAG_MODULE",
   "TAG_MEM", "TAG_BOOTDEV", "TAG_MEMMAP", "TAG_VBE",
   "TAG_FB", "<unknown>", "TAG_APM", "<unknown>",
   "<unknown>", "<unknown>", "TAG_RSDP1", "TAG_RSDP2"]

/-- What `mb2_print_tags` logs: one line, or a line for each tag. -/
inductive LogLine where
  | noTags
  | tag (name : String) (type size : Nat)
deriving DecidableEq, Repr

def tagLine (m : Mem) (tag : Nat) : LogLine :=
  .tag (tagTable.getD (tagType m tag) "<unknown>") (tagType m tag) (tagSize m tag)

def printTagsLoop (m : Mem) : Nat → Nat → Except Stop (List Nat × List LogLine)
  | 0, _ => .error .fuel
  | fuel + 1, tag =>
    if tagType m tag ≠ 0 then do
      let (visited, log) ← printTagsLoop m fuel (nextTag m tag)
      return (tag :: visited, tagLine m tag :: log)
    else .ok ([tag], [tagLine m tag])

def mb2PrintTags (m : Mem) (boot : Nat) : Except Stop (List Nat × List LogLine) :=
  if totalSize m boot ≤ 8 then .ok ([], [.noTags])
  else printTagsLoop m (totalSize m boot) (boot + 8)

/-- The step of `kernel_main`: `tag + ((tag->size + 7) & ~7)`. -/
def maskedNextTag (m : Mem) (tag : Nat) : Nat :=
  wrap (tag + (wrap (tagSize m tag + 7) &&& 0xFFFFFFF8))

/-- The tag loop of `kernel_main`.  `body` is what the `switch` does with the
memory before the tag's size is read. -/
def kernelTagLoop (body : Nat → Mem → Mem) : Nat → Nat → Mem → Except Stop (List Nat × Mem)
  | 0, _, _ => .error .fuel
  | fuel + 1, tag, m =>
    if tagType m tag ≠ 0 then do
      let m := body tag m
      let (visited, m) ← kernelTagLoop body fuel (maskedNextTag m tag) m
      return (tag :: visited, m)
    else .ok ([tag], m)

/-- `kernel_main` gives up on an unaligned address and reads no tag. -/
def kernelMainTags (body : Nat → Mem → Mem) (m : Mem) (addr : Nat) :
    Except Stop (List Nat × Mem) :=
  if addr &&& 7 ≠ 0 then .ok ([], m)
  else kernelTagLoop body (totalSize m addr) (addr + 8) m

theorem moduleWalk_snd (m : Mem) (fuel tag kernelEnd : Nat) :
    (moduleWalk m fuel tag kernelEnd).map Prod.snd = moduleLoop m fuel tag kernelEnd := by
  induction fuel generalizing tag kernelEnd with
  | zero => rfl
  | succ fuel ih =>
    rw [moduleWalk, moduleLoop]
    split
    · rw [← ih]
      cases moduleWalk m fuel (nextTag m tag) _ <;> rfl
    · rfl

theorem findTagWalk_snd (m : Mem) (type fuel tag : Nat) :
    (findTagWalk m type fuel tag).map Prod.snd = findTagLoop m type fuel tag := by
  induction fuel generalizing tag with
  | zero => rfl
  | succ fuel ih =>
    rw [findTagWalk, findTagLoop]
    split
    · rfl
    · split
      · rw [← ih]
        cases findTagWalk m type fuel (nextTag m tag) <;> rfl
      · rfl

/-- The two ways to round a size up to eight bytes agree on every word. -/
theorem mask_eq_alignTo {n : Nat} (hn : n < 2 ^ 32) :
    wrap (n + 7) &&& 0xFFFFFFF8 = alignTo n 8 := by
  have hmask := and_high_eq (n := wrap (n + 7)) (k := 3) (wrap_lt _) (by decide)
  rw [show (0xFFFFFFF8 : Nat) = 2 ^ 32 - 2 ^ 3 by decide, hmask]
  unfold alignTo wrap
  split <;> omega

theorem maskedNextTag_eq (m : Mem) (tag : Nat) : maskedNextTag m tag = nextTag m tag := by
  unfold maskedNextTag nextTag
  rw [mask_eq_alignTo (show tagSize m tag < 2 ^ 32 from read32_lt m (tag + 4))]

/-! ## The tags of a chain -/

/-- The end tag of a chain that starts at `a`. -/
def endTag (m : Mem) : Nat → List Nat → Nat
  | a, [] => a
  | a, _ :: rest => endTag m (a + roundUp (tagSize m a) 8) rest

/-- The tags of a chain, the end tag included. -/
def chainTags (m : Mem) (a : Nat) (tags : List Nat) : List Nat := tags ++ [endTag m a tags]

variable {m : Mem} {limit : Nat}

theorem TagChain.bound {tags : List Nat} {a : Nat} (h : TagChain m limit a tags) :
    a + 8 ≤ limit := by
  have hlen := h.length_le
  omega

theorem TagChain.endTag_type {tags : List Nat} {a : Nat} (h : TagChain m limit a tags) :
    tagType m (endTag m a tags) = 0 := by
  induction tags generalizing a with
  | nil => exact h.1
  | cons t rest ih => exact ih h.2.2.2

theorem TagChain.type_ne_zero {tags : List Nat} {a t : Nat} (h : TagChain m limit a tags)
    (ht : t ∈ tags) : tagType m t ≠ 0 := by
  induction tags generalizing a with
  | nil => simp at ht
  | cons t' rest ih =>
    obtain ⟨rfl, hne, -, hrest⟩ := h
    rcases List.mem_cons.mp ht with rfl | hin
    · exact hne
    · exact ih hrest hin

/-- Each header a walk reads lies in the block. -/
theorem TagChain.mem_chainTags {tags : List Nat} {a t : Nat} (h : TagChain m limit a tags)
    (ht : t ∈ chainTags m a tags) : a ≤ t ∧ t + 8 ≤ limit := by
  induction tags generalizing a with
  | nil =>
    obtain rfl : t = a := by simpa [chainTags, endTag] using ht
    exact ⟨Nat.le_refl t, h.2⟩
  | cons t' rest ih =>
    have hbound := h.bound
    obtain ⟨rfl, -, -, hrest⟩ := h
    rcases List.mem_cons.mp ht with rfl | hin
    · exact ⟨Nat.le_refl t, hbound⟩
    · have hlater := ih hrest hin
      exact ⟨by omega, hlater.2⟩

/-! ## What each loop reads -/

theorem moduleWalk_chain (hlimit : limit ≤ 2 ^ 32) {tags : List Nat} {a fuel kernelEnd : Nat}
    (h : TagChain m limit a tags) (hne : tags ≠ []) (hfuel : tags.length ≤ fuel) :
    ∃ last, moduleWalk m fuel a kernelEnd = .ok (chainTags m a tags, last) := by
  induction tags generalizing a fuel kernelEnd with
  | nil => exact absurd rfl hne
  | cons t rest ih =>
    obtain ⟨rfl, -, -, hrest⟩ := h
    cases fuel with
    | zero => simp at hfuel
    | succ fuel =>
      rw [moduleWalk, nextTag_eq hlimit hrest]
      cases rest with
      | nil =>
        rw [if_neg (by simpa using hrest.1)]
        exact ⟨_, rfl⟩
      | cons t' rest' =>
        obtain ⟨last, hlast⟩ := ih hrest (by simp) (by simpa using hfuel)
        rw [if_pos hrest.2.1, hlast]
        exact ⟨last, rfl⟩

theorem printTagsLoop_chain (hlimit : limit ≤ 2 ^ 32) {tags : List Nat} {a fuel : Nat}
    (h : TagChain m limit a tags) (hfuel : tags.length < fuel) :
    printTagsLoop m fuel a =
      .ok (chainTags m a tags, (chainTags m a tags).map (tagLine m)) := by
  induction tags generalizing a fuel with
  | nil =>
    cases fuel with
    | zero => simp at hfuel
    | succ fuel =>
      rw [printTagsLoop, if_neg (by simpa using h.1)]
      rfl
  | cons t rest ih =>
    obtain ⟨rfl, hne, -, hrest⟩ := h
    cases fuel with
    | zero => simp at hfuel
    | succ fuel =>
      rw [printTagsLoop, if_pos hne, nextTag_eq hlimit hrest, ih hrest (by simpa using hfuel)]
      rfl

/-- The loop of `kernel_main`, with a body that leaves the rest of the block alone. -/
theorem kernelTagLoop_chain (hlimit : limit ≤ 2 ^ 32) {body : Nat → Mem → Mem} {base : Mem}
    {lo : Nat} {tags : List Nat} {a fuel : Nat} (hlo : lo ≤ a) (h : TagChain base limit a tags)
    (hbody : ∀ t ∈ tags, ∀ m, Agree base m lo limit → Agree base (body t m) lo limit)
    (hm : Agree base m lo limit) (hfuel : tags.length < fuel) :
    ∃ last, kernelTagLoop body fuel a m = .ok (chainTags base a tags, last) := by
  induction tags generalizing a fuel m with
  | nil =>
    have hbound := h.bound
    have htype : tagType m a = tagType base a := read32_congr (hm.mono (by omega) (by omega))
    cases fuel with
    | zero => simp at hfuel
    | succ fuel =>
      rw [kernelTagLoop, if_neg (by simpa [htype] using h.1)]
      exact ⟨m, rfl⟩
  | cons t rest ih =>
    have hbound := h.bound
    obtain ⟨rfl, hne, -, hrest⟩ := h
    have htype : tagType m t = tagType base t := read32_congr (hm.mono (by omega) (by omega))
    have hm' := hbody t (by simp) m hm
    have hsize : tagSize (body t m) t = tagSize base t :=
      read32_congr (hm'.mono (by omega) (by omega))
    have hnext : maskedNextTag (body t m) t = t + roundUp (tagSize base t) 8 := by
      rw [maskedNextTag_eq, ← nextTag_eq hlimit hrest]
      unfold nextTag
      rw [hsize]
    cases fuel with
    | zero => simp at hfuel
    | succ fuel =>
      obtain ⟨last, hlast⟩ := ih (by omega) hrest (fun t' ht' => hbody t' (by simp [ht'])) hm'
        (by simpa using hfuel)
      rw [kernelTagLoop, if_pos (by rwa [htype])]
      simp only [hnext, hlast]
      exact ⟨last, rfl⟩

/-- The tags up to the first of a type, or all of them. -/
def upToType (m : Mem) (type : Nat) (tags : List Nat) : List Nat :=
  tags.take (tags.findIdx (fun t => tagType m t = type) + 1)

theorem upToType_cons_of_ne {type t : Nat} (ht : tagType m t ≠ type) (tags : List Nat) :
    upToType m type (t :: tags) = t :: upToType m type tags := by
  simp [upToType, List.findIdx_cons, ht]

/-- `mb2_find_tag` reads the tags up to the first of its type, or all of them. -/
theorem findTagWalk_chain (hlimit : limit ≤ 2 ^ 32) (type : Nat) {tags : List Nat} {a fuel : Nat}
    (h : TagChain m limit a tags) (hfuel : tags.length < fuel) :
    findTagWalk m type fuel a = .ok (upToType m type (chainTags m a tags),
      ((chainTags m a tags).find? fun t => tagType m t = type).getD 0) := by
  induction tags generalizing a fuel with
  | nil =>
    cases fuel with
    | zero => simp at hfuel
    | succ fuel =>
      rw [findTagWalk]
      by_cases htype : tagType m a = type
      · simp [upToType, chainTags, endTag, htype]
      · have hzero : 0 ≠ type := by rwa [← h.1]
        simp [upToType, chainTags, endTag, h.1, hzero]
  | cons t rest ih =>
    obtain ⟨rfl, hne, -, hrest⟩ := h
    cases fuel with
    | zero => simp at hfuel
    | succ fuel =>
      rw [findTagWalk]
      by_cases htype : tagType m t = type
      · simp [upToType, chainTags, htype, List.findIdx_cons]
      · have htags : chainTags m t (t :: rest) =
            t :: chainTags m (t + roundUp (tagSize m t) 8) rest := rfl
        rw [if_neg htype, if_pos hne, nextTag_eq hlimit hrest, ih hrest (by simpa using hfuel),
          htags, upToType_cons_of_ne htype, List.find?_cons_of_neg (by simpa using htype)]
        rfl

/-! ## A well-formed block -/

/-- A well-formed information block: what the loops over tags rely on. -/
structure TagBlock where
  mem : Mem
  addr : Nat
  tags : List Nat
  aligned : addr % 8 = 0
  fits : addr + totalSize mem addr ≤ 2 ^ 32
  chain : TagChain mem (addr + totalSize mem addr) (addr + 8) tags
  mmap : ∃ t ∈ tags, tagType mem t = 6

namespace TagBlock

variable (block : TagBlock)

def finish : Nat := block.addr + totalSize block.mem block.addr

/-- The tags in order, the end tag last. -/
def walk : List Nat := chainTags block.mem (block.addr + 8) block.tags

/-- `m` still holds the block. -/
def HeldBy (m : Mem) : Prop := Agree block.mem m block.addr block.finish

theorem rounds : block.tags.length < totalSize block.mem block.addr := by
  have h := block.chain.length_le
  omega

theorem tags_ne_nil : block.tags ≠ [] := by
  obtain ⟨t, ht, -⟩ := block.mmap
  exact List.ne_nil_of_mem ht

theorem large : ¬ totalSize block.mem block.addr ≤ 8 := by
  have h := block.chain.length_le
  omega

/-- The first tag of a type, or the null pointer. -/
def firstOfType (type : Nat) : Nat :=
  (block.walk.find? fun t => tagType block.mem t = type).getD 0

theorem firstOfType_eq_zero_iff (type : Nat) :
    block.firstOfType type = 0 ↔ ∀ t ∈ block.walk, tagType block.mem t ≠ type := by
  unfold firstOfType
  cases hfind : block.walk.find? fun t => tagType block.mem t = type with
  | none => simpa using hfind
  | some t =>
    have hin := List.mem_of_find?_eq_some hfind
    have htype := List.find?_some hfind
    have hlow := (block.chain.mem_chainTags hin).1
    constructor
    · intro hzero
      simp only [Option.getD_some] at hzero
      omega
    · intro hnone
      exact absurd (by simpa using htype) (hnone t hin)

end TagBlock

/-- **The four walkers agree.**  Three of them read the headers of all tags in order
and stop at the end tag, `mb2_find_tag` reads as many of them as it needs, every
header lies in the block, and what is found is the first tag of its type. -/
theorem walkers_agree (block : TagBlock) {body : Nat → Mem → Mem}
    (hbody : ∀ t ∈ block.tags, ∀ m, block.HeldBy m → block.HeldBy (body t m)) :
    (∃ finish, block.walk = block.tags ++ [finish] ∧ tagType block.mem finish = 0 ∧
      ∀ t ∈ block.tags, tagType block.mem t ≠ 0) ∧
    (∀ t ∈ block.walk, block.addr + 8 ≤ t ∧ t + 8 ≤ block.finish) ∧
    (∀ kernelEnd, ∃ last,
      moduleWalk block.mem (totalSize block.mem block.addr) (block.addr + 8) kernelEnd =
        .ok (block.walk, last) ∧
      moduleLoop block.mem (totalSize block.mem block.addr) (block.addr + 8) kernelEnd =
        .ok last) ∧
    mb2PrintTags block.mem block.addr = .ok (block.walk, block.walk.map (tagLine block.mem)) ∧
    (∃ last, kernelMainTags body block.mem block.addr = .ok (block.walk, last)) ∧
    ∀ type,
      findTagWalk block.mem type (totalSize block.mem block.addr) (block.addr + 8) =
        .ok (upToType block.mem type block.walk, block.firstOfType type) ∧
      mb2FindTag block.mem block.addr type = .ok (block.firstOfType type) ∧
      (block.firstOfType type = 0 ↔ ∀ t ∈ block.walk, tagType block.mem t ≠ type) := by
  have hrounds := block.rounds
  refine ⟨⟨_, rfl, block.chain.endTag_type, ?_⟩, ?_, ?_, ?_, ?_, ?_⟩
  · intro t ht
    exact block.chain.type_ne_zero ht
  · intro t ht
    exact block.chain.mem_chainTags ht
  · intro kernelEnd
    obtain ⟨last, hwalk⟩ := moduleWalk_chain block.fits block.chain block.tags_ne_nil hrounds.le
    refine ⟨last, hwalk, ?_⟩
    rw [← moduleWalk_snd, hwalk]
    rfl
  · unfold mb2PrintTags
    rw [if_neg block.large, printTagsLoop_chain block.fits block.chain hrounds]
    rfl
  · have haligned : block.addr &&& 7 = 0 := by
      rw [show 7 = 2 ^ 3 - 1 by decide, Nat.and_two_pow_sub_one_eq_mod]
      exact block.aligned
    obtain ⟨last, hwalk⟩ := kernelTagLoop_chain block.fits (Nat.le_add_right _ 8) block.chain
      hbody (Agree.refl _ _ _) hrounds
    refine ⟨last, ?_⟩
    unfold kernelMainTags
    rw [if_neg (by simpa using haligned), hwalk]
    rfl
  · intro type
    have hwalk := findTagWalk_chain block.fits type block.chain hrounds
    refine ⟨hwalk, ?_, block.firstOfType_eq_zero_iff type⟩
    unfold mb2FindTag
    rw [← findTagWalk_snd, hwalk]
    rfl

/-- A command line of 12 bytes, padded to 16, and an empty memory map. -/
def paddedTags : TagBlock where
  mem := wordsAt 0x1000
    [48, 0,
     1, 12, 0x78, 0,
     6, 16, 24, 0,
     0, 8]
  addr := 0x1000
  tags := [0x1008, 0x1018]
  aligned := by decide
  fits := by decide
  chain := ⟨rfl, by decide, by decide, rfl, by decide, by decide, by decide, by decide⟩
  mmap := ⟨0x1018, by decide, by decide⟩

theorem walkers_agree_paddedTags :
    paddedTags.walk = [0x1008, 0x1018, 0x1028] ∧
      mb2FindTag paddedTags.mem 0x1000 6 = .ok 0x1018 ∧
      mb2FindTag paddedTags.mem 0x1000 3 = .ok 0 ∧
      ∃ last, kernelMainTags (fun _ m => m) paddedTags.mem 0x1000 = .ok (paddedTags.walk, last) := by
  have h := @walkers_agree paddedTags (fun _ m => m) (fun _ _ _ hm => hm)
  exact ⟨by decide, by decide, by decide, h.2.2.2.2.1⟩

end Multiboot
end Medusa
