import Medusa.Paging.Leaf
import Medusa.Proc.Account
import Medusa.Proc.RunCode

/-!
# Out of physical memory

Three entry points take frames: `paging_get_page` for a table, the first
`aligned_alloc` for the heap, and `proc_run_code` for a directory, code and a stack.
Each keeps the account of `Account`, whatever the page tables look like, so the
theorem is about every run of them.
-/

namespace Medusa
namespace Proc

open Machine Kernel Paging Pmm

variable {owed : Nat → Prop} {α β : Type}

/-! ## The heap -/

theorem modify_quiet {f : World → World} (hj : ∀ w, (f w).journal = w.journal)
    (hp : ∀ w, (f w).pmm = w.pmm) : Action.Keeps Quiet (Action.modify f : Code Unit) :=
  fun w => ⟨hj w, hp w⟩

theorem memBlockSize_quiet (block : Nat) : Action.Keeps Quiet (memBlockSize block) :=
  quiet_composes.bind (load_quiet _) fun _ => quiet_composes.pure _

theorem insertFiller_quiet (next nextAligned : Nat) :
    Action.Keeps Quiet (insertFiller next nextAligned) := by
  unfold insertFiller
  split
  · exact quiet_composes.bind (store_quiet _ _) fun _ =>
      quiet_composes.bind (quiet_composes.read _) fun _ =>
        quiet_composes.bind (store_quiet _ _) fun _ =>
          modify_quiet (fun _ => rfl) fun _ => rfl
  · exact quiet_composes.pure ()

theorem memNewBlock_quiet (size align : Nat) : Action.Keeps Quiet (memNewBlock size align) :=
  quiet_composes.bind (quiet_composes.read _) fun _ =>
    quiet_composes.bind (memBlockSize_quiet _) fun _ =>
      quiet_composes.bind (store_quiet _ _) fun _ =>
        quiet_composes.bind (store_quiet _ _) fun _ =>
          quiet_composes.bind (insertFiller_quiet _ _) fun _ =>
            quiet_composes.bind (quiet_composes.read _) fun _ =>
              quiet_composes.bind (store_quiet _ _) fun _ =>
                quiet_composes.bind (modify_quiet (fun _ => rfl) fun _ => rfl) fun _ =>
                  quiet_composes.pure _

theorem findLoop_quiet (size align fuel block : Nat) :
    Action.Keeps Quiet (findLoop size align fuel block) := by
  induction fuel generalizing block with
  | zero => exact quiet_composes.stop _
  | succ fuel ih =>
    refine quiet_composes.bind (load_quiet _) fun word => ?_
    split
    · refine quiet_composes.bind (load_quiet _) fun next => ?_
      split
      · exact quiet_composes.pure _
      · exact ih next
    · exact quiet_composes.pure _

theorem memFindBlock_quiet (size align : Nat) : Action.Keeps Quiet (memFindBlock size align) := by
  refine quiet_composes.bind (quiet_composes.read _) fun bottom => ?_
  split
  · exact quiet_composes.pure _
  · exact findLoop_quiet _ _ _ _

theorem takeBlock_quiet (block : Nat) : Action.Keeps Quiet (takeBlock block) :=
  quiet_composes.bind (load_quiet _) fun _ =>
    quiet_composes.bind (modify_quiet (fun _ => rfl) fun _ => rfl) fun _ =>
      quiet_composes.bind (store_quiet _ _) fun _ => quiet_composes.pure _

theorem growHeap_quiet (size align : Nat) : Action.Keeps Quiet (growHeap size align) := by
  refine quiet_composes.bind (quiet_composes.read _) fun top =>
    quiet_composes.bind (memBlockSize_quiet _) fun blockSize => ?_
  split
  · exact quiet_composes.stop _
  · exact quiet_composes.bind (memNewBlock_quiet _ _) fun _ =>
      quiet_composes.bind (modify_quiet (fun _ => rfl) fun _ => rfl) fun _ => quiet_composes.pure _

theorem kfree_quiet (pointer : Nat) : Action.Keeps Quiet (kfree pointer) := by
  unfold kfree
  split
  · exact quiet_composes.pure ()
  · exact quiet_composes.bind (load_quiet _) fun _ =>
      quiet_composes.bind (store_quiet _ _) fun _ =>
        modify_quiet (fun _ => rfl) fun _ => rfl

theorem setupHeap_accounts : Action.Keeps (Accounts owed) setupHeap := by
  refine (accounts_composes owed).bind (allocMap_accounts _ _ _) fun _ => Quiet.keeps ?_
  exact quiet_composes.bind (modify_quiet (fun _ => rfl) fun _ => rfl) fun _ =>
    quiet_composes.bind (store_quiet _ _) fun _ => store_quiet _ _

theorem alignedAlloc_accounts (align size : Nat) :
    Action.Keeps (Accounts owed) (alignedAlloc align size) := by
  have hc := accounts_composes owed
  refine hc.bind (hc.read _) fun top => hc.bind ?_ fun _ =>
    hc.bind (Quiet.keeps (memFindBlock_quiet _ _)) fun block => ?_
  · unfold ensureHeap
    split
    · exact setupHeap_accounts
    · exact hc.pure ()
  · split
    · exact Quiet.keeps (takeBlock_quiet _)
    · exact Quiet.keeps (growHeap_quiet _ _)

theorem kmalloc_accounts (size : Nat) : Action.Keeps (Accounts owed) (kmalloc size) :=
  alignedAlloc_accounts 4 size

/-! ## Strings -/

theorem strlenLoop_quiet (str fuel len : Nat) : Action.Keeps Quiet (strlenLoop str fuel len) := by
  induction fuel generalizing len with
  | zero => exact quiet_composes.stop _
  | succ fuel ih =>
    refine quiet_composes.bind (loadByte_quiet _) fun c => ?_
    split
    · exact quiet_composes.pure _
    · exact ih _

theorem strncpyLoop_quiet (dst src num : Nat) : Action.Keeps Quiet (strncpyLoop dst src num) := by
  induction num generalizing dst src with
  | zero => exact quiet_composes.bind (loadByte_quiet _) fun _ => quiet_composes.pure _
  | succ num ih =>
    refine quiet_composes.bind (loadByte_quiet _) fun c => ?_
    split
    · exact quiet_composes.pure _
    · exact quiet_composes.bind (storeByte_quiet _ _) fun _ => ih _ _

theorem strncpy_quiet (dst src num : Nat) : Action.Keeps Quiet (strncpy dst src num) := by
  unfold strncpy
  split
  · exact quiet_composes.bind (strncpyLoop_quiet _ _ _) fun _ => storeByte_quiet _ _
  · exact quiet_composes.pure ()

theorem strdup_accounts (s : Nat) : Action.Keeps (Accounts owed) (strdup s) := by
  have hc := accounts_composes owed
  refine hc.bind (Quiet.keeps (strlenLoop_quiet _ _ _)) fun len =>
    hc.bind (kmalloc_accounts _) fun s2 => ?_
  split
  · exact hc.bind (Quiet.keeps (memcpy_quiet _ _ _)) fun _ => hc.pure _
  · exact hc.pure _

/-! ## The process -/

theorem ensureTempPage_accounts (page : Nat) :
    Action.Keeps (Accounts owed) (ensureTempPage page) := by
  unfold ensureTempPage
  split
  · exact (accounts_composes owed).bind (alignedAlloc_accounts _ _) fun _ =>
      Quiet.keeps (modify_quiet (fun _ => rfl) fun _ => rfl)
  · exact (accounts_composes owed).pure ()

theorem copyArgv_accounts (argvCopy argv argc : Nat) :
    Action.Keeps (Accounts owed) (copyArgv argvCopy argv argc) := by
  have hc := accounts_composes owed
  exact hc.rounds (fun _ _ => hc.bind (Quiet.keeps (load_quiet _)) fun _ =>
    hc.bind (strdup_accounts _) fun _ => Quiet.keeps (store_quiet _ _)) 0 _ ()

theorem currentDirectory_accounts : Action.Keeps (Accounts owed) currentDirectory := by
  have hc := accounts_composes owed
  exact hc.bind (getPage_accounts _ _ _) fun _ =>
    hc.bind (Quiet.keeps (load_quiet _)) fun _ => hc.pure _

theorem pushArg_quiet (argvCopy argvNew i ustackChar : Nat) :
    Action.Keeps Quiet (pushArg argvCopy argvNew i ustackChar) :=
  quiet_composes.bind (load_quiet _) fun _ =>
    quiet_composes.bind (strlenLoop_quiet _ _ _) fun _ =>
      quiet_composes.bind (strncpy_quiet _ _ _) fun _ =>
        quiet_composes.bind (store_quiet _ _) fun _ =>
          quiet_composes.bind (kfree_quiet _) fun _ => quiet_composes.pure _

theorem pushArgs_accounts (argvCopy argc : Nat) :
    Action.Keeps (Accounts owed) (pushArgs argvCopy argc) := by
  have hpointer : ∀ argvNew i ustackInt, Action.Keeps Quiet (pushPointer argvNew i ustackInt) :=
    fun _ _ _ => quiet_composes.bind (load_quiet _) fun _ =>
      quiet_composes.bind (store_quiet _ _) fun _ => quiet_composes.pure _
  refine (accounts_composes owed).bind (kmalloc_accounts _) fun argvNew => Quiet.keeps ?_
  exact quiet_composes.bind (quiet_composes.rounds (pushArg_quiet _ _) 0 _ _) fun _ =>
    quiet_composes.bind (quiet_composes.rounds (hpointer _) 0 _ _) fun _ =>
      quiet_composes.bind (store_quiet _ _) fun _ => store_quiet _ _

theorem mapCode_accounts (code size : Nat) : Action.Keeps (Accounts owed) (mapCode code size) :=
  (accounts_composes owed).bind (allocMap_accounts _ _ _) fun _ =>
    Quiet.keeps (quiet_composes.bind (memcpy_quiet _ _ _) fun _ => memset_quiet _ _ _)

/-- The entry of a directory. -/
theorem directoryEntry_spec {f : Nat} (hmod : f % 4096 = 0) (hlt : f < 2 ^ 32) :
    present (f ||| 1 ||| pageRw) = true ∧ frame (f ||| 1 ||| pageRw) = f := by
  rw [Nat.or_assoc]
  exact entry_spec hmod hlt (by decide) (by decide)

theorem fillDirectory_accounts (tempPage : Nat) {pdPhys : Nat} (hmod : pdPhys % 4096 = 0)
    (hlt : pdPhys < 2 ^ 32) (howed : owed pdPhys) :
    Action.Keeps (Accounts owed) (fillDirectory tempPage pdPhys) := by
  have hc := accounts_composes owed
  have hentry : ∀ virt, Action.Keeps (Accounts owed) (setEntry virt (pdPhys ||| 1 ||| pageRw)) := by
    refine fun virt => setEntry_accounts virt fun _ => ?_
    rw [(directoryEntry_spec hmod hlt).2]
    exact howed
  refine hc.bind (getPage_accounts _ _ _) fun p => hc.bind (hentry p) fun _ =>
    hc.bind (Quiet.keeps (memcpy_quiet _ _ _)) fun _ => hc.bind (hentry _) fun _ =>
      hc.rounds (fun i _ => setEntry_accounts _ fun hp => ?_) 0 _ ()
  cases hp

theorem fillDirectory_enters (tempPage : Nat) : Enters (fillDirectory tempPage 0) := by
  obtain ⟨hp, hzero⟩ := directoryEntry_spec (f := 0) rfl (by decide)
  have hc := accounts_composes fun _ => True
  refine Enters.bind_right (getPage_accounts _ _ _) fun p =>
    Enters.bind_left (setEntry_enters p hp hzero) fun _ =>
      hc.bind (Quiet.keeps (memcpy_quiet _ _ _)) fun _ =>
        hc.bind (setEntry_accounts _ fun _ => trivial) fun _ =>
          hc.rounds (fun i _ => setEntry_accounts _ fun _ => trivial) 0 _ ()

/-- What follows the directory enters frames of its own calls only. -/
theorem useDirectory_accounts (pdPhys process code size argvCopy argc : Nat) :
    Action.Keeps (Accounts owed) (do
      let previousPd ← currentDirectory
      pagingSwitchDirectory pdPhys
      mapCode code size
      mapStack
      pushArgs argvCopy argc
      pagingSwitchDirectory previousPd
      memset process 0#8 processSize
      store (wrap (process + 76)) pdPhys) := by
  have hc := accounts_composes owed
  exact hc.bind currentDirectory_accounts fun _ =>
    hc.bind (Quiet.keeps (switchDirectory_quiet _)) fun _ =>
      hc.bind (mapCode_accounts _ _) fun _ =>
        hc.bind (allocMap_accounts _ _ _) fun _ =>
          hc.bind (pushArgs_accounts _ _) fun _ =>
            hc.bind (Quiet.keeps (switchDirectory_quiet _)) fun _ =>
              Quiet.keeps (quiet_composes.bind (memset_quiet _ _ _) fun _ => store_quiet _ _)

theorem buildSpace_accounts (tempPage process code size argvCopy argc : Nat) :
    Action.Keeps (Accounts owed) (buildSpace tempPage process code size argvCopy argc) := by
  refine pmmAlloc_accounts (fun pdPhys hmod hlt => ?_) fun _ => ?_
  · refine (accounts_composes _).bind (fillDirectory_accounts _ hmod hlt (Or.inr fun _ => ?_))
      fun _ => useDirectory_accounts _ _ _ _ _ _
    exact ⟨Nat.le_refl _, Nat.lt_add_of_pos_right (by decide)⟩
  · exact Enters.bind_left (fillDirectory_enters _) fun _ =>
      useDirectory_accounts _ _ _ _ _ _

theorem procRunCode_accounts (code size argv argc : Nat) :
    Action.Keeps (Accounts owed) (procRunCode code size argv argc) := by
  have hc := accounts_composes owed
  exact hc.bind (hc.read _) fun _ => hc.bind (ensureTempPage_accounts _) fun _ =>
    hc.bind (hc.read _) fun _ => hc.bind (kmalloc_accounts _) fun _ =>
      hc.bind (copyArgv_accounts _ _ _) fun _ => hc.bind (kmalloc_accounts _) fun _ =>
        hc.bind (alignedAlloc_accounts _ _) fun _ =>
          hc.bind (buildSpace_accounts _ _ _ _ _ _) fun _ => hc.pure _

/-! ## The three entry points -/

inductive Job where
  | getPage (virt flags : Nat)
  | alignedAlloc (align size : Nat)
  | procRunCode (code size argv argc : Nat)

namespace Job

def action : Job → Code Nat
  | getPage virt flags => pagingGetPage virt true flags
  | alignedAlloc align size => Proc.alignedAlloc align size
  | procRunCode code size argv argc => Proc.procRunCode code size argv argc

/-- How the run from `w` ends. -/
def outcome (job : Job) (w : World) : Except Stop Nat × World :=
  job.action.run { w with journal := [] }

/-- What the run from `w` does, also when it stops. -/
def events (job : Job) (w : World) : List Event := (job.outcome w).2.journal

def Returns (job : Job) (w : World) : Prop := (job.outcome w).1.isOk = true

theorem accounts (job : Job) (owed : Nat → Prop) : Action.Keeps (Accounts owed) job.action := by
  cases job with
  | getPage virt flags => exact getPage_accounts virt true flags
  | alignedAlloc align size => exact alignedAlloc_accounts align size
  | procRunCode code size argv argc => exact procRunCode_accounts code size argv argc

/-- The journal of a run is an account, and a marked one if the run returns. -/
theorem events_account (job : Job) {w : World} (hs : Safe w.pmm) :
    Account (job.events w) (fun _ => False) ∧ (job.Returns w → Marked (job.events w)) := by
  obtain ⟨J, hJ, h⟩ := job.accounts (fun _ => False) { w with journal := [] }
  obtain ⟨-, haccount, hmarked⟩ := h hs
  have hevents : job.events w = J := hJ
  rw [hevents]
  exact ⟨haccount, hmarked⟩

end Job

/-- **Exhaustion**: a run in which every call of the allocator is served is sound, and
a run that returns is sound in no other case. -/
theorem exhaustion_sound_iff (job : Job) (w : World) (hs : Safe w.pmm) :
    (Served (job.events w) → Sound (job.events w)) ∧
      (job.Returns w → (Sound (job.events w) ↔ Served (job.events w))) := by
  obtain ⟨haccount, hmarked⟩ := job.events_account hs
  refine ⟨sound_of_served haccount, fun hret => ⟨fun hsound => ?_, sound_of_served haccount⟩⟩
  exact served_of_marked (hmarked hret) hsound.distinct

/-! ## A table from an empty allocator -/

/-- A quiet end leaves the journal as it is. -/
theorem journal_bind {x : Code α} {f : α → Code β} (hf : ∀ a, Action.Keeps Quiet (f a))
    (w : World) : ((x >>= f).run w).2.journal = (x.run w).2.journal := by
  match hrun : x.run w with
  | (.ok a, w') =>
    rw [Action.bind_ok hrun]
    exact (hf a w').1
  | (.error e, w') => rw [Action.bind_error hrun]

/-- A table is made by one call and one entry. -/
theorem getPage_events {w : World} {virt flags addr : Nat} {p : Pmm.State}
    (h : w.paging.Recursive) (hv : virt % 0x1000 = 0) (hi : directoryIndex virt < 1024)
    (hp : present (w.paging.pde (directoryIndex virt)) = false)
    (halloc : pmmAllocPage w.pmm = .ok (addr, p)) :
    (Job.getPage virt flags).events w =
      [.call w.pmm .page, .entry (addr ||| 1 ||| pageRw ||| pageFlags flags)] := by
  have hload : (load (0xFFFFF000 + 4 * directoryIndex virt)).run { w with journal := [] } =
      (.ok (w.paging.pde (directoryIndex virt)), { w with journal := [] }) :=
    congrArg (·, _) (load_directory h hi)
  have hcall : (pmmAlloc .page).run { w with journal := [] } = (.ok addr, _) := pmmAlloc_run halloc
  have hentry : (setEntry (0xFFFFF000 + 4 * directoryIndex virt)
      (addr ||| 1 ||| pageRw ||| pageFlags flags)).run _ = (.ok (), _) :=
    setEntry_run (w := { w with
      paging := { w.paging with pmm := p }
      journal := [.call w.pmm .page] }) (store_directory (s := { w.paging with pmm := p }) h hi _)
  change ((pagingGetPage virt true flags).run { w with journal := [] }).2.journal = _
  unfold pagingGetPage pagingGetPageSelectDir
  rw [if_neg (not_not_intro hv), Action.bind_ok hload, journal_bind fun _ =>
    quiet_composes.bind (load_quiet _) fun _ => quiet_composes.pure _]
  unfold ensureTable
  rw [hp]
  change ((createTable (directoryIndex virt) flags 0xFFFFF000).run _).2.journal = _
  unfold createTable
  rw [Action.bind_ok hcall, journal_bind fun _ => memset_quiet _ _ _]
  exact congrArg (·.2.journal) hentry

/-- A directory with its recursive entry and no other. -/
def bareDirectory : Mem := write32 (fun _ => 0#8) (0x1000 + 4 * 1023) 0x1003

def bare (p : Pmm.State) : World where
  paging := { pmm := p, mem := bareDirectory, cr3 := 0x1000 }
  bottom := 0
  top := 0
  usedMemory := 0
  tempPage := 0
  journal := []

theorem bareDirectory_recursive : Machine.Recursive bareDirectory 0x1000 :=
  ⟨by decide, by decide, by decide, by decide, by decide⟩

theorem bare_events {p q : Pmm.State} {addr : Nat} (halloc : pmmAllocPage p = .ok (addr, q)) :
    (Job.getPage 0 0).events (bare p) =
      [.call p .page, .entry (addr ||| 1 ||| pageRw ||| pageFlags 0)] := by
  have habsent : present (Machine.pde bareDirectory 0x1000 0) = false := by decide
  exact getPage_events (w := bare p) bareDirectory_recursive rfl (by decide) habsent halloc

/-- One table, from the first of 32 free blocks. -/
theorem exhaustion_sound_iff_row :
    Safe freeRow ∧ Served ((Job.getPage 0 0).events (bare freeRow)) ∧
      Sound ((Job.getPage 0 0).events (bare freeRow)) := by
  have hsafe : Safe freeRow := ⟨by decide, by decide⟩
  have hserved : Served ((Job.getPage 0 0).events (bare freeRow)) := by
    rw [bare_events freeRow_alloc]
    intro p r hr
    rcases List.mem_cons.mp hr with heq | hr
    · obtain ⟨rfl, rfl⟩ := Event.call.inj heq
      refine Or.inr ?_
      rw [answer_of_run (r := .page) freeRow_alloc]
      decide
    · exact nomatch List.mem_singleton.mp hr
  exact ⟨hsafe, hserved, (exhaustion_sound_iff (.getPage 0 0) (bare freeRow) hsafe).1 hserved⟩

/-- Four blocks are left, in a word that the search does not reach. -/
def exhausted : Pmm.State where
  bitmap := fun i => if i = 128 then 0xFFFFFFF0#32 else 0xFFFFFFFF#32
  memSize := 4100 * 4096
  usedBlocks := 4096
  maxBlocks := 4100
  kernelEnd := 0x200000
  strayed := false

theorem exhausted_alloc : pmmAllocPage exhausted = .ok (0, exhausted) := by
  have hfind : mmapFindFree exhausted = 0 := by decide +kernel
  have hroom : ¬ wsub exhausted.maxBlocks exhausted.usedBlocks ≤ 0 :=
    show ¬ wsub 4100 4096 ≤ 0 by decide
  rw [pmmAllocPage, if_neg hroom, hfind]
  rfl

/-- The allocator has no page, and frame 0 is entered for the table. -/
theorem getPage_enters_null :
    Safe exhausted ∧ ¬ Sound ((Job.getPage 0 0).events (bare exhausted)) := by
  refine ⟨⟨by decide, by decide⟩, fun hsound => ?_⟩
  have hdistinct := hsound.distinct
  rw [bare_events exhausted_alloc] at hdistinct
  refine (List.pairwise_cons.mp hdistinct).1 _ (List.mem_singleton_self _) ?_ (by decide) ?_
  · rintro (hnone | hne)
    · cases hnone
    · exact hne (answer_of_run (r := .page) exhausted_alloc)
  · exact ⟨by decide, by decide⟩

end Proc
end Medusa
