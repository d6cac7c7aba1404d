import Mathlib.Data.Set.Basic
import Medusa.Libc.String
import Medusa.Paging.Defs

/-!
# Looking up and editing entries

What each access of `paging.c` does to the directory and the tables, in terms of
their entries.  The functions of later modules are followed through these
lemmas; addresses in the window and physical memory do not appear again.
-/

namespace Medusa
namespace Paging

open Machine Kernel Pmm

namespace State

/-- Entry `i` of the directory. -/
def pde (s : State) (i : Nat) : Nat := Machine.pde s.mem s.cr3 i

/-- Entry `j` of table `i`. -/
def pte (s : State) (i j : Nat) : Nat := Machine.pte s.mem s.cr3 i j

def Recursive (s : State) : Prop := Machine.Recursive s.mem s.cr3

def Ready (s : State) : Prop := Machine.Ready s.mem s.cr3

def Unused (s : State) (f : Nat) : Prop := Machine.Unused s.mem s.cr3 f

def translate (s : State) (v : Nat) : Option Nat := Machine.translate s.mem s.cr3 v

end State

theorem State.Ready.recursive {s : State} (h : s.Ready) : s.Recursive := h.toRecursive

variable {s t : State} {i j virt flags : Nat}

/-! ## Indices -/

theorem directoryIndex_eq (v : Nat) : directoryIndex v = v / 2 ^ 22 := Nat.shiftRight_eq_div_pow _ _

theorem tableIndex_eq (v : Nat) : tableIndex v = v / 2 ^ 12 % 2 ^ 10 := by
  rw [tableIndex, Nat.shiftRight_eq_div_pow]
  exact Nat.and_two_pow_sub_one_eq_mod _ 10

theorem tableIndex_lt (v : Nat) : tableIndex v < 1024 := by
  rw [tableIndex_eq]
  omega

theorem directoryIndex_lt {v : Nat} (h : v < 0xFFC00000) : directoryIndex v < 1023 := by
  rw [directoryIndex_eq]
  omega

theorem tableAddr_eq (hi : i < 1024) : tableAddr i = 0xFFC00000 + 4096 * i := by
  rw [tableAddr, Nat.shiftLeft_eq, wrap_of_lt (by omega)]
  omega

/-! ## Accesses through the window -/

theorem load_directory (h : s.Recursive) (hi : i < 1024) :
    load s (0xFFFFF000 + 4 * i) = .ok (s.pde i) := by
  rw [load, h.translate_directory hi]
  rfl

theorem store_directory (h : s.Recursive) (hi : i < 1024) (v : Nat) :
    store s (0xFFFFF000 + 4 * i) v =
      .ok { s with mem := write32 s.mem (s.cr3 + 4 * i) v } := by
  rw [store, h.translate_directory hi]

theorem load_entry (h : s.Recursive) (hi : i < 1024) (hp : present (s.pde i) = true)
    (hj : j < 1024) : load s (tableAddr i + 4 * j) = .ok (s.pte i j) := by
  rw [load, tableAddr_eq hi, h.translate_table hi hp (by omega)]
  rfl

theorem store_entry (h : s.Recursive) (hi : i < 1024) (hp : present (s.pde i) = true)
    (hj : j < 1024) (v : Nat) :
    store s (tableAddr i + 4 * j) v =
      .ok { s with mem := write32 s.mem (frame (s.pde i) + 4 * j) v } := by
  rw [store, tableAddr_eq hi, h.translate_table hi hp (by omega)]
  rfl

theorem memset_succ (buf : Nat) (value : BitVec 8) (size : Nat) :
    memset s buf value (size + 1) =
      (memset s buf value size).bind fun t => storeByte t (wrap (buf + size)) value := by
  rw [memset, List.range_succ, List.foldlM_append]
  simp only [List.foldlM_cons, List.foldlM_nil, bind_pure]
  rfl

/-- A buffer that stays mapped to `[p, p + size)` while it is filled is filled
there. -/
theorem memset_eq {buf p size : Nat} {v : BitVec 8}
    (hwin : ∀ (m : Mem) k, k < size → (∀ x, x < p ∨ p + size ≤ x → m x = s.mem x) →
      Machine.translate m s.cr3 (wrap (buf + k)) = some (p + k)) :
    memset s buf v size = .ok { s with mem := Libc.memset s.mem p v size } := by
  have hrounds : ∀ n, n ≤ size →
      memset s buf v n = .ok { s with mem := Libc.memset s.mem p v n } := by
    intro n
    induction n with
    | zero =>
      intro _
      rw [Libc.memset_zero]
      rfl
    | succ n ih =>
      intro hn
      have hto := hwin (Libc.memset s.mem p v n) n (by omega)
        fun x hx => Libc.memset_outside (by omega)
      rw [memset_succ, ih (by omega)]
      simp only [Except.bind, storeByte]
      rw [hto, Libc.memset_succ]
  exact hrounds size (Nat.le_refl size)

/-- Clearing a table through the window clears its frame. -/
theorem memset_table (h : s.Recursive) (hi : i < 1024) (hp : present (s.pde i) = true)
    (hne : frame (s.pde i) ≠ s.cr3) :
    memset s (tableAddr i) 0#8 4096 =
      .ok { s with mem := Libc.memset s.mem (frame (s.pde i)) 0#8 4096 } := by
  refine memset_eq fun m k hk hm => ?_
  have hmod := (frame_spec (pde_lt s.mem s.cr3 i)).1
  have hapart := pages_apart hmod h.aligned hne
  -- the frame is not the directory, so the window still stands
  have hdir : Agree s.mem m s.cr3 (s.cr3 + 4096) := by
    intro x hlo hhi
    refine hm x ?_
    simp only [State.pde]
    omega
  have hwin := (h.congr hdir).translate_table hi (by rw [pde_congr hdir hi]; exact hp) hk
  rw [pde_congr hdir hi] at hwin
  rw [tableAddr_eq hi, wrap_of_lt (by omega)]
  exact hwin

/-! ## Edits -/

/-- `t` is `s` after edits of the pages numbered in `R`.  Tables that were there
stay where they are, and a table that was made for a page of `R` is blank. -/
structure Edits (s t : State) (R : Set Nat) (flags : Nat) : Prop where
  cr3 : t.cr3 = s.cr3
  ready : t.Ready
  dirs : ∀ i, i < 1024 → present (s.pde i) = true → t.pde i = s.pde i
  created : ∀ i, i < 1024 → present (s.pde i) = false → present (t.pde i) = true →
    large (t.pde i) = large flags ∧ ∃ p ∈ R, p / 1024 = i
  kept : ∀ i j, i < 1023 → j < 1024 → 1024 * i + j ∉ R → present (s.pde i) = true →
    t.pte i j = s.pte i j
  blank : ∀ i j, i < 1023 → j < 1024 → 1024 * i + j ∉ R → present (s.pde i) = false →
    present (t.pde i) = true → t.pte i j = 0

namespace Edits

variable {u : State} {R R' : Set Nat}

theorem refl (h : s.Ready) : Edits s s ∅ flags where
  cr3 := rfl
  ready := h
  dirs := fun _ _ _ => rfl
  created := fun i _ hp hp' => by rw [hp] at hp'; simp at hp'
  kept := fun _ _ _ _ _ _ => rfl
  blank := fun i _ _ _ _ hp hp' => by rw [hp] at hp'; simp at hp'

theorem mono (h : Edits s t R flags) (hR : R ⊆ R') : Edits s t R' flags where
  cr3 := h.cr3
  ready := h.ready
  dirs := h.dirs
  created := by
    intro i hi hp hp'
    obtain ⟨hlarge, p, hpR, hpi⟩ := h.created i hi hp hp'
    exact ⟨hlarge, p, hR hpR, hpi⟩
  kept := fun i j hi hj hout => h.kept i j hi hj fun hin => hout (hR hin)
  blank := fun i j hi hj hout => h.blank i j hi hj fun hin => hout (hR hin)

theorem trans (h : Edits s t R flags) (h' : Edits t u R' flags) : Edits s u (R ∪ R') flags where
  cr3 := h'.cr3.trans h.cr3
  ready := h'.ready
  dirs := by
    intro i hi hp
    have hst := h.dirs i hi hp
    rw [h'.dirs i hi (by rw [hst]; exact hp), hst]
  created := by
    intro i hi hp hp'
    cases hpt : present (t.pde i) with
    | true =>
      obtain ⟨hlarge, p, hpR, hpi⟩ := h.created i hi hp hpt
      rw [h'.dirs i hi hpt]
      exact ⟨hlarge, p, Or.inl hpR, hpi⟩
    | false =>
      obtain ⟨hlarge, p, hpR, hpi⟩ := h'.created i hi hpt hp'
      exact ⟨hlarge, p, Or.inr hpR, hpi⟩
  kept := by
    intro i j hi hj hout hp
    have hst := h.dirs i (by omega) hp
    rw [h'.kept i j hi hj (fun hin => hout (Or.inr hin)) (by rw [hst]; exact hp),
      h.kept i j hi hj (fun hin => hout (Or.inl hin)) hp]
  blank := by
    intro i j hi hj hout hp hp'
    cases hpt : present (t.pde i) with
    | true =>
      rw [h'.kept i j hi hj (fun hin => hout (Or.inr hin)) hpt]
      exact h.blank i j hi hj (fun hin => hout (Or.inl hin)) hp hpt
    | false => exact h'.blank i j hi hj (fun hin => hout (Or.inr hin)) hpt hp'

end Edits

/-- A store into one entry of a table. -/
theorem edits_store (h : s.Ready) (hi : i < 1023) (hp : present (s.pde i) = true)
    (hj : j < 1024) (v flags : Nat) {p : Pmm.State} :
    Edits s { s with pmm := p, mem := write32 s.mem (frame (s.pde i) + 4 * j) v }
      {1024 * i + j} flags := by
  have hdir := h.agree_outside hi hp (fun x hx => table_write_outside hj v hx)
  have hpde : ∀ k, k < 1024 → Machine.pde (write32 s.mem (frame (s.pde i) + 4 * j) v) s.cr3 k =
      s.pde k := fun k hk => pde_congr hdir hk
  refine ⟨rfl, h.congr hdir, fun k hk _ => hpde k hk, ?_, ?_, ?_⟩
  · intro k hk hpk hpk'
    rw [State.pde, hpde k hk, hpk] at hpk'
    simp at hpk'
  · intro k l hk hl hout hpk
    by_cases hki : k = i
    · rw [hki] at hout ⊢
      exact h.write_pte_same hi hp hj v fun hlj => hout (by rw [hlj]; rfl)
    · exact h.pte_other hi hp (fun x hx => table_write_outside hj v hx) hk hl hki hpk
  · intro k l hk _ _ hpk hpk'
    rw [State.pde, hpde k (by omega), hpk] at hpk'
    simp at hpk'

/-! ## The entries the code writes -/

theorem pageFlags_lt (flags : Nat) : pageFlags flags < 4096 := by
  have hmod : pageFlags flags = flags % 2 ^ 12 := Nat.and_two_pow_sub_one_eq_mod _ 12
  omega

/-- The low bits of a directory entry. -/
theorem tableBits (flags : Nat) :
    1 ||| pageRw ||| pageFlags flags < 4096 ∧
      present (1 ||| pageRw ||| pageFlags flags) = true ∧
      large (1 ||| pageRw ||| pageFlags flags) = large flags := by
  refine ⟨Nat.or_lt_two_pow (n := 12) (by decide) (pageFlags_lt flags), ?_, ?_⟩
  · rw [present_eq, Nat.testBit_or]
    rfl
  · rw [large_eq, large_eq, Nat.testBit_or, pageFlags, Nat.testBit_and]
    cases flags.testBit 7 <;> rfl

/-- The low bits of a page entry. -/
theorem pageBits (flags : Nat) :
    1 ||| pageFlags flags < 4096 ∧ present (1 ||| pageFlags flags) = true := by
  refine ⟨Nat.or_lt_two_pow (n := 12) (by decide) (pageFlags_lt flags), ?_⟩
  rw [present_eq, Nat.testBit_or]
  rfl

/-! ## Looking up a page -/

theorem getPage_absent (h : s.Recursive) (hv : virt % 0x1000 = 0)
    (hi : directoryIndex virt < 1024) (hp : present (s.pde (directoryIndex virt)) = false) :
    pagingGetPage s virt false flags = .ok (0, s) := by
  rw [pagingGetPage, pagingGetPageSelectDir, if_neg (not_not_intro hv)]
  simp only [bind, Except.bind, hp, Bool.and_false, Bool.false_eq_true, if_false,
    load_directory h hi]
  rfl

theorem getPage_present (h : s.Recursive) (hv : virt % 0x1000 = 0)
    (hi : directoryIndex virt < 1024) (hp : present (s.pde (directoryIndex virt)) = true)
    (create : Bool) :
    pagingGetPage s virt create flags =
      .ok (tableAddr (directoryIndex virt) + 4 * tableIndex virt, s) := by
  rw [pagingGetPage, pagingGetPageSelectDir, if_neg (not_not_intro hv)]
  simp only [bind, Except.bind, hp, Bool.not_true, Bool.false_and, Bool.false_eq_true, if_false,
    load_directory h hi, if_true]
  rfl

theorem getPage_create (h : s.Recursive) (hv : virt % 0x1000 = 0)
    (hi : directoryIndex virt < 1024) (hp : present (s.pde (directoryIndex virt)) = false)
    (hnew : createTable s (directoryIndex virt) flags 0xFFFFF000 = .ok t) (ht : t.Recursive)
    (hpt : present (t.pde (directoryIndex virt)) = true) :
    pagingGetPage s virt true flags =
      .ok (tableAddr (directoryIndex virt) + 4 * tableIndex virt, t) := by
  rw [pagingGetPage, pagingGetPageSelectDir, if_neg (not_not_intro hv)]
  simp only [bind, Except.bind, load_directory h hi, hp, Bool.not_false, Bool.and_self, if_true,
    hnew, load_directory ht hi, hpt]
  rfl

/-! ## Making a table -/

/-- Cleared memory reads as zero entries. -/
theorem read32_memset {m : Mem} {f n l : Nat} (hl : 4 * l + 4 ≤ n) :
    read32 (Libc.memset m f 0#8 n) (f + 4 * l) = 0 := by
  have hzero : Agree (fun _ => 0#8) (Libc.memset m f 0#8 n) (f + 4 * l) (f + 4 * l + 4) := by
    intro x hlo hhi
    obtain ⟨o, rfl⟩ := Nat.exists_eq_add_of_le (show f ≤ x by omega)
    exact Libc.memset_apply (by omega)
  exact (read32_congr hzero).trans rfl

/-- Once its frame is chosen, a table is made by one store and one `memset`. -/
theorem createTable_eq (h : s.Ready) (hi : i < 1023) {f e : Nat} {p : Pmm.State}
    (halloc : pmmAllocPage s.pmm = .ok (f, p))
    (he : f ||| 1 ||| pageRw ||| pageFlags flags = e) (hlt : e < 2 ^ 32) (hframe : frame e = f)
    (hpe : present e = true) (hfree : s.Unused f) :
    createTable s i flags 0xFFFFF000 =
      .ok (State.mk p (Libc.memset (write32 s.mem (s.cr3 + 4 * i) e) f 0#8 4096) s.cr3) := by
  have hself : Machine.pde (write32 s.mem (s.cr3 + 4 * i) e) s.cr3 i = e := pde_write_self hlt
  have hne : f ≠ s.cr3 := by
    have hslot := hfree 1023 (by decide) h.present
    rw [h.self] at hslot
    exact hslot.symm
  have hready : (State.mk p (write32 s.mem (s.cr3 + 4 * i) e) s.cr3).Ready :=
    h.enter hi hlt (hframe.symm ▸ hfree)
  have hclear := memset_table (s := State.mk p (write32 s.mem (s.cr3 + 4 * i) e) s.cr3)
    hready.recursive (i := i) (by omega) (by rw [State.pde, hself]; exact hpe)
    (by rw [State.pde, hself, hframe]; exact hne)
  rw [State.pde, hself, hframe] at hclear
  have hstore := store_directory (s := { s with pmm := p }) (i := i) h.recursive (by omega) e
  rw [createTable, halloc]
  simp only [bind, Except.bind, he, hstore]
  exact hclear

/-- A table made from an unused frame is blank and disturbs nothing. -/
theorem createTable_edits (h : s.Ready) (hi : i < 1023) (hp : present (s.pde i) = false)
    {f q : Nat} {p : Pmm.State} (halloc : pmmAllocPage s.pmm = .ok (f, p)) (hfree : s.Unused f)
    (hq : q / 1024 = i) (flags : Nat) :
    ∃ t, createTable s i flags 0xFFFFF000 = .ok t ∧ t.pmm = p ∧ Edits s t {q} flags ∧
      present (t.pde i) = true ∧ ∀ l, l < 1024 → t.pte i l = 0 := by
  obtain ⟨hf, hlt⟩ := pmmAllocPage_aligned halloc
  obtain ⟨hbits, hpbits, hlbits⟩ := tableBits flags
  obtain ⟨he, hframe, -⟩ := frame_or hf hlt hbits
  have hpe := (present_or hf hlt hbits).trans hpbits
  have hle := (large_or hf hlt hbits).trans hlbits
  have hassoc : f ||| 1 ||| pageRw ||| pageFlags flags =
      f ||| (1 ||| pageRw ||| pageFlags flags) := by
    rw [Nat.or_assoc, Nat.or_assoc, Nat.or_assoc]
  generalize f ||| (1 ||| pageRw ||| pageFlags flags) = e at *
  have hrun := createTable_eq h hi halloc hassoc he hframe hpe hfree
  have hfree' : Machine.Unused s.mem s.cr3 (frame e) := hframe.symm ▸ hfree
  have hout : ∀ x, x < frame e ∨ frame e + 4096 ≤ x →
      Libc.memset (write32 s.mem (s.cr3 + 4 * i) e) f 0#8 4096 x =
        write32 s.mem (s.cr3 + 4 * i) e x := by
    rw [hframe]
    exact fun x hx => Libc.memset_outside hx
  have hzero := fun l (hl : l < 1024) =>
    read32_memset (m := write32 s.mem (s.cr3 + 4 * i) e) (f := f) (n := 4096) (l := l) (by omega)
  generalize Libc.memset (write32 s.mem (s.cr3 + 4 * i) e) f 0#8 4096 = m' at *
  have hpdei := h.create_pde hi he hpe hfree' hout
  have hpde := fun {k : Nat} => h.create_pde_ne (k := k) hi he hpe hfree' hout
  have hblank : ∀ l, l < 1024 → Machine.pte m' s.cr3 i l = 0 := by
    intro l hl
    rw [Machine.pte, hpdei, hframe]
    exact hzero l hl
  -- an entry present before is not the new one, and one that appears is
  have hother : ∀ {k : Nat}, present (s.pde k) = true → k ≠ i := by
    intro k hpk hki
    rw [hki, hp] at hpk
    simp at hpk
  have hnew : ∀ {k : Nat}, k < 1024 → present (s.pde k) = false →
      present (Machine.pde m' s.cr3 k) = true → k = i := by
    intro k hk hpk hpk'
    by_contra hki
    rw [hpde hk hki] at hpk'
    rw [State.pde, hpk'] at hpk
    simp at hpk
  refine ⟨State.mk p m' s.cr3, hrun, rfl, ⟨rfl, h.create_ready hi he hpe hfree' hout,
    fun k hk hpk => hpde hk (hother hpk), ?_,
    fun k l hk hl _ hpk => h.create_pte hi he hpe hfree' hout hk hl (hother hpk) hpk, ?_⟩, ?_,
    hblank⟩
  · intro k hk hpk hpk'
    rw [hnew hk hpk hpk', State.pde, hpdei]
    exact ⟨hle, q, rfl, hq⟩
  · intro k l hk hl _ hpk hpk'
    rw [hnew (by omega) hpk hpk']
    exact hblank l hl
  · rw [State.pde, hpdei]
    exact hpe

end Paging
end Medusa
