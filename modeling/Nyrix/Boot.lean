import Nyrix.PmmAllocatable
import Nyrix.PagingMap

/-!
# The memory part of kernel_main

`pmm_init`, `paging_init_full` and `paging_map_framebuffer` run one after the other on the
same memory. The allocator reserves pages up to the end of its bitmap only; the page tables
stand at fixed addresses above it.
-/

namespace Boot

open ByteMemory PackedBits PageTable Multiboot Pmm Paging

/-- What the framebuffer tag says about the extent of the framebuffer. -/
structure Framebuffer where
  addr : BitVec 64
  pitch : BitVec 32
  height : BitVec 32

def Framebuffer.size (fb : Framebuffer) : BitVec 64 := fb.pitch.setWidth 64 * fb.height.setWidth 64

structure Kernel where
  pmm : Pmm.State
  paging : Paging.State

/-- From the end of the tag loop to the call of `gfx_init`: `mmapAddr` is 0 when there is
no map. -/
def kernelMain (fuel kernelEnd idtEntries mmapAddr mmapLength : Nat) (fb : Option Framebuffer)
    (mem : Mem) : Option Kernel :=
  let pmm := if mmapAddr = 0 then some (.boot mem)
    else pmmInit fuel kernelEnd mmapAddr mmapLength (.boot mem)
  pmm.bind fun pmm =>
    (pagingInitFull fuel idtEntries pmm.gMmapAddr pmm.gMmapLength (.boot pmm.mem)).map fun paging =>
      let paging := match fb with
        | some fb => pagingMapFramebuffer fb.addr fb.size paging
        | none => paging
      ⟨{ pmm with mem := paging.mem }, paging⟩

/-- The frames the paging code uses: the directory, the first table, and the tables taken
from the bump pointer. -/
def UsedByPaging (s : Paging.State) (a : Nat) : Prop :=
  a = s.pageDirectory ∨ a = 0x201000 ∨ 0x202000 ≤ a ∧ a < s.nextPt

/-- Calls that free outstanding pages only; `out` lists these. -/
def Disciplined (s : Pmm.State) (out : List Nat) : List Op → Prop
  | [] => True
  | .allocPage :: ops =>
    Disciplined (pmmAllocPage s).2
      (if (pmmAllocPage s).1 = 0 then out else (pmmAllocPage s).1 :: out) ops
  | .freePage a :: ops => a ∈ out ∧ Disciplined (pmmFreePage a s) (out.erase a) ops
  | .setEarlyAlloc _ :: _ => False

/-- No client of the page allocator is ever given a frame of the page tables. -/
def KeepsTables (k : Kernel) : Prop :=
  ∀ ops, Disciplined k.pmm [] ops →
    ∀ a ∈ results k.pmm ops, a ≠ 0 → ¬UsedByPaging k.paging a

theorem disciplined_replicate (n : Nat) (s : Pmm.State) (out : List Nat) :
    Disciplined s out (List.replicate n .allocPage) := by
  induction n generalizing s out with
  | zero => trivial
  | succ n ih => exact ih _ _

/-- An allocator with no pages returns nothing, and a disciplined client has nothing to
give back to it. -/
theorem results_of_empty {s : Pmm.State} (h : searchEnd s = 0) (ops : List Op)
    (hd : Disciplined s [] ops) : ∀ a ∈ results s ops, a = 0 := by
  induction ops with
  | nil =>
    intro a ha
    cases ha
  | cons op ops ih =>
    cases op with
    | setEarlyAlloc val => exact hd.elim
    | freePage a => exact absurd hd.1 List.not_mem_nil
    | allocPage =>
      have hcall : pmmAllocPage s = (0, s) := by
        obtain ⟨page, hlt, _⟩ | ⟨_, hnone⟩ := pmmAllocPage_cases s
        · omega
        · exact hnone
      simp only [Disciplined, hcall, if_true] at hd
      intro a ha
      simp only [results, step, hcall, Option.toList_some, List.singleton_append,
        List.mem_cons] at ha
      obtain rfl | ha := ha
      · rfl
      · exact ih hd a ha

section Boot

variable {fuel kernelEnd idtEntries mmapAddr mmapLength : Nat} {fb : Option Framebuffer}
  {mem : Mem} {k : Kernel}

theorem kernelMain_cases
    (h : kernelMain fuel kernelEnd idtEntries mmapAddr mmapLength fb mem = some k) :
    ∃ pmm, (if mmapAddr = 0 then some (.boot mem)
        else pmmInit fuel kernelEnd mmapAddr mmapLength (.boot mem)) = some pmm ∧
      k.pmm = { pmm with mem := k.paging.mem } ∧
      (∃ slots mapped, Rep k.paging slots mapped) ∧ Frame 0x200000 0x401000 pmm.mem k.paging.mem := by
  simp only [kernelMain, Option.bind_eq_some_iff, Option.map_eq_some_iff] at h
  obtain ⟨pmm, hpmm, paging, hpaging, hk⟩ := h
  obtain ⟨slots, mapped, hrep, hframe⟩ := pagingInitFull_rep rfl hpaging
  have hdir : paging.pageDirectory ≠ 0 := by
    rw [hrep.directory]
    decide
  refine ⟨pmm, hpmm, by rw [← hk], ?_⟩
  cases fb with
  | none =>
    rw [← hk]
    exact ⟨⟨slots, mapped, hrep⟩, hframe⟩
  | some fb =>
    obtain ⟨slots', _, hrep', hframe'⟩ :=
      pagingMapFramebuffer_maps fb.addr fb.size hdir slots mapped hrep
    rw [← hk]
    exact ⟨⟨slots', _, hrep'⟩, frame_trans hframe hframe'⟩

/-- With the bitmap below 0x200000 the frame of the page directory is free after boot. -/
theorem directory_clear (hmap : mmapAddr ≠ 0) (hend : kernelEnd + 131072 ≤ 0x200000)
    (h : kernelMain fuel kernelEnd idtEntries mmapAddr mmapLength fb mem = some k) :
    searchEnd k.pmm = 1048575 ∧ bitmapTest k.pmm 512 = false ∧ k.paging.pageDirectory = 0x200000 := by
  obtain ⟨pmm, hpmm, hk, ⟨slots, mapped, hrep⟩, hframe⟩ := kernelMain_cases h
  rw [if_neg hmap] at hpmm
  have hspec := pmmInit_spec hpmm
  have hclear : bitmapTest pmm 512 = false := by
    refine (pmmInit_clear_iff hpmm (by decide)).mpr ⟨?_, .inl (by decide)⟩
    simp only [kernelPages, reservedPages, pageSize]
    omega
  refine ⟨?_, ?_, hrep.directory⟩
  · simp only [searchEnd, hk, hspec.earlyAlloc, hspec.totalPages]
    exact if_neg Bool.false_ne_true
  · have hsep : Sep 0x200000 0x401000 (wordOf pmm.bitmap 512) 4 := by
      rw [hspec.bitmap]
      exact sep_of_ge (by simp only [wordOf]; omega) (by decide)
    rw [hk]
    simp only [bitmapTest] at hclear ⊢
    rw [testBit_frame hframe hsep, hclear]

/-- On a machine with a memory map enough calls of `pmm_alloc_page` return the page
directory itself. -/
theorem directory_handed_out (hmap : mmapAddr ≠ 0) (hend : kernelEnd + 131072 ≤ 0x200000)
    (h : kernelMain fuel kernelEnd idtEntries mmapAddr mmapLength fb mem = some k) :
    ∃ n, k.paging.pageDirectory ∈ results k.pmm (List.replicate n .allocPage) := by
  obtain ⟨hsearch, hclear, hdir⟩ := directory_clear hmap hend h
  obtain ⟨n, hn⟩ := alloc_reaches k.pmm (by omega) (by omega) hclear
  rw [hdir]
  exact ⟨n, hn⟩

theorem kernelMain_returns {n : Nat} (hfit : MapFits mmapAddr (entrySize * n))
    (hidt : IdtFits idtEntries) (hmap : mmapAddr ≠ 0) :
    ∃ fuel k, kernelMain fuel kernelEnd idtEntries mmapAddr (entrySize * n) fb mem = some k := by
  have hlt : mmapAddr + entrySize * n < 4294967296 := by
    simp only [MapFits] at hfit
    omega
  obtain ⟨f₁, pmm, h₁⟩ := pmmInit_terminates hfit kernelEnd (.boot mem)
  obtain ⟨f₂, paging, h₂⟩ := pagingInitFull_returns hidt hlt (.boot pmm.mem)
  have hspec := pmmInit_spec h₁
  refine ⟨max f₁ f₂, ?_⟩
  simp only [kernelMain, hmap, if_false, pmmInit_mono h₁ (Nat.le_max_left f₁ f₂), Option.bind_some,
    hspec.gMmapAddr, hspec.gMmapLength, pagingInitFull_mono h₂ (Nat.le_max_right f₁ f₂),
    Option.map_some]
  exact ⟨_, rfl⟩

end Boot

/-- The page tables are out of the allocator's reach only where there is no memory map,
and so no page to hand out. -/
theorem keepsTables_iff (kernelEnd idtEntries mmapAddr n : Nat) (fb : Option Framebuffer)
    (mem : Mem) (hend : kernelEnd + 131072 ≤ 0x200000) :
    (MapFits mmapAddr (entrySize * n) → IdtFits idtEntries → mmapAddr ≠ 0 →
      ∃ fuel k, kernelMain fuel kernelEnd idtEntries mmapAddr (entrySize * n) fb mem = some k) ∧
    ∀ fuel mmapLength k, kernelMain fuel kernelEnd idtEntries mmapAddr mmapLength fb mem = some k →
      (KeepsTables k ↔ mmapAddr = 0) := by
  refine ⟨fun hfit hidt hmap => kernelMain_returns hfit hidt hmap, ?_⟩
  intro fuel mmapLength k h
  constructor
  · intro hkeeps
    by_contra hmap
    obtain ⟨n, hn⟩ := directory_handed_out hmap hend h
    have hdir := (directory_clear hmap hend h).2.2
    exact hkeeps _ (disciplined_replicate n k.pmm []) _ hn (by rw [hdir]; decide) (.inl rfl)
  · intro hmap ops hd a ha hne
    obtain ⟨pmm, hpmm, hk, _⟩ := kernelMain_cases h
    rw [if_pos hmap] at hpmm
    have hempty : searchEnd k.pmm = 0 := by
      rw [hk, ← Option.some.inj hpmm]
      rfl
    exact absurd (results_of_empty hempty ops hd a ha) hne

/-- The machine with 128 MiB of memory and no framebuffer. -/
theorem keepsTables_iff_ramMem :
    ∃ fuel k, kernelMain fuel 0x110000 0x105000 0x9000 24 none ramMem = some k ∧
      (KeepsTables k ↔ 0x9000 = 0) := by
  obtain ⟨hterm, hiff⟩ := keepsTables_iff 0x110000 0x105000 0x9000 1 none ramMem (by decide)
  obtain ⟨fuel, k, h⟩ := hterm (by decide) (by decide) (by decide)
  exact ⟨fuel, k, h, hiff fuel 24 k h⟩

/-- On that machine the page allocator gives the page directory away. -/
theorem kernelMain_hands_out_directory :
    ∃ fuel k, kernelMain fuel 0x110000 0x105000 0x9000 24 none ramMem = some k ∧
      ¬KeepsTables k ∧ ∃ n, k.paging.pageDirectory ∈ results k.pmm (List.replicate n .allocPage) := by
  have hboot : ∃ fuel k,
      kernelMain fuel 0x110000 0x105000 0x9000 (entrySize * 1) none ramMem = some k :=
    kernelMain_returns (by decide) (by decide) (by decide)
  obtain ⟨fuel, k, h⟩ := hboot
  have hmap : (0x9000 : Nat) ≠ 0 := by decide
  have hend : 0x110000 + 131072 ≤ 0x200000 := by decide
  obtain ⟨n, hn⟩ := directory_handed_out hmap hend h
  have hdir := (directory_clear hmap hend h).2.2
  refine ⟨fuel, k, h, fun hkeeps => ?_, n, hn⟩
  exact hkeeps _ (disciplined_replicate n k.pmm []) _ hn (by rw [hdir]; decide) (.inl rfl)

end Boot
