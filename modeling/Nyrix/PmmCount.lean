import Nyrix.PmmAllocatable

/-!
# free_pages against the bitmap

`pmm_alloc_page` and `pmm_free_page` move the counter by one with the bit they move, as
long as the page they touch is below `total_pages`. A drift can only come from
`pmm_init`, or from the page at the very top, whose bit exists but is not counted.
-/

namespace Pmm

open ByteMemory BoundedLoop PackedBits Multiboot

/-- `free_pages` is the number of clear bits below `total_pages`. -/
def CountExact (s : State) : Prop :=
  (pmmFreePagesCount s).toNat = clearCount s.mem s.bitmap s.totalPages

/-- The state in which calls keep the counter exact: the top page counts as taken away. -/
structure Accounted (s : State) : Prop where
  totalPages : s.totalPages = 1048575
  exact : CountExact s
  top : bitmapTest s 1048575 = false

/-- Summed over the entries the stride of the map walk leads to, modulo 2^32, the usable
ones visit as many pages with a clear bit as there are below `total_pages`. -/
def CountsAll (kernelEnd mmapAddr mmapLength : Nat) (m : Mem) : Prop :=
  ∃ entries, Strided m ((mmapAddr + mmapLength) % 4294967296) mmapAddr entries ∧
    (entries.map (visitCount m kernelEnd)).sum % 4294967296 = clearCount m kernelEnd 1048575

/-- The callers' side: a freed address is a page-aligned 32-bit one. -/
def Op.Aligned : Op → Prop
  | .freePage addr => addr < 4294967296 ∧ addr % pageSize = 0
  | _ => True

theorem accounted_alloc {s : State} (h : Accounted s) : Accounted (pmmAllocPage s).2 := by
  obtain ⟨page, hlt, hclear, _, hcall⟩ | ⟨_, hcall⟩ := pmmAllocPage_cases s
  · have hend := searchEnd_le (Nat.le_of_eq h.totalPages)
    have hcount := clearCount_setBit (n := s.totalPages) (by rw [h.totalPages]; omega)
      (by rw [h.totalPages]; omega) hclear
    have hle := clearCount_le s.mem s.bitmap s.totalPages
    rw [hcall]
    refine ⟨h.totalPages, ?_, ?_⟩
    · have hex := h.exact
      simp only [CountExact, pmmFreePagesCount, bitmapSet] at hex ⊢
      have hsub : (s.freePages - 1).toNat = s.freePages.toNat - 1 := by
        rw [BitVec.toNat_sub]
        have hlt32 := s.freePages.isLt
        have h1 : (1 : BitVec 32).toNat = 1 := rfl
        omega
      omega
    · have htop := h.top
      have hset := testBit_setBit s.mem s.bitmap (p := page) (q := 1048575) (by omega) (by omega)
      simp only [bitmapTest, bitmapSet] at htop ⊢
      rw [hset, htop, Bool.or_false, decide_eq_false_iff_not]
      omega
  · rw [hcall]
    exact h

theorem accounted_free {s : State} (h : Accounted s) {addr : Nat} (ha : addr < 4294967296) :
    Accounted (pmmFreePage addr s) := by
  have hp : addr / pageSize < 1048576 := by
    simp only [pageSize]
    omega
  cases ht : bitmapTest s (addr / pageSize) with
  | false =>
    have he : pmmFreePage addr s = s := by simp [pmmFreePage, ht]
    rw [he]
    exact h
  | true =>
    have he : pmmFreePage addr s =
        { bitmapClear s (addr / pageSize) with freePages := s.freePages + 1 } := by
      simp [pmmFreePage, ht]
    -- the bit of the top page is clear, so the page freed is one that is counted
    have hlt : addr / pageSize < 1048575 := by
      by_contra hge
      have htop : addr / pageSize = 1048575 := by omega
      rw [htop, h.top] at ht
      exact Bool.false_ne_true ht
    have hcount := clearCount_clearBit (n := s.totalPages) (by rw [h.totalPages]; omega)
      (by rw [h.totalPages]; exact hlt) ht
    rw [he]
    refine ⟨h.totalPages, ?_, ?_⟩
    · have hex := h.exact
      have hle := clearCount_le (clearBit s.mem s.bitmap (addr / pageSize)) s.bitmap s.totalPages
      rw [h.totalPages] at hle
      simp only [CountExact, pmmFreePagesCount, bitmapClear] at hex ⊢
      have hadd : (s.freePages + 1).toNat = s.freePages.toNat + 1 := by
        rw [BitVec.toNat_add]
        rw [h.totalPages] at hcount hex
        have h1 : (1 : BitVec 32).toNat = 1 := rfl
        omega
      omega
    · have htop := h.top
      have hc := testBit_clearBit s.mem s.bitmap (p := addr / pageSize) (q := 1048575)
        (by omega) (by omega)
      simp only [bitmapTest, bitmapClear] at htop ⊢
      rw [hc, htop, Bool.and_false]

theorem accounted_step {s : State} (h : Accounted s) {op : Op} (ho : op.Aligned) :
    Accounted (step s op).2 := by
  cases op with
  | setEarlyAlloc val => exact ⟨h.totalPages, h.exact, h.top⟩
  | allocPage => exact accounted_alloc h
  | freePage addr => exact accounted_free h ho.1

/-- The invariant along any run. -/
theorem accounted_run {s : State} (h : Accounted s) (ops : List Op)
    (ho : ∀ op ∈ ops, op.Aligned) : Accounted (run s ops) := by
  induction ops generalizing s with
  | nil => exact h
  | cons op ops ih =>
    exact ih (accounted_step h (ho op List.mem_cons_self))
      (fun o hm => ho o (List.mem_cons_of_mem op hm))

section AfterInit

variable {fuel kernelEnd mmapAddr mmapLength : Nat} {s t : State}

/-- The reserved pages are those the clear count loses. -/
theorem clearCount_init (h : pmmInit fuel kernelEnd mmapAddr mmapLength s = some t)
    (hk : kernelPages kernelEnd ≤ 1048575) :
    clearCount t.mem t.bitmap 1048575 +
        clearCount (zeroedMem kernelEnd s.mem) kernelEnd (kernelPages kernelEnd) =
      clearCount (zeroedMem kernelEnd s.mem) kernelEnd 1048575 := by
  have hbits := (pmmInit_spec h).bits
  have hbitmap := (pmmInit_spec h).bitmap
  obtain ⟨r, hr⟩ : ∃ r, 1048575 = kernelPages kernelEnd + r := ⟨_, (Nat.add_sub_cancel' hk).symm⟩
  have hlow : Nat.count (fun p => testBit t.mem t.bitmap p = false) (kernelPages kernelEnd) = 0 := by
    rw [Nat.count_iff_forall_not]
    intro p hp hc
    have hb := hbits p (by omega)
    simp only [bitmapTest] at hb
    simp [hb, hp] at hc
  have hhigh : Nat.count (fun k => testBit t.mem t.bitmap (kernelPages kernelEnd + k) = false) r =
      Nat.count (fun k => testBit (zeroedMem kernelEnd s.mem) kernelEnd
        (kernelPages kernelEnd + k) = false) r := by
    have heq : ∀ k < r, testBit t.mem t.bitmap (kernelPages kernelEnd + k) =
        testBit (zeroedMem kernelEnd s.mem) kernelEnd (kernelPages kernelEnd + k) := by
      intro k hkr
      have hb := hbits (kernelPages kernelEnd + k) (by omega)
      have hfree : ¬kernelPages kernelEnd + k < kernelPages kernelEnd := by omega
      simpa [bitmapTest, hfree] using hb
    apply Nat.le_antisymm
    · exact Nat.count_mono_left (fun k hkr hc => (heq k hkr).symm.trans hc)
    · exact Nat.count_mono_left (fun k hkr hc => (heq k hkr).trans hc)
  rw [hr]
  simp only [clearCount, Nat.count_add, hlow, hhigh]
  omega

theorem countExact_init_iff (h : pmmInit fuel kernelEnd mmapAddr mmapLength s = some t)
    (hk : kernelPages kernelEnd ≤ 1048575) :
    CountExact t ↔ CountsAll kernelEnd mmapAddr mmapLength (zeroedMem kernelEnd s.mem) := by
  have hspec := pmmInit_spec h
  have hsum := clearCount_init h hk
  have hle := clearCount_le (zeroedMem kernelEnd s.mem) kernelEnd 1048575
  have hcount : CountExact t ↔
      visitTotal fuel mmapAddr mmapLength (walkStart kernelEnd mmapAddr mmapLength s) % 4294967296 =
        clearCount (zeroedMem kernelEnd s.mem) kernelEnd 1048575 := by
    rw [CountExact, pmmFreePagesCount, hspec.totalPages, hspec.count, BitVec.toNat_sub]
    simp only [BitVec.toNat_ofNat]
    omega
  obtain ⟨w, hw⟩ := pmmInit_walk h
  have hinspected := strided_inspected hw
  rw [walkStart_mem] at hinspected
  have htotal : ∀ entries, Strided (zeroedMem kernelEnd s.mem)
      ((mmapAddr + mmapLength) % 4294967296) mmapAddr entries →
      visitTotal fuel mmapAddr mmapLength (walkStart kernelEnd mmapAddr mmapLength s) =
        (entries.map (visitCount (zeroedMem kernelEnd s.mem) kernelEnd)).sum := by
    intro entries he
    rw [← walkStart_mem kernelEnd mmapAddr mmapLength] at he
    rw [visitTotal_eq hw he, walkStart_mem, walkStart_bitmap]
  rw [hcount]
  constructor
  · intro hvisits
    exact ⟨_, hinspected, by rw [← htotal _ hinspected, hvisits]⟩
  · rintro ⟨entries, he, hvisits⟩
    rw [htotal entries he, hvisits]

theorem top_init_iff (h : pmmInit fuel kernelEnd mmapAddr mmapLength s = some t) :
    bitmapTest t 1048575 = false ↔
      kernelPages kernelEnd ≤ 1048575 ∧ testBit s.mem kernelEnd 1048575 = false := by
  rw [pmmInit_clear_iff h (by decide)]
  simp [zeroedPages]

/-- Freeing the top page makes the counter drift when its bit is set. -/
theorem top_clear_of_countExact (ht : t.totalPages = 1048575)
    (h : ∀ ops : List Op, (∀ op ∈ ops, op.Aligned) → CountExact (run t ops)) :
    bitmapTest t 1048575 = false := by
  by_contra hset
  have hset : bitmapTest t 1048575 = true := by simpa using hset
  have h0 := h [] (by simp)
  have h1 := h [.freePage 0xFFFFF000] (by
    intro op hm
    rw [List.mem_singleton.mp hm]
    exact ⟨by decide, by decide⟩)
  have he : run t [.freePage 0xFFFFF000] =
      { bitmapClear t 1048575 with freePages := t.freePages + 1 } := by
    simp [run, step, pmmFreePage, pageSize, hset]
  have hsame : clearCount (clearBit t.mem t.bitmap 1048575) t.bitmap 1048575 =
      clearCount t.mem t.bitmap 1048575 := by
    apply clearCount_congr
    intro p hp
    have hne : p ≠ 1048575 := by omega
    rw [testBit_clearBit _ _ (by decide) (by omega)]
    simp [hne]
  rw [he] at h1
  simp only [CountExact, pmmFreePagesCount, run, bitmapClear, ht] at h0 h1
  rw [hsame, ← h0, BitVec.toNat_add] at h1
  have hlt32 := t.freePages.isLt
  have hone : (1 : BitVec 32).toNat = 1 := rfl
  omega

end AfterInit

/-- The counter is exact in every later state just when the walk counts, in all, as many
pages as there are clear ones when it starts, and the bit above `total_pages` is clear and
not reserved: nothing zeroes that bit, and freeing the page at 0xFFFFF000 would count it. -/
theorem pmm_countExact_iff (kernelEnd mmapAddr mmapLength : Nat) (s : State) :
    (MapFits mmapAddr mmapLength →
      ∃ fuel t, pmmInit fuel kernelEnd mmapAddr mmapLength s = some t) ∧
    ∀ fuel t, pmmInit fuel kernelEnd mmapAddr mmapLength s = some t →
      ((∀ ops : List Op, (∀ op ∈ ops, op.Aligned) → CountExact (run t ops)) ↔
        kernelPages kernelEnd ≤ 1048575 ∧ testBit s.mem kernelEnd 1048575 = false ∧
        CountsAll kernelEnd mmapAddr mmapLength (zeroedMem kernelEnd s.mem)) := by
  refine ⟨fun hfit => pmmInit_terminates hfit kernelEnd s, fun fuel t h => ?_⟩
  have htotal := (pmmInit_spec h).totalPages
  constructor
  · intro hall
    obtain ⟨hk, htop⟩ := (top_init_iff h).mp (top_clear_of_countExact htotal hall)
    exact ⟨hk, htop, (countExact_init_iff h hk).mp (hall [] (by simp))⟩
  · rintro ⟨hk, htop, hvisits⟩ ops ho
    have hacc : Accounted t :=
      ⟨htotal, (countExact_init_iff h hk).mpr hvisits, (top_init_iff h).mpr ⟨hk, htop⟩⟩
    exact (accounted_run hacc ops ho).exact

theorem pmm_countExact_iff_ramMap :
    ∃ fuel t, pmmInit fuel 0x110000 0x9000 24 ramMap = some t ∧
      ((∀ ops : List Op, (∀ op ∈ ops, op.Aligned) → CountExact (run t ops)) ↔
        kernelPages 0x110000 ≤ 1048575 ∧ testBit ramMap.mem 0x110000 1048575 = false ∧
        CountsAll 0x110000 0x9000 24 (zeroedMem 0x110000 ramMap.mem)) := by
  obtain ⟨hterm, hiff⟩ := pmm_countExact_iff 0x110000 0x9000 24 ramMap
  obtain ⟨fuel, t, h⟩ := hterm (by decide)
  exact ⟨fuel, t, h, hiff fuel t h⟩

/-- At least the zeroed bits are clear when the walk starts. -/
theorem clearCount_zeroed_ge (kernelEnd : Nat) (m : Mem) :
    zeroedPages ≤ clearCount (zeroedMem kernelEnd m) kernelEnd 1048575 := by
  have hall : clearCount (zeroedMem kernelEnd m) kernelEnd zeroedPages = zeroedPages := by
    rw [clearCount, Nat.count_iff_forall]
    intro p hp
    rw [zeroedMem_bit _ _ (by simp only [zeroedPages] at hp; omega)]
    simp [hp]
  calc zeroedPages = clearCount (zeroedMem kernelEnd m) kernelEnd zeroedPages := hall.symm
    _ ≤ clearCount (zeroedMem kernelEnd m) kernelEnd 1048575 :=
      Nat.count_monotone _ (by decide)

/-- An entry makes the walk count no more pages than it visits. -/
theorem visitCount_le (m : Mem) (bitmap : Nat) (e : MmapEntry) :
    visitCount m bitmap e ≤ regionEnd e - regionStart e := by
  simp only [visitCount]
  split
  · exact Nat.count_le _
  · omega

theorem ramMap_entry : entryAt (zeroedMem 0x110000 ramMap.mem) 0x9000 = ramEntry := by
  rw [zeroedMem, entryAt_frame (fill_frame 0x110000 (fun _ => 0#32) 32767 ramMap.mem)
    (sep_of_ge (by decide) (by decide))]
  exact entryAt_storeEntry _ _ _

/-- The stride leads to the one entry and then past the map by 8 bytes. -/
theorem ramMap_strided {entries : List MmapEntry}
    (h : Strided (zeroedMem 0x110000 ramMap.mem) 0x9018 0x9000 entries) : entries = [ramEntry] := by
  have hlast : nextEntry (zeroedMem 0x110000 ramMap.mem) 0x9000 = 0x9020 := by
    rw [nextEntry, ramMap_entry]
    rfl
  cases entries with
  | nil =>
    simp only [Strided] at h
    omega
  | cons e entries =>
    obtain ⟨_, he, hrest⟩ := h
    rw [hlast] at hrest
    cases entries with
    | nil => rw [he, ramMap_entry]
    | cons e' entries => exact absurd hrest.1 (by decide)

theorem ramEntry_pages : regionEnd ramEntry - regionStart ramEntry = 32512 := by decide

/-- On a machine with 127 MiB of usable memory the counter is short of the bitmap as soon
as `pmm_init` returns: the map describes 32512 pages, and a million bits are clear. -/
theorem pmm_count_drifts :
    ∃ fuel t, pmmInit fuel 0x110000 0x9000 24 ramMap = some t ∧ ¬CountExact (run t []) := by
  obtain ⟨fuel, t, h⟩ := pmmInit_terminates (show MapFits 0x9000 24 by decide) 0x110000 ramMap
  refine ⟨fuel, t, h, ?_⟩
  have hk : kernelPages 0x110000 ≤ 1048575 := by
    simp only [kernelPages, reservedPages, pageSize]
    omega
  intro hexact
  obtain ⟨entries, hentries, heq⟩ := (countExact_init_iff h hk).mp hexact
  have hvisits := visitCount_le (zeroedMem 0x110000 ramMap.mem) 0x110000 ramEntry
  have hge := clearCount_zeroed_ge 0x110000 ramMap.mem
  rw [ramMap_strided hentries, List.map_singleton, List.sum_singleton] at heq
  rw [ramEntry_pages] at hvisits
  simp only [zeroedPages] at hge
  omega

end Pmm
