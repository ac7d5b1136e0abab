import Nyrix.PmmInit

/-!
# Which pages the allocator can hand out

`pmm_init` zeroes the bitmap, so every page starts out free and the map walk, which
clears bits, takes none away. The pages left clear are all those past the bitmap,
whatever the memory map says about them.
-/

namespace Pmm

open ByteMemory BoundedLoop PackedBits Multiboot

/-- A clear page below `total_pages` lies wholly inside a usable entry, and no part of it
inside an entry of another type. -/
def OnlyUsable (entries : List MmapEntry) (t : State) : Prop :=
  ∀ p < t.totalPages, bitmapTest t p = false → Usable entries p ∧ ¬TouchesReserved entries p

theorem pmmAllocPage_bitmap (s : State) : (pmmAllocPage s).2.bitmap = s.bitmap := by
  obtain ⟨page, _, _, _, h⟩ | ⟨_, h⟩ := pmmAllocPage_cases s
  · rw [h]
    rfl
  · rw [h]

theorem pmmAllocPage_totalPages (s : State) : (pmmAllocPage s).2.totalPages = s.totalPages := by
  obtain ⟨page, _, _, _, h⟩ | ⟨_, h⟩ := pmmAllocPage_cases s
  · rw [h]
    rfl
  · rw [h]

theorem pmmAllocPage_earlyAlloc (s : State) : (pmmAllocPage s).2.earlyAlloc = s.earlyAlloc := by
  obtain ⟨page, _, _, _, h⟩ | ⟨_, h⟩ := pmmAllocPage_cases s
  · rw [h]
    rfl
  · rw [h]

theorem pmmAllocPage_searchEnd (s : State) : searchEnd (pmmAllocPage s).2 = searchEnd s := by
  simp only [searchEnd, pmmAllocPage_totalPages, pmmAllocPage_earlyAlloc]

theorem searchEnd_le {s : State} (h : s.totalPages ≤ 1048575) : searchEnd s ≤ 1048575 := by
  simp only [searchEnd, pageSize]
  split <;> omega

/-- Enough calls in a row return any clear page of the range: each call takes the lowest
one, so the number of clear pages below the wanted one goes down. -/
theorem alloc_reaches {page : Nat} (s : State) (hlt : page < searchEnd s)
    (hend : searchEnd s ≤ 4294967296) (h : bitmapTest s page = false) :
    ∃ n, page * pageSize ∈ results s (List.replicate n .allocPage) := by
  generalize hd : clearCount s.mem s.bitmap page = d
  induction d using Nat.strong_induction_on generalizing s with
  | h d ih =>
    obtain ⟨q, hq, hclear, hbelow, hcall⟩ | ⟨hfull, _⟩ := pmmAllocPage_cases s
    · by_cases he : q = page
      · refine ⟨1, ?_⟩
        simp [results, step, hcall, he]
      · have hqp : q < page := by
          by_contra hge
          have hset := hbelow page (by omega)
          rw [h] at hset
          exact Bool.false_ne_true hset
        have hcount := clearCount_setBit (n := page) (by omega) hqp hclear
        have hstill : bitmapTest (pmmAllocPage s).2 page = false := by
          rw [hcall]
          have hset := testBit_setBit s.mem s.bitmap (p := q) (q := page) (by omega) (by omega)
          simp only [bitmapTest, bitmapSet] at h ⊢
          rw [hset, h]
          simp [Ne.symm he]
        have hless : clearCount (pmmAllocPage s).2.mem (pmmAllocPage s).2.bitmap page < d := by
          rw [hcall]
          simp only [bitmapSet]
          omega
        obtain ⟨n, hn⟩ := ih _ hless (pmmAllocPage s).2 (by rwa [pmmAllocPage_searchEnd])
          (by rwa [pmmAllocPage_searchEnd]) hstill rfl
        refine ⟨n + 1, ?_⟩
        rw [List.replicate_succ]
        exact List.mem_append_right _ hn
    · have hset := hfull page hlt
      rw [h] at hset
      exact absurd hset Bool.false_ne_true

/-- After `pmm_init` a page below `total_pages` is clear exactly when it lies past the
reserved ones and its bit was zeroed, or happened to be clear in the last bitmap word. -/
theorem pmmInit_clear_iff {fuel kernelEnd mmapAddr mmapLength : Nat} {s t : State}
    (h : pmmInit fuel kernelEnd mmapAddr mmapLength s = some t) {p : Nat} (hp : p < 4294967296) :
    bitmapTest t p = false ↔
      kernelPages kernelEnd ≤ p ∧ (p < zeroedPages ∨ testBit s.mem kernelEnd p = false) := by
  rw [(pmmInit_spec h).bits p hp, zeroedMem_bit _ _ hp]
  simp only [Bool.or_eq_false_iff, decide_eq_false_iff_not, Nat.not_lt, Bool.and_eq_false_iff,
    Bool.not_eq_false', decide_eq_true_eq]

/-- The allocator hands out usable memory only if the usable entries cover, and the others
leave alone, every page from the end of the bitmap to the last zeroed bit, and those of the
last 31 pages whose bits, which nothing initialises, were clear. -/
theorem pmmInit_onlyUsable_iff (kernelEnd mmapAddr n : Nat) (s : State) :
    (MapFits mmapAddr (entrySize * n) →
      ∃ fuel t, pmmInit fuel kernelEnd mmapAddr (entrySize * n) s = some t) ∧
    ∀ fuel t, pmmInit fuel kernelEnd mmapAddr (entrySize * n) s = some t →
      (OnlyUsable (mmapEntries s.mem mmapAddr n) t ↔
        ∀ p, kernelPages kernelEnd ≤ p → p < 1048575 →
          (p < zeroedPages ∨ testBit s.mem kernelEnd p = false) →
          Usable (mmapEntries s.mem mmapAddr n) p ∧
            ¬TouchesReserved (mmapEntries s.mem mmapAddr n) p) := by
  refine ⟨fun hfit => pmmInit_terminates hfit kernelEnd s, fun fuel t h => ?_⟩
  have htotal := (pmmInit_spec h).totalPages
  constructor
  · intro hsafe p hk hp hc
    exact hsafe p (by omega) ((pmmInit_clear_iff h (by omega)).mpr ⟨hk, hc⟩)
  · intro hcover p hp hclear
    obtain ⟨hk, hc⟩ := (pmmInit_clear_iff h (by omega)).mp hclear
    exact hcover p hk (by omega) hc

/-- The machine with 128 MiB of memory as the boot loader leaves it. -/
def ramMap : State := State.boot ramMem

theorem ramMap_entries : mmapEntries ramMap.mem 0x9000 1 = [ramEntry] := ramMem_entries

theorem pmmInit_onlyUsable_iff_ramMap :
    ∃ fuel t, pmmInit fuel 0x110000 0x9000 24 ramMap = some t ∧
      (OnlyUsable (mmapEntries ramMap.mem 0x9000 1) t ↔
        ∀ p, kernelPages 0x110000 ≤ p → p < 1048575 →
          (p < zeroedPages ∨ testBit ramMap.mem 0x110000 p = false) →
          Usable (mmapEntries ramMap.mem 0x9000 1) p ∧
            ¬TouchesReserved (mmapEntries ramMap.mem 0x9000 1) p) := by
  obtain ⟨hterm, hiff⟩ := pmmInit_onlyUsable_iff 0x110000 0x9000 1 ramMap
  obtain ⟨fuel, t, h⟩ := hterm (by decide)
  exact ⟨fuel, t, h, hiff fuel t h⟩

/-- The page of the local APIC, described by no entry, is free on that machine, and enough
calls of `pmm_alloc_page` return it. -/
theorem pmmInit_hands_out_apic :
    ∃ fuel t, pmmInit fuel 0x110000 0x9000 24 ramMap = some t ∧
      ¬OnlyUsable (mmapEntries ramMap.mem 0x9000 1) t ∧
      ∃ n, 0xFEE00000 ∈ results t (List.replicate n .allocPage) := by
  obtain ⟨fuel, t, h⟩ := pmmInit_terminates (show MapFits 0x9000 24 by decide) 0x110000 ramMap
  have hspec := pmmInit_spec h
  have hclear : bitmapTest t 0xFEE00 = false := by
    refine (pmmInit_clear_iff h (by decide)).mpr ⟨?_, .inl (by decide)⟩
    simp only [kernelPages, reservedPages, pageSize]
    omega
  have htotal := hspec.totalPages
  have hend : searchEnd t = 1048575 := by
    simp only [searchEnd, hspec.earlyAlloc, htotal]
    rfl
  refine ⟨fuel, t, h, ?_, alloc_reaches t (by omega) (by omega) hclear⟩
  intro hsafe
  have husable := (hsafe 0xFEE00 (by omega) hclear).1
  rw [ramMap_entries] at husable
  simp [Usable, ramEntry] at husable

end Pmm
