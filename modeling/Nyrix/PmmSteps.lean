import Nyrix.PmmAllocatable

/-!
# What the page allocator's calls change

A call writes one word of the bitmap. `pmm_alloc_page` takes one clear page below
`total_pages`, so a page that is taken is not handed out again before it is freed.
-/

namespace Pmm

open ByteMemory PackedBits

/-- The bytes of the bitmap; the last word is only zeroed by the loader, if at all. -/
def bitmapBytes : Nat := 131072

theorem bitmapSet_frame (s : State) {page : Nat} (hp : page < 1048576) :
    Frame s.bitmap bitmapBytes s.mem (bitmapSet s page).mem :=
  frame_sub (i := 4 * (page / 32)) (setBit_frame s.mem s.bitmap page)
    (by simp only [bitmapBytes]; omega)

theorem bitmapClear_frame (s : State) {page : Nat} (hp : page < 1048576) :
    Frame s.bitmap bitmapBytes s.mem (bitmapClear s page).mem :=
  frame_sub (i := 4 * (page / 32)) (clearBit_frame s.mem s.bitmap page)
    (by simp only [bitmapBytes]; omega)

/-- The bits do not change with memory apart from the bitmap. -/
theorem bitmapTest_frame {a n : Nat} {s : State} {m : Mem} (h : Frame a n s.mem m)
    (hs : Sep a n s.bitmap bitmapBytes) {q : Nat} (hq : q < 1048576) :
    bitmapTest { s with mem := m } q = bitmapTest s q :=
  testBit_frame h (sep_right hs (4 * (q / 32)) 4 (by simp only [bitmapBytes]; omega))

/-- A call of `pmm_alloc_page` that returns the page at `page`. -/
structure Takes (s : State) (page : Nat) (t : State) : Prop where
  aligned : page % 4096 = 0
  fits : page + 4096 ≤ 4294967296
  wasClear : bitmapTest s (page / 4096) = false
  bits : ∀ q < 1048576, bitmapTest t q = (decide (q = page / 4096) || bitmapTest s q)

theorem pmmAllocPage_frame {s : State} (h : s.totalPages ≤ 1048575) :
    Frame s.bitmap bitmapBytes s.mem (pmmAllocPage s).2.mem := by
  obtain ⟨page, hlt, _, _, hcall⟩ | ⟨_, hcall⟩ := pmmAllocPage_cases s
  · have hend := searchEnd_le h
    rw [hcall]
    exact bitmapSet_frame s (by omega)
  · rw [hcall]
    exact frame_refl _ _ _

/-- A call takes one page that was clear, or leaves the state as it is. -/
theorem pmmAllocPage_bits {s : State} (h : s.totalPages ≤ 1048575) :
    (∃ page < 1048575, bitmapTest s page = false ∧ (pmmAllocPage s).1 = page * 4096 ∧
      ∀ q < 1048576, bitmapTest (pmmAllocPage s).2 q = (decide (q = page) || bitmapTest s q)) ∨
    pmmAllocPage s = (0, s) := by
  obtain ⟨page, hlt, hclear, _, hcall⟩ | ⟨_, hcall⟩ := pmmAllocPage_cases s
  · have hend := searchEnd_le h
    refine .inl ⟨page, by omega, hclear, ?_, fun q hq => ?_⟩
    · rw [hcall, pageSize]
    · rw [hcall]
      exact testBit_setBit s.mem s.bitmap (by omega) (by omega)
  · exact .inr hcall

theorem pmmAllocPage_takes {s : State} (h : s.totalPages ≤ 1048575)
    (hne : (pmmAllocPage s).1 ≠ 0) : Takes s (pmmAllocPage s).1 (pmmAllocPage s).2 := by
  obtain ⟨page, hlt, hclear, haddr, hbits⟩ | hcall := pmmAllocPage_bits h
  · have hpage : page * 4096 / 4096 = page := Nat.mul_div_cancel page (by decide)
    rw [haddr]
    refine ⟨Nat.mul_mod_left page 4096, by omega, ?_, ?_⟩
    · rwa [hpage]
    · rwa [hpage]
  · rw [hcall] at hne
    exact absurd rfl hne

/-- Page 0 looks like a failure to the caller, but is taken all the same. -/
theorem pmmAllocPage_keeps {s : State} (h : s.totalPages ≤ 1048575) {q : Nat} (hq : q < 1048576)
    (hset : bitmapTest s q = true) : bitmapTest (pmmAllocPage s).2 q = true := by
  obtain ⟨page, _, _, _, hbits⟩ | hcall := pmmAllocPage_bits h
  · rw [hbits q hq, hset, Bool.or_true]
  · rw [hcall]
    exact hset

/-- A failing call takes page 0 at most. -/
theorem pmmAllocPage_null {s : State} (h : s.totalPages ≤ 1048575) (hnull : (pmmAllocPage s).1 = 0)
    {q : Nat} (hq : q < 1048576) (hne : q ≠ 0) :
    bitmapTest (pmmAllocPage s).2 q = bitmapTest s q := by
  obtain ⟨page, _, _, haddr, hbits⟩ | hcall := pmmAllocPage_bits h
  · have hother : q ≠ page := by omega
    rw [hbits q hq, decide_eq_false hother, Bool.false_or]
  · rw [hcall]

theorem pmmFreePage_bitmap (addr : Nat) (s : State) : (pmmFreePage addr s).bitmap = s.bitmap := by
  simp only [pmmFreePage]
  split <;> rfl

theorem pmmFreePage_totalPages (addr : Nat) (s : State) :
    (pmmFreePage addr s).totalPages = s.totalPages := by
  simp only [pmmFreePage]
  split <;> rfl

theorem pmmFreePage_earlyAlloc (addr : Nat) (s : State) :
    (pmmFreePage addr s).earlyAlloc = s.earlyAlloc := by
  simp only [pmmFreePage]
  split <;> rfl

theorem pmmFreePage_frame {addr : Nat} (ha : addr < 4294967296) (s : State) :
    Frame s.bitmap bitmapBytes s.mem (pmmFreePage addr s).mem := by
  simp only [pmmFreePage]
  split
  · refine bitmapClear_frame s ?_
    simp only [pageSize]
    omega
  · exact frame_refl _ _ _

theorem pmmFreePage_bits {addr : Nat} (ha : addr < 4294967296) (s : State) {q : Nat}
    (hq : q < 4294967296) :
    bitmapTest (pmmFreePage addr s) q = (!decide (q = addr / 4096) && bitmapTest s q) := by
  have hpage : addr / pageSize < 4294967296 := by
    simp only [pageSize]
    omega
  cases ht : bitmapTest s (addr / pageSize) with
  | true =>
    have he : pmmFreePage addr s =
        { bitmapClear s (addr / pageSize) with freePages := s.freePages + 1 } := by
      simp [pmmFreePage, ht]
    rw [he]
    exact testBit_clearBit s.mem s.bitmap hpage hq
  | false =>
    have he : pmmFreePage addr s = s := by simp [pmmFreePage, ht]
    rw [he]
    by_cases hqa : q = addr / 4096
    · rw [hqa]
      simpa [pageSize] using ht
    · simp [hqa]

/-- The pages the bitmap lies in are not free. -/
structure Guarded (s : State) : Prop where
  totalPages : s.totalPages ≤ 1048575
  apart : ∀ p < 1048576, bitmapTest s p = false → Sep (p * 4096) 4096 s.bitmap bitmapBytes

/-- `pmm_init` reserves the pages up to the end of the bitmap. -/
theorem pmmInit_guarded {fuel kernelEnd mmapAddr mmapLength : Nat} {s t : State}
    (h : pmmInit fuel kernelEnd mmapAddr mmapLength s = some t)
    (hk : kernelEnd + bitmapBytes ≤ 4294967296) : Guarded t := by
  have hspec := pmmInit_spec h
  refine ⟨Nat.le_of_eq hspec.totalPages, ?_⟩
  intro p hp hclear
  have hreserved := ((pmmInit_clear_iff h (by omega)).mp hclear).1
  rw [hspec.bitmap]
  refine sep_of_ge ?_ (by omega)
  simp only [kernelPages, reservedPages, pageSize, bitmapBytes] at hreserved hk ⊢
  omega

/-- In `t` the pages taken in `s` still are; memory off the bitmap may have changed. -/
structure Later (s t : State) : Prop where
  totalPages : t.totalPages = s.totalPages
  bitmap : t.bitmap = s.bitmap
  taken : ∀ q < 1048576, bitmapTest s q = true → bitmapTest t q = true

theorem later_refl (s : State) : Later s s := ⟨rfl, rfl, fun _ _ hset => hset⟩

theorem guarded_later {s t : State} (h : Guarded s) (hlater : Later s t) : Guarded t := by
  refine ⟨hlater.totalPages ▸ h.totalPages, fun p hp hclear => ?_⟩
  rw [hlater.bitmap]
  refine h.apart p hp ?_
  by_contra hset
  rw [hlater.taken p hp (by simpa using hset)] at hclear
  exact Bool.false_ne_true hclear.symm

/-- Since the allocator was in state `base` its client has taken the pages in `pages`; page 0
may be gone as well, since its address reads as a failure. -/
structure Owns (base s : State) (pages : List Nat) : Prop where
  taken : ∀ p ∈ pages, bitmapTest s (p / 4096) = true
  reserved : ∀ q < 1048576, bitmapTest base q = true → bitmapTest s q = true
  origin : ∀ q < 1048576, bitmapTest s q = true →
    q = 0 ∨ bitmapTest base q = true ∨ ∃ p ∈ pages, p / 4096 = q

theorem owns_refl (s : State) : Owns s s [] :=
  ⟨fun _ hp => absurd hp List.not_mem_nil, fun _ _ hset => hset, fun _ _ hset => .inr (.inl hset)⟩

section

variable {base s t : State} {pages : List Nat}

theorem owns_congr (h : Owns base s pages) (hpages : ∀ p ∈ pages, p < 4294967296)
    (hbits : ∀ q < 1048576, bitmapTest t q = bitmapTest s q) : Owns base t pages := by
  constructor
  · intro p hp
    have hlt := hpages p hp
    rw [hbits _ (by omega)]
    exact h.taken p hp
  · intro q hq hset
    rw [hbits q hq]
    exact h.reserved q hq hset
  · intro q hq hset
    rw [hbits q hq] at hset
    exact h.origin q hq hset

theorem owns_perm {pages' : List Nat} (h : Owns base s pages) (hp : pages'.Perm pages) :
    Owns base s pages' := by
  refine ⟨fun p hm => h.taken p (hp.mem_iff.mp hm), h.reserved, fun q hq hset => ?_⟩
  refine (h.origin q hq hset).imp_right fun hor => hor.imp_right ?_
  rintro ⟨p, hm, he⟩
  exact ⟨p, hp.mem_iff.mpr hm, he⟩

variable (htotal : s.totalPages ≤ 1048575)
include htotal

theorem owns_noPage (h : Owns base s pages) (hpages : ∀ p ∈ pages, p < 4294967296)
    (hnull : (pmmAllocPage s).1 = 0) : Owns base (pmmAllocPage s).2 pages := by
  constructor
  · intro p hp
    have hlt := hpages p hp
    exact pmmAllocPage_keeps htotal (by omega) (h.taken p hp)
  · exact fun q hq hset => pmmAllocPage_keeps htotal hq (h.reserved q hq hset)
  · intro q hq hset
    by_cases hzero : q = 0
    · exact .inl hzero
    · rw [pmmAllocPage_null htotal hnull hq hzero] at hset
      exact h.origin q hq hset

theorem owns_alloc (h : Owns base s pages) (hpages : ∀ p ∈ pages, p < 4294967296)
    (hne : (pmmAllocPage s).1 ≠ 0) : Owns base (pmmAllocPage s).2 ((pmmAllocPage s).1 :: pages) := by
  have htakes := pmmAllocPage_takes htotal hne
  have hfits := htakes.fits
  constructor
  · intro p hp
    cases List.mem_cons.mp hp with
    | inl he =>
      rw [he, htakes.bits _ (by omega)]
      simp
    | inr hold =>
      have hlt := hpages p hold
      exact pmmAllocPage_keeps htotal (by omega) (h.taken p hold)
  · exact fun q hq hset => pmmAllocPage_keeps htotal hq (h.reserved q hq hset)
  · intro q hq hset
    by_cases he : q = (pmmAllocPage s).1 / 4096
    · exact .inr (.inr ⟨_, List.mem_cons_self, he.symm⟩)
    · have hbits := htakes.bits q hq
      rw [decide_eq_false he, Bool.false_or] at hbits
      refine (h.origin q hq (hbits.symm.trans hset)).imp_right fun hor => hor.imp_right ?_
      rintro ⟨p, hp, hpq⟩
      exact ⟨p, List.mem_cons_of_mem _ hp, hpq⟩

/-- The page handed out is one that was free in `base`, and that is not owned already. -/
theorem owns_fresh (h : Owns base s pages) (hne : (pmmAllocPage s).1 ≠ 0) :
    bitmapTest base ((pmmAllocPage s).1 / 4096) = false ∧ (pmmAllocPage s).1 ∉ pages := by
  have htakes := pmmAllocPage_takes htotal hne
  have hfits := htakes.fits
  have hclear := htakes.wasClear
  constructor
  · by_contra hset
    rw [h.reserved _ (by omega) (by simpa using hset)] at hclear
    exact Bool.false_ne_true hclear.symm
  · intro hm
    rw [h.taken _ hm] at hclear
    exact Bool.false_ne_true hclear.symm

end

theorem owns_free {base s : State} {page : Nat} {pages : List Nat} (h : Owns base s (page :: pages))
    (hlt : ∀ p ∈ page :: pages, p < 4294967296) (hfresh : bitmapTest base (page / 4096) = false)
    (hother : ∀ p ∈ pages, p / 4096 ≠ page / 4096) : Owns base (pmmFreePage page s) pages := by
  have hbits := fun (q : Nat) (hq : q < 1048576) =>
    pmmFreePage_bits (q := q) (hlt page List.mem_cons_self) s (by omega)
  constructor
  · intro p hp
    have hplt := hlt p (List.mem_cons_of_mem _ hp)
    rw [hbits _ (by omega), h.taken p (List.mem_cons_of_mem _ hp), decide_eq_false (hother p hp)]
    rfl
  · intro q hq hset
    have hne : q ≠ page / 4096 := by
      intro he
      rw [he, hfresh] at hset
      exact Bool.false_ne_true hset
    rw [hbits q hq, h.reserved q hq hset, decide_eq_false hne]
    rfl
  · intro q hq hset
    rw [hbits q hq, Bool.and_eq_true, Bool.not_eq_true', decide_eq_false_iff_not] at hset
    refine (h.origin q hq hset.2).imp_right fun hor => hor.imp_right ?_
    rintro ⟨p, hp, he⟩
    cases List.mem_cons.mp hp with
    | inl hpage => exact absurd (hpage ▸ he.symm) hset.1
    | inr hrest => exact ⟨p, hrest, he⟩

end Pmm
