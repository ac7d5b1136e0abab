import Nyrix.PmmSteps

/-!
# The allocator over two memories

What the calls return depends on the bits below `total_pages` alone. `pmm_init` sets all of
these but those of the last word, where what memory held before is still there.
-/

namespace Pmm

open ByteMemory BoundedLoop PackedBits Multiboot

/-- A pointer has 32 bits. -/
def Op.Addressed : Op → Prop
  | .freePage addr => addr < 4294967296
  | _ => True

/-- The bits `pmm_alloc_page` can test are the same. -/
def SameBits (s t : State) : Prop := ∀ q < 1048575, bitmapTest s q = bitmapTest t q

/-- Every sequence of calls returns the same pointers. -/
def SameResults (s t : State) : Prop :=
  ∀ ops : List Op, (∀ op ∈ ops, op.Addressed) → results s ops = results t ops

/-- Two states a client of the allocator cannot tell apart. -/
structure Indistinct (s t : State) : Prop where
  totalPages : s.totalPages = 1048575
  totalPages' : t.totalPages = 1048575
  earlyAlloc : s.earlyAlloc = t.earlyAlloc
  bits : SameBits s t

section Indistinct

variable {s t : State}

theorem Indistinct.searchEnd (h : Indistinct s t) : searchEnd s = searchEnd t := by
  rw [Pmm.searchEnd, Pmm.searchEnd, h.earlyAlloc, h.totalPages, h.totalPages']

theorem bitmapSet_bits {s : State} {page q : Nat} (hp : page < 1048576) (hq : q < 1048576) :
    bitmapTest (bitmapSet s page) q = (decide (q = page) || bitmapTest s q) :=
  testBit_setBit s.mem s.bitmap (by omega) (by omega)

/-- Both searches stop at the same page. -/
theorem indistinct_alloc (h : Indistinct s t) : (pmmAllocPage s).1 = (pmmAllocPage t).1 ∧
    Indistinct (pmmAllocPage s).2 (pmmAllocPage t).2 := by
  have hend := searchEnd_le (Nat.le_of_eq h.totalPages)
  have hsame := h.searchEnd
  obtain ⟨page, hlt, hclear, hbelow, hcall⟩ | ⟨hfull, hcall⟩ := pmmAllocPage_cases s
  · obtain ⟨page', hlt', hclear', hbelow', hcall'⟩ | ⟨hfull', _⟩ := pmmAllocPage_cases t
    · have hpage : page = page' := by
        refine Nat.le_antisymm (Nat.le_of_not_lt fun hlow => ?_) (Nat.le_of_not_lt fun hlow => ?_)
        · rw [← h.bits page' (by omega), hbelow page' hlow] at hclear'
          exact Bool.false_ne_true hclear'.symm
        · rw [h.bits page (by omega), hbelow' page hlow] at hclear
          exact Bool.false_ne_true hclear.symm
      subst hpage
      rw [hcall, hcall']
      refine ⟨rfl, h.totalPages, h.totalPages', h.earlyAlloc, fun q hq => ?_⟩
      have hset : bitmapTest (bitmapSet s page) q = _ := bitmapSet_bits (by omega) (by omega)
      have hset' : bitmapTest (bitmapSet t page) q = _ := bitmapSet_bits (by omega) (by omega)
      rw [h.bits q hq, ← hset'] at hset
      exact hset
    · rw [h.bits page (by omega), hfull' page (by omega)] at hclear
      exact absurd hclear.symm Bool.false_ne_true
  · obtain ⟨page', hlt', hclear', _, _⟩ | ⟨_, hcall'⟩ := pmmAllocPage_cases t
    · rw [← h.bits page' (by omega), hfull page' (by omega)] at hclear'
      exact absurd hclear'.symm Bool.false_ne_true
    · rw [hcall, hcall']
      exact ⟨rfl, h⟩

theorem indistinct_free (h : Indistinct s t) {addr : Nat} (ha : addr < 4294967296) :
    Indistinct (pmmFreePage addr s) (pmmFreePage addr t) := by
  refine ⟨(pmmFreePage_totalPages addr s).trans h.totalPages,
    (pmmFreePage_totalPages addr t).trans h.totalPages', ?_, fun q hq => ?_⟩
  · rw [pmmFreePage_earlyAlloc, pmmFreePage_earlyAlloc, h.earlyAlloc]
  · rw [pmmFreePage_bits ha s (by omega), pmmFreePage_bits ha t (by omega), h.bits q hq]

theorem indistinct_step (h : Indistinct s t) {op : Op} (hop : op.Addressed) :
    (step s op).1 = (step t op).1 ∧ Indistinct (step s op).2 (step t op).2 := by
  cases op with
  | setEarlyAlloc val => exact ⟨rfl, h.totalPages, h.totalPages', rfl, h.bits⟩
  | allocPage =>
    obtain ⟨haddr, hnext⟩ := indistinct_alloc h
    exact ⟨congrArg some haddr, hnext⟩
  | freePage addr => exact ⟨rfl, indistinct_free h hop⟩

/-- Calls on states that cannot be told apart return the same pointers. -/
theorem indistinct_results (h : Indistinct s t) : SameResults s t := by
  intro ops hops
  induction ops generalizing s t with
  | nil => rfl
  | cons op ops ih =>
    obtain ⟨hresult, hnext⟩ := indistinct_step h (hops op List.mem_cons_self)
    rw [results, results, hresult,
      ih hnext fun o ho => hops o (List.mem_cons_of_mem op ho)]

/-- Calls in a row return pages whose bits were clear, or null. -/
theorem results_alloc (htotal : s.totalPages ≤ 1048575) {n addr : Nat} (hne : addr ≠ 0)
    (hlt : addr / 4096 < 1048576) (h : addr ∈ results s (List.replicate n .allocPage)) :
    bitmapTest s (addr / 4096) = false := by
  induction n generalizing s with
  | zero => exact absurd h List.not_mem_nil
  | succ n ih =>
    rw [List.replicate_succ, results, List.mem_append] at h
    obtain hfirst | hrest := h
    · obtain rfl : addr = (pmmAllocPage s).1 := by simpa [step] using hfirst
      exact (pmmAllocPage_takes htotal hne).wasClear
    · have hclear := ih (s := (pmmAllocPage s).2)
        ((pmmAllocPage_totalPages s).symm ▸ htotal) hrest
      by_contra hset
      rw [pmmAllocPage_keeps htotal hlt (by simpa using hset)] at hclear
      exact Bool.false_ne_true hclear.symm

/-- A page that one of the two can hand out is free in the other too. -/
theorem sameResults_clear (h : SameResults s t) (hs : s.totalPages = 1048575)
    (ht : t.totalPages = 1048575) {q : Nat} (hne : q ≠ 0) (hq : q < 1048575)
    (hclear : bitmapTest s q = false) : bitmapTest t q = false := by
  have hend : searchEnd (pmmSetEarlyAlloc false s) = 1048575 := hs
  have htotal : (pmmSetEarlyAlloc false t).totalPages ≤ 1048575 := Nat.le_of_eq ht
  obtain ⟨n, hn⟩ := alloc_reaches (pmmSetEarlyAlloc false s) (hend.symm ▸ hq)
    (Nat.le_of_lt (hend.symm ▸ by decide)) hclear
  have hops : ∀ op ∈ Op.setEarlyAlloc false :: List.replicate n .allocPage, op.Addressed := by
    intro op hop
    obtain rfl | hop := List.mem_cons.mp hop
    · trivial
    · rw [List.eq_of_mem_replicate hop]
      trivial
  have hsame : results (pmmSetEarlyAlloc false s) (List.replicate n .allocPage) =
      results (pmmSetEarlyAlloc false t) (List.replicate n .allocPage) := h _ hops
  have hpage : q * 4096 / 4096 = q := Nat.mul_div_cancel q (by decide)
  have hmem : bitmapTest t (q * 4096 / 4096) = false :=
    results_alloc htotal (by omega) (by omega) (hsame ▸ hn)
  rwa [hpage] at hmem

theorem SameResults.symm (h : SameResults s t) : SameResults t s :=
  fun ops hops => (h ops hops).symm

/-- The calls tell apart any two bits of a page other than page 0. -/
theorem sameResults_bits (h : SameResults s t) (hs : s.totalPages = 1048575)
    (ht : t.totalPages = 1048575) (hzero : bitmapTest s 0 = bitmapTest t 0) : SameBits s t := by
  intro q hq
  by_cases hne : q = 0
  · rw [hne, hzero]
  · cases hbit : bitmapTest s q with
    | false => exact (sameResults_clear h hs ht hne hq hbit).symm
    | true =>
      by_contra hclear
      have hback := sameResults_clear h.symm ht hs hne hq (by simpa using Ne.symm hclear)
      rw [hbit] at hback
      exact Bool.false_ne_true hback.symm

end Indistinct

section Init

variable {fuel₁ fuel₂ kernelEnd mmapAddr mmapLength : Nat} {s₁ s₂ t₁ t₂ : State}

/-- The two memories hold the same bits where nothing initialises the bitmap: past the zeroed
words and the reserved pages. -/
def SameLeftover (kernelEnd : Nat) (m m' : Mem) : Prop :=
  ∀ q, zeroedPages ≤ q → kernelPages kernelEnd ≤ q → q < 1048575 →
    testBit m kernelEnd q = testBit m' kernelEnd q

theorem sameBits_init (h₁ : pmmInit fuel₁ kernelEnd mmapAddr mmapLength s₁ = some t₁)
    (h₂ : pmmInit fuel₂ kernelEnd mmapAddr mmapLength s₂ = some t₂) :
    SameBits t₁ t₂ ↔ SameLeftover kernelEnd s₁.mem s₂.mem := by
  have hbits : ∀ q < 1048575, (bitmapTest t₁ q = bitmapTest t₂ q ↔
      (zeroedPages ≤ q → kernelPages kernelEnd ≤ q →
        testBit s₁.mem kernelEnd q = testBit s₂.mem kernelEnd q)) := by
    intro q hq
    rw [(pmmInit_spec h₁).bits q (by omega), (pmmInit_spec h₂).bits q (by omega),
      zeroedMem_bit _ _ (by omega), zeroedMem_bit _ _ (by omega)]
    by_cases hk : q < kernelPages kernelEnd
    · simp [hk]
    · by_cases hz : q < zeroedPages
      · simp [hk, hz]
      · simp [hk, hz, Nat.le_of_not_lt hk, Nat.le_of_not_lt hz]
  constructor
  · intro h q hz hk hq
    exact (hbits q hq).mp (h q hq) hz hk
  · intro h q hq
    exact (hbits q hq).mpr fun hz hk => h q hz hk hq

/-- After `pmm_init` on two memories the bits the allocator looks at are the same, and so is
every later sequence of results, exactly when the leftover bits of the last word were. -/
theorem pmmInit_sameResults_iff (kernelEnd mmapAddr mmapLength : Nat) (s₁ s₂ : State)
    (hearly : s₁.earlyAlloc = s₂.earlyAlloc) :
    (MapFits mmapAddr mmapLength → ∃ fuel t₁ t₂,
      pmmInit fuel kernelEnd mmapAddr mmapLength s₁ = some t₁ ∧
      pmmInit fuel kernelEnd mmapAddr mmapLength s₂ = some t₂) ∧
    ∀ fuel₁ fuel₂ t₁ t₂, pmmInit fuel₁ kernelEnd mmapAddr mmapLength s₁ = some t₁ →
      pmmInit fuel₂ kernelEnd mmapAddr mmapLength s₂ = some t₂ →
      (SameBits t₁ t₂ ↔ SameLeftover kernelEnd s₁.mem s₂.mem) ∧
      (SameResults t₁ t₂ ↔ SameLeftover kernelEnd s₁.mem s₂.mem) := by
  constructor
  · intro hfit
    obtain ⟨fuel₁, t₁, h₁⟩ := pmmInit_terminates hfit kernelEnd s₁
    obtain ⟨fuel₂, t₂, h₂⟩ := pmmInit_terminates hfit kernelEnd s₂
    exact ⟨max fuel₁ fuel₂, t₁, t₂, pmmInit_mono h₁ (Nat.le_max_left _ _),
      pmmInit_mono h₂ (Nat.le_max_right _ _)⟩
  · intro fuel₁ fuel₂ t₁ t₂ h₁ h₂
    have hspec₁ := pmmInit_spec h₁
    have hspec₂ := pmmInit_spec h₂
    have hsame := sameBits_init h₁ h₂
    refine ⟨hsame, fun hresults => ?_, fun hleft => ?_⟩
    · have hzero : bitmapTest t₁ 0 = bitmapTest t₂ 0 :=
        (pmmInit_zero h₁).trans (pmmInit_zero h₂).symm
      exact hsame.mp (sameResults_bits hresults hspec₁.totalPages hspec₂.totalPages hzero)
    · have hmode : t₁.earlyAlloc = t₂.earlyAlloc := by
        rw [hspec₁.earlyAlloc, hspec₂.earlyAlloc, hearly]
      exact indistinct_results ⟨hspec₁.totalPages, hspec₂.totalPages, hmode, hsame.mpr hleft⟩

end Init

/-- The machine with 128 MiB of memory, where a bit is set in the last word of the bitmap. -/
def litMap : State := { ramMap with mem := setBit ramMap.mem 0x110000 1048544 }

theorem pmmInit_sameResults_iff_ramMap : ∃ fuel t₁ t₂,
    pmmInit fuel 0x110000 0x9000 24 ramMap = some t₁ ∧
    pmmInit fuel 0x110000 0x9000 24 litMap = some t₂ ∧
    (SameBits t₁ t₂ ↔ SameLeftover 0x110000 ramMap.mem litMap.mem) ∧
    (SameResults t₁ t₂ ↔ SameLeftover 0x110000 ramMap.mem litMap.mem) := by
  obtain ⟨hterm, hiff⟩ := pmmInit_sameResults_iff 0x110000 0x9000 24 ramMap litMap rfl
  obtain ⟨fuel, t₁, t₂, h₁, h₂⟩ := hterm (by decide)
  exact ⟨fuel, t₁, t₂, h₁, h₂, hiff fuel fuel t₁ t₂ h₁ h₂⟩

/-- The two memories differ in one bit behind `_kernel_end`, and only the first run hands out
page 1048544. -/
theorem lastWord_shows : ¬∀ s₁ s₂ : State, Frame 0x110000 131072 s₁.mem s₂.mem →
    s₁.earlyAlloc = s₂.earlyAlloc → ∀ fuel₁ fuel₂ t₁ t₂,
    pmmInit fuel₁ 0x110000 0x9000 24 s₁ = some t₁ →
    pmmInit fuel₂ 0x110000 0x9000 24 s₂ = some t₂ → SameBits t₁ t₂ := by
  intro h
  obtain ⟨fuel₁, t₁, h₁⟩ := pmmInit_terminates (show MapFits 0x9000 24 by decide) 0x110000 ramMap
  obtain ⟨fuel₂, t₂, h₂⟩ := pmmInit_terminates (show MapFits 0x9000 24 by decide) 0x110000 litMap
  have hframe : Frame 0x110000 131072 ramMap.mem litMap.mem :=
    frame_sub (i := 4 * (1048544 / 32)) (setBit_frame ramMap.mem 0x110000 1048544) (by decide)
  have hsame := (sameBits_init h₁ h₂).mp (h ramMap litMap hframe rfl fuel₁ fuel₂ t₁ t₂ h₁ h₂)
  have hbit := hsame 1048544 (by decide) (by decide) (by decide)
  have hset := testBit_setBit ramMap.mem 0x110000 (p := 1048544) (q := 1048544) (by decide)
    (by decide)
  have hlit : testBit litMap.mem 0x110000 1048544 = true := hset.trans rfl
  have hclear : testBit ramMap.mem 0x110000 1048544 = false := by decide
  rw [hlit, hclear] at hbit
  exact Bool.false_ne_true hbit

end Pmm
