import Nyrix.HeapRuns

/-!
# When kmalloc returns null

A request is refused when it is empty, or when it needs a page and the page allocator has
none left. A refused request changes nothing.
-/

namespace Kmalloc

open ByteMemory BoundedLoop FreeList BlockPool Pmm

/-- `pmm_alloc_page` finds no clear bit. -/
def NoPage (p : Pmm.State) : Prop := ∀ q < searchEnd p, bitmapTest p q = true

/-- Page 0, whose address reads as null, is not handed out. -/
def ZeroKept (p : Pmm.State) : Prop := 0 < searchEnd p → bitmapTest p 0 = true

/-- The cache with the smallest blocks that are large enough. -/
def Smallest (size : Nat) (s : State) (i : Fin 8) : Prop :=
  size ≤ (s.caches i).blockSize ∧
    ∀ j, size ≤ (s.caches j).blockSize → (s.caches i).blockSize ≤ (s.caches j).blockSize

/-- A request nothing is left for. -/
def Refused (size : Nat) (s : State) : Prop :=
  size = 0 ∨ (2048 < size ∧ NoPage s.pmm) ∨
    (size ≤ 2048 ∧ ∃ i, Smallest size s i ∧ (s.caches i).freeList = 0 ∧ NoPage s.pmm)

theorem pmmAllocPage_zeroKept {p : Pmm.State} (h : ZeroKept p) :
    ((pmmAllocPage p).1 ≠ 0 ∧ ¬NoPage p) ∨ (pmmAllocPage p = (0, p) ∧ NoPage p) := by
  obtain ⟨page, hlt, hclear, _, hcall⟩ | ⟨hfull, hcall⟩ := pmmAllocPage_cases p
  · have hne : page ≠ 0 := by
      rintro rfl
      rw [h hlt] at hclear
      exact Bool.false_ne_true hclear.symm
    refine .inl ⟨?_, fun hfull => ?_⟩
    · rw [hcall, pageSize]
      exact Nat.mul_ne_zero hne (by decide)
    · rw [hfull page hlt] at hclear
      exact Bool.false_ne_true hclear.symm
  · exact .inr ⟨hcall, hfull⟩

section Call

variable {s : State}

theorem blockSizes_mono {i j : Fin 8} (h : i < j) : blockSizes i < blockSizes j := by
  revert i j
  decide

/-- The search stops at the smallest cache. -/
theorem cacheFor_eq_some (h : Configured s) {size : Nat} {i : Fin 8} :
    cacheFor size s = some i ↔ Smallest size s i := by
  have hsize : ∀ j, (s.caches j).blockSize = blockSizes j := fun j => (h j).1
  have hfirst : ∀ j, cacheFor size s = some j → Smallest size s j := by
    intro j hj
    have hroom := List.find?_some hj
    refine ⟨of_decide_eq_true hroom, fun k hk => ?_⟩
    obtain ⟨_, before, after, hsplit, hbefore⟩ := List.find?_eq_some_iff_append.mp hj
    have hsorted := List.pairwise_lt_finRange 8
    rw [hsplit] at hsorted
    have hmem : k ∈ before ++ j :: after := hsplit ▸ List.mem_finRange k
    obtain hin | hin := List.mem_append.mp hmem
    · have hnot := hbefore k hin
      rw [decide_eq_true hk] at hnot
      exact absurd hnot (by decide)
    · obtain rfl | hlater := List.mem_cons.mp hin
      · exact Nat.le_refl _
      · have hlt := List.rel_of_pairwise_cons (List.pairwise_append.mp hsorted).2.1 hlater
        rw [hsize, hsize]
        exact Nat.le_of_lt (blockSizes_mono hlt)
  refine ⟨hfirst i, fun hi => ?_⟩
  cases hfound : cacheFor size s with
  | none =>
    have hnot := List.find?_eq_none.mp hfound i (List.mem_finRange i)
    exact absurd (decide_eq_true hi.1) hnot
  | some j =>
    have hj := hfirst j hfound
    have hle := hi.2 j hj.1
    have hge := hj.2 i hi.1
    rw [hsize, hsize] at hle hge
    obtain hlt | rfl | hgt := lt_trichotomy i j
    · have := blockSizes_mono hlt
      omega
    · rfl
    · have := blockSizes_mono hgt
      omega

theorem cacheFor_isSome (h : Configured s) {size : Nat} (hle : size ≤ 2048) :
    ∃ i, cacheFor size s = some i := by
  cases hfound : cacheFor size s with
  | none =>
    have hnot := List.find?_eq_none.mp hfound 7 (List.mem_finRange 7)
    have hlast : (s.caches 7).blockSize = 2048 := (h 7).1
    rw [hlast] at hnot
    exact absurd (decide_eq_true hle) hnot
  | some i => exact ⟨i, rfl⟩

/-- A page holds at least one block of each cache. -/
theorem stride_le_page (i : Fin 8) : 0 < 4096 / stride (some i) := by
  revert i
  decide

/-- A cache that got a page has a free block. -/
theorem cacheGrow_freeList {i : Fin 8} (h : ConfiguredAt i s) (hpage : (pmmAllocPage s.pmm).1 ≠ 0) :
    ((cacheGrow i s).caches i).freeList ≠ 0 := by
  obtain ⟨n, hn⟩ := Nat.exists_eq_succ_of_ne_zero (Nat.ne_of_gt (stride_le_page i))
  rw [cacheGrow_eq h.2 hpage, hn, forUp_succ_last, pushBlock, setCache_same]
  exact Nat.ne_of_gt (Nat.add_pos_left (Nat.pos_of_ne_zero hpage) _)

theorem refill_noPage {i : Fin 8} (hcall : pmmAllocPage s.pmm = (0, s.pmm)) : refill i s = s := by
  rw [refill]
  split_ifs
  · rw [cacheGrow, hcall]
    exact if_pos rfl
  · rfl

/-- What `takeBlock` returns is null only when there is no block. -/
theorem takeBlock_null (cachesAddr : Nat) (i : Fin 8) (s : State) :
    ((takeBlock cachesAddr i s).1 = 0 ↔ (s.caches i).freeList = 0) ∧
      ((takeBlock cachesAddr i s).1 = 0 → (takeBlock cachesAddr i s).2 = s) := by
  by_cases hempty : (s.caches i).freeList = 0
  · have hcall : takeBlock cachesAddr i s = (0, s) := if_pos hempty
    rw [hcall]
    exact ⟨iff_of_true rfl hempty, fun _ => rfl⟩
  · have haddr : (takeBlock cachesAddr i s).1 = (s.caches i).freeList + headerSize :=
      congrArg Prod.fst (if_neg hempty)
    rw [haddr]
    exact ⟨iff_of_false (Nat.succ_ne_zero _) hempty, fun hnull => absurd hnull (Nat.succ_ne_zero _)⟩

/-- A request of at most 2048 bytes. -/
theorem smallRequest_null (cachesAddr : Nat) {i : Fin 8} (h : ConfiguredAt i s)
    (hzero : ZeroKept s.pmm) :
    ((takeBlock cachesAddr i (refill i s)).1 = 0 ↔ (s.caches i).freeList = 0 ∧ NoPage s.pmm) ∧
      ((takeBlock cachesAddr i (refill i s)).1 = 0 →
        (takeBlock cachesAddr i (refill i s)).2 = s) := by
  obtain ⟨hpage, hsome⟩ | ⟨hcall, hnone⟩ := pmmAllocPage_zeroKept hzero
  · have hfilled : ((refill i s).caches i).freeList ≠ 0 := by
      rw [refill]
      split_ifs with hempty
      · exact cacheGrow_freeList h hpage
      · exact hempty
    have hne := mt (takeBlock_null cachesAddr i (refill i s)).1.mp hfilled
    exact ⟨iff_of_false hne fun hfull => hsome hfull.2, fun hnull => absurd hnull hne⟩
  · rw [refill_noPage hcall]
    obtain ⟨hiff, hkept⟩ := takeBlock_null cachesAddr i s
    exact ⟨hiff.trans (and_iff_left hnone).symm, hkept⟩

theorem kmallocPage_null (hzero : ZeroKept s.pmm) :
    ((kmallocPage s).1 = 0 ↔ NoPage s.pmm) ∧ ((kmallocPage s).1 = 0 → (kmallocPage s).2 = s) := by
  obtain ⟨hpage, hsome⟩ | ⟨hcall, hnone⟩ := pmmAllocPage_zeroKept hzero
  · have haddr : (kmallocPage s).1 = (pmmAllocPage s.pmm).1 + headerSize :=
      congrArg Prod.fst (if_neg hpage)
    rw [haddr]
    exact ⟨iff_of_false (Nat.succ_ne_zero _) hsome, fun hnull => absurd hnull (Nat.succ_ne_zero _)⟩
  · have hpage : kmallocPage s = (0, s) := by
      rw [kmallocPage, hcall]
      exact if_pos rfl
    rw [hpage]
    exact ⟨iff_of_true rfl hnone, fun _ => rfl⟩

theorem kmalloc_refused (cachesAddr size : Nat) (h : Configured s) (hzero : ZeroKept s.pmm) :
    ((kmalloc cachesAddr size s).1 = 0 ↔ Refused size s) ∧
      ((kmalloc cachesAddr size s).1 = 0 → (kmalloc cachesAddr size s).2 = s) := by
  rw [Refused]
  by_cases hsize : size = 0
  · rw [kmalloc, if_pos hsize]
    exact ⟨iff_of_true rfl (.inl hsize), fun _ => rfl⟩
  by_cases hlarge : 2048 < size
  · have hcall : kmalloc cachesAddr size s = kmallocPage s :=
      (if_neg hsize).trans (if_pos hlarge)
    obtain ⟨hiff, hkept⟩ := kmallocPage_null hzero
    rw [hcall, hiff]
    refine ⟨⟨fun hnone => .inr (.inl ⟨hlarge, hnone⟩), ?_⟩, fun hnull => hkept (hiff.mpr hnull)⟩
    rintro (hnull | ⟨_, hnone⟩ | ⟨hle, _⟩)
    · exact absurd hnull hsize
    · exact hnone
    · exact absurd hle (Nat.not_le_of_lt hlarge)
  · obtain ⟨i, hi⟩ := cacheFor_isSome h (Nat.le_of_not_lt hlarge)
    have hcall : kmalloc cachesAddr size s = takeBlock cachesAddr i (refill i s) := by
      rw [kmalloc, if_neg hsize, if_neg (by exact hlarge), hi]
    obtain ⟨hiff, hkept⟩ := smallRequest_null cachesAddr (h i) hzero
    rw [hcall, hiff]
    refine ⟨⟨fun hempty => .inr (.inr ⟨Nat.le_of_not_lt hlarge, i, (cacheFor_eq_some h).mp hi,
      hempty⟩), ?_⟩, fun hnull => hkept (hiff.mpr hnull)⟩
    rintro (hnull | ⟨hlarge', _⟩ | ⟨_, j, hj, hempty⟩)
    · exact absurd hnull hsize
    · exact absurd hlarge' hlarge
    · rw [← cacheFor_eq_some h, hi] at hj
      rwa [Option.some.inj hj]

end Call

/-- The pages below `first` are taken, and those behind are free as far as `pmm_init` has set
them. -/
structure FreeFrom (first : Nat) (base : Pmm.State) : Prop where
  pos : 0 < first
  taken : ∀ q < first, bitmapTest base q = true
  clear : ∀ q, first ≤ q → q < zeroedPages → bitmapTest base q = false

section Progress

variable {first : Nat} {base s : Pmm.State} {pages : List Nat}

/-- A taken page behind the reserved ones is one of those held. -/
theorem FreeFrom.held (h : FreeFrom first base) (howns : Owns base s pages) {q : Nat}
    (hfirst : first ≤ q) (hq : q < zeroedPages) (hset : bitmapTest s q = true) :
    q ∈ pages.map (· / 4096) := by
  have hlt : zeroedPages = 1048544 := rfl
  have hpos := h.pos
  obtain hzero | hbase | ⟨p, hp, hpq⟩ := howns.origin q (by omega) hset
  · omega
  · rw [h.clear q hfirst hq] at hbase
    exact absurd hbase Bool.false_ne_true
  · exact List.mem_map.mpr ⟨p, hp, hpq⟩

/-- With all pages below it taken, a page has no greater number than the pages held account
for. -/
theorem FreeFrom.first_fit (h : FreeFrom first base) (howns : Owns base s pages) {page : Nat}
    (hbelow : ∀ q < page, bitmapTest s q = true) (hroom : first + pages.length < zeroedPages) :
    page ≤ first + pages.length := by
  by_contra hgt
  have hsub : List.range' first (pages.length + 1) ⊆ pages.map (· / 4096) := by
    intro q hq
    have hrange := List.mem_range'_1.mp hq
    exact h.held howns hrange.1 (by omega) (hbelow q (by omega))
  have hle := (List.subperm_of_subset List.nodup_range' hsub).length_le
  rw [List.length_range', List.length_map] at hle
  omega

/-- With fewer pages held than there are, one is left. -/
theorem FreeFrom.page_left (h : FreeFrom first base) (howns : Owns base s pages)
    (hroom : first + pages.length < zeroedPages) (hsearch : first + pages.length < searchEnd s) :
    ¬NoPage s := by
  intro hfull
  have hbelow : ∀ q < first + pages.length + 1, bitmapTest s q = true :=
    fun q hq => hfull q (by omega)
  exact Nat.not_succ_le_self _ (h.first_fit howns hbelow hroom)

variable {cachesAddr size : Nat} {w : World}

/-- Then every request but the empty one is served. Below 4 MiB pages are found in early mode
too. -/
theorem FreeFrom.serves (h : FreeFrom first base) (hinv : Inv cachesAddr base w)
    (htotal : base.totalPages = 1048575) (hroom : first + w.pages.length < 1024)
    (hsize : 0 < size) : (kmalloc cachesAddr size w.heap).1 ≠ 0 := by
  obtain ⟨free, hpool⟩ := hinv.pool
  have howns := hpool.owns
  have hsearch : 1024 ≤ searchEnd w.heap.pmm := by
    rw [searchEnd, hpool.samePages, htotal]
    split_ifs <;> decide
  have hleft : ¬NoPage w.heap.pmm := by
    have hlt : zeroedPages = 1048544 := rfl
    refine h.page_left howns ?_ ?_
    · rw [List.length_map]
      omega
    · rw [List.length_map]
      omega
  have hzero : ZeroKept w.heap.pmm :=
    fun _ => howns.reserved 0 (by decide) (h.taken 0 h.pos)
  rw [Ne, (kmalloc_refused cachesAddr size hinv.configured hzero).1]
  rintro (hnull | ⟨_, hnone⟩ | ⟨_, i, _, _, hnone⟩)
  · exact absurd hnull (Nat.ne_of_gt hsize)
  · exact hleft hnone
  · exact hleft hnone

/-- The cache a request goes to, once all are set up. -/
def classFor (size : Nat) : Class :=
  if largestBlock < size then none
  else (List.finRange 8).find? fun i => decide (size ≤ blockSizes i)

theorem servedBy_configured (h : Configured w.heap) (size : Nat) :
    servedBy size w.heap = classFor size := by
  have hsizes : (fun i => decide (size ≤ (w.heap.caches i).blockSize)) =
      fun i => decide (size ≤ blockSizes i) := funext fun i => by rw [(h i).1]
  rw [servedBy, cacheFor, hsizes, classFor]

/-- It adds a block to those that are live. -/
theorem FreeFrom.adds (h : FreeFrom first base) (hinv : Inv cachesAddr base w)
    (htotal : base.totalPages = 1048575) (hroom : first + w.pages.length < 1024)
    (hsize : 0 < size) : ∃ b, (w.kmalloc cachesAddr size).live = (b, classFor size) :: w.live := by
  have hserved := h.serves hinv htotal hroom hsize
  refine ⟨(kmalloc cachesAddr size w.heap).1 - headerSize, ?_⟩
  rw [World.kmalloc, handed, if_neg hserved, List.singleton_append,
    servedBy_configured hinv.configured]

/-- A request obtains one page at most. -/
theorem pages_kmalloc (cachesAddr size : Nat) (w : World) :
    (w.kmalloc cachesAddr size).pages.length ≤ w.pages.length + 1 := by
  have hone : ∀ c, (obtainedPage c w.heap).length ≤ 1 := by
    intro c
    rw [obtainedPage]
    split_ifs
    · exact Nat.zero_le 1
    · exact Nat.le_refl 1
  have hnew : (obtained size w.heap).length ≤ 1 := by
    rw [obtained]
    split_ifs
    · exact Nat.zero_le 1
    · exact hone none
    · split
      · rw [refillPage]
        split_ifs
        · exact hone _
        · exact Nat.zero_le 1
      · exact Nat.zero_le 1
  rw [World.kmalloc, List.length_append]
  omega

theorem pmmInit_freeFrom {fuel kernelEnd mmapAddr mmapLength : Nat} {s t : Pmm.State}
    (h : pmmInit fuel kernelEnd mmapAddr mmapLength s = some t) :
    FreeFrom (kernelPages kernelEnd) t := by
  have hle : kernelPages kernelEnd ≤ 1048576 := reservedPages_le _ _
  have hlt : zeroedPages = 1048544 := rfl
  refine ⟨Nat.succ_pos _, fun q hq => ?_, fun q hq hzeroed => ?_⟩
  · rw [(pmmInit_spec h).bits q (by omega), decide_eq_true hq, Bool.true_or]
  · exact (pmmInit_clear_iff h (by omega)).mpr ⟨hq, .inl hzeroed⟩

theorem pages_start (pmm : Pmm.State) : (World.start pmm).pages.length ≤ 8 := by
  have height := init_pages_length (List.finRange 8) ⟨State.boot pmm, [], []⟩
  rw [List.length_finRange] at height
  exact height.trans (by simp)

end Progress

/-- The page allocator when `kmalloc_init` is called: `pmm_init` has set it up and pages have
been taken since, or there was no memory map and nothing has set it up. -/
inductive Booted (pmm : Pmm.State) : Prop
  | mapped {fuel kernelEnd mmapAddr mmapLength : Nat} {s t : Pmm.State}
      (hkernel : kernelEnd + bitmapBytes ≤ 4294967296)
      (hinit : pmmInit fuel kernelEnd mmapAddr mmapLength s = some t) (hlater : Later t pmm)
  | unmapped (htotal : pmm.totalPages = 0) (hearly : pmm.earlyAlloc = false)

/-- A heap that never got a page. -/
structure Empty (w : World) : Prop where
  configured : Configured w.heap
  noPages : searchEnd w.heap.pmm = 0
  empty : ∀ i, (w.heap.caches i).freeList = 0
  live : w.live = []

theorem searchEnd_zero {p : Pmm.State} (h : searchEnd p = 0) : pmmAllocPage p = (0, p) := by
  obtain ⟨page, hlt, _⟩ | ⟨_, hcall⟩ := pmmAllocPage_cases p
  · omega
  · exact hcall

/-- A round of `kmalloc_init` without pages. -/
theorem cacheGrow_noPage {s : State} {i : Fin 8} (hcall : pmmAllocPage s.pmm = (0, s.pmm)) :
    cacheGrow i s = s := by
  rw [cacheGrow, hcall]
  exact if_pos rfl

theorem init_noPages (is : List (Fin 8)) {w : World}
    (hcall : pmmAllocPage w.heap.pmm = (0, w.heap.pmm)) :
    (is.foldl (fun w i => w.init i) w).heap = is.foldl (fun s i => initCache i s) w.heap ∧
      (is.foldl (fun w i => w.init i) w).live = w.live := by
  induction is generalizing w with
  | nil => exact ⟨rfl, rfl⟩
  | cons i is ih =>
    have hround : (w.init i).heap = initCache i w.heap :=
      cacheGrow_noPage (s := initCache i w.heap) hcall
    obtain ⟨hheap, hlive⟩ := ih (w := w.init i) (by rw [hround]; exact hcall)
    refine ⟨?_, hlive⟩
    rw [List.foldl_cons, List.foldl_cons, hheap, hround]

theorem initCaches (is : List (Fin 8)) (s : State) :
    (is.foldl (fun s i => initCache i s) s).pmm = s.pmm ∧
      ∀ i, (is.foldl (fun s i => initCache i s) s).caches i =
        if i ∈ is then ⟨blockSizes i, blockSizes i + headerSize, 0, 0⟩ else s.caches i := by
  induction is generalizing s with
  | nil => exact ⟨rfl, fun i => (if_neg List.not_mem_nil).symm⟩
  | cons j is ih =>
    obtain ⟨hpmm, hcaches⟩ := ih (initCache j s)
    refine ⟨hpmm, fun i => (hcaches i).trans ?_⟩
    by_cases hin : i ∈ is
    · rw [if_pos hin, if_pos (List.mem_cons_of_mem j hin)]
    · rw [if_neg hin]
      by_cases hij : i = j
      · rw [hij, if_pos List.mem_cons_self]
        exact setCache_same _ _ _
      · rw [if_neg (fun hmem => (List.mem_cons.mp hmem).elim hij hin)]
        exact setCache_of_ne _ _ _ hij

theorem empty_start {pmm : Pmm.State} (h : searchEnd pmm = 0) : Empty (World.start pmm) := by
  obtain ⟨hheap, hlive⟩ := init_noPages (List.finRange 8) (w := ⟨State.boot pmm, [], []⟩)
    (searchEnd_zero h)
  obtain ⟨hpmm, hcaches⟩ := initCaches (List.finRange 8) (State.boot pmm)
  rw [← World.start] at hheap hlive
  have hcache : ∀ i, (World.start pmm).heap.caches i =
      ⟨blockSizes i, blockSizes i + headerSize, 0, 0⟩ := by
    intro i
    rw [hheap, hcaches, if_pos (List.mem_finRange i)]
  refine ⟨fun i => ?_, ?_, fun i => ?_, hlive⟩
  · rw [ConfiguredAt, hcache]
    exact ⟨rfl, rfl⟩
  · rw [hheap, hpmm]
    exact h
  · rw [hcache]

theorem Empty.refused {w : World} (h : Empty w) (size : Nat) : Refused size w.heap := by
  have hnone : NoPage w.heap.pmm := fun q hq => absurd hq (h.noPages ▸ Nat.not_lt_zero q)
  by_cases hlarge : 2048 < size
  · exact .inr (.inl ⟨hlarge, hnone⟩)
  · obtain ⟨i, hi⟩ := cacheFor_isSome h.configured (Nat.le_of_not_lt hlarge)
    exact .inr (.inr ⟨Nat.le_of_not_lt hlarge, i, (cacheFor_eq_some h.configured).mp hi,
      h.empty i, hnone⟩)

theorem Empty.kmalloc {w : World} (h : Empty w) (cachesAddr size : Nat) :
    Kmalloc.kmalloc cachesAddr size w.heap = (0, w.heap) := by
  have hzero : ZeroKept w.heap.pmm := fun hpos => absurd hpos (h.noPages ▸ Nat.lt_irrefl 0)
  obtain ⟨hiff, hkept⟩ := kmalloc_refused cachesAddr size h.configured hzero
  have hnull := hiff.mpr (h.refused size)
  exact Prod.ext hnull (hkept hnull)

theorem empty_reach {cachesAddr : Nat} {fresh : List (Nat × Class) → Prop} {pmm : Pmm.State}
    {w : World} (hend : searchEnd pmm = 0) (h : Reach cachesAddr fresh pmm w) : Empty w := by
  induction h with
  | start => exact empty_start hend
  | @kmalloc w size _ _ ih =>
    have hcall := ih.kmalloc cachesAddr size
    have hheap : (w.kmalloc cachesAddr size).heap = w.heap := congrArg Prod.snd hcall
    have hlive : (w.kmalloc cachesAddr size).live = [] := by
      rw [World.kmalloc, hcall, handed, if_pos rfl, List.nil_append]
      exact ih.live
    exact ⟨hheap ▸ ih.configured, hheap ▸ ih.noPages, hheap ▸ ih.empty, hlive⟩
  | kfree _ hu _ ih =>
    rw [ih.live] at hu
    exact absurd hu List.not_mem_nil
  | write j v _ hu _ ih =>
    rw [ih.live] at hu
    exact absurd hu List.not_mem_nil

/-- In every world the page allocator keeps page 0. -/
theorem reach_zeroKept {cachesAddr : Nat} {pmm : Pmm.State} {w : World}
    (hfit : CachesFit cachesAddr) (hboot : Booted pmm)
    (h : Reach cachesAddr (fun _ => True) pmm w) : Configured w.heap ∧ ZeroKept w.heap.pmm := by
  cases hboot with
  | mapped hkernel hinit hlater =>
    have hg := guarded_later (pmmInit_guarded hinit hkernel) hlater
    have hinv := inv_reach hfit hg.totalPages (fun _ _ => .inl hg) h
    obtain ⟨free, hpool⟩ := hinv.pool
    have hbase := hlater.taken 0 (by decide) (pmmInit_zero hinit)
    exact ⟨hinv.configured, fun _ => hpool.owns.reserved 0 (by decide) hbase⟩
  | unmapped htotal hearly =>
    have hend : searchEnd pmm = 0 := by
      rw [searchEnd, hearly, htotal]
      rfl
    have hempty := empty_reach hend h
    exact ⟨hempty.configured, fun hpos => absurd hpos (hempty.noPages ▸ Nat.lt_irrefl 0)⟩

/-- In every reachable state `kmalloc` returns null exactly for a request nothing is left for,
and then the whole state is as before. -/
theorem kmalloc_null_iff {cachesAddr : Nat} {pmm : Pmm.State} {w : World}
    (hfit : CachesFit cachesAddr) (hboot : Booted pmm)
    (h : Reach cachesAddr (fun _ => True) pmm w) (size : Nat) :
    ((kmalloc cachesAddr size w.heap).1 = 0 ↔ Refused size w.heap) ∧
      ((kmalloc cachesAddr size w.heap).1 = 0 → (kmalloc cachesAddr size w.heap).2 = w.heap) := by
  obtain ⟨hconf, hzero⟩ := reach_zeroKept hfit hboot h
  exact kmalloc_refused cachesAddr size hconf hzero

/-- On the machine of 128 MiB every request is served as long as the heap holds few pages. -/
theorem ramMap_serves {fuel : Nat} {t : Pmm.State} {w : World}
    (h : pmmInit fuel 0x110000 0x9000 24 ramMap = some t)
    (hrun : Reach 0x104000 (fun _ => True) t w) (hpages : w.pages.length ≤ 700) (size : Nat)
    (hsize : 0 < size) : (kmalloc 0x104000 size w.heap).1 ≠ 0 ∧
      ∃ b, (w.kmalloc 0x104000 size).live = (b, classFor size) :: w.live := by
  have hguard := pmmInit_guarded h (by decide)
  have hinv := inv_reach ⟨by decide, by decide⟩ hguard.totalPages (fun _ _ => .inl hguard) hrun
  have hfirst : kernelPages 0x110000 = 304 := by decide
  have hfresh := pmmInit_freeFrom h
  have htotal := (pmmInit_spec h).totalPages
  exact ⟨hfresh.serves hinv htotal (by omega) hsize, hfresh.adds hinv htotal (by omega) hsize⟩

/-- A request of 100 bytes: served on the machine of 128 MiB, and refused when the boot loader has
left no map of it. -/
theorem kmalloc_null_iff_ramMap : ∃ fuel t, pmmInit fuel 0x110000 0x9000 24 ramMap = some t ∧
    (kmalloc 0x104000 100 (World.start t).heap).1 ≠ 0 ∧ ¬Refused 100 (World.start t).heap ∧
    kmalloc 0x104000 100 (World.start ramMap).heap = (0, (World.start ramMap).heap) := by
  have hfit : CachesFit 0x104000 := ⟨by decide, by decide⟩
  obtain ⟨fuel, t, h⟩ := pmmInit_terminates (show MapFits 0x9000 24 by decide) 0x110000 ramMap
  have hbooted : Booted t := .mapped (by decide) h (later_refl t)
  have hserved : (kmalloc 0x104000 100 (World.start t).heap).1 ≠ 0 :=
    (ramMap_serves h (.start trivial) ((pages_start t).trans (by decide)) 100 (by decide)).1
  have hempty : Empty (World.start ramMap) := empty_start rfl
  obtain ⟨hiff, hkept⟩ := kmalloc_null_iff (w := World.start ramMap) hfit (.unmapped rfl rfl)
    (.start trivial) 100
  have hnull := hiff.mpr (hempty.refused 100)
  refine ⟨fuel, t, h, hserved, ?_, Prod.ext hnull (hkept hnull)⟩
  exact mt (kmalloc_null_iff hfit hbooted (.start trivial) 100).1.mpr hserved

end Kmalloc
