import Nyrix.Base.AccessLog
import Nyrix.PagingMap
import Nyrix.PmmInit

/-!
# The memory accesses at boot

What `pmm_init` writes and where it reads the memory map, and the same for
`paging_init_full` up to the end of its walk of the map; nothing after that reads the map.
A log makes the decisions of the function it belongs to, on the same states.
-/

namespace Pmm

open ByteMemory BoundedLoop PackedBits Multiboot AccessLog

/-- `bitmap_clear` writes one word. -/
def visitPageLog (page : Nat) (s : State) : List Access :=
  if !bitmapTest s (page % 4294967296) then [.write (wordOf s.bitmap (page % 4294967296)) 4]
  else []

/-- The type is read once more for the stride, after the pages of the entry. -/
def walkBodyLog (w : Walk) : List Access :=
  let e := entryAt w.pmm.mem w.entry
  let pages :=
    if e.type = 1#32 then
      forUpLog visitPage visitPageLog (regionStart e) (regionEnd e - regionStart e) w.pmm
    else []
  .read w.entry entrySize w.pmm.mem ::
    (pages ++ [.read w.entry entrySize (walkBody w).pmm.mem])

def reservePageLog (page : Nat) (s : State) : List Access :=
  if !bitmapTest s page then [.write (wordOf s.bitmap page) 4] else []

def walkLog (fuel mmapAddr mmapLength : Nat) (s : State) : List Access :=
  (whileTrace (walkCond mmapAddr mmapLength) walkBody fuel ⟨mmapAddr, s⟩).flatMap walkBodyLog

def pmmInitLog (fuel kernelEnd mmapAddr mmapLength : Nat) (s : State) : List Access :=
  let s := walkStart kernelEnd mmapAddr mmapLength s
  fillLog kernelEnd (s.totalPages / 32) ++ (walkLog fuel mmapAddr mmapLength s ++
    match whileLoop (walkCond mmapAddr mmapLength) walkBody fuel ⟨mmapAddr, s⟩ with
    | some w => forUpLog reservePage reservePageLog 0
        (reservedPages w.pmm.bitmap (s.totalPages / 8)) w.pmm
    | none => [])

theorem runs_visitPage (page : Nat) (s : State) :
    Runs s.mem (visitPageLog page s) (visitPage page s).mem := by
  cases h : bitmapTest s (page % 4294967296) with
  | true =>
    simp only [visitPageLog, visitPage, h, Bool.not_true, Bool.false_eq_true, if_false]
    exact .nil _
  | false =>
    simp only [visitPageLog, visitPage, h, Bool.not_false, if_true]
    exact runs_write (store32_frame _ _ _)

theorem runs_reservePage (page : Nat) (s : State) :
    Runs s.mem (reservePageLog page s) (reservePage page s).mem := by
  cases h : bitmapTest s page with
  | true =>
    simp only [reservePageLog, reservePage, h, Bool.not_true, Bool.false_eq_true, if_false]
    exact .nil _
  | false =>
    simp only [reservePageLog, reservePage, h, Bool.not_false, if_true]
    exact runs_write (store32_frame _ _ _)

theorem runs_walkBody (w : Walk) : Runs w.pmm.mem (walkBodyLog w) (walkBody w).pmm.mem := by
  by_cases h : (entryAt w.pmm.mem w.entry).type = 1#32
  · have hmem : (walkBody w).pmm = forUp visitPage (regionStart (entryAt w.pmm.mem w.entry))
        (regionEnd (entryAt w.pmm.mem w.entry) - regionStart (entryAt w.pmm.mem w.entry))
        w.pmm := by
      simp only [walkBody, h, if_true]
    simp only [walkBodyLog, h, if_true, hmem]
    exact .read _ _ (runs_append (runs_forUp State.mem runs_visitPage _ _ _) (runs_read _ _ _))
  · have hmem : (walkBody w).pmm = w.pmm := by
      simp only [walkBody, h, if_false]
    simp only [walkBodyLog, h, if_false, hmem, List.nil_append]
    exact .read _ _ (runs_read _ _ _)

theorem runs_pmmInit {fuel kernelEnd mmapAddr mmapLength : Nat} {s t : State}
    (h : pmmInit fuel kernelEnd mmapAddr mmapLength s = some t) :
    Runs s.mem (pmmInitLog fuel kernelEnd mmapAddr mmapLength s) t.mem := by
  simp only [pmmInit, Option.map_eq_some_iff] at h
  obtain ⟨w, hw, rfl⟩ := h
  have hwalk := runs_while (fun w : Walk => w.pmm.mem) runs_walkBody hw
  have hreserve := runs_forUp State.mem runs_reservePage 0
    (reservedPages w.pmm.bitmap ((walkStart kernelEnd mmapAddr mmapLength s).totalPages / 8)) w.pmm
  have hfill : Runs s.mem
      (fillLog kernelEnd ((walkStart kernelEnd mmapAddr mmapLength s).totalPages / 32))
      (walkStart kernelEnd mmapAddr mmapLength s).mem := runs_fill kernelEnd _ _ s.mem
  simp only [pmmInitLog, hw]
  exact runs_append hfill (runs_append hwalk hreserve)

section Log

variable {base len : Nat}

/-- The bitmap words of the pages that an entry makes the walk clear miss the region. -/
def CountedApart (m : Mem) (bitmap base len : Nat) (e : MmapEntry) : Prop :=
  e.type = 1#32 → ∀ page, regionStart e ≤ page → page < regionEnd e →
    testBit m bitmap (page % 4294967296) = false →
      Sep (wordOf bitmap (page % 4294967296)) 4 base len

theorem apart_visitPageLog (page : Nat) (s : State) :
    Apart base len (visitPageLog page s) ↔
      (testBit s.mem s.bitmap (page % 4294967296) = false →
        Sep (wordOf s.bitmap (page % 4294967296)) 4 base len) := by
  cases h : testBit s.mem s.bitmap (page % 4294967296) with
  | true => simp [visitPageLog, bitmapTest, h]
  | false => simp [visitPageLog, bitmapTest, h]

theorem apart_reservePageLog (page : Nat) (s : State) :
    Apart base len (reservePageLog page s) ↔
      (testBit s.mem s.bitmap page = false → Sep (wordOf s.bitmap page) 4 base len) := by
  cases h : testBit s.mem s.bitmap page with
  | true => simp [reservePageLog, bitmapTest, h]
  | false => simp [reservePageLog, bitmapTest, h]

theorem apart_walkBodyLog (w : Walk) :
    Apart base len (walkBodyLog w) ↔
      CountedApart w.pmm.mem w.pmm.bitmap base len (entryAt w.pmm.mem w.entry) := by
  by_cases ht : (entryAt w.pmm.mem w.entry).type = 1#32
  · simp only [walkBodyLog, ht, if_true, apart_read, apart_append, apart_nil, and_true,
      apart_forUpLog, visitLoop_eq, apart_visitPageLog, CountedApart, true_imp_iff]
    constructor
    · intro h page hlo hhi
      have hpage := h (page - regionStart (entryAt w.pmm.mem w.entry)) (by omega)
      rwa [Nat.add_sub_cancel' hlo] at hpage
    · intro h k hk
      exact h _ (Nat.le_add_right _ k) (by omega)
  · simp [walkBodyLog, CountedApart, ht]

/-- The walk changes neither the memory nor the bitmap. -/
theorem apart_walkLog {fuel mmapAddr mmapLength : Nat} {s : State} :
    Apart base len (walkLog fuel mmapAddr mmapLength s) ↔
      ∀ e ∈ (inspected fuel mmapAddr mmapLength s).map (entryAt s.mem),
        CountedApart s.mem s.bitmap base len e := by
  have hstart : SameMap s (Walk.mk mmapAddr s).pmm := sameMap_refl s
  have hround : ∀ w ∈ whileTrace (walkCond mmapAddr mmapLength) walkBody fuel ⟨mmapAddr, s⟩,
      (Apart base len (walkBodyLog w) ↔
        CountedApart s.mem s.bitmap base len (entryAt s.mem w.entry)) := by
    intro w hw
    have h := (whileTrace_induct (fun w : Walk => SameMap s w.pmm)
      (fun w _ h => walkBody_sameMap h) fuel ⟨mmapAddr, s⟩ hstart w hw).1
    rw [apart_walkBodyLog, sameMap_mem h, sameMap_bitmap h]
  rw [walkLog, apart_flatMap, inspected, List.map_map]
  constructor
  · intro h e he
    obtain ⟨w, hw, rfl⟩ := List.mem_map.mp he
    exact (hround w hw).mp (h w hw)
  · intro h w hw
    exact (hround w hw).mpr (h _ (List.mem_map.mpr ⟨w, hw, rfl⟩))

theorem apart_reserveLog {n : Nat} {s : State} (hn : n ≤ 1048576) :
    Apart base len (forUpLog reservePage reservePageLog 0 n s) ↔
      ∀ page < n, testBit s.mem s.bitmap page = false → Sep (wordOf s.bitmap page) 4 base len := by
  rw [apart_forUpLog]
  refine forall₂_congr fun page hp => ?_
  -- the rounds before have set other bits only
  have hloop := reserveLoop_spec page s (by omega)
  have hbitmap : (forUp reservePage 0 page s).bitmap = s.bitmap := by rw [hloop.rest]
  have hbit := hloop.bits page (by omega)
  simp only [bitmapTest, lt_self_iff_false, decide_false, Bool.false_or, hbitmap] at hbit
  rw [apart_reservePageLog, Nat.zero_add, hbitmap, hbit]

theorem apart_pmmInitLog {fuel kernelEnd mmapAddr mmapLength : Nat} {s t : State}
    (h : pmmInit fuel kernelEnd mmapAddr mmapLength s = some t) :
    Apart base len (pmmInitLog fuel kernelEnd mmapAddr mmapLength s) ↔
      Sep kernelEnd 131068 base len ∧
      (∀ e ∈ (inspected fuel mmapAddr mmapLength (walkStart kernelEnd mmapAddr mmapLength s)).map
          (entryAt (zeroedMem kernelEnd s.mem)),
        CountedApart (zeroedMem kernelEnd s.mem) kernelEnd base len e) ∧
      ∀ page < kernelPages kernelEnd, testBit (zeroedMem kernelEnd s.mem) kernelEnd page = false →
        Sep (wordOf kernelEnd page) 4 base len := by
  obtain ⟨w, hw⟩ := pmmInit_walk h
  have hresult := walk_result hw
  have hmem : w.pmm.mem = zeroedMem kernelEnd s.mem := by rw [hresult, walkStart_mem]
  have hbitmap : w.pmm.bitmap = kernelEnd := by rw [hresult, walkStart_bitmap]
  simp only [pmmInitLog, hw, apart_append, apart_fillLog, apart_walkLog, walkStart_mem,
    walkStart_bitmap, walkStart_totalPages, apart_reserveLog (reservedPages_le _ _), hmem, hbitmap,
    kernelPages, Nat.reduceDiv, Nat.reduceMul]

end Log

end Pmm

namespace Paging

open ByteMemory BoundedLoop PackedBits PageTable Multiboot AccessLog

def ensureTableLog (d : Nat) (s : State) : List Access :=
  if Present (pde s.mem s.pageDirectory d) then []
  else fillLog s.nextPt 1024 ++ [.write (s.pageDirectory + 4 * d) 4]

def setEntryLog (phys : Nat) (s : State) : List Access :=
  [.write (frameOf (pde s.mem s.pageDirectory (pdIdx phys)) + 4 * ptIdx phys) 4]

def mapPageLog (phys : Nat) (s : State) : List Access :=
  ensureTableLog (pdIdx phys) s ++ setEntryLog phys (ensureTable (pdIdx phys) s)

def mapRangeLog (base stop : Nat) (s : State) : List Access :=
  forUpLog (fun k => mapPage (base + 0x1000 * k)) (fun k => mapPageLog (base + 0x1000 * k)) 0
    ((stop - base + 0xFFF) / 0x1000) s

def mapEntryLog (e : MmapEntry) (s : State) : List Access :=
  match entryRange e with
  | some (base, stop) => mapRangeLog base.toNat stop.toNat s
  | none => []

def walkBodyLog (w : Walk) : List Access :=
  .read w.entry entrySize w.paging.mem ::
    mapEntryLog (entryAt w.paging.mem w.entry) w.paging

def lowTablesLog : List Access :=
  fillLog 0x200000 1024 ++ (fillLog 0x201000 1024 ++ [.write 0x200000 4])

def walkLog (fuel mmapAddr mmapLength : Nat) (s : State) : List Access :=
  (whileTrace (walkCond mmapAddr mmapLength) walkBody fuel ⟨mmapAddr, s⟩).flatMap walkBodyLog

def pagingInitLog (fuel mmapAddr mmapLength : Nat) (s : State) : List Access :=
  lowTablesLog ++ walkLog fuel mmapAddr mmapLength (lowTables s)

theorem runs_ensureTable (d : Nat) (s : State) :
    Runs s.mem (ensureTableLog d s) (ensureTable d s).mem := by
  by_cases h : Present (pde s.mem s.pageDirectory d)
  · simp only [ensureTableLog, ensureTable, h, if_true]
    exact .nil _
  · simp only [ensureTableLog, ensureTable, h, if_false]
    exact runs_append (runs_fill _ _ _ _) (runs_write (store32_frame _ _ _))

theorem runs_mapPage (phys : Nat) (s : State) :
    Runs s.mem (mapPageLog phys s) (mapPage phys s).mem :=
  runs_append (runs_ensureTable (pdIdx phys) s) (runs_write (store32_frame _ _ _))

theorem runs_mapEntry (e : MmapEntry) (s : State) :
    Runs s.mem (mapEntryLog e s) (mapEntry e s).mem := by
  cases h : entryRange e with
  | none =>
    simp only [mapEntryLog, mapEntry, h]
    exact .nil _
  | some r =>
    obtain ⟨base, stop⟩ := r
    simp only [mapEntryLog, mapEntry, h]
    exact runs_forUp State.mem (fun k s => runs_mapPage (base.toNat + 0x1000 * k) s) _ _ s

theorem runs_walkBody (w : Walk) : Runs w.paging.mem (walkBodyLog w) (walkBody w).paging.mem :=
  .read _ _ (runs_mapEntry _ _)

theorem runs_lowTables (s : State) : Runs s.mem lowTablesLog (lowTables s).mem :=
  runs_append (runs_fill _ _ _ _)
    (runs_append (runs_fill _ _ _ _) (runs_write (store32_frame _ _ _)))

theorem runs_pagingInit {fuel mmapAddr mmapLength : Nat} {s : State} {w : Walk}
    (h : whileLoop (walkCond mmapAddr mmapLength) walkBody fuel ⟨mmapAddr, lowTables s⟩ = some w) :
    Runs s.mem (pagingInitLog fuel mmapAddr mmapLength s) w.paging.mem :=
  runs_append (runs_lowTables s) (runs_while (fun w : Walk => w.paging.mem) runs_walkBody h)

end Paging
