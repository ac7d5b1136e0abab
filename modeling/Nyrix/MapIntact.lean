import Nyrix.PagingTables

/-!
# Whether the memory map survives until it has been read

`pmm_init` clears its bitmap before it reads the map and sets bits in it before
`paging_init_full` reads the map again; that function builds tables while it reads. Nobody
looks where the boot loader has put the map.
-/

namespace Paging

open ByteMemory BoundedLoop PackedBits PageTable Multiboot AccessLog

/-- The state of the walk before round `i`. -/
def walkAt (mmapAddr : Nat) (s : State) (i : Nat) : Walk :=
  forUp (fun _ => walkBody) 0 i ⟨mmapAddr, lowTables s⟩

/-- The entries the first `i` rounds read. -/
def reads (mmapAddr : Nat) (s : State) (i : Nat) : List MmapEntry :=
  (List.range i).map fun k => entryAt (walkAt mmapAddr s k).paging.mem (walkAt mmapAddr s k).entry

/-- The accesses of the first `i` rounds. -/
def roundsLog (mmapAddr : Nat) (s : State) (i : Nat) : List Access :=
  (List.range i).flatMap fun k => walkBodyLog (walkAt mmapAddr s k)

section Rounds

variable {mmapAddr n : Nat} {s : State}

theorem walkAt_succ (i : Nat) : walkAt mmapAddr s (i + 1) = walkBody (walkAt mmapAddr s i) :=
  forUp_succ_last _ 0 i _

theorem reads_succ (i : Nat) : reads mmapAddr s (i + 1) = reads mmapAddr s i ++
    [entryAt (walkAt mmapAddr s i).paging.mem (walkAt mmapAddr s i).entry] := by
  rw [reads, List.range_succ, List.map_append]
  rfl

theorem roundsLog_succ (i : Nat) : roundsLog mmapAddr s (i + 1) =
    roundsLog mmapAddr s i ++ walkBodyLog (walkAt mmapAddr s i) := by
  rw [roundsLog, List.range_succ, List.flatMap_append, List.flatMap_singleton]
  rfl

theorem walkAt_entry (hfit : mmapAddr + entrySize * n < 4294967296) {i : Nat} (hi : i ≤ n) :
    (walkAt mmapAddr s i).entry = mmapAddr + entrySize * i := by
  induction i with
  | zero => rfl
  | succ i ih =>
    rw [walkAt_succ]
    exact (mapWalk_counted hfit (ih (by omega))).2 (by omega)

theorem walkLog_eq (hfit : mmapAddr + entrySize * n < 4294967296) {fuel : Nat} (hf : n ≤ fuel) :
    walkLog fuel mmapAddr (entrySize * n) (lowTables s) = roundsLog mmapAddr s n := by
  have hcond : ∀ i ≤ n, walkCond mmapAddr (entrySize * n) (walkAt mmapAddr s i) = decide (i < n) :=
    fun i hi => (mapWalk_counted hfit (walkAt_entry hfit hi)).1
  have htrace := whileTrace_iterate n (fun i hi => (hcond i (by omega)).trans (decide_eq_true hi))
    ((hcond n (Nat.le_refl n)).trans (decide_eq_false (Nat.lt_irrefl n))) fuel hf
  rw [walkLog, htrace, List.flatMap_map]
  rfl

theorem runs_rounds (mmapAddr i : Nat) :
    Runs (lowTables s).mem (roundsLog mmapAddr s i) (walkAt mmapAddr s i).paging.mem := by
  induction i with
  | zero => exact .nil _
  | succ i ih =>
    rw [roundsLog_succ, walkAt_succ]
    exact runs_append ih (runs_walkBody _)

/-- The rounds build the tables of the entries they read. -/
theorem rounds_refine (mmapAddr i : Nat) :
    Refines (Space.addEntries (reads mmapAddr s i)) (lowTables s) (walkAt mmapAddr s i).paging
      (roundsLog mmapAddr s i) := by
  induction i with
  | zero => exact refines_refl _
  | succ i ih =>
    have hsucc : Space.addEntries (reads mmapAddr s (i + 1)) =
        Space.addEntry (entryAt (walkAt mmapAddr s i).paging.mem (walkAt mmapAddr s i).entry) ∘
          Space.addEntries (reads mmapAddr s i) := by
      rw [reads_succ]
      exact funext (Space.addEntries_concat _ _)
    rw [hsucc, roundsLog_succ, walkAt_succ]
    exact refines_trans ih (refines_read _ _ _ (mapEntry_refines _ _))

/-- The tables there are after `i` rounds, and what they took. -/
theorem rounds_span (mmapAddr : Nat) (hn : s.nextPt = 0x202000) (i : Nat) :
    Span 1 (tablesOf (reads mmapAddr s i)) (roundsLog mmapAddr s i) := by
  have h := (rounds_refine mmapAddr i .low (lowTables_rep hn).1).2
  rwa [Space.addEntries_length] at h

theorem apart_rounds_mono {base len i k : Nat} (hik : i ≤ k)
    (h : Apart base len (roundsLog mmapAddr s k)) : Apart base len (roundsLog mmapAddr s i) := by
  rw [roundsLog, apart_flatMap] at h ⊢
  intro j hj
  rw [List.mem_range] at hj
  exact h j (List.mem_range.mpr (by omega))

theorem apart_lowTablesLog {base len : Nat} :
    Apart base len lowTablesLog ↔ Sep dirAddr 0x2000 base len := by
  rw [lowTablesLog, apart_append, apart_append, apart_fillLog, apart_fillLog, apart_write]
  constructor
  · rintro ⟨hdir, htable, _⟩
    have hboth := sep_join hdir htable
    exact hboth
  · intro h
    exact ⟨sep_left h 0 (4 * 1024) (by decide), sep_left h 0x1000 (4 * 1024) (by decide),
      sep_left h 0 4 (by decide), apart_nil⟩

theorem pagingInitLog_eq {k fuel : Nat} (hfit : mmapAddr + entrySize * (k + 1) < 4294967296)
    (hf : k + 1 ≤ fuel) : pagingInitLog fuel mmapAddr (entrySize * (k + 1)) s =
      (lowTablesLog ++ roundsLog mmapAddr s k) ++ walkBodyLog (walkAt mmapAddr s k) := by
  rw [pagingInitLog, walkLog_eq hfit hf, roundsLog_succ, List.append_assoc]

theorem pagingInitLog_reads {k fuel : Nat} (hfit : mmapAddr + entrySize * (k + 1) < 4294967296)
    (hf : k + 1 ≤ fuel) :
    ∃ a n m, .read a n m ∈ pagingInitLog fuel mmapAddr (entrySize * (k + 1)) s := by
  rw [pagingInitLog_eq hfit hf]
  exact ⟨_, _, _, List.mem_append_right _ (List.mem_cons_self ..)⟩

/-- Of the walk everything but the writes of the last round comes before a read. -/
theorem unwritten_pagingInitLog {base len k fuel : Nat}
    (hfit : mmapAddr + entrySize * (k + 1) < 4294967296) (hf : k + 1 ≤ fuel) :
    Unwritten base len (pagingInitLog fuel mmapAddr (entrySize * (k + 1)) s) ↔
      Apart base len (lowTablesLog ++ roundsLog mmapAddr s k) := by
  rw [pagingInitLog_eq hfit hf, unwritten_append]
  constructor
  · rintro ⟨_, _, h⟩
    exact h ⟨_, _, _, List.mem_cons_self ..⟩
  · intro h
    refine ⟨unwritten_of_apart h, ?_, fun _ => h⟩
    refine List.pairwise_cons.mpr ⟨fun _ _ => trivial, ?_⟩
    exact unwritten_of_writesOnly (mapEntryLog_writesOnly _ _)

section Boot

variable {mem : Mem}

/-- The walk reads the boot loader's entries as long as the tables miss the map. -/
theorem reads_boot (hfit : mmapAddr + entrySize * n < 4294967296)
    (hkeep : ∀ x, mmapAddr ≤ x → x < mmapAddr + entrySize * n → load8 s.mem x = load8 mem x)
    {i : Nat} (hi : i ≤ n)
    (ha : ∀ j < i, Apart mmapAddr (entrySize * n) (lowTablesLog ++ roundsLog mmapAddr s j)) :
    reads mmapAddr s i = mmapEntries mem mmapAddr i := by
  refine List.map_congr_left fun j hj => ?_
  rw [List.mem_range] at hj
  have hruns := runs_append (runs_lowTables s) (runs_rounds mmapAddr j)
  rw [walkAt_entry hfit (by omega)]
  apply entryAt_congr
  intro b hb
  have hlo : mmapAddr ≤ mmapAddr + entrySize * j + b := by omega
  have hhi : mmapAddr + entrySize * j + b < mmapAddr + entrySize * n := by
    simp only [entrySize] at hb ⊢
    omega
  rw [runs_apart hruns (ha j hj) hlo hhi, hkeep _ hlo hhi]

theorem apart_rounds_iff (hn : s.nextPt = 0x202000)
    (hfit : mmapAddr + entrySize * n < 4294967296)
    (hkeep : ∀ x, mmapAddr ≤ x → x < mmapAddr + entrySize * n → load8 s.mem x = load8 mem x)
    {k : Nat} (hk : k < n) :
    Apart mmapAddr (entrySize * n) (lowTablesLog ++ roundsLog mmapAddr s k) ↔
      Sep dirAddr (0x1000 * (tablesOf (mmapEntries mem mmapAddr k) + 1)) mmapAddr
        (entrySize * n) := by
  constructor
  · intro h
    obtain ⟨hlow, hrounds⟩ := apart_append.mp h
    have hreads : reads mmapAddr s k = mmapEntries mem mmapAddr k :=
      reads_boot hfit hkeep (by omega) fun j hj =>
        apart_append.mpr ⟨hlow, apart_rounds_mono (by omega) hrounds⟩
    have hspan := rounds_span mmapAddr hn k
    rw [hreads] at hspan
    have hle := hspan.le
    have hsum : 0x1000 * (tablesOf (mmapEntries mem mmapAddr k) + 1) =
        0x2000 + 0x1000 * (tablesOf (mmapEntries mem mmapAddr k) - 1) := by omega
    rw [hsum]
    exact sep_join (apart_lowTablesLog.mp hlow) (hspan.covered _ _ hrounds)
  · intro h
    -- round by round: the tables built so far miss the map, so the next entry is intact
    have key : ∀ i ≤ k + 1, ∀ j < i,
        Apart mmapAddr (entrySize * n) (lowTablesLog ++ roundsLog mmapAddr s j) := by
      intro i
      induction i with
      | zero => exact fun _ j hj => absurd hj (Nat.not_lt_zero j)
      | succ i ih =>
        intro hi j hj
        have hbefore := ih (by omega)
        by_cases hji : j < i
        · exact hbefore j hji
        · obtain rfl : j = i := by omega
          have hreads := reads_boot hfit hkeep (by omega) hbefore
          have hspan := rounds_span mmapAddr hn j
          rw [hreads] at hspan
          have hle := hspan.le
          have hsub : mmapEntries mem mmapAddr j ⊆ mmapEntries mem mmapAddr k :=
            List.map_subset _ (List.range_subset.mpr (by omega))
          have hmono := tablesOf_mono hsub
          refine apart_append.mpr ⟨apart_lowTablesLog.mpr (sep_left h 0 _ (by omega)), ?_⟩
          exact hspan.inside _ _ (sep_left h 0 _ (by omega))
    exact key (k + 1) (Nat.le_refl _) k (Nat.lt_succ_self k)

end Boot

end Rounds

end Paging

namespace MapIntact

open ByteMemory BoundedLoop PackedBits Multiboot AccessLog

/-- What `pmm_init` and then, with the map it has recorded, `paging_init_full` do. -/
def bootLog (fuel kernelEnd mmapAddr mmapLength : Nat) (mem : Mem) : List Access :=
  Pmm.pmmInitLog fuel kernelEnd mmapAddr mmapLength (.boot mem) ++
    match Pmm.pmmInit fuel kernelEnd mmapAddr mmapLength (.boot mem) with
    | some t => Paging.pagingInitLog fuel t.gMmapAddr t.gMmapLength (.boot t.mem)
    | none => []

/-- No write before a read falls inside the map, and each read of an entry finds there the
bytes that the boot loader wrote. -/
structure Intact (mmapAddr n : Nat) (mem : Mem) (log : List Access) : Prop where
  unwritten : Unwritten mmapAddr (entrySize * n) log
  asWritten : ReadsBack mmapAddr (entrySize * n) mem log

/-- The map misses the bitmap words that are zeroed, those of the pages that are counted and
of the pages that are reserved, and the directory with the tables that the entries before
the last one need. -/
structure OutOfTheWay (kernelEnd mmapAddr n : Nat) (mem : Mem) : Prop where
  bitmap : Sep kernelEnd 131068 mmapAddr (entrySize * n)
  counted : ∀ entries,
    Pmm.Strided (Pmm.zeroedMem kernelEnd mem) ((mmapAddr + entrySize * n) % 4294967296) mmapAddr
      entries →
    ∀ e ∈ entries, Pmm.CountedApart (Pmm.zeroedMem kernelEnd mem) kernelEnd mmapAddr
      (entrySize * n) e
  reserved : ∀ page < Pmm.kernelPages kernelEnd,
    testBit (Pmm.zeroedMem kernelEnd mem) kernelEnd page = false →
      Sep (wordOf kernelEnd page) 4 mmapAddr (entrySize * n)
  tables : Sep Paging.dirAddr
    (0x1000 * (Paging.tablesOf (mmapEntries mem mmapAddr (n - 1)) + 1)) mmapAddr (entrySize * n)

section Boot

variable {fuel kernelEnd mmapAddr n : Nat} {mem : Mem} {t : Pmm.State}

theorem apart_pmmInitLog
    (h : Pmm.pmmInit fuel kernelEnd mmapAddr (entrySize * n) (.boot mem) = some t) :
    Apart mmapAddr (entrySize * n)
        (Pmm.pmmInitLog fuel kernelEnd mmapAddr (entrySize * n) (.boot mem)) ↔
      Sep kernelEnd 131068 mmapAddr (entrySize * n) ∧
      (∀ entries,
        Pmm.Strided (Pmm.zeroedMem kernelEnd mem) ((mmapAddr + entrySize * n) % 4294967296)
          mmapAddr entries →
        ∀ e ∈ entries, Pmm.CountedApart (Pmm.zeroedMem kernelEnd mem) kernelEnd mmapAddr
          (entrySize * n) e) ∧
      ∀ page < Pmm.kernelPages kernelEnd,
        testBit (Pmm.zeroedMem kernelEnd mem) kernelEnd page = false →
          Sep (wordOf kernelEnd page) 4 mmapAddr (entrySize * n) := by
  obtain ⟨w, hw⟩ := Pmm.pmmInit_walk h
  have hstrided := Pmm.strided_inspected hw
  rw [Pmm.walkStart_mem] at hstrided
  rw [Pmm.apart_pmmInitLog h]
  refine and_congr_right fun _ => and_congr_left fun _ => ?_
  constructor
  · intro hall entries hs
    rw [Pmm.strided_unique hs hstrided]
    exact hall
  · intro hall
    exact hall _ hstrided

theorem bootLog_eq (h : Pmm.pmmInit fuel kernelEnd mmapAddr (entrySize * n) (.boot mem) = some t) :
    bootLog fuel kernelEnd mmapAddr (entrySize * n) mem =
      Pmm.pmmInitLog fuel kernelEnd mmapAddr (entrySize * n) (.boot mem) ++
        Paging.pagingInitLog fuel mmapAddr (entrySize * n) (.boot t.mem) := by
  have hspec := Pmm.pmmInit_spec h
  simp only [bootLog, h, hspec.gMmapAddr, hspec.gMmapLength]

/-- Everything `pmm_init` writes, and all that the walk of the tables has written before its
last read, must miss the map. -/
theorem unwritten_bootLog (hfit : mmapAddr + entrySize * n < 4294967296) (hf : n ≤ fuel)
    (h : Pmm.pmmInit fuel kernelEnd mmapAddr (entrySize * n) (.boot mem) = some t) :
    Unwritten mmapAddr (entrySize * n) (bootLog fuel kernelEnd mmapAddr (entrySize * n) mem) ↔
      OutOfTheWay kernelEnd mmapAddr n mem := by
  rw [bootLog_eq h]
  cases n with
  | zero =>
    -- the empty region misses everything
    have hempty : ∀ a k b, Sep a k b (entrySize * 0) := fun _ _ _ _ _ j hj => absurd hj (by simp)
    refine iff_of_true (unwritten_of_apart fun a k _ => hempty a k mmapAddr) ?_
    exact ⟨hempty _ _ _, fun _ _ _ _ _ _ _ _ _ => hempty _ _ _, fun _ _ _ => hempty _ _ _,
      hempty _ _ _⟩
  | succ k =>
    have hkeep : ∀ {x}, Apart mmapAddr (entrySize * (k + 1))
          (Pmm.pmmInitLog fuel kernelEnd mmapAddr (entrySize * (k + 1)) (.boot mem)) →
        mmapAddr ≤ x → x < mmapAddr + entrySize * (k + 1) → load8 t.mem x = load8 mem x :=
      fun ha hlo hhi => runs_apart (Pmm.runs_pmmInit h) ha hlo hhi
    rw [unwritten_append, Paging.unwritten_pagingInitLog hfit hf]
    constructor
    · rintro ⟨_, hwalk, hpmm⟩
      have ha := hpmm (Paging.pagingInitLog_reads hfit hf)
      obtain ⟨hbitmap, hcounted, hreserved⟩ := (apart_pmmInitLog h).mp ha
      exact ⟨hbitmap, hcounted, hreserved, (Paging.apart_rounds_iff rfl hfit
        (fun x hlo hhi => hkeep ha hlo hhi) (Nat.lt_succ_self k)).mp hwalk⟩
    · intro ho
      have ha := (apart_pmmInitLog h).mpr ⟨ho.bitmap, ho.counted, ho.reserved⟩
      exact ⟨unwritten_of_apart ha, (Paging.apart_rounds_iff rfl hfit
        (fun x hlo hhi => hkeep ha hlo hhi) (Nat.lt_succ_self k)).mpr ho.tables, fun _ => ha⟩

/-- A map below the kernel and the directory is out of the way. -/
theorem outOfTheWay_of_low (hk : mmapAddr + entrySize * n ≤ kernelEnd)
    (hend : kernelEnd + 0x20000000 ≤ 4294967296)
    (hd : mmapAddr + entrySize * n ≤ 0x200000) : OutOfTheWay kernelEnd mmapAddr n mem := by
  have hword : ∀ page < 4294967296, Sep (wordOf kernelEnd page) 4 mmapAddr (entrySize * n) := by
    intro page hp
    simp only [wordOf]
    exact sep_of_ge (by omega) (by omega)
  constructor
  · exact sep_of_ge hk (by omega)
  · intro entries _ e _ _ page _ _ _
    exact hword _ (Nat.mod_lt page (by decide))
  · intro page hp _
    have hle : Pmm.kernelPages kernelEnd ≤ 1048576 := Pmm.reservedPages_le _ _
    exact hword page (by omega)
  · exact sep_of_ge hd (Paging.tablesOf_area (mmapEntries mem mmapAddr (n - 1)))

end Boot

/-- The map of `n` entries is intact whenever it is read exactly if it is out of the way. -/
theorem intact_iff (kernelEnd idtEntries mmapAddr n : Nat) (mem : Mem)
    (hfit : Pmm.MapFits mmapAddr (entrySize * n)) :
    (Paging.IdtFits idtEntries → ∃ fuel t v, n ≤ fuel ∧
      Pmm.pmmInit fuel kernelEnd mmapAddr (entrySize * n) (.boot mem) = some t ∧
      Paging.pagingInitFull fuel idtEntries t.gMmapAddr t.gMmapLength (.boot t.mem) = some v) ∧
    ∀ fuel t, n ≤ fuel →
      Pmm.pmmInit fuel kernelEnd mmapAddr (entrySize * n) (.boot mem) = some t →
      (Intact mmapAddr n mem (bootLog fuel kernelEnd mmapAddr (entrySize * n) mem) ↔
        OutOfTheWay kernelEnd mmapAddr n mem) := by
  have hlt : mmapAddr + entrySize * n < 4294967296 := by
    simp only [Pmm.MapFits] at hfit
    omega
  constructor
  · intro hidt
    obtain ⟨f₁, t, h₁⟩ := Pmm.pmmInit_terminates hfit kernelEnd (.boot mem)
    obtain ⟨f₂, v, h₂⟩ := Paging.pagingInitFull_returns hidt hlt (.boot t.mem)
    have hspec := Pmm.pmmInit_spec h₁
    refine ⟨max n (max f₁ f₂), t, v, Nat.le_max_left _ _, Pmm.pmmInit_mono h₁ (by omega), ?_⟩
    rw [hspec.gMmapAddr, hspec.gMmapLength]
    exact Paging.pagingInitFull_mono h₂ (by omega)
  · intro fuel t hf h
    rw [← unwritten_bootLog hlt hf h]
    constructor
    · exact Intact.unwritten
    · intro hu
      obtain ⟨w, hw, _⟩ := Paging.mapWalk_returns hlt (.boot t.mem)
      have hruns := runs_append (Pmm.runs_pmmInit h)
        (Paging.runs_pagingInit (whileLoop_mono hw hf))
      rw [← bootLog_eq h] at hruns
      exact ⟨hu, readsBack_of_unwritten hruns hu⟩

/-- The map of a machine with 128 MiB of memory at 0x9000. -/
theorem intact_iff_ramMem :
    ∃ fuel t, Pmm.pmmInit fuel 0x110000 0x9000 24 (.boot ramMem) = some t ∧
      Intact 0x9000 1 ramMem (bootLog fuel 0x110000 0x9000 24 ramMem) := by
  obtain ⟨hterm, hiff⟩ := intact_iff 0x110000 0x105000 0x9000 1 ramMem (by decide)
  obtain ⟨fuel, t, _, hf, h, _⟩ := hterm (by decide)
  exact ⟨fuel, t, h, (hiff fuel t hf h).mpr
    (outOfTheWay_of_low (by decide) (by decide) (by decide))⟩

/-- The same map at the end of the kernel image. -/
def endMem : Mem := storeEntry (fun _ => 0) 0x110000 ramEntry

/-- Its entry is zeroed as part of the bitmap before either function reads it. -/
theorem endMem_overwritten :
    mmapEntries endMem 0x110000 1 = [ramEntry] ∧
    (entryAt (Pmm.walkStart 0x110000 0x110000 24 (.boot endMem)).mem 0x110000).type = 0#32 ∧
    ∃ fuel t v, Pmm.pmmInit fuel 0x110000 0x110000 24 (.boot endMem) = some t ∧
      Paging.pagingInitFull fuel 0x105000 t.gMmapAddr t.gMmapLength (.boot t.mem) = some v ∧
      ¬Intact 0x110000 1 endMem (bootLog fuel 0x110000 0x110000 24 endMem) := by
  have hfit : Pmm.MapFits 0x110000 (entrySize * 1) := by decide
  have hlt : 0x110000 + entrySize * 1 < 4294967296 := by decide
  have hentries : mmapEntries endMem 0x110000 1 = [ramEntry] := by
    simp [mmapEntries, endMem]
  have hzeroed : ∀ i < 32767, load32 (Pmm.zeroedMem 0x110000 endMem) (0x110000 + 4 * i) = 0#32 :=
    fun i hi => fill_load 0x110000 (fun _ => 0#32) 32767 endMem (by decide) hi
  have htype := hzeroed 4 (by decide)
  obtain ⟨f₁, t, h₁⟩ := Pmm.pmmInit_terminates hfit 0x110000 (.boot endMem)
  obtain ⟨f₂, v, h₂⟩ := Paging.pagingInitFull_returns (by decide : Paging.IdtFits 0x105000) hlt
    (.boot t.mem)
  have hspec := Pmm.pmmInit_spec h₁
  have hpmm := Pmm.pmmInit_mono h₁ (show f₁ ≤ max 1 (max f₁ f₂) by omega)
  refine ⟨hentries, ?_, max 1 (max f₁ f₂), t, v, hpmm, ?_, ?_⟩
  · rw [Pmm.walkStart_mem]
    simp only [entryAt, Nat.reduceMul] at htype ⊢
    exact htype
  · rw [hspec.gMmapAddr, hspec.gMmapLength]
    exact Paging.pagingInitFull_mono h₂ (by omega)
  · intro hintact
    have ho := (unwritten_bootLog hlt (Nat.le_max_left _ _) hpmm).mp hintact.unwritten
    exact ho.bitmap 0 (by decide) 0 (by decide) rfl

end MapIntact
