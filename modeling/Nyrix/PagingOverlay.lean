import Nyrix.MapIntact

/-!
# Exactly which pages are mapped, wherever the map lies

The tables may come to lie on entries that have not been read yet. What the walk finds there is
the memory from before with the tables of the entries so far laid over it, and which tables these
are depends on the entries alone.
-/

namespace Paging

open ByteMemory BoundedLoop PackedBits PageTable Multiboot AccessLog

namespace Space

/-- The bytes of the directory and the tables. -/
def size (a : Space) : Nat := 0x1000 * (a.slots.length + 1)

def dirWord (a : Space) (d : Nat) : BitVec 32 :=
  if d ∈ a.slots then sharedEntry (0x201 + a.slots.idxOf d) else 0#32

open Classical in
/-- Entry `t` of the table of slot `d`. -/
noncomputable def tableWord (a : Space) (d t : Nat) : BitVec 32 :=
  if 1024 * d + t ∈ a.mapped then sharedEntry (1024 * d + t) else 0#32

/-- Word `w`, counted from the directory on. -/
noncomputable def word (a : Space) (w : Nat) : BitVec 32 :=
  if w < 1024 then a.dirWord w else a.tableWord (a.slots.getD (w / 1024 - 1) 0) (w % 1024)

/-- The memory with the directory and the tables laid over it. -/
noncomputable def laidOver (a : Space) (m : Mem) : Mem := fun x =>
  if dirAddr ≤ x.toNat ∧ x.toNat < dirAddr + a.size then
    byteOf (a.word ((x.toNat - dirAddr) / 4)) (x.toNat % 4)
  else m x

end Space

/-- The address space after `i` entries, each taken from the memory with the tables of the entries
before laid over it. -/
noncomputable def spaceAt (mem : Mem) (mmapAddr : Nat) : Nat → Space
  | 0 => .low
  | i + 1 => (spaceAt mem mmapAddr i).addEntry
      (entryAt ((spaceAt mem mmapAddr i).laidOver mem) (mmapAddr + entrySize * i))

/-- The entries of the map as the tables of the entries before leave them. -/
noncomputable def leftEntries (mem : Mem) (mmapAddr n : Nat) : List MmapEntry :=
  (List.range n).map fun i =>
    entryAt ((spaceAt mem mmapAddr i).laidOver mem) (mmapAddr + entrySize * i)

/-- No entry has a byte in common with the directory and the tables of the entries before it. An
entry has 20 bytes and a reserved word that is not read. -/
def ReadIntact (mem : Mem) (mmapAddr n : Nat) : Prop :=
  ∀ i < n, Sep dirAddr (0x1000 * (tablesOf (mmapEntries mem mmapAddr i) + 1))
    (mmapAddr + entrySize * i) 20

/-- From 4 MiB on the entries in `left` add the usable pages of the map. -/
def AddsUsable (entries left : List MmapEntry) : Prop :=
  ∀ p, 1024 ≤ p → p < 1048576 → (p ∈ entriesPages left ↔ Usable entries p)

/-- When the usable pages are mapped and no others: if no entry is overwritten before it is read,
the part of the usable memory above 4 GiB folds onto low or usable pages; otherwise what the tables
leave of the entries adds what the entries would. -/
structure FoldsExactly (mem : Mem) (mmapAddr n : Nat) : Prop where
  intact : ReadIntact mem mmapAddr n → ∀ e ∈ mmapEntries mem mmapAddr n, e.type = 1#32 →
    Wraps (mmapEntries mem mmapAddr n) e
  overwritten : ¬ReadIntact mem mmapAddr n →
    AddsUsable (mmapEntries mem mmapAddr n) (leftEntries mem mmapAddr n)

section LaidOver

variable {a : Space} {m : Mem} {s : State}

theorem load8_laidOver (a : Space) (m : Mem) {x : Nat} (hx : x < 4294967296) :
    load8 (a.laidOver m) x =
      if dirAddr ≤ x ∧ x < dirAddr + a.size then byteOf (a.word ((x - dirAddr) / 4)) (x % 4)
      else load8 m x := by
  have hmod : (BitVec.ofNat 32 x).toNat = x := by
    rw [BitVec.toNat_ofNat]
    omega
  simp only [load8, Space.laidOver, hmod]

theorem laidOver_frame (a : Space) (m : Mem) : Frame dirAddr a.size m (a.laidOver m) := by
  intro b hb
  have hlt : b % 4294967296 < 4294967296 := Nat.mod_lt b (by decide)
  rw [← load8_mod (a.laidOver m) b, ← load8_mod m b, load8_laidOver a m hlt, if_neg]
  rintro ⟨hlo, hhi⟩
  have hne := hb (b % 4294967296 - dirAddr) (by omega) 0 (by decide)
  omega

theorem load32_laidOver (a : Space) (m : Mem) {w : Nat} (hw : 4 * w < a.size)
    (hend : dirAddr + a.size ≤ 4294967296) :
    load32 (a.laidOver m) (dirAddr + 4 * w) = a.word w := by
  rw [← load32_store32_same m (dirAddr + 4 * w) (a.word w)]
  refine load32_congr fun i hi => ?_
  have hsize : a.size = 4096 * (a.slots.length + 1) := rfl
  have hlt : dirAddr + 4 * w + i < dirAddr + a.size := by omega
  rw [load8_laidOver a m (by omega), if_pos ⟨by omega, hlt⟩, load8_store32 _ _ _ hi]
  congr 2 <;> (simp only [dirAddr]; omega)

/-- No word of the directory or the tables is the type of usable memory. -/
theorem word_ne_one (a : Space) (w : Nat) : a.word w ≠ 1#32 := by
  have hshared : ∀ p, sharedEntry p ≠ 1#32 := by
    intro p he
    have hflags := withFlags_and_flags (BitVec.ofNat 32 (4096 * p))
    rw [sharedEntry] at he
    rw [he] at hflags
    exact absurd hflags (by decide)
  have hzero : (0#32 : BitVec 32) ≠ 1#32 := by decide
  simp only [Space.word, Space.dirWord, Space.tableWord]
  split_ifs
  · exact hshared _
  · exact hzero
  · exact hshared _
  · exact hzero

/-- An entry whose type the tables cover is taken for unusable memory. -/
theorem entryPages_laidOver (a : Space) (m : Mem) {p : Nat} (halign : p % 4 = 0)
    (hlo : dirAddr ≤ p + 16) (hhi : p + 20 ≤ dirAddr + a.size)
    (hend : dirAddr + a.size ≤ 4294967296) : entryPages (entryAt (a.laidOver m) p) = ∅ := by
  have haddr : p + 16 = dirAddr + 4 * ((p + 16 - dirAddr) / 4) := by
    simp only [dirAddr] at hlo ⊢
    omega
  apply entryPages_of_type
  simp only [entryAt]
  rw [haddr, load32_laidOver a m (by omega) hend]
  exact word_ne_one a _

/-- A state that holds the address space has these words. -/
theorem Rep.word_eq (h : Rep s a.slots a.mapped) {w : Nat} (hw : w < 1024 * (a.slots.length + 1)) :
    load32 s.mem (dirAddr + 4 * w) = a.word w := by
  by_cases hdir : w < 1024
  · rw [Space.word, if_pos hdir, Space.dirWord]
    split_ifs with hmem
    · exact h.present _ w (List.getElem?_eq_some_iff.mpr
        ⟨List.idxOf_lt_length_iff.mpr hmem, List.getElem_idxOf _⟩)
    · exact h.absent w hdir hmem
  · have hj : w / 1024 - 1 < a.slots.length := by omega
    have hslot : a.slots[w / 1024 - 1]? = some (a.slots.getD (w / 1024 - 1) 0) := by
      rw [List.getD_eq_getElem?_getD, List.getElem?_eq_getElem hj, Option.getD_some]
    have haddr : dirAddr + 4 * w = tableAddr (w / 1024 - 1) + 4 * (w % 1024) := by
      simp only [dirAddr, tableAddr]
      omega
    have ht : w % 1024 < 1024 := Nat.mod_lt w (by decide)
    rw [Space.word, if_neg hdir, Space.tableWord, haddr]
    split_ifs with hmem
    · exact h.hit _ _ hslot _ ht hmem
    · exact h.miss _ _ hslot _ ht hmem

theorem Rep.laidOver_eq (h : Rep s a.slots a.mapped) (hf : Frame dirAddr a.size m s.mem) :
    s.mem = a.laidOver m := by
  refine mem_ext fun x hx => ?_
  rw [load8_laidOver a m hx]
  split_ifs with hin
  · have hsize : a.size = 0x1000 * (a.slots.length + 1) := rfl
    have hword := h.word_eq (w := (x - dirAddr) / 4) (by omega)
    have hbyte := byteOf_load32 s.mem (dirAddr + 4 * ((x - dirAddr) / 4))
      (Nat.mod_lt x (by decide : 0 < 4))
    have haddr : dirAddr + 4 * ((x - dirAddr) / 4) + x % 4 = x := by
      simp only [dirAddr] at hin ⊢
      omega
    rw [haddr, hword] at hbyte
    exact hbyte.symm
  · have hle := h.length_le
    have hsize : a.size = 0x1000 * (a.slots.length + 1) := rfl
    refine hf x ?_
    by_cases hlow : x < dirAddr
    · exact sep_of_ge hlow (by simp only [dirAddr]; omega)
    · exact sep_of_le (by omega) hx

end LaidOver

section Walk

variable {mmapAddr n : Nat} {s : State}

theorem leftEntries_succ (mem : Mem) (mmapAddr i : Nat) : leftEntries mem mmapAddr (i + 1) =
    leftEntries mem mmapAddr i ++
      [entryAt ((spaceAt mem mmapAddr i).laidOver mem) (mmapAddr + entrySize * i)] := by
  rw [leftEntries, List.range_succ, List.map_append]
  rfl

theorem spaceAt_eq (mem : Mem) (mmapAddr i : Nat) :
    spaceAt mem mmapAddr i = Space.low.addEntries (leftEntries mem mmapAddr i) := by
  induction i with
  | zero => rfl
  | succ i ih =>
    rw [leftEntries_succ, Space.addEntries_concat, ← ih]
    rfl

/-- The state after `i` rounds that have read the entries as they were left. -/
theorem walkAt_laidOver (hn : s.nextPt = 0x202000) {i : Nat}
    (hreads : reads mmapAddr s i = leftEntries s.mem mmapAddr i) :
    Rep (walkAt mmapAddr s i).paging (spaceAt s.mem mmapAddr i).slots
        (spaceAt s.mem mmapAddr i).mapped ∧
      (walkAt mmapAddr s i).paging.mem = (spaceAt s.mem mmapAddr i).laidOver s.mem := by
  obtain ⟨hrep, hspan⟩ := rounds_refine mmapAddr i .low (lowTables_rep hn).1
  rw [hreads, ← spaceAt_eq] at hrep hspan
  refine ⟨hrep, hrep.laidOver_eq fun b hb => ?_⟩
  have hruns := runs_append (runs_lowTables s) (runs_rounds mmapAddr i)
  have hsize : (spaceAt s.mem mmapAddr i).size =
      0x1000 * ((spaceAt s.mem mmapAddr i).slots.length + 1) := rfl
  have hle : 1 ≤ (spaceAt s.mem mmapAddr i).slots.length := hspan.le
  refine runs_apart hruns (apart_append.mpr ⟨apart_lowTablesLog.mpr ?_, hspan.inside b 1 hb⟩)
    (Nat.le_refl b) (Nat.lt_succ_self b)
  exact sep_left hb 0 0x2000 (by omega)

/-- The walk reads each entry as the tables of those before have left it. -/
theorem reads_left (hn : s.nextPt = 0x202000) (hfit : mmapAddr + entrySize * n < 4294967296)
    {i : Nat} (hi : i ≤ n) : reads mmapAddr s i = leftEntries s.mem mmapAddr i := by
  induction i with
  | zero => rfl
  | succ i ih =>
    have hreads := ih (by omega)
    rw [reads_succ, leftEntries_succ, hreads, (walkAt_laidOver hn hreads).2,
      walkAt_entry hfit (by omega)]

/-- Entries that are not overwritten are left as they were. -/
theorem leftEntries_intact {mem : Mem} (h : ReadIntact mem mmapAddr n) :
    leftEntries mem mmapAddr n = mmapEntries mem mmapAddr n := by
  have hall : ∀ i ≤ n, leftEntries mem mmapAddr i = mmapEntries mem mmapAddr i := by
    intro i
    induction i with
    | zero => exact fun _ => rfl
    | succ i ih =>
      intro hi
      have hbefore := ih (by omega)
      have hframe := laidOver_frame (spaceAt mem mmapAddr i) mem
      rw [Space.size, spaceAt_eq, Space.addEntries_length, hbefore] at hframe
      have hentry := entryAt_frame hframe (h i (by omega))
      rw [leftEntries_succ, spaceAt_eq, hbefore, hentry, mmapEntries, mmapEntries, List.range_succ,
        List.map_append]
      rfl
  exact hall n (Nat.le_refl n)

/-- The address space at the end: the low pages and those of the entries read. -/
theorem pagingInitFull_left {fuel idtEntries : Nat} {t : State} (hn : s.nextPt = 0x202000)
    (hfit : mmapAddr + entrySize * n < 4294967296)
    (h : pagingInitFull fuel idtEntries mmapAddr (entrySize * n) s = some t) :
    ∃ slots, Rep t slots (lowPages ∪ entriesPages (leftEntries s.mem mmapAddr n)) := by
  obtain ⟨w, hw, rfl⟩ := pagingInitFull_walk hn h
  obtain ⟨w', hw', rfl⟩ := whileLoop_counted (fun i w => w = walkAt mmapAddr s i) n rfl
    (fun i w hi he => ⟨by
      rw [he]
      exact (mapWalk_counted hfit (walkAt_entry hfit (by omega))).1.trans (decide_eq_true hi),
      by rw [he, walkAt_succ]⟩)
    (fun w he => by
      rw [he]
      exact (mapWalk_counted hfit (walkAt_entry hfit (Nat.le_refl n))).1.trans
        (decide_eq_false (Nat.lt_irrefl n)))
  obtain ⟨hrep, -⟩ := walkAt_laidOver hn (reads_left hn hfit (Nat.le_refl n))
  rw [whileLoop_det hw hw']
  rw [spaceAt_eq, Space.addEntries_mapped] at hrep
  exact ⟨_, hrep⟩

end Walk

section Exact

variable {entries left : List MmapEntry}

theorem mapsExactly_iff_adds {t : State} {slots : List Nat}
    (h : Rep t slots (lowPages ∪ entriesPages left)) :
    MapsExactly entries t ↔ AddsUsable entries left := by
  constructor
  · intro hexact p hlo hp
    have hlow : ¬p < 1024 := by omega
    have hpage := hexact p hp
    rw [h.mapped_iff hp] at hpage
    constructor
    · intro hmem
      exact (hpage.mp (.inr hmem)).resolve_left hlow
    · intro husable
      exact (hpage.mpr (.inr husable)).resolve_left hlow
  · intro hadds p hp
    rw [h.mapped_iff hp]
    by_cases hlow : p < 1024
    · exact iff_of_true (.inl hlow) (.inl hlow)
    · have hpage := hadds p (by omega) hp
      constructor
      · rintro (hin | hmem)
        · exact absurd hin hlow
        · exact .inr (hpage.mp hmem)
      · rintro (hin | husable)
        · exact absurd hin hlow
        · exact .inr (hpage.mpr husable)

/-- The entries themselves add the usable pages if none of them wraps onto others. -/
theorem addsUsable_iff
    (hlen : ∀ e ∈ entries, e.addr.toNat + e.len.toNat < 18446744073709551616) :
    AddsUsable entries entries ↔ ∀ e ∈ entries, e.type = 1#32 → Wraps entries e := by
  constructor
  · intro hadds e he ht
    refine wraps_of_exact hlen (fun p hp hmem => ?_) he ht
    by_cases hlow : p < 1024
    · exact .inl hlow
    · exact .inr ((hadds p (by omega) hp).mp hmem)
  · intro hwraps p hlo hp
    have hlow : ¬p < 1024 := by omega
    constructor
    · intro hmem
      exact (exact_of_wraps hlen hwraps hp hmem).resolve_left hlow
    · intro husable
      exact (usable_added hlen hp husable).resolve_left hlow

end Exact

/-- The map of `n` entries, none of which wraps around, is mapped exactly if the usable memory at
or above 4 GiB folds onto low or usable pages, and as long as the tables do not destroy it. -/
theorem mapsExactly_iff (idtEntries mmapAddr n : Nat) (mem : Mem)
    (hfit : mmapAddr + entrySize * n < 4294967296)
    (hlen : ∀ e ∈ mmapEntries mem mmapAddr n,
      e.addr.toNat + e.len.toNat < 18446744073709551616) :
    (IdtFits idtEntries →
      ∃ fuel t, pagingInitFull fuel idtEntries mmapAddr (entrySize * n) (.boot mem) = some t) ∧
    ∀ fuel t, pagingInitFull fuel idtEntries mmapAddr (entrySize * n) (.boot mem) = some t →
      (MapsExactly (mmapEntries mem mmapAddr n) t ↔ FoldsExactly mem mmapAddr n) := by
  refine ⟨fun hidt => pagingInitFull_returns hidt hfit _, fun fuel t h => ?_⟩
  obtain ⟨slots, hrep⟩ := pagingInitFull_left rfl hfit h
  have hadds : MapsExactly (mmapEntries mem mmapAddr n) t ↔
      AddsUsable (mmapEntries mem mmapAddr n) (leftEntries mem mmapAddr n) :=
    mapsExactly_iff_adds hrep
  rw [hadds]
  by_cases hintact : ReadIntact mem mmapAddr n
  · rw [leftEntries_intact hintact, addsUsable_iff hlen]
    exact ⟨fun h => ⟨fun _ => h, fun hnot => absurd hintact hnot⟩, fun h => h.intact hintact⟩
  · exact ⟨fun h => ⟨fun hin => absurd hin hintact, fun _ => h⟩, fun h => h.overwritten hintact⟩

/-- A map below the directory is read as it is. -/
theorem readIntact_low {mem : Mem} {mmapAddr n : Nat} (h : mmapAddr + entrySize * n ≤ 0x200000) :
    ReadIntact mem mmapAddr n := by
  intro i hi
  have hentry : mmapAddr + entrySize * i + 20 ≤ dirAddr := by
    simp only [entrySize, dirAddr] at h ⊢
    omega
  exact sep_of_ge hentry (tablesOf_area _)

/-- The map of a machine with 128 MiB of memory inside the first table. -/
def tableMem : Mem := storeEntry (fun _ => 0) 0x201000 ramEntry

theorem tableMem_entries : mmapEntries tableMem 0x201000 1 = [ramEntry] := by
  simp [mmapEntries, tableMem]

/-- Its entry is gone when it is read, and with it the memory above 4 MiB. -/
theorem tableMem_unfolded : ¬FoldsExactly tableMem 0x201000 1 := by
  have hone : tablesOf [] = 1 := (Space.addEntries_length []).symm
  have hcovered : ¬ReadIntact tableMem 0x201000 1 := by
    intro hintact
    have hsep : Sep dirAddr (0x1000 * (tablesOf [] + 1)) 0x201000 20 := hintact 0 (by decide)
    rw [hone] at hsep
    exact hsep 0x1000 (by decide) 0 (by decide) rfl
  have hpages : entryPages (entryAt (Space.low.laidOver tableMem) 0x201000) = ∅ :=
    entryPages_laidOver .low tableMem (by decide) (by decide) (by decide) (by decide)
  intro hfolds
  have hadds := hfolds.overwritten hcovered 0x400 (by decide) (by decide)
  rw [tableMem_entries] at hadds
  obtain ⟨e, he, hin⟩ := hadds.mpr (by decide)
  rw [List.mem_singleton.mp he] at hin
  exact (hpages ▸ hin : 0x400 ∈ (∅ : Set Nat))

theorem ramMem_folded : FoldsExactly ramMem 0x9000 1 := by
  refine ⟨fun _ => ?_, fun hnot => absurd (readIntact_low (by decide)) hnot⟩
  rw [ramMem_entries]
  intro e he _
  rw [List.mem_singleton.mp he]
  constructor
  · rintro q hq ⟨_, hend⟩
    have hstop : ramEntry.addr.toNat + ramEntry.len.toNat = 0x8000000 := by decide
    omega
  · intro haddr
    have hbase : ramEntry.addr.toNat = 0x100000 := by decide
    omega

/-- With the map at 0x9000 the 128 MiB are mapped, with the map in the first table they are not. -/
theorem mapsExactly_iff_ramMem :
    (∃ fuel t, pagingInitFull fuel 0x105000 0x9000 24 (.boot ramMem) = some t ∧
      MapsExactly [ramEntry] t) ∧
    ∃ fuel t, pagingInitFull fuel 0x105000 0x201000 24 (.boot tableMem) = some t ∧
      ¬MapsExactly [ramEntry] t := by
  constructor
  · obtain ⟨hterm, hiff⟩ := mapsExactly_iff 0x105000 0x9000 1 ramMem (by decide)
      (by rw [ramMem_entries]; decide)
    obtain ⟨fuel, t, h⟩ := hterm (by decide)
    have hexact := (hiff fuel t h).mpr ramMem_folded
    rw [ramMem_entries] at hexact
    exact ⟨fuel, t, h, hexact⟩
  · obtain ⟨hterm, hiff⟩ := mapsExactly_iff 0x105000 0x201000 1 tableMem (by decide)
      (by rw [tableMem_entries]; decide)
    obtain ⟨fuel, t, h⟩ := hterm (by decide)
    have hpart := mt (hiff fuel t h).mp tableMem_unfolded
    rw [tableMem_entries] at hpart
    exact ⟨fuel, t, h, hpart⟩

/-- A machine whose memory lies from 4 GiB to 8 GiB. -/
def highEntry : MmapEntry := ⟨0x100000000, 0x100000000, 1⟩

def highMem : Mem := storeEntry (fun _ => 0) 0x9000 highEntry

/-- Its memory is mapped on top of everything below, the local APIC at 0xFEE00000 included. -/
theorem highMem_maps_apic :
    mmapEntries highMem 0x9000 1 = [highEntry] ∧
    highEntry.addr.toNat + highEntry.len.toNat < 18446744073709551616 ∧
    ∃ fuel t, pagingInitFull fuel 0x105000 0x9000 24 (.boot highMem) = some t ∧
      Mapped t 0xFEE00 ∧ ¬Usable [highEntry] 0xFEE00 ∧ ¬MapsExactly [highEntry] t := by
  have hentries : mmapEntries highMem 0x9000 1 = [highEntry] := by
    simp [mmapEntries, highMem]
  have hleft : leftEntries highMem 0x9000 1 = [highEntry] :=
    (leftEntries_intact (readIntact_low (by decide))).trans hentries
  have hidt : IdtFits 0x105000 := by decide
  have hfit : 0x9000 + entrySize * 1 < 4294967296 := by decide
  obtain ⟨fuel, t, h⟩ := pagingInitFull_returns hidt hfit (.boot highMem)
  obtain ⟨slots, hrep⟩ := pagingInitFull_left rfl hfit h
  have hmem : (State.boot highMem).mem = highMem := rfl
  rw [hmem, hleft] at hrep
  have hin : 0xFEE00 ∈ entryPages highEntry := by
    refine (entryPages_eq rfl (by decide) (by decide) _).mpr ⟨0x1FEE00, by decide, ?_, by decide⟩
    decide
  have hmapped : Mapped t 0xFEE00 :=
    (hrep.mapped_iff (by decide)).mpr (.inr ⟨highEntry, List.mem_singleton_self _, hin⟩)
  have husable : ¬Usable [highEntry] 0xFEE00 := by decide
  refine ⟨hentries, by decide, fuel, t, h, hmapped, husable, ?_⟩
  intro hexact
  obtain hlow | hu := (hexact 0xFEE00 (by decide)).mp hmapped
  · omega
  · exact husable hu

end Paging
