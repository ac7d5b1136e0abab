import Nyrix.PagingMap
import Nyrix.PmmInit

/-!
# The two walks of the memory map

`pmm_init` and `paging_init_full` both go through the map with a pointer of their own. The
first moves it by 32 bytes past a usable entry and by 24 past any other; the second always
by 24.
-/

namespace MapWalk

open ByteMemory BoundedLoop PackedBits Multiboot

/-- The addresses at which the walk of `pmm_init` looks for an entry. -/
def pmmTrace (fuel kernelEnd mmapAddr mmapLength : Nat) (s : Pmm.State) : List Nat :=
  Pmm.inspected fuel mmapAddr mmapLength (Pmm.walkStart kernelEnd mmapAddr mmapLength s)

/-- The addresses at which the walk of `paging_init_full` looks for an entry. -/
def pagingTrace (fuel mmapAddr mmapLength : Nat) (s : Paging.State) : List Nat :=
  (whileTrace (Paging.walkCond mmapAddr mmapLength) Paging.walkBody fuel
    ⟨mmapAddr, Paging.lowTables s⟩).map Paging.Walk.entry

/-- A walk inspects the `n` entries, each once and in order, and reads nothing behind them:
the type, in bytes 16 to 19, is the last field either walk reads. -/
structure WalksMap (mmapAddr n : Nat) (trace : List Nat) : Prop where
  entries : trace = (List.range n).map (fun i => mmapAddr + entrySize * i)
  inside : ∀ a ∈ trace, a + 20 ≤ mmapAddr + entrySize * n

theorem walksMap_of_entries {mmapAddr n : Nat} {trace : List Nat}
    (h : trace = (List.range n).map (fun i => mmapAddr + entrySize * i)) :
    WalksMap mmapAddr n trace := by
  refine ⟨h, ?_⟩
  rw [h]
  intro a ha
  obtain ⟨i, hi, rfl⟩ := List.mem_map.mp ha
  rw [List.mem_range] at hi
  simp only [entrySize]
  omega

section Walk

variable {fuel kernelEnd mmapAddr n : Nat}

/-- What the entries hold when the walk of `pmm_init` starts: the bitmap has been zeroed. -/
def typeAt (kernelEnd mmapAddr : Nat) (m : Mem) (i : Nat) : BitVec 32 :=
  (entryAt (Pmm.zeroedMem kernelEnd m) (mmapAddr + entrySize * i)).type

/-- Each address but the first follows from the one before and the entry there. -/
theorem pmmTrace_next (s : Pmm.State) {i a b : Nat} {mmapLength : Nat}
    (ha : (pmmTrace fuel kernelEnd mmapAddr mmapLength s)[i]? = some a)
    (hb : (pmmTrace fuel kernelEnd mmapAddr mmapLength s)[i + 1]? = some b) :
    b = Pmm.nextEntry (Pmm.zeroedMem kernelEnd s.mem) a := by
  let start := Pmm.walkStart kernelEnd mmapAddr mmapLength s
  simp only [pmmTrace, Pmm.inspected, List.getElem?_map, Option.map_eq_some_iff] at ha hb
  obtain ⟨w, hw, rfl⟩ := ha
  obtain ⟨w', hw', rfl⟩ := hb
  have hstart : Pmm.SameMap start (Pmm.Walk.mk mmapAddr start).pmm := Pmm.sameMap_refl start
  have hsame := (whileTrace_induct (fun w : Pmm.Walk => Pmm.SameMap start w.pmm)
    (fun w _ h => Pmm.walkBody_sameMap h) fuel ⟨mmapAddr, start⟩ hstart w
    (List.mem_of_getElem? hw)).1
  obtain ⟨hlt', hget'⟩ := List.getElem?_eq_some_iff.mp hw'
  obtain ⟨hlt, hget⟩ := List.getElem?_eq_some_iff.mp hw
  have hnext := (whileTrace_isChain fuel _).getElem i hlt'
  rw [hget, hget'] at hnext
  rw [hnext, Pmm.walkBody_eq, Pmm.sameMap_mem hsame, Pmm.walkStart_mem]

/-- A walk that inspects exactly the entries meets no usable one before the last. -/
theorem type_of_pmmTrace (s : Pmm.State)
    (h : pmmTrace fuel kernelEnd mmapAddr (entrySize * n) s =
      (List.range n).map (fun i => mmapAddr + entrySize * i)) {i : Nat} (hi : i + 1 < n) :
    typeAt kernelEnd mmapAddr s.mem i ≠ 1#32 := by
  have hget : ∀ j < n, (pmmTrace fuel kernelEnd mmapAddr (entrySize * n) s)[j]? =
      some (mmapAddr + entrySize * j) := by
    intro j hj
    rw [h, List.getElem?_map, List.getElem?_range hj, Option.map_some]
  have hnext := pmmTrace_next s (hget i (by omega)) (hget (i + 1) hi)
  intro htype
  obtain ⟨_, hmoved⟩ | ⟨hne, _⟩ := Pmm.nextEntry_cases (Pmm.zeroedMem kernelEnd s.mem)
    (mmapAddr + entrySize * i)
  · rw [hmoved] at hnext
    simp only [entrySize] at hnext
    omega
  · exact hne htype

/-- Without a usable entry before the last, both pointers go from entry to entry. -/
theorem pmmTrace_of_types (s : Pmm.State) (hfit : Pmm.MapFits mmapAddr (entrySize * n))
    (h : ∀ i, i + 1 < n → typeAt kernelEnd mmapAddr s.mem i ≠ 1#32) (hf : n ≤ fuel) :
    pmmTrace fuel kernelEnd mmapAddr (entrySize * n) s =
      (List.range n).map (fun i => mmapAddr + entrySize * i) := by
  let start := Pmm.walkStart kernelEnd mmapAddr (entrySize * n) s
  have hstart : Pmm.SameMap start (Pmm.Walk.mk mmapAddr start).pmm := Pmm.sameMap_refl start
  simp only [Pmm.MapFits, entrySize] at hfit
  refine whileTrace_counted (fun i (w : Pmm.Walk) => Pmm.SameMap start w.pmm ∧
    (i < n → w.entry = mmapAddr + entrySize * i) ∧ (i = n → mmapAddr + entrySize * n ≤ w.entry))
    Pmm.Walk.entry _ n ⟨hstart, fun _ => rfl, fun hn => by rw [← hn]; exact Nat.le_refl _⟩
    ?_ ?_ fuel hf
  · rintro i w hi ⟨hsame, hentry, _⟩
    have hw := hentry hi
    have hmem : w.pmm.mem = Pmm.zeroedMem kernelEnd s.mem := by
      rw [Pmm.sameMap_mem hsame, Pmm.walkStart_mem]
    refine ⟨?_, ⟨Pmm.walkBody_sameMap hsame, ?_, ?_⟩, hw⟩
    · simp only [Pmm.walkCond, hw, entrySize, decide_eq_true_eq]
      omega
    · intro hi'
      have htype := h i hi'
      rw [typeAt] at htype
      obtain ⟨ht, _⟩ | ⟨_, hnext⟩ := Pmm.nextEntry_cases w.pmm.mem w.entry
      · rw [hmem, hw] at ht
        exact absurd ht htype
      · rw [Pmm.walkBody_eq, hnext, hw]
        simp only [entrySize]
        omega
    · rintro rfl
      rw [Pmm.walkBody_eq]
      obtain ⟨_, hnext⟩ | ⟨_, hnext⟩ := Pmm.nextEntry_cases w.pmm.mem w.entry
      all_goals
        rw [hnext, hw]
        simp only [entrySize]
        omega
  · rintro w ⟨_, _, hlast⟩
    have hw := hlast rfl
    refine decide_eq_false ?_
    simp only [entrySize] at hw ⊢
    omega

/-- The walk of `paging_init_full` inspects exactly the entries, whatever they hold. -/
theorem pagingTrace_eq (u : Paging.State) (hfit : mmapAddr + entrySize * n < 4294967296)
    (hf : n ≤ fuel) : pagingTrace fuel mmapAddr (entrySize * n) u =
      (List.range n).map (fun i => mmapAddr + entrySize * i) := by
  refine whileTrace_counted (fun i (w : Paging.Walk) => w.entry = mmapAddr + entrySize * i)
    Paging.Walk.entry _ n rfl ?_ ?_ fuel hf
  · intro i w hi hw
    obtain ⟨hc, hnext⟩ := Paging.mapWalk_counted hfit hw
    exact ⟨hc.trans (decide_eq_true hi), hnext hi, hw⟩
  · intro w hw
    exact (Paging.mapWalk_counted hfit hw).1.trans (decide_eq_false (Nat.lt_irrefl n))

end Walk

/-- The two walks agree on the entries of the map only if no entry but the last is usable. -/
theorem walks_agree_iff (kernelEnd idtEntries mmapAddr n : Nat) (s : Pmm.State) (u : Paging.State)
    (hfit : Pmm.MapFits mmapAddr (entrySize * n)) :
    (Paging.IdtFits idtEntries → ∃ fuel t v,
      Pmm.pmmInit fuel kernelEnd mmapAddr (entrySize * n) s = some t ∧
      Paging.pagingInitFull fuel idtEntries mmapAddr (entrySize * n) u = some v) ∧
    ∀ fuel, n ≤ fuel →
      (WalksMap mmapAddr n (pmmTrace fuel kernelEnd mmapAddr (entrySize * n) s) ∧
          WalksMap mmapAddr n (pagingTrace fuel mmapAddr (entrySize * n) u) ↔
        ∀ i, i + 1 < n → typeAt kernelEnd mmapAddr s.mem i ≠ 1#32) := by
  have hlt : mmapAddr + entrySize * n < 4294967296 := by
    simp only [Pmm.MapFits] at hfit
    omega
  constructor
  · intro hidt
    obtain ⟨f₁, t, h₁⟩ := Pmm.pmmInit_terminates hfit kernelEnd s
    obtain ⟨f₂, v, h₂⟩ := Paging.pagingInitFull_returns hidt hlt u
    exact ⟨max f₁ f₂, t, v, Pmm.pmmInit_mono h₁ (Nat.le_max_left f₁ f₂),
      Paging.pagingInitFull_mono h₂ (Nat.le_max_right f₁ f₂)⟩
  · intro fuel hf
    constructor
    · rintro ⟨hpmm, _⟩ i hi
      exact type_of_pmmTrace s hpmm.entries hi
    · intro h
      exact ⟨walksMap_of_entries (pmmTrace_of_types s hfit h hf),
        walksMap_of_entries (pagingTrace_eq u hlt hf)⟩

/-- A map of two entries: memory, then a reserved page. -/
def twoEntries : Mem := storeEntry ramMem 0x9018 ⟨0x8000000, 0x1000, 2⟩

theorem twoEntries_first : typeAt 0x110000 0x9000 twoEntries 0 = 1#32 := by
  have hbitmap : entryAt (Pmm.zeroedMem 0x110000 twoEntries) 0x9000 = entryAt twoEntries 0x9000 :=
    entryAt_frame (fill_frame 0x110000 (fun _ => 0#32) 32767 twoEntries)
      (sep_of_ge (by decide) (by decide))
  have hsecond : entryAt twoEntries 0x9000 = entryAt ramMem 0x9000 :=
    entryAt_frame (storeEntry_frame ramMem 0x9018 _) (sep_of_ge (by decide) (by decide))
  rw [typeAt, Nat.mul_zero, Nat.add_zero, hbitmap, hsecond, ramMem, entryAt_storeEntry]
  rfl

theorem walks_agree_iff_twoEntries :
    (∃ fuel t v, Pmm.pmmInit fuel 0x110000 0x9000 48 (.boot twoEntries) = some t ∧
      Paging.pagingInitFull fuel 0x105000 0x9000 48 (.boot twoEntries) = some v) ∧
    (WalksMap 0x9000 2 (pmmTrace 2 0x110000 0x9000 48 (.boot twoEntries)) ∧
        WalksMap 0x9000 2 (pagingTrace 2 0x9000 48 (.boot twoEntries)) ↔
      ∀ i, i + 1 < 2 → typeAt 0x110000 0x9000 twoEntries i ≠ 1#32) := by
  obtain ⟨hterm, hiff⟩ := walks_agree_iff 0x110000 0x105000 0x9000 2 (.boot twoEntries)
    (.boot twoEntries) (by decide)
  exact ⟨hterm (by decide), hiff 2 (Nat.le_refl 2)⟩

/-- On that map both walks end, but only that of `paging_init_full` is on the entries: the
other leaves the first by 32 bytes. -/
theorem walks_part_on_twoEntries :
    ∃ fuel t v, Pmm.pmmInit fuel 0x110000 0x9000 48 (.boot twoEntries) = some t ∧
      Paging.pagingInitFull fuel 0x105000 0x9000 48 (.boot twoEntries) = some v ∧
      ¬WalksMap 0x9000 2 (pmmTrace fuel 0x110000 0x9000 48 (.boot twoEntries)) ∧
      WalksMap 0x9000 2 (pagingTrace fuel 0x9000 48 (.boot twoEntries)) := by
  have hfit : Pmm.MapFits 0x9000 (entrySize * 2) := by decide
  have hlt : 0x9000 + entrySize * 2 < 4294967296 := by decide
  obtain ⟨f₁, t, h₁⟩ := Pmm.pmmInit_terminates hfit 0x110000 (.boot twoEntries)
  obtain ⟨f₂, v, h₂⟩ := Paging.pagingInitFull_returns (by decide : Paging.IdtFits 0x105000) hlt
    (.boot twoEntries)
  refine ⟨max 2 (max f₁ f₂), t, v, Pmm.pmmInit_mono h₁ (by omega),
    Paging.pagingInitFull_mono h₂ (by omega), ?_, ?_⟩
  · intro hpmm
    exact type_of_pmmTrace (.boot twoEntries) hpmm.entries (show 0 + 1 < 2 by decide)
      twoEntries_first
  · exact walksMap_of_entries (pagingTrace_eq _ hlt (by omega))

end MapWalk
