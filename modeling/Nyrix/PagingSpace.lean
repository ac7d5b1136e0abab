import Mathlib.Data.Set.Card
import Nyrix.PagingExact

/-!
# The address space apart from memory

The slots that own a table, in the order in which they got it, and the pages that are mapped. A
page is added together with the table it lacks, an entry of the memory map page by page. There are
as many tables as slots in which some page is mapped.
-/

namespace Paging

open BoundedLoop Multiboot

structure Space where
  slots : List Nat
  mapped : Set Nat

/-- Slot `d` gets the next table unless it has one. -/
def withSlot (d : Nat) (slots : List Nat) : List Nat := if d ∈ slots then slots else slots ++ [d]

namespace Space

/-- The first 4 MiB. -/
def low : Space := ⟨[0], lowPages⟩

def addPage (p : Nat) (a : Space) : Space := ⟨withSlot (p / 1024) a.slots, a.mapped ∪ {p}⟩

/-- The pages of `n` rounds of a mapping loop that starts at `base`. -/
def addPages (base n : Nat) (a : Space) : Space :=
  forUp (fun k => addPage (pageOf (base + 0x1000 * k))) 0 n a

def addEntry (e : MmapEntry) (a : Space) : Space :=
  match entryRange e with
  | some (base, stop) => a.addPages base.toNat ((stop.toNat - base.toNat + 0xFFF) / 0x1000)
  | none => a

def addEntries (entries : List MmapEntry) (a : Space) : Space :=
  entries.foldl (fun a e => a.addEntry e) a

/-- The tables are those of the pages mapped. -/
structure Tight (a : Space) : Prop where
  nodup : a.slots.Nodup
  covered : ∀ p ∈ a.mapped, p / 1024 ∈ a.slots
  used : ∀ d ∈ a.slots, ∃ p ∈ a.mapped, p / 1024 = d

end Space

/-- The directory slots in which a set of pages lies. -/
def slotsOf (pages : Set Nat) : Set Nat := {d | ∃ p ∈ pages, p / 1024 = d}

/-- The number of tables that hold the low pages and those of the entries. -/
noncomputable def tablesOf (entries : List MmapEntry) : Nat :=
  (slotsOf (lowPages ∪ entriesPages entries)).ncard

section Slots

variable {d x : Nat} {slots : List Nat}

theorem mem_withSlot : x ∈ withSlot d slots ↔ x ∈ slots ∨ x = d := by
  rw [withSlot]
  split_ifs with hd
  · exact ⟨.inl, fun h => h.elim id fun he => he ▸ hd⟩
  · rw [List.mem_append, List.mem_singleton]

theorem withSlot_nodup (h : slots.Nodup) : (withSlot d slots).Nodup := by
  rw [withSlot]
  split_ifs with hd
  · exact h
  · refine List.nodup_append.mpr ⟨h, List.nodup_singleton d, fun y hy z hz hyz => ?_⟩
    rw [List.mem_singleton.mp hz] at hyz
    exact hd (hyz ▸ hy)

end Slots

namespace Space

variable {a : Space}

theorem tight_low : low.Tight := by
  have hzero : 0 < 1024 := by decide
  refine ⟨List.nodup_singleton 0, fun p hp => ?_, fun d hd => ?_⟩
  · have hp : p < 1024 := hp
    exact List.mem_singleton.mpr (by omega)
  · rw [List.mem_singleton.mp hd]
    exact ⟨0, hzero, rfl⟩

theorem Tight.addPage (h : a.Tight) (p : Nat) : (a.addPage p).Tight := by
  refine ⟨withSlot_nodup h.nodup, ?_, fun d hd => ?_⟩
  · rintro q (hq | rfl)
    · exact mem_withSlot.mpr (.inl (h.covered q hq))
    · exact mem_withSlot.mpr (.inr rfl)
  · obtain hd | rfl := mem_withSlot.mp hd
    · obtain ⟨q, hq, hqd⟩ := h.used d hd
      exact ⟨q, .inl hq, hqd⟩
    · exact ⟨p, .inr rfl, rfl⟩

theorem addPages_succ (base n : Nat) (a : Space) :
    a.addPages base (n + 1) = (a.addPages base n).addPage (pageOf (base + 0x1000 * n)) := by
  rw [addPages, forUp_succ_last, Nat.zero_add]
  rfl

theorem addPages_mapped (base n : Nat) (a : Space) :
    (a.addPages base n).mapped = a.mapped ∪ countedPages base n := by
  induction n with
  | zero => rw [countedPages_zero, Set.union_empty]; rfl
  | succ n ih =>
    rw [addPages_succ, ← countedPages_succ, ← Set.union_assoc, ← ih]
    rfl

theorem Tight.addPages (h : a.Tight) (base n : Nat) : (a.addPages base n).Tight := by
  induction n with
  | zero => exact h
  | succ n ih =>
    rw [addPages_succ]
    exact ih.addPage _

theorem addEntry_mapped (e : MmapEntry) (a : Space) :
    (a.addEntry e).mapped = a.mapped ∪ entryPages e := by
  cases h : entryRange e with
  | none => simp only [addEntry, entryPages, h, Set.union_empty]
  | some r =>
    obtain ⟨base, stop⟩ := r
    simp only [addEntry, entryPages, h]
    rw [rangePages_eq _ (entryRange_aligned h), addPages_mapped]

theorem Tight.addEntry (h : a.Tight) (e : MmapEntry) : (a.addEntry e).Tight := by
  cases hr : entryRange e with
  | none =>
    simp only [Space.addEntry, hr]
    exact h
  | some r =>
    simp only [Space.addEntry, hr]
    exact h.addPages _ _

theorem addEntries_concat (entries : List MmapEntry) (e : MmapEntry) (a : Space) :
    a.addEntries (entries ++ [e]) = (a.addEntries entries).addEntry e := by
  rw [addEntries, List.foldl_append]
  rfl

theorem addEntries_mapped (entries : List MmapEntry) (a : Space) :
    (a.addEntries entries).mapped = a.mapped ∪ entriesPages entries := by
  induction entries generalizing a with
  | nil => rw [entriesPages_nil, Set.union_empty]; rfl
  | cons e entries ih =>
    have hstep : a.addEntries (e :: entries) = (a.addEntry e).addEntries entries := rfl
    rw [hstep, ih, addEntry_mapped, entriesPages_cons, Set.union_assoc]

theorem Tight.addEntries (h : a.Tight) (entries : List MmapEntry) :
    (a.addEntries entries).Tight := by
  induction entries generalizing a with
  | nil => exact h
  | cons e entries ih => exact ih (h.addEntry e)

/-- There is a table for each slot in which a page is mapped. -/
theorem Tight.length (h : a.Tight) : a.slots.length = (slotsOf a.mapped).ncard := by
  have hslots : slotsOf a.mapped = a.slots.toFinset := by
    ext d
    rw [Finset.mem_coe, List.mem_toFinset]
    constructor
    · rintro ⟨p, hp, rfl⟩
      exact h.covered p hp
    · exact h.used d
  rw [hslots, Set.ncard_coe_finset, List.toFinset_card_of_nodup h.nodup]

theorem addEntries_length (entries : List MmapEntry) :
    (low.addEntries entries).slots.length = tablesOf entries := by
  rw [(tight_low.addEntries entries).length, addEntries_mapped, tablesOf]
  rfl

end Space

section Tables

variable {entries : List MmapEntry}

theorem entryPages_lt {e : MmapEntry} {p : Nat} (h : p ∈ entryPages e) : p < 1048576 := by
  simp only [entryPages] at h
  split at h
  · obtain ⟨phys, _, _, _, rfl⟩ := h
    exact Nat.mod_lt _ (by decide)
  · cases h

theorem slotsOf_subset (entries : List MmapEntry) :
    slotsOf (lowPages ∪ entriesPages entries) ⊆ (Finset.range 1024 : Finset Nat) := by
  intro d hd
  rw [Finset.mem_coe, Finset.mem_range]
  obtain ⟨p, hlow | ⟨e, _, hp⟩, rfl⟩ := hd
  · have hlow : p < 1024 := hlow
    omega
  · have hp := entryPages_lt hp
    omega

theorem tablesOf_le (entries : List MmapEntry) : tablesOf entries ≤ 1024 := by
  have h := Set.ncard_le_ncard (slotsOf_subset entries) (Finset.finite_toSet _)
  rwa [Set.ncard_coe_finset, Finset.card_range] at h

/-- The directory and the tables end below 4 GiB. -/
theorem tablesOf_area (entries : List MmapEntry) :
    dirAddr + 0x1000 * (tablesOf entries + 1) ≤ 4294967296 := by
  have hle := tablesOf_le entries
  simp only [dirAddr]
  omega

/-- More entries need no fewer tables. -/
theorem tablesOf_mono {entries entries' : List MmapEntry} (h : entries ⊆ entries') :
    tablesOf entries ≤ tablesOf entries' := by
  refine Set.ncard_le_ncard ?_ ((Finset.finite_toSet _).subset (slotsOf_subset entries'))
  rintro d ⟨p, hlow | ⟨e, he, hp⟩, hpd⟩
  · exact ⟨p, .inl hlow, hpd⟩
  · exact ⟨p, .inr ⟨e, h he, hp⟩, hpd⟩

end Tables

end Paging
