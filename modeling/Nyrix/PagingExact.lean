import Nyrix.PagingIdentity

/-!
# Exactly which pages the memory map adds

The loop over an entry runs through 64-bit addresses and reduces them modulo 4 GiB, so the
part of an entry at or above 4 GiB is mapped on top of the pages below. An entry that begins in
the last page of the 64-bit space is rounded up to address 0.
-/

namespace Paging

open ByteMemory BoundedLoop PackedBits PageTable Multiboot

/-- The MMU finds a present entry for page `p`. -/
def Mapped (s : State) (p : Nat) : Prop :=
  HasTable s (p / 1024) ∧ Present (entryOf s (p / 1024) (p % 1024))

/-- The pages that usable entries add beyond their own are low or usable ones. -/
structure Wraps (entries : List MmapEntry) (e : MmapEntry) : Prop where
  above : ∀ q, 1048576 ≤ q → Holds e q →
    q % 1048576 < 1024 ∨ Usable entries (q % 1048576)
  last : 18446744073709547520 < e.addr.toNat → ∀ p, 1024 ≤ p → p < 1048576 → Usable entries p

/-- The pages mapped are those below 4 MiB and the usable ones. -/
def MapsExactly (entries : List MmapEntry) (s : State) : Prop :=
  ∀ p < 1048576, Mapped s p ↔ p < 1024 ∨ Usable entries p

/-- The pages the entries of a list add. -/
def entriesPages (entries : List MmapEntry) : Set Nat := {p | ∃ e ∈ entries, p ∈ entryPages e}

theorem entriesPages_nil : entriesPages [] = ∅ := by
  ext p
  simp [entriesPages]

theorem entriesPages_cons (e : MmapEntry) (entries : List MmapEntry) :
    entriesPages (e :: entries) = entryPages e ∪ entriesPages entries := by
  ext p
  simp [entriesPages]

/-- The pages present in memory are those of the address space it holds. -/
theorem Rep.mapped_iff {s : State} {slots : List Nat} {mapped : Set Nat}
    (h : Rep s slots mapped) {p : Nat} (hp : p < 1048576) : Mapped s p ↔ p ∈ mapped := by
  have hsplit : 1024 * (p / 1024) + p % 1024 = p := by omega
  constructor
  · rintro ⟨htable, hentry⟩
    obtain ⟨j, hj⟩ := h.slot_of_hasTable (by omega) htable
    have hmem := (h.entry_of_present hj (by omega) hentry).1
    rwa [hsplit] at hmem
  · intro hmem
    obtain ⟨j, hj⟩ := List.mem_iff_getElem?.mp (h.covered p hmem)
    refine ⟨h.hasTable hj, ?_⟩
    rw [h.entryOf_eq hj, h.hit j _ hj _ (by omega) (by rwa [hsplit])]
    exact present_sharedEntry _

section Entries

variable {entries : List MmapEntry}

/-- Every usable page is added, whatever else is. -/
theorem usable_added (hlen : ∀ e ∈ entries, e.addr.toNat + e.len.toNat < 18446744073709551616)
    {p : Nat} (hp : p < 1048576) (h : Usable entries p) : p ∈ lowPages ∪ entriesPages entries := by
  obtain ⟨e, he, ht, hb, hend⟩ := h
  obtain hlow | hin := usable_mapped ht (hlen e he) hb hend hp
  · exact .inl hlow
  · exact .inr ⟨e, he, hin⟩

/-- When nothing else is, the part of each usable entry above 4 GiB folds onto usable pages. -/
theorem wraps_of_exact (hlen : ∀ e ∈ entries, e.addr.toNat + e.len.toNat < 18446744073709551616)
    (h : ∀ p < 1048576, p ∈ entriesPages entries → p < 1024 ∨ Usable entries p) {e : MmapEntry}
    (he : e ∈ entries) (ht : e.type = 1#32) : Wraps entries e := by
  have hle := hlen e he
  constructor
  · intro q hq hholds
    have haddr : e.addr.toNat ≤ 18446744073709547520 := by
      obtain ⟨hb, hend⟩ := hholds
      omega
    have hin := (entryPages_eq ht hle haddr (q % 1048576)).mpr ⟨q, by omega, hholds, rfl⟩
    exact h _ (Nat.mod_lt q (by decide)) ⟨e, he, hin⟩
  · intro haddr p hlo hp
    have hin := (entryPages_last ht hle haddr p).mpr hp
    obtain hlow | husable := h p hp ⟨e, he, hin⟩
    · omega
    · exact husable

/-- When it does, nothing else is added. -/
theorem exact_of_wraps (hlen : ∀ e ∈ entries, e.addr.toNat + e.len.toNat < 18446744073709551616)
    (h : ∀ e ∈ entries, e.type = 1#32 → Wraps entries e) {p : Nat}
    (hp : p < 1048576) (hmem : p ∈ entriesPages entries) : p < 1024 ∨ Usable entries p := by
  obtain ⟨e, he, hin⟩ := hmem
  by_cases ht : e.type = 1#32
  · have hwraps := h e he ht
    by_cases haddr : e.addr.toNat ≤ 18446744073709547520
    · obtain ⟨q, hq, hholds, rfl⟩ := (entryPages_eq ht (hlen e he) haddr p).mp hin
      by_cases hlow : q < 1048576
      · rw [Nat.mod_eq_of_lt hlow]
        exact .inr ⟨e, he, ht, hholds⟩
      · exact hwraps.above q (by omega) hholds
    · by_cases hlow : p < 1024
      · exact .inl hlow
      · exact .inr (hwraps.last (by omega) p (by omega) hp)
  · rw [entryPages_of_type ht] at hin
    cases hin

end Entries

end Paging
