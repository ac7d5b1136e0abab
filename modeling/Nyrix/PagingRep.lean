import Mathlib.Data.Finset.Card
import Mathlib.Data.Set.Lattice
import Nyrix.Paging

/-!
# The address space the tables represent

Abstractly an address space is the list of directory slots that own a table, in the order
of their allocation, and the set of pages mapped to themselves. `Rep` says that memory
holds it: table number `j` of the bump allocator belongs to slot number `j` of the list.
Every step of paging.cpp adds a set of pages (`Maps`).
-/

namespace Paging

open ByteMemory BoundedLoop PackedBits PageTable Multiboot

def dirAddr : Nat := 0x200000

/-- The address of the `j`-th table allocated, counting the one at 0x201000. -/
def tableAddr (j : Nat) : Nat := 0x201000 + 0x1000 * j

/-- The state holds the address space with these slots and these pages. -/
structure Rep (s : State) (slots : List Nat) (mapped : Set Nat) : Prop where
  directory : s.pageDirectory = dirAddr
  nextPt : s.nextPt = tableAddr slots.length
  nodup : slots.Nodup
  bound : ∀ d ∈ slots, d < 1024
  absent : ∀ d < 1024, d ∉ slots → pde s.mem dirAddr d = 0#32
  present : ∀ j d, slots[j]? = some d → pde s.mem dirAddr d = sharedEntry (0x201 + j)
  hit : ∀ j d, slots[j]? = some d → ∀ t < 1024, 1024 * d + t ∈ mapped →
    load32 s.mem (tableAddr j + 4 * t) = sharedEntry (1024 * d + t)
  miss : ∀ j d, slots[j]? = some d → ∀ t < 1024, 1024 * d + t ∉ mapped →
    load32 s.mem (tableAddr j + 4 * t) = 0#32
  covered : ∀ p ∈ mapped, p / 1024 ∈ slots

/-- Directory slots below 1024 without repetition are at most 1024. -/
theorem slots_length_le {slots : List Nat} (hn : slots.Nodup) (hb : ∀ d ∈ slots, d < 1024) :
    slots.length ≤ 1024 := by
  have hsub : slots.toFinset ⊆ Finset.range 1024 := by
    intro d hd
    exact Finset.mem_range.mpr (hb d (List.mem_toFinset.mp hd))
  have hcard := Finset.card_le_card hsub
  rwa [List.toFinset_card_of_nodup hn, Finset.card_range] at hcard

section Rep

variable {s : State} {slots : List Nat} {mapped : Set Nat}

theorem Rep.length_le (h : Rep s slots mapped) : slots.length ≤ 1024 :=
  slots_length_le h.nodup h.bound

theorem index_lt {j d : Nat} (h : slots[j]? = some d) : j < slots.length :=
  (List.getElem?_eq_some_iff.mp h).1

theorem Rep.slot_lt (h : Rep s slots mapped) {j d : Nat} (hj : slots[j]? = some d) : d < 1024 :=
  h.bound d (List.mem_of_getElem? hj)

/-- The table of a slot is where the allocator put it. -/
theorem Rep.frameOf_slot (h : Rep s slots mapped) {j d : Nat} (hj : slots[j]? = some d) :
    frameOf (pde s.mem dirAddr d) = tableAddr j := by
  have hlt := index_lt hj
  have hle := h.length_le
  rw [h.present j d hj, frameOf_sharedEntry (by omega)]
  simp only [tableAddr]
  omega

/-- Two slots of the list with one index are one slot. -/
theorem Rep.index_inj (h : Rep s slots mapped) {i j d : Nat} (hi : slots[i]? = some d)
    (hj : slots[j]? = some d) : i = j :=
  (List.getElem?_inj (index_lt hi) h.nodup).mp (hi.trans hj.symm)

end Rep

theorem pdIdx_eq (addr : Nat) : pdIdx addr = addr / 4194304 % 1024 := by
  have hmask : (0x3FF : Nat) = 2 ^ 10 - 1 := rfl
  rw [pdIdx, hmask, Nat.and_two_pow_sub_one_eq_mod, Nat.shiftRight_eq_div_pow]

theorem ptIdx_eq (addr : Nat) : ptIdx addr = addr / 4096 % 1024 := by
  have hmask : (0x3FF : Nat) = 2 ^ 10 - 1 := rfl
  rw [ptIdx, hmask, Nat.and_two_pow_sub_one_eq_mod, Nat.shiftRight_eq_div_pow]

theorem pdIdx_lt (addr : Nat) : pdIdx addr < 1024 := by
  rw [pdIdx_eq]
  omega

theorem ptIdx_lt (addr : Nat) : ptIdx addr < 1024 := by
  rw [ptIdx_eq]
  omega

/-- The page number an address is mapped under: addresses fold at 4 GiB. -/
def pageOf (addr : Nat) : Nat := addr / 4096 % 1048576

theorem pageOf_split (addr : Nat) : pageOf addr = 1024 * pdIdx addr + ptIdx addr := by
  rw [pageOf, pdIdx_eq, ptIdx_eq]
  omega

/-- An index into the longer list is an old one or the new last one. -/
theorem index_snoc {slots : List Nat} {d j d' : Nat} (h : (slots ++ [d])[j]? = some d') :
    slots[j]? = some d' ∨ (j = slots.length ∧ d' = d) := by
  by_cases hlt : j < slots.length
  · rw [List.getElem?_append_left hlt] at h
    exact .inl h
  · rw [List.getElem?_append_right (by omega), List.getElem?_singleton] at h
    split at h
    · exact .inr ⟨by omega, (Option.some.inj h).symm⟩
    · cases h

/-- `t` is `s` with an empty table, number `k` of the allocator, for slot `d`. -/
structure NewTable (s : State) (d k : Nat) (t : State) : Prop where
  directory : t.pageDirectory = s.pageDirectory
  nextPt : t.nextPt = tableAddr (k + 1)
  slot : pde t.mem dirAddr d = sharedEntry (0x201 + k)
  others : ∀ d' < 1024, d' ≠ d → pde t.mem dirAddr d' = pde s.mem dirAddr d'
  empty : ∀ i < 1024, load32 t.mem (tableAddr k + 4 * i) = 0#32
  tables : ∀ j < k, ∀ i < 1024,
    load32 t.mem (tableAddr j + 4 * i) = load32 s.mem (tableAddr j + 4 * i)
  frame : Frame 0x200000 0x401000 s.mem t.mem

theorem ensureTable_new {s : State} {d k : Nat} (hdir : s.pageDirectory = dirAddr)
    (hnext : s.nextPt = tableAddr k) (hk : k < 1024) (hd : d < 1024)
    (hp : ¬Present (pde s.mem s.pageDirectory d)) : NewTable s d k (ensureTable d s) := by
  have he : ensureTable d s =
      { s with
        nextPt := (tableAddr k + 0x1000) % 4294967296
        mem := store32 (fill (tableAddr k) (fun _ => 0#32) 1024 s.mem) (dirAddr + 4 * d)
          (withFlags (BitVec.ofNat 32 (tableAddr k))) } := by
    rw [ensureTable, if_neg hp, hdir, hnext]
  have hfill := fill_frame (tableAddr k) (fun _ => 0#32) 1024 s.mem
  have hstore := store32_frame (fill (tableAddr k) (fun _ => 0#32) 1024 s.mem) (dirAddr + 4 * d)
    (withFlags (BitVec.ofNat 32 (tableAddr k)))
  -- a word apart from the new table and from the new directory entry is kept
  have hkeep : ∀ a, Sep (tableAddr k) 4096 a 4 → Sep (dirAddr + 4 * d) 4 a 4 →
      load32 (ensureTable d s).mem a = load32 s.mem a := by
    intro a htable hentry
    rw [he]
    exact (load32_frame hstore hentry).trans (load32_frame hfill htable)
  constructor
  · rw [he]
  · rw [he]
    simp only [tableAddr]
    omega
  · rw [he, pde, load32_store32_same, sharedEntry]
    congr 2
    simp only [tableAddr]
    omega
  · intro d' hd' hne
    apply hkeep
    · exact sep_of_ge (by simp only [dirAddr, tableAddr]; omega)
        (by simp only [tableAddr]; omega)
    · exact sep_of_offset (by omega) (by omega) (by omega)
  · intro i hi
    rw [he, load32_frame hstore
      (sep_of_le (by simp only [tableAddr, dirAddr]; omega) (by simp only [tableAddr]; omega))]
    exact fill_load (tableAddr k) (fun _ => 0#32) 1024 s.mem (by decide) hi
  · intro j hj i hi
    apply hkeep
    · exact sep_of_ge (by simp only [tableAddr]; omega) (by simp only [tableAddr]; omega)
    · exact sep_of_le (by simp only [tableAddr, dirAddr]; omega)
        (by simp only [tableAddr]; omega)
  · rw [he]
    refine frame_trans (frame_mono hfill ?_ ?_) (frame_mono hstore ?_ ?_)
    · simp only [tableAddr]
      omega
    · simp only [tableAddr]
      omega
    · simp only [dirAddr]
      omega
    · simp only [dirAddr]
      omega

/-- A new table for a slot that had none maps nothing. -/
theorem newTable_rep {s t : State} {slots : List Nat} {mapped : Set Nat} {d : Nat}
    (h : Rep s slots mapped) (hd : d < 1024) (hmem : d ∉ slots)
    (ht : NewTable s d slots.length t) : Rep t (slots ++ [d]) mapped := by
  have hdisjoint : ∀ a ∈ slots, ∀ b ∈ [d], a ≠ b := by
    intro a ha b hb hab
    rw [List.mem_singleton.mp hb] at hab
    exact hmem (hab ▸ ha)
  constructor
  · rw [ht.directory]
    exact h.directory
  · rw [ht.nextPt, List.length_append, List.length_singleton]
  · exact List.nodup_append.mpr ⟨h.nodup, List.nodup_singleton d, hdisjoint⟩
  · intro x hx
    obtain hx | hx := List.mem_append.mp hx
    · exact h.bound x hx
    · rw [List.mem_singleton.mp hx]
      exact hd
  · intro x hx hn
    have hxs : x ∉ slots := fun hm => hn (List.mem_append_left _ hm)
    have hxd : x ≠ d := fun heq => hn (List.mem_append_right _ (List.mem_singleton.mpr heq))
    rw [ht.others x hx hxd]
    exact h.absent x hx hxs
  · intro j d' hj
    obtain hj | ⟨rfl, rfl⟩ := index_snoc hj
    · have hne : d' ≠ d := fun heq => hmem (heq ▸ List.mem_of_getElem? hj)
      rw [ht.others d' (h.slot_lt hj) hne]
      exact h.present j d' hj
    · exact ht.slot
  · intro j d' hj i hi hm
    obtain hj | ⟨rfl, rfl⟩ := index_snoc hj
    · rw [ht.tables j (index_lt hj) i hi]
      exact h.hit j d' hj i hi hm
    · have hcov := h.covered _ hm
      have hdir : (1024 * d' + i) / 1024 = d' := by omega
      rw [hdir] at hcov
      exact absurd hcov hmem
  · intro j d' hj i hi hm
    obtain hj | ⟨rfl, rfl⟩ := index_snoc hj
    · rw [ht.tables j (index_lt hj) i hi]
      exact h.miss j d' hj i hi hm
    · exact ht.empty i hi
  · intro p hp
    exact List.mem_append_left _ (h.covered p hp)

/-- Either slot `d` has a table, or it is given the next one. -/
theorem ensureTable_cases {s : State} {slots : List Nat} {mapped : Set Nat} {d : Nat}
    (h : Rep s slots mapped) (hd : d < 1024) :
    d ∈ slots ∧ Present (pde s.mem s.pageDirectory d) ∧ ensureTable d s = s ∨
      d ∉ slots ∧ ¬Present (pde s.mem s.pageDirectory d) ∧
        NewTable s d slots.length (ensureTable d s) := by
  have hdir := h.directory
  by_cases hmem : d ∈ slots
  · obtain ⟨j, hj⟩ := List.mem_iff_getElem?.mp hmem
    have hp : Present (pde s.mem s.pageDirectory d) := by
      rw [hdir, h.present j d hj]
      exact present_sharedEntry _
    have he : ensureTable d s = s := by simp [ensureTable, hp]
    exact .inl ⟨hmem, hp, he⟩
  · have hp : ¬Present (pde s.mem s.pageDirectory d) := by
      rw [hdir, h.absent d hd hmem]
      exact not_present_zero
    have hbound : ∀ x ∈ d :: slots, x < 1024 := by
      intro x hx
      obtain rfl | hx := List.mem_cons.mp hx
      · exact hd
      · exact h.bound x hx
    have hlen : (d :: slots).length ≤ 1024 :=
      slots_length_le (List.nodup_cons.mpr ⟨hmem, h.nodup⟩) hbound
    rw [List.length_cons] at hlen
    exact .inr ⟨hmem, hp, ensureTable_new hdir h.nextPt hlen hd hp⟩

/-- Slot `d` has a table afterwards; nothing is mapped by it. -/
theorem ensureTable_rep {s : State} {slots : List Nat} {mapped : Set Nat} {d : Nat}
    (h : Rep s slots mapped) (hd : d < 1024) :
    ∃ slots', slots <+: slots' ∧ d ∈ slots' ∧ Rep (ensureTable d s) slots' mapped ∧
      Frame 0x200000 0x401000 s.mem (ensureTable d s).mem := by
  obtain ⟨hmem, _, he⟩ | ⟨hmem, _, hnew⟩ := ensureTable_cases h hd
  · rw [he]
    exact ⟨slots, List.prefix_refl _, hmem, h, frame_refl _ _ _⟩
  · exact ⟨slots ++ [d], List.prefix_append _ _, List.mem_append_right _ (List.mem_singleton_self d),
      newTable_rep h hd hmem hnew, hnew.frame⟩

/-- `t` is `s` with the entry of the page at `phys` written in table number `j`. -/
structure NewEntry (s : State) (phys j : Nat) (t : State) : Prop where
  directory : t.pageDirectory = s.pageDirectory
  nextPt : t.nextPt = s.nextPt
  slots : ∀ d < 1024, pde t.mem dirAddr d = pde s.mem dirAddr d
  entry : load32 t.mem (tableAddr j + 4 * ptIdx phys) = sharedEntry (pageOf phys)
  others : ∀ i t', i < 1024 → t' < 1024 → ¬(i = j ∧ t' = ptIdx phys) →
    load32 t.mem (tableAddr i + 4 * t') = load32 s.mem (tableAddr i + 4 * t')
  frame : Frame 0x200000 0x401000 s.mem t.mem

theorem withFlags_phys {phys : Nat} (ha : phys % 4096 = 0) :
    withFlags (BitVec.ofNat 32 phys) = sharedEntry (pageOf phys) := by
  have hmod : BitVec.ofNat 32 phys = BitVec.ofNat 32 (4096 * pageOf phys) := by
    apply BitVec.eq_of_toNat_eq
    simp only [BitVec.toNat_ofNat, pageOf]
    omega
  rw [sharedEntry, hmod]

theorem setEntry_new {s : State} {phys j : Nat} (hj : j < 1024) (ha : phys % 4096 = 0)
    (hframe : frameOf (pde s.mem s.pageDirectory (pdIdx phys)) = tableAddr j) :
    NewEntry s phys j (setEntry phys s) := by
  have ht := ptIdx_lt phys
  have he : setEntry phys s =
      { s with mem := store32 s.mem (tableAddr j + 4 * ptIdx phys) (sharedEntry (pageOf phys)) } := by
    rw [setEntry, hframe, withFlags_phys ha]
  have hstore := store32_frame s.mem (tableAddr j + 4 * ptIdx phys) (sharedEntry (pageOf phys))
  rw [he]
  constructor
  · rfl
  · rfl
  · intro d hd
    exact load32_frame hstore
      (sep_of_ge (by simp only [tableAddr, dirAddr]; omega) (by simp only [tableAddr]; omega))
  · exact load32_store32_same _ _ _
  · intro i t hi htt hne
    apply load32_frame hstore
    simp only [tableAddr, Nat.add_assoc]
    exact sep_of_offset (by omega) (by omega) (by omega)
  · refine frame_mono hstore ?_ ?_
    · simp only [tableAddr]
      omega
    · simp only [tableAddr]
      omega

/-- The entry of a page stands in the table of its slot and nowhere else. -/
theorem Rep.entry_page {s : State} {slots : List Nat} {mapped : Set Nat} {phys j i d t : Nat}
    (h : Rep s slots mapped) (hj : slots[j]? = some (pdIdx phys)) (hi : slots[i]? = some d)
    (ht : t < 1024) : i = j ∧ t = ptIdx phys ↔ 1024 * d + t = pageOf phys := by
  have hphys := ptIdx_lt phys
  rw [pageOf_split]
  constructor
  · rintro ⟨rfl, rfl⟩
    rw [Option.some.inj (hi.symm.trans hj)]
  · intro hp
    have hslot : d = pdIdx phys := by omega
    have hentry : t = ptIdx phys := by omega
    rw [hslot] at hi
    exact ⟨h.index_inj hi hj, hentry⟩

/-- Writing the entry of a page whose slot has a table maps that page. -/
theorem newEntry_rep {s t : State} {slots : List Nat} {mapped : Set Nat} {phys j : Nat}
    (h : Rep s slots mapped) (hj : slots[j]? = some (pdIdx phys)) (ht : NewEntry s phys j t) :
    Rep t slots (mapped ∪ {pageOf phys}) := by
  have hlen := h.length_le
  constructor
  · rw [ht.directory]
    exact h.directory
  · rw [ht.nextPt]
    exact h.nextPt
  · exact h.nodup
  · exact h.bound
  · intro d hd hn
    rw [ht.slots d hd]
    exact h.absent d hd hn
  · intro i d hi
    rw [ht.slots d (h.slot_lt hi)]
    exact h.present i d hi
  · intro i d hi e he hm
    by_cases hc : i = j ∧ e = ptIdx phys
    · have hpage := (h.entry_page hj hi he).mp hc
      rw [hc.1, hc.2, ht.entry, ← hpage, hc.2]
    · have hil := index_lt hi
      rw [ht.others i e (by omega) he hc]
      obtain hm | hm := hm
      · exact h.hit i d hi e he hm
      · exact absurd ((h.entry_page hj hi he).mpr hm) hc
  · intro i d hi e he hm
    have hold : 1024 * d + e ∉ mapped := fun hx => hm (.inl hx)
    have hc : ¬(i = j ∧ e = ptIdx phys) := fun hx => hm (.inr ((h.entry_page hj hi he).mp hx))
    have hil := index_lt hi
    rw [ht.others i e (by omega) he hc]
    exact h.miss i d hi e he hold
  · rintro p (hp | hp)
    · exact h.covered p hp
    · have hphys := ptIdx_lt phys
      have hdir : (1024 * pdIdx phys + ptIdx phys) / 1024 = pdIdx phys := by omega
      rw [Set.mem_singleton_iff.mp hp, pageOf_split, hdir]
      exact List.mem_of_getElem? hj

/-- From any address space in `s`, `t` holds it with the pages of `P` added, and memory
outside the table area is as before. -/
def Maps (P : Set Nat) (s t : State) : Prop :=
  ∀ slots mapped, Rep s slots mapped →
    ∃ slots', slots <+: slots' ∧ Rep t slots' (mapped ∪ P) ∧ Frame 0x200000 0x401000 s.mem t.mem

theorem maps_refl (s : State) : Maps ∅ s s := by
  intro slots mapped h
  exact ⟨slots, List.prefix_refl _, by rwa [Set.union_empty], frame_refl _ _ _⟩

theorem maps_trans {P Q : Set Nat} {s t u : State} (h : Maps P s t) (h' : Maps Q t u) :
    Maps (P ∪ Q) s u := by
  intro slots mapped hr
  obtain ⟨slots₁, hp₁, hr₁, hf₁⟩ := h slots mapped hr
  obtain ⟨slots₂, hp₂, hr₂, hf₂⟩ := h' slots₁ _ hr₁
  rw [Set.union_assoc] at hr₂
  exact ⟨slots₂, hp₁.trans hp₂, hr₂, frame_trans hf₁ hf₂⟩

theorem mapPage_maps (s : State) {phys : Nat} (ha : phys % 4096 = 0) :
    Maps {pageOf phys} s (mapPage phys s) := by
  intro slots mapped h
  obtain ⟨slots', hp, hm, hr, hf⟩ := ensureTable_rep h (pdIdx_lt phys)
  obtain ⟨j, hj⟩ := List.mem_iff_getElem?.mp hm
  have hframe := hr.frameOf_slot hj
  rw [← hr.directory] at hframe
  have hjlt : j < 1024 := Nat.lt_of_lt_of_le (index_lt hj) hr.length_le
  have hnew := setEntry_new hjlt ha hframe
  exact ⟨slots', hp, newEntry_rep hr hj hnew, frame_trans hf hnew.frame⟩

/-- The pages a mapping loop over `[base, stop)` goes through. -/
def rangePages (base stop : Nat) : Set Nat :=
  {p | ∃ phys, base ≤ phys ∧ phys < stop ∧ phys % 4096 = 0 ∧ p = pageOf phys}

/-- The pages of `n` rounds that start at `base`. -/
def countedPages (base n : Nat) : Set Nat := {p | ∃ k < n, p = pageOf (base + 0x1000 * k)}

theorem countedPages_zero (base : Nat) : countedPages base 0 = ∅ := by
  ext p
  simp [countedPages]

theorem countedPages_succ (base n : Nat) :
    countedPages base n ∪ {pageOf (base + 0x1000 * n)} = countedPages base (n + 1) := by
  ext p
  constructor
  · rintro (⟨k, hk, hp⟩ | hp)
    · exact ⟨k, by omega, hp⟩
    · exact ⟨n, by omega, hp⟩
  · rintro ⟨k, hk, hp⟩
    by_cases hkn : k = n
    · rw [hkn] at hp
      exact .inr hp
    · exact .inl ⟨k, by omega, hp⟩

theorem rangePages_eq {base : Nat} (stop : Nat) (hb : base % 4096 = 0) :
    rangePages base stop = countedPages base ((stop - base + 0xFFF) / 0x1000) := by
  ext p
  constructor
  · rintro ⟨phys, hlo, hhi, hphys, hp⟩
    have hround : base + 0x1000 * ((phys - base) / 0x1000) = phys := by omega
    refine ⟨(phys - base) / 0x1000, by omega, ?_⟩
    rw [hp, hround]
  · rintro ⟨k, hk, hp⟩
    exact ⟨base + 0x1000 * k, by omega, by omega, by omega, hp⟩

theorem mapPages_maps (s : State) {base : Nat} (hb : base % 4096 = 0) (n : Nat) :
    Maps (countedPages base n) s (forUp (fun k => mapPage (base + 0x1000 * k)) 0 n s) := by
  induction n with
  | zero =>
    rw [countedPages_zero]
    exact maps_refl s
  | succ n ih =>
    rw [forUp_succ_last, Nat.zero_add, ← countedPages_succ]
    have hphys : (base + 0x1000 * n) % 4096 = 0 := by omega
    exact maps_trans ih (mapPage_maps _ hphys)

theorem mapRange_maps (s : State) {base stop : Nat} (hb : base % 4096 = 0) :
    Maps (rangePages base stop) s (mapRange base stop s) := by
  rw [rangePages_eq stop hb]
  exact mapPages_maps s hb _

end Paging
