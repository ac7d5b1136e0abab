import Nyrix.PagingMap

/-!
# The tables are an identity mapping

What holds of the words in memory after `paging_init_full` and `paging_map_framebuffer`,
read off the address space they represent.
-/

namespace Paging

open ByteMemory BoundedLoop PackedBits PageTable Multiboot

/-- The entry for directory index `d` and table index `t`, as the MMU finds it. -/
def entryOf (s : State) (d t : Nat) : BitVec 32 := pte s.mem s.pageDirectory d t

/-- The directory has a table for index `d`. -/
def HasTable (s : State) (d : Nat) : Prop := Present (pde s.mem s.pageDirectory d)

/-- Address `v` is mapped to itself. -/
def MappedToItself (s : State) (v : Nat) : Prop := translate s.mem s.pageDirectory v = some v

/-- Every present entry maps a page to itself for everybody, and the tables lie one beside
the other below the bump pointer. -/
structure SoundTables (s : State) : Prop where
  identity : ∀ d < 1024, ∀ t < 1024, HasTable s d → Present (entryOf s d t) →
    frameOf (entryOf s d t) = d * 2 ^ 22 + t * 2 ^ 12 ∧ entryOf s d t &&& 7#32 = 7#32
  distinct : ∀ d < 1024, ∀ d' < 1024, HasTable s d → HasTable s d' →
    frameOf (pde s.mem s.pageDirectory d) = frameOf (pde s.mem s.pageDirectory d') → d = d'
  inside : ∀ d < 1024, HasTable s d → frameOf (pde s.mem s.pageDirectory d) % 4096 = 0 ∧
    0x201000 ≤ frameOf (pde s.mem s.pageDirectory d) ∧
    frameOf (pde s.mem s.pageDirectory d) + 4096 ≤ s.nextPt
  bump : s.nextPt ≤ 0x601000

section Rep

variable {s : State} {slots : List Nat} {mapped : Set Nat}

/-- Exactly the listed slots have a table. -/
theorem Rep.slot_of_hasTable (h : Rep s slots mapped) {d : Nat} (hd : d < 1024)
    (ht : HasTable s d) : ∃ j : Nat, slots[j]? = some d := by
  by_contra hne
  have hmem : d ∉ slots := fun hm => hne (List.mem_iff_getElem?.mp hm)
  rw [HasTable, h.directory, h.absent d hd hmem] at ht
  exact not_present_zero ht

theorem Rep.hasTable (h : Rep s slots mapped) {j d : Nat} (hj : slots[j]? = some d) :
    HasTable s d := by
  rw [HasTable, h.directory, h.present j d hj]
  exact present_sharedEntry _

theorem Rep.entryOf_eq (h : Rep s slots mapped) {j d : Nat} (hj : slots[j]? = some d) (t : Nat) :
    entryOf s d t = load32 s.mem (tableAddr j + 4 * t) := by
  rw [entryOf, pte, h.directory, h.frameOf_slot hj]

/-- A present entry belongs to a mapped page. -/
theorem Rep.entry_of_present (h : Rep s slots mapped) {j d t : Nat} (hj : slots[j]? = some d)
    (ht : t < 1024) (hp : Present (entryOf s d t)) :
    1024 * d + t ∈ mapped ∧ entryOf s d t = sharedEntry (1024 * d + t) := by
  rw [h.entryOf_eq hj] at hp ⊢
  by_cases hm : 1024 * d + t ∈ mapped
  · exact ⟨hm, h.hit j d hj t ht hm⟩
  · rw [h.miss j d hj t ht hm] at hp
    exact absurd hp not_present_zero

theorem Rep.sound (h : Rep s slots mapped) : SoundTables s := by
  have hlen := h.length_le
  constructor
  · intro d hd t ht hhas hp
    obtain ⟨j, hj⟩ := h.slot_of_hasTable hd hhas
    rw [(h.entry_of_present hj ht hp).2]
    refine ⟨?_, withFlags_and_flags _⟩
    rw [frameOf_sharedEntry (by omega)]
    omega
  · intro d hd d' hd' hhas hhas' heq
    obtain ⟨j, hj⟩ := h.slot_of_hasTable hd hhas
    obtain ⟨j', hj'⟩ := h.slot_of_hasTable hd' hhas'
    rw [h.directory, h.frameOf_slot hj, h.frameOf_slot hj'] at heq
    simp only [tableAddr] at heq
    obtain rfl : j = j' := by omega
    exact Option.some.inj (hj.symm.trans hj')
  · intro d hd hhas
    obtain ⟨j, hj⟩ := h.slot_of_hasTable hd hhas
    have hlt := index_lt hj
    rw [h.directory, h.frameOf_slot hj, h.nextPt]
    simp only [tableAddr]
    omega
  · rw [h.nextPt]
    simp only [tableAddr]
    omega

/-- Every address of a mapped page is translated to itself. -/
theorem Rep.translate_mapped (h : Rep s slots mapped) {v : Nat} (hv : v < 4294967296)
    (hm : v / 4096 ∈ mapped) : MappedToItself s v := by
  have hcov := h.covered _ hm
  have hslot : v / 4096 / 1024 = v / 4194304 := by omega
  rw [hslot] at hcov
  obtain ⟨j, hj⟩ := List.mem_iff_getElem?.mp hcov
  have hsplit : 1024 * (v / 4194304) + v / 4096 % 1024 = v / 4096 := by omega
  have hentry : entryOf s (v / 4194304) (v / 4096 % 1024) = sharedEntry (v / 4096) := by
    rw [h.entryOf_eq hj, h.hit j _ hj _ (by omega) (by rwa [hsplit]), hsplit]
  have hpte : pte s.mem s.pageDirectory (v / 4194304) (v / 4096 % 1024) = sharedEntry (v / 4096) :=
    hentry
  have hboth : Present (pde s.mem s.pageDirectory (v / 4194304)) ∧
      Present (sharedEntry (v / 4096)) := ⟨h.hasTable hj, present_sharedEntry _⟩
  rw [MappedToItself, PageTable.translate, hpte, if_pos hboth, frameOf_sharedEntry (by omega)]
  congr 1
  omega

end Rep

/-- Growing the address space keeps every entry that was present. -/
theorem entries_kept {s t : State} {slots slots' : List Nat} {mapped P : Set Nat}
    (hs : Rep s slots mapped) (hp : slots <+: slots') (ht : Rep t slots' (mapped ∪ P)) {d i : Nat}
    (hd : d < 1024) (hi : i < 1024) (hhas : HasTable s d) (hpres : Present (entryOf s d i)) :
    pde t.mem t.pageDirectory d = pde s.mem s.pageDirectory d ∧ entryOf t d i = entryOf s d i := by
  obtain ⟨j, hj⟩ := hs.slot_of_hasTable hd hhas
  have hj' : slots'[j]? = some d := by
    obtain ⟨rest, rfl⟩ := hp
    rw [List.getElem?_append_left (index_lt hj)]
    exact hj
  obtain ⟨hm, he⟩ := hs.entry_of_present hj hi hpres
  constructor
  · rw [ht.directory, ht.present j d hj', hs.directory, hs.present j d hj]
  · rw [he, ht.entryOf_eq hj', ht.hit j d hj' i hi (.inl hm)]

/-- A whole page of usable memory is mapped, with the low pages or by its entry. -/
theorem usable_mapped {e : MmapEntry} {p : Nat} (ht : e.type = 1#32)
    (hlen : e.addr.toNat + e.len.toNat < 18446744073709551616) (hb : e.addr.toNat ≤ 4096 * p)
    (he : 4096 * p + 4096 ≤ e.addr.toNat + e.len.toNat) (hp : p < 1048576) :
    p < 1024 ∨ p ∈ entryPages e := by
  by_cases hpl : p < 1024
  · exact .inl hpl
  · have hholds : Holds e p := ⟨hb, he⟩
    have hpage : p = p % 1048576 := by omega
    exact .inr ((entryPages_eq ht hlen (by omega) p).mpr ⟨p, by omega, hholds, hpage⟩)

/-- The loop over a framebuffer below 4 GiB goes through the page of each of its bytes. -/
theorem framebuffer_mapped {addr size : BitVec 64} {v : Nat}
    (hfb : addr.toNat + size.toNat ≤ 4294967296) (hv : addr.toNat ≤ v)
    (hv' : v < addr.toNat + size.toNat) :
    v / 4096 ∈ rangePages (fbStart addr) (fbStop addr size) := by
  refine ⟨v / 4096 * 4096, ?_, ?_, by omega, ?_⟩
  · rw [fbStart, and_pageMask]
    omega
  · have hsum : (addr + size).toNat = addr.toNat + size.toNat :=
      BitVec.toNat_add_of_lt (by omega)
    have hround : (addr + size + 0xFFF#64).toNat = addr.toNat + size.toNat + 4095 := by
      rw [BitVec.toNat_add_of_lt, hsum]
      · simp only [BitVec.toNat_ofNat, Nat.reducePow, Nat.reduceMod]
      · rw [hsum]
        simp only [BitVec.toNat_ofNat, Nat.reducePow, Nat.reduceMod]
        omega
    rw [fbStop, and_pageMask, hround]
    omega
  · rw [pageOf]
    omega

/-- What the tables are after both functions have run on a map and a framebuffer: `t` is
the state between the two. -/
structure PagingResult (entries : List MmapEntry) (addr size : BitVec 64) (t u : State) : Prop where
  tables : SoundTables u
  low : ∀ v < 0x400000, MappedToItself u v
  usable : ∀ p < 1048576, Usable entries p → ∀ v, v / 4096 = p → MappedToItself u v
  framebuffer : ∀ v, addr.toNat ≤ v → v < addr.toNat + size.toNat → MappedToItself u v
  kept : ∀ d < 1024, ∀ i < 1024, HasTable t d → Present (entryOf t d i) →
    pde u.mem u.pageDirectory d = pde t.mem t.pageDirectory d ∧ entryOf u d i = entryOf t d i

/-- The map of `n` entries is out of the way of the frames the tables may take, no entry
wraps around, and the framebuffer lies below 4 GiB. -/
theorem paging_identity (idtEntries mmapAddr n : Nat) (mem : Mem) (addr size : BitVec 64)
    (hfit : mmapAddr + entrySize * n < 4294967296) (hsep : MapApart mmapAddr n)
    (hlen : ∀ e ∈ mmapEntries mem mmapAddr n, e.addr.toNat + e.len.toNat < 18446744073709551616)
    (hfb : addr.toNat + size.toNat ≤ 4294967296) :
    (IdtFits idtEntries →
      ∃ fuel t, pagingInitFull fuel idtEntries mmapAddr (entrySize * n) (.boot mem) = some t) ∧
    ∀ fuel t, pagingInitFull fuel idtEntries mmapAddr (entrySize * n) (.boot mem) = some t →
      PagingResult (mmapEntries mem mmapAddr n) addr size t (pagingMapFramebuffer addr size t) := by
  refine ⟨fun hidt => pagingInitFull_returns hidt hfit _, fun fuel t h => ?_⟩
  obtain ⟨slots, hrep⟩ := pagingInitFull_mapped (s := .boot mem) rfl hfit hsep h
  have hdir : t.pageDirectory ≠ 0 := by
    rw [hrep.directory]
    decide
  obtain ⟨slots', hp, hrep', _⟩ := pagingMapFramebuffer_maps addr size hdir slots _ hrep
  have hpage : ∀ v < 4294967296, v / 4096 ∈ lowPages ∪ mapPages mem mmapAddr n ∪
      rangePages (fbStart addr) (fbStop addr size) →
      MappedToItself (pagingMapFramebuffer addr size t) v :=
    fun v hv hm => hrep'.translate_mapped hv hm
  constructor
  · exact hrep'.sound
  · intro v hv
    exact hpage v (by omega) (.inl (.inl (show v / 4096 < 1024 by omega)))
  · rintro p hpl ⟨e, hmem, hty, hb, he⟩ v hvp
    have hcase := usable_mapped hty (hlen e hmem) hb (by omega) hpl
    obtain ⟨k, hk, rfl⟩ := List.mem_map.mp hmem
    rw [List.mem_range] at hk
    refine hpage v (by omega) (.inl ?_)
    rw [hvp]
    obtain hlow | hin := hcase
    · exact .inl hlow
    · exact .inr ⟨k, hk, hin⟩
  · intro v hv hv'
    exact hpage v (by omega) (.inr (framebuffer_mapped hfb hv hv'))
  · intro d hd i hi hhas hpres
    exact entries_kept hrep hp hrep' hd hi hhas hpres

/-- The machine with 128 MiB of memory and a framebuffer of 3 MiB at 0xFD000000. -/
theorem paging_identity_ramMem :
    ∃ fuel t, pagingInitFull fuel 0x105000 0x9000 24 (.boot ramMem) = some t ∧
      PagingResult [ramEntry] 0xFD000000 0x300000 t
        (pagingMapFramebuffer 0xFD000000 0x300000 t) := by
  have hentries := ramMem_entries
  have hfb : (0xFD000000#64).toNat + (0x300000#64).toNat ≤ 4294967296 := by decide
  obtain ⟨hterm, hresult⟩ := paging_identity 0x105000 0x9000 1 ramMem 0xFD000000 0x300000
    (by decide) (sep_of_ge (by decide) (by decide)) (by rw [hentries]; decide) hfb
  obtain ⟨fuel, t, h⟩ := hterm (by decide)
  exact ⟨fuel, t, h, hentries ▸ hresult fuel t h⟩

end Paging
