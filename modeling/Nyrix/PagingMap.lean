import Nyrix.PagingRep

/-!
# What paging_init_full and paging_map_framebuffer map

The low 4 MiB come first, then the entries of the memory map one after the other, then the
framebuffer. The loops that add the user flag find it set already.
-/

namespace Paging

open ByteMemory BoundedLoop PackedBits PageTable Multiboot

/-- The 1024 pages of the first table. -/
def lowPages : Set Nat := {p | p < 1024}

theorem lowTables_rep {s : State} (hn : s.nextPt = 0x202000) :
    Rep (lowTables s) [0] lowPages ∧ Frame 0x200000 0x401000 s.mem (lowTables s).mem := by
  have hdirFrame := fill_frame 0x200000 (fun _ => 0#32) 1024 s.mem
  have htabFrame := fill_frame 0x201000 (fun i => withFlags (BitVec.ofNat 32 (i * 4096))) 1024
    (fill 0x200000 (fun _ => 0#32) 1024 s.mem)
  have hstore := store32_frame (fill 0x201000 (fun i => withFlags (BitVec.ofNat 32 (i * 4096))) 1024
    (fill 0x200000 (fun _ => 0#32) 1024 s.mem)) 0x200000 (withFlags 0x201000#32)
  have hzero : [0][0]? = some 0 := rfl
  have hidx : ∀ j d : Nat, [0][j]? = some d → j = 0 ∧ d = 0 := by
    intro j d hj
    have hlt := index_lt hj
    rw [List.length_singleton] at hlt
    obtain rfl : j = 0 := by omega
    exact ⟨rfl, (Option.some.inj (hzero.symm.trans hj)).symm⟩
  have htable : ∀ t < 1024, load32 (lowTables s).mem (tableAddr 0 + 4 * t) = sharedEntry t := by
    intro t ht
    have hsep : Sep 0x200000 4 (0x201000 + 4 * t) 4 := sep_of_le (by omega) (by omega)
    simp only [tableAddr, Nat.mul_zero, Nat.add_zero]
    rw [lowTables, load32_frame hstore hsep, fill_load _ _ _ _ (by decide) ht, sharedEntry,
      Nat.mul_comm]
  refine ⟨⟨rfl, hn, List.nodup_singleton 0, ?_, ?_, ?_, ?_, ?_, ?_⟩, ?_⟩
  · intro d hd
    rw [List.mem_singleton.mp hd]
    decide
  · intro d hd hne
    have hd0 : d ≠ 0 := fun h => hne (List.mem_singleton.mpr h)
    have h1 : Sep 0x200000 4 (dirAddr + 4 * d) 4 :=
      sep_of_le (by simp only [dirAddr]; omega) (by simp only [dirAddr]; omega)
    have h2 : Sep 0x201000 (4 * 1024) (dirAddr + 4 * d) 4 :=
      sep_of_ge (by simp only [dirAddr]; omega) (by omega)
    rw [pde, lowTables, load32_frame hstore h1, load32_frame htabFrame h2]
    exact fill_load 0x200000 (fun _ => 0#32) 1024 s.mem (by decide) hd
  · intro j d hj
    obtain ⟨rfl, rfl⟩ := hidx j d hj
    exact load32_store32_same _ _ _
  · intro j d hj t ht _
    obtain ⟨rfl, rfl⟩ := hidx j d hj
    rw [htable t ht, Nat.mul_zero, Nat.zero_add]
  · intro j d hj t ht hm
    obtain ⟨rfl, rfl⟩ := hidx j d hj
    have hlow : 1024 * 0 + t < 1024 := by omega
    exact absurd hlow hm
  · intro p hp
    have hp : p < 1024 := hp
    have hslot : p / 1024 = 0 := by omega
    rw [hslot]
    exact List.mem_singleton.mpr rfl
  · refine frame_trans (frame_trans (frame_mono hdirFrame ?_ ?_) (frame_mono htabFrame ?_ ?_))
      (frame_mono hstore ?_ ?_) <;> omega

/-- The user flag is set on every entry of a represented address space. -/
theorem addUser_eq {s : State} {slots : List Nat} {mapped : Set Nat} (h : Rep s slots mapped)
    (addr : Nat) : addUser addr s = s := by
  have hd := pdIdx_lt addr
  have ht := ptIdx_lt addr
  by_cases hmem : pdIdx addr ∈ slots
  · obtain ⟨j, hj⟩ := List.mem_iff_getElem?.mp hmem
    by_cases hm : 1024 * pdIdx addr + ptIdx addr ∈ mapped
    · have hentry := h.hit j _ hj _ ht hm
      have hsame : load32 s.mem (tableAddr j + 4 * ptIdx addr) ||| 4#32 =
          load32 s.mem (tableAddr j + 4 * ptIdx addr) := by
        rw [hentry]
        exact withFlags_user _
      simp only [addUser, h.directory, h.frameOf_slot hj, hsame, store32_load32_self]
      split
      · split
        · rw [← h.directory]
        · rfl
      · rfl
    · have hentry := h.miss j _ hj _ ht hm
      simp only [addUser, h.directory, h.frameOf_slot hj, hentry, not_present_zero, if_false, ite_self]
  · have habsent := h.absent _ hd hmem
    simp only [addUser, h.directory, habsent, not_present_zero, if_false]

/-- The pages an entry of the memory map adds. -/
def entryPages (e : MmapEntry) : Set Nat :=
  match entryRange e with
  | some (base, stop) => rangePages base.toNat stop.toNat
  | none => ∅

theorem entryRange_aligned {e : MmapEntry} {base stop : BitVec 64}
    (h : entryRange e = some (base, stop)) : base.toNat % 4096 = 0 := by
  have hb : (alignedBase e).toNat % 4096 = 0 := by
    rw [alignedBase, and_pageMask]
    omega
  simp only [entryRange] at h
  split at h
  · split at h
    · split at h
      · cases h
      · cases h
        decide
    · cases h
      exact hb
  · cases h

/-- Page `q` of the 64-bit space lies wholly inside the entry. -/
def Holds (e : MmapEntry) (q : Nat) : Prop :=
  e.addr.toNat ≤ 4096 * q ∧ 4096 * (q + 1) ≤ e.addr.toNat + e.len.toNat

instance (e : MmapEntry) (q : Nat) : Decidable (Holds e q) :=
  inferInstanceAs (Decidable (_ ∧ _))

section Entry

variable {e : MmapEntry}

theorem entryPages_of_type (ht : e.type ≠ 1#32) : entryPages e = ∅ := by
  simp only [entryPages, entryRange, if_neg ht]

/-- An entry is rounded inward to pages. One that holds none is left with a length of 0 or
of -4096. -/
theorem aligned_toNat (haddr : e.addr.toNat ≤ 18446744073709547520) :
    (alignedBase e).toNat = (e.addr.toNat + 4095) / 4096 * 4096 ∧
      (alignedLen e).toNat =
        (18446744073709551616 + e.len.toNat + e.addr.toNat -
          (e.addr.toNat + 4095) / 4096 * 4096) % 18446744073709551616 / 4096 * 4096 := by
  have hround : (e.addr + 0xFFF#64).toNat = e.addr.toNat + 4095 := by
    apply BitVec.toNat_add_of_lt
    simp only [BitVec.toNat_ofNat, Nat.reducePow, Nat.reduceMod]
    omega
  have hbase : (alignedBase e).toNat = (e.addr.toNat + 4095) / 4096 * 4096 := by
    rw [alignedBase, and_pageMask, hround]
  have hoff : (alignedBase e - e.addr).toNat =
      (e.addr.toNat + 4095) / 4096 * 4096 - e.addr.toNat := by
    rw [BitVec.toNat_sub_of_le, hbase]
    rw [BitVec.le_def]
    omega
  refine ⟨hbase, ?_⟩
  have hrest : (e.len - (alignedBase e - e.addr)).toNat =
      (18446744073709551616 + e.len.toNat + e.addr.toNat -
        (e.addr.toNat + 4095) / 4096 * 4096) % 18446744073709551616 := by
    rw [BitVec.toNat_sub, hoff]
    omega
  rw [alignedLen, and_pageMask, hrest]

theorem four_mib_toNat : (0x400000#64).toNat = 4194304 := BitVec.toNat_ofNat 4194304 64

/-- The range is the aligned one, with what lies below 4 MiB cut off. -/
theorem entryPages_range (ht : e.type = 1#32) {b s : Nat} (hb : (alignedBase e).toNat = b)
    (hs : (alignedBase e + alignedLen e).toNat = s) :
    entryPages e = rangePages (max b 4194304) s := by
  ext p
  by_cases hlow : alignedBase e < 0x400000#64
  · have hbelow := hlow
    rw [BitVec.lt_def, four_mib_toNat, hb] at hbelow
    have hmax : max b 4194304 = 4194304 := max_eq_right (by omega)
    rw [hmax]
    by_cases hcut : alignedBase e + alignedLen e ≤ 0x400000#64
    · have hend := hcut
      rw [BitVec.le_def, four_mib_toNat, hs] at hend
      simp only [entryPages, entryRange, ht, if_true, hlow, hcut]
      constructor
      · rintro ⟨⟩
      · rintro ⟨phys, hlo, hhi, _⟩
        omega
    · have hend : 0x400000#64 + (alignedLen e - (0x400000#64 - alignedBase e)) =
          alignedBase e + alignedLen e := by
        generalize alignedBase e = x, alignedLen e = y
        bv_omega
      simp only [entryPages, entryRange, ht, if_true, hlow, hcut, if_false, hend, hs,
        four_mib_toNat]
  · have habove := hlow
    rw [BitVec.lt_def, four_mib_toNat, hb] at habove
    have hmax : max b 4194304 = b := max_eq_left (by omega)
    simp only [entryPages, entryRange, ht, if_true, hlow, if_false, hb, hs, hmax]

/-- The pages an entry adds are its own from 4 MiB on, each reduced modulo 4 GiB. -/
theorem entryPages_eq (ht : e.type = 1#32)
    (hlen : e.addr.toNat + e.len.toNat < 18446744073709551616)
    (haddr : e.addr.toNat ≤ 18446744073709547520) (p : Nat) :
    p ∈ entryPages e ↔ ∃ q, 1024 ≤ q ∧ Holds e q ∧ p = q % 1048576 := by
  obtain ⟨hbase, hlength⟩ := aligned_toNat haddr
  have hstop := BitVec.toNat_add (alignedBase e) (alignedLen e)
  rw [hbase, hlength] at hstop
  rw [entryPages_range ht hbase hstop]
  simp only [Holds, Nat.reducePow]
  constructor
  · rintro ⟨phys, hlo, hhi, hphys, rfl⟩
    have hpage : phys / 4096 * 4096 = phys := by omega
    refine ⟨phys / 4096, by omega, ⟨by omega, by omega⟩, rfl⟩
  · rintro ⟨q, hq, ⟨hb, he⟩, rfl⟩
    refine ⟨4096 * q, by omega, by omega, by omega, ?_⟩
    rw [pageOf, Nat.mul_div_cancel_left q (by decide)]

/-- An entry that begins in the last page of the 64-bit space is rounded up to address 0
and adds every page. -/
theorem entryPages_last (ht : e.type = 1#32)
    (hlen : e.addr.toNat + e.len.toNat < 18446744073709551616)
    (haddr : 18446744073709547520 < e.addr.toNat) (p : Nat) :
    p ∈ entryPages e ↔ p < 1048576 := by
  have hround : (e.addr + 0xFFF#64).toNat = e.addr.toNat + 4095 - 18446744073709551616 := by
    rw [BitVec.toNat_add]
    simp only [BitVec.toNat_ofNat, Nat.reducePow, Nat.reduceMod]
    omega
  have hbase : (alignedBase e).toNat = 0 := by
    rw [alignedBase, and_pageMask, hround]
    omega
  have hrest : (e.len - (alignedBase e - e.addr)).toNat = e.addr.toNat + e.len.toNat := by
    rw [BitVec.toNat_sub, BitVec.toNat_sub, hbase]
    omega
  have hlength : (alignedLen e).toNat = 18446744073709547520 := by
    rw [alignedLen, and_pageMask, hrest]
    omega
  have hstop : (alignedBase e + alignedLen e).toNat = 18446744073709547520 := by
    rw [BitVec.toNat_add, hbase, hlength]
  rw [entryPages_range ht hbase hstop]
  constructor
  · rintro ⟨phys, _, _, _, rfl⟩
    rw [pageOf]
    omega
  · intro hp
    have hmax : max 0 4194304 = 4194304 := rfl
    rw [hmax]
    obtain ⟨q, hq⟩ : ∃ q, q = p + 1048576 := ⟨_, rfl⟩
    refine ⟨4096 * q, by omega, by omega, by omega, ?_⟩
    rw [pageOf, Nat.mul_div_cancel_left q (by decide)]
    omega

end Entry

theorem mapEntry_maps (e : MmapEntry) (s : State) : Maps (entryPages e) s (mapEntry e s) := by
  cases h : entryRange e with
  | none =>
    simp only [mapEntry, entryPages, h]
    exact maps_refl s
  | some r =>
    obtain ⟨base, stop⟩ := r
    simp only [mapEntry, entryPages, h]
    exact mapRange_maps s (entryRange_aligned h)

/-- Whatever it reads, the walk only ever adds pages. -/
theorem walk_adds {fuel mmapAddr mmapLength : Nat} {s : State} {w : Walk}
    (h : whileLoop (walkCond mmapAddr mmapLength) walkBody fuel ⟨mmapAddr, s⟩ = some w) :
    ∃ P, Maps P s w.paging := by
  refine (whileLoop_induct (fun w => ∃ P, Maps P s w.paging) ?_ fuel ⟨mmapAddr, s⟩ w
    ⟨∅, maps_refl s⟩ h).1
  rintro w _ ⟨P, hP⟩
  exact ⟨P ∪ _, maps_trans hP (mapEntry_maps _ w.paging)⟩

theorem userLoop_eq {s : State} {slots : List Nat} {mapped : Set Nat} (h : Rep s slots mapped)
    (n : Nat) : forUp (fun k => addUser (0x100000 + 0x1000 * k)) 0 n s = s := by
  induction n with
  | zero => rfl
  | succ n ih => rw [forUp_succ_last, ih, addUser_eq h]

theorem idtLoop_eq {s : State} {slots : List Nat} {mapped : Set Nat} (h : Rep s slots mapped)
    {fuel idtEntries a : Nat} {w : Walk}
    (hw : whileLoop (idtCond idtEntries) idtBody fuel ⟨a, s⟩ = some w) : w.paging = s := by
  refine (whileLoop_induct (fun w => w.paging = s) ?_ fuel ⟨a, s⟩ w rfl hw).1
  intro w _ hs
  simp only [idtBody, hs]
  exact addUser_eq h _

/-- `paging_init_full` is the low tables and the walk of the map. -/
theorem pagingInitFull_walk {fuel idtEntries mmapAddr mmapLength : Nat} {s t : State}
    (hn : s.nextPt = 0x202000)
    (h : pagingInitFull fuel idtEntries mmapAddr mmapLength s = some t) :
    ∃ w, whileLoop (walkCond mmapAddr mmapLength) walkBody fuel ⟨mmapAddr, lowTables s⟩ = some w ∧
      t = w.paging := by
  simp only [pagingInitFull, Option.bind_eq_some_iff, Option.map_eq_some_iff] at h
  obtain ⟨w, hw, w', hw', ht⟩ := h
  obtain ⟨P, hP⟩ := walk_adds hw
  obtain ⟨slots, _, hrep, _⟩ := hP [0] lowPages (lowTables_rep hn).1
  rw [userLoop_eq hrep] at hw'
  exact ⟨w, hw, ht.symm.trans (idtLoop_eq hrep hw')⟩

/-- For any map whatever the tables hold some address space, and only the table area has
been written. -/
theorem pagingInitFull_rep {fuel idtEntries mmapAddr mmapLength : Nat} {s t : State}
    (hn : s.nextPt = 0x202000)
    (h : pagingInitFull fuel idtEntries mmapAddr mmapLength s = some t) :
    ∃ slots mapped, Rep t slots mapped ∧ Frame 0x200000 0x401000 s.mem t.mem := by
  obtain ⟨w, hw, rfl⟩ := pagingInitFull_walk hn h
  obtain ⟨P, hP⟩ := walk_adds hw
  obtain ⟨hlow, hframe⟩ := lowTables_rep hn
  obtain ⟨slots, _, hrep, hframe'⟩ := hP [0] lowPages hlow
  exact ⟨slots, _, hrep, frame_trans hframe hframe'⟩

/-- The bounds of the framebuffer loop. -/
def fbStart (addr : BitVec 64) : Nat := (addr &&& ~~~0xFFF#64).toNat
def fbStop (addr size : BitVec 64) : Nat := ((addr + size + 0xFFF#64) &&& ~~~0xFFF#64).toNat

theorem pagingMapFramebuffer_maps (addr size : BitVec 64) {s : State} (hs : s.pageDirectory ≠ 0) :
    Maps (rangePages (fbStart addr) (fbStop addr size)) s (pagingMapFramebuffer addr size s) := by
  have hb : fbStart addr % 4096 = 0 := by
    rw [fbStart, and_pageMask]
    omega
  simp only [pagingMapFramebuffer, hs, if_false]
  exact mapRange_maps s hb

/-- The pages the first `i` entries of the map add. -/
def mapPages (m : Mem) (mmapAddr i : Nat) : Set Nat :=
  {p | ∃ k < i, p ∈ entryPages (entryAt m (mmapAddr + entrySize * k))}

section Walk

variable {mmapAddr n : Nat} {s : State}

/-- The table area and the map have no byte in common. -/
def MapApart (mmapAddr n : Nat) : Prop := Sep 0x200000 0x401000 mmapAddr (entrySize * n)

/-- After `i` rounds the pointer is at entry `i` and the first `i` entries are mapped. -/
structure Walked (mmapAddr : Nat) (s : State) (i : Nat) (w : Walk) : Prop where
  entry : w.entry = mmapAddr + entrySize * i
  maps : Maps (mapPages s.mem mmapAddr i) (lowTables s) w.paging

/-- The entry under the pointer has not been touched by the tables built so far. -/
theorem walked_entry {i : Nat} {w : Walk} (hn : s.nextPt = 0x202000) (hsep : MapApart mmapAddr n)
    (hi : i < n) (h : Walked mmapAddr s i w) :
    entryAt w.paging.mem w.entry = entryAt s.mem (mmapAddr + entrySize * i) := by
  obtain ⟨hlow, hframe⟩ := lowTables_rep hn
  obtain ⟨slots, _, _, hframe'⟩ := h.maps [0] lowPages hlow
  rw [h.entry]
  refine entryAt_frame (frame_trans hframe hframe') (sep_right hsep _ _ ?_)
  simp only [entrySize]
  omega

theorem walked_step {i : Nat} {w : Walk} (hn : s.nextPt = 0x202000)
    (hfit : mmapAddr + entrySize * n < 4294967296) (hsep : MapApart mmapAddr n) (hi : i < n)
    (h : Walked mmapAddr s i w) : Walked mmapAddr s (i + 1) (walkBody w) := by
  have hentry := walked_entry hn hsep hi h
  have hset : mapPages s.mem mmapAddr i ∪ entryPages (entryAt s.mem (mmapAddr + entrySize * i)) =
      mapPages s.mem mmapAddr (i + 1) := by
    ext p
    constructor
    · rintro (⟨k, hk, hp⟩ | hp)
      · exact ⟨k, by omega, hp⟩
      · exact ⟨i, by omega, hp⟩
    · rintro ⟨k, hk, hp⟩
      by_cases hki : k = i
      · exact .inr (hki ▸ hp)
      · exact .inl ⟨k, by omega, hp⟩
  constructor
  · simp only [walkBody, h.entry, entrySize] at hfit ⊢
    omega
  · rw [← hset]
    simp only [walkBody, hentry]
    exact maps_trans h.maps (mapEntry_maps _ w.paging)

theorem walked_zero (mmapAddr : Nat) (s : State) :
    Walked mmapAddr s 0 ⟨mmapAddr, lowTables s⟩ := by
  have hempty : mapPages s.mem mmapAddr 0 = ∅ := by
    ext p
    simp [mapPages]
  refine ⟨rfl, ?_⟩
  rw [hempty]
  exact maps_refl _

theorem walk_result (hn : s.nextPt = 0x202000) (hfit : mmapAddr + entrySize * n < 4294967296)
    (hsep : MapApart mmapAddr n) :
    ∃ w, whileLoop (walkCond mmapAddr (entrySize * n)) walkBody n ⟨mmapAddr, lowTables s⟩ = some w ∧
      Walked mmapAddr s n w := by
  have hmod : (mmapAddr + entrySize * n) % 4294967296 = mmapAddr + entrySize * n :=
    Nat.mod_eq_of_lt hfit
  refine whileLoop_counted (Walked mmapAddr s) n (walked_zero mmapAddr s) ?_ ?_
  · intro i w hi h
    refine ⟨?_, walked_step hn hfit hsep hi h⟩
    rw [walkCond, hmod, h.entry, decide_eq_true_eq]
    simp only [entrySize]
    omega
  · intro w h
    simp only [walkCond, hmod, h.entry, lt_self_iff_false, decide_false]

/-- With the map out of the way of the tables, the pages mapped are the low ones and those
of the entries as the boot loader wrote them. -/
theorem pagingInitFull_mapped {fuel idtEntries : Nat} {t : State} (hn : s.nextPt = 0x202000)
    (hfit : mmapAddr + entrySize * n < 4294967296) (hsep : MapApart mmapAddr n)
    (h : pagingInitFull fuel idtEntries mmapAddr (entrySize * n) s = some t) :
    ∃ slots, Rep t slots (lowPages ∪ mapPages s.mem mmapAddr n) := by
  obtain ⟨w, hw, rfl⟩ := pagingInitFull_walk hn h
  obtain ⟨w', hw', hwalked⟩ := walk_result hn hfit hsep
  rw [whileLoop_det hw hw']
  obtain ⟨slots, _, hrep, _⟩ := hwalked.maps [0] lowPages (lowTables_rep hn).1
  exact ⟨slots, hrep⟩

/-- The IDT lies below the last page of the address space. -/
def IdtFits (idtEntries : Nat) : Prop := idtEntries + 2048 ≤ 0xFFFFF000

instance (idtEntries : Nat) : Decidable (IdtFits idtEntries) := inferInstanceAs (Decidable (_ ≤ _))

theorem idtLoop_terminates {idtEntries : Nat} (h : IdtFits idtEntries) (w : Walk) :
    ∃ fuel w', whileLoop (idtCond idtEntries) idtBody fuel w = some w' := by
  simp only [IdtFits] at h
  have hlt : ∀ w : Walk, idtCond idtEntries w = true → w.entry < idtEntries + 2048 := by
    intro w hc
    have hw : w.entry < (idtEntries + 8 * 256) % 4294967296 := of_decide_eq_true hc
    omega
  refine whileLoop_terminates Walk.entry (idtEntries + 2048) (fun _ => True) ?_ ?_ w trivial
  · intro w hc _
    have := hlt w hc
    refine ⟨trivial, ?_⟩
    simp only [idtBody]
    omega
  · intro w hc _
    exact hlt w hc

/-- The pointer of the walk goes from entry to entry whatever is written meanwhile. -/
theorem mapWalk_counted {i : Nat} {w : Walk} (hfit : mmapAddr + entrySize * n < 4294967296)
    (hw : w.entry = mmapAddr + entrySize * i) :
    (walkCond mmapAddr (entrySize * n) w = decide (i < n)) ∧
      (i < n → (walkBody w).entry = mmapAddr + entrySize * (i + 1)) := by
  simp only [entrySize] at hfit hw ⊢
  constructor
  · simp only [walkCond, hw, decide_eq_decide]
    omega
  · intro hi
    simp only [walkBody, hw, entrySize]
    omega

theorem mapWalk_returns (hfit : mmapAddr + entrySize * n < 4294967296) (s : State) :
    ∃ w, whileLoop (walkCond mmapAddr (entrySize * n)) walkBody n ⟨mmapAddr, lowTables s⟩ = some w ∧
      w.entry = mmapAddr + entrySize * n := by
  refine whileLoop_counted (fun i (w : Walk) => w.entry = mmapAddr + entrySize * i) n rfl ?_ ?_
  · intro i w hi hw
    obtain ⟨hc, hnext⟩ := mapWalk_counted hfit hw
    exact ⟨hc.trans (decide_eq_true hi), hnext hi⟩
  · intro w hw
    exact (mapWalk_counted hfit hw).1.trans (decide_eq_false (Nat.lt_irrefl n))

/-- On a map whose end does not wrap around, `paging_init_full` returns. -/
theorem pagingInitFull_returns {idtEntries : Nat} (hidt : IdtFits idtEntries)
    (hfit : mmapAddr + entrySize * n < 4294967296) (s : State) :
    ∃ fuel t, pagingInitFull fuel idtEntries mmapAddr (entrySize * n) s = some t := by
  obtain ⟨w₁, h₁, _⟩ := mapWalk_returns hfit s
  obtain ⟨f₂, w₂, h₂⟩ := idtLoop_terminates hidt ⟨idtEntries / 0x1000 * 0x1000,
    forUp (fun k => addUser (0x100000 + 0x1000 * k)) 0 0x300 w₁.paging⟩
  refine ⟨max n f₂, w₂.paging, ?_⟩
  simp only [pagingInitFull, whileLoop_mono h₁ (Nat.le_max_left n f₂), Option.bind_some,
    whileLoop_mono h₂ (Nat.le_max_right n f₂), Option.map_some]

end Walk

theorem pagingInitFull_mono {fuel fuel' idtEntries mmapAddr mmapLength : Nat} {s t : State}
    (h : pagingInitFull fuel idtEntries mmapAddr mmapLength s = some t) (hle : fuel ≤ fuel') :
    pagingInitFull fuel' idtEntries mmapAddr mmapLength s = some t := by
  simp only [pagingInitFull, Option.bind_eq_some_iff, Option.map_eq_some_iff] at h ⊢
  obtain ⟨w, hw, w', hw', ht⟩ := h
  exact ⟨w, whileLoop_mono hw hle, w', whileLoop_mono hw' hle, ht⟩

end Paging
