import Nyrix.HeapNull

/-!
# The heap is a partition of its pages

In every run each block of every page is free or live, once; blocks and pages handed out
whole do not overlap; and no call touches the payload of a live block.
-/

namespace Kmalloc

open ByteMemory FreeList BlockPool Pmm

/-- The free blocks of all caches. -/
def freeBlocks (free : Class → List Nat) : List (Nat × Class) :=
  (List.finRange 8).flatMap fun i => (free (some i)).map fun b => (b, some i)

theorem mem_freeBlocks {free : Class → List Nat} {u : Nat × Class} :
    u ∈ freeBlocks free ↔ ∃ i, u.2 = some i ∧ u.1 ∈ free (some i) := by
  simp only [freeBlocks, List.mem_flatMap, List.mem_map]
  constructor
  · rintro ⟨i, _, b, hb, rfl⟩
    exact ⟨i, rfl, hb⟩
  · rintro ⟨i, hi, hb⟩
    exact ⟨i, List.mem_finRange i, u.1, hb, Prod.ext rfl hi.symm⟩

/-- The free lists `free`, the live blocks and the pages handed out whole share out the pages
of a world. -/
structure Partitioned (w : World) (free : Class → List Nat) : Prop where
  linked : ∀ i, Linked w.heap.pmm.mem (w.heap.caches i).freeList (free (some i))
  acyclic : ∀ i, (free (some i)).Nodup
  once : ∀ i page, (page, some i) ∈ w.pages →
    ∀ b ∈ cut 4096 (w.heap.caches i).realBlockSize page, Once free w.live b (some i)
  whole : ∀ page, (page, none) ∈ w.pages ↔ (page, none) ∈ w.live
  inPage : ∀ u ∈ freeBlocks free ++ w.live, ∃ page, (page, u.2) ∈ w.pages ∧
    page % 4096 = 0 ∧ page ≤ u.1 ∧ u.1 + stride u.2 ≤ page + 4096
  apart : (freeBlocks free ++ w.live).Pairwise fun u v =>
    Sep u.1 (stride u.2) v.1 (stride v.2)

/-- The bytes a client may write to. -/
def PayloadKept (u : Nat × Class) (w w' : World) : Prop :=
  ∀ j < capacity u.2, load8 w'.heap.pmm.mem (u.1 + headerSize + j) =
    load8 w.heap.pmm.mem (u.1 + headerSize + j)

theorem payload_kept {u : Nat × Class} {w w' : World}
    (h : Kept u w.heap.pmm.mem w'.heap.pmm.mem) : PayloadKept u w w' := by
  intro j hj
  rw [Nat.add_assoc]
  exact h (headerSize + j) (by simp only [stride]; omega)

section

variable {base : Pmm.State} {s : State} {pages : List (Nat × Class)} {free : Class → List Nat}
  {out : List (Nat × Class)}

theorem freeBlocks_nodup (h : Blocks base s pages free out) : (freeBlocks free).Nodup := by
  refine List.nodup_flatMap.mpr ⟨?_, ?_⟩
  · intro i _
    exact (linked_nodup (h.links i)).map fun b c he => congrArg Prod.fst he
  · refine (List.nodup_finRange 8).imp ?_
    intro i j hij u hu hv
    obtain ⟨b, _, rfl⟩ := List.mem_map.mp hu
    obtain ⟨c, _, he⟩ := List.mem_map.mp hv
    exact hij (Option.some.inj (congrArg Prod.snd he)).symm

theorem units_nodup (h : Blocks base s pages free out) : (freeBlocks free ++ out).Nodup := by
  refine List.nodup_append'.mpr ⟨freeBlocks_nodup h,
    out_nodup (blocks_pages h) stride_pos h.accounted, ?_⟩
  rintro ⟨b, c⟩ hfree hout
  obtain ⟨i, rfl, hb⟩ := mem_freeBlocks.mp hfree
  exact free_ne_out (blocks_pages h) stride_pos h.accounted hb hout rfl

theorem units_block (h : Blocks base s pages free out) {u : Nat × Class}
    (hu : u ∈ freeBlocks free ++ out) : u.1 ∈ blocksOf 4096 stride pages u.2 := by
  cases List.mem_append.mp hu with
  | inl hfree =>
    obtain ⟨i, hi, hb⟩ := mem_freeBlocks.mp hfree
    rw [hi]
    exact mem_of_free h.accounted hb
  | inr hout => exact mem_of_out h.accounted hout

theorem units_apart (h : Blocks base s pages free out) :
    (freeBlocks free ++ out).Pairwise fun u v => Sep u.1 (stride u.2) v.1 (stride v.2) :=
  (units_nodup h).pairwise_of_forall_ne fun _ hu _ hv hne =>
    block_sep h (units_block h hu) (units_block h hv) hne

end

theorem inv_partitioned {cachesAddr : Nat} {base : Pmm.State} {w : World}
    (h : Inv cachesAddr base w) : ∃ free, Partitioned w free := by
  obtain ⟨free, hpool⟩ := h.pool
  have hblocks := hpool.toBlocks
  have honce : ∀ page c, (page, c) ∈ w.pages → ∀ b ∈ cut 4096 (stride c) page,
      Once free w.live b c := fun page c hp b hb =>
    once_of_block (blocks_pages hblocks) stride_pos hblocks.accounted
      (mem_blocksOf.mpr ⟨page, hp, hb⟩)
  refine ⟨free, hblocks.links, fun i => linked_nodup (hblocks.links i), ?_, ?_, ?_,
    units_apart hblocks⟩
  · intro i page hp b hb
    rw [(h.configured i).2] at hb
    exact honce page (some i) hp b hb
  · intro page
    constructor
    · intro hp
      refine out_of_once (honce page none hp page ?_) (by simp [hblocks.direct])
      rw [cut_direct, List.mem_singleton]
    · intro hlive
      obtain ⟨p, hp, hcut⟩ := mem_blocksOf.mp (mem_of_out hblocks.accounted hlive)
      rw [cut_direct, List.mem_singleton] at hcut
      rwa [hcut]
  · intro u hu
    obtain ⟨page, hp, hcut⟩ := mem_blocksOf.mp (units_block hblocks hu)
    have hin := cut_inside hcut
    exact ⟨page, hp, (hblocks.obtainable _ hp).aligned, hin.1, hin.2⟩

/-- When the page allocator has no page of its bitmap to give, all new pages lie off it. -/
theorem reach_offBitmap {cachesAddr : Nat} {pmm : Pmm.State} {w : World}
    (hfit : CachesFit cachesAddr) (hg : Guarded pmm)
    (h : Reach cachesAddr (fun _ => True) pmm w) : OffBitmap pmm.bitmap w.pages := by
  have hinv := inv_reach hfit hg.totalPages (fun _ _ => .inl hg) h
  obtain ⟨free, hpool⟩ := hinv.pool
  exact fun p hp => (hpool.obtainable p hp).apart

/-- The partition of the heap in every run whose new pages lie off the bitmap of the page
allocator, and what a call leaves alone. -/
theorem heap_partition {cachesAddr : Nat} {pmm : Pmm.State} {w : World}
    (hfit : CachesFit cachesAddr) (htotal : pmm.totalPages ≤ 1048575)
    (h : Reach cachesAddr (OffBitmap pmm.bitmap) pmm w) :
    (∃ free, Partitioned w free) ∧
    (∀ size, OffBitmap pmm.bitmap (obtained size w.heap) →
      ∀ u ∈ w.live, PayloadKept u w (w.kmalloc cachesAddr size)) ∧
    ∀ u ∈ w.live, ∃ w', w.kfree cachesAddr u = some w' ∧
      ∀ v ∈ w.live, v ≠ u → PayloadKept v w w' := by
  have hinv := inv_reach hfit htotal (fun _ hoff => .inr hoff) h
  refine ⟨inv_partitioned hinv, ?_, ?_⟩
  · intro size hoff u hu
    exact payload_kept ((inv_kmalloc hinv size (.inr hoff)).2 u hu)
  · intro u hu
    obtain ⟨w', hcall, _, hkept⟩ := inv_kfree hfit hinv hu
    exact ⟨w', hcall, fun v hv hne => payload_kept (hkept v ((List.mem_erase_of_ne hne).mpr hv))⟩

theorem reach_offBitmaps {cachesAddr : Nat} {pmm : Pmm.State} {w : World}
    (hfit : CachesFit cachesAddr) (hg : Guarded pmm)
    (h : Reach cachesAddr (fun _ => True) pmm w) : Reach cachesAddr (OffBitmap pmm.bitmap) pmm w := by
  induction h with
  | start => exact .start (reach_offBitmap hfit hg (.start trivial))
  | @kmalloc w size hrun _ ih =>
    have hoff := reach_offBitmap hfit hg (.kmalloc size hrun trivial)
    exact .kmalloc size ih fun p hp => hoff p (List.mem_append_left _ hp)
  | kfree _ hu hfree ih => exact .kfree ih hu hfree
  | write j v _ hu hj ih => exact .write j v ih hu hj

/-- A block of 128 bytes and a whole page on the machine of 128 MiB. The block is written to and
the page is freed. -/
theorem heap_partition_ramMap :
    ∃ fuel t b page w w', pmmInit fuel 0x110000 0x9000 24 ramMap = some t ∧
      w = (((World.start t).kmalloc 0x104000 100).kmalloc 0x104000 3000).write
        (b + headerSize) 0x55 ∧
      w.live = [(page, none), (b, some 3)] ∧
      w.kfree 0x104000 (page, none) = some w' ∧ w'.live = [(b, some 3)] ∧
      load8 w'.heap.pmm.mem (b + headerSize) = 0x55 ∧
      (∃ free, Partitioned w' free) ∧
      (∀ size, OffBitmap t.bitmap (obtained size w'.heap) →
        ∀ u ∈ w'.live, PayloadKept u w' (w'.kmalloc 0x104000 size)) ∧
      ∀ u ∈ w'.live, ∃ w'', w'.kfree 0x104000 u = some w'' ∧
        ∀ v ∈ w'.live, v ≠ u → PayloadKept v w' w'' := by
  obtain ⟨fuel, t, h⟩ := pmmInit_terminates (show MapFits 0x9000 24 by decide) 0x110000 ramMap
  have hg := pmmInit_guarded h (by decide)
  have hfit : CachesFit 0x104000 := ⟨by decide, by decide⟩
  have hstart : Reach 0x104000 (fun _ => True) t (World.start t) := .start trivial
  have hone : Reach 0x104000 (fun _ => True) t _ := .kmalloc 100 hstart trivial
  have htwo : Reach 0x104000 (fun _ => True) t _ := .kmalloc 3000 hone trivial
  have hpages := pages_kmalloc 0x104000 100 (World.start t)
  have height := pages_start t
  obtain ⟨-, b, hb⟩ := ramMap_serves h hstart (by omega) 100 (by decide)
  obtain ⟨-, page, hpage⟩ := ramMap_serves h hone (by omega) 3000 (by decide)
  have hsmall : classFor 100 = some 3 := by decide
  have hlarge : classFor 3000 = none := by decide
  rw [hsmall, World.start_live] at hb
  rw [hlarge, hb] at hpage
  have hwritten := Reach.write (u := (b, some 3)) 0 0x55 htwo (by simp [hpage])
    (show 0 < capacity (some 3) by decide)
  rw [Nat.add_zero] at hwritten
  obtain ⟨w, hw⟩ : ∃ w, (((World.start t).kmalloc 0x104000 100).kmalloc 0x104000 3000).write
    (b + headerSize) 0x55 = w := ⟨_, rfl⟩
  have hlive : w.live = [(page, none), (b, some 3)] := hw ▸ hpage
  have hbyte : load8 w.heap.pmm.mem (b + headerSize) = 0x55 := by
    rw [← hw]
    exact load8_store8_same _ _ _
  rw [hw] at hwritten
  have hmem : ((page, none) : Nat × Class) ∈ w.live := by simp [hlive]
  obtain ⟨-, -, hfrees⟩ := heap_partition hfit hg.totalPages (reach_offBitmaps hfit hg hwritten)
  obtain ⟨w', hfree, hkept⟩ := hfrees _ hmem
  have hlive' : w'.live = [(b, some 3)] := by
    rw [World.live_kfree hfree, hlive]
    exact List.erase_cons_head _ _
  have hsame := hkept (b, some 3) (by simp [hlive]) (by simp) 0
    (show 0 < capacity (some 3) by decide)
  exact ⟨fuel, t, b, page, w, w', h, hw.symm, hlive, hfree, hlive', hsame.trans hbyte,
    heap_partition hfit hg.totalPages (reach_offBitmaps hfit hg (.kfree hwritten hmem hfree))⟩

end Kmalloc
