import Nyrix.Boot
import Nyrix.HeapFootprint
import Nyrix.PagingIdentity

/-!
# The heap under the page tables

The page allocator knows nothing of the page tables at 2 MiB, but it hands out the lowest page
first. A heap that never holds more pages than there are between its bitmap and the tables stays
below them: it never writes to a table, and every address it hands out goes on being translated
to itself.
-/

namespace Kmalloc

open ByteMemory BoundedLoop FreeList BlockPool Pmm

/-! ## The lowest page first -/

section FirstFit

variable {first : Nat} {base s : Pmm.State} {pages : List Nat}

/-- Where the pages held fill the space up to a free page, that page is next. -/
theorem FreeFrom.next_page (h : FreeFrom first base) (howns : Owns base s pages) {page : Nat}
    (hnodup : (pages.map (· / 4096)).Nodup)
    (hin : ∀ p ∈ pages, first ≤ p / 4096 ∧ p / 4096 < page) (hfull : first + pages.length = page)
    (hpage : page < zeroedPages) (hsearch : page < searchEnd s) :
    (pmmAllocPage s).1 = page * 4096 := by
  have hlt : zeroedPages = 1048544 := rfl
  have hsub : pages.map (· / 4096) ⊆ List.range' first pages.length := by
    intro q hq
    obtain ⟨p, hp, rfl⟩ := List.mem_map.mp hq
    have hbounds := hin p hp
    exact List.mem_range'_1.mpr ⟨hbounds.1, by omega⟩
  have hperm := (List.subperm_of_subset hnodup hsub).perm_of_length_le (by simp)
  have hset : ∀ q < page, bitmapTest s q = true := by
    intro q hq
    by_cases hfirst : q < first
    · exact howns.reserved q (by omega) (h.taken q hfirst)
    · have hmem := hperm.mem_iff.mpr (List.mem_range'_1.mpr ⟨Nat.le_of_not_lt hfirst, by omega⟩)
      obtain ⟨p, hp, rfl⟩ := List.mem_map.mp hmem
      exact howns.taken p hp
  have hclear : bitmapTest s page = false := by
    by_contra hnot
    have hmem := h.held howns (by omega) hpage (by simpa using hnot)
    obtain ⟨p, hp, hpq⟩ := List.mem_map.mp hmem
    exact absurd (hin p hp).2 (by omega)
  obtain ⟨q, -, hq, hbelow, hcall⟩ | ⟨hall, -⟩ := pmmAllocPage_cases s
  · have hqp : q = page := by
      rcases Nat.lt_trichotomy q page with hless | rfl | hmore
      · rw [hset q hless] at hq
        exact absurd hq.symm Bool.false_ne_true
      · rfl
      · rw [hbelow page hmore] at hclear
        exact absurd hclear.symm Bool.false_ne_true
    rw [hcall, hqp]
    rfl
  · rw [hall page hsearch] at hclear
    exact absurd hclear.symm Bool.false_ne_true

end FirstFit

/-! ## What a call writes to -/

/-- Only memory below the page tables has changed. -/
def Below (m m' : Mem) : Prop := Frame 0 0x200000 m m'

theorem below_of_frame {a n : Nat} {m m' : Mem} (h : Frame a n m m') (ha : a + n ≤ 0x200000) :
    Below m m' := frame_mono h (Nat.zero_le a) (by omega)

theorem below_trans {m m' m'' : Mem} (h : Below m m') (h' : Below m' m'') : Below m m'' :=
  frame_trans h h'

/-- The pages lie below the page tables. -/
def LowPages (pages : List (Nat × Class)) : Prop := ∀ p ∈ pages, p.1 + 4096 ≤ 0x200000

section Writes

variable {base : Pmm.State} {s : State} {pages out : List (Nat × Class)}
  {free : Class → List Nat} {i : Fin 8}

theorem block_low (hlow : LowPages pages) {b : Nat} {c : Class}
    (hb : b ∈ blocksOf 4096 stride pages c) : b + stride c ≤ 0x200000 := by
  obtain ⟨p, hp, hcut⟩ := mem_blocksOf.mp hb
  have hin := cut_inside hcut
  have hpage := hlow _ hp
  omega

theorem pushBlock_below {b : Nat} (hb : b + 4 ≤ 0x200000) (s : State) :
    Below s.pmm.mem (pushBlock i b s).pmm.mem :=
  below_of_frame (store32_frame s.pmm.mem b _) hb

variable (hbitmap : s.pmm.bitmap + bitmapBytes ≤ 0x200000) (htotal : s.pmm.totalPages ≤ 1048575)

include hbitmap htotal

theorem alloc_below : Below s.pmm.mem (pmmAllocPage s.pmm).2.mem :=
  below_of_frame (pmmAllocPage_frame htotal) hbitmap

theorem cacheGrow_below (hsize : (s.caches i).realBlockSize = stride (some i))
    (hlow : LowPages (obtainedPage (some i) s)) : Below s.pmm.mem (cacheGrow i s).pmm.mem := by
  by_cases hpage : (pmmAllocPage s.pmm).1 = 0
  · have hcall : cacheGrow i s = setPmm (pmmAllocPage s.pmm).2 s := if_pos hpage
    rw [hcall]
    exact alloc_below hbitmap htotal
  · rw [obtainedPage, if_neg hpage] at hlow
    have hin := hlow _ List.mem_cons_self
    have hhead := headerSize_le_stride (some i)
    rw [cacheGrow_eq hsize hpage]
    refine forUp_induct (fun k t => pushBlock i ((pmmAllocPage s.pmm).1 + stride (some i) * k) t)
      (fun _ t => Below s.pmm.mem t.pmm.mem) 0 (4096 / stride (some i)) (countPage i s)
      (alloc_below hbitmap htotal) fun k t _ hk ht => below_trans ht (pushBlock_below ?_ t)
    have hcut : stride (some i) * (k + 1) ≤ 4096 :=
      Nat.le_trans (Nat.mul_le_mul_left _ (by omega)) (Nat.mul_div_le 4096 _)
    rw [Nat.mul_succ] at hcut
    simp only [headerSize] at hhead
    omega

theorem refill_below (hsize : (s.caches i).realBlockSize = stride (some i))
    (hlow : LowPages (refillPage i s)) : Below s.pmm.mem (refill i s).pmm.mem := by
  rw [refillPage] at hlow
  rw [refill]
  split_ifs at hlow ⊢
  · exact cacheGrow_below hbitmap htotal hsize hlow
  · exact frame_refl _ _ _

theorem kmallocPage_below (hlow : LowPages (obtainedPage none s)) :
    Below s.pmm.mem (kmallocPage s).2.pmm.mem := by
  have halloc := alloc_below hbitmap htotal
  rw [obtainedPage] at hlow
  rw [kmallocPage]
  split_ifs at hlow ⊢
  · exact halloc
  · have hin := hlow _ List.mem_cons_self
    exact below_trans halloc (below_of_frame (store32_frame _ _ _) (by omega))

omit hbitmap htotal in
theorem takeBlock_below {cachesAddr : Nat} (h : Pool base s pages free out)
    (hlow : LowPages pages) : Below s.pmm.mem (takeBlock cachesAddr i s).2.pmm.mem := by
  rw [takeBlock]
  dsimp only
  split_ifs with hempty
  · exact frame_refl _ _ _
  · obtain ⟨rest, hfree, -⟩ := linked_cons (h.links i) hempty
    have hblock : (s.caches i).freeList ∈ free (some i) := hfree ▸ List.mem_cons_self
    have hin := block_low hlow (mem_of_free h.accounted hblock)
    have hhead := headerSize_le_stride (some i)
    refine below_of_frame (store32_frame _ _ _) ?_
    simp only [headerSize] at hhead
    omega

theorem kmalloc_below (cachesAddr size : Nat) (hg : Guarded base) (h : Pool base s pages free out)
    (hconf : Configured s) (hlow : LowPages (obtained size s ++ pages)) :
    Below s.pmm.mem (kmalloc cachesAddr size s).2.pmm.mem := by
  have hnew : LowPages (obtained size s) := fun p hp => hlow p (List.mem_append_left _ hp)
  rw [obtained] at hnew hlow
  rw [kmalloc]
  by_cases hsize : size = 0
  · rw [if_pos hsize]
    exact frame_refl _ _ _
  by_cases hlarge : largestBlock < size
  · rw [if_neg hsize, if_pos hlarge] at hnew ⊢
    exact kmallocPage_below hbitmap htotal hnew
  rw [if_neg hsize, if_neg hlarge] at hnew hlow ⊢
  cases hcache : cacheFor size s with
  | none => exact frame_refl _ _ _
  | some i =>
    rw [hcache] at hnew hlow
    obtain ⟨free', hpool⟩ := (refill_grown h (hconf i).2 (.inl hg)).pool
    exact below_trans (refill_below hbitmap htotal (hconf i).2 hnew) (takeBlock_below hpool hlow)

end Writes

/-! ## Runs -/

/-- A run with the greatest number of pages it has held at a time. -/
inductive Held (cachesAddr : Nat) (pmm : Pmm.State) : World → Nat → Prop
  | start : Held cachesAddr pmm (World.start pmm) (World.start pmm).pages.length
  | kmalloc {w : World} {n : Nat} (size : Nat) (h : Held cachesAddr pmm w n) :
      Held cachesAddr pmm (w.kmalloc cachesAddr size)
        (max n (w.kmalloc cachesAddr size).pages.length)
  | kfree {w w' : World} {n : Nat} {u : Nat × Class} (h : Held cachesAddr pmm w n)
      (hu : u ∈ w.live) (hfree : w.kfree cachesAddr u = some w') : Held cachesAddr pmm w' n
  | write {w : World} {n : Nat} {u : Nat × Class} (j : Nat) (v : BitVec 8)
      (h : Held cachesAddr pmm w n) (hu : u ∈ w.live) (hj : j < capacity u.2) :
      Held cachesAddr pmm (w.write (u.1 + headerSize + j) v) n

theorem Held.reach {cachesAddr : Nat} {pmm : Pmm.State} {w : World} {n : Nat}
    (h : Held cachesAddr pmm w n) : Reach cachesAddr (fun _ => True) pmm w := by
  induction h with
  | start => exact .start trivial
  | kmalloc size _ ih => exact .kmalloc size ih trivial
  | kfree _ hu hfree ih => exact .kfree ih hu hfree
  | write j v _ hu hj ih => exact .write j v ih hu hj

/-- The pages held lie among the first `n` behind the reserved ones, and nothing at or above the
page tables has changed. -/
structure UnderTables (first n : Nat) (base : Pmm.State) (w : World) : Prop where
  above : ∀ p ∈ w.pages, first * 4096 ≤ p.1
  below : ∀ p ∈ w.pages, p.1 + 4096 ≤ (first + n) * 4096
  mem : Below base.mem w.heap.pmm.mem

section Runs

variable {first n : Nat} {base : Pmm.State} {w w' : World} {cachesAddr : Nat}

theorem UnderTables.low (h : UnderTables first n base w) (hroom : first + n ≤ 512) :
    LowPages w.pages := by
  intro p hp
  have hin := h.below p hp
  omega

theorem UnderTables.mono {n' : Nat} (h : UnderTables first n base w) (hn : n ≤ n') :
    UnderTables first n' base w := by
  have hle : (first + n) * 4096 ≤ (first + n') * 4096 :=
    Nat.mul_le_mul_right 4096 (Nat.add_le_add_left hn first)
  exact ⟨h.above, fun p hp => Nat.le_trans (h.below p hp) hle, h.mem⟩

/-- The page a call obtains is one of the first behind the reserved ones. -/
theorem obtainedPage_bounds (hfresh : FreeFrom first base) {s : State} {free : Class → List Nat}
    {pages out : List (Nat × Class)} (hpool : Pool base s pages free out) (c : Class)
    (hroom : first + (obtainedPage c s ++ pages).length ≤ 512) :
    ∀ p ∈ obtainedPage c s, first * 4096 ≤ p.1 ∧
      p.1 + 4096 ≤ (first + (obtainedPage c s ++ pages).length) * 4096 := by
  intro p hp
  rw [obtainedPage] at hp hroom ⊢
  split_ifs at hp hroom ⊢ with hnull
  · exact absurd hp List.not_mem_nil
  obtain rfl := List.mem_singleton.mp hp
  simp only [List.singleton_append, List.length_cons] at hroom ⊢
  have hlt : zeroedPages = 1048544 := rfl
  obtain ⟨page, hend, hclear, hbelow, hcall⟩ | ⟨-, hcall⟩ := pmmAllocPage_cases s.pmm
  · have hend' := searchEnd_le hpool.totalPages
    have haddr : (pmmAllocPage s.pmm).1 = page * 4096 := by rw [hcall]; rfl
    have hfit := hfresh.first_fit hpool.owns hbelow (by
      rw [List.length_map]
      omega)
    have hfirst : first ≤ page := by
      by_contra hless
      have hset := hpool.owns.reserved page (by omega) (hfresh.taken page (Nat.lt_of_not_le hless))
      rw [hset] at hclear
      exact Bool.false_ne_true hclear.symm
    rw [List.length_map] at hfit
    rw [haddr]
    omega
  · exact absurd (congrArg Prod.fst hcall) hnull

theorem obtained_bounds (hfresh : FreeFrom first base) {s : State} {free : Class → List Nat}
    {pages out : List (Nat × Class)} (hpool : Pool base s pages free out) (size : Nat)
    (hroom : first + (obtained size s ++ pages).length ≤ 512) :
    ∀ p ∈ obtained size s, first * 4096 ≤ p.1 ∧
      p.1 + 4096 ≤ (first + (obtained size s ++ pages).length) * 4096 := by
  intro p hp
  rw [obtained] at hp hroom ⊢
  by_cases hsize : size = 0
  · rw [if_pos hsize] at hp
    exact absurd hp List.not_mem_nil
  by_cases hlarge : largestBlock < size
  · rw [if_neg hsize, if_pos hlarge] at hp hroom ⊢
    exact obtainedPage_bounds hfresh hpool none hroom p hp
  rw [if_neg hsize, if_neg hlarge] at hp hroom ⊢
  cases hcache : cacheFor size s with
  | none =>
    rw [hcache] at hp
    exact absurd hp List.not_mem_nil
  | some i =>
    rw [hcache] at hp hroom
    dsimp only at hp hroom ⊢
    rw [refillPage] at hp hroom ⊢
    split_ifs at hp hroom ⊢
    · exact obtainedPage_bounds hfresh hpool (some i) hroom p hp
    · exact absurd hp List.not_mem_nil

/-- A call that obtains pages within the bounds and writes below the tables. -/
theorem UnderTables.grow (h : UnderTables first n base w) {s : State} {new : List (Nat × Class)}
    {n' : Nat} (hnew : ∀ p ∈ new, first * 4096 ≤ p.1 ∧ p.1 + 4096 ≤ (first + n') * 4096)
    (hn : n ≤ n') (hmem : Below w.heap.pmm.mem s.pmm.mem) (live : List (Nat × Class)) :
    UnderTables first n' base ⟨s, new ++ w.pages, live⟩ := by
  refine ⟨fun p hp => ?_, fun p hp => ?_, below_trans h.mem hmem⟩
  · rcases List.mem_append.mp hp with hp | hp
    · exact (hnew p hp).1
    · exact h.above p hp
  · rcases List.mem_append.mp hp with hp | hp
    · exact (hnew p hp).2
    · exact (h.mono hn).below p hp

variable (hg : Guarded base) (hbitmap : base.bitmap + bitmapBytes ≤ 0x200000)
  (hfresh : FreeFrom first base)

include hg hbitmap hfresh

omit hg in
theorem underTables_init {done : List (Fin 8)} {i : Fin 8} (hstart : Starting base done w)
    (h : UnderTables first w.pages.length base w) (hi : i ∉ done)
    (hroom : first + (w.init i).pages.length ≤ 512) :
    UnderTables first (w.init i).pages.length base (w.init i) := by
  obtain ⟨free, hpool⟩ := hstart.pool
  have hpool' : Pool base (initCache i w.heap) w.pages free [] :=
    pool_setCache hpool (hstart.untouched i hi).symm
  have hbounds := obtainedPage_bounds hfresh hpool' (some i) hroom
  have hsize : ((initCache i w.heap).caches i).realBlockSize = stride (some i) := by
    rw [initCache, setCache_same]
    rfl
  have hmem := cacheGrow_below (s := initCache i w.heap) (hpool'.bitmap ▸ hbitmap)
    hpool'.totalPages hsize fun p hp => by
      have hin := (hbounds p hp).2
      have hroom' : first + (obtainedPage (some i) (initCache i w.heap) ++ w.pages).length ≤ 512 :=
        hroom
      omega
  refine h.grow hbounds ?_ hmem w.live
  rw [List.length_append]
  omega

omit hg hbitmap hfresh in
theorem init_pages_le (is : List (Fin 8)) (w : World) :
    w.pages.length ≤ (is.foldl (fun w i => w.init i) w).pages.length := by
  induction is generalizing w with
  | nil => exact Nat.le_refl _
  | cons i is ih =>
    refine Nat.le_trans ?_ (ih (w.init i))
    rw [World.init, List.length_append]
    exact Nat.le_add_left _ _

theorem underTables_fold (is done : List (Fin 8)) (w : World) (hstart : Starting base done w)
    (h : UnderTables first w.pages.length base w) (hnodup : (is ++ done).Nodup)
    (hroom : first + (is.foldl (fun w i => w.init i) w).pages.length ≤ 512) :
    UnderTables first (is.foldl (fun w i => w.init i) w).pages.length base
      (is.foldl (fun w i => w.init i) w) := by
  induction is generalizing done w with
  | nil => exact h
  | cons i is ih =>
    have hi : i ∉ is ++ done := (List.nodup_cons.mp hnodup).1
    have hdone : i ∉ done := fun hm => hi (List.mem_append_right is hm)
    have hgrows : (w.init i).pages.length ≤
        (is.foldl (fun w i => w.init i) (w.init i)).pages.length := init_pages_le is (w.init i)
    rw [List.foldl_cons] at hroom ⊢
    exact ih (i :: done) (w.init i) (starting_init hstart (.inl hg) hdone)
      (underTables_init hbitmap hfresh hstart h hdone (by omega))
      ((List.perm_middle.nodup_iff).mpr hnodup) hroom

theorem held_underTables (hfit : CachesFit cachesAddr) (h : Held cachesAddr base w n)
    (hroom : first + n ≤ 512) : UnderTables first n base w := by
  induction h with
  | start =>
    refine underTables_fold hg hbitmap hfresh (List.finRange 8) [] _ (starting_boot hg.totalPages)
      ?_ ?_ hroom
    · exact ⟨fun p hp => absurd hp List.not_mem_nil, fun p hp => absurd hp List.not_mem_nil,
        frame_refl _ _ _⟩
    · rw [List.append_nil]
      exact List.nodup_finRange 8
  | @kmalloc w n size hrun ih =>
    have hinv := inv_reach hfit hg.totalPages (fun _ _ => .inl hg) hrun.reach
    obtain ⟨free, hpool⟩ := hinv.pool
    have hbefore := ih (by omega)
    have hpages : (w.kmalloc cachesAddr size).pages.length =
        (obtained size w.heap ++ w.pages).length := rfl
    have hmax := Nat.le_max_right n (w.kmalloc cachesAddr size).pages.length
    have hbounds := obtained_bounds hfresh hpool size (by omega)
    have hle : (first + (obtained size w.heap ++ w.pages).length) * 4096 ≤
        (first + max n (w.kmalloc cachesAddr size).pages.length) * 4096 :=
      Nat.mul_le_mul_right 4096 (Nat.add_le_add_left (hpages ▸ hmax) first)
    have hnew : ∀ p ∈ obtained size w.heap, first * 4096 ≤ p.1 ∧ p.1 + 4096 ≤
        (first + max n (w.kmalloc cachesAddr size).pages.length) * 4096 :=
      fun p hp => ⟨(hbounds p hp).1, Nat.le_trans (hbounds p hp).2 hle⟩
    refine hbefore.grow hnew (Nat.le_max_left _ _) ?_ _
    refine kmalloc_below (hpool.bitmap ▸ hbitmap) hpool.totalPages cachesAddr size hg hpool
      hinv.configured fun p hp => ?_
    rcases List.mem_append.mp hp with hp | hp
    · have hin := (hnew p hp).2
      omega
    · exact hbefore.low (by omega) p hp
  | @kfree w w' n u hrun hu hfree ih =>
    have hinv := inv_reach hfit hg.totalPages (fun _ _ => .inl hg) hrun.reach
    obtain ⟨free, hpool⟩ := hinv.pool
    have hbefore := ih hroom
    have hblock := block_low (hbefore.low hroom) (mem_of_out hpool.accounted hu)
    have hhead := headerSize_le_stride u.2
    simp only [headerSize] at hhead
    obtain ⟨-, -, -, rfl⟩ | ⟨i, -, rfl⟩ := kfree_cases hfit hinv hu hfree
    · refine ⟨fun p hp => hbefore.above p (List.mem_of_mem_erase hp),
        fun p hp => hbefore.below p (List.mem_of_mem_erase hp), below_trans hbefore.mem ?_⟩
      exact below_of_frame (pmmFreePage_frame (by omega) _) (hpool.bitmap ▸ hbitmap)
    · exact ⟨hbefore.above, hbefore.below, below_trans hbefore.mem
        (pushBlock_below (by omega) w.heap)⟩
  | @write w n u j v hrun hu hj ih =>
    have hinv := inv_reach hfit hg.totalPages (fun _ _ => .inl hg) hrun.reach
    obtain ⟨free, hpool⟩ := hinv.pool
    have hbefore := ih hroom
    have hblock := block_low (hbefore.low hroom) (mem_of_out hpool.accounted hu)
    refine ⟨hbefore.above, hbefore.below, below_trans hbefore.mem ?_⟩
    refine below_of_frame (store8_frame w.heap.pmm.mem _ v) ?_
    simp only [stride] at hblock
    omega

end Runs

end Kmalloc

namespace Boot

open ByteMemory PackedBits PageTable Multiboot Pmm Paging BlockPool Kmalloc

section Tables

variable {s : Paging.State} {slots : List Nat} {mapped : Set Nat} {m : Mem}

/-- What lies below the tables does not matter for the translation. -/
theorem translate_below (h : Rep s slots mapped) (hm : Below s.mem m) {v : Nat}
    (hv : v < 4294967296) :
    translate m s.pageDirectory v = translate s.mem s.pageDirectory v := by
  have hload : ∀ a, 0x200000 ≤ a → a + 4 ≤ 4294967296 → load32 m a = load32 s.mem a :=
    fun a ha hfit => load32_frame hm (sep_of_le (by omega) hfit)
  have hdir : s.pageDirectory = 0x200000 := h.directory
  have hpde : pde m s.pageDirectory (v / 4194304) = pde s.mem s.pageDirectory (v / 4194304) :=
    hload _ (by omega) (by omega)
  rw [PageTable.translate, PageTable.translate]
  by_cases htable : HasTable s (v / 4194304)
  · have hinside := h.sound.inside (v / 4194304) (by omega) htable
    have hbump := h.sound.bump
    have hpte : pte m s.pageDirectory (v / 4194304) (v / 4096 % 1024) =
        pte s.mem s.pageDirectory (v / 4194304) (v / 4096 % 1024) := by
      rw [pte, hpde]
      exact hload _ (by omega) (by omega)
    rw [hpte, hpde]
  · rw [hpde, if_neg fun hboth => htable hboth.1, if_neg fun hboth => htable hboth.1]

end Tables

section Boot

variable {fuel kernelEnd idtEntries mmapAddr mmapLength : Nat} {fb : Option Framebuffer}
  {mem : Mem} {k : Kernel}

/-- Whatever the map and the framebuffer add, the pages below 4 MiB are mapped. -/
theorem kernelMain_low
    (h : kernelMain fuel kernelEnd idtEntries mmapAddr mmapLength fb mem = some k) :
    ∃ slots mapped, Rep k.paging slots (lowPages ∪ mapped) := by
  simp only [kernelMain, Option.bind_eq_some_iff, Option.map_eq_some_iff] at h
  obtain ⟨pmm, -, paging, hpaging, hk⟩ := h
  obtain ⟨w, hw, rfl⟩ := pagingInitFull_walk rfl hpaging
  obtain ⟨P, hP⟩ := walk_adds hw
  obtain ⟨slots, -, hrep, -⟩ := hP [0] lowPages (lowTables_rep rfl).1
  cases fb with
  | none =>
    rw [← hk]
    exact ⟨slots, P, hrep⟩
  | some fb =>
    have hdir : w.paging.pageDirectory ≠ 0 := by
      rw [hrep.directory]
      decide
    obtain ⟨slots', -, hrep', -⟩ :=
      pagingMapFramebuffer_maps fb.addr fb.size hdir slots _ hrep
    rw [Set.union_assoc] at hrep'
    rw [← hk]
    exact ⟨slots', _, hrep'⟩

/-- The page allocator when the heap is set up. -/
theorem kernelMain_freeFrom (hmap : mmapAddr ≠ 0) (hend : kernelEnd + 131072 ≤ 0x200000)
    (h : kernelMain fuel kernelEnd idtEntries mmapAddr mmapLength fb mem = some k) :
    Guarded k.pmm ∧ FreeFrom (kernelPages kernelEnd) k.pmm ∧ k.pmm.bitmap = kernelEnd ∧
      k.pmm.totalPages = 1048575 := by
  obtain ⟨pmm, hpmm, hk, -, hframe⟩ := kernelMain_cases h
  rw [if_neg hmap] at hpmm
  have hspec := pmmInit_spec hpmm
  have hsep : Sep 0x200000 0x401000 pmm.bitmap bitmapBytes := by
    rw [hspec.bitmap]
    exact sep_of_ge (by simp only [bitmapBytes]; omega) (by decide)
  have hbits : ∀ q < 1048576, bitmapTest k.pmm q = bitmapTest pmm q := by
    intro q hq
    rw [hk]
    exact bitmapTest_frame hframe hsep hq
  have hpages : kernelPages kernelEnd ≤ 512 := by
    simp only [kernelPages, reservedPages, pageSize]
    omega
  have hfresh := pmmInit_freeFrom hpmm
  have hlater : Later pmm k.pmm := by
    rw [hk] at hbits ⊢
    exact ⟨rfl, rfl, fun q hq hset => (hbits q hq).trans hset⟩
  have hguard := pmmInit_guarded hpmm (by simp only [bitmapBytes]; omega)
  refine ⟨guarded_later hguard hlater, ⟨hfresh.pos, ?_, ?_⟩, ?_, ?_⟩
  · intro q hq
    exact (hbits q (by omega)).trans (hfresh.taken q hq)
  · intro q hq hzeroed
    have hlt : zeroedPages = 1048544 := rfl
    exact (hbits q (by omega)).trans (hfresh.clear q hq hzeroed)
  · rw [hk]
    exact hspec.bitmap
  · rw [hk]
    exact hspec.totalPages

/-- As long as the pages of the heap and the reserved ones together fit below 2 MiB, in every run
of the heap after `kernel_main` has set up the memory: the pages held lie between the allocator's
bitmap and the page tables, the translation of every address stays what it was, and every byte of
a block handed out is mapped to itself. The bound is sharp: with the space used up, the next page
is the page directory. -/
theorem heap_mapped {cachesAddr n : Nat} {w : World} (hmap : mmapAddr ≠ 0)
    (hend : kernelEnd + 131072 ≤ 0x200000)
    (h : kernelMain fuel kernelEnd idtEntries mmapAddr mmapLength fb mem = some k)
    (hfit : CachesFit cachesAddr) (hrun : Held cachesAddr k.pmm w n)
    (hroom : kernelPages kernelEnd + n ≤ 512) :
    (∀ p ∈ w.pages, kernelEnd + 131071 < p.1 ∧
      p.1 + 4096 ≤ (kernelPages kernelEnd + n) * 4096 ∧ ¬UsedByPaging k.paging p.1) ∧
    (∀ v < 4294967296, translate w.heap.pmm.mem k.paging.pageDirectory v =
      translate k.paging.mem k.paging.pageDirectory v) ∧
    (∀ u ∈ w.live, ∀ j < stride u.2,
      translate w.heap.pmm.mem k.paging.pageDirectory (u.1 + j) = some (u.1 + j)) ∧
    (kernelPages kernelEnd + w.pages.length = 512 →
      (pmmAllocPage w.heap.pmm).1 = k.paging.pageDirectory) := by
  obtain ⟨slots, mapped, hrep⟩ := kernelMain_low h
  obtain ⟨hg, hfresh, hbitmap, htotal⟩ := kernelMain_freeFrom hmap hend h
  obtain ⟨pmm, -, hk, -, -⟩ := kernelMain_cases h
  have hmem : k.pmm.mem = k.paging.mem := by rw [hk]
  have hunder := held_underTables hg (by rw [hbitmap]; exact hend) hfresh hfit hrun hroom
  have hinv := inv_reach hfit hg.totalPages (fun _ _ => .inl hg) hrun.reach
  obtain ⟨free, hpool⟩ := hinv.pool
  have hdir : k.paging.pageDirectory = 0x200000 := hrep.directory
  have hsame : ∀ v < 4294967296, translate w.heap.pmm.mem k.paging.pageDirectory v =
      translate k.paging.mem k.paging.pageDirectory v :=
    fun v hv => translate_below hrep (hmem ▸ hunder.mem) hv
  refine ⟨fun p hp => ⟨?_, hunder.below p hp, ?_⟩, hsame, fun u hu j hj => ?_, fun hfull => ?_⟩
  · have hin := hunder.above p hp
    simp only [kernelPages, reservedPages, pageSize] at hin
    omega
  · have hin := hunder.low hroom p hp
    simp only [UsedByPaging, hdir]
    omega
  · have hin := block_low (hunder.low hroom) (mem_of_out hpool.accounted hu)
    rw [hsame _ (by omega)]
    exact hrep.translate_mapped (by omega) (.inl (show (u.1 + j) / 4096 < 1024 by omega))
  · have haligned : ∀ p ∈ w.pages.map Prod.fst, p % 4096 = 0 := by
      intro p hp
      obtain ⟨x, hx, rfl⟩ := List.mem_map.mp hp
      exact (hpool.obtainable x hx).aligned
    have hnodup : ((w.pages.map Prod.fst).map (· / 4096)).Nodup := by
      refine List.Nodup.map_on (fun p hp q hq hpq => ?_) hpool.distinct
      have hp' := haligned p hp
      have hq' := haligned q hq
      omega
    have hin : ∀ p ∈ w.pages.map Prod.fst,
        kernelPages kernelEnd ≤ p / 4096 ∧ p / 4096 < 512 := by
      intro p hp
      obtain ⟨x, hx, rfl⟩ := List.mem_map.mp hp
      have habove := hunder.above x hx
      have hbelow := hunder.low hroom x hx
      omega
    have hsearch : 512 < searchEnd w.heap.pmm := by
      rw [searchEnd, hpool.samePages, htotal]
      split_ifs <;> decide
    rw [hdir]
    exact hfresh.next_page hpool.owns hnodup hin (by rw [List.length_map]; exact hfull) (by decide)
      hsearch

end Boot

/-- A block of 128 bytes on the machine of 128 MiB: the heap holds nine pages at most, from page 304
on. -/
theorem heap_mapped_ramMem : ∃ fuel k b w,
    kernelMain fuel 0x110000 0x105000 0x9000 24 none ramMem = some k ∧
    w = (World.start k.pmm).kmalloc 0x104000 100 ∧ w.live = [(b, some 3)] ∧
    (∀ p ∈ w.pages, 0x110000 + 131071 < p.1 ∧ p.1 + 4096 ≤ 0x200000 ∧
      ¬UsedByPaging k.paging p.1) ∧
    (∀ v < 4294967296, translate w.heap.pmm.mem k.paging.pageDirectory v =
      translate k.paging.mem k.paging.pageDirectory v) ∧
    ∀ j < 132, translate w.heap.pmm.mem k.paging.pageDirectory (b + j) = some (b + j) := by
  obtain ⟨fuel, k, h⟩ : ∃ fuel k,
      kernelMain fuel 0x110000 0x105000 0x9000 (entrySize * 1) none ramMem = some k :=
    kernelMain_returns (by decide) (by decide) (by decide)
  have hfit : CachesFit 0x104000 := ⟨by decide, by decide⟩
  have hfirst : kernelPages 0x110000 = 304 := by decide
  obtain ⟨hg, hfresh, -, htotal⟩ := kernelMain_freeFrom (by decide) (by decide) h
  have height := pages_start k.pmm
  have hone := pages_kmalloc 0x104000 100 (World.start k.pmm)
  obtain ⟨b, hb⟩ := hfresh.adds (inv_start 0x104000 hg.totalPages (.inl hg)) htotal (by omega)
    (by decide : 0 < 100)
  have hclass : classFor 100 = some 3 := by decide
  rw [hclass, World.start_live] at hb
  have hrun : Held 0x104000 k.pmm _ _ := .kmalloc 100 .start
  obtain ⟨hpages, hsame, hblocks, -⟩ :=
    heap_mapped (by decide) (by decide) h hfit hrun (by omega)
  refine ⟨fuel, k, b, _, h, rfl, hb, fun p hp => ?_, hsame, fun j hj => ?_⟩
  · obtain ⟨habove, hbelow, hunused⟩ := hpages p hp
    exact ⟨habove, by omega, hunused⟩
  · exact hblocks (b, some 3) (by simp [hb]) j hj

end Boot
