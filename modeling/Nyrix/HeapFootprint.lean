import Nyrix.HeapPartition

/-!
# How much memory the heap takes

A cache grows only when all of its blocks are live and gives no page back, so its pages are what
the greatest number of live blocks so far has needed. The counters of the caches and of the page
allocator agree with the pages held.
-/

namespace Kmalloc

open ByteMemory BoundedLoop FreeList BlockPool Pmm

def pagesIn (c : Class) (pages : List (Nat × Class)) : Nat :=
  pages.countP fun p => decide (p.2 = c)

def liveIn (c : Class) (w : World) : Nat := w.live.countP fun u => decide (u.2 = c)

/-- The blocks cut from a page of a cache. -/
def perPage (i : Fin 8) : Nat := 4096 / stride (some i)

/-! ## The counters -/

/-- What a call draws from the page allocator, as the counters show it. -/
structure Draws (s t : State) (new : List (Nat × Class)) : Prop where
  totals : ∀ i, (t.caches i).totalPages = (s.caches i).totalPages + pagesIn (some i) new
  free : t.pmm.freePages + BitVec.ofNat 32 new.length = s.pmm.freePages

section Draws

variable {s t u : State} {new new' : List (Nat × Class)} {i : Fin 8}

theorem draws_refl (s : State) : Draws s s [] := ⟨fun _ => rfl, BitVec.add_zero _⟩

theorem Draws.trans (h : Draws s t new) (h' : Draws t u new') : Draws s u (new' ++ new) := by
  constructor
  · intro i
    rw [h'.totals i, h.totals i, pagesIn, pagesIn, pagesIn, List.countP_append]
    omega
  · rw [List.length_append, BitVec.ofNat_add, ← BitVec.add_assoc, h'.free, h.free]

/-- A call that changes one cache, but neither counter. -/
theorem draws_update {c : CacheInfo} (hcaches : t.caches = Function.update s.caches i c)
    (hc : c.totalPages = (s.caches i).totalPages) (hfree : t.pmm.freePages = s.pmm.freePages) :
    Draws s t [] := by
  refine ⟨fun j => ?_, hfree ▸ BitVec.add_zero _⟩
  rw [hcaches]
  by_cases hj : j = i
  · subst hj
    rw [Function.update_self, hc]
    rfl
  · rw [Function.update_of_ne hj]
    rfl

theorem pushBlock_draws (i : Fin 8) (b : Nat) (s : State) : Draws s (pushBlock i b s) [] :=
  draws_update rfl rfl rfl

theorem takeBlock_draws (cachesAddr : Nat) (i : Fin 8) (s : State) :
    Draws s (takeBlock cachesAddr i s).2 [] := by
  rw [takeBlock]
  dsimp only
  split_ifs
  · exact draws_refl s
  · exact draws_update rfl rfl rfl

/-- `pmm_alloc_page` counts the page it returns. -/
theorem alloc_free (hzero : ZeroKept s.pmm) (c : Class) :
    (pmmAllocPage s.pmm).2.freePages + BitVec.ofNat 32 (obtainedPage c s).length =
      s.pmm.freePages := by
  obtain ⟨page, hlt, hclear, _, hcall⟩ | ⟨_, hcall⟩ := pmmAllocPage_cases s.pmm
  · have hne : page * pageSize ≠ 0 := by
      refine Nat.mul_ne_zero (fun he => ?_) (by decide)
      rw [he, hzero (he ▸ hlt)] at hclear
      exact Bool.false_ne_true hclear.symm
    rw [obtainedPage, hcall, if_neg hne]
    exact BitVec.sub_add_cancel _ _
  · rw [obtainedPage, hcall, if_pos rfl]
    exact BitVec.add_zero _

theorem pagesIn_obtained (i : Fin 8) (c : Class) (s : State) :
    pagesIn (some i) (obtainedPage c s) =
      if (pmmAllocPage s.pmm).1 ≠ 0 ∧ c = some i then 1 else 0 := by
  rw [obtainedPage, pagesIn]
  split_ifs with hnull hboth hclass
  · exact absurd hnull hboth.1
  · rfl
  · simp [hclass.2]
  · have hc : c ≠ some i := fun hc => hclass ⟨hnull, hc⟩
    simp [hc]

theorem countPage_draws (hzero : ZeroKept s.pmm) (hpage : (pmmAllocPage s.pmm).1 ≠ 0) :
    Draws s (countPage i s) (obtainedPage (some i) s) := by
  refine ⟨fun j => ?_, alloc_free hzero _⟩
  rw [pagesIn_obtained]
  by_cases hj : j = i
  · subst hj
    rw [if_pos ⟨hpage, rfl⟩, countPage, setCache_same]
  · rw [if_neg fun h => hj (Option.some.inj h.2).symm, countPage, setCache_of_ne _ _ _ hj]
    rfl

theorem cacheGrow_draws (hzero : ZeroKept s.pmm)
    (hsize : (s.caches i).realBlockSize = stride (some i)) :
    Draws s (cacheGrow i s) (obtainedPage (some i) s) := by
  by_cases hpage : (pmmAllocPage s.pmm).1 = 0
  · have hcall : cacheGrow i s = setPmm (pmmAllocPage s.pmm).2 s := if_pos hpage
    refine ⟨fun j => ?_, ?_⟩
    · rw [pagesIn_obtained, if_neg fun h => h.1 hpage, hcall]
      rfl
    · rw [hcall]
      exact alloc_free hzero _
  · have hloop := forUp_induct
      (fun k t => pushBlock i ((pmmAllocPage s.pmm).1 + stride (some i) * k) t)
      (fun _ t => Draws s t (obtainedPage (some i) s)) 0 (4096 / stride (some i)) (countPage i s)
      (countPage_draws hzero hpage)
      fun k t _ _ ht => ht.trans (pushBlock_draws i _ t)
    rwa [← cacheGrow_eq hsize hpage] at hloop

theorem refill_draws (hzero : ZeroKept s.pmm)
    (hsize : (s.caches i).realBlockSize = stride (some i)) :
    Draws s (refill i s) (refillPage i s) := by
  rw [refill, refillPage]
  split_ifs
  · exact cacheGrow_draws hzero hsize
  · exact draws_refl s

theorem kmallocPage_draws (hzero : ZeroKept s.pmm) :
    Draws s (kmallocPage s).2 (obtainedPage none s) := by
  have hfree := alloc_free hzero none
  have hcaches : (kmallocPage s).2.caches = s.caches := by
    rw [kmallocPage]
    split_ifs <;> rfl
  refine ⟨fun j => ?_, ?_⟩
  · rw [pagesIn_obtained, if_neg fun h => Option.some_ne_none j h.2.symm, hcaches]
    rfl
  · rw [← hfree, kmallocPage]
    split_ifs <;> rfl

/-- A request draws the page that its class lacks a block for. -/
theorem kmalloc_draws (cachesAddr size : Nat) (hconf : Configured s) (hzero : ZeroKept s.pmm) :
    Draws s (kmalloc cachesAddr size s).2 (obtained size s) := by
  rw [kmalloc, obtained]
  split_ifs
  · exact draws_refl s
  · exact kmallocPage_draws hzero
  · cases hcache : cacheFor size s with
    | none => exact draws_refl s
    | some i =>
      have hboth := (refill_draws hzero (hconf i).2).trans (takeBlock_draws cachesAddr i _)
      rwa [List.nil_append] at hboth

end Draws

/-- The counters agree with the pages held. -/
structure Footprint (base : Pmm.State) (w : World) : Prop where
  totals : ∀ i, (w.heap.caches i).totalPages = pagesIn (some i) w.pages
  free : w.heap.pmm.freePages + BitVec.ofNat 32 w.pages.length = base.freePages

section Footprint

variable {base : Pmm.State} {w : World} {s : State} {new : List (Nat × Class)}

theorem pagesIn_append (c : Class) (xs ys : List (Nat × Class)) :
    pagesIn c (xs ++ ys) = pagesIn c xs + pagesIn c ys := List.countP_append

theorem Footprint.draws (h : Footprint base w) (hs : Draws w.heap s new)
    (live : List (Nat × Class)) :
    Footprint base ⟨s, new ++ w.pages, live⟩ := by
  constructor
  · intro i
    rw [hs.totals i, h.totals i, pagesIn_append, Nat.add_comm]
  · rw [List.length_append, BitVec.ofNat_add, ← BitVec.add_assoc, hs.free, h.free]

/-- Page 0 is not free at the start, so it never is. -/
theorem pool_zeroKept {pages out : List (Nat × Class)} {free : Class → List Nat}
    (hbase : bitmapTest base 0 = true) (h : Pool base s pages free out) : ZeroKept s.pmm :=
  fun _ => h.owns.reserved 0 (by decide) hbase

/-- `kmalloc_init` has given each cache in `done` one page at most. -/
structure Given (base : Pmm.State) (done : List (Fin 8)) (w : World) : Prop where
  starting : Starting base done w
  footprint : Footprint base w
  unused : ∀ i ∉ done, pagesIn (some i) w.pages = 0
  one : ∀ i, pagesIn (some i) w.pages ≤ 1

theorem given_init {done : List (Fin 8)} {i : Fin 8} (hg : Guarded base)
    (hbase : bitmapTest base 0 = true) (h : Given base done w) (hi : i ∉ done) :
    Given base (i :: done) (w.init i) := by
  obtain ⟨free, hpool⟩ := h.starting.pool
  have hnone := h.unused i hi
  have hinit : Footprint base { w with heap := initCache i w.heap } := by
    refine ⟨fun j => ?_, h.footprint.free⟩
    by_cases hj : j = i
    · subst hj
      rw [initCache, setCache_same, hnone]
    · rw [initCache, setCache_of_ne _ _ _ hj]
      exact h.footprint.totals j
  have hsize : ((initCache i w.heap).caches i).realBlockSize = stride (some i) := by
    rw [initCache, setCache_same]
    rfl
  have hzero : ZeroKept w.heap.pmm := pool_zeroKept hbase hpool
  have hdraws := cacheGrow_draws (s := initCache i w.heap) hzero hsize
  have hpages (j : Fin 8) : pagesIn (some j) (w.init i).pages =
      pagesIn (some j) (obtainedPage (some i) w.heap) + pagesIn (some j) w.pages :=
    pagesIn_append _ _ _
  refine ⟨starting_init h.starting (.inl hg) hi, hinit.draws hdraws w.live, fun j hj => ?_,
    fun j => ?_⟩
  · obtain ⟨hji, hdone⟩ := not_or.mp fun hm => hj (List.mem_cons.mpr hm)
    rw [hpages, h.unused j hdone, pagesIn_obtained,
      if_neg fun hb => hji (Option.some.inj hb.2).symm]
  · rw [hpages, pagesIn_obtained]
    split_ifs with hb
    · rw [← Option.some.inj hb.2, hnone]
    · rw [Nat.zero_add]
      exact h.one j

theorem given_fold (is done : List (Fin 8)) (w : World) (hg : Guarded base)
    (hbase : bitmapTest base 0 = true) (h : Given base done w) (hnodup : (is ++ done).Nodup) :
    Given base (is.reverse ++ done) (is.foldl (fun w i => w.init i) w) := by
  induction is generalizing done w with
  | nil => exact h
  | cons i is ih =>
    have hi : i ∉ is ++ done := (List.nodup_cons.mp hnodup).1
    rw [List.reverse_cons, List.append_assoc, List.singleton_append]
    exact ih (i :: done) (w.init i)
      (given_init hg hbase h fun hm => hi (List.mem_append_right is hm))
      ((List.perm_middle.nodup_iff).mpr hnodup)

theorem given_start (hg : Guarded base) (hbase : bitmapTest base 0 = true) :
    Given base ((List.finRange 8).reverse ++ []) (World.start base) := by
  refine given_fold (List.finRange 8) [] _ hg hbase ⟨starting_boot hg.totalPages, ?_,
    fun _ _ => rfl, fun _ => Nat.zero_le 1⟩ ?_
  · exact ⟨fun _ => rfl, BitVec.add_zero _⟩
  · rw [List.append_nil]
    exact List.nodup_finRange 8

end Footprint

/-! ## Runs -/

/-- A run with the greatest number of live blocks it has had in each class. -/
inductive Peaked (cachesAddr : Nat) (pmm : Pmm.State) : World → (Class → Nat) → Prop
  | start : Peaked cachesAddr pmm (World.start pmm) fun c => liveIn c (World.start pmm)
  | kmalloc {w : World} {peak : Class → Nat} (size : Nat) (h : Peaked cachesAddr pmm w peak) :
      Peaked cachesAddr pmm (w.kmalloc cachesAddr size)
        fun c => max (peak c) (liveIn c (w.kmalloc cachesAddr size))
  | kfree {w w' : World} {peak : Class → Nat} {u : Nat × Class} (h : Peaked cachesAddr pmm w peak)
      (hu : u ∈ w.live) (hfree : w.kfree cachesAddr u = some w') : Peaked cachesAddr pmm w' peak
  | write {w : World} {peak : Class → Nat} {u : Nat × Class} (j : Nat) (v : BitVec 8)
      (h : Peaked cachesAddr pmm w peak) (hu : u ∈ w.live) (hj : j < capacity u.2) :
      Peaked cachesAddr pmm (w.write (u.1 + headerSize + j) v) peak

theorem Peaked.reach {cachesAddr : Nat} {pmm : Pmm.State} {w : World} {peak : Class → Nat}
    (h : Peaked cachesAddr pmm w peak) : Reach cachesAddr (fun _ => True) pmm w := by
  induction h with
  | start => exact .start trivial
  | kmalloc size _ ih => exact .kmalloc size ih trivial
  | kfree _ hu hfree ih => exact .kfree ih hu hfree
  | write j v _ hu hj ih => exact .write j v ih hu hj

/-- Every page of a cache but the first was needed for the peak. -/
structure Frugal (w : World) (peak : Class → Nat) : Prop where
  live : ∀ c, liveIn c w ≤ peak c
  needed : ∀ i, pagesIn (some i) w.pages ≤ 1 ∨
    (pagesIn (some i) w.pages - 1) * perPage i < peak (some i)

section Runs

variable {base : Pmm.State} {w w' : World} {peak : Class → Nat} {cachesAddr : Nat}

theorem inv_length (h : Inv cachesAddr base w) : ∃ free : Class → List Nat,
    (∀ i, Linked w.heap.pmm.mem (w.heap.caches i).freeList (free (some i))) ∧ free none = [] ∧
      ∀ c, (free c).length + liveIn c w = pagesIn c w.pages * (4096 / stride c) := by
  obtain ⟨free, hpool⟩ := h.pool
  exact ⟨free, hpool.links, hpool.direct, fun c => accounted_length hpool.accounted c⟩

/-- A cache that has to grow has all of its blocks live. -/
theorem live_full (h : Inv cachesAddr base w) {i : Fin 8}
    (hempty : (w.heap.caches i).freeList = 0) :
    liveIn (some i) w = pagesIn (some i) w.pages * perPage i := by
  obtain ⟨free, hlinks, -, hlength⟩ := inv_length h
  have hnil : free (some i) = [] := linked_unique (hlinks i) hempty
  have hall := hlength (some i)
  rwa [hnil, List.length_nil, Nat.zero_add] at hall

/-- A request that makes a cache grow takes the first block of the new page. -/
theorem obtained_some (cachesAddr : Nat) {s : State} {size : Nat} {i : Fin 8}
    (hconf : Configured s) (h : pagesIn (some i) (obtained size s) ≠ 0) :
    pagesIn (some i) (obtained size s) = 1 ∧ (s.caches i).freeList = 0 ∧
      servedBy size s = some i ∧ (kmalloc cachesAddr size s).1 ≠ 0 := by
  by_cases hsize : size = 0
  · rw [obtained, if_pos hsize] at h
    exact absurd rfl h
  rw [obtained, if_neg hsize] at h ⊢
  rw [servedBy, kmalloc, if_neg hsize]
  by_cases hlarge : largestBlock < size
  · rw [if_pos hlarge, pagesIn_obtained, if_neg fun hb => Option.some_ne_none i hb.2.symm] at h
    exact absurd rfl h
  rw [if_neg hlarge] at h ⊢
  rw [if_neg hlarge, if_neg hlarge]
  cases hcache : cacheFor size s with
  | none =>
    rw [hcache] at h
    exact absurd rfl h
  | some j =>
    rw [hcache] at h
    dsimp only at h ⊢
    by_cases hempty : (s.caches j).freeList = 0
    · rw [refillPage, if_pos hempty, pagesIn_obtained] at h
      rw [refillPage, if_pos hempty, pagesIn_obtained]
      split_ifs at h with hb
      · obtain rfl := Option.some.inj hb.2
        refine ⟨if_pos hb, hempty, rfl, fun hnull => ?_⟩
        have hgrown := cacheGrow_freeList (hconf j) hb.1
        rw [refill, if_pos hempty] at hnull
        exact hgrown ((takeBlock_null cachesAddr j _).1.mp hnull)
      · exact absurd rfl h
    · rw [refillPage, if_neg hempty] at h
      exact absurd rfl h

theorem liveIn_kmalloc (size : Nat) (c : Class) : liveIn c (w.kmalloc cachesAddr size) =
    pagesIn c (handed (servedBy size w.heap) (kmalloc cachesAddr size w.heap)) + liveIn c w :=
  List.countP_append

theorem frugal_kmalloc (hinv : Inv cachesAddr base w) (h : Frugal w peak) (size : Nat) :
    Frugal (w.kmalloc cachesAddr size)
      fun c => max (peak c) (liveIn c (w.kmalloc cachesAddr size)) := by
  refine ⟨fun c => Nat.le_max_right _ _, fun i => ?_⟩
  have hpages : pagesIn (some i) (w.kmalloc cachesAddr size).pages =
      pagesIn (some i) (obtained size w.heap) + pagesIn (some i) w.pages := pagesIn_append _ _ _
  rw [hpages]
  by_cases hnone : pagesIn (some i) (obtained size w.heap) = 0
  · rw [hnone, Nat.zero_add]
    exact (h.needed i).imp_right fun hlt => Nat.lt_of_lt_of_le hlt (Nat.le_max_left _ _)
  · obtain ⟨hone, hempty, hclass, hgiven⟩ :=
      obtained_some cachesAddr hinv.configured hnone
    have hfull := live_full hinv hempty
    have hlive : liveIn (some i) (w.kmalloc cachesAddr size) = 1 + liveIn (some i) w := by
      rw [liveIn_kmalloc, hclass, handed, if_neg hgiven]
      simp [pagesIn]
    refine .inr ?_
    rw [hone, Nat.add_sub_cancel_left, hlive, ← hfull]
    exact Nat.lt_of_lt_of_le (Nat.lt_add_of_pos_left Nat.one_pos) (Nat.le_max_right _ _)

/-- Which branch of `kfree` a live block takes. -/
theorem kfree_cases (hfit : CachesFit cachesAddr) (h : Inv cachesAddr base w) {u : Nat × Class}
    (hu : u ∈ w.live) (hfree : w.kfree cachesAddr u = some w') :
    (u.2 = none ∧ u ∈ w.pages ∧ bitmapTest w.heap.pmm (u.1 / 4096) = true ∧
      w' = ⟨setPmm (pmmFreePage u.1 w.heap.pmm) w.heap, w.pages.erase u, w.live.erase u⟩) ∨
    ∃ i, u.2 = some i ∧ w' = ⟨pushBlock i u.1 w.heap, w.pages, w.live.erase u⟩ := by
  obtain ⟨free, hpool⟩ := h.pool
  have hheader := h.headers u hu
  obtain ⟨b, c⟩ := u
  have hout : b ∈ blocksOf 4096 stride w.pages c := mem_of_out hpool.accounted hu
  have hfits := block_fits hpool.toBlocks hout
  have hstride := headerSize_le_stride c
  have hptr : b + headerSize ≠ 0 := Nat.succ_ne_zero _
  have hback : (b + headerSize + 4294967296 - headerSize) % 4294967296 = b := by
    simp only [headerSize] at hstride ⊢
    omega
  simp only [World.kfree, kfree, if_neg hptr, hback, hheader, cacheId_toNat hfit] at hfree
  cases c with
  | none =>
    have hpage : (b, none) ∈ w.pages := by
      obtain ⟨p, hp, hcut⟩ := mem_blocksOf.mp hout
      rw [cut_direct, List.mem_singleton] at hcut
      rwa [hcut]
    have htaken := hpool.owns.taken b (List.mem_map.mpr ⟨_, hpage, rfl⟩)
    exact .inl ⟨rfl, hpage, htaken, (Option.some.inj hfree).symm⟩
  | some i =>
    have hid : cacheId cachesAddr (some i) ≠ 0 := Nat.ne_of_gt (cacheAddr_fits hfit i).1
    rw [if_neg hid, cacheId, find_cache, Option.map_some, Option.map_some] at hfree
    exact .inr ⟨i, rfl, (Option.some.inj hfree).symm⟩

theorem liveIn_erase (u : Nat × Class) (c : Class) :
    (w.live.erase u).countP (fun u => decide (u.2 = c)) ≤ liveIn c w :=
  (List.erase_sublist).countP_le

theorem footprint_kfree (hfit : CachesFit cachesAddr) (h : Inv cachesAddr base w)
    (hfoot : Footprint base w) {u : Nat × Class} (hu : u ∈ w.live)
    (hfree : w.kfree cachesAddr u = some w') : Footprint base w' ∧
      ∀ i, pagesIn (some i) w'.pages = pagesIn (some i) w.pages := by
  obtain ⟨hclass, hpage, htaken, rfl⟩ | ⟨i, hclass, rfl⟩ := kfree_cases hfit h hu hfree
  · have hpages (i : Fin 8) : pagesIn (some i) (w.pages.erase u) = pagesIn (some i) w.pages := by
      rw [pagesIn, pagesIn, (List.perm_cons_erase hpage).countP_eq, List.countP_cons]
      simp [hclass]
    refine ⟨⟨fun i => (hfoot.totals i).trans (hpages i).symm, ?_⟩, hpages⟩
    have hcount : w.pages.length = (w.pages.erase u).length + 1 :=
      (List.perm_cons_erase hpage).length_eq
    have hone : (pmmFreePage u.1 w.heap.pmm).freePages = w.heap.pmm.freePages + 1#32 := by
      rw [pmmFreePage]
      exact congrArg Pmm.State.freePages (if_pos htaken)
    have hall := hfoot.free
    rw [hcount, BitVec.ofNat_add, BitVec.add_comm (BitVec.ofNat 32 _), ← BitVec.add_assoc,
      ← hone] at hall
    exact hall
  · refine ⟨?_, fun _ => rfl⟩
    exact hfoot.draws (pushBlock_draws i u.1 w.heap) (w.live.erase u)

/-- The heap's part of a run from a state of the page allocator that keeps page 0. -/
theorem peaked_frugal (hfit : CachesFit cachesAddr) (hg : Guarded base)
    (hbase : bitmapTest base 0 = true) (h : Peaked cachesAddr base w peak) :
    Footprint base w ∧ Frugal w peak := by
  induction h with
  | start =>
    have hgiven := given_start hg hbase
    exact ⟨hgiven.footprint, fun _ => Nat.le_refl _, fun i => .inl (hgiven.one i)⟩
  | @kmalloc w peak size hrun ih =>
    have hinv := inv_reach hfit hg.totalPages (fun _ _ => .inl hg) hrun.reach
    obtain ⟨free, hpool⟩ := hinv.pool
    have hdraws := kmalloc_draws cachesAddr size hinv.configured (pool_zeroKept hbase hpool)
    exact ⟨ih.1.draws hdraws _, frugal_kmalloc hinv ih.2 size⟩
  | @kfree w w' peak u hrun hu hfree ih =>
    have hinv := inv_reach hfit hg.totalPages (fun _ _ => .inl hg) hrun.reach
    obtain ⟨hfoot, hpages⟩ := footprint_kfree hfit hinv ih.1 hu hfree
    refine ⟨hfoot, fun c => ?_, fun i => ?_⟩
    · obtain ⟨t, -, rfl⟩ := Option.map_eq_some_iff.mp hfree
      exact Nat.le_trans (liveIn_erase u c) (ih.2.live c)
    · rw [hpages]
      exact ih.2.needed i
  | write j v _ _ _ ih => exact ⟨⟨ih.1.totals, ih.1.free⟩, ih.2.live, ih.2.needed⟩

end Runs

/-- In every run of the heap from `kmalloc_init` on, on the pages `pmm_init` has left: each
cache's counter gives the pages it holds, and it holds no more of them than the greatest number
of its blocks that were live at a time has needed, but for the one it starts with. A page handed
out whole is held as long as it is live. What the page allocator has left and what the heap holds
make up what there was, and the free blocks and the live ones the pages of the caches. -/
theorem heap_footprint {fuel kernelEnd mmapAddr mmapLength cachesAddr : Nat} {s t pmm : Pmm.State}
    {w : World} {peak : Class → Nat} (hkernel : kernelEnd + bitmapBytes ≤ 4294967296)
    (hinit : pmmInit fuel kernelEnd mmapAddr mmapLength s = some t) (hlater : Later t pmm)
    (hfit : CachesFit cachesAddr) (h : Peaked cachesAddr pmm w peak) :
    (∀ i, (w.heap.caches i).totalPages = pagesIn (some i) w.pages ∧
      (pagesIn (some i) w.pages ≤ 1 ∨
        (pagesIn (some i) w.pages - 1) * perPage i < peak (some i))) ∧
    pagesIn none w.pages = liveIn none w ∧ (∀ b, (b, none) ∈ w.pages ↔ (b, none) ∈ w.live) ∧
    w.heap.pmm.freePages + BitVec.ofNat 32 w.pages.length = pmm.freePages ∧
    ∃ free : Class → List Nat, ∀ i,
      Linked w.heap.pmm.mem (w.heap.caches i).freeList (free (some i)) ∧
        (free (some i)).length + liveIn (some i) w = pagesIn (some i) w.pages * perPage i := by
  have hg := guarded_later (pmmInit_guarded hinit hkernel) hlater
  have hbase := hlater.taken 0 (by decide) (pmmInit_zero hinit)
  have hinv := inv_reach hfit hg.totalPages (fun _ _ => .inl hg) h.reach
  obtain ⟨hfoot, hfrugal⟩ := peaked_frugal hfit hg hbase h
  obtain ⟨free, hlinks, hdirect, hlength⟩ := inv_length hinv
  obtain ⟨_, hparts⟩ := inv_partitioned hinv
  refine ⟨fun i => ⟨hfoot.totals i, hfrugal.needed i⟩, ?_, hparts.whole, hfoot.free, free,
    fun i => ⟨hlinks i, hlength (some i)⟩⟩
  have hwhole := hlength none
  have hone : 4096 / stride none = 1 := by decide
  rw [hdirect, List.length_nil, Nat.zero_add, hone, Nat.mul_one] at hwhole
  exact hwhole.symm

/-- Two blocks of 2048 bytes and a whole page on the machine of 128 MiB, and one of the blocks
freed: their cache has grown to two pages and keeps them. -/
theorem heap_footprint_ramMap : ∃ fuel t b b' page v w peak,
    pmmInit fuel 0x110000 0x9000 24 ramMap = some t ∧
    v = (((World.start t).kmalloc 0x104000 2048).kmalloc 0x104000 2048).kmalloc 0x104000 3000 ∧
    v.kfree 0x104000 (b', some 7) = some w ∧ Peaked 0x104000 t w peak ∧
    w.live = [(page, none), (b, some 7)] ∧ peak (some 7) = 2 ∧
    (w.heap.caches 7).totalPages = 2 ∧ (page, none) ∈ w.pages ∧
    w.heap.pmm.freePages + BitVec.ofNat 32 w.pages.length = t.freePages ∧
    ∃ free, Linked w.heap.pmm.mem (w.heap.caches 7).freeList free ∧ free.length = 1 := by
  obtain ⟨fuel, t, h⟩ := pmmInit_terminates (show MapFits 0x9000 24 by decide) 0x110000 ramMap
  have hg := pmmInit_guarded h (by decide)
  have hfit : CachesFit 0x104000 := ⟨by decide, by decide⟩
  have hstart : Peaked 0x104000 t (World.start t) _ := .start
  have hone := hstart.kmalloc 2048
  have htwo := hone.kmalloc 2048
  have hthree := htwo.kmalloc 3000
  have hpages := pages_kmalloc 0x104000 2048 (World.start t)
  have hpages' := pages_kmalloc 0x104000 2048 ((World.start t).kmalloc 0x104000 2048)
  have height := pages_start t
  obtain ⟨-, b, hb⟩ := ramMap_serves h hstart.reach (by omega) 2048 (by decide)
  obtain ⟨-, b', hb'⟩ := ramMap_serves h hone.reach (by omega) 2048 (by decide)
  obtain ⟨-, page, hpage⟩ := ramMap_serves h htwo.reach (by omega) 3000 (by decide)
  have hlast : classFor 2048 = some 7 := by decide
  have hlarge : classFor 3000 = none := by decide
  have hnone := World.start_live t
  rw [hlast, hnone] at hb
  rw [hlast, hb] at hb'
  rw [hlarge, hb'] at hpage
  obtain ⟨peak, hpeak, hgreatest⟩ : ∃ peak, Peaked 0x104000 t ((((World.start t).kmalloc 0x104000
      2048).kmalloc 0x104000 2048).kmalloc 0x104000 3000) peak ∧ peak (some 7) = 2 :=
    ⟨_, hthree, by simp [liveIn, hnone, hb, hb', hpage]⟩
  obtain ⟨v, hv⟩ : ∃ v, (((World.start t).kmalloc 0x104000 2048).kmalloc 0x104000 2048).kmalloc
    0x104000 3000 = v := ⟨_, rfl⟩
  rw [hv] at hpeak hpage
  have hmem : ((b', some 7) : Nat × Class) ∈ v.live := by simp [hpage]
  have hinv := inv_reach hfit hg.totalPages (fun _ _ => .inl hg) hpeak.reach
  obtain ⟨w, hfree, -⟩ := inv_kfree hfit hinv hmem
  have hlive : w.live = [(page, none), (b, some 7)] := by
    rw [World.live_kfree hfree, hpage, List.erase_cons_tail (by simp)]
    exact congrArg _ (List.erase_cons_head _ _)
  have hkept : w.pages = v.pages := by
    obtain ⟨hclass, -⟩ | ⟨i, -, hw⟩ := kfree_cases hfit hinv hmem hfree
    · exact absurd hclass (by simp)
    · rw [hw]
  have hrun := hpeak.kfree hmem hfree
  have hper : perPage 7 = 1 := by decide
  -- with both blocks live there were two pages at least, and the peak of two needed no third
  obtain ⟨-, -, -, -, frees, hlinks⟩ := heap_footprint (by decide) h (later_refl t) hfit hpeak
  have hleast := (hlinks 7).2
  have hboth : liveIn (some 7) v = 2 := by simp [liveIn, hpage]
  rw [hper, hboth] at hleast
  obtain ⟨hcaches, -, hwhole, hcount, frees', hlinks'⟩ :=
    heap_footprint (by decide) h (later_refl t) hfit hrun
  obtain ⟨htotal, hmost⟩ := hcaches 7
  obtain ⟨hlist, hlength⟩ := hlinks' 7
  have hrest : liveIn (some 7) w = 1 := by simp [liveIn, hlive]
  rw [hper, hgreatest] at hmost
  rw [hper, hrest] at hlength
  rw [← hkept] at hleast
  have htwoPages : pagesIn (some 7) w.pages = 2 := by omega
  refine ⟨fuel, t, b, b', page, v, w, peak, h, hv.symm, hfree, hrun, hlive, hgreatest,
    htotal.trans htwoPages, (hwhole page).mpr (by simp [hlive]), hcount, _, hlist, ?_⟩
  omega

end Kmalloc
