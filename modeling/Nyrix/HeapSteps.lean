import Nyrix.HeapPool

/-!
# kmalloc and kfree on the pool

What each function of kmalloc.cpp does to the pages, the free lists and the blocks that
are out. None of them touches a block that was out before and stays out.
-/

namespace Kmalloc

open ByteMemory BoundedLoop FreeList BlockPool Pmm

/-- The header of a block that is out: the address of its cache, or 0. -/
def cacheId (cachesAddr : Nat) : Class → Nat
  | none => 0
  | some i => cacheAddr cachesAddr i

/-- Block sizes as `kmalloc_init` sets them. -/
def ConfiguredAt (i : Fin 8) (s : State) : Prop :=
  (s.caches i).blockSize = blockSizes i ∧ (s.caches i).realBlockSize = stride (some i)

/-- No call changes the sizes of the caches. -/
def SameSizes (s t : State) : Prop :=
  ∀ i, (t.caches i).blockSize = (s.caches i).blockSize ∧
    (t.caches i).realBlockSize = (s.caches i).realBlockSize

theorem sameSizes_refl (s : State) : SameSizes s s := fun _ => ⟨rfl, rfl⟩

theorem sameSizes_trans {s t u : State} (h : SameSizes s t) (h' : SameSizes t u) :
    SameSizes s u := fun i => ⟨(h' i).1.trans (h i).1, (h' i).2.trans (h i).2⟩

theorem sameSizes_setPmm (s : State) (t : Pmm.State) : SameSizes s (setPmm t s) :=
  fun _ => ⟨rfl, rfl⟩

theorem sameSizes_setCache (s : State) {i : Fin 8} {c : CacheInfo}
    (hb : c.blockSize = (s.caches i).blockSize) (hr : c.realBlockSize = (s.caches i).realBlockSize) :
    SameSizes s (setCache i c s) := by
  intro j
  by_cases hj : j = i
  · subst hj
    rw [setCache_same]
    exact ⟨hb, hr⟩
  · rw [setCache_of_ne _ _ _ hj]
    exact ⟨rfl, rfl⟩

theorem pushBlock_sizes (i : Fin 8) (b : Nat) (s : State) : SameSizes s (pushBlock i b s) :=
  sameSizes_setCache s rfl rfl

theorem pushBlock_of_ne {i j : Fin 8} (hj : j ≠ i) (b : Nat) (s : State) :
    (pushBlock i b s).caches j = s.caches j := setCache_of_ne _ _ _ hj

/-- The page a call of `pmm_alloc_page` brings in, if any. -/
def obtainedPage (c : Class) (s : State) : List (Nat × Class) :=
  if (pmmAllocPage s.pmm).1 = 0 then [] else [((pmmAllocPage s.pmm).1, c)]

/-- The pages do not overlap the bitmap of the page allocator. -/
def OffBitmap (bitmap : Nat) (pages : List (Nat × Class)) : Prop :=
  ∀ p ∈ pages, Sep p.1 4096 bitmap bitmapBytes

section

variable {base : Pmm.State} {s : State} {pages : List (Nat × Class)} {free : Class → List Nat}
  {out : List (Nat × Class)}

/-- The blocks of a new page that the loop of `cache_grow` has yet to push. -/
def pending (i : Fin 8) (page k : Nat) : List (Nat × Class) :=
  (List.range' k (4096 / stride (some i) - k)).map fun j => (page + stride (some i) * j, some i)

theorem pending_zero (i : Fin 8) (page : Nat) :
    pending i page 0 = pageBlocks 4096 stride (page, some i) := by
  simp only [pending, pageBlocks, cut, List.range_eq_range', List.map_map, Nat.sub_zero]
  rfl

theorem pending_step (i : Fin 8) (page : Nat) {k : Nat} (hk : k < 4096 / stride (some i)) :
    pending i page k = (page + stride (some i) * k, some i) :: pending i page (k + 1) := by
  obtain ⟨n, hn⟩ : ∃ n, 4096 / stride (some i) - k = n + 1 := ⟨_, (Nat.succ_pred (by omega)).symm⟩
  have hrest : 4096 / stride (some i) - (k + 1) = n := by omega
  rw [pending, pending, hn, hrest, List.range'_succ, List.map_cons]

/-- Cache `i` grows: the blocks in `rest` are still to be pushed. -/
structure Grown (base : Pmm.State) (i : Fin 8) (s : State) (pages rest out : List (Nat × Class))
    (t : State) : Prop where
  pool : ∃ free, Pool base t pages free (rest ++ out)
  kept : ∀ v ∈ out, Kept v s.pmm.mem t.pmm.mem
  sizes : SameSizes s t
  others : ∀ j ≠ i, t.caches j = s.caches j

theorem grown_step {i : Fin 8} {page k : Nat} {t : State} (hk : k < 4096 / stride (some i))
    (h : Grown base i s pages (pending i page k) out t) :
    Grown base i s pages (pending i page (k + 1)) out
      (pushBlock i (page + stride (some i) * k) t) := by
  obtain ⟨free, hpool⟩ := h.pool
  rw [pending_step i page hk, List.cons_append] at hpool
  refine ⟨⟨_, pool_push hpool⟩, ?_, sameSizes_trans h.sizes (pushBlock_sizes _ _ _), ?_⟩
  · intro v hv
    exact kept_trans (h.kept v hv) (push_kept hpool (List.mem_append_right _ hv))
  · intro j hj
    rw [pushBlock_of_ne hj, h.others j hj]

/-- `cache_grow` before its loop. -/
def countPage (i : Fin 8) (s : State) : State :=
  setCache i { s.caches i with totalPages := (s.caches i).totalPages + 1 }
    (setPmm (pmmAllocPage s.pmm).2 s)

theorem countPage_sizes (i : Fin 8) (s : State) : SameSizes s (countPage i s) :=
  sameSizes_setCache (setPmm (pmmAllocPage s.pmm).2 s) rfl rfl

theorem cacheGrow_eq {i : Fin 8} (hsize : (s.caches i).realBlockSize = stride (some i))
    (hpage : (pmmAllocPage s.pmm).1 ≠ 0) :
    cacheGrow i s = forUp (fun k t => pushBlock i ((pmmAllocPage s.pmm).1 + stride (some i) * k) t)
      0 (4096 / stride (some i)) (countPage i s) := by
  have hreal : ((countPage i s).caches i).realBlockSize = stride (some i) :=
    (countPage_sizes i s i).2.trans hsize
  rw [← hreal]
  exact if_neg hpage

theorem grown_start (i : Fin 8) (h : Pool base s pages free out)
    (hpage : (pmmAllocPage s.pmm).1 ≠ 0)
    (hsep : Guarded base ∨ Sep (pmmAllocPage s.pmm).1 4096 base.bitmap bitmapBytes) :
    Grown base i s (((pmmAllocPage s.pmm).1, some i) :: pages)
      (pending i (pmmAllocPage s.pmm).1 0) out (countPage i s) := by
  have hpool := pool_page h (some i) hpage hsep
  refine ⟨⟨free, ?_⟩, ?_, countPage_sizes i s, fun j hj => setCache_of_ne _ _ _ hj⟩
  · rw [pending_zero]
    exact pool_setCache hpool rfl
  · intro v hv
    exact setPmm_kept h.toBlocks (pmmAllocPage_frame h.totalPages) hv

theorem pending_done (i : Fin 8) (page : Nat) : pending i page (4096 / stride (some i)) = [] := by
  simp [pending]

theorem cacheGrow_grows {i : Fin 8} (h : Pool base s pages free out)
    (hsize : (s.caches i).realBlockSize = stride (some i))
    (hoff : Guarded base ∨ OffBitmap base.bitmap (obtainedPage (some i) s)) :
    Grown base i s (obtainedPage (some i) s ++ pages) [] out (cacheGrow i s) := by
  by_cases hpage : (pmmAllocPage s.pmm).1 = 0
  · have hcall : cacheGrow i s = setPmm (pmmAllocPage s.pmm).2 s := if_pos hpage
    rw [hcall, obtainedPage, if_pos hpage, List.nil_append]
    refine ⟨⟨free, pool_noPage h hpage⟩, ?_, sameSizes_setPmm s _, fun _ _ => rfl⟩
    intro v hv
    exact setPmm_kept h.toBlocks (pmmAllocPage_frame h.totalPages) hv
  · rw [obtainedPage, if_neg hpage] at hoff ⊢
    have hstart := grown_start i h hpage (hoff.imp_right fun ho => ho _ List.mem_cons_self)
    have hloop := forUp_induct _ (fun k t => Grown base i s
      (((pmmAllocPage s.pmm).1, some i) :: pages) (pending i (pmmAllocPage s.pmm).1 k) out t)
      0 (4096 / stride (some i)) (countPage i s) hstart
      fun k t _ hk ht => grown_step (by omega) ht
    rwa [← cacheGrow_eq hsize hpage, Nat.zero_add, pending_done] at hloop

/-- The block a call hands out, if any. -/
def handed (c : Class) (r : Nat × State) : List (Nat × Class) :=
  if r.1 = 0 then [] else [(r.1 - headerSize, c)]

/-- A call that may hand out a block of class `c`, and has obtained the new ones of `pages`. -/
structure Serves (base : Pmm.State) (cachesAddr : Nat) (c : Class) (s : State)
    (pages out : List (Nat × Class)) (r : Nat × State) : Prop where
  pool : ∃ free, Pool base r.2 pages free (handed c r ++ out)
  kept : ∀ v ∈ out, Kept v s.pmm.mem r.2.pmm.mem
  header : ∀ u ∈ handed c r, load32 r.2.pmm.mem u.1 = BitVec.ofNat 32 (cacheId cachesAddr c)
  sizes : SameSizes s r.2

/-- A call that hands out nothing. -/
theorem serves_none (cachesAddr : Nat) (c : Class) {t : State} (h : Pool base t pages free out)
    (hkept : ∀ v ∈ out, Kept v s.pmm.mem t.pmm.mem) (hsizes : SameSizes s t) :
    Serves base cachesAddr c s pages out (0, t) :=
  ⟨⟨free, h⟩, hkept, fun _ hu => absurd hu List.not_mem_nil, hsizes⟩

/-- A block that is out gets its header and is handed out. -/
theorem serves_block (cachesAddr : Nat) {c : Class} {b : Nat} {t : State}
    (h : Pool base t pages free ((b, c) :: out)) (hkept : ∀ v ∈ out, Kept v s.pmm.mem t.pmm.mem)
    (hsizes : SameSizes s t) :
    Serves base cachesAddr c s pages out (b + headerSize,
      setMem (store32 t.pmm.mem b (BitVec.ofNat 32 (cacheId cachesAddr c))) t) := by
  have hhanded : ∀ t, handed c (b + headerSize, t) = [(b, c)] := by
    intro t
    simp [handed, headerSize]
  have hframe := header_frame t.pmm.mem (b, c) (BitVec.ofNat 32 (cacheId cachesAddr c))
  have hnodup := out_nodup (blocks_pages h.toBlocks) stride_pos h.accounted
  refine ⟨⟨free, ?_⟩, ?_, ?_, hsizes⟩
  · rw [hhanded]
    exact pool_write h List.mem_cons_self hframe
  · intro v hv
    refine kept_trans (hkept v hv) (kept_of_frame hframe
      (out_out_sep h.toBlocks List.mem_cons_self (List.mem_cons_of_mem _ hv) ?_))
    intro he
    exact (List.nodup_cons.mp hnodup).1 (he ▸ hv)
  · intro u hu
    rw [hhanded, List.mem_singleton] at hu
    rw [hu]
    exact load32_store32_same _ _ _

theorem kmallocPage_serves (cachesAddr : Nat) (h : Pool base s pages free out)
    (hoff : Guarded base ∨ OffBitmap base.bitmap (obtainedPage none s)) :
    Serves base cachesAddr none s (obtainedPage none s ++ pages) out (kmallocPage s) := by
  have hkept : ∀ v ∈ out, Kept v s.pmm.mem (pmmAllocPage s.pmm).2.mem :=
    fun v hv => setPmm_kept h.toBlocks (pmmAllocPage_frame h.totalPages) hv
  have hsizes := sameSizes_setPmm s (pmmAllocPage s.pmm).2
  by_cases hpage : (pmmAllocPage s.pmm).1 = 0
  · have hcall : kmallocPage s = (0, setPmm (pmmAllocPage s.pmm).2 s) := if_pos hpage
    rw [hcall, obtainedPage, if_pos hpage, List.nil_append]
    exact serves_none cachesAddr none (pool_noPage h hpage) hkept hsizes
  · rw [obtainedPage, if_neg hpage] at hoff ⊢
    have hpool := pool_page h none hpage (hoff.imp_right fun ho => ho _ List.mem_cons_self)
    rw [pageBlocks_direct] at hpool
    have hserves := serves_block cachesAddr hpool hkept hsizes
    have hcall : kmallocPage s = ((pmmAllocPage s.pmm).1 + headerSize,
        setMem (store32 (pmmAllocPage s.pmm).2.mem (pmmAllocPage s.pmm).1 0#32)
          (setPmm (pmmAllocPage s.pmm).2 s)) := if_neg hpage
    rw [hcall]
    exact hserves

/-- The page with which a cache that has run out of blocks grows. -/
def refillPage (i : Fin 8) (s : State) : List (Nat × Class) :=
  if (s.caches i).freeList = 0 then obtainedPage (some i) s else []

theorem refill_grown {i : Fin 8} (h : Pool base s pages free out)
    (hsize : (s.caches i).realBlockSize = stride (some i))
    (hoff : Guarded base ∨ OffBitmap base.bitmap (refillPage i s)) :
    Grown base i s (refillPage i s ++ pages) [] out (refill i s) := by
  by_cases hempty : (s.caches i).freeList = 0
  · rw [refillPage, if_pos hempty] at hoff ⊢
    rw [refill, if_pos hempty]
    exact cacheGrow_grows h hsize hoff
  · rw [refillPage, if_neg hempty, refill, if_neg hempty]
    exact ⟨⟨free, h⟩, fun v _ => kept_refl v _, sameSizes_refl s, fun _ _ => rfl⟩

theorem takeBlock_serves (cachesAddr : Nat) (i : Fin 8) {t : State} (h : Pool base t pages free out)
    (hkept : ∀ v ∈ out, Kept v s.pmm.mem t.pmm.mem) (hsizes : SameSizes s t) :
    Serves base cachesAddr (some i) s pages out (takeBlock cachesAddr i t) := by
  by_cases hempty : (t.caches i).freeList = 0
  · have hcall : takeBlock cachesAddr i t = (0, t) := if_pos hempty
    rw [hcall]
    exact serves_none cachesAddr (some i) h hkept hsizes
  · obtain ⟨rest, hfree, _⟩ := linked_cons (h.links i) hempty
    have hserves := serves_block cachesAddr (pool_unlink h hfree) hkept
      (sameSizes_trans hsizes (sameSizes_setCache t rfl rfl))
    have hcall : takeBlock cachesAddr i t = ((t.caches i).freeList + headerSize,
        setMem (store32 t.pmm.mem (t.caches i).freeList
            (BitVec.ofNat 32 (cacheId cachesAddr (some i))))
          (setCache i { t.caches i with
            freeList := (load32 t.pmm.mem (t.caches i).freeList).toNat } t)) := if_neg hempty
    rw [hcall]
    exact hserves

/-- The class from which a request is served. -/
def servedBy (size : Nat) (s : State) : Class :=
  if largestBlock < size then none else cacheFor size s

/-- The page a request makes `kmalloc` obtain. -/
def obtained (size : Nat) (s : State) : List (Nat × Class) :=
  if size = 0 then []
  else if largestBlock < size then obtainedPage none s
  else
    match cacheFor size s with
    | some i => refillPage i s
    | none => []

def Configured (s : State) : Prop := ∀ i, ConfiguredAt i s

theorem configured_sameSizes {t : State} (h : Configured s) (hs : SameSizes s t) : Configured t :=
  fun i => ⟨(hs i).1.trans (h i).1, (hs i).2.trans (h i).2⟩

theorem kmalloc_serves (cachesAddr size : Nat) (h : Pool base s pages free out)
    (hconf : Configured s) (hoff : Guarded base ∨ OffBitmap base.bitmap (obtained size s)) :
    Serves base cachesAddr (servedBy size s) s (obtained size s ++ pages) out
      (kmalloc cachesAddr size s) := by
  by_cases hzero : size = 0
  · rw [obtained, if_pos hzero, kmalloc, if_pos hzero]
    exact serves_none cachesAddr _ h (fun v _ => kept_refl v _) (sameSizes_refl s)
  · rw [obtained, if_neg hzero] at hoff ⊢
    rw [kmalloc, if_neg hzero, servedBy]
    by_cases hlarge : largestBlock < size
    · rw [if_pos hlarge] at hoff ⊢
      rw [if_pos hlarge, if_pos hlarge]
      exact kmallocPage_serves cachesAddr h hoff
    · rw [if_neg hlarge] at hoff ⊢
      rw [if_neg hlarge, if_neg hlarge]
      cases hcache : cacheFor size s with
      | none => exact serves_none cachesAddr _ h (fun v _ => kept_refl v _) (sameSizes_refl s)
      | some i =>
        rw [hcache] at hoff
        have hgrown := refill_grown h (hconf i).2 hoff
        obtain ⟨free', hpool⟩ := hgrown.pool
        exact takeBlock_serves cachesAddr i hpool hgrown.kept hgrown.sizes

section Free

variable {cachesAddr : Nat}

/-- The array of caches lies in memory, not at address 0. -/
def CachesFit (cachesAddr : Nat) : Prop := 0 < cachesAddr ∧ cachesAddr + 128 ≤ 4294967296

theorem cacheAddr_fits (h : CachesFit cachesAddr) (i : Fin 8) :
    0 < cacheAddr cachesAddr i ∧ cacheAddr cachesAddr i < 4294967296 := by
  have hi := i.isLt
  simp only [cacheAddr]
  exact ⟨Nat.lt_of_lt_of_le h.1 (Nat.le_add_right _ _), by have := h.2; omega⟩

theorem cacheId_toNat (h : CachesFit cachesAddr) (c : Class) :
    (BitVec.ofNat 32 (cacheId cachesAddr c)).toNat = cacheId cachesAddr c := by
  rw [BitVec.toNat_ofNat]
  refine Nat.mod_eq_of_lt ?_
  cases c with
  | none => exact Nat.zero_lt_succ _
  | some i => exact (cacheAddr_fits h i).2

/-- The address in the header leads back to the cache. -/
theorem find_cache (i : Fin 8) :
    (List.finRange 8).find? (fun j => cacheAddr cachesAddr j = cacheAddr cachesAddr i) = some i := by
  cases hf : (List.finRange 8).find? (fun j => cacheAddr cachesAddr j = cacheAddr cachesAddr i) with
  | none =>
    have hnot := List.find?_eq_none.mp hf i (List.mem_finRange i)
    simp at hnot
  | some j =>
    have he : cacheAddr cachesAddr j = cacheAddr cachesAddr i := by
      simpa using List.find?_some hf
    simp only [cacheAddr] at he
    have hij : j = i := by
      apply Fin.ext
      omega
    rw [hij]

/-- What `kfree` leaves of the pages: one handed out whole goes back. -/
def keptPages (u : Nat × Class) (pages : List (Nat × Class)) : List (Nat × Class) :=
  if u.2 = none then pages.erase u else pages

theorem kfree_frees (hfit : CachesFit cachesAddr) {u : Nat × Class}
    (h : Pool base s pages free out) (hu : u ∈ out)
    (hheader : load32 s.pmm.mem u.1 = BitVec.ofNat 32 (cacheId cachesAddr u.2)) :
    ∃ t, kfree cachesAddr (u.1 + headerSize) s = some t ∧
      (∃ free', Pool base t (keptPages u pages) free' (out.erase u)) ∧
      (∀ v ∈ out.erase u, Kept v s.pmm.mem t.pmm.mem) ∧ SameSizes s t := by
  obtain ⟨b, c⟩ := u
  have hfits := block_fits h.toBlocks (mem_of_out h.accounted hu)
  have hstride := headerSize_le_stride c
  have hptr : b + headerSize ≠ 0 := Nat.succ_ne_zero _
  have hback : (b + headerSize + 4294967296 - headerSize) % 4294967296 = b := by
    simp only [headerSize] at hstride ⊢
    omega
  have hout := pool_perm h (List.Perm.refl pages) (List.perm_cons_erase hu).symm
  simp only [kfree, if_neg hptr, hback, hheader, cacheId_toNat hfit]
  cases c with
  | none =>
    have hpage : (b, none) ∈ pages := by
      obtain ⟨p, hp, hcut⟩ := mem_blocksOf.mp (mem_of_out h.accounted hu)
      rw [cut_direct, List.mem_singleton] at hcut
      rwa [hcut]
    have hpool := pool_perm hout (List.perm_cons_erase hpage).symm (List.Perm.refl _)
    refine ⟨_, if_pos rfl, ⟨free, ?_⟩, ?_, sameSizes_setPmm s _⟩
    · exact pool_release hpool
    · intro v hv
      exact setPmm_kept h.toBlocks (pmmFreePage_frame (by omega) s.pmm) (List.mem_of_mem_erase hv)
  | some i =>
    have hid : cacheId cachesAddr (some i) ≠ 0 := Nat.ne_of_gt (cacheAddr_fits hfit i).1
    refine ⟨pushBlock i b s, ?_, ⟨_, pool_push hout⟩, fun v hv => push_kept hout hv,
      pushBlock_sizes i b s⟩
    rw [if_neg hid, cacheId, find_cache, Option.map_some]

end Free

end

end Kmalloc
