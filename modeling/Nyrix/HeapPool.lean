import Nyrix.Base.BlockPool
import Nyrix.Kmalloc
import Nyrix.PmmSteps

/-!
# The heap as a pool of blocks

The pages the heap has obtained, the free lists threaded through them, and the blocks that
are out. Every operation of kmalloc.cpp is made of few moves on the pool: a page comes in
with all of its blocks out, a block is pushed or unlinked, a page goes back.
-/

namespace Kmalloc

open ByteMemory BoundedLoop FreeList BlockPool Pmm

/-- A page is obtained for a cache, or to be handed out whole. -/
abbrev Class := Option (Fin 8)

/-- The bytes of a block behind its header. -/
def capacity : Class → Nat
  | none => 4096 - headerSize
  | some i => blockSizes i

def stride (c : Class) : Nat := capacity c + headerSize

theorem headerSize_le_stride (c : Class) : headerSize ≤ stride c := Nat.le_add_left _ _

theorem stride_pos (c : Class) : 0 < stride c :=
  Nat.lt_of_lt_of_le (by decide) (headerSize_le_stride c)

/-- A page that was free when the heap was set up, in state `base` of the page allocator. -/
structure Obtainable (base : Pmm.State) (page : Nat) : Prop where
  aligned : page % 4096 = 0
  ne_zero : page ≠ 0
  fits : page + 4096 ≤ 4294967296
  apart : Sep page 4096 base.bitmap bitmapBytes
  fresh : bitmapTest base (page / 4096) = false

/-- The blocks in memory. -/
structure Blocks (base : Pmm.State) (s : State) (pages : List (Nat × Class))
    (free : Class → List Nat) (out : List (Nat × Class)) : Prop where
  links : ∀ i, Linked s.pmm.mem (s.caches i).freeList (free (some i))
  direct : free none = []
  accounted : Accounted 4096 stride pages free out
  distinct : (pages.map Prod.fst).Nodup
  obtainable : ∀ p ∈ pages, Obtainable base p.1
  bitmap : s.pmm.bitmap = base.bitmap
  samePages : s.pmm.totalPages = base.totalPages
  totalPages : s.pmm.totalPages ≤ 1048575

/-- The blocks, and what the page allocator knows of their pages. -/
structure Pool (base : Pmm.State) (s : State) (pages : List (Nat × Class))
    (free : Class → List Nat) (out : List (Nat × Class)) : Prop
    extends Blocks base s pages free out where
  owns : Owns base s.pmm (pages.map Prod.fst)

/-- The bytes of a block are the same in both memories. -/
def Kept (u : Nat × Class) (m m' : Mem) : Prop :=
  ∀ j < stride u.2, load8 m' (u.1 + j) = load8 m (u.1 + j)

theorem kept_refl (u : Nat × Class) (m : Mem) : Kept u m m := fun _ _ => rfl

theorem kept_trans {u : Nat × Class} {m m' m'' : Mem} (h : Kept u m m') (h' : Kept u m' m'') :
    Kept u m m'' := fun j hj => (h' j hj).trans (h j hj)

theorem kept_of_frame {u : Nat × Class} {m m' : Mem} {a n : Nat} (h : Frame a n m m')
    (hs : Sep a n u.1 (stride u.2)) : Kept u m m' :=
  fun j hj => h _ (sep_right hs j 1 (by omega))

theorem kept_header {u : Nat × Class} {m m' : Mem} (h : Kept u m m') :
    load32 m' u.1 = load32 m u.1 := by
  have hle := headerSize_le_stride u.2
  simp only [headerSize] at hle
  exact load32_congr fun j hj => h j (by omega)

section Blocks

variable {base : Pmm.State} {s : State} {pages : List (Nat × Class)} {free : Class → List Nat}
  {out : List (Nat × Class)}

theorem blocks_pages (h : Blocks base s pages free out) : Pages 4096 pages :=
  ⟨fun p hp => (h.obtainable p hp).aligned, h.distinct⟩

theorem pages_lt (h : Blocks base s pages free out) :
    ∀ p ∈ pages.map Prod.fst, p < 4294967296 := by
  intro p hp
  obtain ⟨x, hx, rfl⟩ := List.mem_map.mp hp
  have hfits := (h.obtainable x hx).fits
  omega

/-- Each block lies in memory, away from address 0 and from the bitmap. -/
theorem block_fits (h : Blocks base s pages free out) {b : Nat} {c : Class}
    (hb : b ∈ blocksOf 4096 stride pages c) :
    b ≠ 0 ∧ b + stride c ≤ 4294967296 ∧ Sep b (stride c) base.bitmap bitmapBytes := by
  obtain ⟨p, hp, hcut⟩ := mem_blocksOf.mp hb
  obtain ⟨hlo, hhi⟩ := cut_inside hcut
  have hpage := h.obtainable _ hp
  have hfits := hpage.fits
  have hne := hpage.ne_zero
  refine ⟨by omega, by omega, ?_⟩
  have hsep := sep_left hpage.apart (b - p) (stride c) (by omega)
  rwa [Nat.add_sub_cancel' hlo] at hsep

theorem block_sep (h : Blocks base s pages free out) {b b' : Nat} {c c' : Class}
    (hb : b ∈ blocksOf 4096 stride pages c) (hb' : b' ∈ blocksOf 4096 stride pages c')
    (hne : (b, c) ≠ (b', c')) : Sep b (stride c) b' (stride c') := by
  have hfit := (block_fits h hb).2.1
  have hfit' := (block_fits h hb').2.1
  cases blocks_apart (blocks_pages h) hb hb' hne with
  | inl hle => exact sep_of_le hle hfit'
  | inr hle => exact sep_of_ge hle hfit

/-- A block that is out and a free one. -/
theorem out_free_sep (h : Blocks base s pages free out) {u : Nat × Class} (hu : u ∈ out) {b : Nat}
    {c : Class} (hb : b ∈ free c) : Sep u.1 (stride u.2) b (stride c) := by
  refine block_sep h (mem_of_out h.accounted hu) (mem_of_free h.accounted hb) ?_
  exact Ne.symm (free_ne_out (blocks_pages h) stride_pos h.accounted hb hu)

/-- Two blocks that are out. -/
theorem out_out_sep (h : Blocks base s pages free out) {u v : Nat × Class} (hu : u ∈ out)
    (hv : v ∈ out) (hne : u ≠ v) : Sep u.1 (stride u.2) v.1 (stride v.2) :=
  block_sep h (mem_of_out h.accounted hu) (mem_of_out h.accounted hv) hne

/-- Links survive a change of memory that spares them. -/
theorem blocks_setPmm (h : Blocks base s pages free out) {t : Pmm.State} {a n : Nat}
    (hf : Frame a n s.pmm.mem t.mem) (hlinks : ∀ i, ∀ b ∈ free (some i), Sep a n b 4)
    (hbitmap : t.bitmap = s.pmm.bitmap) (htotal : t.totalPages = s.pmm.totalPages) :
    Blocks base (setPmm t s) pages free out := by
  refine { h with links := ?_, bitmap := ?_, samePages := ?_, totalPages := ?_ }
  · intro i
    exact linked_congr (h.links i) fun b hb => load32_frame hf (hlinks i b hb)
  · exact hbitmap.trans h.bitmap
  · exact htotal.trans h.samePages
  · exact htotal ▸ h.totalPages

/-- No block lies in the bitmap, the only thing the page allocator writes to. -/
theorem bitmap_free_sep (h : Blocks base s pages free out) (i : Fin 8) {b : Nat}
    (hb : b ∈ free (some i)) : Sep s.pmm.bitmap bitmapBytes b 4 := by
  rw [h.bitmap]
  have hsep := (block_fits h (mem_of_free h.accounted hb)).2.2
  exact sep_front (sep_comm hsep) 4 (headerSize_le_stride (some i))

theorem setPmm_kept (h : Blocks base s pages free out) {t : Pmm.State}
    (hf : Frame s.pmm.bitmap bitmapBytes s.pmm.mem t.mem) {v : Nat × Class} (hv : v ∈ out) :
    Kept v s.pmm.mem (setPmm t s).pmm.mem := by
  rw [h.bitmap] at hf
  exact kept_of_frame hf (sep_comm (block_fits h (mem_of_out h.accounted hv)).2.2)

theorem blocks_alloc (h : Blocks base s pages free out) :
    Blocks base (setPmm (pmmAllocPage s.pmm).2 s) pages free out :=
  blocks_setPmm h (pmmAllocPage_frame h.totalPages) (fun i _ hb => bitmap_free_sep h i hb)
    (pmmAllocPage_bitmap _) (pmmAllocPage_totalPages _)

end Blocks

section Moves

variable {base : Pmm.State} {s : State} {pages : List (Nat × Class)} {free : Class → List Nat}
  {out : List (Nat × Class)}

theorem pool_perm {pages' out' : List (Nat × Class)} (h : Pool base s pages free out)
    (hp : pages'.Perm pages) (ho : out'.Perm out) : Pool base s pages' free out' := by
  refine { h with
    accounted := accounted_perm h.accounted hp ho, distinct := ?_, obtainable := ?_, owns := ?_ }
  · exact (hp.map Prod.fst).nodup_iff.mpr h.distinct
  · intro p hm
    exact h.obtainable p (hp.mem_iff.mp hm)
  · exact owns_perm h.owns (hp.map Prod.fst)

/-- Whoever has a block may write to it. -/
theorem pool_write (h : Pool base s pages free out) {u : Nat × Class} (hu : u ∈ out) {m : Mem}
    (hf : Frame u.1 (stride u.2) s.pmm.mem m) : Pool base (setMem m s) pages free out := by
  have hblocks : Blocks base (setMem m s) pages free out :=
    blocks_setPmm h.toBlocks hf (fun i b hb =>
      sep_front (out_free_sep h.toBlocks hu hb) 4 (headerSize_le_stride (some i))) rfl rfl
  refine ⟨hblocks, owns_congr h.owns (pages_lt h.toBlocks) fun q hq => ?_⟩
  refine bitmapTest_frame hf ?_ hq
  rw [h.bitmap]
  exact (block_fits h.toBlocks (mem_of_out h.accounted hu)).2.2

theorem header_frame (m : Mem) (u : Nat × Class) (w : BitVec 32) :
    Frame u.1 (stride u.2) m (store32 m u.1 w) :=
  frame_mono (store32_frame m u.1 w) (Nat.le_refl _)
    (Nat.add_le_add_left (headerSize_le_stride u.2) _)

theorem pool_push {b : Nat} {i : Fin 8} (h : Pool base s pages free ((b, some i) :: out)) :
    Pool base (pushBlock i b s) pages (Function.update free (some i) (b :: free (some i))) out := by
  have hmem : (b, some i) ∈ (b, some i) :: out := List.mem_cons_self
  have hwrite := pool_write h hmem (header_frame s.pmm.mem (b, some i)
    (BitVec.ofNat 32 (s.caches i).freeList))
  have hfit := block_fits h.toBlocks (mem_of_out h.accounted hmem)
  have hstride := stride_pos (some i)
  refine { hwrite with
    links := ?_, direct := ?_, accounted := accounted_push h.accounted, owns := hwrite.owns }
  · intro j
    by_cases hj : j = i
    · subst hj
      rw [Function.update_self, pushBlock, setCache_same]
      refine linked_push (h.links j) hfit.1 (by omega) fun x hx => ?_
      have hsep := sep_front (out_free_sep h.toBlocks hmem hx) 4 (headerSize_le_stride (some j))
      exact sep_comm (sep_front (sep_comm hsep) 4 (headerSize_le_stride (some j)))
    · rw [Function.update_of_ne (fun he => hj (Option.some.inj he)), pushBlock,
        setCache_of_ne _ _ _ hj]
      exact hwrite.links j
  · rw [Function.update_of_ne (by simp)]
    exact h.direct

/-- A push writes to the block pushed only. -/
theorem push_kept {b : Nat} {i : Fin 8} (h : Pool base s pages free ((b, some i) :: out))
    {v : Nat × Class} (hv : v ∈ out) : Kept v s.pmm.mem (pushBlock i b s).pmm.mem := by
  have hnodup := out_nodup (blocks_pages h.toBlocks) stride_pos h.accounted
  refine kept_of_frame (header_frame s.pmm.mem (b, some i) _)
    (out_out_sep h.toBlocks List.mem_cons_self (List.mem_cons_of_mem _ hv) ?_)
  intro he
  exact (List.nodup_cons.mp hnodup).1 (he ▸ hv)

theorem pool_unlink {b : Nat} {i : Fin 8} {rest : List Nat} (h : Pool base s pages free out)
    (hf : free (some i) = b :: rest) :
    Pool base (setCache i { s.caches i with freeList := (load32 s.pmm.mem b).toNat } s) pages
      (Function.update free (some i) rest) ((b, some i) :: out) := by
  refine { h with
    links := ?_, direct := ?_, accounted := accounted_pop h.accounted hf, owns := h.owns }
  · intro j
    by_cases hj : j = i
    · subst hj
      have hlink := h.links j
      rw [hf] at hlink
      rw [Function.update_self, setCache_same]
      exact hlink.2.2.2
    · rw [Function.update_of_ne (fun he => hj (Option.some.inj he)), setCache_of_ne _ _ _ hj]
      exact h.links j
  · rw [Function.update_of_ne (by simp)]
    exact h.direct

/-- Fields of a cache other than its list do not matter to the pool. -/
theorem pool_setCache {i : Fin 8} {c : CacheInfo} (h : Pool base s pages free out)
    (hc : c.freeList = (s.caches i).freeList) : Pool base (setCache i c s) pages free out := by
  refine { h with links := fun j => ?_, owns := h.owns }
  by_cases hj : j = i
  · subst hj
    rw [setCache_same, hc]
    exact h.links j
  · rw [setCache_of_ne _ _ _ hj]
    exact h.links j

/-- `pmm_alloc_page` returns no page: it finds none, or page 0. -/
theorem pool_noPage (h : Pool base s pages free out) (hnull : (pmmAllocPage s.pmm).1 = 0) :
    Pool base (setPmm (pmmAllocPage s.pmm).2 s) pages free out :=
  ⟨blocks_alloc h.toBlocks, owns_noPage h.totalPages h.owns (pages_lt h.toBlocks) hnull⟩

/-- The page returned is new to the heap, and comes in with all of its blocks out. -/
theorem pool_page (h : Pool base s pages free out) (c : Class)
    (hne : (pmmAllocPage s.pmm).1 ≠ 0)
    (hsep : Guarded base ∨ Sep (pmmAllocPage s.pmm).1 4096 base.bitmap bitmapBytes) :
    Pool base (setPmm (pmmAllocPage s.pmm).2 s) (((pmmAllocPage s.pmm).1, c) :: pages) free
      (pageBlocks 4096 stride ((pmmAllocPage s.pmm).1, c) ++ out) := by
  have htakes := pmmAllocPage_takes h.totalPages hne
  have hfits := htakes.fits
  obtain ⟨hfresh, hnew⟩ := owns_fresh h.totalPages h.owns hne
  have hapart : Sep (pmmAllocPage s.pmm).1 4096 base.bitmap bitmapBytes := by
    cases hsep with
    | inl hg =>
      have hsep := hg.apart _ (by omega) hfresh
      rwa [Nat.div_mul_cancel (Nat.dvd_of_mod_eq_zero htakes.aligned)] at hsep
    | inr hsep => exact hsep
  refine { blocks_alloc h.toBlocks with
    accounted := (accounted_page _).mpr h.accounted
    distinct := List.nodup_cons.mpr ⟨hnew, h.distinct⟩
    obtainable := ?_
    owns := owns_alloc h.totalPages h.owns (pages_lt h.toBlocks) hne }
  intro p hp
  cases List.mem_cons.mp hp with
  | inl he =>
    rw [he]
    exact ⟨htakes.aligned, hne, hfits, hapart, hfresh⟩
  | inr hold => exact h.obtainable p hold

/-- A page handed out whole is one block. -/
theorem cut_direct (page : Nat) : cut 4096 (stride none) page = [page] := by
  simp [cut, stride, capacity, headerSize]

theorem pageBlocks_direct (page : Nat) : pageBlocks 4096 stride (page, none) = [(page, none)] := by
  rw [pageBlocks, cut_direct, List.map_singleton]

/-- A page handed out whole goes back. -/
theorem pool_release {page : Nat}
    (h : Pool base s ((page, none) :: pages) free ((page, none) :: out)) :
    Pool base (setPmm (pmmFreePage page s.pmm) s) pages free out := by
  have hpage := h.obtainable (page, none) List.mem_cons_self
  have hfits := hpage.fits
  have haligned := hpage.aligned
  have hdistinct := List.nodup_cons.mp h.distinct
  have haccounted : Accounted 4096 stride pages free out := by
    refine (accounted_page (page, none)).mp ?_
    rw [pageBlocks_direct]
    exact h.accounted
  have hrest : Blocks base s pages free out :=
    { h.toBlocks with
      accounted := haccounted
      distinct := hdistinct.2
      obtainable := fun p hp => h.obtainable p (List.mem_cons_of_mem _ hp) }
  refine ⟨blocks_setPmm hrest (pmmFreePage_frame (by omega) _)
    (fun i _ hb => bitmap_free_sep hrest i hb) (pmmFreePage_bitmap _ _)
    (pmmFreePage_totalPages _ _), ?_⟩
  refine owns_free h.owns (pages_lt h.toBlocks) hpage.fresh fun p hp he => ?_
  obtain ⟨x, hx, rfl⟩ := List.mem_map.mp hp
  have haligned' := (hrest.obtainable x hx).aligned
  refine hdistinct.1 (List.mem_map.mpr ⟨x, hx, ?_⟩)
  change x.1 = page
  omega

end Moves

end Kmalloc
