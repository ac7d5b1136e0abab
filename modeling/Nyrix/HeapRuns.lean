import Nyrix.HeapSteps

/-!
# Runs of the heap

Beside the state of kmalloc.cpp a run keeps the pages obtained so far and the blocks handed
out and not freed. It starts behind `kmalloc_init`; blocks are then requested, freed once
each, and written to behind their headers.
-/

namespace Kmalloc

open ByteMemory FreeList BlockPool Pmm

structure World where
  heap : State
  pages : List (Nat × Class)
  live : List (Nat × Class)

namespace World

/-- One round of the loop of `kmalloc_init`. -/
def init (i : Fin 8) (w : World) : World :=
  { w with
    heap := cacheGrow i (initCache i w.heap)
    pages := obtainedPage (some i) w.heap ++ w.pages }

def start (pmm : Pmm.State) : World :=
  (List.finRange 8).foldl (fun w i => w.init i) ⟨State.boot pmm, [], []⟩

theorem start_heap (pmm : Pmm.State) : (start pmm).heap = kmallocInit (State.boot pmm) :=
  (List.foldl_hom World.heap fun _ _ => rfl).symm

theorem start_live (pmm : Pmm.State) : (start pmm).live = [] := by
  have hkept : ∀ (is : List (Fin 8)) (w : World),
      (is.foldl (fun w i => w.init i) w).live = w.live := by
    intro is
    induction is with
    | nil => exact fun _ => rfl
    | cons i is ih => exact fun w => ih (w.init i)
  exact hkept (List.finRange 8) ⟨State.boot pmm, [], []⟩

def kmalloc (cachesAddr size : Nat) (w : World) : World :=
  { heap := (Kmalloc.kmalloc cachesAddr size w.heap).2
    pages := obtained size w.heap ++ w.pages
    live := handed (servedBy size w.heap) (Kmalloc.kmalloc cachesAddr size w.heap) ++ w.live }

def kfree (cachesAddr : Nat) (u : Nat × Class) (w : World) : Option World :=
  (Kmalloc.kfree cachesAddr (u.1 + headerSize) w.heap).map fun s =>
    { heap := s, pages := keptPages u w.pages, live := w.live.erase u }

theorem live_kfree {cachesAddr : Nat} {u : Nat × Class} {w w' : World}
    (h : w.kfree cachesAddr u = some w') : w'.live = w.live.erase u := by
  obtain ⟨_, _, rfl⟩ := Option.map_eq_some_iff.mp h
  rfl

def write (a : Nat) (v : BitVec 8) (w : World) : World :=
  { w with heap := setMem (store8 w.heap.pmm.mem a v) w.heap }

end World

/-- The worlds reached from `kmalloc_init` by calls that make the page allocator hand out
what `fresh` allows. -/
inductive Reach (cachesAddr : Nat) (fresh : List (Nat × Class) → Prop) (pmm : Pmm.State) :
    World → Prop
  | start (hfresh : fresh (World.start pmm).pages) : Reach cachesAddr fresh pmm (World.start pmm)
  | kmalloc {w : World} (size : Nat) (h : Reach cachesAddr fresh pmm w)
      (hfresh : fresh (obtained size w.heap)) :
      Reach cachesAddr fresh pmm (w.kmalloc cachesAddr size)
  | kfree {w w' : World} {u : Nat × Class} (h : Reach cachesAddr fresh pmm w) (hu : u ∈ w.live)
      (hfree : w.kfree cachesAddr u = some w') : Reach cachesAddr fresh pmm w'
  | write {w : World} {u : Nat × Class} (j : Nat) (v : BitVec 8)
      (h : Reach cachesAddr fresh pmm w) (hu : u ∈ w.live) (hj : j < capacity u.2) :
      Reach cachesAddr fresh pmm (w.write (u.1 + headerSize + j) v)

/-- What holds in every world. -/
structure Inv (cachesAddr : Nat) (base : Pmm.State) (w : World) : Prop where
  pool : ∃ free, Pool base w.heap w.pages free w.live
  headers : ∀ u ∈ w.live,
    load32 w.heap.pmm.mem u.1 = BitVec.ofNat 32 (cacheId cachesAddr u.2)
  configured : Configured w.heap

section Start

variable {base : Pmm.State}

/-- `kmalloc_init` has been through the caches in `done`. -/
structure Starting (base : Pmm.State) (done : List (Fin 8)) (w : World) : Prop where
  pool : ∃ free, Pool base w.heap w.pages free []
  live : w.live = []
  configured : ∀ i ∈ done, ConfiguredAt i w.heap
  untouched : ∀ i ∉ done, (w.heap.caches i).freeList = 0

theorem starting_boot (htotal : base.totalPages ≤ 1048575) :
    Starting base [] ⟨State.boot base, [], []⟩ := by
  refine ⟨⟨fun _ => [], ?_⟩, rfl, fun i hi => absurd hi List.not_mem_nil, fun _ _ => rfl⟩
  exact {
    links := fun _ => rfl
    direct := rfl
    accounted := fun _ _ => rfl
    distinct := List.nodup_nil
    obtainable := fun _ hp => absurd hp List.not_mem_nil
    bitmap := rfl
    samePages := rfl
    totalPages := htotal
    owns := owns_refl base }

theorem starting_init {done : List (Fin 8)} {w : World} {i : Fin 8}
    (h : Starting base done w) (hoff : Guarded base ∨ OffBitmap base.bitmap (w.init i).pages)
    (hi : i ∉ done) : Starting base (i :: done) (w.init i) := by
  obtain ⟨free, hpool⟩ := h.pool
  have hcaches : ∀ j ≠ i, (initCache i w.heap).caches j = w.heap.caches j :=
    fun j hj => setCache_of_ne _ _ _ hj
  have hinit : (initCache i w.heap).caches i = ⟨blockSizes i, blockSizes i + headerSize, 0, 0⟩ :=
    setCache_same _ _ _
  have hpool' : Pool base (initCache i w.heap) w.pages free [] :=
    pool_setCache hpool (h.untouched i hi).symm
  have hgrown := cacheGrow_grows (i := i) hpool' (by rw [hinit]; rfl)
    (hoff.imp_right fun ho p hp => ho p (List.mem_append_left _ hp))
  refine ⟨hgrown.pool, h.live, ?_, ?_⟩
  · intro j hj
    have hsizes := hgrown.sizes j
    by_cases hji : j = i
    · subst hji
      rw [hinit] at hsizes
      exact hsizes
    · rw [hcaches j hji] at hsizes
      have hconf := h.configured j ((List.mem_cons.mp hj).resolve_left hji)
      exact ⟨hsizes.1.trans hconf.1, hsizes.2.trans hconf.2⟩
  · intro j hj
    obtain ⟨hji, hdone⟩ := not_or.mp fun hm => hj (List.mem_cons.mpr hm)
    have hsame : (w.init i).heap.caches j = w.heap.caches j :=
      (hgrown.others j hji).trans (hcaches j hji)
    rw [hsame]
    exact h.untouched j hdone

theorem init_pages (is : List (Fin 8)) (w : World) {p : Nat × Class} (hp : p ∈ w.pages) :
    p ∈ (is.foldl (fun w i => w.init i) w).pages := by
  induction is generalizing w with
  | nil => exact hp
  | cons i is ih => exact ih (w.init i) (List.mem_append_right _ hp)

theorem starting_fold (is done : List (Fin 8)) (w : World) (h : Starting base done w)
    (hoff : Guarded base ∨ OffBitmap base.bitmap (is.foldl (fun w i => w.init i) w).pages)
    (hnodup : (is ++ done).Nodup) :
    Starting base (is.reverse ++ done) (is.foldl (fun w i => w.init i) w) := by
  induction is generalizing done w with
  | nil => exact h
  | cons i is ih =>
    have hi : i ∉ is ++ done := (List.nodup_cons.mp hnodup).1
    have hnext := starting_init h (hoff.imp_right fun ho p hp => ho p (init_pages is _ hp))
      (fun hm => hi (List.mem_append_right is hm))
    rw [List.reverse_cons, List.append_assoc, List.singleton_append]
    refine ih (i :: done) (w.init i) hnext hoff ?_
    exact (List.perm_middle.nodup_iff).mpr hnodup

/-- Each round obtains one page at most. -/
theorem init_pages_length (is : List (Fin 8)) (w : World) :
    (is.foldl (fun w i => w.init i) w).pages.length ≤ w.pages.length + is.length := by
  induction is generalizing w with
  | nil => exact Nat.le_refl _
  | cons i is ih =>
    have hround : (w.init i).pages.length ≤ w.pages.length + 1 := by
      simp only [World.init, obtainedPage, List.length_append]
      split <;> simp [Nat.add_comm]
    have hrest := ih (w.init i)
    simp only [List.foldl_cons, List.length_cons]
    omega

/-- `kmalloc_init` establishes the invariant. -/
theorem inv_start (cachesAddr : Nat) (htotal : base.totalPages ≤ 1048575)
    (hoff : Guarded base ∨ OffBitmap base.bitmap (World.start base).pages) :
    Inv cachesAddr base (World.start base) := by
  have hstart := starting_fold (List.finRange 8) [] _ (starting_boot htotal)
    (by rw [← World.start]; exact hoff) (by rw [List.append_nil]; exact List.nodup_finRange 8)
  rw [← World.start] at hstart
  have hlive : (World.start base).live = [] := hstart.live
  have hdone : ∀ i, i ∈ (List.finRange 8).reverse ++ [] := by
    intro i
    rw [List.append_nil, List.mem_reverse]
    exact List.mem_finRange i
  refine ⟨?_, ?_, fun i => hstart.configured i (hdone i)⟩
  · rw [hlive]
    exact hstart.pool
  · rw [hlive]
    exact fun u hu => absurd hu List.not_mem_nil

end Start

section Steps

variable {cachesAddr : Nat} {base : Pmm.State} {w : World}

/-- Blocks that stay out keep their headers. -/
theorem headers_kept {m m' : Mem} {out : List (Nat × Class)}
    (h : ∀ u ∈ out, load32 m u.1 = BitVec.ofNat 32 (cacheId cachesAddr u.2))
    (hkept : ∀ u ∈ out, Kept u m m') :
    ∀ u ∈ out, load32 m' u.1 = BitVec.ofNat 32 (cacheId cachesAddr u.2) :=
  fun u hu => (kept_header (hkept u hu)).trans (h u hu)

theorem inv_kmalloc (h : Inv cachesAddr base w) (size : Nat)
    (hoff : Guarded base ∨ OffBitmap base.bitmap (obtained size w.heap)) :
    Inv cachesAddr base (w.kmalloc cachesAddr size) ∧
      ∀ v ∈ w.live, Kept v w.heap.pmm.mem (w.kmalloc cachesAddr size).heap.pmm.mem := by
  obtain ⟨free, hpool⟩ := h.pool
  have hserves := kmalloc_serves cachesAddr size hpool h.configured hoff
  refine ⟨⟨hserves.pool, ?_, configured_sameSizes h.configured hserves.sizes⟩, hserves.kept⟩
  intro u hu
  cases List.mem_append.mp hu with
  | inl hnew =>
    have hclass : u.2 = servedBy size w.heap := by
      simp only [handed] at hnew
      split at hnew
      · exact absurd hnew List.not_mem_nil
      · rw [List.mem_singleton.mp hnew]
    rw [hclass]
    exact hserves.header u hnew
  | inr hold => exact headers_kept h.headers hserves.kept u hold

theorem inv_kfree (hfit : CachesFit cachesAddr) (h : Inv cachesAddr base w)
    {u : Nat × Class} (hu : u ∈ w.live) :
    ∃ w', w.kfree cachesAddr u = some w' ∧ Inv cachesAddr base w' ∧
      ∀ v ∈ w.live.erase u, Kept v w.heap.pmm.mem w'.heap.pmm.mem := by
  obtain ⟨free, hpool⟩ := h.pool
  obtain ⟨t, hcall, hpool', hkept, hsizes⟩ := kfree_frees hfit hpool hu (h.headers u hu)
  refine ⟨⟨t, keptPages u w.pages, w.live.erase u⟩, ?_, ⟨hpool', ?_, ?_⟩, hkept⟩
  · rw [World.kfree, hcall, Option.map_some]
  · exact headers_kept (fun v hv => h.headers v (List.mem_of_mem_erase hv)) hkept
  · exact configured_sameSizes h.configured hsizes

theorem inv_write (h : Inv cachesAddr base w) {u : Nat × Class} (hu : u ∈ w.live) {j : Nat}
    (hj : j < capacity u.2) (v : BitVec 8) :
    Inv cachesAddr base (w.write (u.1 + headerSize + j) v) := by
  obtain ⟨free, hpool⟩ := h.pool
  have hcap : headerSize + j + 1 ≤ stride u.2 := by
    simp only [stride]
    omega
  have hframe := store8_frame w.heap.pmm.mem (u.1 + headerSize + j) v
  have hblock := (block_fits hpool.toBlocks (mem_of_out hpool.accounted hu)).2.1
  refine ⟨⟨free, pool_write hpool hu (frame_mono hframe (by omega) (by omega))⟩, ?_,
    h.configured⟩
  intro x hx
  refine (load32_frame hframe ?_).trans (h.headers x hx)
  by_cases hxu : x = u
  · subst hxu
    refine sep_of_ge ?_ (by omega)
    simp only [headerSize]
    omega
  · have hsep := out_out_sep hpool.toBlocks hu hx (Ne.symm hxu)
    have hbyte := sep_left hsep (headerSize + j) 1 hcap
    rw [← Nat.add_assoc] at hbyte
    exact sep_front hbyte 4 (headerSize_le_stride x.2)

end Steps

/-- The invariant along every run. -/
theorem inv_reach {cachesAddr : Nat} {fresh : List (Nat × Class) → Prop} {pmm : Pmm.State}
    {w : World} (hfit : CachesFit cachesAddr) (htotal : pmm.totalPages ≤ 1048575)
    (hoff : ∀ pages, fresh pages → Guarded pmm ∨ OffBitmap pmm.bitmap pages)
    (h : Reach cachesAddr fresh pmm w) : Inv cachesAddr pmm w := by
  induction h with
  | start hfresh => exact inv_start cachesAddr htotal (hoff _ hfresh)
  | kmalloc size _ hfresh ih => exact (inv_kmalloc ih size (hoff _ hfresh)).1
  | kfree _ hu hfree ih =>
    obtain ⟨w', hcall, hinv, _⟩ := inv_kfree hfit ih hu
    rw [hfree, Option.some.injEq] at hcall
    exact hcall ▸ hinv
  | write j v _ hu hj ih => exact inv_write ih hu hj v

end Kmalloc
