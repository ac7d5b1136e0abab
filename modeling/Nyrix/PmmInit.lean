import Nyrix.Pmm

/-!
# What pmm_init leaves in the bitmap and in the counter

The walk of the map only ever clears bits that are clear, so it changes nothing but the
counter. Of the last bitmap word nothing is zeroed: `total_pages / 32` rounds down.
-/

namespace Pmm

open ByteMemory BoundedLoop PackedBits Multiboot

theorem visitPage_eq (page : Nat) (s : State) :
    visitPage page s = { s with
      freePages := s.freePages + if bitmapTest s (page % 4294967296) = false then 1 else 0 } := by
  cases h : bitmapTest s (page % 4294967296) with
  | true => simp [visitPage, h]
  | false =>
    have hm : clearBit s.mem s.bitmap (page % 4294967296) = s.mem := clearBit_of_clear h
    simp [visitPage, h, bitmapClear, hm]

/-- The pages an entry makes the walk count: those it visits and finds clear. -/
def visitCount (m : Mem) (bitmap : Nat) (e : MmapEntry) : Nat :=
  if e.type = 1#32 then
    Nat.count (fun k => testBit m bitmap ((regionStart e + k) % 4294967296) = false)
      (regionEnd e - regionStart e)
  else 0

theorem visitLoop_eq (lo n : Nat) (s : State) :
    forUp visitPage lo n s = { s with
      freePages := s.freePages + BitVec.ofNat 32
        (Nat.count (fun k => testBit s.mem s.bitmap ((lo + k) % 4294967296) = false) n) } := by
  induction n with
  | zero => simp
  | succ n ih =>
    rw [forUp_succ_last, ih, visitPage_eq, Nat.count_succ, BitVec.ofNat_add, ← add_assoc]
    congr 2
    by_cases h : testBit s.mem s.bitmap ((lo + n) % 4294967296) = false <;>
      simp [bitmapTest, h]

/-- The pointer after one round, for the entry found in memory. -/
def nextEntry (m : Mem) (p : Nat) : Nat :=
  (p + entrySize + if (entryAt m p).type = 1#32 then 8 else 0) % 4294967296

theorem nextEntry_cases (m : Mem) (p : Nat) :
    (entryAt m p).type = 1#32 ∧ nextEntry m p = (p + 32) % 4294967296 ∨
      (entryAt m p).type ≠ 1#32 ∧ nextEntry m p = (p + 24) % 4294967296 := by
  by_cases h : (entryAt m p).type = 1#32
  · exact .inl ⟨h, by simp only [nextEntry, entrySize, h, if_true]⟩
  · exact .inr ⟨h, by simp only [nextEntry, entrySize, h, if_false, Nat.add_zero]⟩

theorem walkBody_eq (w : Walk) :
    walkBody w =
      { entry := nextEntry w.pmm.mem w.entry
        pmm := { w.pmm with
          freePages := w.pmm.freePages +
            BitVec.ofNat 32 (visitCount w.pmm.mem w.pmm.bitmap (entryAt w.pmm.mem w.entry)) } } := by
  by_cases h : (entryAt w.pmm.mem w.entry).type = 1#32
  · simp only [walkBody, visitCount, nextEntry, h, if_true, visitLoop_eq]
  · simp [walkBody, visitCount, nextEntry, h]

/-- Two states that agree on everything but the counter. -/
def SameMap (s t : State) : Prop := t = { s with freePages := t.freePages }

theorem sameMap_refl (s : State) : SameMap s s := rfl

theorem walkBody_sameMap {s : State} {w : Walk} (h : SameMap s w.pmm) :
    SameMap s (walkBody w).pmm := by
  rw [walkBody_eq]
  simp only [SameMap] at h ⊢
  rw [h]

theorem sameMap_mem {s t : State} (h : SameMap s t) : t.mem = s.mem := by rw [h]

theorem sameMap_bitmap {s t : State} (h : SameMap s t) : t.bitmap = s.bitmap := by rw [h]

/-- The addresses at which the map walk looks for an entry, in order. -/
def inspected (fuel mmapAddr mmapLength : Nat) (s : State) : List Nat :=
  (whileTrace (walkCond mmapAddr mmapLength) walkBody fuel ⟨mmapAddr, s⟩).map Walk.entry

/-- The pages counted along the whole walk, each as often as it is visited. -/
def visitTotal (fuel mmapAddr mmapLength : Nat) (s : State) : Nat :=
  ((inspected fuel mmapAddr mmapLength s).map
    (fun p => visitCount s.mem s.bitmap (entryAt s.mem p))).sum

theorem ofNat_sum (l : List Nat) :
    (l.map (BitVec.ofNat 32)).sum = BitVec.ofNat 32 l.sum := by
  induction l with
  | nil => rfl
  | cons x l ih => rw [List.map_cons, List.sum_cons, ih, List.sum_cons, BitVec.ofNat_add]

theorem walk_result {fuel mmapAddr mmapLength : Nat} {s : State} {w : Walk}
    (h : whileLoop (walkCond mmapAddr mmapLength) walkBody fuel ⟨mmapAddr, s⟩ = some w) :
    w.pmm = { s with
      freePages := s.freePages + BitVec.ofNat 32 (visitTotal fuel mmapAddr mmapLength s) } := by
  have hstart : SameMap s (Walk.mk mmapAddr s).pmm := sameMap_refl s
  have hsame := (whileLoop_induct (fun w => SameMap s w.pmm)
    (fun w _ hw => walkBody_sameMap hw) fuel ⟨mmapAddr, s⟩ w hstart h).1
  have hsum := whileLoop_sum (fun w : Walk => w.pmm.freePages)
    (fun w => BitVec.ofNat 32 (visitCount s.mem s.bitmap (entryAt s.mem w.entry)))
    (fun w => SameMap s w.pmm)
    (by
      intro w _ hw
      refine ⟨walkBody_sameMap hw, ?_⟩
      simp only [walkBody_eq, sameMap_mem hw, sameMap_bitmap hw])
    fuel ⟨mmapAddr, s⟩ w hstart h
  have hlist : visitTotal fuel mmapAddr mmapLength s =
      ((whileTrace (walkCond mmapAddr mmapLength) walkBody fuel ⟨mmapAddr, s⟩).map
        (fun w => visitCount s.mem s.bitmap (entryAt s.mem w.entry))).sum := by
    simp only [visitTotal, inspected, List.map_map, Function.comp_def]
  rw [hsame, hsum, hlist, ← ofNat_sum, List.map_map]
  rfl

/-- `entries` is what a pointer meets that starts at `p` and moves with the stride of the
map walk until it has reached `stop`. -/
def Strided (m : Mem) (stop : Nat) : Nat → List MmapEntry → Prop
  | p, [] => stop ≤ p
  | p, e :: entries => p < stop ∧ e = entryAt m p ∧ Strided m stop (nextEntry m p) entries

theorem strided_unique {m : Mem} {stop p : Nat} {l l' : List MmapEntry} (h : Strided m stop p l)
    (h' : Strided m stop p l') : l = l' := by
  induction l generalizing p l' with
  | nil =>
    cases l' with
    | nil => rfl
    | cons e l' => exact absurd h'.1 (Nat.not_lt_of_le h)
  | cons e l ih =>
    cases l' with
    | nil => exact absurd h.1 (Nat.not_lt_of_le h')
    | cons e' l' => rw [h.2.1, h'.2.1, ih h.2.2 h'.2.2]

/-- The addresses inspected are those of the entries the stride leads to. -/
theorem strided_trace {fuel mmapAddr mmapLength : Nat} {s : State} {w w' : Walk}
    (hsame : SameMap s w.pmm)
    (h : whileLoop (walkCond mmapAddr mmapLength) walkBody fuel w = some w') :
    Strided s.mem ((mmapAddr + mmapLength) % 4294967296) w.entry
      ((whileTrace (walkCond mmapAddr mmapLength) walkBody fuel w).map
        fun w => entryAt s.mem w.entry) := by
  refine whileLoop_traced (fun w trace _ => SameMap s w.pmm →
    Strided s.mem ((mmapAddr + mmapLength) % 4294967296) w.entry
      (trace.map fun w => entryAt s.mem w.entry)) ?_ ?_ h hsame
  · intro w hc _
    exact Nat.le_of_not_lt (of_decide_eq_false hc)
  · intro w trace w' hc ih hw
    have hrest := ih (walkBody_sameMap hw)
    rw [walkBody_eq, sameMap_mem hw] at hrest
    exact ⟨of_decide_eq_true hc, rfl, hrest⟩

theorem strided_inspected {fuel mmapAddr mmapLength : Nat} {s : State} {w : Walk}
    (h : whileLoop (walkCond mmapAddr mmapLength) walkBody fuel ⟨mmapAddr, s⟩ = some w) :
    Strided s.mem ((mmapAddr + mmapLength) % 4294967296) mmapAddr
      ((inspected fuel mmapAddr mmapLength s).map (entryAt s.mem)) := by
  have hstart : SameMap s (Walk.mk mmapAddr s).pmm := sameMap_refl s
  have htrace := strided_trace hstart h
  rwa [inspected, List.map_map]

theorem visitTotal_eq {fuel mmapAddr mmapLength : Nat} {s : State} {w : Walk}
    {entries : List MmapEntry}
    (h : whileLoop (walkCond mmapAddr mmapLength) walkBody fuel ⟨mmapAddr, s⟩ = some w)
    (he : Strided s.mem ((mmapAddr + mmapLength) % 4294967296) mmapAddr entries) :
    visitTotal fuel mmapAddr mmapLength s = (entries.map (visitCount s.mem s.bitmap)).sum := by
  rw [strided_unique he (strided_inspected h), visitTotal, List.map_map]
  rfl

/-- No address the walk computes wraps: it may run up to 31 bytes past the map. -/
def MapFits (mmapAddr mmapLength : Nat) : Prop := mmapAddr + mmapLength + 32 ≤ 4294967296

instance (mmapAddr mmapLength : Nat) : Decidable (MapFits mmapAddr mmapLength) :=
  inferInstanceAs (Decidable (_ ≤ _))

theorem walk_terminates {mmapAddr mmapLength : Nat} (h : MapFits mmapAddr mmapLength)
    (w : Walk) : ∃ fuel w', whileLoop (walkCond mmapAddr mmapLength) walkBody fuel w = some w' := by
  refine whileLoop_terminates Walk.entry (mmapAddr + mmapLength) (fun _ => True) ?_ ?_ w trivial
  · intro w hc _
    have hlt : w.entry < (mmapAddr + mmapLength) % 4294967296 := of_decide_eq_true hc
    refine ⟨trivial, ?_⟩
    simp only [MapFits] at h
    rw [walkBody_eq]
    simp only [nextEntry, entrySize]
    split <;> omega
  · intro w hc _
    have hlt : w.entry < (mmapAddr + mmapLength) % 4294967296 := of_decide_eq_true hc
    simp only [MapFits] at h
    omega

theorem reservedPages_le (bitmap bitmapSize : Nat) : reservedPages bitmap bitmapSize ≤ 1048576 := by
  simp only [reservedPages, pageSize]
  omega

/-- The first `n` rounds of the reservation loop. -/
structure Reserved (n : Nat) (s t : State) : Prop where
  rest : t = { s with mem := t.mem, freePages := t.freePages }
  bits : ∀ q < 4294967296, bitmapTest t q = (decide (q < n) || bitmapTest s q)
  count : t.freePages = s.freePages - BitVec.ofNat 32 (clearCount s.mem s.bitmap n)
  frame : Frame s.bitmap 131072 s.mem t.mem

theorem reserved_step {n : Nat} {s t : State} (hn : n < 1048576) (h : Reserved n s t) :
    Reserved (n + 1) s (reservePage n t) := by
  have hb : t.bitmap = s.bitmap := by rw [h.rest]
  have ht := h.bits n (by omega)
  simp only [lt_self_iff_false, decide_false, Bool.false_or] at ht
  have hcount : clearCount s.mem s.bitmap (n + 1) =
      clearCount s.mem s.bitmap n + if bitmapTest s n = false then 1 else 0 :=
    Nat.count_succ _ n
  cases hc : bitmapTest s n with
  | true =>
    rw [hc] at ht
    have he : reservePage n t = t := by simp [reservePage, ht]
    rw [he]
    refine ⟨h.rest, ?_, ?_, h.frame⟩
    · intro q hq
      rw [h.bits q hq]
      by_cases hqn : q = n
      · simp [hqn, hc]
      · have : q < n + 1 ↔ q < n := by omega
        simp [this]
    · rw [hcount, h.count]
      simp [hc]
  | false =>
    rw [hc] at ht
    have he : reservePage n t = { bitmapSet t n with freePages := t.freePages - 1 } := by
      simp [reservePage, ht]
    rw [he]
    constructor
    · rw [h.rest]
      rfl
    · intro q hq
      have hset := testBit_setBit t.mem t.bitmap (p := n) (q := q) (by omega) hq
      have hbits := h.bits q hq
      simp only [bitmapTest, bitmapSet] at hbits ⊢
      rw [hset, hbits]
      have : q < n + 1 ↔ q = n ∨ q < n := by omega
      simp [this, Bool.or_assoc]
    · rw [hcount, h.count]
      simp only [hc, if_true, BitVec.ofNat_add]
      exact sub_sub _ _ _
    · refine frame_trans h.frame ?_
      rw [← hb]
      exact frame_sub (i := 4 * (n / 32)) (setBit_frame t.mem t.bitmap n) (by omega)

theorem reserveLoop_spec (n : Nat) (s : State) (hn : n ≤ 1048576) :
    Reserved n s (forUp reservePage 0 n s) := by
  have h := forUp_induct reservePage (fun i t => Reserved i s t) 0 n s
    ⟨rfl, fun q _ => by simp, by simp [clearCount], frame_refl _ _ _⟩
    (fun i t _ hi h => reserved_step (by omega) h)
  simpa using h

/-- The pages below this one have their bitmap word zeroed. -/
def zeroedPages : Nat := 1048544

/-- The memory in which the map walk and the reservation loop look bits up. -/
def zeroedMem (kernelEnd : Nat) (m : Mem) : Mem := fill kernelEnd (fun _ => 0#32) 32767 m

theorem zeroedMem_bit (kernelEnd : Nat) (m : Mem) {q : Nat} (hq : q < 4294967296) :
    testBit (zeroedMem kernelEnd m) kernelEnd q =
      (!decide (q < zeroedPages) && testBit m kernelEnd q) :=
  testBit_fill_zero m kernelEnd 32767 (by decide) hq

section Start

variable (kernelEnd mmapAddr mmapLength : Nat) (s : State)

@[simp] theorem walkStart_mem :
    (walkStart kernelEnd mmapAddr mmapLength s).mem = zeroedMem kernelEnd s.mem := by
  simp [walkStart, zeroedMem, pageSize]

@[simp] theorem walkStart_bitmap :
    (walkStart kernelEnd mmapAddr mmapLength s).bitmap = kernelEnd := rfl

@[simp] theorem walkStart_totalPages :
    (walkStart kernelEnd mmapAddr mmapLength s).totalPages = 1048575 := by
  simp [walkStart, pageSize]

@[simp] theorem walkStart_freePages :
    (walkStart kernelEnd mmapAddr mmapLength s).freePages = 0 := rfl

end Start

/-- `kernel_end_phys / PAGE_SIZE + 1` for the bitmap at `_kernel_end`. -/
def kernelPages (kernelEnd : Nat) : Nat := reservedPages kernelEnd 131071

/-- The state `pmm_init` leaves behind, bit by bit. -/
structure Initialised (fuel kernelEnd mmapAddr mmapLength : Nat) (s t : State) : Prop where
  bitmap : t.bitmap = kernelEnd
  totalPages : t.totalPages = 1048575
  earlyAlloc : t.earlyAlloc = s.earlyAlloc
  gMmapAddr : t.gMmapAddr = mmapAddr
  gMmapLength : t.gMmapLength = mmapLength
  bits : ∀ q < 4294967296, bitmapTest t q =
    (decide (q < kernelPages kernelEnd) || testBit (zeroedMem kernelEnd s.mem) kernelEnd q)
  count : t.freePages =
    BitVec.ofNat 32 (visitTotal fuel mmapAddr mmapLength (walkStart kernelEnd mmapAddr mmapLength s))
      - BitVec.ofNat 32 (clearCount (zeroedMem kernelEnd s.mem) kernelEnd (kernelPages kernelEnd))
  frame : Frame kernelEnd 131072 s.mem t.mem

/-- The map walk inside a call that returns. -/
theorem pmmInit_walk {fuel kernelEnd mmapAddr mmapLength : Nat} {s t : State}
    (h : pmmInit fuel kernelEnd mmapAddr mmapLength s = some t) :
    ∃ w, whileLoop (walkCond mmapAddr mmapLength) walkBody fuel
      ⟨mmapAddr, walkStart kernelEnd mmapAddr mmapLength s⟩ = some w := by
  simp only [pmmInit, Option.map_eq_some_iff] at h
  obtain ⟨w, hw, _⟩ := h
  exact ⟨w, hw⟩

theorem pmmInit_spec {fuel kernelEnd mmapAddr mmapLength : Nat} {s t : State}
    (h : pmmInit fuel kernelEnd mmapAddr mmapLength s = some t) :
    Initialised fuel kernelEnd mmapAddr mmapLength s t := by
  simp only [pmmInit, Option.map_eq_some_iff] at h
  obtain ⟨w, hw, ht⟩ := h
  have hwalk := walk_result hw
  have hr := reserveLoop_spec (reservedPages w.pmm.bitmap
    ((walkStart kernelEnd mmapAddr mmapLength s).totalPages / 8)) w.pmm (reservedPages_le _ _)
  rw [ht] at hr
  have hmem : w.pmm.mem = zeroedMem kernelEnd s.mem := by rw [hwalk, walkStart_mem]
  have hbitmap : w.pmm.bitmap = kernelEnd := by rw [hwalk, walkStart_bitmap]
  have htotal : w.pmm.totalPages = 1048575 := by rw [hwalk, walkStart_totalPages]
  have hfree : w.pmm.freePages = BitVec.ofNat 32 (visitTotal fuel mmapAddr mmapLength
      (walkStart kernelEnd mmapAddr mmapLength s)) := by
    rw [hwalk, walkStart_freePages, zero_add]
  rw [walkStart_totalPages, hbitmap] at hr
  change Reserved (kernelPages kernelEnd) w.pmm t at hr
  have hearly : w.pmm.earlyAlloc = s.earlyAlloc := by simp only [hwalk, walkStart]
  have haddr : w.pmm.gMmapAddr = mmapAddr := by simp only [hwalk, walkStart]
  have hlength : w.pmm.gMmapLength = mmapLength := by simp only [hwalk, walkStart]
  refine ⟨?_, ?_, by rw [← hearly, hr.rest], by rw [← haddr, hr.rest],
    by rw [← hlength, hr.rest], ?_, ?_, ?_⟩
  · rw [← hbitmap, hr.rest]
  · rw [← htotal, hr.rest]
  · intro q hq
    have hb := hr.bits q hq
    rwa [show bitmapTest w.pmm q = testBit w.pmm.mem w.pmm.bitmap q from rfl, hmem, hbitmap]
      at hb
  · rw [← hfree, ← hmem, hr.count, hbitmap]
  · have hf := hr.frame
    rw [hmem, hbitmap] at hf
    refine frame_trans ?_ hf
    exact frame_mono (fill_frame kernelEnd (fun _ => 0#32) 32767 s.mem) (Nat.le_refl _) (by omega)

/-- Page 0 is among the reserved ones, wherever the kernel ends. -/
theorem pmmInit_zero {fuel kernelEnd mmapAddr mmapLength : Nat} {s t : State}
    (h : pmmInit fuel kernelEnd mmapAddr mmapLength s = some t) : bitmapTest t 0 = true := by
  have hk : 0 < kernelPages kernelEnd := Nat.succ_pos _
  rw [(pmmInit_spec h).bits 0 (by decide), decide_eq_true hk, Bool.true_or]

theorem pmmInit_terminates {mmapAddr mmapLength : Nat} (h : MapFits mmapAddr mmapLength)
    (kernelEnd : Nat) (s : State) :
    ∃ fuel t, pmmInit fuel kernelEnd mmapAddr mmapLength s = some t := by
  obtain ⟨fuel, w, hw⟩ := walk_terminates h ⟨mmapAddr, walkStart kernelEnd mmapAddr mmapLength s⟩
  refine ⟨fuel, forUp reservePage 0 (reservedPages w.pmm.bitmap
    ((walkStart kernelEnd mmapAddr mmapLength s).totalPages / 8)) w.pmm, ?_⟩
  simp only [pmmInit, hw, Option.map_some]

theorem pmmInit_mono {fuel fuel' kernelEnd mmapAddr mmapLength : Nat} {s t : State}
    (h : pmmInit fuel kernelEnd mmapAddr mmapLength s = some t) (hle : fuel ≤ fuel') :
    pmmInit fuel' kernelEnd mmapAddr mmapLength s = some t := by
  simp only [pmmInit, Option.map_eq_some_iff] at h ⊢
  obtain ⟨w, hw, ht⟩ := h
  exact ⟨w, whileLoop_mono hw hle, ht⟩

end Pmm
