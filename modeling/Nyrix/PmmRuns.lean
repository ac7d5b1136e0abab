import Nyrix.PmmSteps

/-!
# Runs of the page allocator

The set bits are those set by `pmm_init` and those of the outstanding pages. What each call
returns and changes is read off this invariant.
-/

namespace Pmm

open ByteMemory PackedBits

/-- The client frees outstanding pages only. -/
def Op.FreesOwn (out : List Nat) : Op → Prop
  | .freePage addr => addr ∈ out
  | _ => True

/-- The outstanding pages after a call in state `s`. -/
def outstanding (out : List Nat) (s : State) : Op → List Nat
  | .setEarlyAlloc _ => out
  | .allocPage => if (pmmAllocPage s).1 = 0 then out else (pmmAllocPage s).1 :: out
  | .freePage addr => out.erase addr

/-- Calls from `s` on lead to `t`, with the pages in `out` outstanding. -/
inductive Reaches (s : State) : List Nat → State → Prop where
  | start : Reaches s [] s
  | call {out : List Nat} {t : State} (op : Op) (h : Reaches s out t) (hown : op.FreesOwn out) :
    Reaches s (outstanding out t op) (step t op).2

/-- What a call that returns the page at `a` in state `s` leaves. -/
structure Hands (kernelEnd : Nat) (out : List Nat) (s : State) (a : Nat) (t : State) : Prop where
  aligned : a % 4096 = 0
  fresh : a ∉ out
  wasClear : bitmapTest s (a / 4096) = false
  lowest : ∀ q < a / 4096, bitmapTest s q = true
  above : kernelEnd + 1048575 / 8 < a
  inRange : a / 4096 < searchEnd s
  early : s.earlyAlloc = true → a + 4096 ≤ 0x400000
  bits : ∀ q < 4294967296, bitmapTest t q = (decide (q = a / 4096) || bitmapTest s q)
  frame : Frame (wordOf s.bitmap (a / 4096)) 4 s.mem t.mem

/-- What freeing the page at `a` leaves: with more calls it is handed out again, as long as it
lies in the range searched. -/
structure Returns (a : Nat) (s t : State) : Prop where
  wasSet : bitmapTest s (a / 4096) = true
  bits : ∀ q < 4294967296, bitmapTest t q = (!decide (q = a / 4096) && bitmapTest s q)
  frame : Frame (wordOf s.bitmap (a / 4096)) 4 s.mem t.mem
  again : ∀ early, (early = true → a < 0x400000) →
    ∃ n, a ∈ results (pmmSetEarlyAlloc early t) (List.replicate n .allocPage)

/-- What the next call does, whichever it is. -/
structure Serves (kernelEnd : Nat) (out : List Nat) (s : State) : Prop where
  hands : (pmmAllocPage s).1 ≠ 0 → Hands kernelEnd out s (pmmAllocPage s).1 (pmmAllocPage s).2
  null_iff : (pmmAllocPage s).1 = 0 ↔ ∀ q < searchEnd s, bitmapTest s q = true
  null : (pmmAllocPage s).1 = 0 → (pmmAllocPage s).2 = s
  frees : ∀ a ∈ out, Returns a s (pmmFreePage a s)
  modes : ∀ val, pmmSetEarlyAlloc val s = { s with earlyAlloc := val }
  keepsMode : (pmmAllocPage s).2.earlyAlloc = s.earlyAlloc ∧
    ∀ a, (pmmFreePage a s).earlyAlloc = s.earlyAlloc
  zero : bitmapTest s 0 = true

/-- The bits set in `t` are those set in `s` and those of the pages in `out`. -/
structure Taken (s : State) (out : List Nat) (t : State) : Prop where
  bitmap : t.bitmap = s.bitmap
  totalPages : t.totalPages = s.totalPages
  nodup : out.Nodup
  aligned : ∀ a ∈ out, a % 4096 = 0
  below : ∀ a ∈ out, a / 4096 < 1048575
  origin : ∀ a ∈ out, bitmapTest s (a / 4096) = false
  bits : ∀ q < 4294967296,
    bitmapTest t q = true ↔ bitmapTest s q = true ∨ ∃ a ∈ out, a / 4096 = q

theorem taken_refl (s : State) : Taken s [] s where
  bitmap := rfl
  totalPages := rfl
  nodup := List.nodup_nil
  aligned := fun _ ha => absurd ha List.not_mem_nil
  below := fun _ ha => absurd ha List.not_mem_nil
  origin := fun _ ha => absurd ha List.not_mem_nil
  bits := fun q _ => by simp

section Steps

variable {s t : State} {out : List Nat}

/-- Page 0 is reserved, so the null pointer is not the address of a page. -/
theorem alloc_cases (hzero : bitmapTest s 0 = true) :
    (∃ page < searchEnd s, page ≠ 0 ∧ bitmapTest s page = false ∧
      (∀ q < page, bitmapTest s q = true) ∧ (pmmAllocPage s).1 = page * 4096 ∧
      (pmmAllocPage s).2 = { bitmapSet s page with freePages := s.freePages - 1 }) ∨
    ((∀ q < searchEnd s, bitmapTest s q = true) ∧ pmmAllocPage s = (0, s)) := by
  obtain ⟨page, hlt, hclear, hbelow, hcall⟩ | hfull := pmmAllocPage_cases s
  · refine .inl ⟨page, hlt, ?_, hclear, hbelow, by rw [hcall]; rfl, by rw [hcall]⟩
    rintro rfl
    rw [hzero] at hclear
    exact Bool.false_ne_true hclear.symm
  · exact .inr hfull

theorem Taken.zero (h : Taken s out t) (hzero : bitmapTest s 0 = true) : bitmapTest t 0 = true :=
  (h.bits 0 (by decide)).2 (.inl hzero)

/-- A page whose bit is clear is not outstanding, and was clear from the start. -/
theorem Taken.clear (h : Taken s out t) {q : Nat} (hq : q < 4294967296)
    (hclear : bitmapTest t q = false) : bitmapTest s q = false ∧ ∀ a ∈ out, a / 4096 ≠ q := by
  have hnot : ¬(bitmapTest s q = true ∨ ∃ a ∈ out, a / 4096 = q) := by
    rw [← h.bits q hq, hclear]
    exact Bool.false_ne_true
  refine ⟨Bool.not_eq_true _ ▸ fun hset => hnot (.inl hset), fun a ha he => ?_⟩
  exact hnot (.inr ⟨a, ha, he⟩)

theorem taken_alloc (h : Taken s out t) (htotal : s.totalPages ≤ 1048575)
    (hzero : bitmapTest s 0 = true) :
    Taken s (outstanding out t .allocPage) (pmmAllocPage t).2 := by
  have hend := searchEnd_le (h.totalPages ▸ htotal)
  obtain ⟨page, hlt, hne, hclear, _, haddr, hstate⟩ | ⟨_, hcall⟩ := alloc_cases (h.zero hzero)
  · have hpage : page * 4096 / 4096 = page := Nat.mul_div_cancel page (by decide)
    have haddr_ne : page * 4096 ≠ 0 := by omega
    have hnew : outstanding out t .allocPage = page * 4096 :: out := by
      rw [outstanding, haddr, if_neg haddr_ne]
    obtain ⟨horigin, hother⟩ := h.clear (by omega) hclear
    have hfresh : page * 4096 ∉ out := fun hmem => hother _ hmem hpage
    rw [hnew, hstate]
    refine ⟨h.bitmap, h.totalPages, List.nodup_cons.2 ⟨hfresh, h.nodup⟩,
      List.forall_mem_cons.2 ⟨Nat.mul_mod_left page 4096, h.aligned⟩,
      List.forall_mem_cons.2 ⟨by omega, h.below⟩,
      List.forall_mem_cons.2 ⟨by rwa [hpage], h.origin⟩, fun q hq => ?_⟩
    have hbit := testBit_setBit t.mem t.bitmap (p := page) (q := q) (by omega) hq
    change testBit (setBit t.mem t.bitmap page) t.bitmap q = true ↔ _
    rw [hbit, Bool.or_eq_true, decide_eq_true_iff, List.exists_mem_cons_iff, hpage]
    have hold : testBit t.mem t.bitmap q = true ↔ _ := h.bits q hq
    rw [hold, eq_comm, or_left_comm]
  · have hsame : outstanding out t .allocPage = out := by rw [outstanding, hcall, if_pos rfl]
    rw [hsame, hcall]
    exact h

/-- Outstanding pages have different numbers. -/
theorem Taken.inj (h : Taken s out t) {a b : Nat} (ha : a ∈ out) (hb : b ∈ out)
    (he : a / 4096 = b / 4096) : a = b := by
  have haligned := h.aligned a ha
  have hbligned := h.aligned b hb
  omega

theorem taken_free {a : Nat} (h : Taken s out t) (ha : a ∈ out) :
    Taken s (out.erase a) (pmmFreePage a t) := by
  have hbelow := h.below a ha
  have hsub : ∀ b ∈ out.erase a, b ∈ out := fun b hb => List.mem_of_mem_erase hb
  refine ⟨(pmmFreePage_bitmap a t).trans h.bitmap, (pmmFreePage_totalPages a t).trans h.totalPages,
    h.nodup.erase a, fun b hb => h.aligned b (hsub b hb), fun b hb => h.below b (hsub b hb),
    fun b hb => h.origin b (hsub b hb), fun q hq => ?_⟩
  rw [pmmFreePage_bits (by omega) t hq, Bool.and_eq_true, Bool.not_eq_true',
    decide_eq_false_iff_not, h.bits q hq]
  constructor
  · rintro ⟨hne, hset | ⟨b, hb, hbq⟩⟩
    · exact .inl hset
    · have hba : b ≠ a := fun he => hne (he ▸ hbq.symm)
      exact .inr ⟨b, (List.mem_erase_of_ne hba).2 hb, hbq⟩
  · rintro (hset | ⟨b, hb, hbq⟩)
    · refine ⟨fun he => ?_, .inl hset⟩
      rw [he, h.origin a ha] at hset
      exact Bool.false_ne_true hset
    · refine ⟨fun he => ?_, .inr ⟨b, hsub b hb, hbq⟩⟩
      obtain rfl := h.inj (hsub b hb) ha (hbq.trans he)
      exact h.nodup.not_mem_erase hb

theorem taken_reaches (htotal : s.totalPages ≤ 1048575) (hzero : bitmapTest s 0 = true)
    (h : Reaches s out t) : Taken s out t := by
  induction h with
  | start => exact taken_refl s
  | call op _ hown ih =>
    cases op with
    | setEarlyAlloc val =>
      exact ⟨ih.bitmap, ih.totalPages, ih.nodup, ih.aligned, ih.below, ih.origin, ih.bits⟩
    | allocPage => exact taken_alloc ih htotal hzero
    | freePage addr => exact taken_free ih hown

end Steps

section Serves

variable {kernelEnd : Nat} {s t : State} {out : List Nat}

theorem taken_hands (h : Taken s out t) (htotal : s.totalPages ≤ 1048575)
    (hzero : bitmapTest s 0 = true)
    (habove : ∀ q < 4294967296, bitmapTest s q = false → kernelEnd + 131071 < q * 4096)
    (hne : (pmmAllocPage t).1 ≠ 0) :
    Hands kernelEnd out t (pmmAllocPage t).1 (pmmAllocPage t).2 := by
  have hend := searchEnd_le (h.totalPages ▸ htotal)
  obtain ⟨page, hlt, _, hclear, hbelow, haddr, hstate⟩ | ⟨_, hcall⟩ := alloc_cases (h.zero hzero)
  · have hpage : page * 4096 / 4096 = page := Nat.mul_div_cancel page (by decide)
    obtain ⟨horigin, hother⟩ := h.clear (by omega) hclear
    rw [haddr, hstate]
    refine ⟨Nat.mul_mod_left page 4096, fun hmem => hother _ hmem hpage, by rwa [hpage],
      by rwa [hpage], habove page (by omega) horigin, by rwa [hpage], fun hearly => ?_,
      fun q hq => ?_, ?_⟩
    · rw [searchEnd, if_pos hearly, pageSize] at hlt
      omega
    · rw [hpage]
      exact testBit_setBit t.mem t.bitmap (by omega) hq
    · rw [hpage]
      exact setBit_frame t.mem t.bitmap page
  · rw [hcall] at hne
    exact absurd rfl hne

theorem taken_returns {a : Nat} (h : Taken s out t) (htotal : s.totalPages = 1048575)
    (ha : a ∈ out) : Returns a t (pmmFreePage a t) := by
  have hbelow := h.below a ha
  have haligned := h.aligned a ha
  have hset : bitmapTest t (a / 4096) = true := (h.bits _ (by omega)).2 (.inr ⟨a, ha, rfl⟩)
  have hlt : a < 4294967296 := by omega
  have hbits := fun (q : Nat) (hq : q < 4294967296) => pmmFreePage_bits hlt t hq
  have hfree : pmmFreePage a t =
      { bitmapClear t (a / 4096) with freePages := t.freePages + 1 } := if_pos hset
  refine ⟨hset, hbits, ?_, fun early hearly => ?_⟩
  · rw [hfree]
    exact clearBit_frame t.mem t.bitmap (a / 4096)
  · have hclear : bitmapTest (pmmFreePage a t) (a / 4096) = false := by
      rw [hbits _ (by omega)]
      simp
    have hpages : (pmmFreePage a t).totalPages = 1048575 := by
      rw [pmmFreePage_totalPages, h.totalPages, htotal]
    have hrange : a / 4096 < searchEnd (pmmSetEarlyAlloc early (pmmFreePage a t)) := by
      rw [searchEnd, pmmSetEarlyAlloc]
      split_ifs with he
      · have hlow := hearly he
        simp only [pageSize]
        omega
      · rwa [hpages]
    have hend : searchEnd (pmmSetEarlyAlloc early (pmmFreePage a t)) ≤ 1048575 :=
      searchEnd_le (Nat.le_of_eq hpages)
    obtain ⟨n, hn⟩ := alloc_reaches _ hrange (by omega) hclear
    have hback : a / 4096 * pageSize = a := by
      rw [pageSize]
      omega
    rw [hback] at hn
    exact ⟨n, hn⟩

theorem taken_serves (h : Taken s out t) (htotal : s.totalPages = 1048575)
    (hzero : bitmapTest s 0 = true)
    (habove : ∀ q < 4294967296, bitmapTest s q = false → kernelEnd + 131071 < q * 4096) :
    Serves kernelEnd out t where
  hands := taken_hands h (Nat.le_of_eq htotal) hzero habove
  null_iff := by
    obtain ⟨page, hlt, hne, hclear, _, haddr, _⟩ | ⟨hfull, hcall⟩ := alloc_cases (h.zero hzero)
    · constructor
      · intro hnull
        omega
      · intro hfull
        rw [hfull page hlt] at hclear
        exact absurd hclear.symm Bool.false_ne_true
    · rw [hcall]
      exact iff_of_true rfl hfull
  null := by
    obtain ⟨page, _, hne, _, _, haddr, _⟩ | ⟨_, hcall⟩ := alloc_cases (h.zero hzero)
    · intro hnull
      omega
    · rw [hcall]
      exact fun _ => rfl
  frees := fun _ ha => taken_returns h htotal ha
  modes := fun _ => rfl
  keepsMode := ⟨pmmAllocPage_earlyAlloc t, fun a => pmmFreePage_earlyAlloc a t⟩
  zero := h.zero hzero

end Serves

/-- From `pmm_init` on, every call that a client of the page allocator makes meets its
contract, as long as the client frees outstanding pages only. -/
theorem reaches_serves (kernelEnd mmapAddr mmapLength : Nat) (s : State)
    (hend : kernelEnd + 131071 < 4294967296) :
    (MapFits mmapAddr mmapLength →
      ∃ fuel t, pmmInit fuel kernelEnd mmapAddr mmapLength s = some t) ∧
    ∀ fuel t, pmmInit fuel kernelEnd mmapAddr mmapLength s = some t →
      ∀ out u, Reaches t out u → Serves kernelEnd out u := by
  refine ⟨fun hfit => pmmInit_terminates hfit kernelEnd s, fun fuel t h out u hrun => ?_⟩
  have htotal := (pmmInit_spec h).totalPages
  have hreserved : ∀ q < 4294967296, bitmapTest t q = false →
      (kernelEnd + 131071) / 4096 + 1 ≤ q := by
    intro q hq hfree
    have hpages := ((pmmInit_clear_iff h hq).1 hfree).1
    simp only [kernelPages, reservedPages, pageSize] at hpages
    omega
  have hzero : bitmapTest t 0 = true := by
    by_contra hfree
    have hle := hreserved 0 (by decide) (by simpa using hfree)
    omega
  refine taken_serves (taken_reaches (Nat.le_of_eq htotal) hzero hrun) htotal hzero ?_
  intro q hq hfree
  have hle := hreserved q hq hfree
  omega

theorem reaches_serves_ramMap : ∃ fuel t, pmmInit fuel 0x110000 0x9000 24 ramMap = some t ∧
    Serves 0x110000 (outstanding [] t .allocPage) (step t .allocPage).2 := by
  obtain ⟨hterm, hserves⟩ := reaches_serves 0x110000 0x9000 24 ramMap (by decide)
  obtain ⟨fuel, t, h⟩ := hterm (by decide)
  exact ⟨fuel, t, h, hserves fuel t h _ _ (.call .allocPage .start trivial)⟩

end Pmm
