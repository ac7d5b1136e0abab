import Mathlib.Data.List.Range
import Nyrix.Base.PageTable
import Nyrix.PmmInit

/-!
# Which pages the map walk visits

The bounds of the inner loop are 64-bit numbers cut off by a 32-bit mask. The pages between
them are those an entry holds as long as it ends below 4 GiB; from there on they are counted
modulo 4 GiB, and an entry that ends before its first page boundary has a length of almost
4 GiB.
-/

namespace Pmm

open ByteMemory BoundedLoop PackedBits Multiboot

/-- The page numbers of the inner loop for an entry, in order. -/
def visited (e : MmapEntry) : List Nat :=
  if e.type = 1#32 then List.range' (regionStart e) (regionEnd e - regionStart e) else []

/-- The inner loop goes through these pages. -/
theorem walkBody_visited (w : Walk) : (walkBody w).pmm =
    (visited (entryAt w.pmm.mem w.entry)).foldl (fun s page => visitPage page s) w.pmm := by
  have hloop : ∀ lo n (s : State), forUp visitPage lo n s =
      (List.range' lo n).foldl (fun s page => visitPage page s) s := by
    intro lo n
    induction n generalizing lo with
    | zero => exact fun s => rfl
    | succ n ih =>
      intro s
      rw [forUp_succ, ih, List.range'_succ, List.foldl_cons]
  rw [walkBody, visited]
  dsimp only
  split_ifs
  · exact hloop _ _ _
  · rfl

/-- The number of the first page that begins in the entry, or behind it. -/
def firstPage (e : MmapEntry) : Nat := (e.addr.toNat + 4095) / 4096

/-- The number of the page the entry ends in or in front of. -/
def stopPage (e : MmapEntry) : Nat := (e.addr.toNat + e.len.toNat) / 4096

/-- The pages visited are the pages below `total_pages` that the entry wholly holds. -/
def VisitsWhole (e : MmapEntry) : Prop := ∀ p, p ∈ visited e ↔
  p < 0xFFFFFFFF / pageSize ∧ e.addr.toNat ≤ 4096 * p ∧ 4096 * (p + 1) ≤ e.addr.toNat + e.len.toNat

/-- The page boundaries of the entry are in order, and it ends below 4 GiB; or it crosses 4 GiB
and ends in the last page of a multiple of 4 GiB, or it lies above and holds a multiple of
4 GiB. -/
def Unwrapped (e : MmapEntry) : Prop := firstPage e ≤ stopPage e ∧
  (stopPage e < 1048576 ∨ firstPage e < 1048576 ∧ stopPage e % 1048576 = 1048575 ∨
    1048576 ≤ firstPage e ∧ (stopPage e - firstPage e) % 1048576 = 0)

instance (e : MmapEntry) : Decidable (Unwrapped e) := inferInstanceAs (Decidable (_ ∧ _))

/-- The mask rounds down to a page and drops everything from 4 GiB on. -/
theorem and_alignMask (x : BitVec 64) :
    (x &&& alignMask).toNat = x.toNat % 4294967296 / 4096 * 4096 := by
  have hmask : alignMask = 0xFFFFFFFF#64 &&& ~~~0xFFF#64 := by decide
  have hlow : (0xFFFFFFFF#64).toNat = 2 ^ 32 - 1 := rfl
  rw [hmask, ← BitVec.and_assoc, PageTable.and_pageMask, BitVec.toNat_and, hlow,
    Nat.and_two_pow_sub_one_eq_mod]

section Region

variable {e : MmapEntry}

theorem alignedBase_toNat (base : BitVec 64) :
    (alignedBase base).toNat = (base.toNat + 4095) / 4096 % 1048576 * 4096 := by
  have hround : (base + 4096#64 - 1#64).toNat = (base.toNat + 4095) % 18446744073709551616 := by
    rw [BitVec.toNat_sub, BitVec.toNat_add]
    simp only [BitVec.toNat_ofNat, Nat.reducePow, Nat.reduceMod]
    omega
  rw [alignedBase, and_alignMask, hround]
  omega

theorem alignedLen_toNat (base len : BitVec 64) : (alignedLen base len).toNat =
    (base.toNat + len.toNat + 18446744073709551616 - (base.toNat + 4095) / 4096 * 4096) %
      4294967296 / 4096 * 4096 := by
  have hb := base.isLt
  have hl := len.isLt
  obtain ⟨q, hq⟩ : ∃ q, (base.toNat + 4095) / 4096 = q := ⟨_, rfl⟩
  have hround : base.toNat ≤ q * 4096 ∧ q * 4096 < base.toNat + 4096 := by omega
  rw [alignedLen, and_alignMask, BitVec.toNat_sub, BitVec.toNat_sub, alignedBase_toNat, hq]
  -- everything is counted modulo 4 GiB
  have hpage : q % 1048576 * 4096 = q * 4096 % 4294967296 := by omega
  have hwrap : ∀ x, x % 2 ^ 64 % 4294967296 = x % 4294967296 := fun x => by omega
  rw [hpage, hwrap]
  have hsame : (2 ^ 64 - (2 ^ 64 - base.toNat + q * 4096 % 4294967296) % 2 ^ 64 + len.toNat) %
      4294967296 = (base.toNat + len.toNat + 18446744073709551616 - q * 4096) % 4294967296 := by
    omega
  rw [hsame]

theorem region_toNat (e : MmapEntry) :
    regionStart e = firstPage e % 1048576 ∧ regionEnd e - regionStart e =
      if firstPage e ≤ stopPage e then (stopPage e - firstPage e) % 1048576 else 1048575 := by
  have hstart : regionStart e = firstPage e % 1048576 := by
    rw [regionStart, BitVec.toNat_udiv, alignedBase_toNat, firstPage]
    exact Nat.mul_div_cancel _ (by decide)
  have hlen : (alignedLen e.addr e.len).toNat / 4096 =
      if firstPage e ≤ stopPage e then (stopPage e - firstPage e) % 1048576 else 1048575 := by
    rw [alignedLen_toNat, Nat.mul_div_cancel _ (by decide), firstPage, stopPage]
    split_ifs
    · omega
    · omega
  have hsum : (alignedBase e.addr + alignedLen e.addr e.len).toNat =
      (alignedBase e.addr).toNat + (alignedLen e.addr e.len).toNat := by
    apply BitVec.toNat_add_of_lt
    rw [alignedBase_toNat, alignedLen_toNat]
    omega
  have hstop : regionEnd e = regionStart e + (alignedLen e.addr e.len).toNat / 4096 := by
    rw [regionEnd, regionStart, BitVec.toNat_udiv, BitVec.toNat_udiv, hsum, alignedBase_toNat]
    change (_ * 4096 + _) / 4096 = _ * 4096 / 4096 + _
    rw [Nat.mul_div_cancel _ (by decide), Nat.add_comm, Nat.add_mul_div_right _ _ (by decide),
      Nat.add_comm]
  exact ⟨hstart, by rw [hstop, Nat.add_sub_cancel_left, hlen]⟩

theorem mem_visited (ht : e.type = 1#32) {p : Nat} :
    p ∈ visited e ↔ firstPage e % 1048576 ≤ p ∧ p < firstPage e % 1048576 +
      if firstPage e ≤ stopPage e then (stopPage e - firstPage e) % 1048576 else 1048575 := by
  obtain ⟨hstart, hcount⟩ := region_toNat e
  rw [visited, if_pos ht, hstart, ← hstart, hcount, hstart, List.mem_range'_1]

/-- The pages an entry wholly holds. -/
theorem whole_iff {p : Nat} : (e.addr.toNat ≤ 4096 * p ∧
    4096 * (p + 1) ≤ e.addr.toNat + e.len.toNat) ↔ firstPage e ≤ p ∧ p < stopPage e := by
  rw [firstPage, stopPage]
  omega

/-- Two ranges of page numbers, one counted modulo `2^20`, are the same. -/
theorem range_wrap {lo hi n : Nat}
    (hn : n = if lo ≤ hi then (hi - lo) % 1048576 else 1048575) :
    (∀ p, (lo % 1048576 ≤ p ∧ p < lo % 1048576 + n) ↔ p < 1048575 ∧ lo ≤ p ∧ p < hi) ↔
      lo ≤ hi ∧ (hi < 1048576 ∨ lo < 1048576 ∧ hi % 1048576 = 1048575 ∨
        1048576 ≤ lo ∧ (hi - lo) % 1048576 = 0) := by
  constructor
  · intro h
    have hfirst := h (lo % 1048576)
    have hlast := h (lo % 1048576 + n - 1)
    have hnext := h (lo % 1048576 + n)
    by_cases hle : lo ≤ hi
    · rw [if_pos hle] at hn
      refine ⟨hle, ?_⟩
      by_cases hbelow : hi < 1048576
      · exact .inl hbelow
      refine .inr ?_
      by_cases hlow : lo < 1048576
      · -- the range goes up to the last page, which is not counted
        have hend : lo + n = 1048575 := by
          rw [Nat.mod_eq_of_lt hlow] at hfirst hlast hnext
          omega
        exact .inl ⟨hlow, by omega⟩
      · have hnone : n = 0 := by omega
        exact .inr ⟨Nat.le_of_not_lt hlow, hn ▸ hnone⟩
    · rw [if_neg hle] at hn
      omega
  · rintro ⟨hle, hcase⟩ p
    rw [if_pos hle] at hn
    obtain hbelow | ⟨hlow, hend⟩ | ⟨habove, hnone⟩ := hcase
    · rw [Nat.mod_eq_of_lt (Nat.lt_of_le_of_lt hle hbelow)]
      omega
    · rw [Nat.mod_eq_of_lt hlow]
      omega
    · omega

/-- The walk visits the pages an entry wholly holds exactly when it reads the bounds of the
entry without loss. -/
theorem visitsWhole_iff (ht : e.type = 1#32) : VisitsWhole e ↔ Unwrapped e := by
  have hpages : 0xFFFFFFFF / pageSize = 1048575 := rfl
  rw [VisitsWhole, Unwrapped, ← range_wrap rfl]
  refine forall_congr' fun p => ?_
  rw [mem_visited ht, whole_iff, hpages]

end Region

/-- The entry of the machine with 128 MiB of memory. -/
theorem visitsWhole_iff_ramEntry : VisitsWhole ramEntry ↔ Unwrapped ramEntry :=
  visitsWhole_iff rfl

/-- For the first MiB above 4 GiB the walk visits the pages of the first MiB. -/
theorem highEntry_wraps : ¬∀ e : MmapEntry, e.type = 1#32 →
    e.addr.toNat + e.len.toNat ≤ 18446744073709551616 → VisitsWhole e := by
  intro h
  have hzero := (h ⟨0x100000000, 0x100000, 1⟩ rfl (by decide) 0).mp (by decide)
  exact absurd hzero.2.1 (by decide)

end Pmm
