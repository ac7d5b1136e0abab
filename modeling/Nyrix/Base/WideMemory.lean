import Nyrix.Base.BoundedLoop
import Nyrix.Base.ByteMemory

/-!
# Half words, double words and tables in memory

Loops that store one entry of a table after the other; an entry may depend on memory apart from
the table.
-/

namespace ByteMemory

open BoundedLoop

def load16 (m : Mem) (a : Nat) : BitVec 16 := load8 m (a + 1) ++ load8 m a

def store16 (m : Mem) (a : Nat) (w : BitVec 16) : Mem :=
  store8 (store8 m a (w.setWidth 8)) (a + 1) (w.extractLsb' 8 8)

def store64 (m : Mem) (a : Nat) (w : BitVec 64) : Mem :=
  store32 (store32 m a (w.setWidth 32)) (a + 4) ((w >>> 32).setWidth 32)

section Wide

variable {m m' : Mem} {a b n : Nat}

theorem load16_frame (h : Frame a n m m') (hsep : Sep a n b 2) : load16 m' b = load16 m b := by
  rw [load16, load16, h b (sep_front hsep 1 (by decide)),
    h (b + 1) (sep_right hsep 1 1 (by decide))]

theorem store16_frame (m : Mem) (a : Nat) (w : BitVec 16) : Frame a 2 m (store16 m a w) := by
  have hlow : Frame a 2 m (store8 m a (w.setWidth 8)) :=
    frame_sub (i := 0) (store8_frame m a _) (by decide)
  exact frame_trans hlow (frame_sub (store8_frame _ (a + 1) _) (by decide))

theorem load16_store16_same (m : Mem) (a : Nat) (w : BitVec 16) :
    load16 (store16 m a w) a = w := by
  have hne : (a + 1) % 4294967296 ≠ a % 4294967296 := by omega
  rw [load16, store16, load8_store8_same, load8_store8_of_ne _ _ _ _ hne, load8_store8_same]
  apply BitVec.eq_of_getLsbD_eq
  intro i hi
  rw [BitVec.getLsbD_append, BitVec.getLsbD_extractLsb', BitVec.getLsbD_setWidth]
  by_cases h : i < 8
  · simp [h]
  · have hin : i - 8 < 8 := by omega
    have hback : 8 + (i - 8) = i := by omega
    simp [h, hin, hback]

theorem store64_frame (m : Mem) (a : Nat) (w : BitVec 64) : Frame a 8 m (store64 m a w) := by
  have hlow : Frame a 8 m (store32 m a (w.setWidth 32)) :=
    frame_sub (i := 0) (store32_frame m a _) (by decide)
  exact frame_trans hlow (frame_sub (store32_frame _ (a + 4) _) (by decide))

theorem load64_store64_same (m : Mem) (a : Nat) (w : BitVec 64) :
    load64 (store64 m a w) a = w := by
  have hsep : Sep (a + 4) 4 a 4 :=
    sep_of_offset (i := 4) (j := 0) (.inr (by decide)) (by decide) (by decide)
  rw [load64, store64, load32_store32_same, load32_store32_of_sep _ _ _ _ hsep,
    load32_store32_same]
  have hw := w.isLt
  apply BitVec.eq_of_toNat_eq
  simp only [BitVec.toNat_ofNat, BitVec.toNat_setWidth, BitVec.toNat_ushiftRight,
    Nat.shiftRight_eq_div_pow]
  omega

/-- A table of double words is stored entry by entry. -/
theorem storeTable (f : Nat → Mem → BitVec 64) (w : Nat → BitVec 64) {n : Nat}
    (hn : 8 * n ≤ 4294967296)
    (hf : ∀ i < n, ∀ m', Frame a (8 * n) m m' → f i m' = w i) :
    Frame a (8 * n) m (forUp (fun i m => store64 m (a + 8 * i) (f i m)) 0 n m) ∧
      ∀ i < n,
        load64 (forUp (fun i m => store64 m (a + 8 * i) (f i m)) 0 n m) (a + 8 * i) = w i := by
  have h := forUp_induct (fun i m => store64 m (a + 8 * i) (f i m))
    (fun k m' => Frame a (8 * n) m m' ∧ ∀ i < k, load64 m' (a + 8 * i) = w i) 0 n m
    ⟨frame_refl _ _ _, fun i hi => absurd hi (Nat.not_lt_zero i)⟩
    (by
      rintro k m' - hk ⟨hframe, hload⟩
      have hstore := store64_frame m' (a + 8 * k) (f k m')
      refine ⟨frame_trans hframe (frame_sub hstore (by omega)), fun i hi => ?_⟩
      by_cases he : i = k
      · rw [he, load64_store64_same, hf k (by omega) m' hframe]
      · rw [load64_frame hstore (sep_of_offset (by omega) (by omega) (by omega))]
        exact hload i (by omega))
  rwa [Nat.zero_add] at h

/-- `for (i = 0; i < n; ++i) a[i] = v;` on bytes -/
theorem storeBytes (v : BitVec 8) {n : Nat} (hn : n ≤ 4294967296) :
    Frame a n m (forUp (fun i m => store8 m (a + i) v) 0 n m) ∧
      ∀ i < n, load8 (forUp (fun i m => store8 m (a + i) v) 0 n m) (a + i) = v := by
  have h := forUp_induct (fun i m => store8 m (a + i) v)
    (fun k m' => Frame a n m m' ∧ ∀ i < k, load8 m' (a + i) = v) 0 n m
    ⟨frame_refl _ _ _, fun i hi => absurd hi (Nat.not_lt_zero i)⟩
    (by
      rintro k m' - hk ⟨hframe, hload⟩
      refine ⟨frame_trans hframe (frame_sub (store8_frame m' (a + k) v) (by omega)),
        fun i hi => ?_⟩
      by_cases he : i = k
      · rw [he, load8_store8_same]
      · rw [load8_store8_of_ne _ _ _ _ (by omega)]
        exact hload i (by omega))
  rwa [Nat.zero_add] at h

end Wide

/-- A region holds the same bytes in both memories. -/
def Kept (a n : Nat) (m m' : Mem) : Prop := ∀ i < n, load8 m' (a + i) = load8 m (a + i)

section Kept

variable {m m' m'' : Mem} {a b k n i : Nat}

theorem Kept.trans (h : Kept a n m m') (h' : Kept a n m' m'') : Kept a n m m'' :=
  fun i hi => (h' i hi).trans (h i hi)

theorem kept_of_frame (h : Frame b k m m') (hsep : Sep b k a n) : Kept a n m m' :=
  fun i hi => h (a + i) (sep_right hsep i 1 hi)

theorem Kept.load16 (h : Kept a n m m') (hi : i + 2 ≤ n) :
    ByteMemory.load16 m' (a + i) = ByteMemory.load16 m (a + i) := by
  rw [ByteMemory.load16, ByteMemory.load16, h i (by omega), Nat.add_assoc, h (i + 1) (by omega)]

theorem Kept.load32 (h : Kept a n m m') (hi : i + 4 ≤ n) :
    ByteMemory.load32 m' (a + i) = ByteMemory.load32 m (a + i) := by
  refine load32_congr fun j hj => ?_
  rw [Nat.add_assoc]
  exact h (i + j) (by omega)

theorem Kept.load64 (h : Kept a n m m') (hi : i + 8 ≤ n) :
    ByteMemory.load64 m' (a + i) = ByteMemory.load64 m (a + i) := by
  rw [ByteMemory.load64, ByteMemory.load64, h.load32 (by omega), Nat.add_assoc,
    h.load32 (by omega)]

end Kept

end ByteMemory
