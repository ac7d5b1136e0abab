import Mathlib.Data.Nat.Count
import Nyrix.Base.BoundedLoop
import Nyrix.Base.ByteMemory

/-!
# Word arrays and packed bit sets in memory

`fill` writes consecutive words. A bit set keeps bit `p % 32` of word `p / 32` for its
member `p`; every index below `2 ^ 32` has a word of its own, wherever the array starts.
`clearCount` counts the members missing from a prefix.
-/

namespace PackedBits

open ByteMemory BoundedLoop

/-- The words `f 0`, …, `f (n - 1)` from `base` on. -/
def fill (base : Nat) (f : Nat → BitVec 32) (n : Nat) (m : Mem) : Mem :=
  forUp (fun i m => store32 m (base + 4 * i) (f i)) 0 n m

theorem fill_frame (base : Nat) (f : Nat → BitVec 32) (n : Nat) (m : Mem) :
    Frame base (4 * n) m (fill base f n m) := by
  have h := forUp_induct (fun i m => store32 m (base + 4 * i) (f i))
    (fun _ m' => Frame base (4 * n) m m') 0 n m (frame_refl _ _ _)
    (fun i m' _ hi hP =>
      frame_trans hP (frame_sub (store32_frame m' (base + 4 * i) (f i)) (by omega)))
  exact h

theorem fill_load (base : Nat) (f : Nat → BitVec 32) (n : Nat) (m : Mem)
    (hn : 4 * n ≤ 4294967296) {i : Nat} (hi : i < n) :
    load32 (fill base f n m) (base + 4 * i) = f i := by
  have h := forUp_induct (fun i m => store32 m (base + 4 * i) (f i))
    (fun k m' => ∀ j < k, load32 m' (base + 4 * j) = f j) 0 n m
    (fun j hj => absurd hj (Nat.not_lt_zero j))
    (by
      intro k m' _ hk ih j hj
      by_cases he : j = k
      · rw [he, load32_store32_same]
      · rw [load32_store32_of_sep _ _ _ _ (sep_of_offset (by omega) (by omega) (by omega))]
        exact ih j (by omega))
  exact h i (by omega)

def wordOf (base p : Nat) : Nat := base + 4 * (p / 32)

def mask (p : Nat) : BitVec 32 := 1#32 <<< (p % 32)

def testBit (m : Mem) (base p : Nat) : Bool := load32 m (wordOf base p) &&& mask p != 0#32

def setBit (m : Mem) (base p : Nat) : Mem :=
  store32 m (wordOf base p) (load32 m (wordOf base p) ||| mask p)

def clearBit (m : Mem) (base p : Nat) : Mem :=
  store32 m (wordOf base p) (load32 m (wordOf base p) &&& ~~~mask p)

theorem mask_getLsbD (p i : Nat) : (mask p).getLsbD i = decide (p % 32 = i) := by
  have hp : p % 32 < 32 := Nat.mod_lt _ (by decide)
  rw [mask, ← BitVec.twoPow_eq, BitVec.getLsbD_twoPow]
  simp [hp]

theorem testBit_eq_getLsbD (m : Mem) (base p : Nat) :
    testBit m base p = (load32 m (wordOf base p)).getLsbD (p % 32) := by
  have hp : p % 32 < 32 := Nat.mod_lt _ (by decide)
  rw [testBit, mask, ← BitVec.twoPow_eq, BitVec.and_twoPow]
  cases (load32 m (wordOf base p)).getLsbD (p % 32) with
  | false => simp
  | true =>
    have hne : BitVec.twoPow 32 (p % 32) ≠ 0#32 := by
      intro h
      have := congrArg BitVec.toNat h
      rw [BitVec.toNat_twoPow_of_lt hp] at this
      simp at this
    simpa using hne

/-- Distinct words of the array do not overlap. -/
theorem wordOf_sep {base p q : Nat} (hp : p < 4294967296) (hq : q < 4294967296)
    (h : p / 32 ≠ q / 32) : Sep (wordOf base p) 4 (wordOf base q) 4 :=
  sep_of_offset (by omega) (by omega) (by omega)

theorem testBit_setBit (m : Mem) (base : Nat) {p q : Nat} (hp : p < 4294967296)
    (hq : q < 4294967296) :
    testBit (setBit m base p) base q = (decide (q = p) || testBit m base q) := by
  rw [testBit_eq_getLsbD, testBit_eq_getLsbD, setBit]
  by_cases hw : p / 32 = q / 32
  · have hwo : wordOf base p = wordOf base q := by simp only [wordOf, hw]
    rw [hwo, load32_store32_same, BitVec.getLsbD_or, mask_getLsbD, Bool.or_comm]
    congr 1
    simp only [decide_eq_decide]
    omega
  · rw [load32_store32_of_sep _ _ _ _ (wordOf_sep hp hq hw)]
    have hne : q ≠ p := fun he => hw (by rw [he])
    simp [hne]

theorem testBit_clearBit (m : Mem) (base : Nat) {p q : Nat} (hp : p < 4294967296)
    (hq : q < 4294967296) :
    testBit (clearBit m base p) base q = (!decide (q = p) && testBit m base q) := by
  have hlt : q % 32 < 32 := Nat.mod_lt _ (by decide)
  rw [testBit_eq_getLsbD, testBit_eq_getLsbD, clearBit]
  by_cases hw : p / 32 = q / 32
  · have hwo : wordOf base p = wordOf base q := by simp only [wordOf, hw]
    rw [hwo, load32_store32_same, BitVec.getLsbD_and, BitVec.getLsbD_not, mask_getLsbD,
      Bool.and_comm]
    simp only [hlt, decide_true, Bool.true_and]
    congr 2
    simp only [decide_eq_decide]
    omega
  · rw [load32_store32_of_sep _ _ _ _ (wordOf_sep hp hq hw)]
    have hne : q ≠ p := fun he => hw (by rw [he])
    simp [hne]

/-- Clearing a bit that is clear writes the word that is there. -/
theorem clearBit_of_clear {m : Mem} {base p : Nat} (h : testBit m base p = false) :
    clearBit m base p = m := by
  have hw : load32 m (wordOf base p) &&& ~~~mask p = load32 m (wordOf base p) := by
    apply BitVec.eq_of_getLsbD_eq
    intro i hi
    rw [BitVec.getLsbD_and, BitVec.getLsbD_not, mask_getLsbD]
    rw [testBit_eq_getLsbD] at h
    by_cases he : p % 32 = i
    · simp [← he, h]
    · simp [he, hi]
  rw [clearBit, hw, store32_load32_self]

theorem setBit_frame (m : Mem) (base p : Nat) : Frame (wordOf base p) 4 m (setBit m base p) :=
  store32_frame _ _ _

theorem clearBit_frame (m : Mem) (base p : Nat) : Frame (wordOf base p) 4 m (clearBit m base p) :=
  store32_frame _ _ _

/-- A bit survives a store apart from its word. -/
theorem testBit_frame {a n base p : Nat} {m m' : Mem} (h : Frame a n m m')
    (hs : Sep a n (wordOf base p) 4) : testBit m' base p = testBit m base p := by
  simp only [testBit, load32_frame h hs]

/-- After zeroing `n` words the bits in them are clear and the others as before. -/
theorem testBit_fill_zero (m : Mem) (base n : Nat) (hn : 4 * n ≤ 4294967296) {p : Nat}
    (hp : p < 4294967296) : testBit (fill base (fun _ => 0#32) n m) base p =
      (!decide (p < 32 * n) && testBit m base p) := by
  by_cases hlt : p < 32 * n
  · have hz := fill_load base (fun _ => 0#32) n m hn (i := p / 32) (by omega)
    rw [testBit, wordOf, hz]
    simp [hlt]
  · rw [testBit_frame (fill_frame base (fun _ => 0#32) n m)]
    · simp [hlt]
    · have := sep_of_offset (a := base) (i := 0) (n := 4 * n) (j := 4 * (p / 32)) (k := 4)
        (by omega) (by omega) (by omega)
      simpa [wordOf] using this

/-- The number of clear bits below `n`. -/
def clearCount (m : Mem) (base n : Nat) : Nat := Nat.count (fun p => testBit m base p = false) n

theorem clearCount_le (m : Mem) (base n : Nat) : clearCount m base n ≤ n :=
  Nat.count_le _

theorem clearCount_congr {m m' : Mem} {base n : Nat}
    (h : ∀ p < n, testBit m' base p = testBit m base p) :
    clearCount m' base n = clearCount m base n := by
  apply Nat.le_antisymm
  · exact Nat.count_mono_left (fun p hp hc => (h p hp).symm.trans hc)
  · exact Nat.count_mono_left (fun p hp hc => (h p hp).trans hc)

/-- Two predicates that differ at one point below `n` differ by one in their counts. -/
theorem count_flip {P Q : Nat → Prop} [DecidablePred P] [DecidablePred Q] {k n : Nat}
    (hk : k < n) (hP : P k) (hQ : ¬Q k) (h : ∀ i, i ≠ k → (P i ↔ Q i)) :
    Nat.count P n = Nat.count Q n + 1 := by
  induction n with
  | zero => omega
  | succ n ih =>
    rw [Nat.count_succ, Nat.count_succ]
    by_cases he : n = k
    · subst he
      have hle : Nat.count P n = Nat.count Q n := by
        apply Nat.le_antisymm
        · exact Nat.count_mono_left (fun i hi hp => (h i (by omega)).mp hp)
        · exact Nat.count_mono_left (fun i hi hq => (h i (by omega)).mpr hq)
      simp [hP, hQ, hle]
    · have hi := ih (by omega)
      have hiff := h n he
      by_cases hp : P n
      · simp only [hp, hiff.mp hp, if_true]
        omega
      · have hq : ¬Q n := fun hq => hp (hiff.mpr hq)
        simp only [hp, hq, if_false]
        omega

theorem clearCount_setBit {m : Mem} {base p n : Nat} (hn : n ≤ 4294967296) (hp : p < n)
    (h : testBit m base p = false) :
    clearCount m base n = clearCount (setBit m base p) base n + 1 := by
  have hcongr : clearCount (setBit m base p) base n =
      Nat.count (fun q => q ≠ p ∧ testBit m base q = false) n := by
    apply Nat.le_antisymm
    · refine Nat.count_mono_left (fun q hq hc => ?_)
      rw [testBit_setBit m base (by omega) (by omega)] at hc
      simpa using hc
    · refine Nat.count_mono_left (fun q hq hc => ?_)
      rw [testBit_setBit m base (by omega) (by omega)]
      simpa using hc
  rw [hcongr, clearCount]
  exact count_flip hp h (by simp) (fun i hi => by simp [hi])

theorem clearCount_clearBit {m : Mem} {base p n : Nat} (hn : n ≤ 4294967296) (hp : p < n)
    (h : testBit m base p = true) :
    clearCount (clearBit m base p) base n = clearCount m base n + 1 := by
  have hset : testBit (clearBit m base p) base p = false := by
    rw [testBit_clearBit m base (by omega) (by omega)]
    simp
  have hback := clearCount_setBit hn hp hset
  rw [hback, Nat.add_right_cancel_iff]
  apply clearCount_congr
  intro q hq
  rw [testBit_setBit _ _ (by omega) (by omega), testBit_clearBit _ _ (by omega) (by omega)]
  by_cases he : q = p
  · simp [he, h]
  · simp [he]

end PackedBits
