import Nyrix.Base.ByteMemory

/-!
# Bytes inverted in place

Inverting bytes where they are is undone by doing it again. When several places are inverted
one after the other, a byte has changed in the end if an odd number of them holds it.
-/

namespace Inversion

open ByteMemory

/-- The memory with the bytes of a set inverted. -/
def invertOn (p : BitVec 32 → Bool) (m : Mem) : Mem := fun a => if p a then ~~~m a else m a

theorem invertOn_invertOn (p q : BitVec 32 → Bool) (m : Mem) :
    invertOn p (invertOn q m) = invertOn (fun a => q a ^^ p a) m := by
  funext a
  cases hp : p a <;> cases hq : q a <;> simp [invertOn, hp, hq]

theorem invertOn_self (p : BitVec 32 → Bool) (m : Mem) : invertOn p (invertOn p m) = m := by
  rw [invertOn_invertOn]
  funext a
  simp [invertOn]

/-- The bytes of the word at an offset. -/
def wordAt (off : Nat) (a : BitVec 32) : Bool :=
  (List.range 4).any fun i => a == BitVec.ofNat 32 (off + i)

theorem wordAt_iff {off : Nat} {a : BitVec 32} :
    wordAt off a = true ↔ ∃ i < 4, a = BitVec.ofNat 32 (off + i) := by
  simp only [wordAt, List.any_eq_true, List.mem_range, beq_iff_eq]

theorem byteOf_not (w : BitVec 32) {i : Nat} (hi : i < 4) : byteOf (~~~w) i = ~~~byteOf w i := by
  have hw := w.isLt
  apply BitVec.eq_of_toNat_eq
  simp only [byteOf, BitVec.toNat_ofNat, BitVec.toNat_not]
  obtain rfl | rfl | rfl | rfl : i = 0 ∨ i = 1 ∨ i = 2 ∨ i = 3 := by omega
  all_goals omega

/-- A word replaced by its complement. -/
theorem store32_not (m : Mem) (off : Nat) :
    store32 m off (~~~load32 m off) = invertOn (wordAt off) m := by
  funext a
  by_cases hin : ∃ i < 4, a = BitVec.ofNat 32 (off + i)
  · have hon := wordAt_iff.mpr hin
    obtain ⟨i, hi, rfl⟩ := hin
    have hbyte := load8_store32 m off (~~~load32 m off) hi
    rw [byteOf_not _ hi, byteOf_load32 m off hi] at hbyte
    rw [invertOn, if_pos hon]
    exact hbyte
  · have hoff := mt wordAt_iff.mp hin
    have hsep : Sep off 4 a.toNat 1 := by
      intro i hi j hj he
      refine hin ⟨i, hi, BitVec.eq_of_toNat_eq ?_⟩
      have ha := a.isLt
      rw [BitVec.toNat_ofNat]
      omega
    have hbyte := store32_frame m off (~~~load32 m off) a.toNat hsep
    rw [load8, load8, BitVec.ofNat_toNat, BitVec.setWidth_eq] at hbyte
    rw [invertOn, if_neg hoff]
    exact hbyte

/-- Whether an odd number of the first places holds a byte. -/
def odd (p : Nat → BitVec 32 → Bool) : Nat → BitVec 32 → Bool
  | 0, _ => false
  | n + 1, a => odd p n a ^^ p n a

/-- Places without a common byte. -/
theorem odd_iff {p : Nat → BitVec 32 → Bool} {n : Nat} {a : BitVec 32}
    (h : ∀ i < n, ∀ j < n, p i a = true → p j a = true → i = j) :
    odd p n a = true ↔ ∃ i < n, p i a = true := by
  induction n with
  | zero => simp [odd]
  | succ n ih =>
    have hprev := ih fun i hi j hj => h i (Nat.lt_succ_of_lt hi) j (Nat.lt_succ_of_lt hj)
    cases hn : p n a with
    | false =>
      rw [odd, hn, Bool.xor_false, hprev]
      constructor
      · rintro ⟨i, hi, hp⟩
        exact ⟨i, Nat.lt_succ_of_lt hi, hp⟩
      · rintro ⟨i, hi, hp⟩
        refine ⟨i, Nat.lt_of_le_of_ne (Nat.le_of_lt_succ hi) ?_, hp⟩
        rintro rfl
        exact absurd (hp.symm.trans hn) (by decide)
    | true =>
      have hnone : ¬odd p n a = true := by
        rw [hprev]
        rintro ⟨i, hi, hp⟩
        have heq := h i (Nat.lt_succ_of_lt hi) n (Nat.lt_succ_self n) hp hn
        omega
      rw [odd, hn, Bool.not_eq_true _ |>.mp hnone]
      exact iff_of_true rfl ⟨n, Nat.lt_succ_self n, hn⟩

/-- A byte met an odd number of times is met. -/
theorem odd_exists {p : Nat → BitVec 32 → Bool} {n : Nat} {a : BitVec 32}
    (h : odd p n a = true) : ∃ i < n, p i a = true := by
  induction n with
  | zero => cases h
  | succ n ih =>
    by_cases hn : p n a = true
    · exact ⟨n, Nat.lt_succ_self n, hn⟩
    · rw [odd, Bool.not_eq_true _ |>.mp hn, Bool.xor_false] at h
      obtain ⟨i, hi, hp⟩ := ih h
      exact ⟨i, Nat.lt_succ_of_lt hi, hp⟩

end Inversion
