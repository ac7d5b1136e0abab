import Nyrix.Base.ByteMemory

/-!
# Byte strings in memory

What a list of bytes laid out from an address on says about the words read there.
-/

namespace ByteLayout

open ByteMemory

/-- The bytes of a word, least significant first. -/
def le32 (w : BitVec 32) : List (BitVec 8) := (List.range 4).map (byteOf w)

def le64 (w : BitVec 64) : List (BitVec 8) :=
  le32 (w.setWidth 32) ++ le32 ((w >>> 32).setWidth 32)

@[simp] theorem length_le32 (w : BitVec 32) : (le32 w).length = 4 := by simp [le32]

@[simp] theorem length_le64 (w : BitVec 64) : (le64 w).length = 8 := by simp [le64]

/-- The bytes stand in memory one after the other. -/
def Holds (m : Mem) : Nat → List (BitVec 8) → Prop
  | _, [] => True
  | a, b :: bs => load8 m a = b ∧ Holds m (a + 1) bs

variable {m : Mem} {a : Nat}

@[simp] theorem holds_nil : Holds m a [] ↔ True := Iff.rfl

@[simp] theorem holds_cons {b : BitVec 8} {bs : List (BitVec 8)} :
    Holds m a (b :: bs) ↔ load8 m a = b ∧ Holds m (a + 1) bs := Iff.rfl

theorem holds_append {bs cs : List (BitVec 8)} :
    Holds m a (bs ++ cs) ↔ Holds m a bs ∧ Holds m (a + bs.length) cs := by
  induction bs generalizing a with
  | nil => simp
  | cons b bs ih =>
    have hnext : a + (b :: bs).length = a + 1 + bs.length := by
      rw [List.length_cons]
      omega
    rw [List.cons_append, holds_cons, ih, holds_cons, hnext, and_assoc]

/-- A word whose bytes are known. -/
theorem load32_of_bytes {w : BitVec 32} (h : ∀ i < 4, load8 m (a + i) = byteOf w i) :
    load32 m a = w := by
  rw [← load32_store32_same m a w]
  apply load32_congr
  intro i hi
  rw [h i hi, load8_store32 m a w hi]

theorem holds_le32 {w : BitVec 32} : Holds m a (le32 w) ↔ load32 m a = w := by
  have hbytes : Holds m a (le32 w) ↔ ∀ i < 4, load8 m (a + i) = byteOf w i := by
    constructor
    · rintro ⟨h0, h1, h2, h3, -⟩ i hi
      obtain rfl | rfl | rfl | rfl : i = 0 ∨ i = 1 ∨ i = 2 ∨ i = 3 := by omega
      · exact h0
      · exact h1
      · exact h2
      · exact h3
    · intro h
      exact ⟨h 0 (by decide), h 1 (by decide), h 2 (by decide), h 3 (by decide), trivial⟩
  rw [hbytes]
  constructor
  · exact load32_of_bytes
  · rintro rfl i hi
    rw [byteOf_load32 m a hi]

theorem load64_of_holds {w : BitVec 64} (h : Holds m a (le64 w)) : load64 m a = w := by
  rw [le64, holds_append, holds_le32, length_le32, holds_le32] at h
  have hw := w.isLt
  rw [load64, h.1, h.2]
  apply BitVec.eq_of_toNat_eq
  simp only [BitVec.toNat_ofNat, BitVec.toNat_setWidth, BitVec.toNat_ushiftRight,
    Nat.shiftRight_eq_div_pow]
  omega

/-- A memory that holds a byte string and nothing else. -/
def memory (base : Nat) (bs : List (BitVec 8)) : Mem := fun a => bs.getD (a.toNat - base) 0

theorem memory_holds_append {base : Nat} (pre : List (BitVec 8)) {bs : List (BitVec 8)}
    (h : base + (pre ++ bs).length ≤ 4294967296) :
    Holds (memory base (pre ++ bs)) (base + pre.length) bs := by
  induction bs generalizing pre with
  | nil => trivial
  | cons b bs ih =>
    constructor
    · have hlt : base + pre.length < 4294967296 := by
        rw [List.length_append, List.length_cons] at h
        omega
      simp [load8, memory, Nat.mod_eq_of_lt hlt]
    · have hsplit : pre ++ b :: bs = (pre ++ [b]) ++ bs := by simp
      have hnext : base + pre.length + 1 = base + (pre ++ [b]).length := by
        rw [List.length_append, List.length_singleton, Nat.add_assoc]
      rw [hsplit, hnext]
      apply ih
      rwa [← hsplit]

end ByteLayout
