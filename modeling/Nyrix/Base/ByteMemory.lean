import Mathlib.Algebra.Group.Nat.Defs
import Mathlib.Logic.Function.Basic

/-!
# Byte-addressed memory with a 32-bit address space

Addresses are naturals read modulo `2 ^ 32`, so a pointer computation that wraps
wraps here too. Words are little-endian. A store is described by the region it may
touch (`Frame`); two regions that share no byte are apart (`Sep`).
-/

namespace ByteMemory

abbrev Mem := BitVec 32 → BitVec 8

def load8 (m : Mem) (a : Nat) : BitVec 8 := m (BitVec.ofNat 32 a)

def store8 (m : Mem) (a : Nat) (v : BitVec 8) : Mem :=
  Function.update m (BitVec.ofNat 32 a) v

/-- Byte `i` of a word, least significant first. -/
def byteOf (w : BitVec 32) (i : Nat) : BitVec 8 := BitVec.ofNat 8 (w.toNat / 256 ^ i)

def load32 (m : Mem) (a : Nat) : BitVec 32 :=
  BitVec.ofNat 32 ((load8 m a).toNat + 256 * (load8 m (a + 1)).toNat
    + 65536 * (load8 m (a + 2)).toNat + 16777216 * (load8 m (a + 3)).toNat)

def store32 (m : Mem) (a : Nat) (w : BitVec 32) : Mem :=
  store8 (store8 (store8 (store8 m a (byteOf w 0)) (a + 1) (byteOf w 1))
    (a + 2) (byteOf w 2)) (a + 3) (byteOf w 3)

def load64 (m : Mem) (a : Nat) : BitVec 64 :=
  BitVec.ofNat 64 ((load32 m a).toNat + 4294967296 * (load32 m (a + 4)).toNat)

/-- The `n` bytes from `a` and the `k` bytes from `b` have no address in common. -/
def Sep (a n b k : Nat) : Prop :=
  ∀ i < n, ∀ j < k, (a + i) % 4294967296 ≠ (b + j) % 4294967296

/-- `m'` differs from `m` in the `n` bytes from `a` at most. -/
def Frame (a n : Nat) (m m' : Mem) : Prop :=
  ∀ b, Sep a n b 1 → load8 m' b = load8 m b

theorem sep_comm {a n b k : Nat} (h : Sep a n b k) : Sep b k a n :=
  fun i hi j hj => Ne.symm (h j hj i hi)

/-- Regions that do not wrap are apart when one ends before the other begins. -/
theorem sep_of_le {a n b k : Nat} (h : a + n ≤ b) (hb : b + k ≤ 4294967296) : Sep a n b k := by
  intro i hi j hj
  omega

theorem sep_of_ge {a n b k : Nat} (h : b + k ≤ a) (ha : a + n ≤ 4294967296) : Sep a n b k :=
  sep_comm (sep_of_le h ha)

/-- Two sub-regions of one region that does not overlap itself. -/
theorem sep_of_offset {a i n j k : Nat} (hi : i + n ≤ j ∨ j + k ≤ i)
    (hn : i + n ≤ 4294967296) (hk : j + k ≤ 4294967296) : Sep (a + i) n (a + j) k := by
  intro x hx y hy
  omega

/-- A region apart from another is apart from each part of it. -/
theorem sep_right {a n b k : Nat} (h : Sep a n b k) (j l : Nat) (hj : j + l ≤ k) :
    Sep a n (b + j) l := by
  intro x hx y hy
  have := h x hx (j + y) (by omega)
  rwa [← Nat.add_assoc] at this

theorem sep_front {a n b k : Nat} (h : Sep a n b k) (l : Nat) (hl : l ≤ k) : Sep a n b l :=
  fun x hx y hy => h x hx y (by omega)

theorem sep_left {a n b k : Nat} (h : Sep a n b k) (i l : Nat) (hi : i + l ≤ n) :
    Sep (a + i) l b k := sep_comm (sep_right (sep_comm h) i l hi)

/-- Two adjacent regions. -/
theorem sep_join {a n n' b k : Nat} (h : Sep a n b k) (h' : Sep (a + n) n' b k) :
    Sep a (n + n') b k := by
  intro i hi j hj
  by_cases hin : i < n
  · exact h i hin j hj
  · have hrest := h' (i - n) (by omega) j hj
    have he : a + n + (i - n) = a + i := by omega
    rwa [he] at hrest

theorem frame_refl (a n : Nat) (m : Mem) : Frame a n m m := fun _ _ => rfl

theorem frame_trans {a n : Nat} {m m' m'' : Mem} (h : Frame a n m m') (h' : Frame a n m' m'') :
    Frame a n m m'' := fun b hb => (h' b hb).trans (h b hb)

theorem frame_sub {a n i n' : Nat} {m m' : Mem} (h : Frame (a + i) n' m m')
    (hi : i + n' ≤ n) : Frame a n m m' := by
  intro b hb
  exact h b (sep_left hb i n' hi)

/-- The same with absolute bounds. -/
theorem frame_mono {a n a' n' : Nat} {m m' : Mem} (h : Frame a' n' m m') (ha : a ≤ a')
    (hn : a' + n' ≤ a + n) : Frame a n m m' := by
  have he : a' = a + (a' - a) := by omega
  rw [he] at h
  exact frame_sub h (by omega)

@[simp] theorem load8_store8_same (m : Mem) (a : Nat) (v : BitVec 8) :
    load8 (store8 m a v) a = v := by simp [load8, store8]

theorem load8_store8_of_ne (m : Mem) (a b : Nat) (v : BitVec 8)
    (h : a % 4294967296 ≠ b % 4294967296) : load8 (store8 m a v) b = load8 m b := by
  have hne : BitVec.ofNat 32 b ≠ BitVec.ofNat 32 a := by
    intro he
    exact h (by simpa using (congrArg BitVec.toNat he).symm)
  simp [load8, store8, Function.update_of_ne hne]

theorem store8_frame (m : Mem) (a : Nat) (v : BitVec 8) : Frame a 1 m (store8 m a v) := by
  intro b hb
  exact load8_store8_of_ne m a b v (hb 0 (by decide) 0 (by decide))

theorem store32_frame (m : Mem) (a : Nat) (w : BitVec 32) : Frame a 4 m (store32 m a w) := by
  intro b hb
  have h0 := hb 0 (by decide) 0 (by decide)
  have h1 := hb 1 (by decide) 0 (by decide)
  have h2 := hb 2 (by decide) 0 (by decide)
  have h3 := hb 3 (by decide) 0 (by decide)
  simp only [Nat.add_zero] at h0 h1 h2 h3
  simp only [store32]
  rw [load8_store8_of_ne _ _ _ _ h3, load8_store8_of_ne _ _ _ _ h2,
    load8_store8_of_ne _ _ _ _ h1, load8_store8_of_ne _ _ _ _ h0]

/-- A word depends on its four bytes only. -/
theorem load32_congr {m m' : Mem} {a b : Nat} (h : ∀ i < 4, load8 m' (b + i) = load8 m (a + i)) :
    load32 m' b = load32 m a := by
  have h0 := h 0 (by decide)
  have h1 := h 1 (by decide)
  have h2 := h 2 (by decide)
  have h3 := h 3 (by decide)
  simp only [Nat.add_zero] at h0
  simp only [load32, h0, h1, h2, h3]

theorem load32_frame {a n b : Nat} {m m' : Mem} (h : Frame a n m m') (hs : Sep a n b 4) :
    load32 m' b = load32 m b := by
  apply load32_congr
  intro i hi
  exact h _ (sep_right hs i 1 (by omega))

theorem load64_frame {a n b : Nat} {m m' : Mem} (h : Frame a n m m') (hs : Sep a n b 8) :
    load64 m' b = load64 m b := by
  simp only [load64, load32_frame h (sep_front hs 4 (by decide)),
    load32_frame h (sep_right hs 4 4 (by decide))]

theorem load8_store32 (m : Mem) (a : Nat) (w : BitVec 32) {i : Nat} (hi : i < 4) :
    load8 (store32 m a w) (a + i) = byteOf w i := by
  rw [store32]
  obtain rfl | rfl | rfl | rfl : i = 0 ∨ i = 1 ∨ i = 2 ∨ i = 3 := by omega
  · rw [load8_store8_of_ne _ _ _ _ (by omega), load8_store8_of_ne _ _ _ _ (by omega),
      load8_store8_of_ne _ _ _ _ (by omega), Nat.add_zero, load8_store8_same]
  · rw [load8_store8_of_ne _ _ _ _ (by omega), load8_store8_of_ne _ _ _ _ (by omega),
      load8_store8_same]
  · rw [load8_store8_of_ne _ _ _ _ (by omega), load8_store8_same]
  · rw [load8_store8_same]

@[simp] theorem load32_store32_same (m : Mem) (a : Nat) (w : BitVec 32) :
    load32 (store32 m a w) a = w := by
  have hw := w.isLt
  have hb0 : load8 (store32 m a w) a = byteOf w 0 := load8_store32 m a w (i := 0) (by decide)
  have hb1 := load8_store32 m a w (i := 1) (by decide)
  have hb2 := load8_store32 m a w (i := 2) (by decide)
  have hb3 := load8_store32 m a w (i := 3) (by decide)
  apply BitVec.eq_of_toNat_eq
  simp only [load32, hb0, hb1, hb2, hb3, byteOf, BitVec.toNat_ofNat]
  omega

theorem load32_store32_of_sep (m : Mem) (a b : Nat) (w : BitVec 32) (h : Sep a 4 b 4) :
    load32 (store32 m a w) b = load32 m b := load32_frame (store32_frame m a w) h

theorem load8_mod (m : Mem) (a : Nat) : load8 m (a % 4294967296) = load8 m a := by
  have ha : BitVec.ofNat 32 (a % 4294967296) = BitVec.ofNat 32 a := by
    apply BitVec.eq_of_toNat_eq
    simp only [BitVec.toNat_ofNat]
    omega
  simp only [load8, ha]

/-- Addresses are read modulo the size of the address space. -/
theorem load32_mod (m : Mem) (a : Nat) : load32 m (a % 4294967296) = load32 m a := by
  have h : ∀ i, load8 m (a % 4294967296 + i) = load8 m (a + i) := by
    intro i
    rw [← load8_mod m (a % 4294967296 + i), ← load8_mod m (a + i)]
    congr 1
    omega
  simp only [load32, h, load8_mod]

/-- Memories are equal when every address holds the same byte. -/
theorem mem_ext {m m' : Mem} (h : ∀ a < 4294967296, load8 m' a = load8 m a) : m' = m := by
  funext x
  have := h x.toNat x.isLt
  simpa [load8] using this

theorem byteOf_load32 (m : Mem) (a : Nat) {i : Nat} (hi : i < 4) :
    byteOf (load32 m a) i = load8 m (a + i) := by
  have h0 := (load8 m a).isLt
  have h1 := (load8 m (a + 1)).isLt
  have h2 := (load8 m (a + 2)).isLt
  have h3 := (load8 m (a + 3)).isLt
  apply BitVec.eq_of_toNat_eq
  simp only [byteOf, load32, BitVec.toNat_ofNat]
  obtain rfl | rfl | rfl | rfl : i = 0 ∨ i = 1 ∨ i = 2 ∨ i = 3 := by omega
  · simp only [Nat.add_zero]
    omega
  all_goals omega

/-- Writing back what a word holds changes nothing. -/
theorem store32_load32_self (m : Mem) (a : Nat) : store32 m a (load32 m a) = m := by
  have hself : ∀ (b : Nat), store8 m b (load8 m b) = m := fun b => Function.update_eq_self _ _
  have h0 : byteOf (load32 m a) 0 = load8 m a := byteOf_load32 m a (i := 0) (by decide)
  simp only [store32, h0, byteOf_load32 m a (i := 1) (by decide),
    byteOf_load32 m a (i := 2) (by decide), byteOf_load32 m a (i := 3) (by decide), hself]

/-- A byte of a word just stored does not depend on what was there before. -/
theorem load8_store32_inside {a b : Nat} (m m' : Mem) (w : BitVec 32) (h : ¬Sep a 4 b 1) :
    load8 (store32 m a w) b = load8 (store32 m' a w) b := by
  obtain ⟨i, hi, he⟩ : ∃ i < 4, BitVec.ofNat 32 b = BitVec.ofNat 32 (a + i) := by
    by_contra hne
    refine h fun i hi j hj he => hne ⟨i, hi, ?_⟩
    apply BitVec.eq_of_toNat_eq
    simp only [BitVec.toNat_ofNat]
    omega
  simp only [load8, store32, store8, Function.update_apply, he]
  obtain rfl | rfl | rfl | rfl : i = 0 ∨ i = 1 ∨ i = 2 ∨ i = 3 := by omega
  all_goals simp only [Nat.add_zero, if_true]

/-- Stores to words that are apart commute. -/
theorem store32_comm (m : Mem) (a b : Nat) (v w : BitVec 32) (h : Sep a 4 b 4) :
    store32 (store32 m a v) b w = store32 (store32 m b w) a v := by
  apply mem_ext
  intro x _
  by_cases ha : Sep a 4 x 1
  · rw [store32_frame (store32 m b w) a v x ha]
    by_cases hb : Sep b 4 x 1
    · rw [store32_frame (store32 m a v) b w x hb, store32_frame m a v x ha,
        store32_frame m b w x hb]
    · exact load8_store32_inside _ _ w hb
  · have hb : Sep b 4 x 1 := by
      intro j hj k hk he
      refine ha fun i hi l hl he' => h i hi j hj ?_
      obtain rfl : k = l := by omega
      exact he'.trans he.symm
    rw [store32_frame (store32 m a v) b w x hb]
    exact load8_store32_inside _ _ v ha

end ByteMemory
