import Nyrix.Base.ByteMemory

/-!
# The Multiboot2 memory map

The map is an array of packed 24-byte `multiboot2_mmap_entry` records in physical
memory: a 64-bit base, a 64-bit length, a type, and a reserved word. Type 1 is usable
memory.
-/

namespace Multiboot

open ByteMemory

structure MmapEntry where
  addr : BitVec 64
  len : BitVec 64
  type : BitVec 32
  deriving DecidableEq

/-- `sizeof(multiboot2_mmap_entry)`. -/
def entrySize : Nat := 24

/-- The entry a `multiboot2_mmap_entry *` points to. -/
def entryAt (m : Mem) (p : Nat) : MmapEntry :=
  ⟨load64 m p, load64 m (p + 8), load32 m (p + 16)⟩

/-- The `n` entries the boot loader laid out from `mmapAddr` on. -/
def mmapEntries (m : Mem) (mmapAddr n : Nat) : List MmapEntry :=
  (List.range n).map (fun i => entryAt m (mmapAddr + entrySize * i))

/-- The page numbered `p` lies wholly inside a usable entry of the map. -/
def Usable (entries : List MmapEntry) (p : Nat) : Prop :=
  ∃ e ∈ entries, e.type = 1#32 ∧ e.addr.toNat ≤ 4096 * p ∧
    4096 * (p + 1) ≤ e.addr.toNat + e.len.toNat

instance (entries : List MmapEntry) (p : Nat) : Decidable (Usable entries p) :=
  inferInstanceAs (Decidable (∃ e ∈ entries, _))

/-- The page numbered `p` shares a byte with an entry of another type. -/
def TouchesReserved (entries : List MmapEntry) (p : Nat) : Prop :=
  ∃ e ∈ entries, e.type ≠ 1#32 ∧
    ∃ a, a / 4096 = p ∧ e.addr.toNat ≤ a ∧ a < e.addr.toNat + e.len.toNat

theorem touchesReserved_iff (entries : List MmapEntry) (p : Nat) :
    TouchesReserved entries p ↔ ∃ e ∈ entries, e.type ≠ 1#32 ∧ 0 < e.len.toNat ∧
      e.addr.toNat < 4096 * (p + 1) ∧ 4096 * p < e.addr.toNat + e.len.toNat := by
  constructor
  · rintro ⟨e, he, htype, a, rfl, hle, hlt⟩
    exact ⟨e, he, htype, by omega, by omega, by omega⟩
  · rintro ⟨e, he, htype, hlen, hbelow, habove⟩
    exact ⟨e, he, htype, max e.addr.toNat (4096 * p), by omega, by omega, by omega⟩

instance (entries : List MmapEntry) (p : Nat) : Decidable (TouchesReserved entries p) :=
  decidable_of_iff _ (touchesReserved_iff entries p).symm

/-- An entry depends on its bytes only. -/
theorem entryAt_congr {m m' : Mem} {p : Nat}
    (h : ∀ i < entrySize, load8 m' (p + i) = load8 m (p + i)) : entryAt m' p = entryAt m p := by
  have hword : ∀ i, i + 4 ≤ entrySize → load32 m' (p + i) = load32 m (p + i) := by
    intro i hi
    apply load32_congr
    intro j hj
    rw [Nat.add_assoc]
    exact h (i + j) (by omega)
  have h0 : load32 m' p = load32 m p := hword 0 (by decide)
  have h12 : load32 m' (p + 8 + 4) = load32 m (p + 8 + 4) := hword 12 (by decide)
  simp only [entryAt, load64, h0, hword 4 (by decide), hword 8 (by decide), h12,
    hword 16 (by decide)]

theorem entryAt_frame {a n p : Nat} {m m' : Mem} (h : Frame a n m m') (hs : Sep a n p 20) :
    entryAt m' p = entryAt m p := by
  simp only [entryAt, load64_frame h (sep_front hs 8 (by decide)),
    load64_frame h (sep_right hs 8 8 (by decide)), load32_frame h (sep_right hs 16 4 (by decide))]

/-- The 20 bytes of an entry that carry information, as the boot loader writes them. -/
def storeEntry (m : Mem) (p : Nat) (e : MmapEntry) : Mem :=
  store32 (store32 (store32 (store32 (store32 m
    p (e.addr.setWidth 32))
    (p + 4) ((e.addr >>> 32).setWidth 32))
    (p + 8) (e.len.setWidth 32))
    (p + 12) ((e.len >>> 32).setWidth 32))
    (p + 16) e.type

theorem split64 (x : BitVec 64) :
    BitVec.ofNat 64 ((x.setWidth 32).toNat + 4294967296 * ((x >>> 32).setWidth 32).toNat) = x := by
  have hx := x.isLt
  apply BitVec.eq_of_toNat_eq
  simp only [BitVec.toNat_ofNat, BitVec.toNat_setWidth, BitVec.toNat_ushiftRight,
    Nat.shiftRight_eq_div_pow]
  omega

/-- Reading an entry back yields what was written. -/
@[simp] theorem entryAt_storeEntry (m : Mem) (p : Nat) (e : MmapEntry) :
    entryAt (storeEntry m p e) p = e := by
  have hsep : ∀ i j, (i + 4 ≤ j ∨ j + 4 ≤ i) → i ≤ 16 → j ≤ 16 → Sep (p + i) 4 (p + j) 4 :=
    fun i j h hi hj => sep_of_offset h (by omega) (by omega)
  have h0 : ∀ j, 4 ≤ j → j ≤ 16 → Sep (p + j) 4 p 4 := fun j h hj => by
    simpa using hsep j 0 (.inr h) hj (by decide)
  have hw : load32 (storeEntry m p e) p = e.addr.setWidth 32 ∧
      load32 (storeEntry m p e) (p + 4) = (e.addr >>> 32).setWidth 32 ∧
      load32 (storeEntry m p e) (p + 8) = e.len.setWidth 32 ∧
      load32 (storeEntry m p e) (p + 12) = (e.len >>> 32).setWidth 32 ∧
      load32 (storeEntry m p e) (p + 16) = e.type := by
    simp only [storeEntry]
    refine ⟨?_, ?_, ?_, ?_, ?_⟩
    · rw [load32_store32_of_sep _ _ _ _ (h0 16 (by decide) (by decide)),
        load32_store32_of_sep _ _ _ _ (h0 12 (by decide) (by decide)),
        load32_store32_of_sep _ _ _ _ (h0 8 (by decide) (by decide)),
        load32_store32_of_sep _ _ _ _ (h0 4 (by decide) (by decide)), load32_store32_same]
    · rw [load32_store32_of_sep _ _ _ _ (hsep 16 4 (by decide) (by decide) (by decide)),
        load32_store32_of_sep _ _ _ _ (hsep 12 4 (by decide) (by decide) (by decide)),
        load32_store32_of_sep _ _ _ _ (hsep 8 4 (by decide) (by decide) (by decide)),
        load32_store32_same]
    · rw [load32_store32_of_sep _ _ _ _ (hsep 16 8 (by decide) (by decide) (by decide)),
        load32_store32_of_sep _ _ _ _ (hsep 12 8 (by decide) (by decide) (by decide)),
        load32_store32_same]
    · rw [load32_store32_of_sep _ _ _ _ (hsep 16 12 (by decide) (by decide) (by decide)),
        load32_store32_same]
    · rw [load32_store32_same]
  obtain ⟨ha, ha', hl, hl', ht⟩ := hw
  simp only [entryAt, load64, show p + 8 + 4 = p + 12 from rfl, ha, ha', hl, hl', ht, split64]

theorem storeEntry_frame (m : Mem) (p : Nat) (e : MmapEntry) :
    Frame p entrySize m (storeEntry m p e) := by
  have h : ∀ i m w, i ≤ 20 → Frame p entrySize m (store32 m (p + i) w) := fun i m w hi =>
    frame_sub (store32_frame m (p + i) w) (by simp only [entrySize]; omega)
  have h0 : ∀ m w, Frame p entrySize m (store32 m p w) := fun m w => by
    simpa using h 0 m w (by decide)
  simp only [storeEntry]
  exact frame_trans (frame_trans (frame_trans (frame_trans (h0 _ _) (h 4 _ _ (by decide)))
    (h 8 _ _ (by decide))) (h 12 _ _ (by decide))) (h 16 _ _ (by decide))

/-- A machine with memory from 1 MiB to 128 MiB and nothing else. -/
def ramEntry : MmapEntry := ⟨0x100000, 0x7F00000, 1⟩

/-- Its one-entry map at 0x9000. -/
def ramMem : Mem := storeEntry (fun _ => 0) 0x9000 ramEntry

theorem ramMem_entries : mmapEntries ramMem 0x9000 1 = [ramEntry] := by
  simp [mmapEntries, ramMem]

end Multiboot
