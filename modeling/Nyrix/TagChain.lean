import Nyrix.TagScan

/-!
# When the tag loop is safe

The loop trusts the sizes it reads. It ends inside the block exactly when these lead from tag
to tag to an end tag there.
-/

namespace TagScan

open BoundedLoop ByteMemory ByteLayout

/-- The `n` bytes from an address on are bytes of the block, whose first word is its size. -/
def Inside (m : Mem) (info a : BitVec 32) (n : Nat) : Prop :=
  ∀ i < n, (a + BitVec.ofNat 32 i - info).toNat < (load32 m info.toNat).toNat

instance (m : Mem) (info a : BitVec 32) (n : Nat) : Decidable (Inside m info a n) :=
  Nat.decidableBallLT n _

/-- The reads of the loop's test and, where it goes on, of its body, as address and length. -/
def reads (m : Mem) (s : Scan) : List (BitVec 32 × Nat) :=
  (s.tag, 4) :: if more m s then
    (if tagType m s.tag = 8#32 then
        [(s.tag + 8#32, 8), (s.tag + 16#32, 4), (s.tag + 20#32, 4), (s.tag + 24#32, 4),
          (s.tag + 28#32, 1)]
      else if tagType m s.tag = 6#32 then [(s.tag + 4#32, 4)]
      else []) ++ [(s.tag + 4#32, 4)]
  else []

/-- The range taken from a memory-map tag ends where the tag ends, or before. -/
def RangeFits (m : Mem) (s : Scan) : Prop := tagType m s.tag = 6#32 →
  ((visit m s).mmapAddr - s.tag).toNat + (visit m s).mmapLength.toNat ≤ (tagSize m s.tag).toNat

structure Safe (m : Mem) (info : BitVec 32) (s : Scan) : Prop where
  reads : ∀ r ∈ reads m s, Inside m info r.1 r.2
  range : RangeFits m s

/-- The scan ends, reads bytes of the block only, and takes no range past the end of its tag. -/
def ScanSafe (m : Mem) (info : BitVec 32) : Prop :=
  ∃ fuel s, scan m info fuel = some s ∧ (info ≠ 0#32 →
    (∀ t ∈ whileTrace (more m) (visit m) fuel (start info), Safe m info t) ∧ Safe m info s)

/-- The sizes lead from a tag of the block to the next up to an end tag. The header of each tag
lies in the block, as do the fields of a framebuffer tag, and a memory-map tag has room for its
own header. -/
inductive Chain (m : Mem) (info : BitVec 32) : BitVec 32 → Prop where
  | last {a : BitVec 32} (htype : tagType m a = 0#32) (hin : Inside m info a 4) : Chain m info a
  | tag {a : BitVec 32} (htype : tagType m a ≠ 0#32) (hin : Inside m info a 8)
      (hfb : tagType m a = 8#32 → Inside m info a 29)
      (hmmap : tagType m a = 6#32 → 16 ≤ (tagSize m a).toNat)
      (hnext : Chain m info (a + step (tagSize m a))) : Chain m info a

section Safe

variable {m : Mem} {info a : BitVec 32} {s : Scan}

theorem inside_add {k n : Nat} : Inside m info a (k + n) ↔
    Inside m info a k ∧ Inside m info (a + BitVec.ofNat 32 k) n := by
  constructor
  · intro h
    refine ⟨fun i hi => h i (by omega), fun i hi => ?_⟩
    have hcell := h (k + i) (by omega)
    rwa [BitVec.ofNat_add, ← BitVec.add_assoc] at hcell
  · rintro ⟨hk, hn⟩ i hi
    by_cases hlt : i < k
    · exact hk i hlt
    · have hcell := hn (i - k) (by omega)
      have hsplit : k + (i - k) = i := by omega
      rwa [BitVec.add_assoc, ← BitVec.ofNat_add, hsplit] at hcell

/-- The end tag. -/
theorem safe_last (htype : tagType m s.tag = 0#32) : Safe m info s ↔ Inside m info s.tag 4 := by
  have hmore : more m s = false := by simp [more, htype]
  constructor
  · intro h
    exact h.reads (s.tag, 4) (by simp [reads])
  · intro hin
    constructor
    · simpa [reads, hmore] using hin
    · intro hmmap
      rw [htype] at hmmap
      exact absurd hmmap (by decide)

theorem rangeFits_iff :
    RangeFits m s ↔ (tagType m s.tag = 6#32 → 16 ≤ (tagSize m s.tag).toNat) := by
  apply imp_congr_right
  intro hmmap
  have haddr : (visit m s).mmapAddr = s.tag + 16#32 := by simp [visit, hmmap]
  have hlength : (visit m s).mmapLength = tagSize m s.tag - 16#32 := by simp [visit, hmmap]
  rw [haddr, hlength]
  bv_omega

/-- The fields of a framebuffer tag, read one by one. -/
theorem inside_framebuffer : Inside m info a 29 ↔ Inside m info a 8 ∧
    Inside m info (a + 8#32) 8 ∧ Inside m info (a + 16#32) 4 ∧ Inside m info (a + 20#32) 4 ∧
    Inside m info (a + 24#32) 4 ∧ Inside m info (a + 28#32) 1 := by
  have h29 : Inside m info a 29 ↔ _ := inside_add (k := 28) (n := 1)
  have h28 : Inside m info a 28 ↔ _ := inside_add (k := 24) (n := 4)
  have h24 : Inside m info a 24 ↔ _ := inside_add (k := 20) (n := 4)
  have h20 : Inside m info a 20 ↔ _ := inside_add (k := 16) (n := 4)
  have h16 : Inside m info a 16 ↔ _ := inside_add (k := 8) (n := 8)
  rw [h29, h28, h24, h20, h16]
  simp only [and_assoc]

/-- Any other tag. -/
theorem safe_tag (htype : tagType m s.tag ≠ 0#32) : Safe m info s ↔ Inside m info s.tag 8 ∧
    (tagType m s.tag = 8#32 → Inside m info s.tag 29) ∧
    (tagType m s.tag = 6#32 → 16 ≤ (tagSize m s.tag).toNat) := by
  have hmore : more m s = true := by simp [more, htype]
  have hheader : Inside m info s.tag 8 ↔ _ := inside_add (k := 4) (n := 4)
  have hreads : (∀ r ∈ reads m s, Inside m info r.1 r.2) ↔ Inside m info s.tag 8 ∧
      (tagType m s.tag = 8#32 → Inside m info s.tag 29) := by
    by_cases hfb : tagType m s.tag = 8#32
    · rw [inside_framebuffer, hheader]
      simp [reads, hmore, hfb]
      tauto
    · rw [hheader]
      by_cases hmmap : tagType m s.tag = 6#32 <;> simp [reads, hmore, hfb, hmmap]
  constructor
  · intro h
    obtain ⟨hin, hfb⟩ := hreads.mp h.reads
    exact ⟨hin, hfb, rangeFits_iff.mp h.range⟩
  · rintro ⟨hin, hfb, hmmap⟩
    exact ⟨hreads.mpr ⟨hin, hfb⟩, rangeFits_iff.mpr hmmap⟩

theorem visit_tag (m : Mem) (s : Scan) : (visit m s).tag = s.tag + step (tagSize m s.tag) := by
  rw [visit]
  split_ifs <;> rfl

/-- The chain of tags is the loop, seen from its addresses. -/
theorem chain_iff : Chain m info s.tag ↔ Ends (more m) (visit m) (Safe m info) s := by
  constructor
  · intro h
    generalize htag : s.tag = a at h
    induction h generalizing s with
    | last htype hin =>
      subst htag
      exact .exit ((safe_last htype).mpr hin) (by simp [more, htype])
    | tag htype hin hfb hmmap _ ih =>
      subst htag
      exact .round ((safe_tag htype).mpr ⟨hin, hfb, hmmap⟩) (by simp [more, htype])
        (ih (visit_tag m s))
  · intro h
    induction h with
    | @exit s hsafe hc =>
      have htype : tagType m s.tag = 0#32 := by simpa [more] using hc
      exact .last htype ((safe_last htype).mp hsafe)
    | @round s hsafe hc _ ih =>
      have htype : tagType m s.tag ≠ 0#32 := by simpa [more] using hc
      obtain ⟨hin, hfb, hmmap⟩ := (safe_tag htype).mp hsafe
      rw [visit_tag] at ih
      exact .tag htype hin hfb hmmap ih

end Safe

/-- The scan is safe exactly when there is no block or its sizes form a chain. -/
theorem scanSafe_iff (m : Mem) (info : BitVec 32) :
    ScanSafe m info ↔ info = 0#32 ∨ Chain m info (info + 8#32) := by
  have htag : (start info).tag = info + 8#32 := rfl
  by_cases hinfo : info = 0#32
  · simp [ScanSafe, scan, hinfo]
  · rw [or_iff_right hinfo, ← htag, chain_iff, ends_iff, ScanSafe]
    simp [scan, hinfo]

/-- A tag of type 1 and size 0. -/
def zeroSize : Mem := memory 0x9000 (le32 16 ++ le32 0 ++ le32 1 ++ le32 0)

/-- The scan stays at that tag. -/
theorem zeroSize_hangs : ¬ScanSafe zeroSize 0x9000#32 := by
  have hmore : more zeroSize (start 0x9000#32) = true := by decide +kernel
  have hvisit : visit zeroSize (start 0x9000#32) = start 0x9000#32 := by decide +kernel
  have hhangs : ∀ fuel, scan zeroSize 0x9000#32 fuel = none := by
    intro fuel
    induction fuel with
    | zero => simp [scan, whileLoop, hmore]
    | succ n ih => simpa [scan, whileLoop, hmore, hvisit] using ih
  rintro ⟨fuel, s, hscan, -⟩
  rw [hhangs fuel] at hscan
  cases hscan

end TagScan
