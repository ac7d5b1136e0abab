import Nyrix.Base.Protection

/-!
# The descriptor tables (gdt.cpp, tss.cpp, idt.cpp)

`kernel_main` fills the task segment, the segment descriptors and the gates in this order. The
port writes of `IDT::init` are left to the module on hardware interrupts.
-/

namespace DescriptorTables

open ByteMemory BoundedLoop IA32

structure GDTEntry where
  limitLow : BitVec 16
  baseLow : BitVec 16
  baseMiddle : BitVec 8
  access : BitVec 8
  granularity : BitVec 8
  baseHigh : BitVec 8

/-- The packed structure in memory. -/
def GDTEntry.word (e : GDTEntry) : BitVec 64 :=
  e.baseHigh ++ e.granularity ++ e.access ++ e.baseMiddle ++ e.baseLow ++ e.limitLow

structure IDTEntry where
  baseLow : BitVec 16
  selector : BitVec 16
  zero : BitVec 8
  flags : BitVec 8
  baseHigh : BitVec 16

def IDTEntry.word (e : IDTEntry) : BitVec 64 :=
  e.baseHigh ++ e.flags ++ e.zero ++ e.selector ++ e.baseLow

/-- Where the linker put the tables, and what they are to point at. -/
structure Statics where
  tssEntry : BitVec 32
  gdtEntries : BitVec 32
  gdtPtr : Nat
  idtEntries : BitVec 32
  idtPtr : Nat
  isrStubTable : Nat
  isrSyscall : BitVec 32
  /-- The end of `kstack`. -/
  kernelStackTop : BitVec 32

/-- `sizeof(TSSEntry)` -/
def tssSize : Nat := 104

def tssInit (st : Statics) (m : Mem) : Mem :=
  let tss := st.tssEntry.toNat
  let m := forUp (fun i m => store8 m (tss + i) 0) 0 tssSize m
  let m := store32 m (tss + 8) 0x10
  store32 m (tss + 4) st.kernelStackTop

def tssDescriptor (tssBase : BitVec 32) : GDTEntry where
  limitLow := BitVec.ofNat 16 (tssSize - 1)
  baseLow := (tssBase &&& 0xFFFF).setWidth 16
  baseMiddle := (tssBase >>> 16 &&& 0xFF).setWidth 8
  access := 0x89
  granularity := 0x00
  baseHigh := (tssBase >>> 24 &&& 0xFF).setWidth 8

def gdtEntry (tssBase : BitVec 32) : Nat → GDTEntry
  | 0 => ⟨0, 0, 0, 0, 0, 0⟩
  | 1 => ⟨0xFFFF, 0, 0, 0x9A, 0xCF, 0⟩
  | 2 => ⟨0xFFFF, 0, 0, 0x92, 0xCF, 0⟩
  | 3 => ⟨0xFFFF, 0, 0, 0xFA, 0xCF, 0⟩
  | 4 => ⟨0xFFFF, 0, 0, 0xF2, 0xCF, 0⟩
  | _ => tssDescriptor tssBase

/-- A `GDTPtr` or an `IDTPtr`. -/
def storePtr (a : Nat) (limit : BitVec 16) (base : BitVec 32) (m : Mem) : Mem :=
  store32 (store16 m a limit) (a + 2) base

/-- `GDT::init` with `gdt_flush` and `tss_flush`. -/
def gdtInit (st : Statics) (r : SystemRegs) (m : Mem) : Option (SystemRegs × Mem) :=
  let m := forUp (fun i m => store64 m (st.gdtEntries.toNat + 8 * i)
    (gdtEntry st.tssEntry i).word) 0 6 m
  let m := storePtr st.gdtPtr (BitVec.ofNat 16 (6 * 8 - 1)) st.gdtEntries m
  ltr 0x28 { r with gdtr := tableAt m st.gdtPtr } m

/-- The fields but the flags are set in the same way for all gates. -/
def idtEntry (handler : BitVec 32) (flags : BitVec 8) : IDTEntry where
  baseLow := (handler &&& 0xFFFF).setWidth 16
  selector := 0x08
  zero := 0
  flags := flags
  baseHigh := (handler >>> 16 &&& 0xFFFF).setWidth 16

/-- The tables `IDT::init` sets up, with `idt_flush`. -/
def idtInit (st : Statics) (r : SystemRegs) (m : Mem) : SystemRegs × Mem :=
  let idt := st.idtEntries.toNat
  let m := forUp (fun i m => store64 m (idt + 8 * i) (IDTEntry.word ⟨0, 0, 0, 0, 0⟩)) 0 256 m
  let m := forUp (fun i m => store64 m (idt + 8 * i)
    (idtEntry (load32 m (st.isrStubTable + 4 * i)) 0x8E).word) 0 48 m
  let m := store64 m (idt + 8 * 0x80) (idtEntry st.isrSyscall 0xEF).word
  let m := storePtr st.idtPtr (BitVec.ofNat 16 (256 * 8 - 1)) st.idtEntries m
  ({ r with idtr := tableAt m st.idtPtr }, m)

/-- `tss_init(...); GDT::init(); IDT::init();` -/
def initTables (st : Statics) (r : SystemRegs) (m : Mem) : Option (SystemRegs × Mem) :=
  (gdtInit st r (tssInit st m)).map fun a => idtInit st a.1 a.2

/-! ## What the tables hold -/

/-- The tables, as first byte and size. -/
def Statics.regions (st : Statics) : List (Nat × Nat) :=
  [ (st.tssEntry.toNat, tssSize)
  , (st.gdtEntries.toNat, 48)
  , (st.gdtPtr, 6)
  , (st.idtEntries.toNat, 2048)
  , (st.idtPtr, 6)
  , (st.isrStubTable, 192) ]

/-- The linker put the tables apart from each other. -/
def Layout (st : Statics) : Prop := st.regions.Pairwise fun x y => Sep x.1 x.2 y.1 y.2

/-- What a byte of the task segment holds. -/
def tssByte (top : BitVec 32) (i : Nat) : BitVec 8 :=
  if i < 4 then 0 else if i < 8 then byteOf top (i - 4) else if i = 8 then 0x10 else 0

/-- The handler of a vector has a gate, which may be called from Ring 3 for the system call only. -/
def gateWord (st : Statics) (stub : Nat → BitVec 32) (v : Nat) : BitVec 64 :=
  if v = 0x80 then (idtEntry st.isrSyscall 0xEF).word
  else if v < 48 then (idtEntry (stub v) 0x8E).word
  else IDTEntry.word ⟨0, 0, 0, 0, 0⟩

/-- The task segment has become busy. -/
def segmentWord (st : Statics) (i : Nat) : BitVec 64 :=
  if i = 5 then (gdtEntry st.tssEntry 5).word ||| 1#64 <<< 41 else (gdtEntry st.tssEntry i).word

structure Installed (st : Statics) (stub : Nat → BitVec 32) (m : Mem) : Prop where
  tss : ∀ i < tssSize, load8 m (st.tssEntry.toNat + i) = tssByte st.kernelStackTop i
  gdt : ∀ i < 6, load64 m (st.gdtEntries.toNat + 8 * i) = segmentWord st i
  idt : ∀ v < 256, load64 m (st.idtEntries.toNat + 8 * v) = gateWord st stub v

/-- The registers that point at the tables. -/
def systemRegs (st : Statics) : SystemRegs :=
  ⟨⟨st.gdtEntries.toNat, 47⟩, ⟨st.idtEntries.toNat, 2047⟩, ⟨st.tssEntry.toNat, 103⟩⟩

/-- The stubs the table in memory points at. -/
def stubs (st : Statics) (m : Mem) (v : Nat) : BitVec 32 := load32 m (st.isrStubTable + 4 * v)

section Install

variable {st : Statics} {r : SystemRegs} {m m' : Mem}

theorem storePtr_frame (a : Nat) (limit : BitVec 16) (base : BitVec 32) (m : Mem) :
    Frame a 6 m (storePtr a limit base m) := by
  have hlimit : Frame a 6 m (store16 m a limit) :=
    frame_sub (i := 0) (store16_frame m a limit) (by decide)
  exact frame_trans hlimit (frame_sub (store32_frame _ (a + 2) base) (by decide))

theorem tableAt_storePtr (a : Nat) (limit : BitVec 16) (base : BitVec 32) (m : Mem) :
    tableAt (storePtr a limit base m) a = ⟨base.toNat, limit.toNat⟩ := by
  have hsep : Sep (a + 2) 4 a 2 :=
    sep_of_offset (i := 2) (j := 0) (.inr (by decide)) (by decide) (by decide)
  rw [tableAt, storePtr, load32_store32_same, load16_frame (store32_frame _ _ _) hsep,
    load16_store16_same]

theorem tssInit_spec (st : Statics) (m : Mem) :
    Frame st.tssEntry.toNat tssSize m (tssInit st m) ∧
      ∀ i < tssSize, load8 (tssInit st m) (st.tssEntry.toNat + i) =
        tssByte st.kernelStackTop i := by
  obtain ⟨hframe, hzero⟩ := storeBytes (m := m) (a := st.tssEntry.toNat) 0 (n := tssSize)
    (by decide)
  rw [tssInit]
  generalize forUp _ 0 tssSize m = m₁ at hframe hzero ⊢
  generalize st.tssEntry.toNat = tss at hframe hzero ⊢
  have hss := store32_frame m₁ (tss + 8) 0x10
  have hesp := store32_frame (store32 m₁ (tss + 8) 0x10) (tss + 4) st.kernelStackTop
  refine ⟨frame_trans (frame_trans hframe (frame_sub hss (by decide)))
    (frame_sub hesp (by decide)), fun i hi => ?_⟩
  simp only [tssSize] at hi
  have hother {j n : Nat} (hj : i + 1 ≤ j ∨ j + n ≤ i) (hn : j + n ≤ 104) :
      Sep (tss + j) n (tss + i) 1 := sep_of_offset hj.symm (by omega) (by omega)
  rw [tssByte]
  split_ifs with hlow hmid height
  · rw [hesp _ (hother (by omega) (by decide)), hss _ (hother (by omega) (by decide)), hzero i hi]
  · have haddr : tss + i = tss + 4 + (i - 4) := by omega
    rw [haddr, load8_store32 _ _ _ (by omega)]
  · subst height
    rw [hesp _ (hother (by omega) (by decide))]
    exact load8_store32 m₁ (tss + 8) 0x10 (i := 0) (by decide)
  · rw [hesp _ (hother (by omega) (by decide))]
    by_cases hin : i < 12
    · have haddr : tss + i = tss + 8 + (i - 8) := by omega
      have hzeros : ∀ k < 4, k ≠ 0 → byteOf 0x10 k = 0 := by decide
      rw [haddr, load8_store32 _ _ _ (by omega), hzeros _ (by omega) (by omega)]
    · rw [hss _ (hother (by omega) (by decide)), hzero i hi]

/-- A descriptor of the table as the processor decodes it. -/
theorem decode_word (e : GDTEntry) : Segment.decode e.word =
    ⟨e.baseHigh ++ e.baseMiddle ++ e.baseLow, e.granularity.extractLsb' 0 4 ++ e.limitLow, e.access,
      e.granularity.extractLsb' 4 4⟩ := by
  rw [Segment.decode, GDTEntry.word]
  simp (disch := decide) only [BitVec.extractLsb'_append_eq_of_add_le,
    BitVec.extractLsb'_append_eq_of_le, BitVec.extractLsb'_eq_self, Nat.reduceSub]

theorem decode_idtWord (e : IDTEntry) :
    Gate.decode e.word = ⟨e.baseHigh ++ e.baseLow, e.selector, e.flags⟩ := by
  rw [Gate.decode, IDTEntry.word]
  simp (disch := decide) only [BitVec.extractLsb'_append_eq_of_add_le,
    BitVec.extractLsb'_append_eq_of_le, BitVec.extractLsb'_eq_self, Nat.reduceSub]

/-- A field cut out by a shift and a mask. -/
theorem field_eq {k n : Nat} (mask a : BitVec 32)
    (hmask : ∀ i < n, mask.getLsbD i = true) :
    (a >>> k &&& mask).setWidth n = a.extractLsb' k n := by
  apply BitVec.eq_of_getLsbD_eq
  intro i hi
  rw [BitVec.getLsbD_setWidth, BitVec.getLsbD_and, BitVec.getLsbD_ushiftRight,
    BitVec.getLsbD_extractLsb', hmask i hi, Bool.and_true]

theorem low_eq (a : BitVec 32) : (a &&& 0xFFFF).setWidth 16 = a.extractLsb' 0 16 := by
  have h := field_eq (k := 0) (n := 16) 0xFFFF a (by decide)
  rwa [BitVec.ushiftRight_zero] at h

/-- An address cut in three and put together again. -/
theorem split_base (a : BitVec 32) : (a >>> 24 &&& 0xFF).setWidth 8 ++
    (a >>> 16 &&& 0xFF).setWidth 8 ++ (a &&& 0xFFFF).setWidth 16 = a := by
  rw [field_eq _ a (by decide), field_eq _ a (by decide), low_eq,
    BitVec.extractLsb'_append_extractLsb'_eq_extractLsb' (by decide),
    BitVec.extractLsb'_append_extractLsb'_eq_extractLsb' (by decide)]
  exact BitVec.extractLsb'_eq_self

theorem split_offset (a : BitVec 32) :
    (a >>> 16 &&& 0xFFFF).setWidth 16 ++ (a &&& 0xFFFF).setWidth 16 = a := by
  rw [field_eq _ a (by decide), low_eq,
    BitVec.extractLsb'_append_extractLsb'_eq_extractLsb' (by decide)]
  exact BitVec.extractLsb'_eq_self

/-- The gate of a handler leads to it. -/
theorem decode_gate (handler : BitVec 32) (flags : BitVec 8) :
    Gate.decode (idtEntry handler flags).word = ⟨handler, 0x08, flags⟩ := by
  rw [decode_idtWord, idtEntry, split_offset]

/-- The last descriptor leads to the task segment. -/
theorem decode_tss (tss : BitVec 32) :
    Segment.decode (gdtEntry tss 5).word = ⟨tss, 103, 0x89, 0⟩ := by
  have hentry : gdtEntry tss 5 = tssDescriptor tss := rfl
  rw [hentry, decode_word, tssDescriptor, split_base, Segment.mk.injEq]
  dsimp only
  exact ⟨rfl, by decide, rfl, by decide⟩

/-- Two of the tables are apart. -/
theorem layout_sep (hlayout : Layout st) {i j : Nat} (hij : i < j) {x y : Nat × Nat}
    (hx : st.regions[i]? = some x) (hy : st.regions[j]? = some y) : Sep x.1 x.2 y.1 y.2 := by
  obtain ⟨hi, rfl⟩ := List.getElem?_eq_some_iff.mp hx
  obtain ⟨hj, rfl⟩ := List.getElem?_eq_some_iff.mp hy
  exact List.pairwise_iff_getElem.mp hlayout i j hi hj hij

theorem gdtInit_spec (hlayout : Layout st) (r : SystemRegs) (m : Mem) :
    ∃ m', gdtInit st r m = some
        ({ r with gdtr := ⟨st.gdtEntries.toNat, 47⟩, task := ⟨st.tssEntry.toNat, 103⟩ }, m') ∧
      (∀ i < 6, load64 m' (st.gdtEntries.toNat + 8 * i) = segmentWord st i) ∧
      ∀ a n, Sep st.gdtEntries.toNat 48 a n → Sep st.gdtPtr 6 a n → Kept a n m m' := by
  obtain ⟨hframe, hload⟩ := storeTable (m := m) (a := st.gdtEntries.toNat)
    (fun i _ => (gdtEntry st.tssEntry i).word) (fun i => (gdtEntry st.tssEntry i).word) (n := 6)
    (by decide) (fun _ _ _ _ => rfl)
  have hptr : Sep st.gdtPtr 6 st.gdtEntries.toNat 48 :=
    sep_comm (layout_sep hlayout (i := 1) (j := 2) (by decide) rfl rfl)
  rw [gdtInit]
  generalize forUp _ 0 6 m = m₁ at hframe hload ⊢
  have hstored := storePtr_frame st.gdtPtr (BitVec.ofNat 16 (6 * 8 - 1)) st.gdtEntries m₁
  rw [tableAt_storePtr]
  generalize storePtr st.gdtPtr (BitVec.ofNat 16 (6 * 8 - 1)) st.gdtEntries m₁ = m₂ at hstored ⊢
  have hwords : ∀ i < 6,
      load64 m₂ (st.gdtEntries.toNat + 8 * i) = (gdtEntry st.tssEntry i).word := by
    intro i hi
    rw [load64_frame hstored (sep_right hptr (8 * i) 8 (by omega)), hload i hi]
  have hbusy := store64_frame m₂ (st.gdtEntries.toNat + 8 * 5)
    (load64 m₂ (st.gdtEntries.toNat + 8 * 5) ||| 1#64 <<< 41)
  have hltr : ltr 0x28 { r with gdtr := ⟨st.gdtEntries.toNat, 47⟩ } m₂ = some
      ({ r with gdtr := ⟨st.gdtEntries.toNat, 47⟩, task := ⟨st.tssEntry.toNat, 103⟩ },
        store64 m₂ (st.gdtEntries.toNat + 8 * 5)
          (load64 m₂ (st.gdtEntries.toNat + 8 * 5) ||| 1#64 <<< 41)) := by
    have hoffset : descriptorOffset 0x28 = 8 * 5 := by decide
    have hsegment := segmentAt_some (t := ⟨st.gdtEntries.toNat, 47⟩) (m := m₂) 0x28
      (by decide) (by decide) (Nat.le_refl 47)
    rw [hoffset, hwords 5 (by decide), decode_tss] at hsegment
    have hlast : Segment.last ⟨st.tssEntry, 103, 0x89, 0⟩ = 103 := if_neg (by simp)
    have hltr := ltr_some (r := { r with gdtr := ⟨st.gdtEntries.toNat, 47⟩ }) hsegment (by
      dsimp only
      decide)
    rwa [hlast, hoffset] at hltr
  refine ⟨_, hltr, fun i hi => ?_, fun a n hgdt hgdtPtr => ?_⟩
  · rw [segmentWord]
    split_ifs with h
    · rw [h, load64_store64_same, hwords 5 (by decide)]
    · rw [load64_frame hbusy (sep_of_offset (by omega) (by omega) (by omega)), hwords i hi]
  · have hentry := sep_left hgdt (8 * 5) 8 (by decide)
    exact ((kept_of_frame hframe hgdt).trans (kept_of_frame hstored hgdtPtr)).trans
      (kept_of_frame hbusy hentry)

theorem idtInit_spec (hlayout : Layout st) (r : SystemRegs) (m : Mem) :
    ∃ m', idtInit st r m = ({ r with idtr := ⟨st.idtEntries.toNat, 2047⟩ }, m') ∧
      (∀ v < 256, load64 m' (st.idtEntries.toNat + 8 * v) = gateWord st (stubs st m) v) ∧
      ∀ a n, Sep st.idtEntries.toNat 2048 a n → Sep st.idtPtr 6 a n → Kept a n m m' := by
  obtain ⟨hframe, hzero⟩ := storeTable (m := m) (a := st.idtEntries.toNat)
    (fun _ _ => IDTEntry.word ⟨0, 0, 0, 0, 0⟩) (fun _ => IDTEntry.word ⟨0, 0, 0, 0, 0⟩) (n := 256)
    (by decide) (fun _ _ _ _ => rfl)
  have hstubs : Sep st.idtEntries.toNat 2048 st.isrStubTable 192 :=
    layout_sep hlayout (i := 3) (j := 5) (by decide) rfl rfl
  have hptr : Sep st.idtPtr 6 st.idtEntries.toNat 2048 :=
    sep_comm (layout_sep hlayout (i := 3) (j := 4) (by decide) rfl rfl)
  rw [idtInit]
  generalize forUp _ 0 256 m = m₁ at hframe hzero ⊢
  -- the table of stubs is still what it was
  have hread (i : Nat) (hi : i < 48) (m' : Mem)
      (h : Frame st.idtEntries.toNat (8 * 48) m₁ m') :
      (idtEntry (load32 m' (st.isrStubTable + 4 * i)) 0x8E).word =
        (idtEntry (stubs st m i) 0x8E).word := by
    have hkept := (kept_of_frame hframe hstubs).trans
      (kept_of_frame (frame_sub (i := 0) h (by decide)) hstubs)
    rw [stubs, hkept.load32 (by omega)]
  obtain ⟨hframe', hload⟩ := storeTable (m := m₁) (a := st.idtEntries.toNat)
    (fun i m => (idtEntry (load32 m (st.isrStubTable + 4 * i)) 0x8E).word)
    (fun i => (idtEntry (stubs st m i) 0x8E).word) (n := 48) (by decide) hread
  generalize forUp _ 0 48 m₁ = m₂ at hframe' hload ⊢
  have hcall := store64_frame m₂ (st.idtEntries.toNat + 8 * 0x80) (idtEntry st.isrSyscall 0xEF).word
  have hgates : ∀ v < 256, load64 (store64 m₂ (st.idtEntries.toNat + 8 * 0x80)
      (idtEntry st.isrSyscall 0xEF).word) (st.idtEntries.toNat + 8 * v) =
        gateWord st (stubs st m) v := by
    intro v hv
    rw [gateWord]
    split_ifs with hsyscall hstub
    · rw [hsyscall, load64_store64_same]
    · rw [load64_frame hcall (sep_of_offset (by omega) (by omega) (by omega)), hload v hstub]
    · have hbehind : Sep st.idtEntries.toNat (8 * 48) (st.idtEntries.toNat + 8 * v) 8 :=
        sep_of_offset (i := 0) (by omega) (by omega) (by omega)
      rw [load64_frame hcall (sep_of_offset (by omega) (by omega) (by omega)),
        load64_frame hframe' hbehind, hzero v hv]
  generalize store64 m₂ (st.idtEntries.toNat + 8 * 0x80) (idtEntry st.isrSyscall 0xEF).word = m₃
    at hcall hgates ⊢
  have hstored := storePtr_frame st.idtPtr (BitVec.ofNat 16 (256 * 8 - 1)) st.idtEntries m₃
  rw [tableAt_storePtr]
  refine ⟨_, rfl, fun v hv => ?_, fun a n hidt hidtPtr => ?_⟩
  · rw [load64_frame hstored (sep_right hptr (8 * v) 8 (by omega)), hgates v hv]
  · exact (((kept_of_frame hframe hidt).trans
      (kept_of_frame (frame_sub (i := 0) hframe' (by decide)) hidt)).trans
      (kept_of_frame hcall (sep_left hidt (8 * 0x80) 8 (by decide)))).trans
      (kept_of_frame hstored hidtPtr)

/-- The three calls put the tables where the registers then point. -/
theorem initTables_installed (hlayout : Layout st) (r : SystemRegs) (m : Mem) :
    ∃ m', initTables st r m = some (systemRegs st, m') ∧ Installed st (stubs st m) m' := by
  obtain ⟨htssFrame, htss⟩ := tssInit_spec st m
  obtain ⟨m₂, hgdt, hsegments, hgdtKept⟩ := gdtInit_spec hlayout r (tssInit st m)
  obtain ⟨m₃, hidt, hgates, hidtKept⟩ := idtInit_spec hlayout
    { r with gdtr := ⟨st.gdtEntries.toNat, 47⟩, task := ⟨st.tssEntry.toNat, 103⟩ } m₂
  have hsep {i j : Nat} (hij : i < j) {x y : Nat × Nat} (hx : st.regions[i]? = some x)
      (hy : st.regions[j]? = some y) : Sep x.1 x.2 y.1 y.2 := layout_sep hlayout hij hx hy
  refine ⟨m₃, by rw [initTables, hgdt, Option.map_some, hidt]; rfl, ⟨fun i hi => ?_, fun i hi => ?_,
    fun v hv => ?_⟩⟩
  · have hkept := (hgdtKept _ _ (sep_comm (hsep (i := 0) (j := 1) (by decide) rfl rfl))
      (sep_comm (hsep (i := 0) (j := 2) (by decide) rfl rfl))).trans
      (hidtKept _ _ (sep_comm (hsep (i := 0) (j := 3) (by decide) rfl rfl))
        (sep_comm (hsep (i := 0) (j := 4) (by decide) rfl rfl)))
    rw [hkept i hi, htss i hi]
  · have hkept := hidtKept _ _ (sep_comm (hsep (i := 1) (j := 3) (by decide) rfl rfl))
      (sep_comm (hsep (i := 1) (j := 4) (by decide) rfl rfl))
    rw [hkept.load64 (by omega), hsegments i hi]
  · have hkept := (kept_of_frame htssFrame (hsep (i := 0) (j := 5) (by decide) rfl rfl)).trans
      (hgdtKept _ _ (hsep (i := 1) (j := 5) (by decide) rfl rfl)
        (hsep (i := 2) (j := 5) (by decide) rfl rfl))
    have hstub : v < 48 → stubs st m₂ v = stubs st m v := fun h => hkept.load32 (by omega)
    rw [hgates v hv, gateWord, gateWord]
    split_ifs with hsyscall h
    · rfl
    · rw [hstub h]
    · rfl

end Install

end DescriptorTables
