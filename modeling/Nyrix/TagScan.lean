import Nyrix.Base.BoundedLoop
import Nyrix.Base.ByteLayout

/-!
# The tag loop of kernel_main

The boot loader leaves a block of tags of different lengths, one behind the other. The kernel
goes from tag to tag by their sizes and remembers the framebuffer and the memory map.
-/

namespace TagScan

open BoundedLoop ByteMemory ByteLayout

/-- The fields of a framebuffer tag that go to the globals. -/
structure Framebuffer where
  addr : BitVec 64
  pitch : BitVec 32
  width : BitVec 32
  height : BitVec 32
  bpp : BitVec 8
  deriving DecidableEq

structure Scan where
  tag : BitVec 32
  fb : Framebuffer
  fbFound : Bool
  mmapAddr : BitVec 32
  mmapLength : BitVec 32
  deriving DecidableEq

def tagType (m : Mem) (tag : BitVec 32) : BitVec 32 := load32 m tag.toNat
def tagSize (m : Mem) (tag : BitVec 32) : BitVec 32 := load32 m (tag.toNat + 4)

def framebufferAt (m : Mem) (tag : BitVec 32) : Framebuffer where
  addr := load64 m (tag.toNat + 8)
  pitch := load32 m (tag.toNat + 16)
  width := load32 m (tag.toNat + 20)
  height := load32 m (tag.toNat + 24)
  bpp := load8 m (tag.toNat + 28)

/-- `(tag->size + 7) & ~7` -/
def step (size : BitVec 32) : BitVec 32 := (size + 7#32) &&& ~~~7#32

def more (m : Mem) (s : Scan) : Bool := tagType m s.tag != 0#32

/-- One tag that is not the end tag. -/
def visit (m : Mem) (s : Scan) : Scan :=
  let next := s.tag + step (tagSize m s.tag)
  if tagType m s.tag = 8#32 then
    { s with fb := framebufferAt m s.tag, fbFound := true, tag := next }
  else if tagType m s.tag = 6#32 then
    { s with mmapAddr := s.tag + 16#32, mmapLength := tagSize m s.tag - 16#32, tag := next }
  else { s with tag := next }

/-- The globals are 0 before the scan. -/
def start (info : BitVec 32) : Scan where
  tag := info + 8#32
  fb := ⟨0, 0, 0, 0, 0⟩
  fbFound := false
  mmapAddr := 0#32
  mmapLength := 0#32

def scan (m : Mem) (info : BitVec 32) (fuel : Nat) : Option Scan :=
  if info = 0#32 then some (start info) else whileLoop (more m) (visit m) fuel (start info)

/-- The addresses of the tags the loop body gets. -/
def visited (m : Mem) (info : BitVec 32) (fuel : Nat) : List (BitVec 32) :=
  if info = 0#32 then [] else (whileTrace (more m) (visit m) fuel (start info)).map (·.tag)

theorem step_toNat {size : BitVec 32} (h : size.toNat + 7 < 4294967296) :
    (step size).toNat = (size.toNat + 7) / 8 * 8 := by
  have hround : (size + 7#32) &&& ~~~7#32 = ((size + 7#32) >>> 3) <<< 3 := by
    have hkeep : ∀ i < 32, (~~~7#32).getLsbD i = decide (3 ≤ i) := by decide
    apply BitVec.eq_of_getLsbD_eq
    intro i hi
    rw [BitVec.getLsbD_and, hkeep i hi, BitVec.getLsbD_shiftLeft, BitVec.getLsbD_ushiftRight]
    by_cases hlow : 3 ≤ i
    · have hhigh : ¬i < 3 := by omega
      simp [hlow, hi, hhigh]
    · have hlow' : i < 3 := by omega
      simp [hlow, hlow']
  have hsum : (size + 7#32).toNat = size.toNat + 7 := by bv_omega
  rw [step, hround, BitVec.toNat_shiftLeft, BitVec.toNat_ushiftRight, hsum,
    Nat.shiftRight_eq_div_pow, Nat.shiftLeft_eq]
  omega

/-- A tag as the boot loader means it; `rest` is what follows the fields the kernel reads. -/
inductive Tag where
  | framebuffer (fb : Framebuffer) (rest : List (BitVec 8))
  | mmap (entrySize entryVersion : BitVec 32) (entries : List (BitVec 8))
  | other (type : BitVec 32) (payload : List (BitVec 8))
      (h : type ≠ 0#32 ∧ type ≠ 6#32 ∧ type ≠ 8#32)

def Framebuffer.bytes (fb : Framebuffer) : List (BitVec 8) :=
  le64 fb.addr ++ le32 fb.pitch ++ le32 fb.width ++ le32 fb.height ++ [fb.bpp]

def Tag.type : Tag → BitVec 32
  | .framebuffer _ _ => 8#32
  | .mmap _ _ _ => 6#32
  | .other type _ _ => type

def Tag.payload : Tag → List (BitVec 8)
  | .framebuffer fb rest => fb.bytes ++ rest
  | .mmap entrySize entryVersion entries => le32 entrySize ++ le32 entryVersion ++ entries
  | .other _ payload _ => payload

def Tag.size (t : Tag) : Nat := 8 + t.payload.length

/-- The size with the padding behind the tag. -/
def Tag.room (t : Tag) : Nat := (t.size + 7) / 8 * 8

def Tag.bytes (t : Tag) : List (BitVec 8) :=
  le32 t.type ++ le32 (BitVec.ofNat 32 t.size) ++ t.payload

/-- The tags stand in memory from `a` on, with an end tag behind them. -/
def Laid (m : Mem) : Nat → List Tag → Prop
  | a, [] => load32 m a = 0#32
  | a, t :: ts => Holds m a t.bytes ∧ Laid m (a + t.room) ts

/-- The address of the end tag. -/
def endOf : Nat → List Tag → Nat
  | a, [] => a
  | a, t :: ts => endOf (a + t.room) ts

def addresses : Nat → List Tag → List (BitVec 32)
  | _, [] => []
  | a, t :: ts => BitVec.ofNat 32 a :: addresses (a + t.room) ts

def framebuffers : List Tag → List Framebuffer
  | [] => []
  | .framebuffer fb _ :: ts => fb :: framebuffers ts
  | _ :: ts => framebuffers ts

/-- Address and length in bytes of the entry array of each memory map. -/
def mmaps : Nat → List Tag → List (BitVec 32 × BitVec 32)
  | _, [] => []
  | a, t :: ts =>
    (match t with
      | .mmap _ _ entries => [(BitVec.ofNat 32 (a + 16), BitVec.ofNat 32 entries.length)]
      | _ => []) ++ mmaps (a + t.room) ts

theorem le_endOf (a : Nat) (tags : List Tag) : a ≤ endOf a tags := by
  induction tags generalizing a with
  | nil => exact Nat.le_refl a
  | cons t ts ih => exact Nat.le_trans (Nat.le_add_right a t.room) (ih (a + t.room))

theorem Tag.type_ne (t : Tag) : t.type ≠ 0#32 := by
  cases t with
  | framebuffer fb rest => simp [Tag.type]
  | mmap entrySize entryVersion entries => simp [Tag.type]
  | other type payload h => exact h.1

theorem Tag.size_le_room (t : Tag) : t.size ≤ t.room := by
  rw [Tag.room]
  omega

/-- What the kernel reads of a tag. -/
theorem holds_tag {m : Mem} {a : Nat} {t : Tag} (h : Holds m a t.bytes) :
    load32 m a = t.type ∧ load32 m (a + 4) = BitVec.ofNat 32 t.size ∧
      Holds m (a + 8) t.payload := by
  rw [Tag.bytes, holds_append, holds_append, holds_le32, length_le32, holds_le32] at h
  exact ⟨h.1.1, h.1.2, h.2⟩

theorem framebufferAt_eq {m : Mem} {tag : BitVec 32} {fb : Framebuffer} {rest : List (BitVec 8)}
    (h : Holds m (tag.toNat + 8) (fb.bytes ++ rest)) : framebufferAt m tag = fb := by
  simp only [Framebuffer.bytes, holds_append, holds_le32, holds_cons, List.length_append,
    length_le64, length_le32] at h
  obtain ⟨⟨⟨⟨⟨haddr, hpitch⟩, hwidth⟩, hheight⟩, hbpp, -⟩, -⟩ := h
  rw [framebufferAt, load64_of_holds haddr, hpitch, hwidth, hheight, hbpp]

section Visit

variable {m : Mem} {a : Nat} {t : Tag} {s : Scan}

/-- The loop leaves a tag for the address behind its padding. -/
theorem next_tag (htag : s.tag = BitVec.ofNat 32 a) (hfit : a + t.room + 8 ≤ 4294967296)
    (h : Holds m a t.bytes) :
    s.tag + step (tagSize m s.tag) = BitVec.ofNat 32 (a + t.room) := by
  have hsize := t.size_le_room
  have hnat : (BitVec.ofNat 32 a).toNat = a := by
    rw [BitVec.toNat_ofNat]
    omega
  have hread : (BitVec.ofNat 32 t.size).toNat = t.size := by
    rw [BitVec.toNat_ofNat]
    omega
  have hround : (step (BitVec.ofNat 32 t.size)).toNat = t.room := by
    rw [step_toNat (by omega), hread, Tag.room]
  rw [htag, tagSize, hnat, (holds_tag h).2.1]
  apply BitVec.eq_of_toNat_eq
  rw [BitVec.toNat_add, hround, hnat, BitVec.toNat_ofNat]

/-- What the loop body does at a tag. -/
def record (a : Nat) (t : Tag) (s : Scan) : Scan :=
  let s := { s with tag := BitVec.ofNat 32 (a + t.room) }
  match t with
  | .framebuffer fb _ => { s with fb := fb, fbFound := true }
  | .mmap _ _ entries =>
    { s with mmapAddr := BitVec.ofNat 32 (a + 16), mmapLength := BitVec.ofNat 32 entries.length }
  | .other _ _ _ => s

theorem visit_eq (htag : s.tag = BitVec.ofNat 32 a) (hfit : a + t.room + 8 ≤ 4294967296)
    (h : Holds m a t.bytes) : more m s = true ∧ visit m s = record a t s := by
  have hnat : s.tag.toNat = a := by
    rw [htag, BitVec.toNat_ofNat]
    omega
  obtain ⟨htype, hsize, hpayload⟩ := holds_tag h
  have hread : tagType m s.tag = t.type := by rw [tagType, hnat, htype]
  constructor
  · simp [more, hread, t.type_ne]
  · rw [visit, next_tag htag hfit h, hread]
    cases t with
    | framebuffer fb rest =>
      have hfb : framebufferAt m s.tag = fb := by
        apply framebufferAt_eq
        rw [hnat]
        exact hpayload
      rw [hfb]
      rfl
    | mmap entrySize entryVersion entries =>
      have haddr : s.tag + 16#32 = BitVec.ofNat 32 (a + 16) := by
        rw [htag]
        exact (BitVec.ofNat_add a 16).symm
      have hlength : tagSize m s.tag - 16#32 = BitVec.ofNat 32 entries.length := by
        have hlong : (Tag.mmap entrySize entryVersion entries).size = entries.length + 16 := by
          simp only [Tag.size, Tag.payload, List.length_append, length_le32]
          omega
        rw [tagSize, hnat, hsize, hlong, BitVec.ofNat_add]
        exact BitVec.add_sub_cancel _ _
      rw [haddr, hlength]
      rfl
    | other type payload hother => simp [Tag.type, record, hother.2.1, hother.2.2]

/-- The scan's state behind the tags. -/
def decoded (a : Nat) (tags : List Tag) (s : Scan) : Scan where
  tag := BitVec.ofNat 32 (endOf a tags)
  fb := (framebuffers tags).getLastD s.fb
  fbFound := s.fbFound || !(framebuffers tags).isEmpty
  mmapAddr := ((mmaps a tags).getLastD (s.mmapAddr, s.mmapLength)).1
  mmapLength := ((mmaps a tags).getLastD (s.mmapAddr, s.mmapLength)).2

theorem decoded_cons (ts : List Tag) :
    decoded a (t :: ts) s = decoded (a + t.room) ts (record a t s) := by
  cases t with
  | framebuffer fb rest => simp only [decoded, framebuffers, mmaps, endOf, record,
      List.getLastD_cons, List.nil_append, List.isEmpty_cons, Bool.not_false, Bool.or_true,
      Bool.true_or]
  | mmap entrySize entryVersion entries => simp only [decoded, framebuffers, mmaps, endOf, record,
      List.getLastD_cons, List.singleton_append]
  | other type payload h => simp only [decoded, framebuffers, mmaps, endOf, record,
      List.nil_append]

theorem whileLoop_decodes {tags : List Tag} {fuel : Nat} (htag : s.tag = BitVec.ofNat 32 a)
    (hfit : endOf a tags + 8 ≤ 4294967296) (hlaid : Laid m a tags) (hfuel : tags.length ≤ fuel) :
    whileLoop (more m) (visit m) fuel s = some (decoded a tags s) ∧
      (whileTrace (more m) (visit m) fuel s).map (·.tag) = addresses a tags := by
  induction tags generalizing a s fuel with
  | nil =>
    have hnat : (BitVec.ofNat 32 a).toNat = a := by
      rw [endOf] at hfit
      rw [BitVec.toNat_ofNat]
      omega
    have hlast : more m s = false := by
      rw [Laid] at hlaid
      simp [more, tagType, htag, hnat, hlaid]
    rw [whileLoop_of_false hlast, whileTrace_of_false hlast]
    exact ⟨by simp [decoded, framebuffers, mmaps, endOf, ← htag], rfl⟩
  | cons t ts ih =>
    obtain ⟨hholds, hrest⟩ := hlaid
    have hle := le_endOf (a + t.room) ts
    rw [endOf] at hfit
    obtain ⟨hmore, hvisit⟩ := visit_eq (t := t) htag (by omega) hholds
    obtain ⟨n, rfl⟩ : ∃ n, fuel = n + 1 := ⟨fuel - 1, by
      rw [List.length_cons] at hfuel
      omega⟩
    have hnext : (record a t s).tag = BitVec.ofNat 32 (a + t.room) := by
      cases t <;> rfl
    obtain ⟨hloop, htrace⟩ := ih hnext hfit hrest (Nat.le_of_succ_le_succ hfuel)
    rw [whileLoop_of_true hmore, whileTrace_of_true hmore, hvisit, hloop, decoded_cons]
    exact ⟨rfl, by rw [List.map_cons, htrace, htag, addresses]⟩

end Visit

/-- For a block of tags the scan visits each of them once, in order, and stops at the end tag.
The framebuffer is the one of the last such tag, and the memory map is the entry array of the
last such tag. -/
theorem scan_decodes {m : Mem} {info : BitVec 32} {tags : List Tag} {fuel : Nat}
    (hinfo : info ≠ 0#32) (hfit : endOf (info.toNat + 8) tags + 8 ≤ 4294967296)
    (hlaid : Laid m (info.toNat + 8) tags) (hfuel : tags.length ≤ fuel) :
    visited m info fuel = addresses (info.toNat + 8) tags ∧
    ∃ s, scan m info fuel = some s ∧ s.tag = BitVec.ofNat 32 (endOf (info.toNat + 8) tags) ∧
      s.fb = (framebuffers tags).getLastD ⟨0, 0, 0, 0, 0⟩ ∧
      s.fbFound = !(framebuffers tags).isEmpty ∧
      (s.mmapAddr, s.mmapLength) = (mmaps (info.toNat + 8) tags).getLastD (0#32, 0#32) := by
  have htag : (start info).tag = BitVec.ofNat 32 (info.toNat + 8) := by
    rw [BitVec.ofNat_add, BitVec.ofNat_toNat, BitVec.setWidth_eq]
    rfl
  obtain ⟨hloop, htrace⟩ := whileLoop_decodes htag hfit hlaid hfuel
  constructor
  · rw [visited, if_neg hinfo, htrace]
  · refine ⟨decoded (info.toNat + 8) tags (start info), ?_, rfl, rfl, ?_, rfl⟩
    · rw [scan, if_neg hinfo, hloop]
    · exact Bool.false_or _

/-- The block as a boot loader may write it, with zeros for padding. -/
def encode : List Tag → List (BitVec 8)
  | [] => le32 0 ++ le32 8
  | t :: ts => t.bytes ++ List.replicate (t.room - t.size) 0 ++ encode ts

theorem length_bytes (t : Tag) : t.bytes.length = t.size := by
  simp [Tag.bytes, Tag.size]
  omega

/-- Every list of tags can be laid out. -/
theorem laid_memory {base : Nat} (pre : List (BitVec 8)) {tags : List Tag}
    (h : base + (pre ++ encode tags).length ≤ 4294967296) :
    Laid (memory base (pre ++ encode tags)) (base + pre.length) tags := by
  induction tags generalizing pre with
  | nil =>
    have hend := memory_holds_append pre h
    exact holds_le32.mp (holds_append.mp hend).1
  | cons t ts ih =>
    have hroom := t.size_le_room
    have hholds := memory_holds_append pre h
    have hassoc : pre ++ encode (t :: ts) =
        (pre ++ (t.bytes ++ List.replicate (t.room - t.size) 0)) ++ encode ts := by
      simp [encode]
    have hnext : base + pre.length + t.room =
        base + (pre ++ (t.bytes ++ List.replicate (t.room - t.size) 0)).length := by
      simp only [List.length_append, length_bytes, List.length_replicate]
      omega
    constructor
    · rw [encode, List.append_assoc] at hholds
      rw [encode, List.append_assoc]
      exact (holds_append.mp hholds).1
    · rw [hassoc, hnext]
      apply ih
      rwa [← hassoc]

/-- A screen of 640 by 480 pixels. -/
def screen : Framebuffer := ⟨0xE0000000, 2560, 640, 480, 32⟩

/-- A command line, a map of one entry, and the screen. -/
def sampleTags : List Tag :=
  [ .other 1 [0x6E, 0x79, 0] (by decide), .mmap 24 0 (List.replicate 24 0)
  , .framebuffer screen [1, 0, 0] ]

def sampleBlock (info : Nat) : Mem :=
  memory info (List.replicate 8 0 ++ encode sampleTags)

theorem scan_decodes_sample : ∃ s, scan (sampleBlock 0x9000) 0x9000#32 3 = some s ∧
    s.fb = screen ∧ s.fbFound = true ∧ (s.mmapAddr, s.mmapLength) = (0x9028#32, 24#32) := by
  have hlaid : Laid (sampleBlock 0x9000) 0x9008 sampleTags :=
    laid_memory (List.replicate 8 0) (by decide +kernel)
  have hend : endOf 0x9008 sampleTags + 8 ≤ 4294967296 := by decide +kernel
  obtain ⟨-, s, hscan, -, hfb, hfound, hmmap⟩ := @scan_decodes _ 0x9000#32 _ 3
    (by decide) hend hlaid (Nat.le_refl 3)
  exact ⟨s, hscan, hfb, hfound, hmmap⟩

/-- A block at address 0 is not scanned. -/
theorem scan_skips_zero : Laid (sampleBlock 0) 8 sampleTags ∧
    endOf 8 sampleTags + 8 ≤ 4294967296 ∧
    ∀ fuel, visited (sampleBlock 0) 0#32 fuel ≠ addresses 8 sampleTags ∧
      ∀ s, scan (sampleBlock 0) 0#32 fuel = some s → s.fbFound = false := by
  have hlaid : Laid (sampleBlock 0) 8 sampleTags :=
    laid_memory (List.replicate 8 0) (by decide +kernel)
  refine ⟨hlaid, by decide +kernel, fun fuel => ⟨?_, ?_⟩⟩
  · rw [visited, if_pos rfl]
    exact (List.cons_ne_nil _ _).symm
  · intro s hs
    rw [scan, if_pos rfl] at hs
    rw [← Option.some.inj hs]
    rfl

end TagScan
