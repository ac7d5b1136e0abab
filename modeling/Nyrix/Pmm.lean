import Mathlib.Data.BitVec
import Nyrix.Base.PackedBits
import Nyrix.Multiboot

/-!
# The physical page allocator (pmm.cpp)

One bit for each page from `_kernel_end` on; a set bit means the page is taken. The
static variables of pmm.cpp are the fields of `State` beside the memory they point
into. `size_t` is 32 bits wide on this target.
-/

namespace Pmm

open ByteMemory BoundedLoop PackedBits Multiboot

def pageSize : Nat := 4096

structure State where
  mem : Mem
  bitmap : Nat
  totalPages : Nat
  freePages : BitVec 32
  earlyAlloc : Bool
  gMmapAddr : Nat
  gMmapLength : Nat

/-- The static initial values. -/
def State.boot (mem : Mem) : State := ⟨mem, 0, 0, 0, false, 0, 0⟩

def pmmSetEarlyAlloc (val : Bool) (s : State) : State := { s with earlyAlloc := val }

def bitmapSet (s : State) (page : Nat) : State := { s with mem := setBit s.mem s.bitmap page }
def bitmapClear (s : State) (page : Nat) : State := { s with mem := clearBit s.mem s.bitmap page }
def bitmapTest (s : State) (page : Nat) : Bool := testBit s.mem s.bitmap page

/-- `~(PAGE_SIZE - 1)` is a 32-bit value: it widens with zeros in a 64-bit expression. -/
def alignMask : BitVec 64 := (~~~(4096#32 - 1#32)).setWidth 64

def alignedBase (base : BitVec 64) : BitVec 64 := (base + 4096#64 - 1#64) &&& alignMask

def alignedLen (base len : BitVec 64) : BitVec 64 := (len - (alignedBase base - base)) &&& alignMask

/-- The bounds of the inner loop of the map walk. -/
def regionStart (e : MmapEntry) : Nat := (alignedBase e.addr / 4096#64).toNat
def regionEnd (e : MmapEntry) : Nat :=
  ((alignedBase e.addr + alignedLen e.addr e.len) / 4096#64).toNat

/-- One round of the inner loop; the `uint64_t` page number narrows to `size_t`. -/
def visitPage (page : Nat) (s : State) : State :=
  if !bitmapTest s (page % 4294967296) then
    { bitmapClear s (page % 4294967296) with freePages := s.freePages + 1 }
  else s

structure Walk where
  entry : Nat
  pmm : State

def walkCond (mmapAddr mmapLength : Nat) (w : Walk) : Bool :=
  decide (w.entry < (mmapAddr + mmapLength) % 4294967296)

/-- One round of the map walk: a usable entry moves the pointer on by 8 bytes more. -/
def walkBody (w : Walk) : Walk :=
  let e := entryAt w.pmm.mem w.entry
  let s :=
    if e.type = 1#32 then
      forUp visitPage (regionStart e) (regionEnd e - regionStart e) w.pmm
    else w.pmm
  { entry := (w.entry + entrySize + if (entryAt s.mem w.entry).type = 1#32 then 8 else 0)
      % 4294967296
    pmm := s }

/-- One round of the reservation loop. -/
def reservePage (page : Nat) (s : State) : State :=
  if !bitmapTest s page then
    { bitmapSet s page with freePages := s.freePages - 1 }
  else s

/-- `kernel_end_phys / PAGE_SIZE + 1`: the pages up to the end of the bitmap. -/
def reservedPages (bitmap bitmapSize : Nat) : Nat :=
  (bitmap + bitmapSize) % 4294967296 / pageSize + 1

/-- The state in which the map walk starts: sizes set, bitmap words zeroed. -/
def walkStart (kernelEnd mmapAddr mmapLength : Nat) (s : State) : State :=
  let totalPages := 0xFFFFFFFF / pageSize
  { s with
    mem := fill kernelEnd (fun _ => 0#32) (totalPages / 32) s.mem
    bitmap := kernelEnd
    totalPages := totalPages
    freePages := 0
    gMmapAddr := mmapAddr
    gMmapLength := mmapLength }

def pmmInit (fuel kernelEnd mmapAddr mmapLength : Nat) (s : State) : Option State :=
  let s := walkStart kernelEnd mmapAddr mmapLength s
  let bitmapSize := s.totalPages / 8
  (whileLoop (walkCond mmapAddr mmapLength) walkBody fuel ⟨mmapAddr, s⟩).map fun w =>
    forUp reservePage 0 (reservedPages w.pmm.bitmap bitmapSize) w.pmm

/-- The pages `pmm_alloc_page` searches are those below this bound. -/
def searchEnd (s : State) : Nat := if s.earlyAlloc then 0x400000 / pageSize else s.totalPages

/-- The result is an address, 0 for the null pointer. -/
def pmmAllocPage (s : State) : Nat × State :=
  match (List.range (searchEnd s)).find? (fun page => !bitmapTest s page) with
  | some page => (page * pageSize, { bitmapSet s page with freePages := s.freePages - 1 })
  | none => (0, s)

def pmmFreePage (addr : Nat) (s : State) : State :=
  let page := addr / pageSize
  if bitmapTest s page then
    { bitmapClear s page with freePages := s.freePages + 1 }
  else s

def pmmFreePagesCount (s : State) : BitVec 32 := s.freePages

/-- `pmm_alloc_page` takes the first clear page of its range, or finds none. -/
theorem pmmAllocPage_cases (s : State) :
    (∃ page < searchEnd s, bitmapTest s page = false ∧ (∀ q < page, bitmapTest s q = true) ∧
      pmmAllocPage s =
        (page * pageSize, { bitmapSet s page with freePages := s.freePages - 1 })) ∨
    ((∀ q < searchEnd s, bitmapTest s q = true) ∧ pmmAllocPage s = (0, s)) := by
  cases hf : (List.range (searchEnd s)).find? (fun page => !bitmapTest s page) with
  | some page =>
    refine .inl ⟨page, ?_, ?_, ?_, by simp only [pmmAllocPage, hf]⟩
    · exact List.mem_range.mp (List.mem_of_find?_eq_some hf)
    · simpa using List.find?_some hf
    · intro q hq
      have hlt := List.mem_range.mp (List.mem_of_find?_eq_some hf)
      have hb := (List.find?_range_eq_some.mp hf).2.2 q hq
      simpa using hb
  | none =>
    refine .inr ⟨?_, by simp only [pmmAllocPage, hf]⟩
    intro q hq
    have hn := List.find?_eq_none.mp hf q (List.mem_range.mpr hq)
    simpa using hn

/-- What the allocator is asked to do between boot and shutdown. -/
inductive Op where
  | setEarlyAlloc (val : Bool)
  | allocPage
  | freePage (addr : Nat)
  deriving DecidableEq

/-- The pointer an operation returns, if it returns one, and the state after it. -/
def step (s : State) : Op → Option Nat × State
  | .setEarlyAlloc val => (none, pmmSetEarlyAlloc val s)
  | .allocPage => (some (pmmAllocPage s).1, (pmmAllocPage s).2)
  | .freePage addr => (none, pmmFreePage addr s)

def run (s : State) : List Op → State
  | [] => s
  | op :: ops => run (step s op).2 ops

/-- The pointers returned along a run, in order. -/
def results (s : State) : List Op → List Nat
  | [] => []
  | op :: ops => (step s op).1.toList ++ results (step s op).2 ops

end Pmm
