import Nyrix.Base.BoundedLoop
import Nyrix.Base.PackedBits
import Nyrix.Base.PageTable
import Nyrix.Multiboot

/-!
# Building the page tables (paging.cpp)

The directory stands at 0x200000, the table for the first 4 MiB at 0x201000, and further
tables come from a bump pointer that starts at 0x202000. Their frames are ordinary memory,
read and written at their own addresses; writing CR3 and CR0 changes no memory and is left
out.
-/

namespace Paging

open ByteMemory BoundedLoop PackedBits PageTable Multiboot

structure State where
  mem : Mem
  pageDirectory : Nat
  nextPt : Nat

/-- The static initial values. -/
def State.boot (mem : Mem) : State := ⟨mem, 0, 0x202000⟩

def pdIdx (addr : Nat) : Nat := (addr >>> 22) &&& 0x3FF
def ptIdx (addr : Nat) : Nat := (addr >>> 12) &&& 0x3FF

/-- Give directory slot `d` a zeroed table unless it has one. -/
def ensureTable (d : Nat) (s : State) : State :=
  if Present (pde s.mem s.pageDirectory d) then s
  else
    let pt := s.nextPt
    let mem := fill pt (fun _ => 0#32) 1024 s.mem
    { s with
      nextPt := (s.nextPt + 0x1000) % 4294967296
      mem := store32 mem (s.pageDirectory + 4 * d) (withFlags (BitVec.ofNat 32 pt)) }

/-- `pt[pt_idx] = phys | flags`, in the table of the slot of `phys`. -/
def setEntry (phys : Nat) (s : State) : State :=
  let pt := frameOf (pde s.mem s.pageDirectory (pdIdx phys))
  { s with mem := store32 s.mem (pt + 4 * ptIdx phys) (withFlags (BitVec.ofNat 32 phys)) }

/-- The body shared by the loops of both functions. -/
def mapPage (phys : Nat) (s : State) : State := setEntry phys (ensureTable (pdIdx phys) s)

/-- `for (phys = base; phys < stop; phys += 0x1000)`; both bounds are multiples of the
step, so the counter reaches `stop` without wrapping. -/
def mapRange (base stop : Nat) (s : State) : State :=
  forUp (fun k => mapPage (base + 0x1000 * k)) 0 ((stop - base + 0xFFF) / 0x1000) s

def pagingMapFramebuffer (addr size : BitVec 64) (s : State) : State :=
  if s.pageDirectory = 0 then s
  else
    let alignedBase := addr &&& ~~~0xFFF#64
    let alignedEnd := (addr + size + 0xFFF#64) &&& ~~~0xFFF#64
    mapRange alignedBase.toNat alignedEnd.toNat s

def alignedBase (e : MmapEntry) : BitVec 64 := (e.addr + 0xFFF#64) &&& ~~~0xFFF#64

def alignedLen (e : MmapEntry) : BitVec 64 := (e.len - (alignedBase e - e.addr)) &&& ~~~0xFFF#64

/-- The bounds of the mapping loop for an entry, with the first 4 MiB cut off; `none` for
an entry that is passed over. -/
def entryRange (e : MmapEntry) : Option (BitVec 64 × BitVec 64) :=
  if e.type = 1#32 then
    let base := alignedBase e
    let len := alignedLen e
    if base < 0x400000#64 then
      if base + len ≤ 0x400000#64 then none
      else some (0x400000#64, 0x400000#64 + (len - (0x400000#64 - base)))
    else some (base, base + len)
  else none

def mapEntry (e : MmapEntry) (s : State) : State :=
  match entryRange e with
  | some (base, stop) => mapRange base.toNat stop.toNat s
  | none => s

structure Walk where
  entry : Nat
  paging : State

def walkCond (mmapAddr mmapLength : Nat) (w : Walk) : Bool :=
  decide (w.entry < (mmapAddr + mmapLength) % 4294967296)

def walkBody (w : Walk) : Walk where
  entry := (w.entry + entrySize) % 4294967296
  paging := mapEntry (entryAt w.paging.mem w.entry) w.paging

/-- `pt[pt_idx] |= PAGE_USER` for a page that is mapped. -/
def addUser (addr : Nat) (s : State) : State :=
  if Present (pde s.mem s.pageDirectory (pdIdx addr)) then
    let pt := frameOf (pde s.mem s.pageDirectory (pdIdx addr))
    let entry := load32 s.mem (pt + 4 * ptIdx addr)
    if Present entry then { s with mem := store32 s.mem (pt + 4 * ptIdx addr) (entry ||| 4#32) }
    else s
  else s

/-- The loop that shares the pages of the IDT: 256 gates of 8 bytes. -/
def idtCond (idtEntries : Nat) (w : Walk) : Bool :=
  decide (w.entry < (idtEntries + 8 * 256) % 4294967296)

def idtBody (w : Walk) : Walk where
  entry := (w.entry + 0x1000) % 4294967296
  paging := addUser w.entry w.paging

/-- The directory and the table of the first 4 MiB. -/
def lowTables (s : State) : State :=
  let mem := fill 0x200000 (fun _ => 0#32) 1024 s.mem
  let mem := fill 0x201000 (fun i => withFlags (BitVec.ofNat 32 (i * 4096))) 1024 mem
  { s with
    pageDirectory := 0x200000
    mem := store32 mem 0x200000 (withFlags 0x201000#32) }

def pagingInitFull (fuel idtEntries mmapAddr mmapLength : Nat) (s : State) : Option State :=
  (whileLoop (walkCond mmapAddr mmapLength) walkBody fuel ⟨mmapAddr, lowTables s⟩).bind fun w =>
    let s := forUp (fun k => addUser (0x100000 + 0x1000 * k)) 0 0x300 w.paging
    (whileLoop (idtCond idtEntries) idtBody fuel ⟨idtEntries / 0x1000 * 0x1000, s⟩).map
      fun w => w.paging

end Paging
