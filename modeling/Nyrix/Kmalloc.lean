import Mathlib.Data.List.FinRange
import Nyrix.Base.FreeList
import Nyrix.Pmm

/-!
# The kernel heap (kmalloc.cpp)

Eight caches of fixed block sizes, each with a list of free blocks. The first word of a free
block is the link to the next one; in a block handed out it is the header, which holds the
address of the block's cache, or 0 for a page taken directly. The array `caches` stands at
`cachesAddr`.
-/

namespace Kmalloc

open ByteMemory BoundedLoop

structure CacheInfo where
  blockSize : Nat
  realBlockSize : Nat
  freeList : Nat
  totalPages : Nat

/-- BLOCK_SIZES. -/
def blockSizes (i : Fin 8) : Nat := [16, 32, 64, 128, 256, 512, 1024, 2048].getD i 0

/-- `BLOCK_SIZES[NUM_CACHES - 1]`. -/
def largestBlock : Nat := blockSizes 7

/-- `sizeof(AllocHeader)`. -/
def headerSize : Nat := 4

structure State where
  pmm : Pmm.State
  caches : Fin 8 → CacheInfo

/-- The static initial values. -/
def State.boot (pmm : Pmm.State) : State := ⟨pmm, fun _ => ⟨0, 0, 0, 0⟩⟩

/-- `&caches[i]`. -/
def cacheAddr (cachesAddr : Nat) (i : Fin 8) : Nat := cachesAddr + 16 * i

def setPmm (pmm : Pmm.State) (s : State) : State := { s with pmm := pmm }

def setMem (m : Mem) (s : State) : State := { s with pmm := { s.pmm with mem := m } }

def setCache (i : Fin 8) (c : CacheInfo) (s : State) : State :=
  { s with caches := Function.update s.caches i c }

section Updates

variable (i : Fin 8) (c : CacheInfo) (s : State)

@[simp] theorem setCache_same : (setCache i c s).caches i = c := Function.update_self _ _ _

theorem setCache_of_ne {j : Fin 8} (h : j ≠ i) : (setCache i c s).caches j = s.caches j :=
  Function.update_of_ne h _ _

end Updates

/-- Put a block in front of the free list of a cache. -/
def pushBlock (i : Fin 8) (block : Nat) (s : State) : State :=
  setCache i { s.caches i with freeList := block }
    (setMem (store32 s.pmm.mem block (BitVec.ofNat 32 (s.caches i).freeList)) s)

def cacheGrow (i : Fin 8) (s : State) : State :=
  let page := (Pmm.pmmAllocPage s.pmm).1
  let s := setPmm (Pmm.pmmAllocPage s.pmm).2 s
  if page = 0 then s
  else
    let s := setCache i { s.caches i with totalPages := (s.caches i).totalPages + 1 } s
    let blockSz := (s.caches i).realBlockSize
    forUp (fun k s => pushBlock i (page + blockSz * k) s) 0 (4096 / blockSz) s

/-- The fields `kmalloc_init` sets before the cache gets its first page. -/
def initCache (i : Fin 8) (s : State) : State :=
  setCache i ⟨blockSizes i, blockSizes i + headerSize, 0, 0⟩ s

def kmallocInit (s : State) : State :=
  (List.finRange 8).foldl (fun s i => cacheGrow i (initCache i s)) s

/-- A whole page, for requests past the largest block. -/
def kmallocPage (s : State) : Nat × State :=
  let page := (Pmm.pmmAllocPage s.pmm).1
  let s := setPmm (Pmm.pmmAllocPage s.pmm).2 s
  if page = 0 then (0, s)
  else (page + headerSize, setMem (store32 s.pmm.mem page 0#32) s)

/-- Grow a cache that has run out of blocks. -/
def refill (i : Fin 8) (s : State) : State :=
  if (s.caches i).freeList = 0 then cacheGrow i s else s

/-- The first block of a cache. -/
def takeBlock (cachesAddr : Nat) (i : Fin 8) (s : State) : Nat × State :=
  let block := (s.caches i).freeList
  if block = 0 then (0, s)
  else
    let s := setCache i { s.caches i with freeList := (load32 s.pmm.mem block).toNat } s
    (block + headerSize,
      setMem (store32 s.pmm.mem block (BitVec.ofNat 32 (cacheAddr cachesAddr i))) s)

/-- The first cache whose blocks are large enough. -/
def cacheFor (size : Nat) (s : State) : Option (Fin 8) :=
  (List.finRange 8).find? (fun i => size ≤ (s.caches i).blockSize)

def kmalloc (cachesAddr size : Nat) (s : State) : Nat × State :=
  if size = 0 then (0, s)
  else if largestBlock < size then kmallocPage s
  else
    match cacheFor size s with
    | some i => takeBlock cachesAddr i (refill i s)
    | none => (0, s)

/-- `none` when the header holds no cache: then the code would write to a wild address. -/
def kfree (cachesAddr ptr : Nat) (s : State) : Option State :=
  if ptr = 0 then some s
  else
    let header := (ptr + 4294967296 - headerSize) % 4294967296
    let cacheId := (load32 s.pmm.mem header).toNat
    if cacheId = 0 then some (setPmm (Pmm.pmmFreePage header s.pmm) s)
    else ((List.finRange 8).find? (fun i => cacheAddr cachesAddr i = cacheId)).map
      fun i => pushBlock i header s

end Kmalloc
