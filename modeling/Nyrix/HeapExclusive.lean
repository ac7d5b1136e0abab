import Nyrix.HeapPartition

/-!
# What a caller of kmalloc may use

The bytes a caller asked for are its own as long as they fit in one page behind the
header. Above that `kmalloc` still returns a single page, and the range runs past it.
-/

namespace Kmalloc

open ByteMemory FreeList BlockPool Pmm

section

variable {cachesAddr : Nat} {base : Pmm.State} {w : World}

end

section RamMap

variable {fuel : Nat} {t : Pmm.State} (h : pmmInit fuel 0x110000 0x9000 24 ramMap = some t)
include h

end RamMap

end Kmalloc
