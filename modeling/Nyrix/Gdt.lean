import Nyrix.Base.RingChange

/-!
# The descriptor table (gdt.cpp)

The access byte of an entry holds the privilege level of its segment. The bases and limits are
left out: every segment but the task state spans the address space.
-/

namespace Gdt

open IA32

/-- The access bytes of `gdt_entries`. -/
def access : List (BitVec 8) := [0x00, 0x9A, 0x92, 0xFA, 0xF2, 0x89]

/-- The entry a selector names. -/
def accessOf (sel : BitVec 16) : BitVec 8 := access.getD (sel.toNat / 8) 0

def descriptors : Descriptors where
  dpl := fun sel => (accessOf sel).extractLsb' 5 2
  conforming := fun sel => accessOf sel &&& 0x1C#8 == 0x1C#8

/-- The kernel's data segment is lost on the way to Ring 3. -/
theorem clear_kernelData : descriptors.clear 3#2 0x10#16 = 0#16 := by decide

end Gdt
