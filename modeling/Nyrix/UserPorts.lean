import Nyrix.InterruptDelivery

/-!
# The ports Ring 3 code may access (tss.cpp)

`tss_init` leaves `iomap_base` zero, so the map of permitted ports starts with the task segment
itself: a port is open where the bit there is clear, up to the end of the segment.
-/

namespace DescriptorTables

open ByteMemory IA32
open Syscall (userCode)

theorem byteOf_getLsbD (w : BitVec 32) (i : Nat) {j : Nat} (hj : j < 8) :
    (byteOf w i).getLsbD j = w.getLsbD (8 * i + j) := by
  have hpow : (256 : Nat) ^ i = 2 ^ (8 * i) := by rw [Nat.pow_mul]
  rw [byteOf, BitVec.getLsbD_ofNat, hpow, Nat.testBit_div_two_pow, decide_eq_true hj,
    Bool.true_and, Nat.add_comm]
  rfl

/-- The bit of a port in the task segment. -/
theorem tssByte_bit (top : BitVec 32) (port : Nat) :
    (tssByte top (port / 8)).getLsbD (port % 8) = true ↔
      port = 0x44 ∨ 32 ≤ port ∧ port < 64 ∧ top.getLsbD (port - 32) = true := by
  have hmod := Nat.mod_lt port (by decide : 0 < 8)
  have hdiv := Nat.div_add_mod port 8
  have hzero : (0 : BitVec 8).getLsbD (port % 8) = false := BitVec.getLsbD_zero
  rw [tssByte]
  split_ifs with hlow hmid height
  · rw [hzero]
    simp
    omega
  · have hbit : 8 * (port / 8 - 4) + port % 8 = port - 32 := by omega
    rw [byteOf_getLsbD _ _ hmod, hbit]
    have hne : port ≠ 0x44 := by omega
    have hin : 32 ≤ port ∧ port < 64 := by omega
    simp [hne, hin]
  · have hall : ∀ i < 8, (0x10 : BitVec 8).getLsbD i = decide (i = 4) := by decide
    rw [hall _ hmod, decide_eq_true_iff]
    omega
  · rw [hzero]
    simp
    omega

section Ports

variable {st : Statics} {stub : Nat → BitVec 32} {s : State} {port : Nat}

/-- Which ports are open to code outside the I/O privilege level. -/
def Open (top : BitVec 32) (port : Nat) : Prop :=
  port < 824 ∧ port ≠ 0x44 ∧ ¬(32 ≤ port ∧ port < 64 ∧ top.getLsbD (port - 32) = true)

theorem mapAllows_iff (h : Installed st stub s.mem) :
    mapAllows (systemRegs st) s.mem port = true ↔ Open st.kernelStackTop port := by
  have hbase : load16 s.mem ((systemRegs st).task.base + 102) = 0 := by
    have hlow := h.tss 102 (by decide)
    have hhigh := h.tss 103 (by decide)
    have hbytes : tssByte st.kernelStackTop 102 = 0 ∧ tssByte st.kernelStackTop 103 = 0 :=
      ⟨rfl, rfl⟩
    rw [load16, systemRegs, hlow, Nat.add_assoc, hhigh, hbytes.1, hbytes.2]
    rfl
  have hlimit : (systemRegs st).task.limit = 103 := rfl
  have hzero : ((0 : BitVec 16).toNat + port / 8) = port / 8 := Nat.zero_add _
  rw [mapAllows, hbase, hzero, hlimit, Bool.and_eq_true, decide_eq_true_iff, Bool.not_eq_true',
    Open]
  by_cases hin : port < 824
  · have hbyte := h.tss (port / 8) (by simp only [tssSize]; omega)
    have hbit := tssByte_bit st.kernelStackTop port
    have hfits : port / 8 + 1 ≤ 103 := by omega
    rw [systemRegs, hbyte, ← Bool.not_eq_true, hbit, not_or]
    exact ⟨fun h => ⟨hin, h.2⟩, fun h => ⟨hfits, h.2⟩⟩
  · have hbeyond : ¬port / 8 + 1 ≤ 103 := by omega
    exact ⟨fun h => absurd h.1 hbeyond, fun h => absurd h.1 hin⟩

/-- However the tables and the kernel stack lie, once `kernel_main` has set the tables up and as
long as no one writes to them, Ring 3 code without the I/O privilege gets through to exactly these
ports. -/
theorem ring3_ports (st : Statics) (hlayout : Layout st) (r : SystemRegs) (m : Mem) :
    ∃ m', initTables st r m = some (systemRegs st, m') ∧ ∀ s : State, TablesKept st m' s.mem →
      cpl s = 3#2 → iopl s = 0#2 → ∀ port,
        portAllowed (systemRegs st) port s = true ↔ Open st.kernelStackTop port := by
  obtain ⟨m', hinit, hinstalled⟩ := initTables_installed hlayout r m
  refine ⟨m', hinit, fun s hkept hring hiopl port => ?_⟩
  have hdenied : ¬cpl s ≤ iopl s := by
    rw [hring, hiopl]
    decide
  rw [portAllowed, decide_eq_false hdenied, Bool.false_or]
  exact mapAllows_iff (hinstalled.kept hkept)

/-- Such code can reset the machine through port 0x64 and cannot use COM1. -/
theorem ring3_ports_sample : ∃ m', initTables sampleStatics ⟨⟨0, 0⟩, ⟨0, 0⟩, ⟨0, 0⟩⟩
      (fun _ => 0) = some (systemRegs sampleStatics, m') ∧
    portAllowed (systemRegs sampleStatics) 0x64 { userCode with mem := m' } = true ∧
    ¬portAllowed (systemRegs sampleStatics) 0x3F8 { userCode with mem := m' } = true := by
  obtain ⟨m', hinit, hall⟩ := ring3_ports sampleStatics sampleStatics_layout
    ⟨⟨0, 0⟩, ⟨0, 0⟩, ⟨0, 0⟩⟩ (fun _ => 0)
  have hkept : TablesKept sampleStatics m' m' := ⟨fun _ _ => rfl, fun _ _ => rfl, fun _ _ => rfl⟩
  have hiopl : (0x202#32).extractLsb' 12 2 = 0#2 := by decide
  have hring : cpl userCode = 3#2 := by decide
  have hports := hall { userCode with mem := m' } hkept hring hiopl
  refine ⟨m', hinit, (hports 0x64).mpr ⟨by decide, by decide, by omega⟩, fun h => ?_⟩
  have hopen := (hports 0x3F8).mp h
  exact absurd hopen.1 (by decide)

end Ports

end DescriptorTables
