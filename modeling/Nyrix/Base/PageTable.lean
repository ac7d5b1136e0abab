import Mathlib.Data.BitVec
import Nyrix.Base.ByteMemory

/-!
# Two-level page tables of the 32-bit x86

A directory of 1024 words points to tables of 1024 words. A word with bit 0 set is
present; bits 12 to 31 are the address of a frame. `translate` is the walk of the MMU.
-/

namespace PageTable

open ByteMemory

def Present (w : BitVec 32) : Prop := w &&& 1#32 ≠ 0#32

instance (w : BitVec 32) : Decidable (Present w) := inferInstanceAs (Decidable (_ ≠ _))

/-- The frame address in an entry. -/
def frameOf (w : BitVec 32) : Nat := (w &&& ~~~0xFFF#32).toNat

/-- The three flags a supervisor sets to share a page: present, writable, user. -/
def withFlags (x : BitVec 32) : BitVec 32 := x ||| 1#32 ||| 2#32 ||| 4#32

/-- The entry that points to frame number `p` with all three flags set. -/
def sharedEntry (p : Nat) : BitVec 32 := withFlags (BitVec.ofNat 32 (4096 * p))

/-- The directory entry for directory index `d`. -/
def pde (m : Mem) (dir d : Nat) : BitVec 32 := load32 m (dir + 4 * d)

/-- The table entry `t` of the table a directory entry points to. -/
def pte (m : Mem) (dir d t : Nat) : BitVec 32 := load32 m (frameOf (pde m dir d) + 4 * t)

/-- The physical address of `v`, if the directory at `dir` maps it. -/
def translate (m : Mem) (dir v : Nat) : Option Nat :=
  let d := v / 4194304
  let t := v / 4096 % 1024
  if Present (pde m dir d) ∧ Present (pte m dir d t) then
    some (frameOf (pte m dir d t) + v % 4096)
  else none

@[simp] theorem not_present_zero : ¬Present 0#32 := by decide

@[simp] theorem present_withFlags (x : BitVec 32) : Present (withFlags x) := by
  intro h
  have := congrArg (fun y => BitVec.getLsbD y 0) h
  simp [withFlags] at this

theorem present_sharedEntry (p : Nat) : Present (sharedEntry p) := present_withFlags _

theorem withFlags_user (x : BitVec 32) : withFlags x ||| 4#32 = withFlags x := by
  rw [withFlags, BitVec.or_assoc, BitVec.or_self]

/-- All three flags are set in a shared entry. -/
theorem withFlags_and_flags (x : BitVec 32) : withFlags x &&& 7#32 = 7#32 := by
  have hf : ∀ i < 32, (1#32 ||| 2#32 ||| 4#32).getLsbD i = (7#32).getLsbD i := by decide
  have hor : withFlags x = x ||| (1#32 ||| 2#32 ||| 4#32) := by
    simp only [withFlags, BitVec.or_assoc]
  apply BitVec.eq_of_getLsbD_eq
  intro i hi
  rw [hor, BitVec.getLsbD_and, BitVec.getLsbD_or, hf i hi]
  cases (7#32).getLsbD i <;> simp

theorem ofNat_page (p : Nat) : BitVec.ofNat 32 (4096 * p) = BitVec.ofNat 32 p <<< 12 := by
  apply BitVec.eq_of_toNat_eq
  simp only [BitVec.toNat_ofNat, BitVec.toNat_shiftLeft, Nat.shiftLeft_eq]
  omega

theorem frameOf_sharedEntry {p : Nat} (hp : p < 1048576) : frameOf (sharedEntry p) = 4096 * p := by
  have hkeep : ∀ i < 32, (~~~0xFFF#32).getLsbD i = decide (12 ≤ i) := by decide
  have hflag : ∀ i < 32, (1#32 ||| 2#32 ||| 4#32).getLsbD i = decide (i < 3) := by decide
  have hand : sharedEntry p &&& ~~~0xFFF#32 = BitVec.ofNat 32 (4096 * p) := by
    apply BitVec.eq_of_getLsbD_eq
    intro i hi
    have hor : sharedEntry p = BitVec.ofNat 32 p <<< 12 ||| (1#32 ||| 2#32 ||| 4#32) := by
      simp only [sharedEntry, withFlags, ofNat_page, BitVec.or_assoc]
    rw [hor, BitVec.getLsbD_and, BitVec.getLsbD_or, hkeep i hi, hflag i hi, ofNat_page,
      BitVec.getLsbD_shiftLeft]
    by_cases h : 12 ≤ i
    · have hflags : ¬i < 3 := by omega
      simp [h, hi, hflags]
    · have hlow : i < 12 := by omega
      simp [h, hlow]
  rw [frameOf, hand, BitVec.toNat_ofNat]
  omega

/-- Clearing the low 12 bits of a 64-bit address rounds it down to a page. -/
theorem and_pageMask (x : BitVec 64) : (x &&& ~~~0xFFF#64).toNat = x.toNat / 4096 * 4096 := by
  have hshift : x &&& ~~~0xFFF#64 = (x >>> 12) <<< 12 := by
    have hkeep : ∀ i < 64, (~~~0xFFF#64).getLsbD i = decide (12 ≤ i) := by decide
    apply BitVec.eq_of_getLsbD_eq
    intro i hi
    rw [BitVec.getLsbD_and, hkeep i hi, BitVec.getLsbD_shiftLeft, BitVec.getLsbD_ushiftRight]
    by_cases h : 12 ≤ i
    · have hhigh : ¬i < 12 := by omega
      simp [h, hi, hhigh]
    · have hlow : i < 12 := by omega
      simp [h, hlow]
  have := x.isLt
  rw [hshift, BitVec.toNat_shiftLeft, BitVec.toNat_ushiftRight, Nat.shiftRight_eq_div_pow,
    Nat.shiftLeft_eq]
  omega

end PageTable
