import Nyrix.Base.Decimal

/-!
# Numbers in the output of the shell's commands (`commands.cpp`)
-/

namespace Commands

open CharBuffer Decimal

/-- A store into `buf`, an array of `size` bytes, at an index of type `int`. -/
def store (size : Nat) (buf : Buffer) (pos : Int) (c : BitVec 8) : Option Buffer :=
  if 0 ≤ pos then write size buf pos.toNat c else none

/-- `while (num > 0) { buf[--pos] = '0' + (num % 10); num /= 10; }` -/
def storeDigits (size num : Nat) (pos : Int) (buf : Buffer) : Option (Int × Buffer) :=
  if 0 < num then
    (store size buf (pos - 1) (digit num)).bind (storeDigits size (num / 10) (pos - 1))
  else some (pos, buf)
termination_by num

/-- The start index and the array after the call; `none` for a store outside the array. -/
def uintToStr (num : BitVec 32) (buf : Buffer) (bufSize : BitVec 32) : Option (Int × Buffer) :=
  -- the `size_t` is converted to `int`: from 2^31 + 1 on, `pos` is negative
  let pos := (bufSize - 1#32).toInt
  (store bufSize.toNat buf pos 0#8).bind fun buf =>
    if num = 0#32 then (store bufSize.toNat buf (pos - 1) 0x30#8).map (Prod.mk (pos - 1))
    else storeDigits bufSize.toNat num.toNat pos buf

/-- The call stores inside the array only, below the start index it leaves the array as it was,
and from there on the array holds the numeral of `num` up to its last index. -/
def Prints (num : BitVec 32) (buf : Buffer) (bufSize : BitVec 32) : Prop :=
  ∃ (start : Nat) (out : Buffer), uintToStr num buf bufSize = some (Int.ofNat start, out) ∧
    Numeral out start (bufSize.toNat - 1) num.toNat ∧
    ∀ i, i < start ∨ bufSize.toNat ≤ i → out i = buf i

theorem store_some {size i : Nat} (buf : Buffer) (c : BitVec 8) (h : i < size) :
    store size buf i c = some (Function.update buf i c) := by
  simp [store, write_some _ _ h]

theorem store_neg {size : Nat} {pos : Int} (buf : Buffer) (c : BitVec 8) (h : pos < 0) :
    store size buf pos c = none := by
  simp [store, h]

/-- Room for ten digits in front of the NUL is enough for the loop, whatever the quotient. -/
theorem storeDigits_numeral {size q n pos e : Nat} {buf : Buffer} (h : Partly buf pos e q n)
    (hn : 0 < n) (hsmall : n < 10 ^ 10) (he : 10 ≤ e) (hsize : e < size) :
    ∃ (start : Nat) (out : Buffer), storeDigits size q pos buf = some (Int.ofNat start, out) ∧
      start ≤ pos ∧ Numeral out start e n ∧ ∀ i, i < start ∨ e < i → out i = buf i := by
  induction q using Nat.strong_induction_on generalizing pos buf with
  | _ q ih =>
    rw [storeDigits]
    by_cases hq : 0 < q
    · have hle := h.le
      have hroom := h.lt_of_pos hq hsmall
      obtain ⟨p, rfl⟩ : ∃ p, pos = p + 1 := ⟨pos - 1, by omega⟩
      have hp : ((p + 1 : Nat) : Int) - 1 = p := by omega
      obtain ⟨start, out, hrun, hstart, hnum, hframe⟩ := ih (q / 10) (by omega) (h.prepend hq)
      rw [if_pos hq, hp, store_some _ _ (by omega), Option.bind_some]
      refine ⟨start, out, hrun, by omega, hnum, ?_⟩
      intro i hi
      have hne : i ≠ p := by omega
      rw [hframe i hi, Function.update_of_ne hne]
    · obtain rfl : q = 0 := by omega
      rw [if_neg hq]
      exact ⟨pos, buf, rfl, le_rfl, h.numeral hn, fun _ _ => rfl⟩

/-- Up to 2^31 bytes the last index of the array is a value of `int`. -/
theorem last_toInt {bufSize : BitVec 32} (hlo : 11#32 ≤ bufSize) (hhi : bufSize ≤ 0x80000000#32) :
    (bufSize - 1#32).toInt = Int.ofNat (bufSize.toNat - 1) := by
  simp only [BitVec.le_def, BitVec.toNat_ofNat] at hlo hhi
  have hsub : (bufSize - 1#32).toNat = bufSize.toNat - 1 := by bv_omega
  rw [BitVec.toInt_eq_toNat_of_lt (by omega), hsub]
  rfl

/-- For every number and every buffer of 11 to 2^31 bytes, `uint_to_str` stores inside the buffer
and leaves the number's numeral at its end. -/
theorem uintToStr_prints (num bufSize : BitVec 32) (buf : Buffer) (hlo : 11#32 ≤ bufSize)
    (hhi : bufSize ≤ 0x80000000#32) : Prints num buf bufSize := by
  have hlast := last_toInt hlo hhi
  simp only [BitVec.le_def, BitVec.toNat_ofNat] at hlo
  obtain ⟨e, he⟩ : ∃ e, bufSize.toNat = e + 1 := ⟨bufSize.toNat - 1, by omega⟩
  rw [he, Nat.add_sub_cancel] at hlast
  simp only [Prints, uintToStr, hlast, he, Nat.add_sub_cancel, Int.ofNat_eq_natCast]
  rw [store_some _ _ (by omega), Option.bind_some]
  have hnul : Function.update buf e 0#8 e = 0#8 := Function.update_self e 0#8 buf
  by_cases hzero : num = 0#32
  · obtain ⟨d, rfl⟩ : ∃ d, e = d + 1 := ⟨e - 1, by omega⟩
    have hd : ((d + 1 : Nat) : Int) - 1 = d := by omega
    rw [if_pos hzero, hd, store_some _ _ (by omega), hzero]
    refine ⟨d, _, rfl, numeral_zero hnul, ?_⟩
    intro i hi
    have hne : i ≠ d := by omega
    have hne' : i ≠ d + 1 := by omega
    rw [Function.update_of_ne hne, Function.update_of_ne hne']
  · have hpos : 0 < num.toNat := by
      apply Nat.pos_of_ne_zero
      intro h
      exact hzero (BitVec.eq_of_toNat_eq h)
    obtain ⟨start, out, hrun, hstart, hnum, hframe⟩ :=
      storeDigits_numeral (partly_start hnul) hpos (by omega) (by omega) (Nat.lt_succ_self e)
    rw [if_neg hzero]
    refine ⟨start, out, hrun, hnum, ?_⟩
    intro i hi
    have hlt := hnum.nonempty
    have hne : i ≠ e := by omega
    rw [hframe i (by omega), Function.update_of_ne hne]

theorem uintToStr_prints_memstat : Prints 32768#32 (fun _ => 0xFF#8) 20#32 :=
  uintToStr_prints 32768#32 20#32 (fun _ => 0xFF#8) (by decide) (by decide)

/-- One byte beyond 2^31 the first store is at index -2^31. -/
theorem uintToStr_negative_index :
    11#32 ≤ 0x80000001#32 ∧ ¬ Prints 0#32 (fun _ => 0xFF#8) 0x80000001#32 := by
  constructor
  · decide
  · intro h
    obtain ⟨start, out, hrun, -⟩ := h
    have hneg : (0x80000001#32 - 1#32).toInt < 0 := by decide
    rw [uintToStr, store_neg _ _ hneg] at hrun
    simp at hrun

end Commands
