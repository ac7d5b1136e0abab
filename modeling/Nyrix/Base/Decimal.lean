import Mathlib.Tactic.Ring
import Nyrix.Base.CharBuffer

/-!
# Decimal numerals written backwards

A number is written into a character array from its last digit to its first. What stands in
the array part of the way is described by the quotient that is still to be written.
-/

namespace Decimal

open CharBuffer

/-- The character of the last digit of `n`. -/
def digit (n : Nat) : BitVec 8 := BitVec.ofNat 8 (0x30 + n % 10)

def IsDigit (c : BitVec 8) : Prop := 0x30 ≤ c.toNat ∧ c.toNat ≤ 0x39

/-- A string of digits read from left to right. -/
def value (cs : List (BitVec 8)) : Nat := cs.foldl (fun v c => 10 * v + (c.toNat - 0x30)) 0

theorem toNat_digit (n : Nat) : (digit n).toNat = 0x30 + n % 10 := by
  have hlt := Nat.mod_lt n (show 0 < 10 by decide)
  simp [digit]
  omega

theorem isDigit_digit (n : Nat) : IsDigit (digit n) := by
  have hlt := Nat.mod_lt n (show 0 < 10 by decide)
  simp only [IsDigit, toNat_digit]
  omega

theorem IsDigit.ne_nul {c : BitVec 8} (h : IsDigit c) : c ≠ 0#8 := by
  intro hc
  simp [IsDigit, hc] at h

theorem foldl_value (cs : List (BitVec 8)) (v : Nat) :
    cs.foldl (fun v c => 10 * v + (c.toNat - 0x30)) v = v * 10 ^ cs.length + value cs := by
  induction cs generalizing v with
  | nil => simp [value]
  | cons c cs ih =>
    simp only [value, List.foldl_cons, List.length_cons]
    rw [ih, ih (10 * 0 + _)]
    ring

theorem value_cons (c : BitVec 8) (cs : List (BitVec 8)) :
    value (c :: cs) = (c.toNat - 0x30) * 10 ^ cs.length + value cs := by
  simpa [value] using foldl_value cs (10 * 0 + (c.toNat - 0x30))

/-- The characters from `start` up to `e`. -/
def text (b : Buffer) (start e : Nat) : List (BitVec 8) := (List.range' start (e - start)).map b

@[simp] theorem text_self (b : Buffer) (e : Nat) : text b e e = [] := by simp [text]

@[simp] theorem length_text (b : Buffer) (start e : Nat) : (text b start e).length = e - start := by
  simp [text]

theorem text_cons {b : Buffer} {start e : Nat} (h : start < e) :
    text b start e = b start :: text b (start + 1) e := by
  have hlen : e - start = e - (start + 1) + 1 := by omega
  rw [text, hlen, List.range'_succ, List.map_cons, text]

/-- Characters outside the range do not show in the text. -/
theorem text_update {b : Buffer} {start e i : Nat} (c : BitVec 8) (h : i < start) :
    text (Function.update b i c) start e = text b start e := by
  apply List.map_congr_left
  intro j hj
  have hle := (List.mem_range'_1.mp hj).1
  have hne : j ≠ i := by omega
  exact Function.update_of_ne hne _ _

theorem string_eq_text {n e : Nat} {b : Buffer} (h : NulAt b 0 e) (he : e < n) :
    string n b = text b 0 e := by
  rw [string_eq h he, text, Nat.sub_zero, List.range_eq_range']

/-- A terminated numeral of `n` between `start` and the NUL at `e`. -/
structure Numeral (b : Buffer) (start e n : Nat) : Prop where
  nonempty : start < e
  nul : b e = 0#8
  digits : ∀ i, start ≤ i → i < e → IsDigit (b i)
  leading : b start = digit 0 → e = start + 1 ∧ n = 0
  reads : value (text b start e) = n

theorem Numeral.nulAt {b : Buffer} {start e n : Nat} (h : Numeral b start e n) :
    NulAt b start e where
  le := h.nonempty.le
  nul := h.nul
  text := fun i hi he => (h.digits i hi he).ne_nul

/-- The last digits of `n` stand from `pos` on, and the quotient `q` is still to be written. -/
structure Partly (b : Buffer) (pos e q n : Nat) : Prop where
  le : pos ≤ e
  nul : b e = 0#8
  digits : ∀ i, pos ≤ i → i < e → IsDigit (b i)
  leading : q = 0 → pos < e → b pos ≠ digit 0
  reads : q * 10 ^ (e - pos) + value (text b pos e) = n

variable {b : Buffer} {pos e q n : Nat}

/-- Nothing but the NUL is written. -/
theorem partly_start (hnul : b e = 0#8) : Partly b e e n n where
  le := le_rfl
  nul := hnul
  digits := by
    intro i hi he
    omega
  leading := by
    intro _ he
    omega
  reads := by simp [value]

/-- One more digit in front. -/
theorem Partly.prepend (h : Partly b (pos + 1) e q n) (hq : 0 < q) :
    Partly (Function.update b pos (digit q)) pos e (q / 10) n where
  le := by
    have := h.le
    omega
  nul := by
    have := h.le
    rw [Function.update_of_ne (by omega)]
    exact h.nul
  digits := by
    intro i hi he
    by_cases hpos : i = pos
    · subst hpos
      simpa using isDigit_digit q
    · rw [Function.update_of_ne hpos]
      exact h.digits i (by omega) he
  leading := by
    intro hlast _ hzero
    have hnat := congrArg BitVec.toNat hzero
    simp only [Function.update_self, toNat_digit] at hnat
    omega
  reads := by
    have hle := h.le
    have hlen : e - pos = e - (pos + 1) + 1 := by omega
    have hmod := Nat.div_add_mod q 10
    rw [text_cons (by omega), value_cons, text_update _ (by omega), Function.update_self,
      toNat_digit, length_text, hlen, ← h.reads]
    calc q / 10 * 10 ^ (e - (pos + 1) + 1)
          + ((0x30 + q % 10 - 0x30) * 10 ^ (e - (pos + 1)) + value (text b (pos + 1) e))
        = (10 * (q / 10) + q % 10) * 10 ^ (e - (pos + 1)) + value (text b (pos + 1) e) := by
          rw [Nat.add_sub_cancel_left]
          ring
      _ = q * 10 ^ (e - (pos + 1)) + value (text b (pos + 1) e) := by rw [hmod]

/-- While a quotient is left, fewer digits stand in the array than the number has. -/
theorem Partly.lt_of_pos {k : Nat} (h : Partly b pos e q n) (hq : 0 < q) (hn : n < 10 ^ k) :
    e - pos < k := by
  have hpow : 10 ^ (e - pos) < 10 ^ k := by
    calc 10 ^ (e - pos) ≤ q * 10 ^ (e - pos) := Nat.le_mul_of_pos_left _ hq
      _ ≤ n := by
        have := h.reads
        omega
      _ < 10 ^ k := hn
  exact (Nat.pow_lt_pow_iff_right (by decide)).mp hpow

/-- With nothing left to write the numeral of a positive number is complete. -/
theorem Partly.numeral (h : Partly b pos e 0 n) (hn : 0 < n) : Numeral b pos e n := by
  have hlt : pos < e := by
    apply Nat.lt_of_le_of_ne h.le
    intro heq
    have hreads := h.reads
    simp [heq, value] at hreads
    omega
  constructor
  case nonempty => exact hlt
  case nul => exact h.nul
  case digits => exact h.digits
  case leading =>
    intro hzero
    exact absurd hzero (h.leading rfl hlt)
  case reads => simpa using h.reads

/-- The numeral of zero is a single digit. -/
theorem numeral_zero (hnul : b (e + 1) = 0#8) :
    Numeral (Function.update b e (digit 0)) e (e + 1) 0 where
  nonempty := Nat.lt_succ_self e
  nul := by
    rw [Function.update_of_ne (Nat.succ_ne_self e)]
    exact hnul
  digits := by
    intro i hi he
    obtain rfl : i = e := by omega
    simpa using isDigit_digit 0
  leading := fun _ => ⟨rfl, rfl⟩
  reads := by
    rw [text_cons (Nat.lt_succ_self e), value_cons]
    simp [value, toNat_digit]

/-- The digit characters are those `Nat.repr` uses. -/
theorem digitChar_of_isDigit {c : BitVec 8} (h : IsDigit c) :
    BitVec.ofNat 8 (c.toNat - 0x30).digitChar.toNat = c := by
  obtain ⟨hlo, hhi⟩ := h
  apply BitVec.eq_of_toNat_eq
  rw [Nat.toNat_digitChar_of_lt_ten (by omega), BitVec.toNat_ofNat]
  omega

/-- Digits behind a positive number, read on from its value. -/
theorem repr_append {cs : List (BitVec 8)} {v : Nat} (hv : 0 < v) (h : ∀ c ∈ cs, IsDigit c) :
    ascii v.repr ++ cs =
      ascii (cs.foldl (fun v c => 10 * v + (c.toNat - 0x30)) v).repr := by
  induction cs generalizing v with
  | nil => simp
  | cons c cs ih =>
    have hc := h c List.mem_cons_self
    have hlt : c.toNat - 0x30 < 10 := by
      have := hc.2
      omega
    have hnext := Nat.toDigits_append_toDigits (by decide) hv hlt
    rw [Nat.toDigits_of_lt_base hlt] at hnext
    have hchars : ascii (10 * v + (c.toNat - 0x30)).repr = ascii v.repr ++ [c] := by
      rw [ascii, Nat.toList_repr, ← hnext, List.map_append, List.map_singleton,
        digitChar_of_isDigit hc, ascii, Nat.toList_repr]
    rw [List.foldl_cons, ← ih (by omega) fun d hd => h d (List.mem_cons_of_mem c hd), hchars,
      List.append_assoc, List.singleton_append]

/-- A numeral without superfluous zeros is the one that is printed for its value. -/
theorem repr_value {c : BitVec 8} {cs : List (BitVec 8)} (h : ∀ d ∈ c :: cs, IsDigit d)
    (hlead : c = digit 0 → cs = []) : ascii (value (c :: cs)).repr = c :: cs := by
  have hc := h c List.mem_cons_self
  have hlt : c.toNat - 0x30 < 10 := by
    have := hc.2
    omega
  have hfirst : ascii (c.toNat - 0x30).repr = [c] := by
    rw [ascii, Nat.toList_repr, Nat.toDigits_of_lt_base hlt, List.map_singleton,
      digitChar_of_isDigit hc]
  have hvalue : value (c :: cs) =
      cs.foldl (fun v c => 10 * v + (c.toNat - 0x30)) (c.toNat - 0x30) := by
    rw [value, List.foldl_cons, Nat.mul_zero, Nat.zero_add]
  by_cases hzero : c = digit 0
  · rw [hvalue, hlead hzero, List.foldl_nil, hfirst]
  · have hpos : 0 < c.toNat - 0x30 := by
      by_contra hnot
      apply hzero
      apply BitVec.eq_of_toNat_eq
      rw [toNat_digit]
      have := hc.1
      omega
    rw [hvalue, ← repr_append hpos fun d hd => h d (List.mem_cons_of_mem c hd), hfirst]
    rfl

/-- What stands in the array is the printed form of the number. -/
theorem Numeral.text_eq {b : Buffer} {start e n : Nat} (h : Numeral b start e n) :
    text b start e = ascii n.repr := by
  have hdigits : ∀ c ∈ text b start e, IsDigit c := by
    intro c hc
    obtain ⟨i, hi, rfl⟩ := List.mem_map.mp hc
    have hrange := List.mem_range'_1.mp hi
    have hlt := h.nonempty
    exact h.digits i hrange.1 (by omega)
  have hreads := h.reads
  rw [text_cons h.nonempty] at hdigits hreads ⊢
  rw [← hreads, repr_value hdigits]
  intro hzero
  rw [(h.leading hzero).1, text_self]

end Decimal
