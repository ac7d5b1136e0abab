import Mathlib.Data.List.Find
import Mathlib.Data.List.Nodup
import Nyrix.Base.PartialRuns

/-!
# The 8259A interrupt controller

A controller latches the requests on its eight edge-triggered lines and puts forward the first
one that is not masked and comes before every line in service. An accepted line stays in service
until an end-of-interrupt command. Two controllers are in cascade as on a PC: the output of the
slave is line 2 of the master. Rotating priorities, special masks, polling and the modes of the
fourth initialisation word other than the plain one for the 8086 are left out, and a command that
asks for one of them fails.
-/

namespace Pic8259

open PartialRuns

/-! ## One controller -/

def setLine (l : Nat) (x : BitVec 8) : BitVec 8 := x ||| 1#8 <<< l

def clearLine (l : Nat) (x : BitVec 8) : BitVec 8 := x &&& ~~~(1#8 <<< l)

/-- The line of highest priority. -/
def first (x : BitVec 8) : Option Nat := (List.range 8).find? (x.getLsbD ·)

/-- What the next write to the data port is taken for. -/
inductive Expect where
  | mask
  | base
  | cascade
  | mode
  deriving DecidableEq

structure Chip where
  irr : BitVec 8
  isr : BitVec 8
  imr : BitVec 8
  /-- The vector of line 0. -/
  base : BitVec 8
  cascade : BitVec 8
  expect : Expect

/-- A write to the command port. -/
def Chip.command (b : BitVec 8) (c : Chip) : Option Chip :=
  -- the first initialisation word: edge-triggered lines, in cascade, with a fourth word to come
  if b &&& 0x1B = 0x11 then some { c with irr := 0, imr := 0, expect := .base }
  -- end of interrupt, for the first line in service
  else if b &&& 0xF8 = 0x20 then
    some { c with isr := ((first c.isr).map (clearLine · c.isr)).getD c.isr }
  -- end of interrupt, for the line named
  else if b &&& 0xF8 = 0x60 then some { c with isr := clearLine (b &&& 7).toNat c.isr }
  else none

/-- A write to the data port. -/
def Chip.data (b : BitVec 8) (c : Chip) : Option Chip :=
  match c.expect with
  | .mask => some { c with imr := b }
  | .base => some { c with base := b &&& 0xF8, expect := .cascade }
  | .cascade => some { c with cascade := b, expect := .mode }
  | .mode => if b = 0x01 then some { c with expect := .mask } else none

def Chip.request (l : Nat) (c : Chip) : Chip := { c with irr := setLine l c.irr }

/-- The line put forward. -/
def Chip.output (c : Chip) : Option Nat :=
  (first (c.irr &&& ~~~c.imr)).filter fun l => (first c.isr).all (l < ·)

def Chip.accept (l : Nat) (c : Chip) : Chip :=
  { c with irr := clearLine l c.irr, isr := setLine l c.isr }

section Lines

variable {l k : Nat} {x : BitVec 8}

theorem one_shift_getLsbD (hk : k < 8) : (1#8 <<< l).getLsbD k = decide (k = l) := by
  rw [BitVec.getLsbD_shiftLeft, BitVec.getLsbD_one]
  by_cases h : k < l
  · have hne : k ≠ l := by omega
    simp [h, hne]
  · have hiff : k - l = 0 ↔ k = l := by omega
    simp [h, hk, hiff]

theorem getLsbD_setLine (hk : k < 8) :
    (setLine l x).getLsbD k = (x.getLsbD k || decide (k = l)) := by
  rw [setLine, BitVec.getLsbD_or, one_shift_getLsbD hk]

theorem getLsbD_clearLine (hk : k < 8) :
    (clearLine l x).getLsbD k = (x.getLsbD k && !decide (k = l)) := by
  rw [clearLine, BitVec.getLsbD_and, BitVec.getLsbD_not, one_shift_getLsbD hk]
  simp [hk]

/-- A line alone is the first one, and without it there is none. -/
theorem first_alone (hl : l < 8) :
    first (setLine l 0) = some l ∧ clearLine l (setLine l 0) = 0 := by
  have hall : ∀ i < 8, first (setLine i 0) = some i ∧ clearLine i (setLine i 0) = 0 := by decide
  exact hall l hl

end Lines

section Chip

variable {c : Chip} {l : Nat}

/-- With nothing masked or in service the first request is put forward. -/
theorem output_idle (himr : c.imr = 0) (hisr : c.isr = 0) : c.output = first c.irr := by
  have hall : c.irr &&& ~~~(0 : BitVec 8) = c.irr := BitVec.and_allOnes
  have hnone : first 0 = none := by decide
  rw [Chip.output, himr, hisr, hall, hnone]
  cases first c.irr <;> rfl

/-- The end of the one interrupt in service. -/
theorem command_end (hl : l < 8) (hisr : c.isr = setLine l 0) :
    c.command 0x20 = some { c with isr := 0 } := by
  obtain ⟨hfirst, hclear⟩ := first_alone hl
  rw [Chip.command, if_neg (by decide), if_pos (by decide), hisr, hfirst, Option.map_some, hclear]
  rfl

end Chip

/-! ## Two controllers in cascade -/

structure Pair where
  master : Chip
  slave : Chip

def Pair.outb (port : Nat) (b : BitVec 8) (p : Pair) : Option Pair :=
  if port = 0x20 then (p.master.command b).map fun c => { p with master := c }
  else if port = 0x21 then (p.master.data b).map fun c => { p with master := c }
  else if port = 0xA0 then (p.slave.command b).map fun c => { p with slave := c }
  else if port = 0xA1 then (p.slave.data b).map fun c => { p with slave := c }
  else some p

/-- A device raises one of the lines 0 to 15; line 2 has no device. -/
def Pair.request (line : Nat) (p : Pair) : Pair :=
  if line < 8 then { p with master := p.master.request line }
  else { p with slave := p.slave.request (line - 8) }

/-- The master with what its line 2 is wired to. -/
def Pair.wired (p : Pair) : Chip :=
  if p.slave.output.isSome then p.master.request 2 else p.master

/-- The processor takes an interrupt: the vector, and the controllers afterwards. -/
def Pair.acknowledge (p : Pair) : Option (Nat × Pair) :=
  p.wired.output.bind fun l =>
    if l = 2 then
      -- the slave answers to its number on the cascade lines
      if p.master.cascade = 4 ∧ p.slave.cascade = 2 then
        p.slave.output.map fun k =>
          (p.slave.base.toNat + k, ⟨p.master.accept 2, p.slave.accept k⟩)
      else none
    else some (p.master.base.toNat + l, ⟨p.master.accept l, p.slave⟩)

def Pair.waiting (p : Pair) (line : Nat) : Bool :=
  if line < 8 then p.master.irr.getLsbD line else p.slave.irr.getLsbD (line - 8)

def Pair.accept (line : Nat) (p : Pair) : Pair :=
  if line < 8 then ⟨p.master.accept line, p.slave⟩
  else ⟨p.master.accept 2, p.slave.accept (line - 8)⟩

/-- The lines of devices in the order of their priority. -/
def order : List Nat := [0, 1, 8, 9, 10, 11, 12, 13, 14, 15, 3, 4, 5, 6, 7]

/-- The vector of a line, by the vectors of the two first lines. -/
def vectorOf (b c line : Nat) : Nat := if line < 8 then b + line else c + (line - 8)

/-- The controllers are initialised and nothing is masked. -/
structure Setup (b c : Nat) (p : Pair) : Prop where
  masterBase : p.master.base.toNat = b
  slaveBase : p.slave.base.toNat = c
  masterCascade : p.master.cascade = 4
  slaveCascade : p.slave.cascade = 2
  masterMask : p.master.imr = 0
  slaveMask : p.slave.imr = 0
  masterExpect : p.master.expect = .mask
  slaveExpect : p.slave.expect = .mask
  noDevice : p.master.irr.getLsbD 2 = false

structure Idle (p : Pair) : Prop where
  master : p.master.isr = 0
  slave : p.slave.isr = 0

theorem mem_order {line : Nat} : line ∈ order ↔ line < 16 ∧ line ≠ 2 := by
  constructor
  · intro h
    have hall : ∀ l ∈ order, l < 16 ∧ l ≠ 2 := by decide
    exact hall line h
  · rintro ⟨hlt, hne⟩
    have hall : ∀ l < 16, l ≠ 2 → l ∈ order := by decide
    exact hall line hlt hne

section Pair

variable {b c line other : Nat} {p : Pair}

/-- The requests of the slave come in the place of line 2 of the master. -/
theorem find_order (p : Pair) : order.find? p.waiting =
    ([0, 1].find? (p.master.irr.getLsbD ·)).or
      (((first p.slave.irr).map (· + 8)).or ([3, 4, 5, 6, 7].find? (p.master.irr.getLsbD ·))) := by
  have hsplit : order = [0, 1] ++ ((List.range 8).map (· + 8) ++ [3, 4, 5, 6, 7]) := by decide
  rw [hsplit, List.find?_append, List.find?_append, List.find?_map]
  rfl

theorem first_split (x : BitVec 8) : first x = ([0, 1].find? (x.getLsbD ·)).or
    (([2].find? (x.getLsbD ·)).or ([3, 4, 5, 6, 7].find? (x.getLsbD ·))) := by
  have hsplit : List.range 8 = [0, 1] ++ ([2] ++ [3, 4, 5, 6, 7]) := by decide
  rw [first, hsplit, List.find?_append, List.find?_append]

theorem wired_output (hset : Setup b c p) (hidle : Idle p) : p.wired.output =
    ([0, 1].find? (p.master.irr.getLsbD ·)).or
      (((first p.slave.irr).map fun _ => 2).or
        ([3, 4, 5, 6, 7].find? (p.master.irr.getLsbD ·))) := by
  have hslave := output_idle hset.slaveMask hidle.slave
  rw [Pair.wired, hslave]
  cases hfirst : first p.slave.irr with
  | none =>
    have htwo : [2].find? (p.master.irr.getLsbD ·) = none :=
      List.find?_singleton.trans (if_neg (ne_true_of_eq_false hset.noDevice))
    rw [Option.isSome_none, if_neg Bool.false_ne_true, output_idle hset.masterMask hidle.master,
      first_split, htwo]
    rfl
  | some k =>
    have hlow : [0, 1].find? ((setLine 2 p.master.irr).getLsbD ·) =
        [0, 1].find? (p.master.irr.getLsbD ·) := by
      refine List.find?_congr fun l hl => ?_
      obtain rfl | rfl : l = 0 ∨ l = 1 := by simpa using hl
      · simp [getLsbD_setLine, -BitVec.getLsbD_eq_getElem]
      · simp [getLsbD_setLine, -BitVec.getLsbD_eq_getElem]
    have htwo : [2].find? ((setLine 2 p.master.irr).getLsbD ·) = some 2 :=
      List.find?_singleton.trans (if_pos (by rw [getLsbD_setLine (by decide)]; simp))
    rw [Option.isSome_some, if_pos rfl, output_idle (c := p.master.request 2) hset.masterMask
      hidle.master, first_split, Chip.request, hlow, htwo]
    rfl

/-- With nothing in service the processor gets the vector of the first line that waits. -/
theorem acknowledge_eq (hset : Setup b c p) (hidle : Idle p) : p.acknowledge =
    (order.find? p.waiting).map fun line => (vectorOf b c line, p.accept line) := by
  have hslave := output_idle hset.slaveMask hidle.slave
  rw [Pair.acknowledge, wired_output hset hidle, find_order, hslave]
  cases hlow : [0, 1].find? (p.master.irr.getLsbD ·) with
  | some l =>
    have hmem := List.mem_of_find?_eq_some hlow
    have hlt : l < 2 := by
      simp at hmem
      omega
    have hne : l ≠ 2 := by omega
    have hlt' : l < 8 := by omega
    simp [hne, hlt', vectorOf, Pair.accept, hset.masterBase]
  | none =>
    cases hfirst : first p.slave.irr with
    | some k =>
      simp [hset.masterCascade, hset.slaveCascade, vectorOf, Pair.accept, hset.slaveBase]
    | none =>
      cases hhigh : [3, 4, 5, 6, 7].find? (p.master.irr.getLsbD ·) with
      | none => rfl
      | some l =>
        have hmem := List.mem_of_find?_eq_some hhigh
        have hlt : 2 < l ∧ l < 8 := by
          simp at hmem
          omega
        have hne : l ≠ 2 := by omega
        simp [hne, hlt.2, vectorOf, Pair.accept, hset.masterBase]

theorem waiting_request (hline : line ∈ order) (hother : other ∈ order) :
    (p.request line).waiting other = (p.waiting other || decide (other = line)) := by
  obtain ⟨hlt, -⟩ := mem_order.mp hline
  obtain ⟨hlt', -⟩ := mem_order.mp hother
  by_cases hl : line < 8
  · by_cases ho : other < 8
    · simp only [Pair.waiting, Pair.request, Chip.request, if_pos hl, if_pos ho]
      exact getLsbD_setLine ho
    · have hne : other ≠ line := by omega
      simp [Pair.waiting, Pair.request, hl, ho, hne]
  · by_cases ho : other < 8
    · have hne : other ≠ line := by omega
      simp [Pair.waiting, Pair.request, hl, ho, hne]
    · have hiff : other - 8 = line - 8 ↔ other = line := by omega
      simp only [Pair.waiting, Pair.request, Chip.request, if_neg hl, if_neg ho]
      rw [getLsbD_setLine (by omega), decide_eq_decide.mpr hiff]

theorem waiting_accept (hline : line ∈ order) (hother : other ∈ order) :
    (p.accept line).waiting other = (p.waiting other && !decide (other = line)) := by
  obtain ⟨hlt, -⟩ := mem_order.mp hline
  obtain ⟨hlt', htwo⟩ := mem_order.mp hother
  by_cases hl : line < 8
  · by_cases ho : other < 8
    · simp only [Pair.waiting, Pair.accept, Chip.accept, if_pos hl, if_pos ho]
      exact getLsbD_clearLine ho
    · have hne : other ≠ line := by omega
      simp [Pair.waiting, Pair.accept, hl, ho, hne]
  · by_cases ho : other < 8
    · have hne : other ≠ line := by omega
      simp only [Pair.waiting, Pair.accept, Chip.accept, if_neg hl, if_pos ho]
      rw [getLsbD_clearLine ho, decide_eq_false htwo, decide_eq_false hne]
    · have hiff : other - 8 = line - 8 ↔ other = line := by omega
      simp only [Pair.waiting, Pair.accept, Chip.accept, if_neg hl, if_neg ho]
      rw [getLsbD_clearLine (by omega), decide_eq_decide.mpr hiff]

theorem Setup.request (h : Setup b c p) (hline : line ≠ 2) : Setup b c (p.request line) := by
  rw [Pair.request]
  split_ifs
  · refine { h with noDevice := ?_ }
    rw [Chip.request, getLsbD_setLine (by decide), h.noDevice, decide_eq_false hline.symm]
    rfl
  · exact { h with }

theorem Setup.accept (h : Setup b c p) (line : Nat) : Setup b c (p.accept line) := by
  rw [Pair.accept]
  split_ifs
  · refine { h with noDevice := ?_ }
    rw [Chip.accept, getLsbD_clearLine (by decide), h.noDevice]
    rfl
  · refine { h with noDevice := ?_ }
    rw [Chip.accept, getLsbD_clearLine (by decide), h.noDevice]
    rfl

theorem order_nodup : order.Nodup := by decide

/-- The lines that wait, in the order of their priority. -/
def pending (p : Pair) : List Nat := order.filter p.waiting

theorem find_pending (p : Pair) : order.find? p.waiting = (pending p).head? :=
  List.head?_filter.symm

theorem mem_pending : line ∈ pending p ↔ line ∈ order ∧ p.waiting line = true := List.mem_filter

/-- The first one accepted, the others wait. -/
theorem pending_accept {rest : List Nat} (h : pending p = line :: rest) :
    pending (p.accept line) = rest := by
  have hline : line ∈ order := (mem_pending.mp (h ▸ List.mem_cons_self)).1
  have hnodup : (line :: rest).Nodup := h ▸ order_nodup.filter p.waiting
  have hwithout : pending (p.accept line) = (pending p).filter (· ≠ line) := by
    rw [pending, pending, List.filter_filter]
    refine List.filter_congr fun other hother => ?_
    rw [waiting_accept hline hother, Bool.and_comm]
    simp
  rw [hwithout, h, List.filter_cons_of_neg (by simp)]
  refine List.filter_eq_self.mpr fun other hother => ?_
  have hne : other ≠ line := fun heq => (List.nodup_cons.mp hnodup).1 (heq ▸ hother)
  simpa using hne

end Pair

/-! ## Setting the controllers up -/

/-- A controller without the requests it has latched. -/
def Chip.settings (c : Chip) : Chip := { c with irr := 0 }

def Pair.settings (p : Pair) : Pair := ⟨p.master.settings, p.slave.settings⟩

def outAll (ws : List (Nat × BitVec 8)) (p : Pair) : Option Pair :=
  runAll (fun w p => Pair.outb w.1 w.2 p) ws p

section Settings

variable {p q p' : Pair} {port : Nat} {b : BitVec 8}

theorem request_settings (line : Nat) (p : Pair) : (p.request line).settings = p.settings := by
  rw [Pair.request]
  split_ifs <;> rfl

theorem command_settings (b : BitVec 8) (c : Chip) :
    (c.command b).map Chip.settings = (c.settings.command b).map Chip.settings := by
  rw [Chip.command, Chip.command]
  split_ifs <;> rfl

theorem data_settings (b : BitVec 8) (c : Chip) :
    (c.data b).map Chip.settings = (c.settings.data b).map Chip.settings := by
  obtain ⟨irr, isr, imr, base, cascade, expect⟩ := c
  cases expect with
  | mode =>
    simp only [Chip.data, Chip.settings]
    split_ifs <;> rfl
  | _ => rfl

/-- What a write makes of the settings does not depend on the requests. -/
theorem outb_settings (port : Nat) (b : BitVec 8) (p : Pair) :
    (p.outb port b).map Pair.settings = (p.settings.outb port b).map Pair.settings := by
  have hmaster {x y : Option Chip} (h : x.map Chip.settings = y.map Chip.settings) :
      (x.map fun c => (⟨c, p.slave⟩ : Pair)).map Pair.settings =
        (y.map fun c => (⟨c, p.slave.settings⟩ : Pair)).map Pair.settings := by
    have hpair := congrArg (Option.map fun c => (⟨c, p.slave.settings⟩ : Pair)) h
    rw [Option.map_map, Option.map_map] at hpair ⊢
    exact hpair
  have hslave {x y : Option Chip} (h : x.map Chip.settings = y.map Chip.settings) :
      (x.map fun c => (⟨p.master, c⟩ : Pair)).map Pair.settings =
        (y.map fun c => (⟨p.master.settings, c⟩ : Pair)).map Pair.settings := by
    have hpair := congrArg (Option.map fun c => (⟨p.master.settings, c⟩ : Pair)) h
    rw [Option.map_map, Option.map_map] at hpair ⊢
    exact hpair
  rw [Pair.outb, Pair.outb]
  split_ifs
  · exact hmaster (command_settings b p.master)
  · exact hmaster (data_settings b p.master)
  · exact hslave (command_settings b p.slave)
  · exact hslave (data_settings b p.slave)
  · rfl

theorem outb_same (hsame : p.settings = q.settings) (h : p.outb port b = some p') :
    ∃ q', q.outb port b = some q' ∧ p'.settings = q'.settings := by
  have hp := outb_settings port b p
  rw [h, hsame, ← outb_settings port b q, Option.map_some, eq_comm, Option.map_eq_some_iff] at hp
  obtain ⟨q', hq', heq⟩ := hp
  exact ⟨q', hq', heq.symm⟩

/-- A write makes no request. -/
theorem outb_irr (h : p.outb port b = some q) :
    q.master.irr = p.master.irr ∨ q.master.irr = 0 := by
  rw [Pair.outb] at h
  split_ifs at h
  · rw [Option.map_eq_some_iff] at h
    obtain ⟨c, hc, rfl⟩ := h
    rw [Chip.command] at hc
    split_ifs at hc <;> rw [← Option.some.inj hc]
    · exact .inr rfl
    · exact .inl rfl
    · exact .inl rfl
  · rw [Option.map_eq_some_iff] at h
    obtain ⟨c, hc, rfl⟩ := h
    rw [Chip.data] at hc
    split at hc
    · exact .inl (Option.some.inj hc ▸ rfl)
    · exact .inl (Option.some.inj hc ▸ rfl)
    · exact .inl (Option.some.inj hc ▸ rfl)
    · split_ifs at hc
      exact .inl (Option.some.inj hc ▸ rfl)
  · obtain ⟨c, -, rfl⟩ := Option.map_eq_some_iff.mp h
    exact .inl rfl
  · obtain ⟨c, -, rfl⟩ := Option.map_eq_some_iff.mp h
    exact .inl rfl
  · exact .inl (Option.some.inj h ▸ rfl)

end Settings

end Pic8259
