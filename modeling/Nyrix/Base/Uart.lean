import Mathlib.Data.List.Perm.Subperm
import Mathlib.Logic.Function.Basic
import Nyrix.Base.PartialRuns

/-!
# Threads that share a serial transmitter

The transmitter has a register that holds the next byte and one that shifts the current byte out;
a byte written while the first of them is full replaces the byte in it. Each thread tests for an
empty register and then writes, and it can be left at any point in between. The overwritten bytes
are counted against the times a thread is left behind its test.
-/

namespace Uart

open PartialRuns

/-! ## The transmitter -/

structure Transmitter (α : Type) where
  holding : Option α
  shifting : Option α
  /-- The bytes that have left on the line, oldest first. -/
  sent : List α

section Transmitter

variable {α : Type} {t u : Transmitter α} {a : α}

def Transmitter.idle : Transmitter α := ⟨none, none, []⟩

/-- What the status register says. -/
def Transmitter.empty (t : Transmitter α) : Bool := t.holding.isNone

def Transmitter.write (a : α) (t : Transmitter α) : Transmitter α := { t with holding := some a }

def Transmitter.load (t : Transmitter α) : Option (Transmitter α) :=
  match t.holding, t.shifting with
  | some a, none => some { t with holding := none, shifting := some a }
  | _, _ => none

def Transmitter.finish (t : Transmitter α) : Option (Transmitter α) :=
  t.shifting.map fun a => { t with shifting := none, sent := t.sent ++ [a] }

/-- The bytes that are on the line or still on their way to it. -/
def Transmitter.passed (t : Transmitter α) : List α :=
  t.sent ++ t.shifting.toList ++ t.holding.toList

theorem load_some (h : t.load = some u) : ∃ a, t.holding = some a ∧ t.shifting = none ∧
    u = { t with holding := none, shifting := some a } := by
  rw [Transmitter.load] at h
  split at h
  next a hholding hshifting => exact ⟨a, hholding, hshifting, (Option.some.inj h).symm⟩
  · cases h

theorem load_passed (h : t.load = some u) : u.passed = t.passed := by
  obtain ⟨a, hholding, hshifting, rfl⟩ := load_some h
  simp [Transmitter.passed, hholding, hshifting]

theorem finish_passed (h : t.finish = some u) : u.passed = t.passed := by
  obtain ⟨a, hshifting, rfl⟩ := Option.map_eq_some_iff.mp h
  simp [Transmitter.passed, hshifting]

/-- A write takes the place of the byte that was held. -/
theorem write_passed (a : α) (t : Transmitter α) :
    (t.write a).passed = t.sent ++ t.shifting.toList ++ [a] := rfl

end Transmitter

/-! ## The threads -/

variable {ι α : Type}

/-- What happens at the transmitter, whatever the threads do otherwise. -/
structure Line (ι α : Type) where
  transmitter : Transmitter (ι × α)
  running : ι
  /-- Every byte written, by whom and in which order. -/
  written : List (ι × α)
  /-- The bytes that were overwritten, and who overwrote them. -/
  lost : List (ι × α)
  overwriters : List ι
  /-- The threads that were left behind a test, once for each time. -/
  left : List ι

def Line.start (first : ι) : Line ι α := ⟨.idle, first, [], [], [], []⟩

def Line.write (a : α) (l : Line ι α) : Line ι α :=
  { l with
    transmitter := l.transmitter.write (l.running, a)
    written := l.written ++ [(l.running, a)]
    lost := l.lost ++ l.transmitter.holding.toList
    overwriters := if l.transmitter.empty then l.overwriters else l.overwriters ++ [l.running] }

/-- Another thread runs; `tested` says where the one before was left. -/
def Line.switch (tested : Bool) (j : ι) (l : Line ι α) : Line ι α :=
  { l with running := j, left := if tested then l.left ++ [l.running] else l.left }

/-- A thread by what it has still to write. -/
structure Sender (α : Type) where
  todo : List α
  /-- It has seen the register empty and not written yet. -/
  tested : Bool

structure System (ι α : Type) extends Line ι α where
  senders : ι → Sender α

inductive Event (ι : Type) where
  | test
  | write
  | switch (j : ι)
  | load
  | finish

section System

variable [DecidableEq ι]

/-- A thread that waits for the register does nothing, so its wait is no step. -/
def step : Event ι → System ι α → Option (System ι α)
  | .test, s =>
    let u := s.senders s.running
    if u.todo ≠ [] ∧ u.tested = false ∧ s.transmitter.empty = true then
      some { s with senders := Function.update s.senders s.running { u with tested := true } }
    else none
  | .write, s =>
    match (s.senders s.running).todo, (s.senders s.running).tested with
    | a :: as, true => some {
        toLine := s.toLine.write a
        senders := Function.update s.senders s.running ⟨as, false⟩ }
    | _, _ => none
  | .switch j, s =>
    if j ≠ s.running then
      some { s with toLine := s.toLine.switch (s.senders s.running).tested j }
    else none
  | .load, s => s.transmitter.load.map fun t => { s with transmitter := t }
  | .finish, s => s.transmitter.finish.map fun t => { s with transmitter := t }

def System.start (first : ι) (texts : ι → List α) : System ι α :=
  ⟨.start first, fun i => ⟨texts i, false⟩⟩

/-- What a thread has written. -/
def bytesOf (i : ι) (bytes : List (ι × α)) : List α :=
  (bytes.filter fun b => decide (b.1 = i)).map Prod.snd

/-- A write of the thread would now fall on a full register. -/
def Exposed (s : System ι α) (i : ι) : Prop :=
  (s.senders i).tested = true ∧ (i ≠ s.running ∨ s.transmitter.empty = false)

instance (s : System ι α) (i : ι) : Decidable (Exposed s i) := inferInstanceAs (Decidable (_ ∧ _))

structure Invariant (texts : ι → List α) (s : System ι α) : Prop where
  /-- Each thread writes its text in order. -/
  text : ∀ i, bytesOf i s.written ++ (s.senders i).todo = texts i
  /-- What passes is in the order in which it was written. -/
  order : s.transmitter.passed.Sublist s.written
  account : (s.transmitter.passed ++ s.lost).Perm s.written
  paired : s.overwriters.length = s.lost.length
  /-- No thread overwrites what it wrote itself. -/
  others : ∀ p ∈ s.overwriters.zip s.lost, p.1 ≠ p.2.1
  foreign : ∀ i, (s.senders i).tested = true → ∀ b, s.transmitter.holding = some b → b.1 ≠ i
  count : ∀ i, s.overwriters.count i + (if Exposed s i then 1 else 0) ≤ s.left.count i

/-- What a step does. -/
inductive Stepped (s : System ι α) : Event ι → System ι α → Prop where
  | test (todo : (s.senders s.running).todo ≠ []) (untested : (s.senders s.running).tested = false)
      (empty : s.transmitter.empty = true) : Stepped s .test { s with
        senders := Function.update s.senders s.running
          { s.senders s.running with tested := true } }
  | write {a : α} {as : List α} (sender : s.senders s.running = ⟨a :: as, true⟩) :
      Stepped s .write
        ⟨s.toLine.write a, Function.update s.senders s.running ⟨as, false⟩⟩
  | switch {j : ι} (ne : j ≠ s.running) : Stepped s (.switch j)
      { s with toLine := s.toLine.switch (s.senders s.running).tested j }
  | load {t : Transmitter (ι × α)} (load : s.transmitter.load = some t) :
      Stepped s .load { s with transmitter := t }
  | finish {t : Transmitter (ι × α)} (finish : s.transmitter.finish = some t) :
      Stepped s .finish { s with transmitter := t }

section Step

variable {texts : ι → List α} {s t : System ι α} {i j : ι} {a : α}

theorem stepped {e : Event ι} (h : step e s = some t) : Stepped s e t := by
  cases e with
  | test =>
    rw [step, Option.ite_none_right_eq_some] at h
    obtain ⟨⟨htodo, huntested, hempty⟩, hs⟩ := h
    exact Option.some.inj hs ▸ .test htodo huntested hempty
  | write =>
    rw [step] at h
    split at h
    next a as htodo htested =>
      exact Option.some.inj h ▸ .write (by rw [← htodo, ← htested])
    · cases h
  | switch j =>
    rw [step, Option.ite_none_right_eq_some] at h
    exact Option.some.inj h.2 ▸ .switch h.1
  | load =>
    obtain ⟨u, hu, rfl⟩ := Option.map_eq_some_iff.mp h
    exact .load hu
  | finish =>
    obtain ⟨u, hu, rfl⟩ := Option.map_eq_some_iff.mp h
    exact .finish hu

theorem step_write {as : List α} (h : s.senders s.running = ⟨a :: as, true⟩) : step .write s =
    some ⟨s.toLine.write a, Function.update s.senders s.running ⟨as, false⟩⟩ := by
  simp only [step, h]

theorem bytesOf_append (i : ι) (bs cs : List (ι × α)) :
    bytesOf i (bs ++ cs) = bytesOf i bs ++ bytesOf i cs := by
  simp [bytesOf]

theorem bytesOf_own (i : ι) (a : α) : bytesOf i [(i, a)] = [a] := by simp [bytesOf]

theorem bytesOf_other (h : j ≠ i) (a : α) : bytesOf i [(j, a)] = [] := by simp [bytesOf, h]

theorem empty_iff {u : Transmitter α} : u.empty = true ↔ u.holding = none := by
  rw [Transmitter.empty, Option.isNone_iff_eq_none]

theorem invariant_start (first : ι) (texts : ι → List α) :
    Invariant texts (System.start first texts) := by
  refine ⟨fun i => rfl, .slnil, .nil, rfl, fun p hp => absurd hp List.not_mem_nil,
    fun i hi => absurd hi Bool.false_ne_true, fun i => ?_⟩
  rw [if_neg fun h : Exposed (System.start first texts) i => Bool.false_ne_true h.1]
  exact Nat.zero_le _

theorem invariant_test (h : Invariant texts s) (hempty : s.transmitter.empty = true) :
    Invariant texts { s with
      senders := Function.update s.senders s.running
        { s.senders s.running with tested := true } } := by
  refine ⟨fun i => ?_, h.order, h.account, h.paired, h.others, fun i hi b hb => ?_, fun i => ?_⟩
  · by_cases hi : i = s.running
    · subst hi
      simp only [Function.update_self]
      exact h.text s.running
    · simp only [Function.update_of_ne hi]
      exact h.text i
  · rw [empty_iff.mp hempty] at hb
    cases hb
  · refine Nat.le_trans (Nat.add_le_add_left ?_ _) (h.count i)
    by_cases hi : i = s.running
    · rw [if_neg]
      · exact Nat.zero_le _
      · rintro ⟨-, hne | hfull⟩
        · exact hne hi
        · exact absurd (hempty.symm.trans hfull) (by decide)
    · refine Nat.le_of_eq (if_congr ?_ rfl rfl)
      simp only [Exposed, Function.update_of_ne hi]

/-- A write onto a full register loses the byte in it, which another thread has written. -/
theorem lost_others (h : Invariant texts s) (htested : (s.senders s.running).tested = true)
    (a : α) :
    (s.toLine.write a).overwriters.length = (s.toLine.write a).lost.length ∧
      ∀ p ∈ (s.toLine.write a).overwriters.zip (s.toLine.write a).lost, p.1 ≠ p.2.1 := by
  cases hholding : s.transmitter.holding with
  | none =>
    simp only [Line.write, Transmitter.empty, hholding, Option.isNone_none, if_true,
      Option.toList_none, List.append_nil]
    exact ⟨h.paired, h.others⟩
  | some b =>
    simp only [Line.write, Transmitter.empty, hholding, Option.isNone_some, Bool.false_eq_true,
      if_false, Option.toList_some, List.length_append, List.length_singleton,
      List.zip_append h.paired, List.mem_append, h.paired, true_and]
    rintro p (hp | hp)
    · exact h.others p hp
    · obtain rfl := List.mem_singleton.mp hp
      exact (h.foreign s.running htested b hholding).symm

theorem invariant_write {as : List α} (h : Invariant texts s)
    (hsender : s.senders s.running = ⟨a :: as, true⟩) :
    Invariant texts ⟨s.toLine.write a, Function.update s.senders s.running ⟨as, false⟩⟩ := by
  have htested : (s.senders s.running).tested = true := by rw [hsender]
  obtain ⟨hpaired, hothers⟩ := lost_others h htested a
  have horder := h.order
  have haccount := h.account
  rw [Transmitter.passed] at horder haccount
  refine ⟨fun i => ?_, ?_, ?_, hpaired, hothers, fun i hi b hb => ?_, fun i => ?_⟩
  · have htext := h.text i
    by_cases hi : i = s.running
    · subst hi
      rw [hsender] at htext
      simp only [Line.write, Function.update_self, bytesOf_append, bytesOf_own]
      rw [List.append_assoc, List.singleton_append]
      exact htext
    · simp only [Line.write, Function.update_of_ne hi, bytesOf_append,
        bytesOf_other (Ne.symm hi), List.append_nil]
      exact htext
  · simp only [Line.write, write_passed]
    exact ((List.sublist_append_left _ _).trans horder).append (List.Sublist.refl _)
  · simp only [Line.write, write_passed]
    obtain ⟨front, hfront⟩ :
      ∃ front, s.transmitter.sent ++ s.transmitter.shifting.toList = front := ⟨_, rfl⟩
    rw [hfront] at haccount ⊢
    have hmoved : (front ++ [(s.running, a)] ++ (s.lost ++ s.transmitter.holding.toList)).Perm
        (front ++ s.transmitter.holding.toList ++ s.lost ++ [(s.running, a)]) := by
      rw [List.append_assoc, List.append_assoc, List.append_assoc]
      refine List.Perm.append_left front ?_
      refine List.perm_append_comm.trans ?_
      rw [← List.append_assoc]
      exact List.Perm.append_right _ List.perm_append_comm
    exact hmoved.trans (haccount.append_right _)
  · by_cases hr : i = s.running
    · subst hr
      simp at hi
    · obtain rfl := Option.some.inj hb
      exact Ne.symm hr
  · have hcount := h.count i
    by_cases hi : i = s.running
    · subst hi
      rw [if_neg fun hexp => by simp [Exposed] at hexp]
      cases hfull : s.transmitter.empty with
      | true =>
        simp only [Line.write, hfull, if_true]
        omega
      | false =>
        rw [if_pos ⟨htested, .inr hfull⟩] at hcount
        simp only [Line.write, hfull, Bool.false_eq_true, if_false, List.count_append,
          List.count_singleton_self]
        omega
    · have hsame : (s.toLine.write a).overwriters.count i = s.overwriters.count i := by
        simp only [Line.write]
        split_ifs
        · rfl
        · rw [List.count_append, List.count_singleton, if_neg (by simp [Ne.symm hi]), Nat.add_zero]
      have hexp : Exposed ⟨s.toLine.write a, Function.update s.senders s.running ⟨as, false⟩⟩ i ↔
          Exposed s i := by
        simp only [Exposed, Function.update_of_ne hi, Line.write, ne_eq, hi, not_false_eq_true,
          true_or]
      rw [hsame, if_congr hexp rfl rfl]
      exact hcount

/-- Only a thread that is left behind its test becomes exposed. -/
theorem invariant_switch (h : Invariant texts s) (hne : j ≠ s.running) : Invariant texts
    { s with toLine := s.toLine.switch (s.senders s.running).tested j } := by
  refine ⟨h.text, h.order, h.account, h.paired, h.others, h.foreign, fun i => ?_⟩
  have hcount := h.count i
  by_cases hi : i = s.running
  · subst hi
    cases htested : (s.senders s.running).tested with
    | true =>
      rw [if_pos ⟨htested, .inl (Ne.symm hne)⟩]
      simp only [Line.switch, if_true, List.count_append, List.count_singleton_self]
      omega
    | false =>
      rw [if_neg fun hexp => by simp [Exposed, htested] at hexp]
      simp only [Line.switch, Bool.false_eq_true, if_false]
      omega
  · have hleft : (s.toLine.switch (s.senders s.running).tested j).left.count i =
        s.left.count i := by
      simp only [Line.switch]
      split_ifs
      · rw [List.count_append, List.count_singleton, if_neg (by simp [Ne.symm hi]), Nat.add_zero]
      · rfl
    have hexp : Exposed { s with toLine := s.toLine.switch (s.senders s.running).tested j } i →
        Exposed s i := fun hexp => ⟨hexp.1, .inl hi⟩
    rw [hleft]
    refine Nat.le_trans (Nat.add_le_add_left ?_ _) hcount
    split_ifs with hnew hold
    · exact Nat.le_refl 1
    · exact absurd (hexp hnew) hold
    · exact Nat.zero_le _
    · exact Nat.le_refl 0

/-- The transmitter goes on; it fills no register. -/
theorem invariant_device {u : Transmitter (ι × α)} (h : Invariant texts s)
    (hpassed : u.passed = s.transmitter.passed)
    (hheld : ∀ b, u.holding = some b → s.transmitter.holding = some b) :
    Invariant texts { s with transmitter := u } := by
  refine ⟨h.text, hpassed ▸ h.order, hpassed ▸ h.account, h.paired, h.others,
    fun i hi b hb => h.foreign i hi b (hheld b hb), fun i => ?_⟩
  have hexp : Exposed { s with transmitter := u } i → Exposed s i := by
    rintro ⟨htested, hne | hfull⟩
    · exact ⟨htested, .inl hne⟩
    · refine ⟨htested, .inr ?_⟩
      obtain ⟨b, hb⟩ := Option.isSome_iff_exists.mp (Option.isNone_eq_false_iff.mp hfull)
      rw [Transmitter.empty, hheld b hb]
      rfl
  refine Nat.le_trans (Nat.add_le_add_left ?_ _) (h.count i)
  split_ifs with hnew hold
  · exact Nat.le_refl 1
  · exact absurd (hexp hnew) hold
  · exact Nat.zero_le _
  · exact Nat.le_refl 0

theorem invariant_step (e : Event ι) (h : Invariant texts s) (ht : step e s = some t) :
    Invariant texts t := by
  cases stepped ht with
  | test _ _ hempty => exact invariant_test h hempty
  | write hsender => exact invariant_write h hsender
  | switch hne => exact invariant_switch h hne
  | load hload =>
    obtain ⟨a, -, -, rfl⟩ := load_some hload
    exact invariant_device h (load_passed hload) fun b hb => nomatch hb
  | finish hfinish =>
    obtain ⟨a, -, rfl⟩ := Option.map_eq_some_iff.mp hfinish
    exact invariant_device h (finish_passed hfinish) fun b hb => hb

theorem invariant_run {es : List (Event ι)} (h : Invariant texts s)
    (ht : runAll step es s = some t) : Invariant texts t :=
  runAll_invariant (fun e _ _ => invariant_step e) h ht

/-- At most one byte is lost each time a thread is left behind its test. -/
theorem Invariant.lost (h : Invariant texts s) :
    s.overwriters.Subperm s.left ∧ s.lost.length ≤ s.left.length := by
  have hsub : s.overwriters.Subperm s.left := by
    rw [List.subperm_ext_iff]
    intro i _
    exact Nat.le_trans (Nat.le_add_right _ _) (h.count i)
  exact ⟨hsub, h.paired ▸ hsub.length_le⟩

/-- Where nothing is lost, what passes and what is still to write make up each text. -/
theorem Invariant.complete (h : Invariant texts s) (hlost : s.lost = []) (i : ι) :
    bytesOf i s.transmitter.passed ++ (s.senders i).todo = texts i := by
  have haccount := h.account
  rw [hlost, List.append_nil] at haccount
  rw [h.order.eq_of_length haccount.length_eq]
  exact h.text i

end Step

end System

/-! ## One thread alone -/

def Event.isSwitch : Event ι → Bool
  | .switch _ => true
  | _ => false

/-- The bytes of the running thread that pass or are still to be written stay the same. -/
structure Alone (s t : System ι α) : Prop where
  running : t.running = s.running
  lost : t.lost = s.lost
  bytes : t.transmitter.passed ++ (t.senders t.running).todo.map (Prod.mk t.running) =
    s.transmitter.passed ++ (s.senders s.running).todo.map (Prod.mk s.running)
  safe : ¬Exposed t t.running

section Alone

variable {s t u : System ι α}

theorem Alone.refl (h : ¬Exposed s s.running) : Alone s s := ⟨rfl, rfl, rfl, h⟩

theorem Alone.trans (h : Alone s t) (h' : Alone t u) : Alone s u :=
  ⟨h'.running.trans h.running, h'.lost.trans h.lost, h'.bytes.trans h.bytes, h'.safe⟩

/-- Until it is left, a thread writes only to an empty register. -/
theorem exposed_running : Exposed s s.running ↔
    (s.senders s.running).tested = true ∧ s.transmitter.empty = false := by
  simp [Exposed]

theorem alone_device {v : Transmitter (ι × α)} (hsafe : ¬Exposed s s.running)
    (hpassed : v.passed = s.transmitter.passed)
    (hheld : ∀ b, v.holding = some b → s.transmitter.holding = some b) :
    Alone s { s with transmitter := v } := by
  refine ⟨rfl, rfl, by rw [hpassed], fun hexp => hsafe ?_⟩
  obtain ⟨htested, hfull⟩ := exposed_running.mp hexp
  refine exposed_running.mpr ⟨htested, ?_⟩
  obtain ⟨b, hb⟩ := Option.isSome_iff_exists.mp (Option.isNone_eq_false_iff.mp hfull)
  rw [Transmitter.empty, hheld b hb]
  rfl

variable [DecidableEq ι]

theorem alone_step {e : Event ι} (he : e.isSwitch = false) (hsafe : ¬Exposed s s.running)
    (ht : step e s = some t) : Alone s t := by
  cases stepped ht with
  | test _ _ hempty =>
    refine ⟨rfl, rfl, by simp only [Function.update_self], fun hexp => ?_⟩
    exact absurd (hempty.symm.trans (exposed_running.mp hexp).2) (by decide)
  | @write a as hsender =>
    have hempty : s.transmitter.holding = none := by
      cases hholding : s.transmitter.holding with
      | none => rfl
      | some b =>
        refine absurd (exposed_running.mpr ⟨by rw [hsender], ?_⟩) hsafe
        rw [Transmitter.empty, hholding]
        rfl
    refine ⟨rfl, by simp [Line.write, hempty], ?_, fun hexp => ?_⟩
    · simp only [Line.write, Function.update_self, hsender, Transmitter.passed, hempty,
        Option.toList_none, List.append_nil, List.map_cons, List.append_assoc]
      rfl
    · have htested := (exposed_running.mp hexp).1
      simp [Line.write] at htested
  | switch => cases he
  | load hload =>
    obtain ⟨a, -, -, rfl⟩ := load_some hload
    exact alone_device hsafe (load_passed hload) fun b hb => nomatch hb
  | finish hfinish =>
    obtain ⟨a, -, rfl⟩ := Option.map_eq_some_iff.mp hfinish
    exact alone_device hsafe (finish_passed hfinish) fun b hb => hb

theorem alone_run {es : List (Event ι)} (hes : ∀ e ∈ es, e.isSwitch = false)
    (hsafe : ¬Exposed s s.running) (ht : runAll step es s = some t) : Alone s t := by
  induction es generalizing s with
  | nil => exact Option.some.inj ht ▸ Alone.refl hsafe
  | cons e es ih =>
    rw [runAll, Option.bind_eq_some_iff] at ht
    obtain ⟨u, hu, hrest⟩ := ht
    rw [List.forall_mem_cons] at hes
    have hfirst := alone_step hes.1 hsafe hu
    exact hfirst.trans (ih hes.2 hfirst.safe hrest)

end Alone

end Uart
