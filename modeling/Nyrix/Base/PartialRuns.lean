import Mathlib.Data.List.Infix

/-!
# Runs of steps that may fail

A step of a system fails or leads to one state. A run keeps a property when each of its steps
gets through to a state that has it.
-/

namespace PartialRuns

variable {σ τ α : Type} {step : α → σ → Option σ}

def runAll (step : α → σ → Option σ) : List α → σ → Option σ
  | [], s => some s
  | a :: as, s => (step a s).bind (runAll step as)

theorem runAll_append (as bs : List α) (s : σ) :
    runAll step (as ++ bs) s = (runAll step as s).bind (runAll step bs) := by
  induction as generalizing s with
  | nil => rfl
  | cons a as ih =>
    rw [List.cons_append, runAll, runAll, Option.bind_assoc]
    exact congrArg _ (funext ih)

/-- What every step that gets through keeps, a run keeps. -/
theorem runAll_invariant {I : σ → Prop} (hstep : ∀ a s t, I s → step a s = some t → I t)
    {as : List α} {s t : σ} (hs : I s) (ht : runAll step as s = some t) : I t := by
  induction as generalizing s with
  | nil => exact Option.some.inj ht ▸ hs
  | cons a as ih =>
    rw [runAll, Option.bind_eq_some_iff] at ht
    obtain ⟨u, hu, hrest⟩ := ht
    exact ih (hstep a s u hs hu) hrest

/-- Every step gets through, and the property holds at the start and after each step. -/
def Keeps (step : α → σ → Option σ) (P : σ → Prop) (as : List α) (s : σ) : Prop :=
  ∀ done, done <+: as → ∃ t, runAll step done s = some t ∧ P t

section Keeps

variable {P I : σ → Prop} {a : α} {as : List α} {s t : σ}

theorem Keeps.start (h : Keeps step P as s) : P s := by
  obtain ⟨t, ht, hP⟩ := h [] (List.nil_prefix)
  exact Option.some.inj ht ▸ hP

theorem keeps_nil : Keeps step P [] s ↔ P s := by
  refine ⟨Keeps.start, fun hP done hdone => ?_⟩
  rw [List.prefix_nil.mp hdone]
  exact ⟨s, rfl, hP⟩

theorem keeps_cons : Keeps step P (a :: as) s ↔
    P s ∧ ∃ t, step a s = some t ∧ Keeps step P as t := by
  constructor
  · intro h
    obtain ⟨t, ht, _⟩ := h [a] (List.prefix_append [a] as)
    rw [runAll, Option.bind_eq_some_iff] at ht
    obtain ⟨u, hu, _⟩ := ht
    refine ⟨h.start, u, hu, fun done hdone => ?_⟩
    obtain ⟨v, hv, hP⟩ := h (a :: done) (List.cons_prefix_cons.mpr ⟨rfl, hdone⟩)
    rw [runAll, hu, Option.bind_some] at hv
    exact ⟨v, hv, hP⟩
  · rintro ⟨hP, t, ht, h⟩ done hdone
    cases done with
    | nil => exact ⟨s, rfl, hP⟩
    | cons b done =>
      obtain ⟨rfl, hrest⟩ := List.cons_prefix_cons.mp hdone
      obtain ⟨u, hu, hP'⟩ := h done hrest
      exact ⟨u, by rw [runAll, ht, Option.bind_some, hu], hP'⟩

/-- A property is kept exactly by the runs of fitting steps, when a fitting step keeps an
invariant that gives the property and any other step fails or loses the property. -/
theorem keeps_iff {Fits : α → Prop} (hgives : ∀ s, I s → P s)
    (hfits : ∀ a s, I s → Fits a → ∃ t, step a s = some t ∧ I t)
    (hunfit : ∀ a s t, I s → ¬Fits a → step a s = some t → ¬P t) (hs : I s) :
    Keeps step P as s ↔ ∀ a ∈ as, Fits a := by
  induction as generalizing s with
  | nil =>
    exact keeps_nil.trans (iff_of_true (hgives s hs) fun a ha => absurd ha List.not_mem_nil)
  | cons a as ih =>
    rw [keeps_cons, List.forall_mem_cons]
    by_cases hfit : Fits a
    · obtain ⟨t, ht, hI⟩ := hfits a s hs hfit
      simp only [ht, Option.some.injEq, exists_eq_left', ih hI, hgives s hs, hfit, true_and]
    · constructor
      · rintro ⟨_, t, ht, hkeeps⟩
        exact absurd hkeeps.start (hunfit a s t hs hfit ht)
      · exact fun h => absurd h.1 hfit

/-- Another system follows a run, step by step, when a relation between their states is kept by
every step from a state with the property. -/
theorem Keeps.simulates {step' : α → τ → Option τ} {R : τ → σ → Prop} {u : τ}
    (hstep : ∀ a u t t', R u t → P t → step a t = some t' → ∃ u', step' a u = some u' ∧ R u' t')
    (h : Keeps step P as t) (hR : R u t) : ∀ done, done <+: as → ∃ t' u',
      runAll step done t = some t' ∧ P t' ∧ runAll step' done u = some u' ∧ R u' t' := by
  induction as generalizing t u with
  | nil =>
    intro done hdone
    rw [List.prefix_nil.mp hdone]
    exact ⟨t, u, rfl, h.start, rfl, hR⟩
  | cons a as ih =>
    obtain ⟨hP, t₁, ht, hrest⟩ := keeps_cons.mp h
    obtain ⟨u₁, hu, hR₁⟩ := hstep a u t t₁ hR hP ht
    intro done hdone
    cases done with
    | nil => exact ⟨t, u, rfl, hP, rfl, hR⟩
    | cons b done =>
      obtain ⟨rfl, hdone'⟩ := List.cons_prefix_cons.mp hdone
      obtain ⟨t', u', ht', hP', hu', hR'⟩ := ih hrest hR₁ done hdone'
      refine ⟨t', u', ?_, hP', ?_, hR'⟩
      · rw [runAll, ht, Option.bind_some, ht']
      · rw [runAll, hu, Option.bind_some, hu']

end Keeps

section View

variable {ρ : Type} {step' : α → σ → Option σ} {view : σ → ρ}

/-- Two systems look the same after every part of a run exactly when each step looks the same
from the state that one of them has reached, provided a step of the other looks the same from
states that do. -/
theorem sameViews_iff
    (hview : ∀ a s u, view s = view u → (step' a s).map view = (step' a u).map view)
    {as : List α} {s u : σ} (hsu : view u = view s) :
    (∀ done, done <+: as → (runAll step' done u).map view = (runAll step done s).map view) ↔
      ∀ done a, done ++ [a] <+: as → ∀ t, runAll step done s = some t →
        (step' a t).map view = (step a t).map view := by
  induction as generalizing s u with
  | nil =>
    constructor
    · intro _ done a hdone
      simp at hdone
    · intro _ done hdone
      obtain rfl := List.prefix_nil.mp hdone
      exact congrArg some hsu
  | cons a as ih =>
    constructor
    · intro h done b hdone t ht
      cases done with
      | nil =>
        obtain ⟨rfl, -⟩ := List.cons_prefix_cons.mp hdone
        obtain rfl := Option.some.inj ht
        have hone := h [b] (List.cons_prefix_cons.mpr ⟨rfl, List.nil_prefix⟩)
        simp only [runAll, Option.bind_fun_some] at hone
        rw [← hone, hview b s u hsu.symm]
      | cons c done =>
        obtain ⟨rfl, hrest⟩ := List.cons_prefix_cons.mp hdone
        have hone := h [c] (List.cons_prefix_cons.mpr ⟨rfl, List.nil_prefix⟩)
        simp only [runAll, Option.bind_fun_some] at hone
        rw [runAll, Option.bind_eq_some_iff] at ht
        obtain ⟨s₁, hs₁, ht⟩ := ht
        rw [hs₁, Option.map_some, Option.map_eq_some_iff] at hone
        obtain ⟨u₁, hu₁, hone⟩ := hone
        refine (ih hone).mp ?_ done b hrest t ht
        intro done' hdone'
        have hlonger := h (c :: done') (List.cons_prefix_cons.mpr ⟨rfl, hdone'⟩)
        rwa [runAll, runAll, hs₁, hu₁] at hlonger
    · intro h done hdone
      cases done with
      | nil => exact congrArg some hsu
      | cons c done =>
        obtain ⟨rfl, hrest⟩ := List.cons_prefix_cons.mp hdone
        have hone := h [] c (List.cons_prefix_cons.mpr ⟨rfl, List.nil_prefix⟩) s rfl
        rw [← hview c u s hsu] at hone
        rw [runAll, runAll]
        cases hs₁ : step c s with
        | none =>
          rw [hs₁, Option.map_none, Option.map_eq_none_iff] at hone
          rw [hone]
          rfl
        | some s₁ =>
          rw [hs₁, Option.map_some, Option.map_eq_some_iff] at hone
          obtain ⟨u₁, hu₁, hone⟩ := hone
          rw [hu₁]
          refine (ih hone).mpr ?_ done hrest
          intro done' b hdone' t ht
          refine h (c :: done') b (List.cons_prefix_cons.mpr ⟨rfl, hdone'⟩) t ?_
          rwa [runAll, hs₁]

end View

end PartialRuns
