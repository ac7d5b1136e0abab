import Nyrix.Base.BoundedLoop

/-!
# Loops that overwrite places

What a program keeps in places of its own is seen through a view of its state. A step that sets
some of the places leaves the others as they were, and a loop of such steps sets what its steps
set. The places that matter may be fewer than those the view shows.

What overlapping steps leave is painted layer over layer: at each place the last layer that
covers it shows.
-/

namespace Overwriting

open BoundedLoop

variable {σ ι β : Type} {kept : σ → σ → Prop} {view : σ → ι → β} {D A B : ι → Prop} {v : ι → β}
  {s t u : σ}

/-- The places of a set `A` get the values `v`, and the others keep theirs. -/
structure Sets (kept : σ → σ → Prop) (view : σ → ι → β) (D A : ι → Prop) (v : ι → β) (s t : σ) :
    Prop where
  kept : kept s t
  inside : ∀ p, D p → A p → view t p = v p
  outside : ∀ p, D p → ¬A p → view t p = view s p

theorem Sets.congr {v' : ι → β} (h : Sets kept view D A v s t) (hA : ∀ p, D p → (A p ↔ B p))
    (hv : ∀ p, D p → B p → v p = v' p) : Sets kept view D B v' s t := by
  refine ⟨h.kept, fun p hD hB => ?_, fun p hD hB => h.outside p hD fun hA' => hB ((hA p hD).mp hA')⟩
  rw [h.inside p hD ((hA p hD).mpr hB), hv p hD hB]

/-- Two steps with the same values. -/
theorem Sets.trans (htrans : ∀ s t u, kept s t → kept t u → kept s u)
    (h : Sets kept view D A v s t) (h' : Sets kept view D B v t u) :
    Sets kept view D (fun p => A p ∨ B p) v s u := by
  refine ⟨htrans s t u h.kept h'.kept, fun p hD hAB => ?_, fun p hD hAB => ?_⟩
  · by_cases hB : B p
    · exact h'.inside p hD hB
    · rw [h'.outside p hD hB]
      exact h.inside p hD (hAB.resolve_right hB)
  · rw [h'.outside p hD fun hB => hAB (.inr hB)]
    exact h.outside p hD fun hA => hAB (.inl hA)

/-- A loop each of whose bodies sets its places, once it has seen what the bodies before it set. -/
theorem sets_loop (hrefl : ∀ s, kept s s) (htrans : ∀ s t u, kept s t → kept t u → kept s u)
    {A : Nat → ι → Prop} {body : Nat → σ → Option σ} {lo n : Nat}
    (hbody : ∀ i t, lo ≤ i → i < lo + n →
      Sets kept view D (fun p => ∃ j, lo ≤ j ∧ j < i ∧ A j p) v s t →
      ∃ u, body i t = some u ∧ Sets kept view D (A i) v t u) :
    ∃ t, forUp? body lo n s = some t ∧
      Sets kept view D (fun p => ∃ j, lo ≤ j ∧ j < lo + n ∧ A j p) v s t := by
  refine forUp?_induct body
    (fun i t => Sets kept view D (fun p => ∃ j, lo ≤ j ∧ j < i ∧ A j p) v s t) lo n s
    ⟨hrefl s, ?_, fun _ _ _ => rfl⟩ ?_
  · rintro p _ ⟨j, hlo, hj, _⟩
    omega
  · intro i t hlo hi hsets
    obtain ⟨u, hu, hset⟩ := hbody i t hlo hi hsets
    refine ⟨u, hu, (hsets.trans htrans hset).congr (fun p _ => ?_) fun _ _ _ => rfl⟩
    constructor
    · rintro (⟨j, hj, hji, hA⟩ | hA)
      · exact ⟨j, hj, by omega, hA⟩
      · exact ⟨i, hlo, by omega, hA⟩
    · rintro ⟨j, hj, hji, hA⟩
      by_cases hlast : j = i
      · exact .inr (hlast ▸ hA)
      · exact .inl ⟨j, hj, by omega, hA⟩

/-- The values some places get. -/
structure Layer (ι β : Type) where
  covers : ι → Prop
  value : ι → β

/-- A place some layer covers. -/
def Covered (ls : List (Layer ι β)) (p : ι) : Prop := ∃ l ∈ ls, l.covers p

open Classical in
/-- An image with the layers painted over it, the first one first. -/
noncomputable def paint : List (Layer ι β) → (ι → β) → ι → β
  | [], img => img
  | l :: ls, img => paint ls fun p => if l.covers p then l.value p else img p

section Layers

variable {l : Layer ι β} {ls : List (Layer ι β)} {img img' : ι → β} {p : ι}

theorem covered_cons : Covered (l :: ls) p ↔ l.covers p ∨ Covered ls p := by
  simp only [Covered, List.mem_cons, exists_eq_or_imp]

theorem paint_append (ls ls' : List (Layer ι β)) (img : ι → β) :
    paint (ls ++ ls') img = paint ls' (paint ls img) := by
  induction ls generalizing img with
  | nil => rfl
  | cons l ls ih => exact ih _

/-- Only what no layer covers is seen of the image. -/
theorem paint_congr (h : ¬Covered ls p → img p = img' p) : paint ls img p = paint ls img' p := by
  induction ls generalizing img img' with
  | nil =>
    refine h ?_
    rintro ⟨l, hl, -⟩
    exact List.not_mem_nil hl
  | cons l ls ih =>
    refine ih fun hrest => ?_
    by_cases hl : l.covers p
    · rw [if_pos hl, if_pos hl]
    · rw [if_neg hl, if_neg hl]
      exact h (mt covered_cons.mp (not_or.mpr ⟨hl, hrest⟩))

theorem paint_outside (h : ¬Covered ls p) : paint ls img p = img p := by
  induction ls generalizing img with
  | nil => rfl
  | cons l ls ih =>
    rw [covered_cons, not_or] at h
    rw [paint, ih h.2, if_neg h.1]

/-- The last layer hides the ones before it. -/
theorem paint_last (h : l.covers p) : paint (ls ++ [l]) img p = l.value p := by
  rw [paint_append, paint, paint, if_pos h]

/-- Painting the same again changes nothing. -/
theorem paint_twice (ls : List (Layer ι β)) (img : ι → β) :
    paint ls (paint ls img) p = paint ls img p :=
  paint_congr fun h => paint_outside h

/-- Layers that agree at a place show there what each of them does. -/
theorem paint_value {b : β} (hvalue : ∀ l ∈ ls, l.covers p → l.value p = b)
    (h : Covered ls p ∨ img p = b) : paint ls img p = b := by
  induction ls generalizing img with
  | nil =>
    refine h.resolve_left ?_
    rintro ⟨l, hl, -⟩
    exact List.not_mem_nil hl
  | cons l ls ih =>
    refine ih (fun m hm => hvalue m (List.mem_cons_of_mem l hm)) ?_
    rw [covered_cons, or_assoc] at h
    by_cases hl : l.covers p
    · rw [if_pos hl]
      exact Or.inr (hvalue l List.mem_cons_self hl)
    · rw [if_neg hl]
      exact h.resolve_left hl

end Layers

/-- What a step leaves is what it set, painted over what was there. -/
theorem Sets.paint (h : Sets kept view D A v s t) {p : ι} (hp : D p) :
    view t p = Overwriting.paint [⟨A, v⟩] (view s) p := by
  rw [Overwriting.paint, Overwriting.paint]
  by_cases hA : A p
  · rw [if_pos hA]
    exact h.inside p hp hA
  · rw [if_neg hA]
    exact h.outside p hp hA

end Overwriting
