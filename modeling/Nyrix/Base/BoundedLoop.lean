import Mathlib.Algebra.BigOperators.Group.List.Basic

/-!
# Loops of an imperative program

`forUp body lo n` runs `body lo`, `body (lo + 1)`, …, `n` bodies in all. A `while`
loop is given fuel and yields `none` when the fuel does not reach its exit; its trace
is the list of states in which a body starts. What a loop preserves is read off one
body; whether it ends is read off a measure.
-/

namespace BoundedLoop

variable {σ : Type}

def forUp (body : Nat → σ → σ) : Nat → Nat → σ → σ
  | _, 0, s => s
  | i, n + 1, s => forUp body (i + 1) n (body i s)

@[simp] theorem forUp_zero (body : Nat → σ → σ) (i : Nat) (s : σ) : forUp body i 0 s = s := rfl

theorem forUp_succ (body : Nat → σ → σ) (i n : Nat) (s : σ) :
    forUp body i (n + 1) s = forUp body (i + 1) n (body i s) := rfl

/-- An indexed invariant kept by each body holds with the final index. -/
theorem forUp_induct (body : Nat → σ → σ) (P : Nat → σ → Prop) (lo n : Nat) (s : σ)
    (h0 : P lo s) (hstep : ∀ i s, lo ≤ i → i < lo + n → P i s → P (i + 1) (body i s)) :
    P (lo + n) (forUp body lo n s) := by
  induction n generalizing lo s with
  | zero => exact h0
  | succ n ih =>
    have h1 := hstep lo s (by omega) (by omega) h0
    have h := ih (lo + 1) (body lo s) h1 (fun i s hi hlt => hstep i s (by omega) (by omega))
    have hend : lo + (n + 1) = lo + 1 + n := by omega
    rw [forUp_succ, hend]
    exact h

/-- The last body comes after the others. -/
theorem forUp_succ_last (body : Nat → σ → σ) (lo n : Nat) (s : σ) :
    forUp body lo (n + 1) s = body (lo + n) (forUp body lo n s) := by
  induction n generalizing lo s with
  | zero => rfl
  | succ n ih =>
    have hend : lo + 1 + n = lo + (n + 1) := by omega
    rw [forUp_succ, ih, forUp_succ body lo n s, hend]

/-- A loop body with an error exit; the loop stops at the first error. -/
def forUp? (body : Nat → σ → Option σ) : Nat → Nat → σ → Option σ
  | _, 0, s => some s
  | i, n + 1, s => (body i s).bind (forUp? body (i + 1) n)

/-- An indexed invariant under which no body fails, and which each body keeps. -/
theorem forUp?_induct (body : Nat → σ → Option σ) (P : Nat → σ → Prop) (lo n : Nat) (s : σ)
    (h0 : P lo s)
    (hstep : ∀ i s, lo ≤ i → i < lo + n → P i s → ∃ t, body i s = some t ∧ P (i + 1) t) :
    ∃ t, forUp? body lo n s = some t ∧ P (lo + n) t := by
  induction n generalizing lo s with
  | zero => exact ⟨s, rfl, h0⟩
  | succ n ih =>
    obtain ⟨t, ht, hP⟩ := hstep lo s (by omega) (by omega) h0
    obtain ⟨u, hu, hQ⟩ :=
      ih (lo + 1) t hP (fun i s hi hlt => hstep i s (by omega) (by omega))
    have hend : lo + (n + 1) = lo + 1 + n := by omega
    refine ⟨u, ?_, ?_⟩
    · simpa [forUp?, ht] using hu
    · rwa [hend]

/-- What each body keeps that gets through, a loop that gets through keeps. -/
theorem forUp?_keeps {body : Nat → σ → Option σ} (P : σ → Prop)
    (hstep : ∀ i s t, P s → body i s = some t → P t) {lo n : Nat} {s t : σ} (h0 : P s)
    (h : forUp? body lo n s = some t) : P t := by
  induction n generalizing lo s with
  | zero => exact Option.some.inj h ▸ h0
  | succ n ih =>
    rw [forUp?, Option.bind_eq_some_iff] at h
    obtain ⟨u, hu, hrest⟩ := h
    exact ih (hstep lo s u h0 hu) hrest

section While

variable (cond : σ → Bool) (body : σ → σ)

def whileLoop : Nat → σ → Option σ
  | 0, s => if cond s then none else some s
  | n + 1, s => if cond s then whileLoop n (body s) else some s

/-- The states in which the loop body starts, in order. -/
def whileTrace : Nat → σ → List σ
  | 0, _ => []
  | n + 1, s => if cond s then s :: whileTrace n (body s) else []

variable {cond body}

theorem whileLoop_of_false {s : σ} (h : cond s = false) (n : Nat) :
    whileLoop cond body n s = some s := by
  cases n <;> simp [whileLoop, h]

theorem whileLoop_of_true {s : σ} (h : cond s = true) (n : Nat) :
    whileLoop cond body (n + 1) s = whileLoop cond body n (body s) := by
  simp [whileLoop, h]

theorem whileTrace_of_false {s : σ} (h : cond s = false) (n : Nat) :
    whileTrace cond body n s = [] := by
  cases n <;> simp [whileTrace, h]

theorem whileTrace_of_true {s : σ} (h : cond s = true) (n : Nat) :
    whileTrace cond body (n + 1) s = s :: whileTrace cond body n (body s) := by
  simp [whileTrace, h]

/-- Induction over the states in which the bodies of a loop that ends start. -/
theorem whileLoop_traced (R : σ → List σ → σ → Prop) (hexit : ∀ s, cond s = false → R s [] s)
    (hround : ∀ s trace t, cond s = true → R (body s) trace t → R s (s :: trace) t)
    {n : Nat} {s t : σ} (h : whileLoop cond body n s = some t) :
    R s (whileTrace cond body n s) t := by
  induction n generalizing s with
  | zero =>
    cases hc : cond s with
    | true => simp [whileLoop, hc] at h
    | false =>
      rw [whileLoop_of_false hc] at h
      rw [whileTrace_of_false hc, ← Option.some.inj h]
      exact hexit s hc
  | succ n ih =>
    cases hc : cond s with
    | true =>
      rw [whileLoop_of_true hc] at h
      rw [whileTrace_of_true hc]
      exact hround s _ t hc (ih h)
    | false =>
      rw [whileLoop_of_false hc] at h
      rw [whileTrace_of_false hc, ← Option.some.inj h]
      exact hexit s hc

variable (cond body) in
/-- The loop ends, and the states it comes to have the property. -/
inductive Ends (P : σ → Prop) : σ → Prop where
  | exit {s : σ} (hP : P s) (hc : cond s = false) : Ends P s
  | round {s : σ} (hP : P s) (hc : cond s = true) (h : Ends P (body s)) : Ends P s

theorem ends_iff {P : σ → Prop} {s : σ} : Ends cond body P s ↔
    ∃ n t, whileLoop cond body n s = some t ∧ (∀ u ∈ whileTrace cond body n s, P u) ∧ P t := by
  constructor
  · intro h
    induction h with
    | exit hP hc => exact ⟨0, _, whileLoop_of_false hc 0, by simp [whileTrace], hP⟩
    | round hP hc _ ih =>
      obtain ⟨n, t, ht, htrace, hlast⟩ := ih
      refine ⟨n + 1, t, by rw [whileLoop_of_true hc, ht], ?_, hlast⟩
      rw [whileTrace_of_true hc]
      exact List.forall_mem_cons.mpr ⟨hP, htrace⟩
  · rintro ⟨n, t, ht, htrace, hlast⟩
    refine whileLoop_traced (fun s trace t => (∀ u ∈ trace, P u) → P t → Ends cond body P s)
      ?_ ?_ ht htrace hlast
    · intro s hc _ hP
      exact .exit hP hc
    · intro s trace t hc ih hall hP
      obtain ⟨hs, hrest⟩ := List.forall_mem_cons.mp hall
      exact .round hs hc (ih hrest hP)

/-- Partial correctness: what every body keeps holds at the exit. -/
theorem whileLoop_induct (P : σ → Prop) (hstep : ∀ s, cond s = true → P s → P (body s))
    (n : Nat) (s t : σ) (h0 : P s) (h : whileLoop cond body n s = some t) :
    P t ∧ cond t = false := by
  refine whileLoop_traced (fun s _ t => P s → P t ∧ cond t = false) ?_ ?_ h h0
  · intro s hc hs
    exact ⟨hs, hc⟩
  · intro s _ t hc ih hs
    exact ih (hstep s hc hs)

/-- Every traced state satisfies what each body keeps. -/
theorem whileTrace_induct (P : σ → Prop) (hstep : ∀ s, cond s = true → P s → P (body s))
    (n : Nat) (s : σ) (h0 : P s) : ∀ t ∈ whileTrace cond body n s, P t ∧ cond t = true := by
  induction n generalizing s with
  | zero => simp [whileTrace]
  | succ n ih =>
    intro t ht
    cases hc : cond s with
    | true =>
      rw [whileTrace_of_true hc, List.mem_cons] at ht
      obtain rfl | ht := ht
      · exact ⟨h0, hc⟩
      · exact ih (body s) (hstep s hc h0) t ht
    | false => simp [whileTrace_of_false hc] at ht

/-- Termination: a bounded measure that goes up with every body bounds the fuel. -/
theorem whileLoop_terminates (μ : σ → Nat) (bound : Nat) (P : σ → Prop)
    (hstep : ∀ s, cond s = true → P s → P (body s) ∧ μ s < μ (body s))
    (hbound : ∀ s, cond s = true → P s → μ s < bound) (s : σ) (h0 : P s) :
    ∃ n t, whileLoop cond body n s = some t := by
  have key : ∀ d s, bound - μ s ≤ d → P s → ∃ t, whileLoop cond body d s = some t := by
    intro d
    induction d with
    | zero =>
      intro s hd hP
      cases hc : cond s with
      | true =>
        have := hbound s hc hP
        omega
      | false => exact ⟨s, whileLoop_of_false hc 0⟩
    | succ d ih =>
      intro s hd hP
      cases hc : cond s with
      | true =>
        have hb := hbound s hc hP
        obtain ⟨hP', hμ⟩ := hstep s hc hP
        rw [whileLoop_of_true hc]
        exact ih (body s) (by omega) hP'
      | false => exact ⟨s, whileLoop_of_false hc _⟩
  obtain ⟨t, ht⟩ := key (bound - μ s) s (Nat.le_refl _) h0
  exact ⟨_, t, ht⟩

/-- More fuel does not change the result. -/
theorem whileLoop_mono {n m : Nat} {s t : σ} (h : whileLoop cond body n s = some t)
    (hnm : n ≤ m) : whileLoop cond body m s = some t := by
  induction n generalizing s m with
  | zero =>
    cases hc : cond s with
    | true => simp [whileLoop, hc] at h
    | false => rw [whileLoop_of_false hc] at h ⊢; exact h
  | succ n ih =>
    cases hc : cond s with
    | true =>
      obtain ⟨m, rfl⟩ : ∃ k, m = k + 1 := ⟨m - 1, by omega⟩
      rw [whileLoop_of_true hc] at h ⊢
      exact ih h (by omega)
    | false => rw [whileLoop_of_false hc] at h ⊢; exact h

/-- Two fuels that reach the exit reach it in one state. -/
theorem whileLoop_det {n m : Nat} {s t u : σ} (h : whileLoop cond body n s = some t)
    (h' : whileLoop cond body m s = some u) : t = u := by
  have ht := whileLoop_mono h (Nat.le_max_left n m)
  have hu := whileLoop_mono h' (Nat.le_max_right n m)
  exact Option.some.inj (ht.symm.trans hu)

/-- A loop known to run `n` bodies, with an invariant that counts them. -/
theorem whileLoop_counted (P : Nat → σ → Prop) (n : Nat) {s : σ} (h0 : P 0 s)
    (hstep : ∀ i s, i < n → P i s → cond s = true ∧ P (i + 1) (body s))
    (hend : ∀ s, P n s → cond s = false) : ∃ t, whileLoop cond body n s = some t ∧ P n t := by
  have key : ∀ k i s, i + k = n → P i s → ∃ t, whileLoop cond body k s = some t ∧ P n t := by
    intro k
    induction k with
    | zero =>
      intro i s hi hP
      rw [Nat.add_zero] at hi
      subst hi
      exact ⟨s, whileLoop_of_false (hend s hP) 0, hP⟩
    | succ k ih =>
      intro i s hi hP
      obtain ⟨hc, hP'⟩ := hstep i s (by omega) hP
      rw [whileLoop_of_true hc]
      exact ih (i + 1) (body s) (by omega) hP'
  exact key n 0 s (by omega) h0

/-- What such a loop sees when each body starts. -/
theorem whileTrace_counted {α : Type} (P : Nat → σ → Prop) (view : σ → α) (expect : Nat → α)
    (n : Nat) {s : σ} (h0 : P 0 s)
    (hstep : ∀ i s, i < n → P i s → cond s = true ∧ P (i + 1) (body s) ∧ view s = expect i)
    (hend : ∀ s, P n s → cond s = false) (fuel : Nat) (hf : n ≤ fuel) :
    (whileTrace cond body fuel s).map view = (List.range n).map expect := by
  have key : ∀ k i s fuel, i + k = n → k ≤ fuel → P i s →
      (whileTrace cond body fuel s).map view = (List.range' i k).map expect := by
    intro k
    induction k with
    | zero =>
      intro i s fuel hi _ hP
      rw [Nat.add_zero] at hi
      subst hi
      rw [whileTrace_of_false (hend s hP)]
      rfl
    | succ k ih =>
      intro i s fuel hi hk hP
      obtain ⟨hc, hP', hv⟩ := hstep i s (by omega) hP
      obtain ⟨fuel, rfl⟩ : ∃ f, fuel = f + 1 := ⟨fuel - 1, by omega⟩
      rw [whileTrace_of_true hc, List.map_cons, ih (i + 1) (body s) fuel (by omega) (by omega) hP',
        List.range'_succ, List.map_cons, hv]
  rw [key n 0 s fuel (by omega) hf h0, List.range_eq_range']

/-- The states of a loop known to run `n` bodies are those `forUp` goes through. -/
theorem whileTrace_iterate (n : Nat) {s : σ}
    (hc : ∀ i < n, cond (forUp (fun _ => body) 0 i s) = true)
    (hend : cond (forUp (fun _ => body) 0 n s) = false) (fuel : Nat) (hf : n ≤ fuel) :
    whileTrace cond body fuel s = (List.range n).map fun i => forUp (fun _ => body) 0 i s := by
  have h : (whileTrace cond body fuel s).map id =
      (List.range n).map fun i => forUp (fun _ => body) 0 i s := by
    refine whileTrace_counted (fun i t => t = forUp (fun _ => body) 0 i s) id _ n rfl ?_ ?_ fuel hf
    · rintro i t hi rfl
      refine ⟨hc i hi, ?_, rfl⟩
      rw [forUp_succ_last]
    · rintro t rfl
      exact hend
  rwa [List.map_id] at h

/-- Each traced state but the first comes out of the body of the one before. -/
theorem whileTrace_isChain (n : Nat) (s : σ) :
    (whileTrace cond body n s).IsChain (fun a b => b = body a) := by
  induction n generalizing s with
  | zero => exact .nil
  | succ n ih =>
    cases hc : cond s with
    | true =>
      rw [whileTrace_of_true hc]
      have htail := ih (body s)
      cases n with
      | zero => exact .singleton s
      | succ n =>
        cases hc' : cond (body s) with
        | true =>
          rw [whileTrace_of_true hc'] at htail ⊢
          exact .cons_cons rfl htail
        | false =>
          rw [whileTrace_of_false hc']
          exact .singleton s
    | false =>
      rw [whileTrace_of_false hc]
      exact .nil

/-- A quantity to which every body adds its own contribution. -/
theorem whileLoop_sum {M : Type} [AddMonoid M] (val contrib : σ → M) (P : σ → Prop)
    (hstep : ∀ s, cond s = true → P s → P (body s) ∧ val (body s) = val s + contrib s)
    (n : Nat) (s t : σ) (h0 : P s) (h : whileLoop cond body n s = some t) :
    val t = val s + ((whileTrace cond body n s).map contrib).sum := by
  refine whileLoop_traced (fun s trace t => P s → val t = val s + (trace.map contrib).sum)
    ?_ ?_ h h0
  · intro s _ _
    rw [List.map_nil, List.sum_nil, add_zero]
  · intro s trace t hc ih hs
    obtain ⟨hP, hv⟩ := hstep s hc hs
    rw [ih hP, hv, List.map_cons, List.sum_cons, add_assoc]

end While

section WhileError

variable (cond : σ → Option Bool) (body : σ → Option σ)

/-- A `while` loop whose condition and body may fail; out of fuel is failure too. -/
def whileLoop? : Nat → σ → Option σ
  | 0, s => (cond s).bind fun c => if c then none else some s
  | n + 1, s => (cond s).bind fun c => if c then (body s).bind (whileLoop? n) else some s

variable {cond body}

variable (cond body) in
/-- A loop known to run `n` bodies without failure. -/
theorem whileLoop?_counted (P : Nat → σ → Prop) (n : Nat) {s : σ} (h0 : P 0 s)
    (hstep : ∀ i s, i < n → P i s →
      cond s = some true ∧ ∃ t, body s = some t ∧ P (i + 1) t)
    (hend : ∀ s, P n s → cond s = some false) (fuel : Nat) (hf : n ≤ fuel) :
    ∃ t, whileLoop? cond body fuel s = some t ∧ P n t := by
  have key : ∀ k i s fuel, i + k = n → k ≤ fuel → P i s →
      ∃ t, whileLoop? cond body fuel s = some t ∧ P n t := by
    intro k
    induction k with
    | zero =>
      intro i s fuel hi _ hP
      rw [Nat.add_zero] at hi
      subst hi
      refine ⟨s, ?_, hP⟩
      cases fuel <;> simp [whileLoop?, hend s hP]
    | succ k ih =>
      intro i s fuel hi hk hP
      obtain ⟨hc, t, ht, hQ⟩ := hstep i s (by omega) hP
      obtain ⟨fuel, rfl⟩ : ∃ f, fuel = f + 1 := ⟨fuel - 1, by omega⟩
      obtain ⟨u, hu, hR⟩ := ih (i + 1) t fuel (by omega) (by omega) hQ
      exact ⟨u, by simpa [whileLoop?, hc, ht] using hu, hR⟩
  exact key n 0 s fuel (by omega) hf h0

end WhileError

end BoundedLoop
