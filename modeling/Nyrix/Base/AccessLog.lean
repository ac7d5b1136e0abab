import Nyrix.Base.PackedBits

/-!
# Access logs

The reads and writes of a program in the order it makes them. `Runs m log m'` says that the
log leads from memory `m` to memory `m'`. When no write that a read comes after falls inside
a region, each read finds there what the region held at the start.
-/

namespace AccessLog

open ByteMemory BoundedLoop PackedBits

/-- `n` bytes from `a` on, read while memory is `m`, or written. -/
inductive Access where
  | read (a n : Nat) (m : Mem)
  | write (a n : Nat)

inductive Runs : Mem → List Access → Mem → Prop where
  | nil (m : Mem) : Runs m [] m
  | read {m m' : Mem} {log : List Access} (a n : Nat) (h : Runs m log m') :
      Runs m (.read a n m :: log) m'
  | write {m m' m'' : Mem} {log : List Access} {a n : Nat} (hf : Frame a n m m')
      (h : Runs m' log m'') : Runs m (.write a n :: log) m''

theorem runs_write {m m' : Mem} {a n : Nat} (hf : Frame a n m m') : Runs m [.write a n] m' :=
  .write hf (.nil m')

theorem runs_read (m : Mem) (a n : Nat) : Runs m [.read a n m] m := .read a n (.nil m)

theorem runs_append {m m' m'' : Mem} {log log' : List Access} (h : Runs m log m')
    (h' : Runs m' log' m'') : Runs m (log ++ log') m'' := by
  induction h with
  | nil m => exact h'
  | read a n _ ih => exact .read a n (ih h')
  | write hf _ ih => exact .write hf (ih h')

/-- A write and a read that comes after it: the write misses the region. -/
def Before (base len : Nat) : Access → Access → Prop
  | .write a n, .read _ _ _ => Sep a n base len
  | _, _ => True

/-- No write that a read comes after falls inside the region. -/
def Unwritten (base len : Nat) (log : List Access) : Prop := log.Pairwise (Before base len)

/-- Each read finds in the region what memory `m` holds there. -/
def ReadsBack (base len : Nat) (m : Mem) (log : List Access) : Prop :=
  ∀ a n m', .read a n m' ∈ log →
    ∀ i < n, base ≤ a + i → a + i < base + len → load8 m' (a + i) = load8 m (a + i)

/-- No write falls inside the region. -/
def Apart (base len : Nat) (log : List Access) : Prop :=
  ∀ a n, .write a n ∈ log → Sep a n base len

section Region

variable {base len : Nat}

theorem frame_region {a n x : Nat} {m m' : Mem} (hf : Frame a n m m') (hs : Sep a n base len)
    (hlo : base ≤ x) (hhi : x < base + len) : load8 m' x = load8 m x := by
  have hx : x = base + (x - base) := by omega
  apply hf
  rw [hx]
  exact sep_right hs (x - base) 1 (by omega)

theorem readsBack_of_unwritten {m m' : Mem} {log : List Access} (h : Runs m log m')
    (hu : Unwritten base len log) : ReadsBack base len m log := by
  induction h with
  | nil m =>
    intro a n m' hr
    cases hr
  | read a n _ ih =>
    intro a' n' m' hr i hi hlo hhi
    obtain he | hr := List.mem_cons.mp hr
    · cases he
      rfl
    · exact ih (List.pairwise_cons.mp hu).2 a' n' m' hr i hi hlo hhi
  | write hf _ ih =>
    intro a' n' m' hr i hi hlo hhi
    obtain he | hr := List.mem_cons.mp hr
    · cases he
    · obtain ⟨hhead, htail⟩ := List.pairwise_cons.mp hu
      have hs := hhead _ hr
      rw [ih htail a' n' m' hr i hi hlo hhi]
      exact frame_region hf hs hlo hhi

/-- A program that never writes the region leaves it as it is. -/
theorem runs_apart {m m' : Mem} {log : List Access} (h : Runs m log m')
    (ha : Apart base len log) {x : Nat} (hlo : base ≤ x) (hhi : x < base + len) :
    load8 m' x = load8 m x := by
  induction h with
  | nil m => rfl
  | read a n _ ih => exact ih fun a' n' hw => ha a' n' (List.mem_cons_of_mem _ hw)
  | write hf _ ih =>
    rw [ih fun a' n' hw => ha a' n' (List.mem_cons_of_mem _ hw)]
    exact frame_region hf (ha _ _ (List.mem_cons_self ..)) hlo hhi

theorem unwritten_of_apart {log : List Access} (h : Apart base len log) :
    Unwritten base len log := by
  induction log with
  | nil => exact .nil
  | cons e log ih =>
    refine List.pairwise_cons.mpr ⟨?_, ih fun a n hw => h a n (List.mem_cons_of_mem _ hw)⟩
    intro e' _
    cases e with
    | read => trivial
    | write a n =>
      cases e' with
      | read => exact h a n (List.mem_cons_self ..)
      | write => trivial

/-- The log holds no read. -/
def WritesOnly (log : List Access) : Prop := ∀ e ∈ log, ∃ a n, e = .write a n

theorem writesOnly_append {log log' : List Access} (h : WritesOnly log) (h' : WritesOnly log') :
    WritesOnly (log ++ log') := by
  intro e he
  obtain he | he := List.mem_append.mp he
  · exact h e he
  · exact h' e he

theorem unwritten_of_writesOnly {log : List Access} (h : WritesOnly log) :
    Unwritten base len log := by
  induction log with
  | nil => exact .nil
  | cons e log ih =>
    refine List.pairwise_cons.mpr ⟨?_, ih fun e' he' => h e' (List.mem_cons_of_mem _ he')⟩
    intro e' he'
    obtain ⟨a, n, rfl⟩ := h e' (List.mem_cons_of_mem _ he')
    cases e with
    | read => trivial
    | write => trivial

/-- What comes before a read must miss the region as a whole. -/
theorem unwritten_append {log log' : List Access} :
    Unwritten base len (log ++ log') ↔ Unwritten base len log ∧ Unwritten base len log' ∧
      ((∃ a n m, .read a n m ∈ log') → Apart base len log) := by
  simp only [Unwritten, List.pairwise_append]
  refine and_congr_right fun _ => and_congr_right fun _ => ?_
  constructor
  · rintro h ⟨a, n, m, hr⟩ a' n' hw
    exact h _ hw _ hr
  · intro h e he e' he'
    cases e with
    | read => trivial
    | write a n =>
      cases e' with
      | read a' n' m => exact h ⟨a', n', m, he'⟩ a n he
      | write => trivial

@[simp] theorem apart_nil : Apart base len [] := by
  intro a n hw
  cases hw

@[simp] theorem apart_read {a n : Nat} {m : Mem} {log : List Access} :
    Apart base len (.read a n m :: log) ↔ Apart base len log := by
  simp [Apart]

@[simp] theorem apart_write {a n : Nat} {log : List Access} :
    Apart base len (.write a n :: log) ↔ Sep a n base len ∧ Apart base len log := by
  simp [Apart, or_imp, forall_and]

@[simp] theorem apart_append {log log' : List Access} :
    Apart base len (log ++ log') ↔ Apart base len log ∧ Apart base len log' := by
  constructor
  · intro h
    exact ⟨fun a n hw => h a n (List.mem_append_left _ hw),
      fun a n hw => h a n (List.mem_append_right _ hw)⟩
  · rintro ⟨h, h'⟩ a n hw
    obtain hw | hw := List.mem_append.mp hw
    · exact h a n hw
    · exact h' a n hw

theorem apart_flatMap {α : Type} {l : List α} {f : α → List Access} :
    Apart base len (l.flatMap f) ↔ ∀ x ∈ l, Apart base len (f x) := by
  constructor
  · intro h x hx a n hw
    exact h a n (List.mem_flatMap.mpr ⟨x, hx, hw⟩)
  · intro h a n hw
    obtain ⟨x, hx, hw⟩ := List.mem_flatMap.mp hw
    exact h x hx a n hw

end Region

section Loops

variable {σ : Type} {body : Nat → σ → σ} {acc : Nat → σ → List Access}

/-- The accesses of a loop whose body `i` makes the accesses `acc i`. -/
def forUpLog (body : Nat → σ → σ) (acc : Nat → σ → List Access) : Nat → Nat → σ → List Access
  | _, 0, _ => []
  | i, n + 1, s => acc i s ++ forUpLog body acc (i + 1) n (body i s)

theorem forUpLog_succ_last (lo n : Nat) (s : σ) :
    forUpLog body acc lo (n + 1) s =
      forUpLog body acc lo n s ++ acc (lo + n) (forUp body lo n s) := by
  induction n generalizing lo s with
  | zero => simp [forUpLog]
  | succ n ih =>
    have hend : lo + 1 + n = lo + (n + 1) := by omega
    rw [forUpLog, ih, forUpLog, hend, List.append_assoc, forUp_succ]

theorem apart_forUpLog {base len lo n : Nat} {s : σ} :
    Apart base len (forUpLog body acc lo n s) ↔
      ∀ k < n, Apart base len (acc (lo + k) (forUp body lo k s)) := by
  induction n generalizing lo s with
  | zero => simp [forUpLog]
  | succ n ih =>
    rw [forUpLog, apart_append, ih]
    constructor
    · rintro ⟨hfirst, hrest⟩ k hk
      cases k with
      | zero => exact hfirst
      | succ k =>
        have hk' := hrest k (by omega)
        have he : lo + (k + 1) = lo + 1 + k := by omega
        rwa [he, forUp_succ]
    · intro h
      refine ⟨h 0 (by omega), fun k hk => ?_⟩
      have hk' := h (k + 1) (by omega)
      have he : lo + (k + 1) = lo + 1 + k := by omega
      rwa [he, forUp_succ] at hk'

theorem writesOnly_forUpLog (h : ∀ i s, WritesOnly (acc i s)) (lo n : Nat) (s : σ) :
    WritesOnly (forUpLog body acc lo n s) := by
  induction n generalizing lo s with
  | zero =>
    intro e he
    cases he
  | succ n ih => exact writesOnly_append (h lo s) (ih (lo + 1) (body lo s))

theorem runs_forUp (view : σ → Mem) (h : ∀ i s, Runs (view s) (acc i s) (view (body i s)))
    (lo n : Nat) (s : σ) : Runs (view s) (forUpLog body acc lo n s) (view (forUp body lo n s)) := by
  induction n generalizing lo s with
  | zero => exact .nil _
  | succ n ih => exact runs_append (h lo s) (ih (lo + 1) (body lo s))

/-- The accesses of a `while` loop are those of its traced bodies. -/
theorem runs_while {cond : σ → Bool} {body : σ → σ} {acc : σ → List Access} (view : σ → Mem)
    (h : ∀ s, Runs (view s) (acc s) (view (body s))) {n : Nat} {s t : σ}
    (hw : whileLoop cond body n s = some t) :
    Runs (view s) ((whileTrace cond body n s).flatMap acc) (view t) := by
  refine whileLoop_traced (fun s trace t => Runs (view s) (trace.flatMap acc) (view t)) ?_ ?_ hw
  · intro s _
    exact .nil _
  · intro s trace t _ ih
    rw [List.flatMap_cons]
    exact runs_append (h s) ih

end Loops

/-- The writes of a loop that fills `n` words. -/
def fillLog (base n : Nat) : List Access := (List.range n).map fun i => .write (base + 4 * i) 4

theorem runs_fill (base : Nat) (f : Nat → BitVec 32) (n : Nat) (m : Mem) :
    Runs m (fillLog base n) (fill base f n m) := by
  induction n with
  | zero => exact .nil m
  | succ n ih =>
    rw [fillLog, List.range_succ, List.map_append, fill, forUp_succ_last, Nat.zero_add]
    exact runs_append ih (runs_write (store32_frame _ _ _))

theorem writesOnly_fillLog (base n : Nat) : WritesOnly (fillLog base n) := by
  intro e he
  obtain ⟨i, _, rfl⟩ := List.mem_map.mp he
  exact ⟨_, _, rfl⟩

theorem apart_fillLog {b len base n : Nat} :
    Apart b len (fillLog base n) ↔ Sep base (4 * n) b len := by
  constructor
  · intro h x hx j hj
    have hin : .write (base + 4 * (x / 4)) 4 ∈ fillLog base n :=
      List.mem_map.mpr ⟨x / 4, List.mem_range.mpr (by omega), rfl⟩
    have hword := h _ _ hin (x % 4) (by omega) j hj
    have hsplit : base + 4 * (x / 4) + x % 4 = base + x := by omega
    rwa [hsplit] at hword
  · intro h a k hw
    obtain ⟨i, hi, he⟩ := List.mem_map.mp hw
    rw [List.mem_range] at hi
    cases he
    exact sep_left h (4 * i) 4 (by omega)

end AccessLog
