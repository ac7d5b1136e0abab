import Mathlib.Data.List.Nodup
import Mathlib.Data.List.Count
import Mathlib.Logic.Function.Basic

/-!
# Pages cut into blocks of a class

Each page belongs to a class, and the class fixes the stride at which the page is cut.
A block is free, in the list of its class, or it is out. Bookkeeping is exact when every
block of every page is found once among the two.
-/

namespace BlockPool

variable {κ : Type}

/-- The blocks of a page; what is left at its end belongs to none. -/
def cut (size stride page : Nat) : List Nat :=
  (List.range (size / stride)).map fun k => page + stride * k

theorem mem_cut {size stride page b : Nat} :
    b ∈ cut size stride page ↔ ∃ k < size / stride, b = page + stride * k := by
  simp only [cut, List.mem_map, List.mem_range]
  constructor
  · rintro ⟨k, hk, rfl⟩
    exact ⟨k, hk, rfl⟩
  · rintro ⟨k, hk, rfl⟩
    exact ⟨k, hk, rfl⟩

/-- A block does not leave its page. -/
theorem cut_inside {size stride page b : Nat} (h : b ∈ cut size stride page) :
    page ≤ b ∧ b + stride ≤ page + size := by
  obtain ⟨k, hk, rfl⟩ := mem_cut.mp h
  have hlast : stride * (k + 1) ≤ stride * (size / stride) := Nat.mul_le_mul_left stride hk
  have hall : stride * (size / stride) ≤ size := Nat.mul_div_le size stride
  rw [Nat.mul_add, Nat.mul_one] at hlast
  exact ⟨Nat.le_add_right _ _, by omega⟩

theorem cut_nodup {stride : Nat} (hs : 0 < stride) (size page : Nat) :
    (cut size stride page).Nodup := by
  refine List.nodup_range.map ?_
  intro j k he
  exact Nat.eq_of_mul_eq_mul_left hs (Nat.add_left_cancel he)

/-- Two blocks of one page. -/
theorem cut_apart {size stride page b c : Nat} (hb : b ∈ cut size stride page)
    (hc : c ∈ cut size stride page) (hne : b ≠ c) : b + stride ≤ c ∨ c + stride ≤ b := by
  obtain ⟨j, _, rfl⟩ := mem_cut.mp hb
  obtain ⟨k, _, rfl⟩ := mem_cut.mp hc
  have hjk : j ≠ k := fun he => hne (by rw [he])
  obtain hlt | hlt : j < k ∨ k < j := by omega
  · have h : stride * (j + 1) ≤ stride * k := Nat.mul_le_mul_left stride hlt
    rw [Nat.mul_add, Nat.mul_one] at h
    omega
  · have h : stride * (k + 1) ≤ stride * j := Nat.mul_le_mul_left stride hlt
    rw [Nat.mul_add, Nat.mul_one] at h
    omega

/-- Two pages at multiples of the page size. -/
theorem page_apart {size p q : Nat} (hp : p % size = 0) (hq : q % size = 0) (hne : p ≠ q) :
    p + size ≤ q ∨ q + size ≤ p := by
  have hpe : size * (p / size) = p := Nat.mul_div_cancel' (Nat.dvd_of_mod_eq_zero hp)
  have hqe : size * (q / size) = q := Nat.mul_div_cancel' (Nat.dvd_of_mod_eq_zero hq)
  have hne' : p / size ≠ q / size := fun he => hne (by rw [← hpe, ← hqe, he])
  obtain hlt | hlt : p / size < q / size ∨ q / size < p / size := by omega
  · have h : size * (p / size + 1) ≤ size * (q / size) := Nat.mul_le_mul_left size hlt
    rw [Nat.mul_add, Nat.mul_one] at h
    omega
  · have h : size * (q / size + 1) ≤ size * (p / size) := Nat.mul_le_mul_left size hlt
    rw [Nat.mul_add, Nat.mul_one] at h
    omega

/-- Pages at multiples of the page size, each in the list once. -/
structure Pages (size : Nat) (pages : List (Nat × κ)) : Prop where
  aligned : ∀ p ∈ pages, p.1 % size = 0
  distinct : (pages.map Prod.fst).Nodup

/-- A page has one class. -/
theorem pages_class {size p : Nat} {pages : List (Nat × κ)} {c d : κ}
    (h : Pages size pages) (hc : (p, c) ∈ pages) (hd : (p, d) ∈ pages) : c = d := by
  have he := List.inj_on_of_nodup_map h.distinct hc hd rfl
  exact congrArg Prod.snd he

variable [DecidableEq κ]

/-- The blocks of a class: those of its pages. -/
def blocksOf (size : Nat) (stride : κ → Nat) (pages : List (Nat × κ)) (c : κ) : List Nat :=
  pages.flatMap fun p => if p.2 = c then cut size (stride c) p.1 else []

section

variable {size : Nat} {stride : κ → Nat} {pages : List (Nat × κ)}

theorem blocksOf_cons (p : Nat × κ) (c : κ) :
    blocksOf size stride (p :: pages) c =
      (if p.2 = c then cut size (stride c) p.1 else []) ++ blocksOf size stride pages c := rfl

theorem mem_blocksOf {b : Nat} {c : κ} :
    b ∈ blocksOf size stride pages c ↔ ∃ p, (p, c) ∈ pages ∧ b ∈ cut size (stride c) p := by
  simp only [blocksOf, List.mem_flatMap]
  constructor
  · rintro ⟨⟨p, d⟩, hp, hb⟩
    by_cases hd : d = c
    · subst hd
      exact ⟨p, hp, by simpa using hb⟩
    · simp [hd] at hb
  · rintro ⟨p, hp, hb⟩
    exact ⟨(p, c), hp, by simpa using hb⟩

/-- Blocks of any classes do not overlap. -/
theorem blocks_apart (h : Pages size pages) {b b' : Nat} {c c' : κ}
    (hb : b ∈ blocksOf size stride pages c) (hb' : b' ∈ blocksOf size stride pages c')
    (hne : (b, c) ≠ (b', c')) : b + stride c ≤ b' ∨ b' + stride c' ≤ b := by
  obtain ⟨p, hp, hcut⟩ := mem_blocksOf.mp hb
  obtain ⟨p', hp', hcut'⟩ := mem_blocksOf.mp hb'
  by_cases he : p = p'
  · subst he
    obtain rfl := pages_class h hp hp'
    exact cut_apart hcut hcut' fun hbb => hne (by rw [hbb])
  · have hpages := page_apart (h.aligned _ hp) (h.aligned _ hp') he
    have hin := cut_inside hcut
    have hin' := cut_inside hcut'
    omega

theorem blocksOf_nodup (h : Pages size pages) (hs : ∀ c, 0 < stride c) (c : κ) :
    (blocksOf size stride pages c).Nodup := by
  induction pages with
  | nil => exact List.nodup_nil
  | cons p pages ih =>
    obtain ⟨halign, hdistinct⟩ := h
    rw [List.map_cons, List.nodup_cons] at hdistinct
    have hrest : Pages size pages :=
      ⟨fun q hq => halign q (List.mem_cons_of_mem p hq), hdistinct.2⟩
    rw [blocksOf_cons]
    by_cases hc : p.2 = c
    · rw [if_pos hc]
      refine List.nodup_append'.mpr ⟨cut_nodup (hs c) size p.1, ih hrest, ?_⟩
      intro b hb hb'
      obtain ⟨q, hq, hcut⟩ := mem_blocksOf.mp hb'
      have hne : p.1 ≠ q := fun he => hdistinct.1 (by
        rw [he]
        exact List.mem_map.mpr ⟨(q, c), hq, rfl⟩)
      have hpages := page_apart (halign p List.mem_cons_self)
        (halign (q, c) (List.mem_cons_of_mem p hq)) hne
      have hin := cut_inside hb
      have hin' := cut_inside hcut
      have hpos := hs c
      omega
    · rw [if_neg hc]
      exact ih hrest

end

/-- A block is found once, in the free list of its class or out. -/
def Once (free : κ → List Nat) (out : List (Nat × κ)) (b : Nat) (c : κ) : Prop :=
  (free c).count b + out.count (b, c) = 1

/-- Every block of a page is in the free list of its class or out, once in all. -/
def Accounted (size : Nat) (stride : κ → Nat) (pages : List (Nat × κ)) (free : κ → List Nat)
    (out : List (Nat × κ)) : Prop :=
  ∀ c b, (free c).count b + out.count (b, c) = (blocksOf size stride pages c).count b

section

variable {size : Nat} {stride : κ → Nat} {pages : List (Nat × κ)} {free : κ → List Nat}
  {out out' : List (Nat × κ)}

theorem accounted_perm {pages' : List (Nat × κ)} (h : Accounted size stride pages free out)
    (hp : pages'.Perm pages) (ho : out'.Perm out) : Accounted size stride pages' free out' := by
  intro c b
  rw [ho.count_eq, h c b]
  exact ((hp.flatMap_right _).count_eq b).symm

theorem accounted_push {b : Nat} {c : κ} (h : Accounted size stride pages free ((b, c) :: out)) :
    Accounted size stride pages (Function.update free c (b :: free c)) out := by
  intro d x
  have hd := h d x
  by_cases hc : d = c
  · subst hc
    rw [Function.update_self]
    simp only [List.count_cons, beq_iff_eq, Prod.mk.injEq, and_true] at hd ⊢
    omega
  · rw [Function.update_of_ne hc]
    simp only [List.count_cons, beq_iff_eq, Prod.mk.injEq, Ne.symm hc, and_false, if_false] at hd
    exact hd

theorem accounted_pop {b : Nat} {c : κ} {rest : List Nat}
    (h : Accounted size stride pages free out) (hf : free c = b :: rest) :
    Accounted size stride pages (Function.update free c rest) ((b, c) :: out) := by
  intro d x
  have hd := h d x
  by_cases hc : d = c
  · subst hc
    rw [Function.update_self]
    rw [hf] at hd
    simp only [List.count_cons, beq_iff_eq, Prod.mk.injEq, and_true] at hd ⊢
    omega
  · rw [Function.update_of_ne hc]
    simp only [List.count_cons, beq_iff_eq, Prod.mk.injEq, Ne.symm hc, and_false, if_false]
    exact hd

/-- The blocks of a page with their class. -/
def pageBlocks (size : Nat) (stride : κ → Nat) (p : Nat × κ) : List (Nat × κ) :=
  (cut size (stride p.2) p.1).map fun b => (b, p.2)

theorem count_pageBlocks (p : Nat × κ) (c : κ) (b : Nat) :
    (pageBlocks size stride p).count (b, c) =
      (if p.2 = c then cut size (stride c) p.1 else []).count b := by
  by_cases hc : p.2 = c
  · subst hc
    rw [if_pos rfl, pageBlocks]
    exact List.count_map_of_injective _ (fun b => (b, p.2))
      (fun x y he => congrArg Prod.fst he) b
  · rw [if_neg hc, List.count_nil, List.count_eq_zero]
    intro hm
    obtain ⟨x, _, he⟩ := List.mem_map.mp hm
    exact hc (congrArg Prod.snd he)

/-- A page comes in, and goes again, with all of its blocks out. -/
theorem accounted_page (p : Nat × κ) :
    Accounted size stride (p :: pages) free (pageBlocks size stride p ++ out) ↔
      Accounted size stride pages free out := by
  refine forall_congr' fun c => forall_congr' fun b => ?_
  rw [blocksOf_cons, List.count_append, List.count_append, count_pageBlocks]
  omega

theorem mem_of_free (h : Accounted size stride pages free out) {b : Nat} {c : κ}
    (hb : b ∈ free c) : b ∈ blocksOf size stride pages c := by
  have hcount := h c b
  have hpos := List.count_pos_iff.mpr hb
  exact List.count_pos_iff.mp (by omega)

theorem mem_of_out (h : Accounted size stride pages free out) {b : Nat} {c : κ}
    (hb : (b, c) ∈ out) : b ∈ blocksOf size stride pages c := by
  have hcount := h c b
  have hpos := List.count_pos_iff.mpr hb
  exact List.count_pos_iff.mp (by omega)

theorem blocksOf_length (c : κ) : (blocksOf size stride pages c).length =
    pages.countP (fun p => decide (p.2 = c)) * (size / stride c) := by
  induction pages with
  | nil => exact (Nat.zero_mul _).symm
  | cons p pages ih =>
    rw [blocksOf_cons, List.length_append, ih, List.countP_cons]
    by_cases hc : p.2 = c
    · simp only [hc, if_true, decide_true, cut, List.length_map, List.length_range, Nat.succ_mul]
      omega
    · simp [hc]

theorem count_out (b : Nat) (c : κ) :
    ((out.filter fun u => decide (u.2 = c)).map Prod.fst).count b = out.count (b, c) := by
  induction out with
  | nil => rfl
  | cons u out ih =>
    obtain ⟨x, d⟩ := u
    by_cases hd : d = c
    · subst hd
      simp only [List.filter_cons, decide_true, if_true, List.map_cons, List.count_cons, ih,
        beq_iff_eq, Prod.mk.injEq, and_true]
    · simp only [List.filter_cons, hd, decide_false, Bool.false_eq_true, if_false, ih,
        List.count_cons, beq_iff_eq, Prod.mk.injEq, and_false, Nat.add_zero]

/-- The blocks of a class that are free and those that are out make up its pages. -/
theorem accounted_length (h : Accounted size stride pages free out) (c : κ) :
    (free c).length + out.countP (fun u => decide (u.2 = c)) =
      pages.countP (fun p => decide (p.2 = c)) * (size / stride c) := by
  have hperm : (free c ++ (out.filter fun u => decide (u.2 = c)).map Prod.fst).Perm
      (blocksOf size stride pages c) := by
    rw [List.perm_iff_count]
    intro b
    rw [List.count_append, count_out]
    exact h c b
  rw [← blocksOf_length, ← hperm.length_eq, List.length_append, List.length_map,
    List.countP_eq_length_filter]

theorem out_of_once {b : Nat} {c : κ} (h : Once free out b c) (hb : b ∉ free c) : (b, c) ∈ out := by
  rw [Once, List.count_eq_zero.mpr hb] at h
  exact List.count_pos_iff.mp (by omega)

variable (hp : Pages size pages) (hs : ∀ c, 0 < stride c)
include hp hs

/-- A block that is out is in no free list. -/
theorem free_ne_out (h : Accounted size stride pages free out) {b b' : Nat} {c c' : κ}
    (hb : b ∈ free c) (hb' : (b', c') ∈ out) : (b, c) ≠ (b', c') := by
  intro he
  obtain ⟨rfl, rfl⟩ := Prod.mk.inj he
  have hcount := h c b
  have hone := List.nodup_iff_count_le_one.mp (blocksOf_nodup hp hs c) b
  have hpos := List.count_pos_iff.mpr hb
  have hpos' := List.count_pos_iff.mpr hb'
  omega

theorem out_nodup (h : Accounted size stride pages free out) : out.Nodup := by
  refine List.nodup_iff_count_le_one.mpr ?_
  rintro ⟨b, c⟩
  have hcount := h c b
  have hone := List.nodup_iff_count_le_one.mp (blocksOf_nodup hp hs c) b
  omega

theorem once_of_block (h : Accounted size stride pages free out) {b : Nat} {c : κ}
    (hb : b ∈ blocksOf size stride pages c) : Once free out b c := by
  rw [Once, h c b]
  exact List.count_eq_one_of_mem (blocksOf_nodup hp hs c) hb

end

end BlockPool
