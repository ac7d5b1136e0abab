import Nyrix.Base.ByteMemory

/-!
# Free lists threaded through memory

A list of blocks whose first words are the links: each holds the address of the next block,
the last one 0.
-/

namespace FreeList

open ByteMemory

/-- From address `a` on the links lead through `blocks`, and then to 0. -/
def Linked (m : Mem) (a : Nat) : List Nat → Prop
  | [] => a = 0
  | b :: blocks => a = b ∧ b ≠ 0 ∧ b < 4294967296 ∧ Linked m (load32 m b).toNat blocks

/-- The list depends on the link words only. -/
theorem linked_congr {m m' : Mem} {a : Nat} {blocks : List Nat} (h : Linked m a blocks)
    (hm : ∀ b ∈ blocks, load32 m' b = load32 m b) : Linked m' a blocks := by
  induction blocks generalizing a with
  | nil => exact h
  | cons b blocks ih =>
    obtain ⟨hab, hne, hlt, hrest⟩ := h
    refine ⟨hab, hne, hlt, ?_⟩
    rw [hm b List.mem_cons_self]
    exact ih hrest fun x hx => hm x (List.mem_cons_of_mem b hx)

/-- One memory holds one list from an address. -/
theorem linked_unique {m : Mem} {a : Nat} {xs ys : List Nat} (hx : Linked m a xs)
    (hy : Linked m a ys) : xs = ys := by
  induction xs generalizing a ys with
  | nil =>
    cases ys with
    | nil => rfl
    | cons y ys => exact absurd (hy.1.symm.trans hx) hy.2.1
  | cons x xs ih =>
    cases ys with
    | nil => exact absurd (hx.1.symm.trans hy) hx.2.1
    | cons y ys =>
      obtain rfl := hx.1
      obtain rfl := hy.1
      rw [ih hx.2.2.2 hy.2.2.2]

/-- A list that does not start at 0 has a first block. -/
theorem linked_cons {m : Mem} {a : Nat} {blocks : List Nat} (h : Linked m a blocks) (ha : a ≠ 0) :
    ∃ rest, blocks = a :: rest ∧ Linked m (load32 m a).toNat rest := by
  cases blocks with
  | nil => exact absurd h ha
  | cons b blocks =>
    obtain ⟨rfl, _, _, hrest⟩ := h
    exact ⟨blocks, rfl, hrest⟩

theorem linked_head_lt {m : Mem} {a : Nat} {blocks : List Nat} (h : Linked m a blocks) :
    a < 4294967296 := by
  cases blocks with
  | nil =>
    rw [show a = 0 from h]
    decide
  | cons b blocks =>
    rw [h.1]
    exact h.2.2.1

/-- A block is put in front by storing the old head in it. -/
theorem linked_push {m : Mem} {a b : Nat} {blocks : List Nat} (h : Linked m a blocks)
    (hne : b ≠ 0) (hlt : b < 4294967296) (hsep : ∀ x ∈ blocks, Sep b 4 x 4) :
    Linked (store32 m b (BitVec.ofNat 32 a)) b (b :: blocks) := by
  refine ⟨rfl, hne, hlt, ?_⟩
  rw [load32_store32_same, BitVec.toNat_ofNat, Nat.mod_eq_of_lt (linked_head_lt h)]
  exact linked_congr h fun x hx => load32_store32_of_sep _ _ _ _ (hsep x hx)

/-- Behind each of its blocks a list goes on from that block's link. -/
theorem linked_suffix {m : Mem} {a b : Nat} {xs ys : List Nat} (h : Linked m a (xs ++ b :: ys)) :
    Linked m (load32 m b).toNat ys := by
  induction xs generalizing a with
  | nil => exact h.2.2.2
  | cons x xs ih => exact ih h.2.2.2

/-- A list that ends does not come back to a block: from there on it would be its own rest. -/
theorem linked_nodup {m : Mem} {a : Nat} {blocks : List Nat} (h : Linked m a blocks) :
    blocks.Nodup := by
  induction blocks generalizing a with
  | nil => exact List.nodup_nil
  | cons b blocks ih =>
    obtain ⟨_, _, _, hrest⟩ := h
    refine List.nodup_cons.mpr ⟨?_, ih hrest⟩
    intro hmem
    obtain ⟨xs, ys, hsplit⟩ := List.append_of_mem hmem
    have hrest' := hrest
    rw [hsplit] at hrest'
    have hsame := congrArg List.length (linked_unique hrest (linked_suffix hrest'))
    rw [hsplit, List.length_append, List.length_cons] at hsame
    omega

end FreeList
