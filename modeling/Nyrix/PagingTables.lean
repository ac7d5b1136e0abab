import Nyrix.MapLog
import Nyrix.PagingSpace

/-!
# Where the walk of paging_init_full writes

The directory, and the tables from 0x201000 on: one for each slot in which some page is
mapped. A new table is filled as a whole, so all of this area is written and nothing else.
-/

namespace Paging

open ByteMemory BoundedLoop PackedBits PageTable Multiboot AccessLog

/-- The writes that raise the number of tables from `n` to `n'`. -/
structure Span (n n' : Nat) (log : List Access) : Prop where
  le : n ≤ n'
  inside : ∀ base len, Sep dirAddr (0x1000 * (n' + 1)) base len → Apart base len log
  covered : ∀ base len, Apart base len log → Sep (tableAddr n) (0x1000 * (n' - n)) base len

theorem span_nil (n : Nat) : Span n n [] := by
  refine ⟨Nat.le_refl n, fun _ _ _ => apart_nil, fun base len _ i hi => ?_⟩
  omega

theorem span_trans {n n' n'' : Nat} {log log' : List Access} (h : Span n n' log)
    (h' : Span n' n'' log') : Span n n'' (log ++ log') := by
  have hle := h.le
  have hle' := h'.le
  constructor
  · omega
  · intro base len hs
    exact apart_append.mpr ⟨h.inside base len (sep_left hs 0 _ (by omega)), h'.inside base len hs⟩
  · intro base len ha
    obtain ⟨ha, ha'⟩ := apart_append.mp ha
    have hlow := h.covered base len ha
    have hhigh := h'.covered base len ha'
    have hnext : tableAddr n' = tableAddr n + 0x1000 * (n' - n) := by
      simp only [tableAddr]
      omega
    have hsum : 0x1000 * (n'' - n) = 0x1000 * (n' - n) + 0x1000 * (n'' - n') := by omega
    rw [hnext] at hhigh
    rw [hsum]
    exact sep_join hlow hhigh

/-- Writing a word of the area that is there adds no table. -/
theorem span_word {n a : Nat} (hlo : dirAddr ≤ a) (hhi : a + 4 ≤ dirAddr + 0x1000 * (n + 1)) :
    Span n n [.write a 4] := by
  have ha : a = dirAddr + (a - dirAddr) := by omega
  refine ⟨Nat.le_refl n, ?_, fun base len _ i hi => by omega⟩
  intro base len hs
  rw [apart_write, ha]
  exact ⟨sep_left hs (a - dirAddr) 4 (by omega), apart_nil⟩

theorem span_table (n : Nat) : Span n (n + 1) (fillLog (tableAddr n) 1024) := by
  refine ⟨Nat.le_succ n, ?_, ?_⟩
  · intro base len hs
    have ht : tableAddr n = dirAddr + 0x1000 * (n + 1) := by
      simp only [tableAddr, dirAddr]
      omega
    rw [apart_fillLog, ht]
    exact sep_left hs _ _ (by omega)
  · intro base len ha
    have hone : 0x1000 * (n + 1 - n) = 4 * 1024 := by omega
    rw [hone]
    exact apart_fillLog.mp ha

section Steps

variable {s : State} {slots : List Nat} {mapped : Set Nat}

theorem ensureTable_span {d : Nat} (h : Rep s slots mapped) (hd : d < 1024) :
    Rep (ensureTable d s) (withSlot d slots) mapped ∧
      Span slots.length (withSlot d slots).length (ensureTableLog d s) := by
  obtain ⟨hmem, hp, he⟩ | ⟨hmem, hp, hnew⟩ := ensureTable_cases h hd
  · have hlog : ensureTableLog d s = [] := if_pos hp
    rw [he, hlog, withSlot, if_pos hmem]
    exact ⟨h, span_nil _⟩
  · have hlog : ensureTableLog d s =
        fillLog (tableAddr slots.length) 1024 ++ [.write (dirAddr + 4 * d) 4] := by
      rw [ensureTableLog, if_neg hp, h.nextPt, h.directory]
    rw [withSlot, if_neg hmem]
    refine ⟨newTable_rep h hd hmem hnew, ?_⟩
    rw [hlog, List.length_append, List.length_singleton]
    exact span_trans (span_table _) (span_word (by omega) (by omega))

theorem setEntry_span {phys j : Nat} (h : Rep s slots mapped)
    (hj : slots[j]? = some (pdIdx phys)) :
    Span slots.length slots.length (setEntryLog phys s) := by
  have ht := ptIdx_lt phys
  have hlt := index_lt hj
  rw [setEntryLog, h.directory, h.frameOf_slot hj]
  refine span_word ?_ ?_
  · simp only [tableAddr, dirAddr]
    omega
  · simp only [tableAddr, dirAddr]
    omega

end Steps

/-- From any address space in `s`, `t` holds what `f` makes of it, and the log is what that
takes. -/
def Refines (f : Space → Space) (s t : State) (log : List Access) : Prop :=
  ∀ a : Space, Rep s a.slots a.mapped →
    Rep t (f a).slots (f a).mapped ∧ Span a.slots.length (f a).slots.length log

theorem refines_refl (s : State) : Refines id s s [] := fun _ h => ⟨h, span_nil _⟩

theorem refines_trans {f g : Space → Space} {s t u : State} {log log' : List Access}
    (h : Refines f s t log) (h' : Refines g t u log') : Refines (g ∘ f) s u (log ++ log') := by
  intro a hr
  obtain ⟨hr₁, hs₁⟩ := h a hr
  obtain ⟨hr₂, hs₂⟩ := h' (f a) hr₁
  exact ⟨hr₂, span_trans hs₁ hs₂⟩

/-- Reads of the map do not count. -/
theorem refines_read {f : Space → Space} {s t : State} {log : List Access} (a n : Nat) (m : Mem)
    (h : Refines f s t log) : Refines f s t (.read a n m :: log) := by
  intro b hr
  obtain ⟨hr', hs⟩ := h b hr
  refine ⟨hr', hs.le, ?_, ?_⟩
  · intro base len hsep
    exact apart_read.mpr (hs.inside base len hsep)
  · intro base len ha
    exact hs.covered base len (apart_read.mp ha)

theorem mapPage_refines (s : State) {phys : Nat} (ha : phys % 4096 = 0) :
    Refines (Space.addPage (pageOf phys)) s (mapPage phys s) (mapPageLog phys s) := by
  intro a h
  have hslot : pageOf phys / 1024 = pdIdx phys := by
    have ht := ptIdx_lt phys
    rw [pageOf_split]
    omega
  obtain ⟨hr, hspan⟩ := ensureTable_span h (pdIdx_lt phys)
  obtain ⟨j, hj⟩ := List.mem_iff_getElem?.mp (mem_withSlot.mpr (.inr rfl) :
    pdIdx phys ∈ withSlot (pdIdx phys) a.slots)
  have hframe := hr.frameOf_slot hj
  rw [← hr.directory] at hframe
  have hjlt : j < 1024 := Nat.lt_of_lt_of_le (index_lt hj) hr.length_le
  have hnew := setEntry_new hjlt ha hframe
  rw [Space.addPage, hslot]
  exact ⟨newEntry_rep hr hj hnew, span_trans hspan (setEntry_span hr hj)⟩

theorem mapPages_refines (s : State) {base : Nat} (hb : base % 4096 = 0) (n : Nat) :
    Refines (Space.addPages base n) s (forUp (fun k => mapPage (base + 0x1000 * k)) 0 n s)
      (forUpLog (fun k => mapPage (base + 0x1000 * k)) (fun k => mapPageLog (base + 0x1000 * k))
        0 n s) := by
  induction n with
  | zero => exact refines_refl s
  | succ n ih =>
    have hphys : (base + 0x1000 * n) % 4096 = 0 := by omega
    have hsucc : Space.addPages base (n + 1) =
        Space.addPage (pageOf (base + 0x1000 * n)) ∘ Space.addPages base n :=
      funext (Space.addPages_succ base n)
    rw [forUp_succ_last, forUpLog_succ_last, Nat.zero_add, hsucc]
    exact refines_trans ih (mapPage_refines _ hphys)

/-- What `paging_init_full` does for an entry. -/
theorem mapEntry_refines (e : MmapEntry) (s : State) :
    Refines (Space.addEntry e) s (mapEntry e s) (mapEntryLog e s) := by
  cases h : entryRange e with
  | none =>
    have hsame : Space.addEntry e = id := funext fun a => by simp only [Space.addEntry, h, id]
    simp only [mapEntry, mapEntryLog, h, hsame]
    exact refines_refl s
  | some r =>
    obtain ⟨base, stop⟩ := r
    have hrange : Space.addEntry e =
        Space.addPages base.toNat ((stop.toNat - base.toNat + 0xFFF) / 0x1000) :=
      funext fun a => by simp only [Space.addEntry, h]
    simp only [mapEntry, mapEntryLog, h, hrange]
    exact mapPages_refines s (entryRange_aligned h) _

theorem mapEntryLog_writesOnly (e : MmapEntry) (s : State) : WritesOnly (mapEntryLog e s) := by
  have hword : ∀ a : Nat, WritesOnly [.write a 4] := by
    intro a e he
    exact ⟨a, 4, List.mem_singleton.mp he⟩
  have htable : ∀ d s, WritesOnly (ensureTableLog d s) := by
    intro d s
    by_cases h : Present (pde s.mem s.pageDirectory d)
    · rw [ensureTableLog, if_pos h]
      intro e he
      cases he
    · rw [ensureTableLog, if_neg h]
      exact writesOnly_append (writesOnly_fillLog _ _) (hword _)
  cases h : entryRange e with
  | none =>
    simp only [mapEntryLog, h]
    intro e he
    cases he
  | some r =>
    simp only [mapEntryLog, h]
    exact writesOnly_forUpLog (fun _ s => writesOnly_append (htable _ s) (hword _)) _ _ s

end Paging
