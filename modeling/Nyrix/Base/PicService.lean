import Nyrix.Base.Pic8259

/-!
# Running code that serves interrupts

Devices raise requests at any time. When nothing is left to write to the controllers, the
processor may take an interrupt; its handler then has to write what ends it, and until it has, no
further one is taken. The context an interrupt is taken in is open.
-/

namespace Pic8259

open PartialRuns

variable {κ : Type}

structure System where
  pair : Pair
  /-- What the running code has still to write; before that it takes no interrupt. -/
  todo : List (Nat × BitVec 8)
  /-- The requests latched. -/
  raised : List Nat
  /-- The vectors taken. -/
  taken : List Nat

inductive Event (κ : Type) where
  | request (line : Nat)
  | take (context : κ)
  | write

/-- A device, the processor or the handler goes on; `handler` gives what the handler of a vector
writes to the controllers in the context it is called in. A request on a line that waits already
is not a new one. -/
def step (handler : κ → Nat → List (Nat × BitVec 8)) : Event κ → System → Option System
  | .request line, s =>
    if line ∈ order then
      some { s with
        pair := s.pair.request line
        raised := if s.pair.waiting line then s.raised else s.raised ++ [line] }
    else none
  | .take context, s =>
    if s.todo = [] then
      s.pair.acknowledge.map fun a =>
        { s with pair := a.2, todo := handler context a.1, taken := s.taken ++ [a.1] }
    else none
  | .write, s =>
    match s.todo with
    | [] => none
    | w :: ws => (s.pair.outb w.1 w.2).map fun p => { s with pair := p, todo := ws }

/-- Nothing to write, and what waits counts as raised. -/
def System.start (p : Pair) : System := ⟨p, [], order.filter p.waiting, []⟩

def endMaster : Nat × BitVec 8 := (0x20, 0x20)
def endSlave : Nat × BitVec 8 := (0xA0, 0x20)

/-- Each handler ends its interrupt, at the slave first where there is one. -/
structure EndsInterrupts (handler : κ → Nat → List (Nat × BitVec 8)) (b c : Nat) : Prop where
  master : ∀ context, ∀ l < 8, handler context (b + l) = [endMaster]
  slave : ∀ context, ∀ k < 8, handler context (c + k) = [endSlave, endMaster]

/-- The lines in service are those the running code has still to end. -/
inductive Serving (s : System) : Prop where
  | idle (todo : s.todo = []) (idle : Idle s.pair)
  | master (l : Nat) (lt : l < 8) (todo : s.todo = [endMaster])
      (isr : s.pair.master.isr = setLine l 0) (slave : s.pair.slave.isr = 0)
  | slave (k : Nat) (lt : k < 8) (todo : s.todo = [endSlave, endMaster])
      (isr : s.pair.master.isr = setLine 2 0) (slave : s.pair.slave.isr = setLine k 0)

/-- Each request is taken once or waits, and nothing else is taken. -/
structure Invariant (b c : Nat) (s : System) : Prop where
  setup : Setup b c s.pair
  serving : Serving s
  count : ∀ line ∈ order, s.raised.count line =
    s.taken.count (vectorOf b c line) + (s.pair.waiting line).toNat
  taken : ∀ v ∈ s.taken, ∃ line ∈ order, v = vectorOf b c line

section Run

variable {handler : κ → Nat → List (Nat × BitVec 8)} {context : κ} {b c line other : Nat}
  {s t : System} {p : Pair}

/-- The vectors of the two controllers do not overlap. -/
def Apart (b c : Nat) : Prop := b + 8 ≤ c ∨ c + 8 ≤ b

theorem vectorOf_inj (h : Apart b c) (hline : line ∈ order) (hother : other ∈ order)
    (heq : vectorOf b c line = vectorOf b c other) : line = other := by
  obtain ⟨hlt, -⟩ := mem_order.mp hline
  obtain ⟨hlt', -⟩ := mem_order.mp hother
  rw [vectorOf, vectorOf] at heq
  split_ifs at heq <;> (simp only [Apart] at h; omega)

/-- What a step does. -/
inductive Stepped (handler : κ → Nat → List (Nat × BitVec 8)) (s : System) :
    Event κ → System → Prop where
  | request {line : Nat} (mem : line ∈ order) : Stepped handler s (.request line) { s with
      pair := s.pair.request line
      raised := if s.pair.waiting line then s.raised else s.raised ++ [line] }
  | take {context : κ} {v : Nat} {q : Pair} (todo : s.todo = [])
      (acknowledge : s.pair.acknowledge = some (v, q)) : Stepped handler s (.take context)
        { s with pair := q, todo := handler context v, taken := s.taken ++ [v] }
  | write {w : Nat × BitVec 8} {ws : List (Nat × BitVec 8)} {q : Pair} (todo : s.todo = w :: ws)
      (outb : s.pair.outb w.1 w.2 = some q) :
      Stepped handler s .write { s with pair := q, todo := ws }

theorem stepped {e : Event κ} (h : step handler e s = some t) : Stepped handler s e t := by
  cases e with
  | request line =>
    rw [step, Option.ite_none_right_eq_some] at h
    exact Option.some.inj h.2 ▸ .request h.1
  | take context =>
    rw [step, Option.ite_none_right_eq_some, Option.map_eq_some_iff] at h
    obtain ⟨htodo, a, hack, rfl⟩ := h
    exact .take htodo hack
  | write =>
    rw [step] at h
    split at h
    · cases h
    next w ws htodo =>
      obtain ⟨q, hout, rfl⟩ := Option.map_eq_some_iff.mp h
      exact .write htodo hout

/-- Part of the writes `ws` has been made, with requests in between. -/
structure SettingUp (ws : List (Nat × BitVec 8)) (p₀ : Pair) (s : System) : Prop where
  split : ∃ done q, ws = done ++ s.todo ∧ outAll done p₀ = some q ∧ s.pair.settings = q.settings
  noDevice : s.todo ≠ ws → s.pair.master.irr.getLsbD 2 = false

section SettingUp

variable {w : Nat × BitVec 8} {ws : List (Nat × BitVec 8)} {p₀ : Pair}

theorem Stepped.taken {e : Event κ} (h : Stepped handler s e t) (ht : t.taken = []) :
    s.taken = [] := by
  cases h with
  | request => exact ht
  | take => simp at ht
  | write => exact ht

theorem settingUp_step (hfirst : ∀ p q : Pair, p.outb w.1 w.2 = some q → q.master.irr = 0)
    {e : Event κ} (hs : s.taken = [] → SettingUp (w :: ws) p₀ s)
    (h : step handler e s = some t) (htaken : t.taken = []) : SettingUp (w :: ws) p₀ t := by
  have hstep := stepped h
  obtain ⟨⟨done, q, hsplit, hq, hsame⟩, hdevice⟩ := hs (hstep.taken htaken)
  cases hstep with
  | @request line hline =>
    refine ⟨⟨done, q, hsplit, hq, (request_settings line _).trans hsame⟩, fun htodo => ?_⟩
    have hne := (mem_order.mp hline).2
    dsimp only
    rw [Pair.request]
    split_ifs
    · rw [Chip.request, getLsbD_setLine (by decide), hdevice htodo, decide_eq_false hne.symm]
      rfl
    · exact hdevice htodo
  | take => simp at htaken
  | @write v vs p htodo hout =>
    obtain ⟨q', hq', hsame'⟩ := outb_same hsame hout
    rw [htodo] at hsplit hdevice
    refine ⟨⟨done ++ [v], q', by rw [hsplit, List.append_assoc]; rfl, ?_, hsame'⟩, fun _ => ?_⟩
    · rw [outAll, runAll_append, ← outAll, hq, Option.bind_some, runAll, hq', Option.bind_some,
        runAll]
    · by_cases hall : v :: vs = w :: ws
      · obtain ⟨rfl, -⟩ := List.cons.inj hall
        rw [hfirst _ _ hout]
        rfl
      · obtain hirr | hirr := outb_irr hout
        · rw [hirr, hdevice hall]
        · rw [hirr]
          rfl

/-- When the writes are through, the controllers are set as the writes alone would set them. -/
theorem settingUp_run (w : Nat × BitVec 8) (ws : List (Nat × BitVec 8))
    (hfirst : ∀ p q : Pair, p.outb w.1 w.2 = some q → q.master.irr = 0)
    {es : List (Event κ)} (h : runAll (step handler) es ⟨p₀, w :: ws, [], []⟩ = some t)
    (htaken : t.taken = []) (htodo : t.todo = []) :
    t.pair.master.irr.getLsbD 2 = false ∧
      ∃ q, outAll (w :: ws) p₀ = some q ∧ t.pair.settings = q.settings := by
  have hstart : SettingUp (w :: ws) p₀ ⟨p₀, w :: ws, [], []⟩ :=
    ⟨⟨[], p₀, rfl, rfl, rfl⟩, fun hne => absurd rfl hne⟩
  obtain ⟨⟨done, q, hsplit, hq, hsame⟩, hdevice⟩ := runAll_invariant
    (I := fun s => s.taken = [] → SettingUp (w :: ws) p₀ s)
    (fun _ _ _ hs ht => settingUp_step hfirst hs ht) (fun _ => hstart) h htaken
  rw [htodo, List.append_nil] at hsplit
  exact ⟨hdevice (by simp [htodo]), q, hsplit ▸ hq, hsame⟩

end SettingUp

theorem invariant_start (hset : Setup b c p) (hidle : Idle p) :
    Invariant b c (System.start p) := by
  refine ⟨hset, .idle rfl hidle, fun line hline => ?_, fun v hv => absurd hv List.not_mem_nil⟩
  cases hwait : p.waiting line with
  | true =>
    have hmem : line ∈ order.filter p.waiting := List.mem_filter.mpr ⟨hline, hwait⟩
    have hone := List.count_eq_one_of_mem (order_nodup.filter p.waiting) hmem
    simp [System.start, hwait, hone]
  | false =>
    have hnone : line ∉ order.filter p.waiting := by simp [hwait]
    simp [System.start, hwait, List.count_eq_zero.mpr hnone]

theorem Idle.accept (h : Idle p) (line : Nat) :
    (line < 8 ∧ (p.accept line).master.isr = setLine line 0 ∧ (p.accept line).slave.isr = 0) ∨
    (8 ≤ line ∧ (p.accept line).master.isr = setLine 2 0 ∧
      (p.accept line).slave.isr = setLine (line - 8) 0) := by
  have hmaster (l : Nat) : (p.master.accept l).isr = setLine l 0 := by rw [Chip.accept, h.master]
  have hslave (l : Nat) : (p.slave.accept l).isr = setLine l 0 := by rw [Chip.accept, h.slave]
  rw [Pair.accept]
  split_ifs with hlt
  · exact .inl ⟨hlt, hmaster line, h.slave⟩
  · exact .inr ⟨by omega, hmaster 2, hslave (line - 8)⟩

theorem Serving.idle_of_done (h : Serving s) (htodo : s.todo = []) : Idle s.pair := by
  cases h with
  | idle _ idle => exact idle
  | master _ _ todo => exact absurd (htodo.symm.trans todo) (by simp)
  | slave _ _ todo => exact absurd (htodo.symm.trans todo) (by simp)

theorem EndsInterrupts.writes (h : EndsInterrupts handler b c) (context : κ)
    (hline : line ∈ order) :
    handler context (vectorOf b c line) =
      if line < 8 then [endMaster] else [endSlave, endMaster] := by
  obtain ⟨hlt, -⟩ := mem_order.mp hline
  rw [vectorOf]
  split_ifs with hlow
  · exact h.master context line hlow
  · exact h.slave context (line - 8) (by omega)

theorem invariant_request (h : Invariant b c s) (hline : line ∈ order) : Invariant b c { s with
    pair := s.pair.request line
    raised := if s.pair.waiting line then s.raised else s.raised ++ [line] } := by
  have hne := (mem_order.mp hline).2
  refine ⟨h.setup.request hne, ?_, fun other hother => ?_, h.taken⟩
  · have hisr : (s.pair.request line).master.isr = s.pair.master.isr ∧
        (s.pair.request line).slave.isr = s.pair.slave.isr := by
      rw [Pair.request]
      split_ifs <;> exact ⟨rfl, rfl⟩
    cases h.serving with
    | idle todo idle => exact .idle todo ⟨hisr.1.trans idle.master, hisr.2.trans idle.slave⟩
    | master l lt todo isr slave => exact .master l lt todo (hisr.1.trans isr) (hisr.2.trans slave)
    | slave k lt todo isr slave => exact .slave k lt todo (hisr.1.trans isr) (hisr.2.trans slave)
  · have hcount := h.count other hother
    dsimp only
    rw [waiting_request hline hother]
    cases hwait : s.pair.waiting line with
    | true =>
      by_cases heq : other = line
      · subst heq
        rw [hwait] at hcount ⊢
        exact hcount
      · rw [decide_eq_false heq, Bool.or_false]
        exact hcount
    | false =>
      rw [if_neg Bool.false_ne_true, List.count_append, hcount]
      by_cases heq : other = line
      · subst heq
        simp [hwait]
      · simp [heq, Ne.symm heq]

theorem invariant_take {v : Nat} {q : Pair} (hend : EndsInterrupts handler b c)
    (hapart : Apart b c) (h : Invariant b c s) (htodo : s.todo = [])
    (hack : s.pair.acknowledge = some (v, q)) : Invariant b c
      { s with pair := q, todo := handler context v, taken := s.taken ++ [v] } := by
  have hidle := h.serving.idle_of_done htodo
  rw [acknowledge_eq h.setup hidle, Option.map_eq_some_iff] at hack
  obtain ⟨line, hfind, heq⟩ := hack
  obtain ⟨rfl, rfl⟩ := Prod.mk.inj heq
  have hline := List.mem_of_find?_eq_some hfind
  have hwait : s.pair.waiting line = true := by simpa using List.find?_some hfind
  obtain ⟨hlt, -⟩ := mem_order.mp hline
  refine ⟨h.setup.accept line, ?_, fun other hother => ?_, fun v hv => ?_⟩
  · have hwrites := hend.writes context hline
    obtain ⟨hlow, hisr, hslave⟩ | ⟨hhigh, hisr, hslave⟩ := hidle.accept line
    · exact .master line hlow (hwrites.trans (if_pos hlow)) hisr hslave
    · exact .slave (line - 8) (by omega) (hwrites.trans (if_neg (by omega))) hisr hslave
  · have hcount := h.count other hother
    dsimp only
    rw [waiting_accept hline hother, List.count_append, hcount]
    by_cases heq : other = line
    · subst heq
      simp [hwait]
    · have hne : vectorOf b c line ≠ vectorOf b c other := by
        intro hvec
        exact heq (vectorOf_inj hapart hline hother hvec).symm
      simp [heq, hne]
  · rw [List.mem_append, List.mem_singleton] at hv
    obtain hv | rfl := hv
    · exact h.taken v hv
    · exact ⟨line, hline, rfl⟩

theorem step_write {w : Nat × BitVec 8} {ws : List (Nat × BitVec 8)} {q : Pair}
    (htodo : s.todo = w :: ws) (hout : s.pair.outb w.1 w.2 = some q) :
    step handler .write s = some { s with pair := q, todo := ws } := by
  simp only [step, htodo, hout, Option.map_some]

/-- A write of the handler ends an interrupt and leaves the requests alone. -/
structure Ended (s t : System) : Prop where
  todo : t.todo = s.todo.tail
  raised : t.raised = s.raised
  taken : t.taken = s.taken
  waiting : t.pair.waiting = s.pair.waiting

theorem invariant_write (handler : κ → Nat → List (Nat × BitVec 8)) (h : Invariant b c s)
    (htodo : s.todo ≠ []) :
    ∃ t, step handler .write s = some t ∧ Ended s t ∧ Invariant b c t := by
  cases h.serving with
  | idle todo => exact absurd todo htodo
  | master l lt todo isr slave =>
    have hout : s.pair.outb 0x20 0x20 =
        some { s.pair with master := { s.pair.master with isr := 0 } } := by
      rw [Pair.outb, if_pos rfl, command_end lt isr]
      rfl
    refine ⟨_, step_write todo hout, ⟨by rw [todo, List.tail_cons], rfl, rfl, rfl⟩, ?_⟩
    exact ⟨{ h.setup with }, .idle rfl ⟨rfl, slave⟩, h.count, h.taken⟩
  | slave k lt todo isr slave =>
    have hout : s.pair.outb 0xA0 0x20 =
        some { s.pair with slave := { s.pair.slave with isr := 0 } } := by
      rw [Pair.outb, if_neg (by decide), if_neg (by decide), if_pos rfl, command_end lt slave]
      rfl
    refine ⟨_, step_write todo hout, ⟨by rw [todo, List.tail_cons], rfl, rfl, rfl⟩, ?_⟩
    exact ⟨{ h.setup with }, .master 2 (by decide) rfl isr rfl, h.count, h.taken⟩

theorem invariant_step (hend : EndsInterrupts handler b c) (hapart : Apart b c) (e : Event κ)
    (h : Invariant b c s) (ht : step handler e s = some t) : Invariant b c t := by
  cases stepped ht with
  | request hline => exact invariant_request h hline
  | take htodo hack => exact invariant_take hend hapart h htodo hack
  | write htodo =>
    obtain ⟨u, hu, -, hinv⟩ := invariant_write handler h (by simp [htodo])
    exact Option.some.inj (hu.symm.trans ht) ▸ hinv

/-- Along every interleaving each request is taken once or waits, and nothing else is taken. -/
theorem invariant_run (hend : EndsInterrupts handler b c) (hapart : Apart b c) {es : List (Event κ)}
    (h : Invariant b c s) (ht : runAll (step handler) es s = some t) : Invariant b c t :=
  runAll_invariant (fun e _ _ => invariant_step hend hapart e) h ht

def Event.isRequest : Event κ → Bool
  | .request _ => true
  | _ => false

/-- Without new requests the vectors taken and those to come stay the same, and there is less and
less to do. -/
structure Drains (b c : Nat) (s t : System) (steps : Nat) : Prop where
  vectors : t.taken ++ (pending t.pair).map (vectorOf b c) =
    s.taken ++ (pending s.pair).map (vectorOf b c)
  work : steps + t.todo.length + 3 * (pending t.pair).length ≤
    s.todo.length + 3 * (pending s.pair).length

theorem Drains.trans {u : System} {m n : Nat} (h : Drains b c s t m) (h' : Drains b c t u n) :
    Drains b c s u (m + n) := by
  have hwork := h.work
  have hwork' := h'.work
  exact ⟨h'.vectors.trans h.vectors, by omega⟩

theorem drains_step (hend : EndsInterrupts handler b c) {e : Event κ}
    (he : e.isRequest = false) (h : Invariant b c s) (ht : step handler e s = some t) :
    Drains b c s t 1 := by
  cases stepped ht with
  | request => cases he
  | @take context v q htodo hack =>
    have hidle := h.serving.idle_of_done htodo
    rw [acknowledge_eq h.setup hidle, find_pending, Option.map_eq_some_iff] at hack
    obtain ⟨line, hfind, heq⟩ := hack
    obtain ⟨rfl, rfl⟩ := Prod.mk.inj heq
    obtain ⟨rest, hpending⟩ := List.head?_eq_some_iff.mp hfind
    have hline : line ∈ order := (mem_pending.mp (hpending ▸ List.mem_cons_self)).1
    have hshort : (handler context (vectorOf b c line)).length ≤ 2 := by
      rw [hend.writes context hline]
      split_ifs <;> simp
    constructor
    · simp [hpending, pending_accept hpending]
    · simp only [pending_accept hpending, hpending, htodo, List.length_cons, List.length_nil]
      omega
  | write htodo =>
    obtain ⟨u, hu, hended, -⟩ := invariant_write handler h (by simp [htodo])
    rw [← Option.some.inj (hu.symm.trans ht)]
    have hpending : pending u.pair = pending s.pair := by rw [pending, hended.waiting, pending]
    have hlen : u.todo.length = s.todo.length - 1 := by rw [hended.todo, List.length_tail]
    have hpos : 0 < s.todo.length := by simp [htodo]
    exact ⟨by rw [hended.taken, hpending], by rw [hpending, hlen]; omega⟩

theorem drains_run (hend : EndsInterrupts handler b c) (hapart : Apart b c) {es : List (Event κ)}
    (hes : ∀ e ∈ es, e.isRequest = false) (h : Invariant b c s)
    (ht : runAll (step handler) es s = some t) : Drains b c s t es.length := by
  induction es generalizing s with
  | nil =>
    obtain rfl := Option.some.inj ht
    exact ⟨rfl, by simp⟩
  | cons e es ih =>
    rw [runAll, Option.bind_eq_some_iff] at ht
    obtain ⟨u, hu, hrest⟩ := ht
    rw [List.forall_mem_cons] at hes
    have hfirst := drains_step hend hes.1 h hu
    rw [List.length_cons, Nat.add_comm]
    exact hfirst.trans (ih hes.2 (invariant_step hend hapart e h hu) hrest)

/-- Something can be taken or written as long as a line waits or a handler has not ended. -/
theorem goes_on (context : κ) (h : Invariant b c s)
    (hwork : s.todo ≠ [] ∨ pending s.pair ≠ []) :
    ∃ t, step handler .write s = some t ∨ step handler (.take context) s = some t := by
  by_cases htodo : s.todo = []
  · have hidle := h.serving.idle_of_done htodo
    obtain ⟨line, rest, hpending⟩ := List.exists_cons_of_ne_nil (hwork.resolve_left (absurd htodo))
    have hack : s.pair.acknowledge = some (vectorOf b c line, s.pair.accept line) := by
      rw [acknowledge_eq h.setup hidle, find_pending, hpending]
      rfl
    have htake : step handler (.take context) s = some { s with
        pair := s.pair.accept line
        todo := handler context (vectorOf b c line)
        taken := s.taken ++ [vectorOf b c line] } := by
      rw [step, if_pos htodo, hack, Option.map_some]
    exact ⟨_, .inr htake⟩
  · obtain ⟨t, ht, -⟩ := invariant_write handler h htodo
    exact ⟨t, .inl ht⟩

end Run

end Pic8259
