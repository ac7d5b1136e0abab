import Nyrix.Commands

/-!
# The shell's command interpreter (commands.cpp)

`process_command` compares the line it gets character by character and stops at the first
difference. Every read of the line is checked here. Over it stands what the shell is for: a
line is read as a command, and a command has a reply.
-/

namespace Commands

open CharBuffer Decimal

/-- What `process_command` asks of the terminal. -/
inductive Call where
  | write (str : List (BitVec 8))
  | clear
  | setcolor (color : BitVec 8)
  deriving DecidableEq

/-- Whether the call returns, or ends in `reboot` or in `switch_to_user_mode`. -/
inductive After where
  | returns
  | reboot
  | user
  deriving DecidableEq

def puts (s : String) : Call := .write (ascii s)

def colorOk : BitVec 8 := 0x0A
def colorErr : BitVec 8 := 0x0C
def colorWhite : BitVec 8 := 0x0F

/-- `cmd[i] == p[0] && cmd[i + 1] == p[1] && …` -/
def matchesAt (n : Nat) (cmd : Buffer) : List (BitVec 8) → Nat → Option Bool
  | [], _ => some true
  | p :: ps, i => (read n cmd i).bind fun c =>
      if c = p then matchesAt n cmd ps (i + 1) else some false

/-- The characters `terminal_write(&b[i])` goes through. -/
def stringFrom (n : Nat) (b : Buffer) (i : Int) : Option (List (BitVec 8)) :=
  if 0 ≤ i then (scan n b i.toNat).map (text b i.toNat) else none

def helpText : List Call :=
  [ .setcolor colorOk
  , puts "Available commands:\n"
  , puts "  help    - show this message\n"
  , puts "  clear   - clear the screen\n"
  , puts "  echo    - print text\n"
  , puts "  memstat - show memory info\n"
  , puts "  ps      - show tasks (stub)\n"
  , puts "  reboot  - reboot the system\n"
  , puts "  user    - enter Ring 3\n"
  , .setcolor colorWhite ]

/-- The branch for `memstat`, over what `buf` holds before. -/
def memstat (freePages : BitVec 32) (buf : Buffer) : Option (List Call) :=
  (uintToStr freePages buf 20#32).bind fun printed =>
  (stringFrom 20 printed.2 printed.1).bind fun pages =>
  let freeMb := freePages / 256#32
  (uintToStr freeMb printed.2 20#32).bind fun printed =>
  (stringFrom 20 printed.2 printed.1).map fun mb =>
    [ puts "Free physical memory: ", .write pages, puts " pages (", .write mb, puts " MB)\n" ]

/-- The calls made for the line in `cmd`, an array of `n` characters; `none` for an access
outside an array. -/
def processCommand (n : Nat) (cmd : Buffer) (freePages : BitVec 32) (buf : Buffer) :
    Option (List Call × After) :=
  (matchesAt n cmd (ascii "help" ++ [0#8]) 0).bind fun help =>
  if help then some (helpText, .returns)
  else (matchesAt n cmd (ascii "clear" ++ [0#8]) 0).bind fun clear =>
  if clear then some ([.clear], .returns)
  else (matchesAt n cmd (ascii "echo ") 0).bind fun echo =>
  if echo then (stringFrom n cmd 5).map fun str => ([.write str, puts "\n"], .returns)
  else (matchesAt n cmd (ascii "memstat" ++ [0#8]) 0).bind fun mem =>
  if mem then (memstat freePages buf).map fun calls => (calls, .returns)
  else (matchesAt n cmd (ascii "ps" ++ [0#8]) 0).bind fun ps =>
  if ps then
    some ([ puts "PID  State\n", puts "  0  running (kernel main)\n"
          , puts "  1  running (test thread)\n" ], .returns)
  else (matchesAt n cmd (ascii "reboot" ++ [0#8]) 0).bind fun reboot =>
  if reboot then
    some ([.setcolor colorErr, puts "Rebooting...\n", .setcolor colorWhite], .reboot)
  else (matchesAt n cmd (ascii "user" ++ [0#8]) 0).bind fun user =>
  -- the text after the call of `switch_to_user_mode` is never reached
  if user then some ([puts "Entering Ring 3...\n"], .user)
  else (read n cmd 0).bind fun first =>
  if first ≠ 0#8 then (stringFrom n cmd 0).map fun str =>
    ([ .setcolor colorErr, puts "Unknown command: ", .write str, puts "\n"
     , .setcolor colorWhite ], .returns)
  else some ([], .returns)

/-! ## Lines and commands -/

inductive Command where
  | help
  | clear
  | echo (str : List (BitVec 8))
  | memstat
  | ps
  | reboot
  | user
  | unknown (line : List (BitVec 8))
  deriving DecidableEq

/-- The command a line is read as. -/
def Command.parse (line : List (BitVec 8)) : Option Command :=
  if line = ascii "help" then some .help
  else if line = ascii "clear" then some .clear
  else if ascii "echo " <+: line then some (.echo (line.drop 5))
  else if line = ascii "memstat" then some .memstat
  else if line = ascii "ps" then some .ps
  else if line = ascii "reboot" then some .reboot
  else if line = ascii "user" then some .user
  else if line ≠ [] then some (.unknown line)
  else none

/-- The line that stands for a command. -/
def Command.line : Command → List (BitVec 8)
  | .help => ascii "help"
  | .clear => ascii "clear"
  | .echo str => ascii "echo " ++ str
  | .memstat => ascii "memstat"
  | .ps => ascii "ps"
  | .reboot => ascii "reboot"
  | .user => ascii "user"
  | .unknown line => line

/-- What a command shows while `freePages` pages are free. -/
def Command.reply (freePages : Nat) : Command → List Call
  | .help => helpText
  | .clear => [.clear]
  | .echo str => [.write str, puts "\n"]
  | .memstat =>
    [ puts "Free physical memory: ", puts freePages.repr, puts " pages ("
    , puts (freePages / 256).repr, puts " MB)\n" ]
  | .ps =>
    [ puts "PID  State\n", puts "  0  running (kernel main)\n"
    , puts "  1  running (test thread)\n" ]
  | .reboot => [.setcolor colorErr, puts "Rebooting...\n", .setcolor colorWhite]
  | .user => [puts "Entering Ring 3...\n"]
  | .unknown line =>
    [.setcolor colorErr, puts "Unknown command: ", .write line, puts "\n", .setcolor colorWhite]

def Command.after : Command → After
  | .reboot => .reboot
  | .user => .user
  | _ => .returns

/-- What a line leads to; an empty one is passed over. -/
def answer (freePages : Nat) : Option Command → List Call × After
  | none => ([], .returns)
  | some c => (c.reply freePages, c.after)

/-- What the shell does for a line. -/
def shell (freePages : Nat) (line : List (BitVec 8)) : List Call × After :=
  answer freePages (Command.parse line)

/-- No line is lost in reading it. -/
theorem Command.line_parse {str : List (BitVec 8)} {c : Command} (h : parse str = some c) :
    c.line = str := by
  rw [parse] at h
  split_ifs at h with hhelp hclear hecho hmem hps hreboot huser
  · rw [← Option.some.inj h, hhelp, line]
  · rw [← Option.some.inj h, hclear, line]
  · obtain ⟨rest, rfl⟩ := hecho
    rw [← Option.some.inj h]
    rfl
  · rw [← Option.some.inj h, hmem, line]
  · rw [← Option.some.inj h, hps, line]
  · rw [← Option.some.inj h, hreboot, line]
  · rw [← Option.some.inj h, huser, line]
  · rw [← Option.some.inj h, line]

section Match

variable {n : Nat} {cmd : Buffer} {i e : Nat}

/-- The comparison with a text in which no NUL stands goes on behind it exactly when the string
begins with it. -/
theorem matchesAt_append {p : List (BitVec 8)} (q : List (BitVec 8)) (h : NulAt cmd i e)
    (he : e < n) (hp : ∀ c ∈ p, c ≠ 0#8) : matchesAt n cmd (p ++ q) i =
      if p <+: text cmd i e then matchesAt n cmd q (i + p.length) else some false := by
  induction p generalizing i with
  | nil => simp
  | cons c p ih =>
    have hle := h.le
    have hc := hp c List.mem_cons_self
    rw [List.cons_append, matchesAt, read_some _ (by omega), Option.bind_some]
    by_cases hi : i < e
    · rw [text_cons hi, ih (h.next hi) fun d hd => hp d (List.mem_cons_of_mem c hd)]
      have hlen : i + 1 + p.length = i + (c :: p).length := by
        rw [List.length_cons]
        omega
      by_cases hsame : cmd i = c
      · rw [if_pos hsame, hlen]
        exact if_congr (by simp [hsame]) rfl rfl
      · rw [if_neg hsame, if_neg]
        intro hpre
        exact hsame (List.cons_prefix_cons.mp hpre).1.symm
    · obtain rfl : i = e := by omega
      rw [h.nul, if_neg (Ne.symm hc), if_neg]
      simp

/-- A comparison that includes the NUL is one with the whole string. -/
theorem matchesAt_word {p : List (BitVec 8)} (h : NulAt cmd 0 e) (he : e < n)
    (hp : ∀ c ∈ p, c ≠ 0#8) :
    matchesAt n cmd (p ++ [0#8]) 0 = some (decide (string n cmd = p)) := by
  rw [matchesAt_append [0#8] h he hp, string_eq_text h he]
  split_ifs with hpre
  · have hlen := hpre.length_le
    rw [length_text, Nat.sub_zero] at hlen
    rw [Nat.zero_add, matchesAt, read_some _ (by omega), Option.bind_some]
    by_cases hend : p.length = e
    · have hall : p = text cmd 0 e := hpre.eq_of_length (by simp [hend])
      rw [hend, if_pos h.nul, decide_eq_true hall.symm]
      rfl
    · have hne : text cmd 0 e ≠ p := by
        intro heq
        apply hend
        rw [← heq, length_text, Nat.sub_zero]
      rw [if_neg (h.text p.length (Nat.zero_le _) (by omega)), decide_eq_false hne]
  · rw [decide_eq_false]
    intro heq
    exact hpre (heq ▸ List.prefix_refl _)

theorem matchesAt_starts {p : List (BitVec 8)} (h : NulAt cmd 0 e) (he : e < n)
    (hp : ∀ c ∈ p, c ≠ 0#8) :
    matchesAt n cmd p 0 = some (decide (p <+: string n cmd)) := by
  have happend := matchesAt_append [] h he hp
  rw [List.append_nil] at happend
  rw [happend, string_eq_text h he, matchesAt]
  split_ifs with hpre
  · rw [decide_eq_true hpre]
  · rw [decide_eq_false hpre]

theorem stringFrom_eq (h : NulAt cmd i e) (he : e < n) :
    stringFrom n cmd i = some (text cmd i e) := by
  rw [stringFrom, if_pos (Int.natCast_nonneg i), Int.toNat_natCast, scan_eq h he, Option.map_some]

/-- Behind the first `k` characters the rest of the string is read. -/
theorem stringFrom_drop {k : Nat} (h : NulAt cmd 0 e) (he : e < n) (hk : k ≤ e) :
    stringFrom n cmd k = some ((string n cmd).drop k) := by
  rw [stringFrom_eq ⟨hk, h.nul, fun j _ hj => h.text j (Nat.zero_le j) hj⟩ he, string_eq_text h he,
    text, text, ← List.map_drop, List.drop_range', Nat.mul_one, Nat.zero_add, Nat.sub_zero]

end Match

/-- In an array of 20 characters there is room for every number. -/
theorem uintToStr_room (num : BitVec 32) (buf : Buffer) : ∃ (start : Nat) (out : Buffer),
    uintToStr num buf 20#32 = some (Int.ofNat start, out) ∧ Numeral out start 19 num.toNat := by
  have hlast : (20#32 - 1#32).toInt = ((19 : Nat) : Int) := by decide
  have hsize : (20#32).toNat = 20 := rfl
  have hnul : Function.update buf 19 0#8 19 = 0#8 := Function.update_self 19 0#8 buf
  rw [uintToStr, hlast, hsize, store_some _ _ (by decide), Option.bind_some]
  by_cases hzero : num = 0#32
  · have hprev : ((19 : Nat) : Int) - 1 = ((18 : Nat) : Int) := rfl
    rw [if_pos hzero, hprev, store_some _ _ (by decide), hzero]
    exact ⟨18, _, rfl, numeral_zero hnul⟩
  · have hpos : 0 < num.toNat := by
      apply Nat.pos_of_ne_zero
      intro h
      exact hzero (BitVec.eq_of_toNat_eq h)
    obtain ⟨start, out, hrun, -, hnum, -⟩ :=
      storeDigits_numeral (partly_start hnul) hpos (by omega) (by decide) (Nat.lt_succ_self 19)
    rw [if_neg hzero]
    exact ⟨start, out, hrun, hnum⟩

/-- The number is printed, whatever the array held. -/
theorem uintToStr_repr (num : BitVec 32) (buf : Buffer) : ∃ start out,
    uintToStr num buf 20#32 = some (start, out) ∧
    stringFrom 20 out start = some (ascii num.toNat.repr) := by
  obtain ⟨start, out, hrun, hnum⟩ := uintToStr_room num buf
  refine ⟨_, out, hrun, ?_⟩
  rw [← hnum.text_eq]
  exact stringFrom_eq hnum.nulAt (by decide)

theorem memstat_reply (freePages : BitVec 32) (buf : Buffer) :
    memstat freePages buf = some (Command.memstat.reply freePages.toNat) := by
  obtain ⟨start, out, hrun, hpages⟩ := uintToStr_repr freePages buf
  obtain ⟨start', out', hrun', hmb⟩ := uintToStr_repr (freePages / 256#32) out
  have hdiv : (freePages / 256#32).toNat = freePages.toNat / 256 := BitVec.toNat_udiv
  rw [memstat, hrun, Option.bind_some]
  dsimp only
  rw [hpages, Option.bind_some, hrun', Option.bind_some, hmb, hdiv, Option.map_some]
  rfl

/-- One comparison of the chain on both sides. -/
theorem bind_test {p : Prop} [Decidable p] {test : Option Bool} {x y : Option (List Call × After)}
    {freePages : Nat} {c d : Option Command} (htest : test = some (decide p))
    (hx : p → x = some (answer freePages c)) (hy : ¬p → y = some (answer freePages d)) :
    (test.bind fun b => if b then x else y) = some (answer freePages (if p then c else d)) := by
  rw [htest, Option.bind_some]
  by_cases hp : p
  · rw [decide_eq_true hp, if_pos rfl, if_pos hp, hx hp]
  · rw [decide_eq_false hp, if_neg Bool.false_ne_true, if_neg hp, hy hp]

/-- For every terminated line, in an array of any length, no read goes beyond the NUL, no store
outside the local array, and what is shown is the reply to the command the line is read as. -/
theorem processCommand_shell {n e : Nat} {cmd : Buffer} (h : NulAt cmd 0 e) (he : e < n)
    (freePages : BitVec 32) (buf : Buffer) : processCommand n cmd freePages buf =
      some (shell freePages.toNat (string n cmd)) := by
  have hlength := string_length h he
  rw [processCommand, shell, Command.parse]
  refine bind_test (matchesAt_word h he (by decide)) (fun _ => rfl) fun _ => ?_
  refine bind_test (matchesAt_word h he (by decide)) (fun _ => rfl) fun _ => ?_
  refine bind_test (matchesAt_starts h he (by decide)) ?_ fun _ => ?_
  · -- the argument of `echo` starts behind the five characters compared
    intro hecho
    have hlen : 5 ≤ e := by
      have hle := hecho.length_le
      rwa [hlength] at hle
    have hrest : stringFrom n cmd 5 = some ((string n cmd).drop 5) := stringFrom_drop h he hlen
    rw [hrest, Option.map_some]
    rfl
  refine bind_test (matchesAt_word h he (by decide)) ?_ fun _ => ?_
  · intro _
    rw [memstat_reply, Option.map_some]
    rfl
  refine bind_test (matchesAt_word h he (by decide)) (fun _ => rfl) fun _ => ?_
  refine bind_test (matchesAt_word h he (by decide)) (fun _ => rfl) fun _ => ?_
  refine bind_test (matchesAt_word h he (by decide)) (fun _ => rfl) fun _ => ?_
  rw [read_some _ (by omega), Option.bind_some]
  by_cases hzero : e = 0
  · have hnil : string n cmd = [] := List.length_eq_zero_iff.mp (hlength.trans hzero)
    have hnul : ¬cmd 0 ≠ 0#8 := fun hne => hne (hzero ▸ h.nul)
    rw [if_neg hnul, if_neg fun hne => hne hnil]
    rfl
  · have hany : string n cmd ≠ [] := by
      intro hnil
      exact hzero (hlength.symm.trans (congrArg List.length hnil))
    have hall : stringFrom n cmd 0 = some ((string n cmd).drop 0) :=
      stringFrom_drop h he (Nat.zero_le e)
    rw [if_pos (h.text 0 le_rfl (Nat.pos_of_ne_zero hzero)), if_pos hany, hall, Option.map_some]
    rfl

/-- "memstat" in the input buffer while 32768 pages are free. -/
theorem processCommand_shell_memstat :
    processCommand 256 (fun i => (ascii "memstat").getD i 0#8) 32768#32 (fun _ => 0xFF#8) =
      some (shell 32768 (string 256 fun i => (ascii "memstat").getD i 0#8)) :=
  processCommand_shell (e := 7) ⟨by decide, by decide, by decide⟩ (by decide) 32768#32 _

end Commands
