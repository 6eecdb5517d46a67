import SimpleRedis.RedisProgress
import SimpleRedis.RespFormat
import SimpleRedis.RespCommand

/-!
# The interactive client

`redis_cli` reads a line, sends its words as a command, waits for the promise and prints the reply.
`Cli` is the main thread with the client behind it. A line is its words: how they are spaced makes
no difference to what the server reads.
-/
namespace SimpleRedis.Redis

open Net Resp TransitionRun Custody

section Words

/-- `while (iss >> token)`, with the characters of the token that have been read. -/
def readTokens (token : List CChar) : List CChar → List (List CChar)
  | [] => if token.isEmpty then [] else [token]
  | c :: rest =>
      if isSpace c then
        if token.isEmpty then readTokens [] rest else token :: readTokens [] rest
      else readTokens (token ++ [c]) rest

/-- `splitArgs` of `redis_cli`, and the loop of `SimpleRedisClient::execute` over a command in one
string. -/
def splitArgs (line : List CChar) : List (List CChar) := readTokens [] line

/-- A word has a character, and no white space. -/
def IsWord (word : List CChar) : Prop := word ≠ [] ∧ ∀ c ∈ word, isSpace c = false

/-- The line holds the words in this order, with white space in front of them, between them and
behind them. -/
inductive Spells : List (List CChar) → List CChar → Prop
  | done {gap} (hgap : ∀ c ∈ gap, isSpace c = true) : Spells [] gap
  | word {gap word words rest} (hgap : ∀ c ∈ gap, isSpace c = true) (hword : IsWord word)
      (hend : ∀ c ∈ rest.head?, isSpace c = true) (hrest : Spells words rest) :
      Spells (word :: words) (gap ++ (word ++ rest))

variable {memory : Memory} {token line : List CChar} {words : List (List CChar)}

theorem readTokens_gap {gap rest : List CChar} (hgap : ∀ c ∈ gap, isSpace c = true) :
    readTokens [] (gap ++ rest) = readTokens [] rest := by
  induction gap with
  | nil => rfl
  | cons c gap ih =>
      obtain ⟨hc, hgap⟩ := List.forall_mem_cons.mp hgap
      rw [List.cons_append, readTokens, if_pos hc]
      exact ih hgap

theorem readTokens_word {word rest : List CChar} (hword : ∀ c ∈ word, isSpace c = false) :
    readTokens token (word ++ rest) = readTokens (token ++ word) rest := by
  induction word generalizing token with
  | nil => rw [List.nil_append, List.append_nil]
  | cons c word ih =>
      obtain ⟨hc, hword⟩ := List.forall_mem_cons.mp hword
      rw [List.cons_append, readTokens, if_neg (by simp [hc]), ih hword, List.append_assoc]
      rfl

/-- A token ends with its word. -/
theorem readTokens_end {rest : List CChar} (htoken : token ≠ [])
    (hend : ∀ c ∈ rest.head?, isSpace c = true) :
    readTokens token rest = token :: readTokens [] rest := by
  have hsome : token.isEmpty = false := by simpa using htoken
  cases rest with
  | nil => simp [readTokens, hsome]
  | cons c rest =>
      have hc : isSpace c = true := hend c rfl
      simp [readTokens, hc, hsome]

theorem splitArgs_of_spells (h : Spells words line) : splitArgs line = words := by
  induction h with
  | @done gap hgap =>
      have hread : readTokens [] (gap ++ []) = [] := readTokens_gap hgap
      rwa [List.append_nil] at hread
  | @word gap word words rest hgap hword hend hrest ih =>
      rw [splitArgs, readTokens_gap hgap, readTokens_word hword.2, List.nil_append,
        readTokens_end hword.1 hend]
      exact congrArg (word :: ·) ih

/-- White space in front makes no difference. -/
theorem Spells.cons_space {c : CChar} (hc : isSpace c = true) (h : Spells words line) :
    Spells words (c :: line) := by
  cases h with
  | done hgap => exact .done (List.forall_mem_cons.mpr ⟨hc, hgap⟩)
  | @word gap word words rest hgap hword hend hrest =>
      exact .word (List.forall_mem_cons.mpr ⟨hc, hgap⟩) hword hend hrest

/-- A word in front of a gap. -/
theorem Spells.cons_word (hword : IsWord token) (hend : ∀ c ∈ line.head?, isSpace c = true)
    (h : Spells words line) : Spells (token :: words) (token ++ line) := by
  have hspells : Spells (token :: words) ([] ++ (token ++ line)) :=
    .word (List.forall_mem_nil _) hword hend h
  rwa [List.nil_append] at hspells

theorem spells_readTokens (htoken : ∀ c ∈ token, isSpace c = false) (line : List CChar) :
    Spells (readTokens token line) (token ++ line) := by
  induction line generalizing token with
  | nil =>
      cases token with
      | nil => exact .done (List.forall_mem_nil _)
      | cons c token =>
          exact .cons_word ⟨List.cons_ne_nil _ _, htoken⟩ nofun (.done (List.forall_mem_nil _))
  | cons c rest ih =>
      rw [readTokens]
      split
      · rename_i hc
        have hrest : Spells (readTokens [] rest) (c :: rest) :=
          (ih (List.forall_mem_nil _)).cons_space hc
        cases token with
        | nil => exact hrest
        | cons d token =>
            refine .cons_word ⟨List.cons_ne_nil _ _, htoken⟩ (fun c' hc' => ?_) hrest
            cases hc'
            exact hc
      · rename_i hc
        have hnext : ∀ d ∈ token ++ [c], isSpace d = false := by
          rw [List.forall_mem_append]
          exact ⟨htoken, List.forall_mem_singleton.mpr (by simpa using hc)⟩
        have hspells := ih hnext
        rwa [List.append_assoc] at hspells

/-- The words of a line are those that it spells. -/
theorem splitArgs_eq_iff : splitArgs line = words ↔ Spells words line := by
  constructor
  · rintro rfl
    exact spells_readTokens (List.forall_mem_nil _) line
  · exact splitArgs_of_spells

/-- There are no more words than characters, and none is longer than the line. -/
theorem Spells.bounds (h : Spells words line) :
    words.length ≤ line.length ∧ ∀ word ∈ words, word.length ≤ line.length := by
  induction h with
  | done => exact ⟨Nat.zero_le _, List.forall_mem_nil _⟩
  | @word gap word words rest hgap hword hend hrest ih =>
      obtain ⟨hcount, hlength⟩ := ih
      have hpos := List.length_pos_iff.mpr hword.1
      simp only [List.length_append, List.length_cons, List.forall_mem_cons]
      refine ⟨by omega, by omega, fun w hw => ?_⟩
      have := hlength w hw
      omega

theorem wellFormed_splitArgs (hline : line.length ≤ memory.elements) :
    (commandValue (splitArgs line)).WellFormed memory := by
  obtain ⟨hcount, hlength⟩ := (splitArgs_eq_iff.mp (rfl : splitArgs line = _)).bounds
  have hall : ∀ words : List (List CChar), (∀ word ∈ words, word.length < 2 ^ 63) →
      AllWellFormed memory (words.map .bulkString) := by
    intro words hwords
    induction words with
    | nil => trivial
    | cons word words ih =>
        obtain ⟨hword, hwords⟩ := List.forall_mem_cons.mp hwords
        exact ⟨hword, ih hwords⟩
  refine ⟨?_, hall _ fun word hword => ?_⟩
  · rw [List.length_map]
    omega
  · have := hlength word hword
    have hmax : maxElements < 2 ^ 63 := by decide
    have := memory.elements_le
    omega

/-- What the server reads from the bytes of a line is the array of its words, wherever the command
stands in the stream and however the words are spaced. -/
theorem parse_splitArgs_iff (hline : line.length ≤ memory.elements) (pre rest : List CChar) :
    parse memory (pre ++ buildRESPCommand (splitArgs line) ++ rest) pre.length =
        .ok (commandValue words, pre.length + (buildRESPCommand (splitArgs line)).length) ↔
      Spells words line := by
  rw [buildRESPCommand_eq_enc, parse_enc (wellFormed_splitArgs hline), ← splitArgs_eq_iff]
  constructor
  · intro h
    have hvalue := (Prod.mk.inj (Except.ok.inj h)).1
    have hmap : (splitArgs line).map RESPValue.bulkString = words.map .bulkString :=
      RESPValue.array.inj hvalue
    exact (List.map_injective_iff.mpr fun _ _ => RESPValue.bulkString.inj) hmap
  · rintro rfl
    rfl

theorem parse_splitArgs_iff_get :
    parse .unbounded ([1] ++ buildRESPCommand (splitArgs (text " GET\t k ")) ++ [2])
        [(1 : CChar)].length =
        .ok (commandValue [text "GET", text "k"],
          [(1 : CChar)].length + (buildRESPCommand (splitArgs (text " GET\t k "))).length) ↔
      Spells [text "GET", text "k"] (text " GET\t k ") :=
  parse_splitArgs_iff (by decide) [1] [2]

end Words

/-- What the main thread does. -/
inductive Phase where
  | reading
  | waiting (promise : ℕ)
  | quit
  | eof
  | aborted

/-- `redis_cli`: the client, the lines that are still to come, and what is on the screen. -/
structure Cli where
  system : System Unit
  input : List (List CChar)
  phase : Phase
  output : List CChar

/-- What the main thread does, or the client behind it. -/
inductive CliAct (memory : Memory) where
  | main
  | client (act : Act memory Unit)

/-- A step that is none of the main thread. -/
def isBackground {memory : Memory} : Act memory Unit → Bool
  | .execute _ _ | .close _ => false
  | _ => true

/-- The lines that end the session. -/
def isQuit (line : List CChar) : Bool := line = text "quit" || line = text "exit"

namespace Cli

def start (setup : Setup) (lines : List (List CChar)) : Cli where
  system := .initial setup
  input := lines
  phase := .reading
  output := []

/-- The body of the loop for a line that `std::getline` has read. -/
def takeLine (setup : Setup) (s : Cli) (line : List CChar) (input : List (List CChar)) : Cli :=
  let s := { s with input := input, output := s.output ++ text "redis> " }
  if line.isEmpty then s
  else if isQuit line then
    { s with phase := .quit, output := s.output ++ text "Bey.\n" }
  else
    let args := splitArgs line
    if args.isEmpty then s
    else
      { s with
        system := s.system.execute setup () args
        phase := .waiting s.system.calls.length }

/-- The next step of `main`. `get` throws what the promise was failed with, which nobody catches. -/
def main (setup : Setup) (s : Cli) : Option Cli :=
  match s.phase with
  | .reading =>
      match s.input with
      | [] => some { s with phase := .eof, output := s.output ++ text "redis> \nBey.\n" }
      | line :: input => some (s.takeLine setup line input)
  | .waiting promise =>
      (s.system.resolved.find? (·.1 = promise)).map fun
        | (_, .value v) =>
            { s with phase := .reading, output := s.output ++ formatResponse 0 v ++ text "\n" }
        | _ => { s with phase := .aborted }
  | _ => none

def step (setup : Setup) (s : Cli) : CliAct setup.memory → Option Cli
  | .main => s.main setup
  | .client act =>
      if isBackground act then
        (s.system.step setup act).map fun system => { s with system := system }
      else none

end Cli

/-- The command that a line stands for. A blank line has none. -/
def commandOf (line : List CChar) : Option (List (List CChar)) :=
  if isQuit line || (splitArgs line).isEmpty then none else some (splitArgs line)

/-- What is on the screen after the lines, if the commands have got these replies. -/
def transcript : List (List CChar) → List RESPValue → List CChar
  | [], _ => []
  | line :: lines, replies =>
      text "redis> " ++
        if (commandOf line).isSome then
          match replies with
          | [] => transcript lines []
          | v :: replies => formatResponse 0 v ++ text "\n" ++ transcript lines replies
        else transcript lines replies

/-- The command that has no reply on the screen. -/
def unanswered : Phase → ℕ
  | .waiting _ | .aborted => 1
  | _ => 0

/-- What is printed at the end. -/
def farewell : Phase → List CChar
  | .quit => text "Bey.\n"
  | .eof => text "redis> \nBey.\n"
  | _ => []

section Transcript

variable {line : List CChar}

theorem transcript_append {xs ys : List (List CChar)} {vs ws : List RESPValue}
    (h : (xs.filterMap commandOf).length = vs.length) :
    transcript (xs ++ ys) (vs ++ ws) = transcript xs vs ++ transcript ys ws := by
  induction xs generalizing vs with
  | nil =>
      cases List.eq_nil_of_length_eq_zero h.symm
      rfl
  | cons line xs ih =>
      simp only [List.cons_append, transcript]
      cases hcommand : commandOf line with
      | none =>
          rw [List.filterMap_cons_none hcommand] at h
          simp only [Option.isSome_none, Bool.false_eq_true, if_false, ih h, List.append_assoc]
      | some args =>
          rw [List.filterMap_cons_some hcommand] at h
          cases vs with
          | nil => cases h
          | cons v vs =>
              simp only [Option.isSome_some, if_true, List.cons_append, ih (Nat.succ.inj h),
                List.append_assoc]

/-- A line shows the prompt first. -/
theorem transcript_concat {asked : List (List CChar)} {replies : List RESPValue}
    (h : (asked.filterMap commandOf).length = replies.length) (line : List CChar) :
    transcript (asked ++ [line]) replies = transcript asked replies ++ text "redis> " := by
  have hprompt : transcript [line] [] = text "redis> " := by
    rw [transcript]
    split <;> simp [transcript]
  have happend : transcript (asked ++ [line]) (replies ++ []) = _ := transcript_append h
  rwa [List.append_nil, hprompt] at happend

/-- The reply comes behind the prompt of its command. -/
theorem transcript_reply {asked : List (List CChar)} {replies : List RESPValue}
    (h : (asked.filterMap commandOf).length = replies.length) (hline : (commandOf line).isSome)
    (v : RESPValue) :
    transcript (asked ++ [line]) (replies ++ [v]) =
      transcript (asked ++ [line]) replies ++ formatResponse 0 v ++ text "\n" := by
  have hreply : transcript [line] [v] = text "redis> " ++ (formatResponse 0 v ++ text "\n") := by
    rw [transcript, if_pos hline]
    simp [transcript]
  rw [transcript_append h, transcript_concat h, hreply]
  simp only [List.append_assoc]

theorem commandOf_blank (h : (splitArgs line).isEmpty = true) : commandOf line = none := by
  rw [commandOf, h, Bool.or_true, if_pos rfl]

theorem commandOf_quit (h : isQuit line = true) : commandOf line = none := by
  rw [commandOf, h, Bool.true_or, if_pos rfl]

theorem commandOf_words (hquit : isQuit line = false) (hwords : (splitArgs line).isEmpty = false) :
    commandOf line = some (splitArgs line) := by
  rw [commandOf, hquit, hwords, Bool.or_self, if_neg Bool.false_ne_true]

end Transcript

namespace System

variable {s s' : System Unit} {setup : Setup} {act : Act setup.memory Unit} {fd : Fd}

theorem eq_of_arrive {outcome : ReadOutcome} (h : s.arrive fd outcome = some s') :
    s' = s ∨ ∃ server, s' = s.setServer fd server := by
  unfold arrive at h
  split at h
  · split at h
    · cases h
      exact Or.inl rfl
    · extract_lets server pending at h
      split at h
      · cases h
        exact Or.inr ⟨_, rfl⟩
      · cases h
  · cases h
    exact Or.inl rfl

theorem eq_of_answer {memory : Memory} {reply : Reply memory} (h : s.answer fd reply = some s') :
    ∃ server, s' = s.setServer fd server := by
  unfold System.answer at h
  extract_lets server life at h
  split at h
  · cases h
    exact ⟨_, rfl⟩
  · cases h

/-- What is resolved stays resolved. -/
theorem Held.resolved_step (h : s.Held) (hstep : s.step setup act = some s') :
    s.resolved <+: s'.resolved := by
  have hpeer : ∀ t : System Unit, t.Held → t.resolved = s.resolved →
      t.stepAnyPeer setup act = some s' → s.resolved <+: s'.resolved :=
    fun t ht hresolved hread => hresolved ▸ ht.grows hread
  cases act with
  | execute | close | runTask | handleWrite | hangUp => exact hpeer s h rfl hstep
  | handleRead fd outcome =>
      obtain ⟨t, harrive, hread⟩ := Option.bind_eq_some_iff.mp hstep
      rcases eq_of_arrive harrive with rfl | ⟨server, rfl⟩
      · exact hpeer t h rfl hread
      · exact hpeer _ (h.setServer fd server) rfl hread
  | answer fd reply =>
      obtain ⟨server, rfl⟩ := eq_of_answer hstep
      exact List.prefix_rfl

/-- The loops, the kernel and the server neither call nor post. -/
theorem frame_of_background (hact : isBackground act) (hstep : s.step setup act = some s') :
    s'.calls = s.calls ∧ ∀ fd, s'.tasks fd ⊆ s.tasks fd := by
  have hrun : ∀ (t : System Unit) (op : Op Closure), t.run op = some s' → t.calls = s.calls →
      t.tasks = s.tasks → s'.calls = s.calls ∧ ∀ fd, s'.tasks fd ⊆ s.tasks fd := by
    intro t op ht hcalls htasks
    obtain ⟨-, -, htasks', hcalls'⟩ := frame_run ht
    exact ⟨hcalls'.trans hcalls, fun fd => (htasks'.trans htasks) ▸ List.Subset.refl _⟩
  cases act with
  | execute | close => cases hact
  | runTask fd =>
      cases htasks : s.tasks fd with
      | nil => simp [System.step, htasks] at hstep
      | cons task tasks =>
          simp only [System.step, htasks] at hstep
          obtain ⟨-, -, hleft, hcalls⟩ := frame_run hstep
          refine ⟨hcalls, fun fd' => ?_⟩
          rw [hleft]
          change Function.update s.tasks fd tasks fd' ⊆ _
          by_cases hfd : fd' = fd
          · subst hfd
            rw [Function.update_self, htasks]
            exact List.subset_cons_self task tasks
          · rw [Function.update_of_ne hfd]
            exact List.Subset.refl _
  | handleRead fd outcome =>
      obtain ⟨t, harrive, hread⟩ := Option.bind_eq_some_iff.mp hstep
      have hsame : t.calls = s.calls ∧ t.tasks = s.tasks := by
        rcases eq_of_arrive harrive with rfl | ⟨server, rfl⟩ <;> exact ⟨rfl, rfl⟩
      unfold System.handleRead at hread
      split at hread
      · exact hrun t _ hread hsame.1 hsame.2
      · obtain ⟨r, -, hfinish⟩ := Option.bind_eq_some_iff.mp hread
        exact hrun _ _ hfinish hsame.1 hsame.2
  | handleWrite fd outcome => exact hrun s _ hstep rfl rfl
  | hangUp fd => exact hrun s _ hstep rfl rfl
  | answer fd reply =>
      obtain ⟨server, rfl⟩ := eq_of_answer hstep
      exact ⟨rfl, fun fd => List.Subset.refl _⟩

/-- `execute` makes one call and posts no close. -/
theorem frame_execute (s : System Unit) (setup : Setup) (args : List (List CChar)) :
    (s.execute setup () args).calls.map Call.args = s.calls.map Call.args ++ [args] ∧
      ∀ fd, .close ∈ (s.execute setup () args).tasks fd → .close ∈ s.tasks fd := by
  unfold System.execute
  extract_lets counter fd called
  have hcalls : called.calls.map Call.args = s.calls.map Call.args ++ [args] := by
    rw [List.map_append]
    rfl
  split
  · exact ⟨hcalls, fun _ hmem => hmem⟩
  · refine ⟨hcalls, fun fd' hmem => ?_⟩
    change _ ∈ Function.update s.tasks fd _ fd' at hmem
    by_cases hfd : fd' = fd
    · subst hfd
      rw [Function.update_self] at hmem
      rcases List.mem_append.mp hmem with hmem | hmem
      · exact hmem
      · cases List.mem_singleton.mp hmem
    · rwa [Function.update_of_ne hfd] at hmem

end System

namespace Cli

variable {s s' : Cli} {setup : Setup} {lines : List (List CChar)}

/-- The line that the main thread is busy with. -/
def Busy : Phase → ℕ → List (List CChar) → Prop
  | .waiting promise, n, current => promise = n ∧ ∃ line, current = [line] ∧ (commandOf line).isSome
  | .aborted, _, current => ∃ line, current = [line] ∧ (commandOf line).isSome
  | _, _, current => current = []

/-- No line but the last ends the session, which is over just when that one ends it. -/
structure QuitsLast (phase : Phase) (lines : List (List CChar)) : Prop where
  others : ∀ line ∈ lines.dropLast, isQuit line = false
  phase_iff : phase = .quit ↔ ∃ line ∈ lines.getLast?, isQuit line = true

section QuitsLast

variable {phase phase' : Phase} {lines : List (List CChar)}

theorem QuitsLast.not_quit (h : QuitsLast phase lines) (hphase : phase ≠ .quit) :
    ∀ line ∈ lines, isQuit line = false := by
  rcases List.eq_nil_or_concat' lines with rfl | ⟨others, last, rfl⟩
  · exact List.forall_mem_nil _
  · obtain ⟨hothers, hiff⟩ := h
    rw [List.dropLast_concat] at hothers
    rw [List.getLast?_concat] at hiff
    refine List.forall_mem_append.mpr ⟨hothers, List.forall_mem_singleton.mpr ?_⟩
    exact Bool.eq_false_iff.mpr fun hlast => hphase (hiff.mpr ⟨last, rfl, hlast⟩)

/-- The session goes on without a line. -/
theorem QuitsLast.same (h : QuitsLast phase lines) (hphase : phase ≠ .quit)
    (hphase' : phase' ≠ .quit) : QuitsLast phase' lines where
  others := h.others
  phase_iff := iff_of_false hphase' (mt h.phase_iff.mpr hphase)

/-- Another line is taken. -/
theorem QuitsLast.concat (h : QuitsLast phase lines) (hphase : phase ≠ .quit) {line : List CChar}
    (hline : phase' = .quit ↔ isQuit line = true) : QuitsLast phase' (lines ++ [line]) where
  others := by
    rw [List.dropLast_concat]
    exact h.not_quit hphase
  phase_iff := by
    rw [List.getLast?_concat, hline]
    exact ⟨fun hquit => ⟨line, rfl, hquit⟩, fun ⟨_, hlast, hquit⟩ => Option.some.inj hlast ▸ hquit⟩

end QuitsLast

/-- The session so far: `asked` are the lines that are done with, and `replies` what their commands
have got. -/
structure Session (memory : Memory) (lines : List (List CChar)) (s : Cli)
    (asked current : List (List CChar)) (replies : List RESPValue) : Prop where
  ok : s.system.Ok memory
  steady : s.system.Steady
  noClose : ∀ fd, .close ∉ s.system.tasks fd
  input : lines = asked ++ current ++ s.input
  calls : s.system.calls.map Call.args = (asked ++ current).filterMap commandOf
  counted : (asked.filterMap commandOf).length = replies.length
  busy : Busy s.phase replies.length current
  output : s.output = transcript (asked ++ current) replies ++ farewell s.phase
  resolved : ∀ k v, replies[k]? = some v → (k, .value v) ∈ s.system.resolved
  quits : QuitsLast s.phase (asked ++ current)

variable {asked current : List (List CChar)} {replies : List RESPValue}

theorem session_start (setup : Setup) (lines : List (List CChar)) :
    Session setup.memory lines (start setup lines) [] [] [] where
  ok := System.ok_initial setup
  steady := System.steady_initial setup
  noClose _ h := nomatch h
  input := rfl
  calls := rfl
  counted := rfl
  busy := rfl
  output := rfl
  resolved _ _ h := nomatch h
  quits := ⟨List.forall_mem_nil _, iff_of_false nofun nofun⟩

theorem Session.client (h : Session setup.memory lines s asked current replies)
    {act : Act setup.memory Unit} {system : System Unit} (hact : isBackground act)
    (hstep : s.system.step setup act = some system) :
    Session setup.memory lines { s with system := system } asked current replies := by
  obtain ⟨hcalls, htasks⟩ := System.frame_of_background hact hstep
  refine ⟨h.ok.step hstep, h.steady.step h.ok hstep, fun fd hmem => h.noClose fd (htasks fd hmem),
    h.input, ?_, h.counted, h.busy, h.output, fun k v hv => ?_, h.quits⟩
  · rw [← h.calls]
    exact congrArg (List.map Call.args) hcalls
  · exact (h.ok.held.resolved_step hstep).subset (h.resolved k v hv)

/-- A line that is no command is done with at once. -/
theorem Session.skip (h : Session setup.memory lines s asked [] replies)
    (hreading : s.phase = .reading) {line : List CChar} {input : List (List CChar)}
    (hinput : s.input = line :: input) (hline : commandOf line = none)
    (hphase : Busy s'.phase replies.length []) (hquit : s'.phase = .quit ↔ isQuit line = true)
    (hsystem : s'.system = s.system) (hnext : s'.input = input)
    (houtput : s'.output = s.output ++ text "redis> " ++ farewell s'.phase) :
    Session setup.memory lines s' (asked ++ [line]) [] replies := by
  have hnone : (asked ++ [line]).filterMap commandOf = asked.filterMap commandOf := by
    rw [List.filterMap_append, List.filterMap_cons_none hline, List.filterMap_nil, List.append_nil]
  have hcalls := h.calls
  rw [List.append_nil] at hcalls
  refine ⟨hsystem ▸ h.ok, hsystem ▸ h.steady, hsystem ▸ h.noClose, ?_, ?_, ?_, hphase, ?_,
    hsystem ▸ h.resolved, ?_⟩
  · rw [h.input, hinput, hnext]
    simp only [List.append_assoc, List.append_nil, List.nil_append, List.cons_append]
  · rw [List.append_nil, hnone, hsystem, hcalls]
  · rw [hnone, h.counted]
  · have hnothing : farewell s.phase = [] := by rw [hreading]; rfl
    rw [houtput, h.output, hnothing, List.append_nil, List.append_nil, List.append_nil,
      transcript_concat h.counted]
  · have hquits := h.quits
    rw [List.append_nil, hreading] at hquits
    rw [List.append_nil]
    exact hquits.concat nofun hquit

/-- A command is called and waited for. -/
theorem Session.call (h : Session setup.memory lines s asked [] replies)
    (hreading : s.phase = .reading) {line : List CChar} {input : List (List CChar)}
    (hinput : s.input = line :: input) (hquit : isQuit line = false)
    (hline : commandOf line = some (splitArgs line)) :
    Session setup.memory lines
      { system := s.system.execute setup () (splitArgs line)
        input := input
        phase := .waiting s.system.calls.length
        output := s.output ++ text "redis> " } asked [line] replies := by
  have hcommands : (asked ++ [line]).filterMap commandOf =
      asked.filterMap commandOf ++ [splitArgs line] := by
    rw [List.filterMap_append, List.filterMap_cons_some hline, List.filterMap_nil]
  have hcalls := h.calls
  rw [List.append_nil] at hcalls
  obtain ⟨hargs, hclose⟩ := System.frame_execute s.system setup (splitArgs line)
  have hstep : s.system.step setup (.execute () (splitArgs line)) =
      some (s.system.execute setup () (splitArgs line)) := rfl
  refine ⟨h.ok.step hstep, h.steady.step h.ok hstep, fun fd hmem => h.noClose fd (hclose fd hmem),
    ?_, ?_, h.counted, ⟨?_, line, rfl, ?_⟩, ?_, fun k v hv => ?_, ?_⟩
  · rw [h.input, hinput, List.append_nil, List.append_assoc]
    rfl
  · rw [hargs, hcalls, hcommands]
  · rw [← h.counted, ← hcalls, List.length_map]
  · rw [hline]
    rfl
  · have hnothing : farewell s.phase = [] := by rw [hreading]; rfl
    rw [transcript_concat h.counted, h.output, hnothing, List.append_nil, List.append_nil]
    exact (List.append_nil _).symm
  · exact (h.ok.held.resolved_step hstep).subset (h.resolved k v hv)
  · have hquits := h.quits
    rw [List.append_nil, hreading] at hquits
    refine hquits.concat nofun (iff_of_false nofun ?_)
    rw [hquit]
    exact Bool.false_ne_true

theorem Session.takeLine (h : Session setup.memory lines s asked [] replies)
    (hphase : s.phase = .reading) {line : List CChar} {input : List (List CChar)}
    (hinput : s.input = line :: input) :
    ∃ asked' current',
      Session setup.memory lines (s.takeLine setup line input) asked' current' replies := by
  have hbusy : Busy s.phase replies.length [] := h.busy
  have hskip : isQuit line = false → commandOf line = none →
      Session setup.memory lines { s with input := input, output := s.output ++ text "redis> " }
        (asked ++ [line]) [] replies := by
    intro hquit hline
    refine h.skip hphase hinput hline hbusy ?_ rfl rfl ?_
    · rw [hphase, hquit]
      exact iff_of_false nofun nofun
    · have hnothing : farewell s.phase = [] := by rw [hphase]; rfl
      exact (congrArg _ hnothing).trans (List.append_nil _) |>.symm
  unfold Cli.takeLine
  extract_lets t args
  by_cases hempty : line.isEmpty
  · rw [if_pos hempty]
    cases List.isEmpty_iff.mp hempty
    exact ⟨_, _, hskip rfl (commandOf_blank rfl)⟩
  rw [if_neg hempty]
  by_cases hquit : isQuit line
  · rw [if_pos hquit]
    exact ⟨_, _, h.skip hphase hinput (commandOf_quit hquit) rfl (iff_of_true rfl hquit)
      rfl rfl rfl⟩
  rw [if_neg hquit]
  replace hquit := Bool.eq_false_iff.mpr hquit
  by_cases hblank : args.isEmpty
  · rw [if_pos hblank]
    exact ⟨_, _, hskip hquit (commandOf_blank hblank)⟩
  · rw [if_neg hblank]
    exact ⟨_, _, h.call hphase hinput hquit
      (commandOf_words hquit (Bool.eq_false_iff.mpr hblank))⟩

/-- The reply is printed behind the prompt of its command. -/
theorem Session.reply (h : Session setup.memory lines s asked current replies)
    {promise : ℕ} {v : RESPValue} (hphase : s.phase = .waiting promise)
    (hv : (promise, .value v) ∈ s.system.resolved) :
    Session setup.memory lines
      { s with phase := .reading, output := s.output ++ formatResponse 0 v ++ text "\n" }
      (asked ++ current) [] (replies ++ [v]) := by
  have hbusy := h.busy
  rw [hphase] at hbusy
  obtain ⟨rfl, line, rfl, hline⟩ := hbusy
  obtain ⟨args, hargs⟩ := Option.isSome_iff_exists.mp hline
  have hsame : asked ++ [line] ++ [] = asked ++ [line] := List.append_nil _
  refine ⟨h.ok, h.steady, h.noClose, ?_, ?_, ?_, rfl, ?_, fun k w hw => ?_, ?_⟩
  · rw [hsame]
    exact h.input
  · rw [hsame]
    exact h.calls
  · rw [List.filterMap_append, List.filterMap_cons_some hargs, List.length_append,
      List.length_append, h.counted]
    rfl
  · have houtput := h.output
    rw [hphase] at houtput
    change s.output ++ _ ++ _ = transcript (asked ++ [line] ++ []) _ ++ []
    rw [hsame, List.append_nil, transcript_reply h.counted hline, houtput]
    simp only [farewell, List.append_nil]
  · rcases Nat.lt_trichotomy k replies.length with hlt | rfl | hgt
    · exact h.resolved k w (List.getElem?_append_left hlt ▸ hw)
    · rw [List.getElem?_concat_length] at hw
      cases hw
      exact hv
    · rw [List.getElem?_eq_none (by simp only [List.length_append, List.length_singleton]; omega)]
        at hw
      cases hw
  · rw [hsame]
    exact h.quits.same (hphase ▸ nofun) nofun

/-- Nobody catches what `get` throws. -/
theorem Session.abort (h : Session setup.memory lines s asked current replies) {promise : ℕ}
    (hphase : s.phase = .waiting promise) :
    Session setup.memory lines { s with phase := .aborted } asked current replies := by
  have hbusy := h.busy
  have houtput := h.output
  rw [hphase] at hbusy houtput
  exact ⟨h.ok, h.steady, h.noClose, h.input, h.calls, h.counted, hbusy.2, houtput, h.resolved,
    h.quits.same (hphase ▸ nofun) nofun⟩

theorem Session.step (h : Session setup.memory lines s asked current replies)
    {act : CliAct setup.memory} (hstep : s.step setup act = some s') :
    ∃ asked' current' replies', Session setup.memory lines s' asked' current' replies' := by
  cases act with
  | client act =>
      simp only [Cli.step] at hstep
      split at hstep
      · rename_i hact
        obtain ⟨system, hsystem, rfl⟩ := Option.map_eq_some_iff.mp hstep
        exact ⟨_, _, _, h.client hact hsystem⟩
      · cases hstep
  | main =>
      have hmain : s.main setup = some s' := hstep
      unfold Cli.main at hmain
      split at hmain
      · rename_i hphase
        have hbusy := h.busy
        rw [hphase] at hbusy
        subst hbusy
        split at hmain
        · cases hmain
          have houtput := h.output
          rw [hphase] at houtput
          refine ⟨_, _, _, h.ok, h.steady, h.noClose, h.input, h.calls, h.counted, rfl, ?_,
            h.resolved, h.quits.same (hphase ▸ nofun) nofun⟩
          rw [houtput]
          exact congrArg (· ++ _) (List.append_nil _)
        · rename_i hinput
          cases hmain
          obtain ⟨asked', current', hsession⟩ := h.takeLine hphase hinput
          exact ⟨asked', current', replies, hsession⟩
      · rename_i promise hphase
        obtain ⟨⟨_, outcome⟩, hfound, hs'⟩ := Option.map_eq_some_iff.mp hmain
        have hmem := List.mem_of_find?_eq_some hfound
        have hpromise := List.find?_some hfound
        simp only [decide_eq_true_eq] at hpromise
        subst hpromise
        cases outcome with
        | value v =>
            cases hs'
            exact ⟨_, _, _, h.reply hphase hmem⟩
        | writeError | tooManyBytes =>
            cases hs'
            exact ⟨_, _, _, h.abort hphase⟩
      · cases hmain

/-- The calls are the commands with a reply and the one that has none. -/
theorem Session.length_calls (h : Session setup.memory lines s asked current replies) :
    replies.length + unanswered s.phase = s.system.calls.length := by
  have hlength := congrArg List.length h.calls
  rw [List.length_map, List.filterMap_append, List.length_append, h.counted] at hlength
  rw [hlength]
  have hbusy := h.busy
  cases hphase : s.phase with
  | reading | quit | eof =>
      rw [hphase] at hbusy
      cases hbusy
      rfl
  | waiting promise =>
      rw [hphase] at hbusy
      obtain ⟨-, line, rfl, hline⟩ := hbusy
      obtain ⟨args, hargs⟩ := Option.isSome_iff_exists.mp hline
      rw [List.filterMap_cons_some hargs]
      rfl
  | aborted =>
      rw [hphase] at hbusy
      obtain ⟨line, rfl, hline⟩ := hbusy
      obtain ⟨args, hargs⟩ := Option.isSome_iff_exists.mp hline
      rw [List.filterMap_cons_some hargs]
      rfl

section Progress

/-- The main thread waits for a reply that its socket can still receive. -/
structure Awaits (s : Cli) (promise : ℕ) : Prop where
  phase : s.phase = .waiting promise
  pending : promise ∉ s.system.resolved.map Prod.fst
  served : ∃ fd args conn, s.system.calls[promise]? = some ⟨fd, args⟩ ∧
    s.system.exec.loop.connections fd = some conn ∧ conn.readRegistered = true ∧
    ∀ v ∈ (s.system.server fd).replies, v.enc.length ≤ Net.defaultBufferSize

theorem isBackground_of_serves {fd : Fd} {act : Act setup.memory Unit}
    (h : System.serves fd act = true) : isBackground act = true := by
  cases act with
  | execute | close => cases h
  | _ => rfl

/-- What the loop and the server do goes on behind the main thread. -/
theorem run_client {fd : Fd} {acts : List (Act setup.memory Unit)} {system : System Unit}
    (hrun : TransitionRun.run (System.serve setup fd) s.system acts = some system) :
    TransitionRun.run (step setup) s (acts.map .client) = some { s with system := system } := by
  induction acts generalizing s with
  | nil =>
      cases hrun
      rfl
  | cons act acts ih =>
      obtain ⟨next, hnext, hrest⟩ := Option.bind_eq_some_iff.mp hrun
      unfold System.serve at hnext
      split at hnext
      · rename_i hserves
        have hact := isBackground_of_serves (Bool.and_eq_true_iff.mp hserves).1
        have hstep : step setup s (.client act) = some { s with system := next } := by
          simp only [step, hact, if_true, hnext, Option.map_some]
        rw [List.map_cons, run_cons hstep]
        exact ih hrest
      · cases hnext

/-- A reply that has arrived is printed. -/
theorem main_reply {promise : ℕ} {v : RESPValue} {memory : Memory} (hok : s.system.Ok memory)
    (hphase : s.phase = .waiting promise) (hv : (promise, .value v) ∈ s.system.resolved) :
    s.main setup =
      some { s with phase := .reading, output := s.output ++ formatResponse 0 v ++ text "\n" } := by
  have hfound : (s.system.resolved.find? (·.1 = promise)) = some (promise, .value v) := by
    have hsome : (s.system.resolved.find? (·.1 = promise)).isSome := by
      rw [List.find?_isSome]
      exact ⟨_, hv, decide_eq_true rfl⟩
    obtain ⟨found, hfound⟩ := Option.isSome_iff_exists.mp hsome
    have hpromise := List.find?_some hfound
    simp only [decide_eq_true_eq] at hpromise
    have hsame := List.inj_on_of_nodup_map hok.held.once.once (List.mem_of_find?_eq_some hfound) hv
      hpromise
    exact hsame ▸ hfound
  unfold main
  rw [hphase]
  dsimp only
  rw [hfound]
  rfl

theorem Session.answered (h : Session setup.memory lines s asked current replies) {promise : ℕ}
    (hawaits : s.Awaits promise) :
    ∃ acts s' v, TransitionRun.run (Cli.step setup) s acts = some s' ∧ s'.phase = .reading ∧
      s'.output = s.output ++ formatResponse 0 v ++ text "\n" ∧ s'.system.Replied promise v := by
  obtain ⟨hphase, hpending, fd, args, conn, hcall, hconn, hread, hfits⟩ := hawaits
  have howner : (s.system.calls.map Call.client)[promise]? = some fd := by
    rw [List.getElem?_map, hcall]
    rfl
  have hheld : promise ∈ (s.system.view fd).held :=
    (h.ok.held.once.covered promise fd howner).resolve_right hpending
  obtain ⟨acts, system, hrun, hok, -, hreplied⟩ :=
    h.ok.exists_replied h.steady hconn hread (h.noClose fd) hfits
  obtain ⟨v, hv, hown⟩ := hreplied promise hheld
  set s' : Cli := { s with
    system := system
    phase := .reading
    output := s.output ++ formatResponse 0 v ++ text "\n" }
  have hmain : Cli.step setup { s with system := system } .main = some s' :=
    main_reply hok hphase hv
  exact ⟨acts.map .client ++ [.main], s', v, run_trans (run_client hrun) (run_cons hmain), rfl, rfl,
    hown⟩

end Progress

/-- In every session in which no reply is torn, the commands are the lines in their order up to the
one that ends it, behind which none is read; each reply on the screen is that to the command whose
prompt it stands behind, and all but the last command have theirs. A reply that the socket can still
receive can always be printed. -/
theorem session_of_reachable (h : Reachable (step setup) (start setup lines) s) :
    (∃ consumed replies, lines = consumed ++ s.input ∧ QuitsLast s.phase consumed ∧
      s.system.calls.map Call.args = consumed.filterMap commandOf ∧
      replies.length + unanswered s.phase = s.system.calls.length ∧
      s.output = transcript consumed replies ++ farewell s.phase ∧
      ∀ k v, replies[k]? = some v → s.system.Replied k v) ∧
    ∀ promise, s.Awaits promise → ∃ acts s' v, run (step setup) s acts = some s' ∧
      s'.phase = .reading ∧ s'.output = s.output ++ formatResponse 0 v ++ text "\n" ∧
      s'.system.Replied promise v := by
  obtain ⟨asked, current, replies, hsession⟩ := h.invariant
    (I := fun s => ∃ asked current replies, Session setup.memory lines s asked current replies)
    (fun _ _ _ ⟨_, _, _, hsession⟩ hstep => hsession.step hstep)
    ⟨_, _, _, session_start setup lines⟩
  refine ⟨⟨asked ++ current, replies, hsession.input, hsession.quits, hsession.calls,
    hsession.length_calls, hsession.output, fun k v hv => ?_⟩,
    fun promise hawaits => hsession.answered hawaits⟩
  exact hsession.ok.own k v (hsession.resolved k v hv)

/-- A blank line, a command, the end and a line that is not read any more. -/
def pingLines : List (List CChar) := [text " ", text " PING ", text "quit", text "GET k"]

def pingSession : List (CliAct System.oneSocket.memory) :=
  [.main, .main, .client (.runTask 5), .client (.handleWrite 5 (.accepted 14)),
    .client (.answer 5 ⟨.integer 7, trivial⟩),
    .client (.handleRead 5 (.bytes (RESPValue.integer 7).enc)), .main, .main]

theorem session_of_reachable_ping :
    ∃ s consumed replies,
      run (step System.oneSocket) (start System.oneSocket pingLines) pingSession = some s ∧
      s.output = text "redis> redis> (integer) 7\n\nredis> Bey.\n" ∧
      s.input = [text "GET k"] ∧ pingLines = consumed ++ s.input ∧ QuitsLast s.phase consumed ∧
      s.system.calls.map Call.args = consumed.filterMap commandOf ∧
      s.output = transcript consumed replies ++ farewell s.phase := by
  have hend : (run (step System.oneSocket) (start System.oneSocket pingLines) pingSession).map
      (fun s => (s.output, s.input)) =
        some (text "redis> redis> (integer) 7\n\nredis> Bey.\n", [text "GET k"]) := by
    decide +kernel
  obtain ⟨s, hs, hparts⟩ := Option.map_eq_some_iff.mp hend
  obtain ⟨houtput, hleft⟩ := Prod.mk.inj hparts
  obtain ⟨⟨consumed, replies, hinput, hquits, hcalls, -, htranscript, -⟩, -⟩ :=
    session_of_reachable ⟨pingSession, hs⟩
  exact ⟨s, consumed, replies, hs, houtput, hleft, hinput, hquits, hcalls, htranscript⟩

end Cli

end SimpleRedis.Redis
