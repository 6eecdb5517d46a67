import SimpleRedis.WriteLife

/-!
# What a closed socket can still do

`closeConnection` forgets a socket: its connection, its events and its queued writes
are gone. The loop does not remember that it was closed. A write task that finds no
connection makes a write-only one, so the socket comes back with the first later write
and with nothing but later writes.
-/
namespace SimpleRedis.Net

open TransitionRun

variable {F : Type*}

/-- The step runs `closeConnection`: a close, an error of a read, or an error of a
write that has bytes to offer. -/
def Op.Closes (old : Option (Connection F)) : Op F → Prop
  | .close _ => True
  | .handleRead _ .error _ => ∃ conn, old = some conn
  | .handleWrite _ .error => ∃ conn, old = some conn ∧ conn.iovs ≠ []
  | _ => False

def Op.RegistersRead (fd : Fd) : Op F → Prop
  | .registerRead fd' _ _ => fd' = fd
  | _ => False

/-- `doAsyncWriteOnce` or `doAsyncWriteBatch` for the socket. -/
def Op.WritesTo (fd : Fd) : Op F → Prop
  | .writeOnce fd' _ _ _ | .writeBatch fd' _ _ _ => fd' = fd
  | _ => False

/-- What has happened since an earlier state. -/
def Execution.since (e' e : Execution F) : List (Effect F) := e'.trace.drop e.trace.length

/-- The writes after a close fail, and the socket stays away. -/
structure Final (fd : Fd) (e e' : Execution F) (later : List (Op F)) : Prop where
  absent : e'.loop.connections fd = none ∧ e'.loop.epoll fd = none
  silent : ∀ bytes, .accepted fd bytes ∉ e'.since e
  failed : ∀ task ∈ later, task.WritesTo fd → ∀ s ∈ task.submissions, ∀ callback,
    s.callback = some callback → .wrote fd callback false ∈ e'.since e

/-- Close is final in every run of a loop. -/
def CloseIsFinal (F : Type*) : Prop :=
  ∀ (e₀ e e' : Execution F) (op : Op F) (later : List (Op F)),
    Reachable Execution.step .fresh e₀ → op.Closes (e₀.loop.connections op.fd) →
    e₀.step op = some e → run Execution.step e later = some e' →
    (∀ task ∈ later, ¬ task.RegistersRead op.fd) → Final op.fd e e' later

/-- A socket that is not read: it has no events without a connection, and with one it
waits for output only. -/
def Unread : Option (Connection F) → Option Interest → Prop
  | none, events => events = none
  | some conn, events => conn.readCb = none ∧ conn.readRegistered = false ∧
      ∀ interest, events = some interest → interest = epollOut

/-- The lives of a descriptor have their accounts, the last one with its connection. -/
structure AccountedAt (old : Option (Connection F)) (lives : Lives F) : Prop where
  ended : ∀ life ∈ lives.ended, life.Ended
  current : ∀ conn, old = some conn → lives.current.Open conn.writeQueue
  closed : old = none → lives.current = {}

/-- What holds after a close until the socket is registered for reading again. -/
structure AfterClose (fd : Fd) (e e' : Execution F) (later : List (Op F)) : Prop where
  untilWritten : (∀ task ∈ later, ¬ task.WritesTo fd) →
    e'.loop.connections fd = none ∧ e'.loop.epoll fd = none ∧
      ∀ effect ∈ e'.since e, effect.fd ≠ fd
  reopened : ∀ task e'', task.WritesTo fd → e'.loop.connections fd = none →
    e'.step task = some e'' →
      (∃ conn, e''.loop.connections fd = some conn ∧
        conn.writeQueue = task.submissions.map (·.entry)) ∧
      e''.loop.epoll fd = some epollOut ∧
      e''.since e' = task.submissions.map (Effect.ofSubmission fd)
  unread : Unread (e'.loop.connections fd) (e'.loop.epoll fd)
  accounted : AccountedAt (e'.loop.connections fd) (livesOf fd (e'.since e))
  submitted : (livesOf fd (e'.since e)).submitted = later.flatMap (·.submittedTo fd)

section Descriptor

variable {old : Option (Connection F)} {events : Option Interest} {fd : Fd} {op : Op F}

theorem Op.Closes.ends (h : op.Closes old) : EndsConnection old op := by
  cases op with
  | close => trivial
  | handleRead fd outcome consumed =>
      cases outcome with
      | error => trivial
      | bytes | zero | again => exact h.elim
  | handleWrite fd outcome =>
      cases outcome with
      | error =>
          obtain ⟨conn, rfl, hiovs⟩ := h
          intro conn' hconn
          cases hconn
          exact hiovs
      | accepted | again => exact h.elim
  | registerRead | writeOnce | writeBatch | registerHighLevel | registerLowLevel
  | registerClose => exact h.elim

theorem stepEvents_closes (h : op.Closes old) : stepEvents old events op = none := by
  cases op with
  | close => rfl
  | handleRead fd outcome consumed =>
      cases outcome with
      | error =>
          obtain ⟨conn, rfl⟩ := h
          rfl
      | bytes | zero | again => exact h.elim
  | handleWrite fd outcome =>
      cases outcome with
      | error =>
          obtain ⟨conn, rfl, hiovs⟩ := h
          simp only [stepEvents, if_neg hiovs]
      | accepted | again => exact h.elim
  | registerRead | writeOnce | writeBatch | registerHighLevel | registerLowLevel
  | registerClose => exact h.elim

/-- Without a connection only a registration or a write does something. -/
theorem stepConnection_absent (hregister : ¬ op.RegistersRead op.fd)
    (hwrite : ¬ op.WritesTo op.fd) : stepConnection none op = (none, []) := by
  cases op with
  | registerRead => exact absurd rfl hregister
  | writeOnce | writeBatch => exact absurd rfl hwrite
  | registerHighLevel | registerLowLevel | registerClose | handleRead | handleWrite | close => rfl

/-- A write task never asks for input on a socket that is not read. -/
theorem unread_stepWrite (h : Unread old events) (socket : Socket)
    {enqueue : Connection F → Connection F × List (Effect F)}
    (hkeep : ∀ conn, (enqueue conn).1.readSide = conn.readSide) :
    Unread (stepWrite fd old socket enqueue).1 (writeEvents old events) := by
  have hside := (Connection.readSide_checkHighLevel fd
    (enqueue (old.getD (Connection.writeOnly socket))).1).trans (hkeep _)
  simp only [Connection.readSide, Prod.mk.injEq] at hside
  obtain ⟨hcb, -, hregistered, -⟩ := hside
  cases old with
  | none =>
      have hevents : events = none := h
      refine ⟨hcb, hregistered, fun interest hinterest => ?_⟩
      rw [writeEvents, hevents] at hinterest
      exact (Option.some.inj hinterest).symm
  | some conn =>
      obtain ⟨hnone, hunread, houtput⟩ := h
      refine ⟨hcb.trans hnone, hregistered.trans hunread, fun interest hinterest => ?_⟩
      simp only [writeEvents, hunread] at hinterest
      split at hinterest
      · exact houtput interest hinterest
      · obtain ⟨-, -, rfl⟩ := Option.map_eq_some_iff.mp hinterest
        rfl

/-- Storing a callback changes nothing that is read. -/
theorem unread_map (h : Unread old events) {f : Connection F → Connection F}
    (hkeep : ∀ conn, (f conn).readSide = conn.readSide) : Unread (old.map f) events := by
  cases old with
  | none => exact h
  | some conn =>
      obtain ⟨hnone, hunread, houtput⟩ := h
      have hside := hkeep conn
      simp only [Connection.readSide, Prod.mk.injEq] at hside
      exact ⟨hside.1.trans hnone, hside.2.2.1.trans hunread, houtput⟩

/-- A socket that is not read stays so until it is registered for reading. -/
theorem Unread.step (h : Unread old events) (hregister : ¬ op.RegistersRead op.fd) :
    Unread (stepConnection old op).1 (stepEvents old events op) := by
  cases op with
  | registerRead => exact absurd rfl hregister
  | writeOnce fd socket callback buf => exact unread_stepWrite h socket fun _ => rfl
  | writeBatch fd socket callbacks bufs =>
      exact unread_stepWrite h socket fun conn =>
        Connection.readSide_enqueueBatch fd conn callbacks 0 bufs
  | registerHighLevel | registerLowLevel | registerClose => exact unread_map h fun _ => rfl
  | handleRead fd outcome consumed =>
      cases old with
      | none => exact h
      | some conn =>
          obtain ⟨hnone, hunread, houtput⟩ := h
          cases outcome with
          | bytes chunk =>
              refine ⟨(Connection.readCb_receive fd conn chunk consumed).trans hnone, ?_, houtput⟩
              simp only [Connection.receive, hnone]
              exact hunread
          | zero =>
              refine ⟨hnone, rfl, fun interest hinterest => ?_⟩
              simp only [stepEvents] at hinterest
              split at hinterest
              · obtain ⟨-, -, rfl⟩ := Option.map_eq_some_iff.mp hinterest
                rfl
              · cases hinterest
          | again => exact ⟨hnone, hunread, houtput⟩
          | error => exact rfl
  | handleWrite fd outcome =>
      cases old with
      | none => exact h
      | some conn =>
          obtain ⟨hnone, hunread, houtput⟩ := h
          by_cases hiovs : conn.iovs = []
          · simp only [stepConnection, stepEvents, if_pos hiovs]
            exact ⟨hnone, hunread, houtput⟩
          · cases outcome with
            | accepted n =>
                have hside := Connection.readSide_checkLowLevel fd (conn.sent n)
                simp only [Connection.readSide, Prod.mk.injEq] at hside
                simp only [stepConnection, stepEvents, if_neg hiovs]
                refine ⟨hside.1.trans hnone, hside.2.2.1.trans hunread,
                  fun interest hinterest => houtput interest ?_⟩
                split at hinterest
                · have hsent : (conn.sent n).readRegistered = false := hunread
                  simp [EventLoopThread.drainedEvents, hsent] at hinterest
                · exact hinterest
            | again =>
                simp only [stepConnection, stepEvents, if_neg hiovs]
                exact ⟨hnone, hunread, houtput⟩
            | error =>
                simp only [stepConnection, stepEvents, if_neg hiovs]
                rfl
  | close fd => cases old <;> rfl

/-- A connection that a write task has made calls no one. -/
theorem checkHighLevel_writeOnly {conn : Connection F} (h : conn.highLevelCallback = none) :
    (conn.checkHighLevel fd).2 = [] := by
  unfold Connection.checkHighLevel
  split
  · simp only [h]
  · rfl

theorem highLevelCallback_enqueueBatch (conn : Connection F) (f : F) (i : ℕ)
    (bufs : List (List CChar)) :
    (conn.enqueueBatch fd f i bufs).1.highLevelCallback = conn.highLevelCallback := by
  induction bufs generalizing conn i with
  | nil => rfl
  | cons buf bufs ih => exact ih (conn.enqueue fd (some (.batch f i)) buf).1 (i + 1)

theorem stepWrite_reopens (socket : Socket)
    (enqueue : Connection F → Connection F × List (Effect F)) {submissions : List (Submission F)}
    (hqueue : (enqueue (Connection.writeOnly socket)).1.writeQueue = submissions.map (·.entry))
    (hcallback : (enqueue (Connection.writeOnly socket)).1.highLevelCallback = none)
    (heffects : (enqueue (Connection.writeOnly socket)).2 =
      submissions.map (Effect.ofSubmission fd)) :
    (∃ conn, (stepWrite fd none socket enqueue).1 = some conn ∧
      conn.writeQueue = submissions.map (·.entry)) ∧
    (stepWrite fd none socket enqueue).2 = submissions.map (Effect.ofSubmission fd) := by
  constructor
  · exact ⟨_, rfl, (Connection.writeQueue_checkHighLevel fd _).trans hqueue⟩
  · simp only [stepWrite, Option.getD_none]
    rw [checkHighLevel_writeOnly hcallback, heffects]
    exact List.append_nil _

/-- A write task that finds no connection makes one with its own buffers. -/
theorem stepConnection_reopens (hwrite : op.WritesTo fd) :
    (∃ conn, (stepConnection none op).1 = some conn ∧
      conn.writeQueue = op.submissions.map (·.entry)) ∧
    (stepConnection none op).2 = op.submissions.map (Effect.ofSubmission fd) := by
  cases op with
  | writeOnce fd' socket callback buf =>
      cases (show fd' = fd from hwrite)
      exact stepWrite_reopens socket (fun conn => conn.enqueue fd (callback.map .once) buf) rfl rfl
        rfl
  | writeBatch fd' socket callbacks bufs =>
      cases (show fd' = fd from hwrite)
      obtain ⟨hqueue, heffects⟩ :=
        @enqueueBatch_eq F (Connection.writeOnly socket) fd callbacks 0 bufs
      exact stepWrite_reopens socket (fun conn => conn.enqueueBatch fd callbacks 0 bufs) hqueue
        (highLevelCallback_enqueueBatch _ _ _ _) heffects
  | registerRead | registerHighLevel | registerLowLevel | registerClose | handleRead | handleWrite
  | close => exact hwrite.elim

theorem stepEvents_reopens (hwrite : op.WritesTo fd) :
    stepEvents (none : Option (Connection F)) none op = some epollOut := by
  cases op with
  | writeOnce | writeBatch => rfl
  | registerRead | registerHighLevel | registerLowLevel | registerClose | handleRead | handleWrite
  | close => exact hwrite.elim

end Descriptor

section Lives

variable {old : Option (Connection F)} {lives : Lives F}

theorem KeptAt.accounted (h : KeptAt old lives) : AccountedAt old lives :=
  ⟨h.ended, fun conn hconn => (h.kept conn hconn).open', h.closed⟩

end Lives

/-- The invariant behind a close. -/
structure Since (fd : Fd) (e e' : Execution F) (later : List (Op F)) : Prop where
  plain : e'.loop.Plain
  grown : e.trace <+: e'.trace
  unread : Unread (e'.loop.connections fd) (e'.loop.epoll fd)
  kept : KeptAt (e'.loop.connections fd) (livesOf fd (e'.since e))
  submitted : (livesOf fd (e'.since e)).submitted = later.flatMap (·.submittedTo fd)
  untilWritten : (∀ task ∈ later, ¬ task.WritesTo fd) →
    e'.loop.connections fd = none ∧ ∀ effect ∈ e'.since e, effect.fd ≠ fd

section Runs

variable {e e' e'' : Execution F} {fd : Fd} {op : Op F} {later : List (Op F)}

theorem since_append {effects : List (Effect F)} (hgrown : e.trace <+: e'.trace)
    (htrace : e''.trace = e'.trace ++ effects) : e''.since e = e'.since e ++ effects := by
  rw [Execution.since, htrace, List.drop_append_of_le_length hgrown.length_le]
  rfl

/-- The close itself. -/
theorem since_close (hs : e.loop.Plain) (hcloses : op.Closes (e.loop.connections op.fd))
    (hstep : e.step op = some e') : Since op.fd e' e' [] := by
  obtain ⟨-, hloop, -⟩ := Execution.step_eq_some hstep
  rw [EventLoopThread.exec_put op (hs.plainAt op.fd), stepConnection_ends hcloses.ends,
    stepEvents_closes hcloses] at hloop
  have hsince : e'.since e' = [] := List.drop_length
  have hconn : e'.loop.connections op.fd = none := by
    rw [hloop, EventLoopThread.connections_put]
  refine ⟨hloop ▸ hs.put _ _ _, List.prefix_rfl, ?_, ?_, ?_, fun _ => ⟨hconn, ?_⟩⟩
  · rw [hconn, hloop, EventLoopThread.epoll_put]
    exact rfl
  · rw [hsince, hconn]
    exact ⟨List.forall_mem_nil _, nofun, fun _ => rfl⟩
  · rw [hsince]
    rfl
  · rw [hsince]
    exact List.forall_mem_nil _

theorem Since.step (h : Since fd e e' later) (hstep : e'.step op = some e'')
    (hregister : ¬ op.RegistersRead fd) : Since fd e e'' (later ++ [op]) := by
  obtain ⟨hpossible, hloop, htrace⟩ := Execution.step_eq_some hstep
  have hsince := since_append h.grown htrace
  have hgrown : e.trace <+: e''.trace := h.grown.trans ⟨_, htrace.symm⟩
  obtain ⟨new, -, -, rfl, hmove⟩ := EventLoopThread.exec_move (h.plain.plainAt op.fd) hpossible
  rw [EventLoopThread.exec_put op (h.plain.plainAt op.fd)] at hloop
  have hplain : e''.loop.Plain := hloop ▸ h.plain.put _ _ _
  have hall : ∀ {P : Op F → Prop}, (∀ task ∈ later ++ [op], P task) →
      (∀ task ∈ later, P task) ∧ P op := fun hP =>
    ⟨fun task ht => hP task (List.mem_append_left _ ht),
      hP op (List.mem_append_right _ (List.mem_singleton_self op))⟩
  have hsubmitted : (livesOf fd (e''.since e)).submitted =
      (later ++ [op]).flatMap (·.submittedTo fd) := by
    rw [hsince, hmove.submitted_append, h.submitted, flatMap_submittedTo]
  by_cases hfd : op.fd = fd
  · subst hfd
    have hconn : e''.loop.connections op.fd =
        (stepConnection (e'.loop.connections op.fd) op).1 := by
      rw [hloop, EventLoopThread.connections_put]
    have hlives : livesOf op.fd (e''.since e) =
        (e'.loop.exec op).2.foldl Lives.observe (livesOf op.fd (e'.since e)) := by
      rw [hsince, livesOf_append_self hmove.fd_eq]
    refine ⟨hplain, hgrown, ?_, ?_, hsubmitted, fun hnone => ?_⟩
    · rw [hconn, hloop, EventLoopThread.epoll_put]
      exact h.unread.step hregister
    · rw [hconn, hlives]
      exact hmove.kept h.kept
    · obtain ⟨hlater, hwrite⟩ := hall hnone
      obtain ⟨habsent, hquiet⟩ := h.untilWritten hlater
      have hstepped := stepConnection_absent hregister hwrite
      rw [hconn, hsince, EventLoopThread.exec_effects _ (h.plain.plainAt _), habsent, hstepped]
      exact ⟨rfl, by simpa using hquiet⟩
  · have hne : fd ≠ op.fd := fun heq => hfd heq.symm
    have hother : ∀ effect ∈ (e'.loop.exec op).2, effect.fd ≠ fd :=
      fun effect heffect heq => hfd ((hmove.fd_eq effect heffect).symm.trans heq)
    have hconn : e''.loop.connections fd = e'.loop.connections fd := by
      rw [hloop, EventLoopThread.connections_put_of_ne _ _ _ _ hne]
    have hlives : livesOf fd (e''.since e) = livesOf fd (e'.since e) := by
      rw [hsince, livesOf_append_other hother]
    refine ⟨hplain, hgrown, ?_, ?_, hsubmitted, fun hnone => ?_⟩
    · rw [hconn, hloop, EventLoopThread.epoll_put_of_ne _ _ _ _ hne]
      exact h.unread
    · rw [hconn, hlives]
      exact h.kept
    · obtain ⟨habsent, hquiet⟩ := h.untilWritten (hall hnone).1
      rw [hconn, hsince]
      exact ⟨habsent, List.forall_mem_append.mpr ⟨hquiet, hother⟩⟩

theorem Since.run (h : Since fd e e' []) (hrun : run Execution.step e' later = some e'')
    (hregister : ∀ op ∈ later, ¬ op.RegistersRead fd) : Since fd e e'' later := by
  have hpast := run_history
    (H := fun past e'' => (∀ op ∈ past, ¬ op.RegistersRead fd) → Since fd e e'' past)
    (fun past s op s' hs hstep hall => ?_) (fun _ => h) hrun
  · exact hpast hregister
  · obtain ⟨hbefore, hop⟩ := List.forall_mem_append.mp hall
    exact (hs hbefore).step hstep (hop op (List.mem_singleton_self op))

/-- What the invariant says, with the next write task. -/
theorem Since.afterClose (h : Since fd e e' later) : AfterClose fd e e' later where
  untilWritten hnone := by
    obtain ⟨habsent, hquiet⟩ := h.untilWritten hnone
    have hunread := h.unread
    rw [habsent] at hunread
    exact ⟨habsent, hunread, hquiet⟩
  reopened task e'' hwrite habsent hstep := by
    have hfd : task.fd = fd := by
      cases task <;> first | exact hwrite | exact hwrite.elim
    subst hfd
    obtain ⟨-, hloop, htrace⟩ := Execution.step_eq_some hstep
    have hunread := h.unread
    have hsince : e''.since e' = (e'.loop.exec task).2 := by
      rw [Execution.since, htrace, List.drop_left]
    rw [EventLoopThread.exec_put _ (h.plain.plainAt _)] at hloop
    rw [habsent] at hunread hloop
    have hevents : e'.loop.epoll task.fd = none := hunread
    rw [hevents] at hloop
    rw [hsince, EventLoopThread.exec_effects _ (h.plain.plainAt _), habsent, hloop,
      EventLoopThread.connections_put, EventLoopThread.epoll_put]
    obtain ⟨hconn, heffects⟩ := stepConnection_reopens hwrite
    exact ⟨hconn, stepEvents_reopens hwrite, heffects⟩
  unread := h.unread
  accounted := h.kept.accounted
  submitted := h.submitted

end Runs

/-- After `closeConnection` has run for a socket, and until the socket is registered for
reading again, only write tasks bring it back, and only what they submit is written. -/
theorem afterClose_of_run {e₀ e e' : Execution F} (op : Op F) {later : List (Op F)}
    (h : Reachable Execution.step .fresh e₀) (hcloses : op.Closes (e₀.loop.connections op.fd))
    (hstep : e₀.step op = some e) (hrun : run Execution.step e later = some e')
    (hregister : ∀ task ∈ later, ¬ task.RegistersRead op.fd) : AfterClose op.fd e e' later := by
  have hkept : AllKept e₀ := h.invariant (fun _ _ _ he => allKept_step he) allKept_fresh
  have hsince := (since_close hkept.plain hcloses hstep).run hrun hregister
  exact hsince.afterClose

/-- A client sends a request and then closes its side, and the server closes. -/
def requestRun : List (Op Unit) :=
  [.registerRead 3 0 (some ()), .handleRead 3 (.bytes [1]) 1, .handleRead 3 .zero 0]

/-- The response of a worker reaches the loop only then. -/
def lateWrites : List (Op Unit) := [.writeOnce 3 0 (some ()) [7], .handleWrite 3 (.accepted 1)]

theorem run_lateWrites : ∃ e₀ e e' : Execution Unit,
    run Execution.step .fresh requestRun = some e₀ ∧ e₀.step (.close 3) = some e ∧
      run Execution.step e lateWrites = some e' ∧ (e'.loop.connections 3).isSome = true := by
  have hrun : ((run Execution.step (.fresh : Execution Unit) requestRun).bind fun e₀ =>
      (e₀.step (.close 3)).bind fun e => (run Execution.step e lateWrites).map fun e' =>
        (e'.loop.connections 3).isSome) = some true := by decide +kernel
  obtain ⟨e₀, h₀, hrest⟩ := Option.bind_eq_some_iff.mp hrun
  obtain ⟨e, he, hrest⟩ := Option.bind_eq_some_iff.mp hrest
  obtain ⟨e', he', hsome⟩ := Option.map_eq_some_iff.mp hrest
  exact ⟨e₀, e, e', h₀, he, he', hsome⟩

theorem lateWrites_unread : ∀ task ∈ lateWrites, ¬ task.RegistersRead 3 := by
  simp [lateWrites, Op.RegistersRead]

theorem not_closeIsFinal : ¬ CloseIsFinal Unit := by
  intro hfinal
  obtain ⟨e₀, e, e', h₀, he, he', hsome⟩ := run_lateWrites
  obtain ⟨habsent, -⟩ :=
    (hfinal e₀ e e' (.close 3) lateWrites ⟨requestRun, h₀⟩ trivial he he' lateWrites_unread).absent
  rw [show e'.loop.connections 3 = none from habsent] at hsome
  cases hsome

theorem afterClose_lateWrites : ∃ e₀ e e' : Execution Unit,
    run Execution.step .fresh requestRun = some e₀ ∧ e₀.step (.close 3) = some e ∧
      run Execution.step e lateWrites = some e' ∧ AfterClose 3 e e' lateWrites := by
  obtain ⟨e₀, e, e', h₀, he, he', -⟩ := run_lateWrites
  exact ⟨e₀, e, e', h₀, he, he',
    afterClose_of_run (.close 3) ⟨requestRun, h₀⟩ trivial he he' lateWrites_unread⟩

end SimpleRedis.Net
