import SimpleRedis.RedisChannel

/-!
# Who holds a promise

From the call of `execute` to the moment it is resolved a promise is held in one place
of its socket: in a task, in the callback of a queued write or among the promises that
wait for a reply. Every step of the client keeps this, whatever bytes its peer sends.
-/
namespace SimpleRedis.Redis

open Net Resp TransitionRun Custody

/-- A submission is the write of some call of `execute`. -/
def IsWrite (fd : Fd) (s : Submission Closure) : Prop :=
  ∃ promise args, s = command fd promise args

theorem IsCommand.isWrite {calls : List Call} {fd : Fd} {s : Submission Closure}
    (h : IsCommand calls fd s) : IsWrite fd s := by
  obtain ⟨promise, args, -, rfl⟩ := h
  exact ⟨promise, args, rfl⟩

/-- The closures of a connection are those of its own socket. -/
structure Wired (fd : Fd) (conn : Option (Connection Closure)) : Prop where
  writes : ∀ x ∈ (queueOf conn).map (·.submission), IsWrite fd x
  reads : ∀ c closure, conn = some c → c.readCb = some closure → closure = .read fd

/-- A registration alone gives a connection another read callback. -/
theorem Wired.reads_stepConnection {fd : Fd} {old : Option (Connection Closure)} (h : Wired fd old)
    {op : Op Closure} (hregister : op.setsReadCb = false) :
    ∀ c closure, (stepConnection old op).1 = some c → c.readCb = some closure →
      closure = .read fd := by
  intro c closure hc hclosure
  cases hbytes : op.readsBytes with
  | false =>
      obtain ⟨conn, hconn, hcb, -⟩ :=
        keepsReading_stepConnection hregister hbytes c closure hc hclosure
      exact h.reads conn closure hconn hcb
  | true =>
      obtain ⟨fd', chunk, consumed, rfl⟩ := Op.eq_of_readsBytes hbytes
      cases old with
      | none => cases hc
      | some conn =>
          cases hc
          rw [Connection.readCb_receive] at hclosure
          exact h.reads conn closure rfl hclosure

namespace System

variable {Θ : Type*} {s s' : System Θ} {fd : Fd}

def view (s : System Θ) (fd : Fd) : View where
  conn := s.exec.loop.connections fd
  lives := livesOf fd s.exec.trace
  tasks := s.tasks fd
  channel := s.clients fd
  server := s.server fd

/-- The promises of writes that have failed, with their outcome. -/
def failed (promises : List ℕ) : List (ℕ × Outcome) := promises.map (·, .writeError)

section Deliver

variable {submissions : List (Submission Closure)} {effects : List (Effect Closure)}

theorem foldl_deliver_quiet (h : ∀ effect ∈ effects, effect.Quiet fd) :
    effects.foldl deliver s = s := by
  induction effects with
  | nil => rfl
  | cons effect effects ih =>
      obtain ⟨⟨-, hquiet⟩, hrest⟩ := List.forall_mem_cons.mp h
      have hfirst : s.deliver effect = s := by
        cases effect with
        | queued | accepted | wrote | closed => cases hquiet
        | read | highLevel | lowLevel | closing | accept | timer => rfl
      rw [List.foldl_cons, hfirst]
      exact ih hrest

theorem foldl_deliver_ofSubmission :
    (submissions.map (Effect.ofSubmission fd)).foldl deliver s = s := by
  induction submissions with
  | nil => rfl
  | cons x submissions ih => exact ih

/-- Written commands queue their promises. -/
theorem foldl_deliver_done (h : ∀ x ∈ submissions, IsWrite fd x) :
    ((callsOf true submissions).map (Effect.ofCall fd)).foldl deliver s =
      s.setPromises fd ((s.clients fd).promises ++ submissions.map promiseOf) := by
  induction submissions generalizing s with
  | nil => simp [callsOf, setPromises]
  | cons x submissions ih =>
      obtain ⟨⟨promise, args, rfl⟩, hrest⟩ := List.forall_mem_cons.mp h
      have hfirst : ((callsOf true (command fd promise args :: submissions)).map
          (Effect.ofCall fd)).foldl deliver s =
          ((callsOf true submissions).map (Effect.ofCall fd)).foldl deliver
            (s.setPromises fd ((s.clients fd).promises ++ [promise])) := rfl
      rw [hfirst, ih hrest]
      simp [setPromises]

/-- Commands that are given up fail their promises. -/
theorem foldl_deliver_failed (h : ∀ x ∈ submissions, IsWrite fd x) :
    ((callsOf false submissions).map (Effect.ofCall fd)).foldl deliver s =
      { s with resolved := s.resolved ++ failed (submissions.map promiseOf) } := by
  induction submissions generalizing s with
  | nil => simp [callsOf, failed]
  | cons x submissions ih =>
      obtain ⟨⟨promise, args, rfl⟩, hrest⟩ := List.forall_mem_cons.mp h
      have hfirst : ((callsOf false (command fd promise args :: submissions)).map
          (Effect.ofCall fd)).foldl deliver s =
          ((callsOf false submissions).map (Effect.ofCall fd)).foldl deliver
            { s with resolved := s.resolved ++ [(promise, .writeError)] } := rfl
      rw [hfirst, ih hrest]
      simp [failed]

/-- `writev` has taken bytes and finished the entries of `moved`. -/
theorem foldl_deliver_sent {conn : Connection Closure} {n : ℕ} {moved : List (Submission Closure)}
    (hmoved : conn.writeQueue.map (·.submission) =
      moved ++ (Connection.finish n conn.writeQueue).1.map (·.submission))
    (hcalls : (Connection.finish n conn.writeQueue).2.map (·, true) = callsOf true moved)
    (hwrites : ∀ x ∈ conn.writeQueue.map (·.submission), IsWrite fd x)
    (hquiet : ∀ effect ∈ effects, effect.Quiet fd) (bytes : List CChar) :
    (Effect.accepted fd bytes :: (((Connection.finish n conn.writeQueue).2.map (·, true)).map
        (Effect.ofCall fd) ++ effects)).foldl deliver s =
      s.setPromises fd ((s.clients fd).promises ++ moved.map promiseOf) := by
  rw [List.foldl_cons, List.foldl_append, hcalls, foldl_deliver_quiet hquiet]
  refine foldl_deliver_done fun x hx => hwrites x ?_
  rw [hmoved]
  exact List.mem_append_left _ hx

/-- A connection has ended, and its entries have failed. -/
theorem foldl_deliver_ended {before after : List (Effect Closure)}
    (hbefore : ∀ effect ∈ before, effect.Quiet fd) (hafter : ∀ effect ∈ after, effect.Quiet fd)
    (hwrites : ∀ x ∈ submissions, IsWrite fd x) :
    (before ++ (callsOf false submissions).map (Effect.ofCall fd) ++ after ++
        [Effect.closed fd]).foldl deliver s =
      { s with resolved := s.resolved ++ failed (submissions.map promiseOf) } := by
  rw [List.foldl_append, List.foldl_append, List.foldl_append, foldl_deliver_quiet hbefore,
    foldl_deliver_failed hwrites, foldl_deliver_quiet hafter]
  rfl

end Deliver

section Views

theorem view_setPromises (promises : List ℕ) :
    (s.setPromises fd promises).view fd =
      { s.view fd with channel := { (s.view fd).channel with promises := promises } } := by
  simp [view, setPromises]

theorem view_setPromises_of_ne (promises : List ℕ) {fd' : Fd} (h : fd' ≠ fd) :
    (s.setPromises fd promises).view fd' = s.view fd' := by
  simp [view, setPromises, Function.update_of_ne h]

/-- A new task of a socket. -/
theorem view_setTasks (tasks : List Task) :
    (s.setTasks fd tasks).view fd = { s.view fd with tasks := tasks } := by
  simp [view, setTasks]

theorem view_setTasks_of_ne (tasks : List Task) {fd' : Fd} (h : fd' ≠ fd) :
    (s.setTasks fd tasks).view fd' = s.view fd' := by
  simp [view, setTasks, Function.update_of_ne h]

theorem postedPromises_append (tasks : List Task) (task : Task) :
    postedPromises (tasks ++ [task]) = postedPromises tasks ++ task.promise.toList := by
  cases task <;> simp [postedPromises, Task.promise]

@[simp] theorem setTasks_self (s : System Θ) (fd : Fd) : s.setTasks fd (s.tasks fd) = s := by
  simp [setTasks]

variable {server : Server}

theorem view_setServer : (s.setServer fd server).view fd = { s.view fd with server := server } := by
  simp [view, setServer]

theorem view_setServer_of_ne {fd' : Fd} (h : fd' ≠ fd) :
    (s.setServer fd server).view fd' = s.view fd' := by
  simp [view, setServer, Function.update_of_ne h]

theorem view_finishRead (r : ReadResult ℕ) :
    (s.finishRead fd r).view fd =
      { s.view fd with channel := { (s.view fd).channel with promises := r.promises } } :=
  view_setPromises (s := s) r.promises

theorem view_finishRead_of_ne (r : ReadResult ℕ) {fd' : Fd} (h : fd' ≠ fd) :
    (s.finishRead fd r).view fd' = s.view fd' := view_setPromises_of_ne (s := s) r.promises h

/-- The end of the stream calls `ClientImpl::read` with no bytes, which does nothing. -/
theorem finishRead_nothing (s : System Θ) (fd : Fd) :
    s.finishRead fd ⟨0, (s.clients fd).promises, [], false⟩ = s := by
  simp [finishRead, setPromises]

theorem read_nothing (memory : Memory) (promises : List ℕ) (buf : List CChar) :
    read memory promises buf 0 = some ⟨0, promises, [], false⟩ := by
  rw [read, readLoop, if_neg (Nat.lt_irrefl 0)]

end Views

section Events

/-- The end of the stream changes nothing in the client. -/
theorem handleRead_zero (memory : Memory) :
    s.handleRead memory fd .zero = s.run (.handleRead fd .zero 0) := by
  unfold System.handleRead readCall
  cases s.exec.loop.connections fd with
  | none => rfl
  | some conn =>
      cases hcb : conn.readCb with
      | none => simp only [Option.bind_some, hcb]
      | some closure =>
          cases closure with
          | written => simp only [Option.bind_some, hcb]
          | read client =>
              simp only [Option.bind_some, hcb, read_nothing, finishRead_nothing]

/-- A read that gives nothing calls no callback. -/
theorem handleRead_nothing (memory : Memory) {outcome : ReadOutcome}
    (h : outcome = .again ∨ outcome = .error) :
    s.handleRead memory fd outcome = s.run (.handleRead fd outcome 0) := by
  have hcall : s.readCall fd outcome = none := by
    unfold readCall
    cases s.exec.loop.connections fd with
    | none => rfl
    | some conn => rcases h with rfl | rfl <;> simp
  rw [System.handleRead, hcall]

end Events

/-- `base` is the system behind a step of a loop, before the callbacks have run. -/
structure Ran (s base : System Θ) (fd : Fd) (tasks : List Task) (new : Option (Connection Closure))
    (effects : List (Effect Closure)) : Prop where
  kept : AllKept base.exec
  calls : base.calls = s.calls
  resolved : base.resolved = s.resolved
  starved : base.starved = s.starved
  view : base.view fd = { s.view fd with
    conn := new
    lives := effects.foldl Lives.observe (s.view fd).lives
    tasks := tasks }
  other : ∀ fd', fd' ≠ fd → base.view fd' = s.view fd'

/-- A step of the loop, seen from its descriptor. -/
theorem ran_exec (hs : AllKept s.exec) {op : Op Closure} (tasks : List Task)
    {exec : Execution Closure} (hstep : s.exec.step op = some exec) :
    s.Ran { s.setTasks op.fd tasks with exec := exec } op.fd tasks
        (stepConnection (s.view op.fd).conn op).1 (s.exec.loop.exec op).2 ∧
      Move op.fd op.submissions (s.view op.fd).conn
        (stepConnection (s.view op.fd).conn op).1 (s.exec.loop.exec op).2 := by
  obtain ⟨hpossible, hloop, htrace⟩ := Execution.step_eq_some hstep
  obtain ⟨new, events, hput, rfl, hmove⟩ :=
    EventLoopThread.exec_move (hs.plain.plainAt op.fd) hpossible
  rw [hput] at hloop
  refine ⟨⟨allKept_step hs hstep, rfl, rfl, rfl, ?_, fun fd' hfd => ?_⟩, hmove⟩
  · simp only [view, setTasks, hloop, htrace, EventLoopThread.connections_put,
      livesOf_append_self hmove.fd_eq, Function.update_self]
  · have hlives : livesOf fd' (s.exec.trace ++ (s.exec.loop.exec op).2) =
        livesOf fd' s.exec.trace :=
      livesOf_append_other fun effect heffect heq =>
        hfd (heq.symm.trans (hmove.fd_eq effect heffect))
    simp only [view, setTasks, hloop, htrace, EventLoopThread.connections_put_of_ne _ _ _ _ hfd,
      hlives, Function.update_of_ne hfd]

/-- A step of the loop, and then its callbacks. -/
theorem ran_run (hs : AllKept s.exec) (op : Op Closure) {tasks : List Task}
    (hrun : (s.setTasks op.fd tasks).run op = some s') :
    ∃ base effects, s' = effects.foldl deliver base ∧
      effects = (stepConnection (s.view op.fd).conn op).2 ∧
      s.Ran base op.fd tasks (stepConnection (s.view op.fd).conn op).1 effects ∧
      Move op.fd op.submissions (s.view op.fd).conn
        (stepConnection (s.view op.fd).conn op).1 effects := by
  obtain ⟨exec, hstep, rfl⟩ := Option.map_eq_some_iff.mp hrun
  exact ⟨_, _, rfl, (EventLoopThread.exec_refines op (hs.plain.plainAt op.fd)).2,
    ran_exec hs tasks hstep⟩

/-- Every promise is held in one place until it is resolved. -/
structure Held (s : System Θ) : Prop where
  kept : AllKept s.exec
  wired : ∀ fd, Wired fd (s.view fd).conn
  once : Once (fun fd => (s.view fd).held) (s.calls.map Call.client) (s.resolved.map Prod.fst)

section Moves

variable {base : System Θ} {tasks : List Task} {new : Option (Connection Closure)}
  {effects : List (Effect Closure)} {submissions : List (Submission Closure)}

/-- A step at one socket that resolves the promises of `out`. -/
theorem Held.update (h : s.Held) (fd : Fd) (out : List (ℕ × Outcome)) (hkept : AllKept s'.exec)
    (hcalls : s'.calls = s.calls) (hresolved : s'.resolved = s.resolved ++ out)
    (hother : ∀ fd', fd' ≠ fd → s'.view fd' = s.view fd') (hwired : Wired fd (s'.view fd).conn)
    (hheld : (s.view fd).held.Perm (out.map Prod.fst ++ (s'.view fd).held)) : s'.Held := by
  refine ⟨hkept, fun fd' => ?_, ?_⟩
  · by_cases hfd : fd' = fd
    · rwa [hfd]
    · rw [hother fd' hfd]
      exact h.wired fd'
  · rw [hcalls, hresolved, List.map_append]
    refine h.once.settle hheld fun fd' hfd => ?_
    rw [hother fd' hfd]

/-- The callbacks of a move hand promises on. The promise of a command that is queued
comes from the task. -/
theorem Held.move (h : s.Held) (hran : s.Ran base fd tasks new effects)
    (hmove : Move fd submissions (s.view fd).conn new effects)
    (hreads : ∀ c closure, new = some c → c.readCb = some closure → closure = .read fd)
    (hwrites : ∀ x ∈ submissions, IsWrite fd x)
    (hposted : postedPromises (s.view fd).tasks =
      submissions.map promiseOf ++ postedPromises tasks) : (effects.foldl deliver base).Held := by
  have hview := hran.view
  have hold := (h.wired fd).writes
  cases hmove with
  | quiet hnone hqueue hkeep heffects =>
      rw [foldl_deliver_quiet heffects]
      refine h.update fd [] hran.kept hran.calls (hran.resolved.trans (List.append_nil _).symm)
        hran.other ?_ ?_
      · rw [hview]
        exact ⟨by rw [hqueue]; exact hold, hreads⟩
      · rw [hview]
        simp only [View.held, hqueue, hposted, hnone, List.map_nil, List.nil_append]
        exact List.Perm.refl _
  | @queued conn' rest hqueue hrest =>
      rw [List.foldl_append, foldl_deliver_ofSubmission, foldl_deliver_quiet hrest]
      have hnew : queueOf (some conn') = queueOf (s.view fd).conn ++ submissions.map (·.entry) :=
        hqueue
      have hentries : (submissions.map (·.entry)).map (·.submission) = submissions := by
        rw [List.map_map]
        exact List.map_id _
      refine h.update fd [] hran.kept hran.calls (hran.resolved.trans (List.append_nil _).symm)
        hran.other ?_ ?_
      · rw [hview]
        refine ⟨?_, hreads⟩
        rw [hnew, List.map_append, hentries]
        exact List.forall_mem_append.mpr ⟨hold, hwrites⟩
      · rw [hview]
        simp only [View.held, hposted, hnew, queuedPromises, List.map_append, hentries,
          List.append_assoc, List.map_nil, List.nil_append]
        exact List.Perm.refl _
  | @sent conn conn' rest n hnone hconn hn hqueue hrest =>
      rw [hconn] at hold
      obtain ⟨moved, hmoved, hcalls, -, -⟩ := finish_spec n ((h.kept.kept fd).kept conn hconn).tail
      have hmoved' : (queueOf (some conn)).map (·.submission) =
          moved ++ (queueOf (some conn')).map (·.submission) := by
        rw [queueOf, Option.elim, queueOf, Option.elim, hqueue]
        exact hmoved
      have hpromises : (base.clients fd).promises = (s.view fd).channel.promises :=
        congrArg (fun v : View => v.channel.promises) hview
      rw [foldl_deliver_sent hmoved hcalls hold hrest]
      refine h.update fd [] hran.kept hran.calls (hran.resolved.trans (List.append_nil _).symm)
        (fun fd' hfd => (view_setPromises_of_ne _ hfd).trans (hran.other fd' hfd)) ?_ ?_
      · rw [view_setPromises, hview]
        refine ⟨fun x hx => hold x ?_, hreads⟩
        rw [hmoved']
        exact List.mem_append_right _ hx
      · rw [view_setPromises, hview, hpromises]
        simp only [View.held, hposted, hnone, hconn, queuedPromises, hmoved', List.map_append,
          List.map_nil, List.nil_append, List.append_assoc]
        exact List.Perm.refl _
  | @ended conn before after hnone hconn hbefore hafter =>
      rw [hconn] at hold
      have hfailed : ∀ x ∈ conn.writeQueue.map (·.submission), IsWrite fd x := hold
      rw [foldl_deliver_ended hbefore hafter hfailed, hran.resolved]
      refine h.update fd _ hran.kept hran.calls rfl hran.other ?_ ?_
      · show Wired fd (base.view fd).conn
        rw [hview]
        exact ⟨List.forall_mem_nil _, fun c _ hnone => nomatch (show none = some c from hnone)⟩
      · have hout : (failed ((conn.writeQueue.map (·.submission)).map promiseOf)).map
            Prod.fst = queuedPromises conn.writeQueue := by
          simp [failed, queuedPromises]
        show (s.view fd).held.Perm (_ ++ (base.view fd).held)
        rw [hview]
        refine List.Perm.trans ?_ (List.Perm.append_right _ (List.Perm.of_eq hout.symm))
        simp only [View.held, hposted, hnone, hconn, queueOf, Option.elim, queuedPromises,
          List.map_nil, List.nil_append, List.append_assoc]
        exact List.perm_append_comm_assoc _ _ _

end Moves

section Runs

variable {tasks : List Task}

/-- A step of the loop with its write callbacks. -/
theorem Held.run (h : s.Held) (op : Op Closure) (hregister : op.setsReadCb = false)
    (hwrites : ∀ x ∈ op.submissions, IsWrite op.fd x)
    (hposted : postedPromises (s.tasks op.fd) =
      op.submissions.map promiseOf ++ postedPromises tasks)
    (hrun : (s.setTasks op.fd tasks).run op = some s') : s'.Held := by
  obtain ⟨base, effects, rfl, -, hran, hmove⟩ := ran_run h.kept op hrun
  exact h.move hran hmove ((h.wired op.fd).reads_stepConnection hregister) hwrites hposted

/-- An event that submits nothing. -/
theorem Held.event (h : s.Held) (op : Op Closure) (hregister : op.setsReadCb = false)
    (hnone : op.submissions = []) (hrun : s.run op = some s') : s'.Held := by
  rw [← setTasks_self s op.fd] at hrun
  apply h.run op hregister _ _ hrun
  · rw [hnone]
    exact List.forall_mem_nil _
  · rw [hnone]
    rfl

theorem Held.runTask (h : s.Held) {task : Task} (htasks : s.tasks fd = task :: tasks)
    (hrun : (s.setTasks fd tasks).run (task.op fd) = some s') : s'.Held := by
  cases task with
  | asyncWriteOnce promise args =>
      apply h.run (Task.op fd (.asyncWriteOnce promise args)) rfl _ _ hrun
      · exact List.forall_mem_singleton.mpr ⟨promise, args, rfl⟩
      · exact congrArg postedPromises htasks
  | close =>
      apply h.run (Task.op fd .close) rfl (List.forall_mem_nil _) _ hrun
      show postedPromises (s.tasks fd) = _
      rw [htasks]
      rfl

/-- Another task of a socket that carries no promise. -/
theorem Held.close (h : s.Held) (fd : Fd) : (s.setTasks fd (s.tasks fd ++ [.close])).Held := by
  refine h.update fd [] h.kept rfl (List.append_nil _).symm
    (fun fd' hfd => view_setTasks_of_ne _ hfd) ?_ ?_
  · rw [view_setTasks]
    exact h.wired fd
  · rw [view_setTasks]
    simp only [View.held, postedPromises_append, Task.promise, Option.toList, List.append_nil]
    exact List.Perm.refl _

/-- The server is no party to this. -/
theorem Held.setServer (h : s.Held) (fd : Fd) (server : Server) : (s.setServer fd server).Held := by
  refine h.update fd [] h.kept rfl (List.append_nil _).symm
    (fun fd' hfd => view_setServer_of_ne hfd) ?_ ?_
  · rw [view_setServer]
    exact h.wired fd
  · rw [view_setServer]
    exact List.Perm.refl _

/-- A call of `execute` posts its command, or fails its promise at once. -/
theorem Held.execute [DecidableEq Θ] (h : s.Held) (setup : Setup) (thread : Θ)
    (args : List (List CChar)) : (s.execute setup thread args).Held := by
  have hlength : s.calls.length = (s.calls.map Call.client).length := (List.length_map _).symm
  unfold System.execute
  extract_lets counter fd called
  split
  · refine ⟨h.kept, h.wired, ?_⟩
    show Once _ ((s.calls ++ [Call.mk fd args]).map Call.client) ((s.resolved ++ [_]).map Prod.fst)
    rw [List.map_append, List.map_append, List.map_singleton, List.map_singleton, hlength]
    exact h.once.issue_settled fd
  · set tasks := s.tasks fd ++ [.asyncWriteOnce s.calls.length args] with htasks
    have hview : (called.setTasks fd tasks).view fd = { s.view fd with tasks := tasks } :=
      view_setTasks tasks
    have hother : ∀ fd', fd' ≠ fd → (called.setTasks fd tasks).view fd' = s.view fd' :=
      fun fd' hfd => view_setTasks_of_ne tasks hfd
    refine ⟨h.kept, h.wired, ?_⟩
    show Once _ ((s.calls ++ [Call.mk fd args]).map Call.client) (s.resolved.map Prod.fst)
    rw [List.map_append, List.map_singleton]
    apply h.once.issue
    · rw [hview, htasks, ← hlength]
      simp only [View.held, postedPromises_append, Task.promise, Option.toList, List.append_assoc]
      rfl
    · intro fd' hfd
      rw [hother fd' hfd]

/-- `ClientImpl::read` takes the promises that it resolves off the front. -/
theorem readLoop_promises {memory : Memory} {promises : List ℕ} {buf : List CChar}
    {size pos : ℕ} {r : ReadResult ℕ} (h : readLoop memory buf size promises pos = some r) :
    promises = r.resolved.map Prod.fst ++ r.promises := by
  induction promises generalizing pos r with
  | nil =>
      rw [readLoop] at h
      split at h
      · split at h
        · cases h
          rfl
        · cases h
        · cases h
          rfl
        · dsimp only at h
          cases h
          rfl
      · cases h
        rfl
  | cons promise promises ih =>
      rw [readLoop] at h
      split at h
      · split at h
        · cases h
          rfl
        · cases h
        · cases h
          rfl
        · obtain ⟨r', hr', rfl⟩ := Option.map_eq_some_iff.mp h
          exact congrArg (promise :: ·) (ih hr')
      · cases h
        rfl

/-- The replies that are parsed resolve promises that wait for them. -/
theorem Held.finishRead (h : s.Held) {r : ReadResult ℕ}
    (hr : (s.clients fd).promises = r.resolved.map Prod.fst ++ r.promises) :
    (s.finishRead fd r).Held := by
  refine h.update fd (r.resolved.map fun p => (p.1, .value p.2)) h.kept rfl rfl
    (fun fd' hfd => view_finishRead_of_ne r hfd) ?_ ?_
  · rw [view_finishRead]
    exact h.wired fd
  · have hout : (r.resolved.map fun p => (p.1, Outcome.value p.2)).map Prod.fst =
        r.resolved.map Prod.fst := by
      rw [List.map_map]
      rfl
    have hpromises : (s.view fd).channel.promises = r.resolved.map Prod.fst ++ r.promises := hr
    rw [view_finishRead, hout]
    simp only [View.held, hpromises, List.append_assoc]
    exact List.Perm.refl _

/-- Whatever bytes arrive, `handleRead` loses no promise. -/
theorem Held.handleRead (h : s.Held) {memory : Memory} {outcome : ReadOutcome}
    (hstep : s.handleRead memory fd outcome = some s') : s'.Held := by
  unfold System.handleRead at hstep
  split at hstep
  · exact h.event (.handleRead fd outcome 0) rfl rfl hstep
  · rename_i client buf size hcall
    obtain ⟨r, hread, hrun⟩ := Option.bind_eq_some_iff.mp hstep
    have hclient : client = fd := by
      obtain ⟨conn, hconn, hcb⟩ := Option.bind_eq_some_iff.mp hcall
      have hreads := (h.wired fd).reads conn
      split at hcb
      · rename_i client' chunk hreadCb
        cases hcb
        cases hreads _ hconn hreadCb
        rfl
      · rename_i client' hreadCb
        cases hcb
        cases hreads _ hconn hreadCb
        rfl
      · cases hcb
    subst hclient
    exact (h.finishRead (readLoop_promises hread)).event (.handleRead client outcome r.returned) rfl
      rfl hrun

end Runs

section Initial

/-- The sockets of a loop are registered for reading, and nothing has happened yet. -/
structure Registered (loop : EventLoopThread Closure) : Prop where
  plain : loop.Plain
  fresh : ∀ fd conn, loop.connections fd = some conn →
    conn.writeQueue = [] ∧ conn.readBuffer.valid = [] ∧ conn.readCb = some (.read fd)

theorem Registered.doRegisterRead {loop : EventLoopThread Closure} (h : Registered loop) (fd : Fd) :
    Registered (loop.doRegisterRead fd fd (some (.read fd))) := by
  cases hconn : loop.connections fd with
  | none =>
      rw [EventLoopThread.doRegisterRead_none fd _ hconn]
      refine ⟨h.plain.put _ _ _, fun fd' conn' hconn' => ?_⟩
      by_cases hfd : fd' = fd
      · subst hfd
        rw [EventLoopThread.connections_put] at hconn'
        cases hconn'
        exact ⟨rfl, SimpleBuffer.valid_ofSize _, rfl⟩
      · rw [EventLoopThread.connections_put_of_ne _ _ _ _ hfd] at hconn'
        exact h.fresh fd' conn' hconn'
  | some conn =>
      rw [EventLoopThread.doRegisterRead_some fd _ hconn]
      refine ⟨h.plain.put _ _ _, fun fd' conn' hconn' => ?_⟩
      by_cases hfd : fd' = fd
      · subst hfd
        rw [EventLoopThread.connections_put] at hconn'
        cases hconn'
        obtain ⟨hqueue, hvalid, -⟩ := h.fresh fd' conn hconn
        exact ⟨hqueue, hvalid, rfl⟩
      · rw [EventLoopThread.connections_put_of_ne _ _ _ _ hfd] at hconn'
        exact h.fresh fd' conn' hconn'

theorem registered_connect (setup : Setup) : Registered setup.connect := by
  have hfold : ∀ (sockets : List Fd) (loop : EventLoopThread Closure), Registered loop →
      Registered (sockets.foldl
        (fun loop fd => loop.doRegisterRead fd fd (some (.read fd))) loop) := by
    intro sockets
    induction sockets with
    | nil => exact fun _ h => h
    | cons fd sockets ih => exact fun loop h => ih _ (h.doRegisterRead fd)
  exact hfold _ _ ⟨EventLoopThread.plain_fresh, fun _ _ hconn => nomatch hconn⟩

theorem Registered.queueOf_eq {loop : EventLoopThread Closure} (h : Registered loop) (fd : Fd) :
    queueOf (loop.connections fd) = [] := by
  cases hconn : loop.connections fd with
  | none => rfl
  | some conn => exact (h.fresh fd conn hconn).1

theorem held_initial (setup : Setup) : (initial setup : System Θ).Held := by
  have hregistered := registered_connect setup
  refine ⟨⟨hregistered.plain, fun fd => ⟨nofun, fun conn hconn => ?_, fun _ => rfl⟩⟩,
    fun fd => ⟨?_, fun conn closure hconn hcb => ?_⟩, ?_⟩
  · rw [(hregistered.fresh fd conn hconn).1]
    exact kept_nil
  · show ∀ x ∈ (queueOf (setup.connect.connections fd)).map (·.submission), IsWrite fd x
    rw [hregistered.queueOf_eq]
    exact List.forall_mem_nil _
  · exact (Option.some.inj ((hregistered.fresh fd conn hconn).2.2.symm.trans hcb)).symm
  · refine Once.init.move fun fd => ?_
    show [] ++ queuedPromises (queueOf (setup.connect.connections fd)) ++ [] = []
    rw [hregistered.queueOf_eq]
    rfl

end Initial

/-- A step of the client, whatever bytes its peer sends. -/
def stepAnyPeer [DecidableEq Θ] (setup : Setup) (s : System Θ) :
    Act setup.memory Θ → Option (System Θ)
  | .handleRead fd outcome => s.handleRead setup.memory fd outcome
  | .answer _ _ => none
  | act => s.step setup act

theorem Held.stepAnyPeer [DecidableEq Θ] (h : s.Held) (setup : Setup) (act : Act setup.memory Θ)
    (hstep : s.stepAnyPeer setup act = some s') : s'.Held := by
  cases act with
  | execute thread args =>
      cases hstep
      exact h.execute setup thread args
  | close fd =>
      cases hstep
      exact h.close fd
  | runTask fd =>
      cases htasks : s.tasks fd with
      | nil => simp [System.stepAnyPeer, System.step, htasks] at hstep
      | cons task tasks =>
          simp only [System.stepAnyPeer, System.step, htasks] at hstep
          exact h.runTask htasks hstep
  | handleRead fd outcome => exact h.handleRead hstep
  | handleWrite fd outcome => exact h.event (.handleWrite fd outcome) rfl rfl hstep
  | hangUp fd => exact h.event (.close fd) rfl rfl hstep
  | answer fd reply => cases hstep

end System

end SimpleRedis.Redis
