import SimpleRedis.ConnectionMove

/-!
# The `run` loop and the descriptors it polls

`run` takes a batch of events from `epoll_wait` and makes a call for each of them, one after the
other; the posted tasks run where the wakeup event stands in the batch. A call knows its
descriptor by the number alone, and a number that is closed can be given to someone else before
the call is made. A step below is the return of `epoll_wait`, a task, a call, or what a callback
or another thread does in between: a timer is added, a socket is opened, or the last reference
to one is dropped.
-/
namespace SimpleRedis.Net

open TransitionRun

variable {F : Type*}

/-- What an open descriptor is: a socket, or a timer with the socket it was added through. No
two sockets have a number in common, and no two timers. -/
inductive Descriptor where
  | socket (socket : Socket)
  | timer (timer : ℕ) (owner : Option Socket)
  deriving DecidableEq, Repr

/-- An entry of the array that `epoll_wait` fills. `hangup` is `EPOLLERR | EPOLLHUP`. -/
inductive Event where
  | wakeup
  | ready (fd : Fd) (hangup input output : Bool)
  deriving DecidableEq, Repr

/-- A call that `run` makes for an event. -/
inductive Call where
  | drainTasks
  | closeConnection (fd : Fd)
  | handleRead (fd : Fd)
  | handleWrite (fd : Fd)
  deriving DecidableEq, Repr

/-- `EventLoopThread::MAX_EVENTS`. -/
def maxEvents : ℕ := 2048

namespace Event

def fd? : Event → Option Fd
  | .wakeup => none
  | .ready fd _ _ _ => some fd

/-- The body of the `for` loop of `run`. -/
def calls : Event → List Call
  | .wakeup => [.drainTasks]
  | .ready fd hangup input output =>
      if hangup then [.closeConnection fd]
      else (if input then [.handleRead fd] else []) ++ if output then [.handleWrite fd] else []

/-- The kernel reports what an entry asks for, and an error or a hangup to every entry that is
not disarmed. -/
def reported (list : InterestList) : Event → Bool
  | .wakeup => true
  | .ready fd hangup input output =>
      match list fd with
      | none => false
      | some events =>
          (events.input || events.output) && (hangup || input || output) &&
            (!input || events.input) && (!output || events.output)

/-- `EPOLLONESHOT`: a report leaves the entry in the list without its events. -/
def disarm (list : InterestList) : Event → InterestList
  | .wakeup => list
  | .ready fd _ _ _ =>
      Function.update list fd
        ((list fd).map fun events => if events.oneShot then { oneShot := true } else events)

end Event

namespace Call

def fd? : Call → Option Fd
  | .drainTasks => none
  | .closeConnection fd | .handleRead fd | .handleWrite fd => some fd

/-- The step is the call, with the answers of the kernel. -/
def makes : Call → Op F → Bool
  | .closeConnection fd, .close fd' => fd = fd'
  | .handleRead fd, .handleRead fd' _ _ => fd = fd'
  | .handleWrite fd, .handleWrite fd' _ => fd = fd'
  | _, _ => false

end Call

/-- What the kernel answers to `addTimer`. -/
inductive TimerOutcome where
  | failed
  | rejected (timerfd : Fd)
  | added (timerfd : Fd)
  deriving DecidableEq, Repr

namespace EventLoopThread

/-- `timer_fds_.emplace`. -/
def emplaceTimer (s : EventLoopThread F) (timerfd : Fd) (callback : Option F) :
    EventLoopThread F :=
  if (s.timerFds timerfd).isSome then s
  else { s with timerFds := Function.update s.timerFds timerfd (some callback) }

/-- `addTimer`: there is no descriptor, `epoll_ctl` fails, or the timer is in the list. -/
def addTimer (s : EventLoopThread F) (callback : Option F) : TimerOutcome → EventLoopThread F
  | .failed => s
  | .rejected timerfd =>
      let s := s.emplaceTimer timerfd callback
      { s with timerFds := Function.update s.timerFds timerfd none }
  | .added timerfd =>
      (s.emplaceTimer timerfd callback).addEpollEvents timerfd { input := true, oneShot := true }

end EventLoopThread

namespace Op

/-- One of the functions that tasks call; the others are calls of `run`. -/
def isTask : Op F → Bool
  | .handleRead _ _ _ | .handleWrite _ _ => false
  | _ => true

/-- The socket that the closure of a task holds. -/
def holds : Op F → Option Socket
  | .registerRead _ socket _ | .writeOnce _ socket _ _ | .writeBatch _ socket _ _ => some socket
  | _ => none

end Op

/-- A step of a running loop. `task` and `registerAccept` are tasks that `drainTasks` runs, and
`drained` is its end; `call` is the next call of the batch. `via` is the socket that a timer is
added through, if there is one. -/
inductive LoopStep (F : Type*) where
  | wait (events : List Event)
  | task (op : Op F)
  | registerAccept (fd : Fd) (socket : Socket) (callback : Option F)
  | drained
  | call (op : Op F)
  | addTimer (via : Option Fd) (outcome : TimerOutcome) (callback : Option F)
  | openSocket (fd : Fd)
  | release (fd : Fd)

/-- A loop, the open descriptors, and the calls that are left of the current batch. `sockets`
and `timers` count what was ever opened. -/
structure RunningLoop (F : Type*) where
  loop : EventLoopThread F
  descriptors : Fd → Option Descriptor
  sockets : ℕ
  timers : ℕ
  calls : List Call
  trace : List (Effect F)

namespace RunningLoop

def fresh : RunningLoop F where
  loop := .fresh
  descriptors _ := none
  sockets := 0
  timers := 0
  calls := []
  trace := []

/-- A step on the loop. The descriptor of a timer that has left `timer_fds_` is closed. -/
def perform (r : RunningLoop F) (op : Op F) : RunningLoop F :=
  let out := r.loop.exec op
  { r with
    loop := out.1
    descriptors := fun fd =>
      if (r.loop.timerFds fd).isSome && (out.1.timerFds fd).isNone then none
      else r.descriptors fd
    trace := r.trace ++ out.2 }

/-- A task that holds a socket keeps it open. -/
def canRun (r : RunningLoop F) (op : Op F) : Bool :=
  op.isTask && match op.holds with
    | none => true
    | some socket => r.descriptors op.fd = some (.socket socket)

/-- The owner of a timer that is added through the socket of a descriptor. -/
def owner? (r : RunningLoop F) : Option Fd → Option (Option Socket)
  | none => some none
  | some fd =>
      match r.descriptors fd with
      | some (.socket socket) => some (some socket)
      | _ => none

/-- A new descriptor has a number that is not in use. -/
def addTimer (r : RunningLoop F) (owner : Option Socket) (callback : Option F)
    (outcome : TimerOutcome) : Option (RunningLoop F) :=
  let loop := r.loop.addTimer callback outcome
  match outcome with
  | .failed => some { r with loop := loop }
  | .rejected timerfd => if r.descriptors timerfd = none then some { r with loop := loop } else none
  | .added timerfd =>
      if r.descriptors timerfd = none then
        some { r with
          loop := loop
          descriptors := Function.update r.descriptors timerfd (some (.timer r.timers owner))
          timers := r.timers + 1 }
      else none

/-- The loop has no reference to the socket of a descriptor. -/
def released (r : RunningLoop F) (fd : Fd) : Bool :=
  (r.loop.connections fd).isNone && (r.loop.acceptSocketSet fd).isNone &&
    match r.descriptors fd with
    | some (.socket _) => true
    | _ => false

def step (r : RunningLoop F) : LoopStep F → Option (RunningLoop F)
  | .wait events =>
      if r.calls = [] ∧ events.length ≤ maxEvents ∧ (events.map Event.fd?).Nodup ∧
          ∀ event ∈ events, event.reported r.loop.epoll = true then
        some { r with
          loop := { r.loop with epoll := events.foldl Event.disarm r.loop.epoll }
          calls := events.flatMap Event.calls }
      else none
  | .task op =>
      if r.calls.head? = some .drainTasks ∧ r.canRun op = true then some (r.perform op) else none
  | .registerAccept fd socket callback =>
      if r.calls.head? = some .drainTasks ∧ r.descriptors fd = some (.socket socket) then
        some { r with loop := r.loop.doRegisterAccept fd socket callback }
      else none
  | .drained =>
      match r.calls with
      | .drainTasks :: calls => some { r with calls := calls }
      | _ => none
  | .call op =>
      match r.calls with
      | [] => none
      | call :: calls =>
          if call.makes op && r.loop.possible op then some { r.perform op with calls := calls }
          else none
  | .addTimer via outcome callback =>
      (r.owner? via).bind fun owner => r.addTimer owner callback outcome
  | .openSocket fd =>
      if r.descriptors fd = none then
        some { r with
          descriptors := Function.update r.descriptors fd (some (.socket r.sockets))
          sockets := r.sockets + 1 }
      else none
  | .release fd =>
      -- the kernel takes a closed descriptor out of the interest list
      if r.released fd then
        some { r with
          loop := r.loop.removeEpollEvents fd
          descriptors := Function.update r.descriptors fd none }
      else none

/-- What a step does, with what it needs. -/
inductive Stepped (r : RunningLoop F) : LoopStep F → RunningLoop F → Prop
  | wait {events : List Event} (hcalls : r.calls = []) (hlength : events.length ≤ maxEvents)
      (hnodup : (events.map Event.fd?).Nodup)
      (hreported : ∀ event ∈ events, event.reported r.loop.epoll = true) :
      Stepped r (.wait events) { r with
        loop := { r.loop with epoll := events.foldl Event.disarm r.loop.epoll }
        calls := events.flatMap Event.calls }
  | task {op : Op F} (hhead : r.calls.head? = some .drainTasks) (hcan : r.canRun op = true) :
      Stepped r (.task op) (r.perform op)
  | registerAccept {fd : Fd} {socket : Socket} {callback : Option F}
      (hhead : r.calls.head? = some .drainTasks)
      (hsocket : r.descriptors fd = some (.socket socket)) :
      Stepped r (.registerAccept fd socket callback)
        { r with loop := r.loop.doRegisterAccept fd socket callback }
  | drained {calls : List Call} (hcalls : r.calls = .drainTasks :: calls) :
      Stepped r .drained { r with calls := calls }
  | call {op : Op F} {call : Call} {calls : List Call} (hcalls : r.calls = call :: calls)
      (hmakes : call.makes op = true) (hpossible : r.loop.possible op = true) :
      Stepped r (.call op) { r.perform op with calls := calls }
  | timerFailed {via : Option Fd} {callback : Option F} :
      Stepped r (.addTimer via .failed callback) r
  | timerRejected {via : Option Fd} {callback : Option F} {timerfd : Fd}
      (hunused : r.descriptors timerfd = none) :
      Stepped r (.addTimer via (.rejected timerfd) callback)
        { r with loop := r.loop.addTimer callback (.rejected timerfd) }
  | timerAdded {via : Option Fd} {callback : Option F} {timerfd : Fd} {owner : Option Socket}
      (howner : r.owner? via = some owner) (hunused : r.descriptors timerfd = none) :
      Stepped r (.addTimer via (.added timerfd) callback) { r with
        loop := r.loop.addTimer callback (.added timerfd)
        descriptors := Function.update r.descriptors timerfd (some (.timer r.timers owner))
        timers := r.timers + 1 }
  | openSocket {fd : Fd} (hunused : r.descriptors fd = none) :
      Stepped r (.openSocket fd) { r with
        descriptors := Function.update r.descriptors fd (some (.socket r.sockets))
        sockets := r.sockets + 1 }
  | release {fd : Fd} (hreleased : r.released fd = true) :
      Stepped r (.release fd) { r with
        loop := r.loop.removeEpollEvents fd
        descriptors := Function.update r.descriptors fd none }

theorem stepped_addTimer {r r' : RunningLoop F} {via : Option Fd} {owner : Option Socket}
    {callback : Option F} {outcome : TimerOutcome} (howner : r.owner? via = some owner)
    (h : r.addTimer owner callback outcome = some r') :
    Stepped r (.addTimer via outcome callback) r' := by
  cases outcome with
  | failed =>
      cases h
      exact .timerFailed
  | rejected timerfd =>
      obtain ⟨hunused, hr'⟩ := Option.ite_none_right_eq_some.mp h
      cases hr'
      exact .timerRejected hunused
  | added timerfd =>
      obtain ⟨hunused, hr'⟩ := Option.ite_none_right_eq_some.mp h
      cases hr'
      exact .timerAdded howner hunused

theorem stepped_of_step {r r' : RunningLoop F} {a : LoopStep F} (h : r.step a = some r') :
    Stepped r a r' := by
  cases a with
  | wait events =>
      obtain ⟨⟨hcalls, hlength, hnodup, hreported⟩, hr'⟩ := Option.ite_none_right_eq_some.mp h
      cases hr'
      exact .wait hcalls hlength hnodup hreported
  | task op =>
      obtain ⟨⟨hhead, hcan⟩, hr'⟩ := Option.ite_none_right_eq_some.mp h
      cases hr'
      exact .task hhead hcan
  | registerAccept fd socket callback =>
      obtain ⟨⟨hhead, hsocket⟩, hr'⟩ := Option.ite_none_right_eq_some.mp h
      cases hr'
      exact .registerAccept hhead hsocket
  | drained =>
      simp only [step] at h
      split at h
      · rename_i hcalls
        cases h
        exact .drained hcalls
      · cases h
  | call op =>
      simp only [step] at h
      split at h
      · cases h
      · rename_i hcalls
        obtain ⟨hguard, hr'⟩ := Option.ite_none_right_eq_some.mp h
        cases hr'
        rw [Bool.and_eq_true] at hguard
        exact .call hcalls hguard.1 hguard.2
  | addTimer via outcome callback =>
      obtain ⟨owner, howner, hadd⟩ := Option.bind_eq_some_iff.mp h
      exact stepped_addTimer howner hadd
  | openSocket fd =>
      obtain ⟨hunused, hr'⟩ := Option.ite_none_right_eq_some.mp h
      cases hr'
      exact .openSocket hunused
  | release fd =>
      obtain ⟨hreleased, hr'⟩ := Option.ite_none_right_eq_some.mp h
      cases hr'
      exact .release hreleased

end RunningLoop

section Sockets

open Connection

variable {old : Option (Connection F)} {events : Option Interest} {op : Op F}
  {conn conn' : Connection F}

theorem socket_receive (fd : Fd) (conn : Connection F) (chunk : List CChar) (consumed : ℕ) :
    (conn.receive fd chunk consumed).1.socket = conn.socket := by
  unfold Connection.receive
  split <;> rfl

theorem socket_checkHighLevel (fd : Fd) (conn : Connection F) :
    (conn.checkHighLevel fd).1.socket = conn.socket := by
  unfold Connection.checkHighLevel
  split
  · split
    · split <;> rfl
    · rfl
  · rfl

theorem socket_checkLowLevel (fd : Fd) (conn : Connection F) :
    (conn.checkLowLevel fd).1.socket = conn.socket := by
  unfold Connection.checkLowLevel
  split
  · split <;> rfl
  · rfl

theorem socket_enqueueBatch (fd : Fd) (conn : Connection F) (f : F) (i : ℕ)
    (bufs : List (List CChar)) : (conn.enqueueBatch fd f i bufs).1.socket = conn.socket := by
  induction bufs generalizing conn i with
  | nil => rfl
  | cons buf bufs ih => exact ih (conn.enqueue fd (some (.batch f i)) buf).1 (i + 1)

/-- The connection behind a step is that of the socket before it, or of the socket that the
step brings, and it has nothing queued but what was queued or is submitted. -/
structure Continues (op : Op F) (old : Option (Connection F)) (conn' : Connection F) : Prop where
  socket : op.holds = some conn'.socket ∨ ∃ conn, old = some conn ∧ conn'.socket = conn.socket
  queue : conn'.writeQueue ≠ [] → op.submissions ≠ [] ∨ queueOf old ≠ []

theorem continues_some (hold : old = some conn) (hsocket : conn'.socket = conn.socket)
    (hqueue : conn'.writeQueue ≠ [] → conn.writeQueue ≠ []) : Continues op old conn' :=
  ⟨Or.inr ⟨conn, hold, hsocket⟩, fun hne => Or.inr (hold ▸ hqueue hne)⟩

theorem continues_self (h : old = some conn') : Continues op old conn' :=
  continues_some h rfl id

theorem continues_stepWrite {fd : Fd} {socket : Socket} (hholds : op.holds = some socket)
    {enqueue : Connection F → Connection F × List (Effect F)}
    (henqueue : ∀ conn, (enqueue conn).1.socket = conn.socket)
    (hqueue : ∀ conn, (enqueue conn).1.writeQueue =
      conn.writeQueue ++ op.submissions.map (·.entry))
    (h : (stepWrite fd old socket enqueue).1 = some conn') : Continues op old conn' := by
  cases h
  have hsocket := (socket_checkHighLevel fd _).trans
    (henqueue (old.getD (Connection.writeOnly socket)))
  have hentries := (writeQueue_checkHighLevel fd _).trans
    (hqueue (old.getD (Connection.writeOnly socket)))
  refine ⟨?_, fun hne => ?_⟩
  · cases old with
    | none => exact Or.inl (hholds.trans (congrArg some hsocket.symm))
    | some conn => exact Or.inr ⟨conn, rfl, hsocket⟩
  · by_contra hnot
    obtain ⟨hnone, hold⟩ := not_or.mp hnot
    rw [not_not] at hnone hold
    refine hne (hentries.trans ?_)
    rw [queueOf_getD, hold, hnone]
    rfl

theorem writeQueue_sent_ne_nil {conn : Connection F} {n : ℕ}
    (h : (conn.sent n).writeQueue ≠ []) : conn.writeQueue ≠ [] := by
  intro hnil
  refine h ?_
  rw [sent, hnil]
  rfl

theorem continues_stepConnection (h : (stepConnection old op).1 = some conn') :
    Continues op old conn' := by
  cases op with
  | registerRead fd socket callback =>
      cases old with
      | none =>
          cases h
          exact ⟨Or.inl rfl, fun hne => absurd rfl hne⟩
      | some conn =>
          cases h
          exact continues_some rfl rfl id
  | writeOnce fd socket callback buf =>
      exact continues_stepWrite rfl (fun _ => rfl) (fun _ => rfl) h
  | writeBatch fd socket callbacks bufs =>
      exact continues_stepWrite rfl (fun conn => socket_enqueueBatch fd conn callbacks 0 bufs)
        (fun _ => (enqueueBatch_eq callbacks 0 bufs).1) h
  | registerHighLevel | registerLowLevel | registerClose =>
      obtain ⟨conn, rfl, rfl⟩ := Option.map_eq_some_iff.mp h
      exact continues_some rfl rfl id
  | handleRead fd outcome consumed =>
      cases old with
      | none => cases h
      | some conn =>
          cases outcome with
          | bytes chunk =>
              cases h
              refine continues_some rfl (socket_receive fd conn chunk consumed) ?_
              rw [writeQueue_receive]
              exact id
          | zero =>
              cases h
              exact continues_some rfl rfl id
          | again =>
              cases h
              exact continues_some rfl rfl id
          | error => cases h
  | handleWrite fd outcome =>
      cases old with
      | none => cases h
      | some conn =>
          simp only [stepConnection] at h
          split at h
          · cases h
            exact continues_some rfl rfl id
          · cases outcome with
            | accepted n =>
                cases h
                refine continues_some rfl (socket_checkLowLevel fd (conn.sent n)) fun hne => ?_
                rw [writeQueue_checkLowLevel] at hne
                exact writeQueue_sent_ne_nil hne
            | again =>
                cases h
                exact continues_some rfl rfl id
            | error => cases h
  | close fd => cases old <;> cases h

/-- Only a step that brings a socket puts its descriptor into the list. -/
theorem stepEvents_mono (h : stepEvents old events op ≠ none) :
    op.holds ≠ none ∨ events ≠ none := by
  cases op with
  | registerRead | writeOnce | writeBatch => exact Or.inl nofun
  | registerHighLevel | registerLowLevel | registerClose => exact Or.inr h
  | handleRead fd outcome consumed =>
      refine Or.inr fun hnone => h ?_
      subst hnone
      cases old with
      | none => rfl
      | some conn =>
          cases outcome with
          | zero => simp [stepEvents]
          | bytes | again | error => rfl
  | handleWrite fd outcome =>
      refine Or.inr fun hnone => h ?_
      subst hnone
      cases old with
      | none => rfl
      | some conn =>
          simp only [stepEvents]
          split
          · rfl
          · cases outcome with
            | accepted n => simp [EventLoopThread.drainedEvents]
            | again | error => rfl
  | close => exact absurd rfl h

end Sockets

namespace EventLoopThread

/-- Two loops have the same at a descriptor. -/
structure SameAt (fd : Fd) (s s' : EventLoopThread F) : Prop where
  connections : s'.connections fd = s.connections fd
  acceptSocketSet : s'.acceptSocketSet fd = s.acceptSocketSet fd
  timerFds : s'.timerFds fd = s.timerFds fd
  epoll : s'.epoll fd = s.epoll fd

/-- What a step may do to a loop: the other descriptors keep what they have, and at its own
descriptor nothing appears but a connection of a socket that the step brings. -/
structure Touches (op : Op F) (s s' : EventLoopThread F) : Prop where
  others : ∀ fd, fd ≠ op.fd → SameAt fd s s'
  connection : ∀ conn', s'.connections op.fd = some conn' →
    Continues op (s.connections op.fd) conn'
  acceptor : s'.acceptSocketSet op.fd = s.acceptSocketSet op.fd ∨
    s'.acceptSocketSet op.fd = none
  timer : s'.timerFds op.fd = s.timerFds op.fd ∨
    s'.timerFds op.fd = none ∧ s'.epoll op.fd = none
  interest : s'.epoll op.fd ≠ none → op.holds ≠ none ∨ s.epoll op.fd ≠ none

section Touches

variable {s s' : EventLoopThread F} {op : Op F} {fd : Fd}

theorem SameAt.symm (h : SameAt fd s s') : SameAt fd s' s :=
  ⟨h.connections.symm, h.acceptSocketSet.symm, h.timerFds.symm, h.epoll.symm⟩

theorem sameAt_removeEpollEvents {fd' : Fd} (hfd : fd ≠ fd') :
    SameAt fd s (s.removeEpollEvents fd') :=
  ⟨rfl, rfl, rfl, Function.update_of_ne hfd _ _⟩

theorem touches_put {conn : Option (Connection F)} {events : Option Interest}
    (hconn : ∀ conn', conn = some conn' → Continues op (s.connections op.fd) conn')
    (hevents : events ≠ none → op.holds ≠ none ∨ s.epoll op.fd ≠ none) :
    Touches op s (s.put op.fd conn events) where
  others _ hfd :=
    ⟨connections_put_of_ne _ _ _ _ hfd, rfl, rfl, epoll_put_of_ne _ _ _ _ hfd⟩
  connection := by rwa [connections_put]
  acceptor := Or.inl rfl
  timer := Or.inl rfl
  interest := by rwa [epoll_put]

theorem touches_refl (op : Op F) (s : EventLoopThread F) : Touches op s s := by
  have hput : Touches op s (s.put op.fd (s.connections op.fd) (s.epoll op.fd)) :=
    touches_put (fun _ => continues_self) Or.inr
  rwa [put_self] at hput

/-- A step that erases the acceptor of its descriptor. -/
theorem Touches.eraseAcceptor (h : Touches op s s') : Touches op s
    { s' with acceptSocketSet := Function.update s'.acceptSocketSet op.fd none } where
  others fd hfd := { h.others fd hfd with
    acceptSocketSet := (Function.update_of_ne hfd _ _).trans (h.others fd hfd).acceptSocketSet }
  connection := h.connection
  acceptor := Or.inr (Function.update_self _ _ _)
  timer := h.timer
  interest := h.interest

/-- A step that erases the timer of its descriptor. -/
theorem Touches.eraseTimer (h : Touches op s s') (hevents : s'.epoll op.fd = none) :
    Touches op s { s' with timerFds := Function.update s'.timerFds op.fd none } where
  others fd hfd := { h.others fd hfd with
    timerFds := (Function.update_of_ne hfd _ _).trans (h.others fd hfd).timerFds }
  connection := h.connection
  acceptor := h.acceptor
  timer := Or.inr ⟨Function.update_self _ _ _, hevents⟩
  interest := h.interest

/-- Closing a connection that the step has changed in its place. -/
theorem touches_closeConnection_put {conn : Option (Connection F)} {events : Option Interest}
    (hconn : ∀ conn', conn = some conn' → Continues op (s.connections op.fd) conn') :
    Touches op s ((s.put op.fd conn events).closeConnection op.fd).1 := by
  have hremoved : (s.put op.fd conn events).removeEpollEvents op.fd = s.put op.fd conn none := by
    rw [removeEpollEvents_eq_put, put_put, connections_put]
  have htouches : Touches op s (s.put op.fd conn none) :=
    touches_put hconn fun hne => absurd rfl hne
  unfold closeConnection
  simp only [hremoved, connections_put]
  split
  · exact htouches.eraseAcceptor
  · cases conn with
    | none => exact htouches
    | some c =>
        have hput : Touches op s ((s.put op.fd (some c) none).put op.fd none none) := by
          rw [put_put]
          exact touches_put (fun _ hnone => by cases hnone) fun hne => absurd rfl hne
        simpa only [put, Function.update_idem] using hput

theorem touches_closeConnection (op : Op F) (s : EventLoopThread F) :
    Touches op s (s.closeConnection op.fd).1 := by
  have hput : Touches op s
      ((s.put op.fd (s.connections op.fd) (s.epoll op.fd)).closeConnection op.fd).1 :=
    touches_closeConnection_put fun _ => continues_self
  rwa [put_self] at hput

theorem touches_handleRead (fd : Fd) (outcome : ReadOutcome) (consumed : ℕ)
    (s : EventLoopThread F) :
    Touches (.handleRead fd outcome consumed) s (s.handleRead fd outcome consumed).1 := by
  cases haccept : s.acceptSocketSet fd with
  | some ctx =>
      simp only [handleRead, handleAccept, haccept, Option.isSome_some, if_true]
      exact touches_refl _ s
  | none =>
      cases htimer : s.timerFds fd with
      | some callback =>
          have hremoved : Touches (.handleRead fd outcome consumed) s
              (s.removeEpollEvents fd) := by
            rw [removeEpollEvents_eq_put]
            exact touches_put (fun _ => continues_self)
              fun hne => absurd rfl hne
          simp only [handleRead, handleTimer, haccept, htimer, Option.isSome_some,
            Option.isSome_none, Bool.false_eq_true, if_false, if_true]
          exact hremoved.eraseTimer (Function.update_self _ _ _)
      | none =>
          rw [handleRead_put ⟨haccept, htimer⟩]
          exact touches_put (fun _ => continues_stepConnection) stepEvents_mono

theorem touches_handleWrite (fd : Fd) (outcome : WriteOutcome) (s : EventLoopThread F) :
    Touches (.handleWrite fd outcome) s (s.handleWrite fd outcome).1 := by
  cases hconn : s.connections fd with
  | none =>
      simp only [handleWrite, hconn]
      exact touches_refl _ s
  | some conn =>
      by_cases hiovs : conn.iovs = []
      · simp only [handleWrite, hconn, hiovs, if_true]
        exact touches_refl _ s
      · simp only [handleWrite, hconn, hiovs, if_false]
        cases outcome with
        | again => exact touches_refl _ s
        | error =>
            rw [setConnection_eq_put]
            refine touches_closeConnection_put fun c hc => ?_
            rw [← Option.some.inj hc]
            refine continues_some hconn ?_ fun hne => absurd (failAllPendingWrites_eq fd conn).1 hne
            unfold Connection.failAllPendingWrites
            split <;> rfl
        | accepted n =>
            rw [written_put]
            refine touches_put (fun c hc => ?_) fun hne => Or.inr fun hnone => hne ?_
            · rw [← Option.some.inj hc]
              refine continues_some hconn (socket_checkLowLevel fd (conn.sent n)) fun hqueue => ?_
              rw [Connection.writeQueue_checkLowLevel] at hqueue
              exact writeQueue_sent_ne_nil hqueue
            · have hnone : s.epoll fd = none := hnone
              simp [hnone, drainedEvents]

theorem exec_touches (s : EventLoopThread F) (op : Op F) : Touches op s (s.exec op).1 := by
  cases op with
  | registerRead | writeOnce | writeBatch | registerHighLevel | registerLowLevel
  | registerClose =>
      rw [exec_put_of_stores _ rfl]
      exact touches_put (fun _ => continues_stepConnection) stepEvents_mono
  | handleRead fd outcome consumed => exact touches_handleRead fd outcome consumed s
  | handleWrite fd outcome => exact touches_handleWrite fd outcome s
  | close fd => exact touches_closeConnection (.close fd) s

end Touches

end EventLoopThread

end SimpleRedis.Net
