import SimpleRedis.DescriptorOwner
import SimpleRedis.WriteLife

/-!
# The end of a stream

A read of size zero tells the read callback that the peer has closed its side. The flags of the
connection and its interest are then such that the callback is not made again: every later step
that computes an event mask leaves the input out. The writes that are queued at that moment stay
until the kernel takes them or they fail.
-/
namespace SimpleRedis.Net

open TransitionRun

variable {F : Type*}

/-- The step registers the descriptor for accepting. -/
def LoopStep.RegistersAccept (fd : Fd) : LoopStep F → Prop
  | .registerAccept fd' _ _ => fd' = fd
  | _ => False

instance (fd : Fd) (a : LoopStep F) : Decidable (a.RegistersAccept fd) :=
  match a with
  | .registerAccept fd' _ _ => inferInstanceAs (Decidable (fd' = fd))
  | .wait _ | .task _ | .drained | .call _ | .addTimer _ _ _ | .openSocket _ | .release _ =>
      inferInstanceAs (Decidable False)

/-- What can be seen of the writes of a connection that had entries in its queue. -/
def livesSince (fd : Fd) (queue : List (WriteMetaInfo F)) (since : List (Effect F)) : Lives F :=
  (since.filter (·.fd = fd)).foldl Lives.observe
    { current := { submitted := queue.map (·.submission), accepted := frontSent queue } }

/-- What holds of a connection whose peer has closed its side, with the entries that were queued
then and the effects since. -/
structure EndOfStream (fd : Fd) (queue : List (WriteMetaInfo F)) (since : List (Effect F))
    (s : EventLoopThread F) : Prop where
  silent : ∀ before f buffer size after, since = before ++ .read fd f buffer size :: after →
    .closed fd ∈ before
  live : .closed fd ∉ since → ∃ conn, s.connections fd = some conn ∧ conn.peerClosed = true ∧
    (∀ events, s.epoll fd = some events → events.input = false) ∧
    (livesSince fd queue since).current.Open conn.writeQueue ∧
    ((livesSince fd queue since).current.submitted.length <
      queue.length + conn.writeQueue.length → s.epoll fd = some epollOut)
  ended : ∀ life ∈ (livesSince fd queue since).ended, life.Ended

section HalfClosed

open Connection

variable {conn conn' : Connection F} {events : Option Interest} {op : Op F} {fd : Fd}

/-- Nothing asks for input any more. -/
structure HalfClosed (conn : Connection F) (events : Option Interest) : Prop where
  peer : conn.peerClosed = true
  read : conn.readRegistered = false
  output : ∀ interest, events = some interest → interest = epollOut

theorem HalfClosed.of_readSide (h : HalfClosed conn events) {events' : Option Interest}
    (hside : conn'.readSide = conn.readSide)
    (houtput : ∀ interest, events' = some interest → interest = epollOut) :
    HalfClosed conn' events' := by
  simp only [readSide, Prod.mk.injEq] at hside
  obtain ⟨-, -, hread, hpeer⟩ := hside
  exact ⟨hpeer.trans h.peer, hread.trans h.read, houtput⟩

/-- A write asks for output only. -/
theorem HalfClosed.writeEvents (h : HalfClosed conn events) :
    (∀ interest, writeEvents (some conn) events = some interest → interest = epollOut) ∧
      (events ≠ none → writeEvents (some conn) events ≠ none) := by
  simp only [Net.writeEvents, h.read]
  split
  · exact ⟨h.output, id⟩
  · constructor
    · intro interest hinterest
      obtain ⟨-, -, rfl⟩ := Option.map_eq_some_iff.mp hinterest
      rfl
    · intro hne
      simpa using hne

theorem HalfClosed.stepWrite (h : HalfClosed conn events) (socket : Socket)
    {enqueue : Connection F → Connection F × List (Effect F)}
    (hkeep : ∀ conn, (enqueue conn).1.readSide = conn.readSide)
    (hconn' : (stepWrite fd (some conn) socket enqueue).1 = some conn') :
    HalfClosed conn' (Net.writeEvents (some conn) events) := by
  cases hconn'
  have hside := (readSide_checkHighLevel fd (enqueue conn).1).trans (hkeep conn)
  exact h.of_readSide hside h.writeEvents.1

/-- Every step but a read leaves a half-closed connection so, and while something is queued its
interest stays. -/
theorem HalfClosed.step (h : HalfClosed conn events) (hop : op.isHandleRead = false)
    (hconn' : (stepConnection (some conn) op).1 = some conn') :
    HalfClosed conn' (stepEvents (some conn) events op) ∧
      (conn'.writeQueue ≠ [] → events ≠ none → stepEvents (some conn) events op ≠ none) := by
  cases op with
  | registerRead fd socket callback =>
      cases hconn'
      simp only [stepEvents, h.peer, Bool.true_or, if_true]
      refine ⟨⟨rfl, ?_, h.output⟩, fun _ => id⟩
      simp [h.read]
  | writeOnce fd socket callback buf =>
      exact ⟨h.stepWrite socket (fun _ => rfl) hconn', fun _ => h.writeEvents.2⟩
  | writeBatch fd socket callbacks bufs =>
      refine ⟨h.stepWrite socket (fun conn => ?_) hconn', fun _ => h.writeEvents.2⟩
      exact readSide_enqueueBatch fd conn callbacks 0 bufs
  | registerHighLevel | registerLowLevel | registerClose =>
      cases hconn'
      exact ⟨h.of_readSide rfl h.output, fun _ => id⟩
  | handleRead => cases hop
  | handleWrite fd outcome =>
      by_cases hiovs : conn.iovs = []
      · simp only [stepConnection, if_pos hiovs] at hconn'
        cases hconn'
        simp only [stepEvents, if_pos hiovs]
        exact ⟨h, fun _ => id⟩
      · simp only [stepConnection, if_neg hiovs] at hconn'
        simp only [stepEvents, if_neg hiovs]
        cases outcome with
        | again =>
            cases hconn'
            exact ⟨h, fun _ => id⟩
        | error => cases hconn'
        | accepted n =>
            cases hconn'
            have hside : ((conn.sent n).checkLowLevel fd).1.readSide = conn.readSide :=
              readSide_checkLowLevel fd (conn.sent n)
            have hpeer : (conn.sent n).peerClosed = true := h.peer
            rw [writeQueue_checkLowLevel]
            by_cases hempty : (finish n conn.writeQueue).1 = []
            · -- the queue has run empty
              simp only [if_pos hempty, EventLoopThread.drainedEvents, hpeer, if_true]
              refine ⟨h.of_readSide hside fun interest hinterest => ?_, fun hne => ?_⟩
              · cases hinterest
              · exact absurd hempty hne
            · simp only [if_neg hempty]
              exact ⟨h.of_readSide hside h.output, fun _ => id⟩
  | close => cases hconn'

/-- What `handleRead` leaves at the end of the stream. -/
theorem halfClosed_zero (conn : Connection F) (events : Option Interest) (fd : Fd) (consumed : ℕ) :
    ∃ conn', (stepConnection (some conn) (.handleRead fd .zero consumed)).1 = some conn' ∧
      conn'.writeQueue = conn.writeQueue ∧
      HalfClosed conn' (stepEvents (some conn) events (.handleRead fd .zero consumed)) ∧
      (conn.writeQueue ≠ [] → events ≠ none →
        stepEvents (some conn) events (.handleRead fd .zero consumed) ≠ none) := by
  refine ⟨_, rfl, rfl, ⟨rfl, rfl, fun interest hinterest => ?_⟩, fun hqueue hne => ?_⟩
  · simp only [stepEvents] at hinterest
    split at hinterest
    · obtain ⟨-, -, rfl⟩ := Option.map_eq_some_iff.mp hinterest
      rfl
    · cases hinterest
  · simpa [stepEvents, hqueue] using hne

end HalfClosed

/-- A step of the loop on a descriptor that is no acceptor's and no timer's. -/
structure ActsAt (fd : Fd) (op : Op F) (r r' : RunningLoop F) : Prop where
  fd_eq : op.fd = fd
  possible : r.loop.possible op = true
  connection : r'.loop.connections fd = (stepConnection (r.loop.connections fd) op).1
  interest : r'.loop.epoll fd = stepEvents (r.loop.connections fd) (r.loop.epoll fd) op
  trace : r'.trace = r.trace ++ (stepConnection (r.loop.connections fd) op).2

/-- A step that does not touch the connection of a descriptor. -/
structure IdleAt (fd : Fd) (r r' : RunningLoop F) : Prop where
  connection : r'.loop.connections fd = r.loop.connections fd
  interest : r.loop.connections fd ≠ none → r'.loop.epoll fd = r.loop.epoll fd ∨
    r'.loop.epoll fd = (r.loop.epoll fd).map Interest.disarmed
  trace : ∃ effects, r'.trace = r.trace ++ effects ∧
    ∀ effect ∈ effects, effect.fd = fd → ∃ f, effect = .timer fd f

section View

open RunningLoop EventLoopThread

variable {r r' : RunningLoop F} {fd : Fd} {op : Op F} {a : LoopStep F}

/-- A task does not wait for an answer of the kernel. -/
theorem possible_of_canRun (h : r.canRun op = true) : r.loop.possible op = true := by
  have htask : op.isTask = true := (Bool.and_eq_true _ _ ▸ h).1
  cases op with
  | handleRead | handleWrite => cases htask
  | registerRead | writeOnce | writeBatch | registerHighLevel | registerLowLevel | registerClose
  | close => rfl

/-- At a timer a step has the effect of the timer only. -/
theorem effects_of_timer {s : EventLoopThread F} (hholds : op.holds = none)
    (hconnection : s.connections op.fd = none) (haccept : s.acceptSocketSet op.fd = none)
    {callback : Option F} (htimer : s.timerFds op.fd = some callback) :
    ∀ effect ∈ (s.exec op).2, ∃ f, effect = .timer op.fd f := by
  cases op with
  | registerRead | writeOnce | writeBatch => cases hholds
  | registerHighLevel | registerLowLevel | registerClose => exact List.forall_mem_nil _
  | handleRead fd outcome consumed =>
      simp only [Op.fd] at haccept htimer
      simp only [exec, handleRead, handleTimer, haccept, htimer, Option.isSome_some,
        Option.isSome_none, Bool.false_eq_true, if_false, if_true]
      cases callback with
      | none => exact List.forall_mem_nil _
      | some f => exact List.forall_mem_singleton.mpr ⟨f, rfl⟩
  | handleWrite fd outcome =>
      simp only [Op.fd] at hconnection
      simp only [exec, handleWrite, hconnection]
      exact List.forall_mem_nil _
  | close fd =>
      simp only [Op.fd] at hconnection haccept
      simp only [exec, doClose, closeConnection, removeEpollEvents, hconnection, haccept]
      exact List.forall_mem_nil _

theorem actsAt_of_plain (hplain : r.loop.PlainAt op.fd) (hpossible : r.loop.possible op = true)
    (hloop : r'.loop = (r.loop.exec op).1) (htrace : r'.trace = r.trace ++ (r.loop.exec op).2) :
    ActsAt op.fd op r r' := by
  rw [exec_put op hplain] at hloop
  rw [exec_effects op hplain] at htrace
  constructor
  · rfl
  · exact hpossible
  · rw [hloop, connections_put]
  · rw [hloop, epoll_put]
  · exact htrace

/-- What a step on the loop is to a descriptor. -/
theorem view_of_perform (h : Owned r) (haccept : r.loop.acceptSocketSet fd = none)
    (hpossible : r.loop.possible op = true)
    (hholds : ∀ socket, op.holds = some socket → r.descriptors op.fd = some (.socket socket))
    (hloop : r'.loop = (r.loop.exec op).1) (htrace : r'.trace = r.trace ++ (r.loop.exec op).2) :
    IdleAt fd r r' ∨ ActsAt fd op r r' := by
  have htouches := exec_touches r.loop op
  by_cases hfd : fd = op.fd
  · subst hfd
    cases htimer : r.loop.timerFds op.fd with
    | none =>
        right
        exact actsAt_of_plain ⟨haccept, htimer⟩ hpossible hloop htrace
    | some callback =>
        left
        have hnone := (h op.fd).connection_of_timer htimer
        obtain ⟨timer, owner, hdescriptor⟩ := (h op.fd).timer.mp (htimer ▸ rfl)
        have hbrings : op.holds = none := by
          apply Option.eq_none_iff_forall_ne_some.mpr
          intro socket hsocket
          cases hdescriptor.symm.trans (hholds socket hsocket)
        constructor
        · rw [hloop, hnone]
          apply Option.eq_none_iff_forall_ne_some.mpr
          intro conn' hconn'
          rcases (htouches.connection conn' hconn').socket with hsocket | ⟨conn, hconn, -⟩
          · cases hbrings.symm.trans hsocket
          · cases hnone.symm.trans hconn
        · exact fun hne => absurd hnone hne
        · refine ⟨_, htrace, fun effect heffect _ => ?_⟩
          exact effects_of_timer hbrings hnone haccept htimer effect heffect
  · left
    constructor
    · rw [hloop]
      exact (htouches.others fd hfd).connections
    · rw [hloop]
      exact fun _ => Or.inl (htouches.others fd hfd).epoll
    · refine ⟨_, htrace, fun effect heffect heq => ?_⟩
      exact absurd (heq.symm.trans (by_exec r.loop op effect heffect).fd_eq) hfd

/-- What a step is to a descriptor that is not registered for accepting. -/
theorem view_of_step (h : Owned r) (haccept : r.loop.acceptSocketSet fd = none)
    (hno : ¬ a.RegistersAccept fd) (hstep : r.step a = some r') :
    IdleAt fd r r' ∨ ∃ op, (a = .task op ∨ a = .call op) ∧ ActsAt fd op r r' := by
  have hidle : ∀ r'' : RunningLoop F, r''.loop.connections fd = r.loop.connections fd →
      (r.loop.connections fd ≠ none → r''.loop.epoll fd = r.loop.epoll fd ∨
        r''.loop.epoll fd = (r.loop.epoll fd).map Interest.disarmed) →
      r''.trace = r.trace → IdleAt fd r r'' := fun r'' hconnection hinterest htrace =>
    ⟨hconnection, hinterest, [], htrace.trans (List.append_nil _).symm, List.forall_mem_nil _⟩
  have hsame : ∀ r'' : RunningLoop F, SameAt fd r.loop r''.loop → r''.trace = r.trace →
      IdleAt fd r r'' := fun r'' h htrace =>
    hidle r'' h.connections (fun _ => Or.inl h.epoll) htrace
  cases stepped_of_step hstep with
  | wait => exact Or.inl (hidle _ rfl (fun _ => foldl_disarm_eq _ _ fd) rfl)
  | @task op hhead hcan =>
      have hview : IdleAt fd r (r.perform op) ∨ ActsAt fd op r (r.perform op) :=
        view_of_perform h haccept (possible_of_canRun hcan) (canRun_holds hcan) rfl rfl
      exact hview.imp id fun hacts => ⟨op, Or.inl rfl, hacts⟩
  | @call op call calls hcalls hmakes hpossible =>
      have hview : IdleAt fd r { r.perform op with calls := calls } ∨
          ActsAt fd op r { r.perform op with calls := calls } := by
        refine view_of_perform h haccept hpossible (fun socket hsocket => ?_) rfl rfl
        cases (holds_of_makes hmakes).symm.trans hsocket
      exact hview.imp id fun hacts => ⟨op, Or.inr rfl, hacts⟩
  | drained | timerFailed | openSocket => exact Or.inl (hsame _ ⟨rfl, rfl, rfl, rfl⟩ rfl)
  | @registerAccept fd' socket callback hhead hsocket =>
      have hne : fd ≠ fd' := fun heq => hno heq.symm
      exact Or.inl (hsame _ (sameAt_doRegisterAccept hne socket callback) rfl)
  | @timerRejected via callback timerfd hunused =>
      have hnone : OwnedAt r.loop timerfd none := hunused ▸ h timerfd
      refine Or.inl (hsame _ ?_ rfl)
      show SameAt fd r.loop (r.loop.addTimer callback (.rejected timerfd))
      rw [addTimer_rejected (hnone.timer_none nofun)]
      exact ⟨rfl, rfl, rfl, rfl⟩
  | @timerAdded via callback timerfd owner howner hunused =>
      have hnone : OwnedAt r.loop timerfd none := hunused ▸ h timerfd
      refine Or.inl (hidle _ ?_ (fun hlive => Or.inl ?_) rfl)
      · show (r.loop.addTimer callback (.added timerfd)).connections fd = _
        rw [addTimer_added (hnone.timer_none nofun) hnone.interest_none]
      · have hne : fd ≠ timerfd := fun heq => hlive (heq ▸ hnone.connection_none)
        exact (sameAt_addTimer hnone hne callback).epoll
  | @release fd' hreleased =>
      refine Or.inl (hidle _ rfl (fun hlive => Or.inl ?_) rfl)
      have hne : fd ≠ fd' := fun heq => hlive (heq ▸ (released_eq hreleased).1)
      exact Function.update_of_ne hne _ _

end View

section Lively

open RunningLoop EventLoopThread

variable {r r' : RunningLoop F} {fd : Fd} {op : Op F} {a : LoopStep F}

/-- The first call of a batch for a descriptor is the only one that reads it. -/
def ReadsFirst (fd : Fd) (call call' : Call) : Prop :=
  call' = .handleRead fd → call.fd? ≠ some fd

/-- What holds of a descriptor that is never registered for accepting: it is polled for a read
that is still to come. -/
structure Lively (fd : Fd) (r : RunningLoop F) : Prop where
  owned : Owned r
  accept : r.loop.acceptSocketSet fd = none
  kept : ∃ lives, KeptAt (r.loop.connections fd) lives
  turns : r.calls.Pairwise (ReadsFirst fd)
  polled : .handleRead fd ∈ r.calls → r.loop.connections fd ≠ none → r.loop.epoll fd ≠ none

theorem lively_fresh (fd : Fd) : Lively fd (fresh : RunningLoop F) := by
  constructor
  · exact owned_fresh
  · rfl
  · refine ⟨{}, List.forall_mem_nil _, fun _ hconn => ?_, fun _ => rfl⟩
    cases hconn
  · exact List.Pairwise.nil
  · exact fun hmem => absurd hmem List.not_mem_nil

theorem acceptSocketSet_emplaceTimer (s : EventLoopThread F) (timerfd : Fd) (callback : Option F) :
    (s.emplaceTimer timerfd callback).acceptSocketSet = s.acceptSocketSet := by
  unfold emplaceTimer
  split <;> rfl

theorem acceptSocketSet_addTimer (s : EventLoopThread F) (callback : Option F)
    (outcome : TimerOutcome) :
    (s.addTimer callback outcome).acceptSocketSet = s.acceptSocketSet := by
  cases outcome with
  | failed => rfl
  | rejected timerfd => exact acceptSocketSet_emplaceTimer s timerfd callback
  | added timerfd => exact acceptSocketSet_emplaceTimer s timerfd callback

theorem accept_of_step (haccept : r.loop.acceptSocketSet fd = none) (hno : ¬ a.RegistersAccept fd)
    (hstep : r.step a = some r') : r'.loop.acceptSocketSet fd = none := by
  have hexec : ∀ op, (r.loop.exec op).1.acceptSocketSet fd = none := by
    intro op
    have htouches := exec_touches r.loop op
    by_cases hfd : fd = op.fd
    · subst hfd
      exact htouches.acceptor.elim (fun hsame => hsame.trans haccept) id
    · exact (htouches.others fd hfd).acceptSocketSet.trans haccept
  cases stepped_of_step hstep with
  | task => exact hexec _
  | call => exact hexec _
  | wait | drained | timerFailed | openSocket | release => exact haccept
  | @registerAccept fd' socket callback hhead hsocket =>
      have hne : fd ≠ fd' := fun heq => hno heq.symm
      exact (sameAt_doRegisterAccept hne socket callback).acceptSocketSet.trans haccept
  | @timerRejected via callback timerfd hunused =>
      show (r.loop.addTimer callback (.rejected timerfd)).acceptSocketSet fd = none
      rw [acceptSocketSet_addTimer]
      exact haccept
  | @timerAdded via callback timerfd owner howner hunused =>
      show (r.loop.addTimer callback (.added timerfd)).acceptSocketSet fd = none
      rw [acceptSocketSet_addTimer]
      exact haccept

theorem fd_of_mem_event {event : Event} {call : Call} (h : call ∈ event.calls) :
    call.fd? = event.fd? := by
  cases event with
  | wakeup =>
      cases List.mem_singleton.mp h
      rfl
  | ready => exact fd_of_mem_calls h

/-- Within an event the read comes before the write, and no two events have a descriptor. -/
theorem turns_of_events (fd : Fd) {events : List Event}
    (hnodup : (events.map Event.fd?).Nodup) :
    (events.flatMap Event.calls).Pairwise (ReadsFirst fd) := by
  rw [List.pairwise_flatMap]
  constructor
  · intro event hevent
    cases event with
    | wakeup => exact List.pairwise_singleton _ _
    | ready fd' hangup input output =>
        cases hangup <;> cases input <;> cases output <;> simp [Event.calls, ReadsFirst]
  · refine (List.pairwise_map.mp hnodup).imp fun hne call hcall call' hcall' hread hfd => hne ?_
    rw [← fd_of_mem_event hcall, ← fd_of_mem_event hcall', hfd, hread]
    rfl

/-- A task that leaves a connection leaves it polled. -/
theorem stepEvents_ne_none {old : Option (Connection F)} {events : Option Interest}
    (htask : op.isTask = true) (hnew : (stepConnection old op).1 ≠ none)
    (h : old ≠ none → events ≠ none) : stepEvents old events op ≠ none := by
  have hwrite : writeEvents old events ≠ none := by
    cases old with
    | none => exact Option.some_ne_none _
    | some conn =>
        have hevents := h (Option.some_ne_none _)
        unfold writeEvents
        simp only
        split
        · exact hevents
        · simpa using hevents
  cases op with
  | handleRead | handleWrite => cases htask
  | registerRead fd socket callback =>
      cases old with
      | none => exact Option.some_ne_none _
      | some conn =>
          have hevents := h (Option.some_ne_none _)
          simp only [stepEvents]
          split
          · exact hevents
          · simpa using hevents
  | writeOnce | writeBatch => exact hwrite
  | registerHighLevel | registerLowLevel | registerClose =>
      apply h
      rintro rfl
      exact hnew rfl
  | close => cases old <;> exact absurd rfl hnew

theorem calls_of_call (h : r.step (.call op) = some r') :
    ∃ call, r.calls = call :: r'.calls ∧ call.makes op = true := by
  cases stepped_of_step h with
  | call hcalls hmakes => exact ⟨_, hcalls, hmakes⟩

theorem isTask_of_task (h : r.step (.task op) = some r') : op.isTask = true := by
  cases stepped_of_step h with
  | task hhead hcan => exact (Bool.and_eq_true _ _ ▸ hcan).1

theorem calls_of_task (h : r.step (.task op) = some r') : r'.calls = r.calls := by
  cases stepped_of_step h
  rfl

theorem ActsAt.move (h : ActsAt fd op r r') :
    Move fd op.submissions (r.loop.connections fd) (r'.loop.connections fd)
      (stepConnection (r.loop.connections fd) op).2 := by
  obtain ⟨rfl, hpossible, hconnection, -, -⟩ := h
  rw [hconnection]
  refine stepConnection_move op fun conn n hconn hop => ?_
  rw [hop, possible_accepted_iff hconn] at hpossible
  exact hpossible.2

/-- A read that is still to come behind a step finds its descriptor polled. -/
theorem Lively.polled_step (h : Lively fd r) (hno : ¬ a.RegistersAccept fd)
    (hstep : r.step a = some r') (hmem : .handleRead fd ∈ r'.calls)
    (hlive : r'.loop.connections fd ≠ none) : r'.loop.epoll fd ≠ none := by
  rcases view_of_step h.owned h.accept hno hstep with hidle | ⟨op, ha, hacts⟩
  · have hlive' : r.loop.connections fd ≠ none := hidle.connection ▸ hlive
    have hbefore : r.loop.epoll fd ≠ none := by
      rcases wait_or_sublist hstep with ⟨events, rfl⟩ | hsublist
      · exact (interest_of_wait hstep hmem rfl).2
      · exact h.polled (hsublist.subset hmem) hlive'
    rcases hidle.interest hlive' with heq | heq
    · rw [heq]
      exact hbefore
    · rw [heq]
      simpa using hbefore
  · rcases ha with rfl | rfl
    · rw [calls_of_task hstep] at hmem
      rw [hacts.interest]
      rw [hacts.connection] at hlive
      exact stepEvents_ne_none (isTask_of_task hstep) hlive (h.polled hmem)
    · -- the call that was made is not followed by a read of its descriptor
      obtain ⟨call, hcalls, hmakes⟩ := calls_of_call hstep
      have hturns := h.turns
      rw [hcalls, List.pairwise_cons] at hturns
      have hfd : call.fd? = some fd := hacts.fd_eq ▸ fd_of_makes hmakes
      exact absurd hfd (hturns.1 _ hmem rfl)

theorem Lively.step (h : Lively fd r) (hno : ¬ a.RegistersAccept fd)
    (hstep : r.step a = some r') : Lively fd r' := by
  constructor
  · exact h.owned.step hstep
  · exact accept_of_step h.accept hno hstep
  · obtain ⟨lives, hkept⟩ := h.kept
    rcases view_of_step h.owned h.accept hno hstep with hidle | ⟨op, -, hacts⟩
    · exact ⟨lives, hidle.connection ▸ hkept⟩
    · exact ⟨_, hacts.move.kept hkept⟩
  · rcases wait_or_sublist hstep with ⟨events, rfl⟩ | hsublist
    · cases stepped_of_step hstep with
      | wait hcalls hlength hnodup => exact turns_of_events fd hnodup
    · exact h.turns.sublist hsublist
  · exact h.polled_step hno hstep

end Lively

section Since

variable {fd : Fd} {queue : List (WriteMetaInfo F)} {since effects : List (Effect F)}

theorem livesSince_append_self (h : ∀ effect ∈ effects, effect.fd = fd) :
    livesSince fd queue (since ++ effects) =
      effects.foldl Lives.observe (livesSince fd queue since) := by
  rw [livesSince, filter_fd_append_self h, List.foldl_append]
  rfl

theorem livesSince_append_timers
    (h : ∀ effect ∈ effects, effect.fd = fd → ∃ f, effect = .timer fd f) :
    livesSince fd queue (since ++ effects) = livesSince fd queue since := by
  rw [livesSince, List.filter_append, List.foldl_append]
  refine foldl_quiet fun effect heffect => (?_ : effect.Quiet fd)
  obtain ⟨hmem, hfd⟩ := List.mem_filter.mp heffect
  obtain ⟨f, rfl⟩ := h effect hmem (by simpa using hfd)
  exact ⟨rfl, rfl⟩

/-- No read callback is made for a descriptor until it is closed. -/
def Silent (fd : Fd) (since : List (Effect F)) : Prop :=
  ∀ before f buffer size after, since = before ++ .read fd f buffer size :: after →
    .closed fd ∈ before

theorem silent_nil : Silent fd ([] : List (Effect F)) := by
  intro before f buffer size after heq
  cases (List.append_eq_nil_iff.mp heq.symm).2

theorem Silent.append (h : Silent fd since)
    (heffects : .closed fd ∉ since → ∀ f buffer size, .read fd f buffer size ∉ effects) :
    Silent fd (since ++ effects) := by
  intro before f buffer size after heq
  rcases List.append_eq_append_iff.mp heq with ⟨rest, rfl, hafter⟩ | ⟨rest, hsince, hafter⟩
  · apply List.mem_append_left
    by_contra hopen
    apply heffects hopen f buffer size
    rw [hafter]
    exact List.mem_append_right _ List.mem_cons_self
  · cases rest with
    | nil =>
        rw [List.append_nil] at hsince
        subst hsince
        by_contra hopen
        apply heffects hopen f buffer size
        rw [← show _ = effects from hafter]
        exact List.mem_cons_self
    | cons effect rest =>
        obtain ⟨rfl, -⟩ := List.cons.inj hafter
        exact h before f buffer size rest hsince

end Since

section HalfClosed

open RunningLoop

variable {r r' : RunningLoop F} {fd : Fd} {op : Op F} {a : LoopStep F}
  {queue : List (WriteMetaInfo F)} {since : List (Effect F)} {lives : Lives F}

theorem length_finish_le (n : ℕ) (queue : List (WriteMetaInfo F)) :
    (Connection.finish n queue).1.length ≤ queue.length := by
  induction queue generalizing n with
  | nil => exact le_rfl
  | cons m queue ih =>
      rw [Connection.finish]
      split
      · exact le_rfl
      · split
        · exact (ih _).trans (Nat.le_succ _)
        · exact le_rfl

/-- An entry comes into a queue only by being submitted. -/
theorem Move.pending (lives : Lives F) {submissions : List (Submission F)}
    {conn conn' : Connection F} {effects : List (Effect F)}
    (h : Move fd submissions (some conn) (some conn') effects) :
    lives.current.submitted.length ≤
        (effects.foldl Lives.observe lives).current.submitted.length ∧
      lives.current.submitted.length + conn'.writeQueue.length ≤
        (effects.foldl Lives.observe lives).current.submitted.length + conn.writeQueue.length := by
  cases h with
  | quiet hnone hqueue hkeep heffects =>
      rw [foldl_quiet heffects, show conn'.writeQueue = conn.writeQueue from hqueue]
      exact ⟨le_rfl, le_rfl⟩
  | queued hqueue hrest =>
      rw [List.foldl_append, foldl_ofSubmission, foldl_quiet hrest, hqueue]
      simp [queueOf]
      omega
  | sent n hnone hold hn hqueue hrest =>
      cases hold
      rw [List.foldl_cons, List.foldl_append, foldl_ofCall, foldl_quiet hrest, hqueue]
      exact ⟨le_rfl, Nat.add_le_add_left (length_finish_le n _) _⟩

/-- A connection that goes away is closed. -/
theorem Move.closed {submissions : List (Submission F)} {conn : Connection F}
    {effects : List (Effect F)} (h : Move fd submissions (some conn) none effects) :
    .closed fd ∈ effects := by
  cases h with
  | quiet hnone hqueue hkeep => cases hkeep rfl
  | ended => exact List.mem_append_right _ (List.mem_singleton.mpr rfl)

/-- The connection whose peer has closed its side, while it is open. -/
structure Waiting (fd : Fd) (queue : List (WriteMetaInfo F)) (lives : Lives F)
    (r : RunningLoop F) (conn : Connection F) : Prop where
  connection : r.loop.connections fd = some conn
  half : HalfClosed conn (r.loop.epoll fd)
  unread : .handleRead fd ∉ r.calls
  submitted : queue.length ≤ lives.current.submitted.length
  armed : lives.current.submitted.length < queue.length + conn.writeQueue.length →
    r.loop.epoll fd ≠ none

/-- The invariant behind the end of a stream. -/
structure Ending (fd : Fd) (queue : List (WriteMetaInfo F)) (since : List (Effect F))
    (r : RunningLoop F) : Prop where
  lively : Lively fd r
  kept : KeptAt (r.loop.connections fd) (livesSince fd queue since)
  silent : Silent fd since
  waiting : .closed fd ∉ since → ∃ conn, Waiting fd queue (livesSince fd queue since) r conn

/-- No call of `run` reads the descriptor. -/
theorem Waiting.isHandleRead {conn : Connection F} (h : Waiting fd queue lives r conn)
    (ha : a = .task op ∨ a = .call op) (hstep : r.step a = some r') (hfd : op.fd = fd) :
    op.isHandleRead = false := by
  rcases ha with rfl | rfl
  · have htask := isTask_of_task hstep
    cases op with
    | handleRead => cases htask
    | _ => rfl
  · obtain ⟨call, hcalls, hmakes⟩ := calls_of_call hstep
    cases op with
    | handleRead fd' outcome consumed =>
        obtain rfl : fd' = fd := hfd
        refine absurd ?_ h.unread
        rw [hcalls, eq_handleRead_of_makes hmakes]
        exact List.mem_cons_self
    | _ => rfl

theorem Waiting.acts {conn conn' : Connection F} (h : Waiting fd queue lives r conn)
    (hacts : ActsAt fd op r r') (hread : op.isHandleRead = false)
    (hunread : .handleRead fd ∉ r'.calls) (hconn' : r'.loop.connections fd = some conn') :
    Waiting fd queue
      ((stepConnection (r.loop.connections fd) op).2.foldl Lives.observe lives) r' conn' := by
  have hmove := hacts.move
  rw [hconn', h.connection] at hmove
  rw [h.connection]
  obtain ⟨hgrown, hpending⟩ := hmove.pending lives
  have hnew := hacts.connection.symm.trans hconn'
  rw [h.connection] at hnew
  obtain ⟨hhalf, hstays⟩ := h.half.step hread hnew
  have hevents := hacts.interest
  rw [h.connection] at hevents
  constructor
  · exact hconn'
  · exact hevents ▸ hhalf
  · exact hunread
  · exact h.submitted.trans hgrown
  · intro hlt
    rw [hevents]
    apply hstays
    · -- more is submitted than was queued, so that something is left
      intro hempty
      have := h.submitted
      rw [hempty, List.length_nil] at hlt
      omega
    · apply h.armed
      omega

theorem Waiting.idle {conn : Connection F} (h : Waiting fd queue lives r conn)
    (hidle : IdleAt fd r r') (hunread : .handleRead fd ∉ r'.calls) :
    Waiting fd queue lives r' conn := by
  have hsame : r'.loop.epoll fd = r.loop.epoll fd := by
    rcases hidle.interest (h.connection ▸ Option.some_ne_none conn) with heq | heq
    · exact heq
    · rw [heq]
      cases hevents : r.loop.epoll fd with
      | none => rfl
      | some events =>
          rw [h.half.output events hevents]
          rfl
  constructor
  · exact hidle.connection.trans h.connection
  · exact hsame ▸ h.half
  · exact hunread
  · exact h.submitted
  · exact hsame ▸ h.armed

/-- A batch has no read for a descriptor that waits for output only. -/
theorem Waiting.unread_step {conn : Connection F} (h : Waiting fd queue lives r conn)
    (hstep : r.step a = some r') : .handleRead fd ∉ r'.calls := by
  intro hmem
  rcases wait_or_sublist hstep with ⟨events, rfl⟩ | hsublist
  · cases stepped_of_step hstep with
    | wait hcalls hlength hnodup hreported =>
        obtain ⟨event, hevent, hcall⟩ := List.mem_flatMap.mp hmem
        obtain ⟨interest, hinterest, hinput⟩ :=
          input_of_reported (hreported event hevent) hcall
        rw [h.half.output interest hinterest] at hinput
        cases hinput
  · exact h.unread (hsublist.subset hmem)

theorem Ending.step (h : Ending fd queue since r) (hno : ¬ a.RegistersAccept fd)
    (hstep : r.step a = some r') :
    ∃ effects, r'.trace = r.trace ++ effects ∧ Ending fd queue (since ++ effects) r' := by
  have hlively := h.lively.step hno hstep
  rcases view_of_step h.lively.owned h.lively.accept hno hstep with hidle | ⟨op, ha, hacts⟩
  · obtain ⟨effects, htrace, htimers⟩ := hidle.trace
    refine ⟨effects, htrace, hlively, ?_, ?_, ?_⟩
    · rw [livesSince_append_timers htimers, hidle.connection]
      exact h.kept
    · apply h.silent.append
      intro hopen f buffer size hmem
      obtain ⟨f', heq⟩ := htimers _ hmem rfl
      cases heq
    · rw [livesSince_append_timers htimers]
      intro hopen
      obtain ⟨conn, hwaiting⟩ := h.waiting fun hmem => hopen (List.mem_append_left _ hmem)
      exact ⟨conn, hwaiting.idle hidle (hwaiting.unread_step hstep)⟩
  · have hmove := hacts.move
    refine ⟨_, hacts.trace, hlively, ?_, ?_, ?_⟩
    · rw [livesSince_append_self hmove.fd_eq]
      exact hmove.kept h.kept
    · apply h.silent.append
      intro hopen f buffer size hmem
      obtain ⟨conn, hwaiting⟩ := h.waiting hopen
      have hread := (byConnection_stepConnection op _ hmem).2
      rw [show op.isHandleRead = false from hwaiting.isHandleRead ha hstep hacts.fd_eq] at hread
      cases hread
    · rw [livesSince_append_self hmove.fd_eq]
      intro hopen
      obtain ⟨conn, hwaiting⟩ := h.waiting fun hmem => hopen (List.mem_append_left _ hmem)
      have hread := hwaiting.isHandleRead ha hstep hacts.fd_eq
      cases hconn' : r'.loop.connections fd with
      | none =>
          rw [hconn', hwaiting.connection] at hmove
          rw [hwaiting.connection] at hopen
          exact absurd (List.mem_append_right _ hmove.closed) hopen
      | some conn' => exact ⟨conn', hwaiting.acts hacts hread (hwaiting.unread_step hstep) hconn'⟩

theorem Ending.endOfStream (h : Ending fd queue since r) : EndOfStream fd queue since r.loop := by
  constructor
  · exact h.silent
  · intro hopen
    obtain ⟨conn, hwaiting⟩ := h.waiting hopen
    refine ⟨conn, hwaiting.connection, hwaiting.half.peer, fun events hevents => ?_, ?_, ?_⟩
    · rw [hwaiting.half.output events hevents]
      rfl
    · exact (h.kept.kept conn hwaiting.connection).open'
    · intro hlt
      obtain ⟨events, hevents⟩ := Option.ne_none_iff_exists'.mp (hwaiting.armed hlt)
      rw [hevents, hwaiting.half.output events hevents]
  · exact h.kept.ended

/-- The step of `handleRead` at the end of the stream. -/
theorem ending_zero {conn : Connection F} {consumed : ℕ} (h : Lively fd r)
    (hconn : r.loop.connections fd = some conn)
    (hstep : r.step (.call (.handleRead fd .zero consumed)) = some r') :
    r'.trace = r.trace ++ (conn.readCb.map (Effect.read fd · conn.readBuffer.buffer 0)).toList ∧
      Ending fd conn.writeQueue [] r' := by
  have hlively : Lively fd r' := h.step id hstep
  obtain ⟨call, hcalls, hmakes⟩ := calls_of_call hstep
  have hcall : call = .handleRead fd := eq_handleRead_of_makes hmakes
  have hpolled : r.loop.epoll fd ≠ none := by
    apply h.polled
    · rw [hcalls, hcall]
      exact List.mem_cons_self
    · exact hconn ▸ Option.some_ne_none conn
  have hunread : .handleRead fd ∉ r'.calls := by
    intro hmem
    have hturns := h.turns
    rw [hcalls, List.pairwise_cons] at hturns
    exact hturns.1 _ hmem rfl (hcall ▸ rfl)
  obtain ⟨conn', hnew, hqueue, hhalf, hstays⟩ :=
    halfClosed_zero conn (r.loop.epoll fd) fd consumed
  have hplain : r.loop.PlainAt fd := ⟨h.accept, (h.owned fd).timer_of_connection hconn⟩
  have hacts : ActsAt fd (.handleRead fd .zero consumed) r r' := by
    cases stepped_of_step hstep with
    | call hcalls' hmakes' hpossible => exact actsAt_of_plain hplain hpossible rfl rfl
  have hconn' : r'.loop.connections fd = some conn' := by
    rw [hacts.connection, hconn]
    exact hnew
  have hevents := hacts.interest
  rw [hconn] at hevents
  have htrace := hacts.trace
  rw [hconn] at htrace
  obtain ⟨lives, hkept⟩ := h.kept
  have hqueued : Kept conn'.writeQueue (livesSince fd conn.writeQueue []).current := by
    rw [hqueue]
    exact ⟨⟨[], rfl, rfl, rfl⟩, (hkept.kept conn hconn).tail⟩
  have hlength : (livesSince fd conn.writeQueue ([] : List (Effect F))).current.submitted.length =
      conn.writeQueue.length := List.length_map _
  refine ⟨htrace, hlively, ⟨List.forall_mem_nil _, fun c hc => ?_, fun hnone => ?_⟩, silent_nil,
    fun _ => ⟨conn', hconn', hevents ▸ hhalf, hunread, hlength.ge, fun hlt => ?_⟩⟩
  · cases hconn'.symm.trans hc
    exact hqueued
  · cases hconn'.symm.trans hnone
  · rw [hevents]
    refine hstays (fun hempty => ?_) hpolled
    rw [hlength, hqueue, hempty] at hlt
    exact absurd hlt (Nat.lt_irrefl 0)

end HalfClosed

/-- The end of a stream is told once and last. In every run of a loop that does not register the
descriptor for accepting, the read of size zero calls the read callback with no bytes; from then
on, until the connection is closed, no read callback is made and the input is not asked for, and
the entries that were queued stay, waiting for output, until they are sent or fail. -/
theorem endOfStream_of_run {fd : Fd} {r₀ r₁ r : RunningLoop F} {before later : List (LoopStep F)}
    {consumed : ℕ} {conn : Connection F}
    (hbefore : run RunningLoop.step .fresh before = some r₀)
    (hconn : r₀.loop.connections fd = some conn)
    (hzero : r₀.step (.call (.handleRead fd .zero consumed)) = some r₁)
    (hlater : run RunningLoop.step r₁ later = some r)
    (hno : ∀ a ∈ before ++ later, ¬ a.RegistersAccept fd) :
    r₁.trace = r₀.trace ++ (conn.readCb.map (Effect.read fd · conn.readBuffer.buffer 0)).toList ∧
      ∃ since, r.trace = r₁.trace ++ since ∧ EndOfStream fd conn.writeQueue since r.loop := by
  have hlively : Lively fd r₀ :=
    run_invariant_of_forall (fun _ _ _ h hno hstep => h.step hno hstep) (lively_fresh fd)
      (fun a ha => hno a (List.mem_append_left _ ha)) hbefore
  obtain ⟨htold, hending⟩ := ending_zero hlively hconn hzero
  refine ⟨htold, ?_⟩
  have hsince : ∃ since, r.trace = r₁.trace ++ since ∧ Ending fd conn.writeQueue since r := by
    refine run_invariant_of_forall
      (I := fun r => ∃ since, r.trace = r₁.trace ++ since ∧ Ending fd conn.writeQueue since r)
      (fun r a r' h hno hstep => ?_) ⟨[], (List.append_nil _).symm, hending⟩
      (fun a ha => hno a (List.mem_append_right _ ha)) hlater
    obtain ⟨since, htrace, hending⟩ := h
    obtain ⟨effects, hstepped, hending'⟩ := hending.step hno hstep
    exact ⟨since ++ effects, by rw [hstepped, htrace, List.append_assoc], hending'⟩
  obtain ⟨since, htrace, hending'⟩ := hsince
  exact ⟨since, htrace, hending'.endOfStream⟩

/-- Two bytes are queued when the peer closes its side. -/
def halfCloseRun : List (LoopStep Unit) :=
  [.openSocket 5, .wait [.wakeup], .task (.registerRead 5 0 (some ())),
    .task (.writeOnce 5 0 (some ()) [1, 2]), .drained, .wait [.ready 5 false true true]]

/-- The write that was reported with it takes one byte; a reader comes again, and then the rest
is written. -/
def afterHalfClose : List (LoopStep Unit) :=
  [.call (.handleWrite 5 (.accepted 1)), .wait [.wakeup, .ready 5 false false true],
    .task (.registerRead 5 0 (some ())), .drained, .call (.handleWrite 5 (.accepted 1))]

theorem endOfStream_afterHalfClose : ∃ (r₀ r₁ r : RunningLoop Unit) (conn : Connection Unit),
    run RunningLoop.step .fresh halfCloseRun = some r₀ ∧ r₀.loop.connections 5 = some conn ∧
      r₀.step (.call (.handleRead 5 .zero 0)) = some r₁ ∧
      run RunningLoop.step r₁ afterHalfClose = some r ∧
      (∃ since, r.trace = r₁.trace ++ since ∧ EndOfStream 5 conn.writeQueue since r.loop) ∧
      r.loop.epoll 5 = none := by
  obtain ⟨r₀, r₁, r, conn, hbefore, hconn, hzero, hlater, hevents⟩ :
      ∃ (r₀ r₁ r : RunningLoop Unit) (conn : Connection Unit),
        run RunningLoop.step .fresh halfCloseRun = some r₀ ∧ r₀.loop.connections 5 = some conn ∧
          r₀.step (.call (.handleRead 5 .zero 0)) = some r₁ ∧
          run RunningLoop.step r₁ afterHalfClose = some r ∧ r.loop.epoll 5 = none :=
    ⟨_, _, _, _, rfl, rfl, rfl, rfl, rfl⟩
  have hno : ∀ a ∈ halfCloseRun ++ afterHalfClose, ¬ a.RegistersAccept 5 := by decide
  exact ⟨r₀, r₁, r, conn, hbefore, hconn, hzero, hlater,
    (endOfStream_of_run hbefore hconn hzero hlater hno).2, hevents⟩

end SimpleRedis.Net
