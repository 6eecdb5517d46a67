import SimpleRedis.RunningLoop

/-!
# Who owns a descriptor

The tables of a loop are keyed by descriptor numbers. In every run they agree with the open
descriptors: a connection or an acceptor belongs to the socket that has the number now, a timer
of the loop is the timer that has it, and what `epoll` polls is open.
-/
namespace SimpleRedis.Net

open TransitionRun

variable {F : Type*}

/-- A call that only an input event makes. -/
def Op.isHandleRead : Op F → Bool
  | .handleRead _ _ _ => true
  | _ => false

/-- An effect that a step can have on the connection of its descriptor. -/
def Effect.ByConnection (op : Op F) (effect : Effect F) : Prop :=
  effect.fd = op.fd ∧
    match effect with
    | .read _ _ _ _ => op.isHandleRead = true
    | .accept _ _ | .timer _ _ => False
    | _ => True

/-- An effect that a step can have. -/
def Effect.By (s : EventLoopThread F) (op : Op F) (effect : Effect F) : Prop :=
  effect.ByConnection op ∨ op.isHandleRead = true ∧
    ((∃ f, effect = .accept op.fd f) ∨
      ∃ f, effect = .timer op.fd f ∧ s.timerFds op.fd = some (some f))

section Effects

open Connection

variable (op : Op F) {old : Option (Connection F)}

theorem byConnection_checkHighLevel (conn : Connection F) :
    ∀ effect ∈ (conn.checkHighLevel op.fd).2, effect.ByConnection op := by
  unfold checkHighLevel
  split
  · split
    · split
      · exact List.forall_mem_nil _
      · exact List.forall_mem_singleton.mpr ⟨rfl, trivial⟩
    · exact List.forall_mem_nil _
  · exact List.forall_mem_nil _

theorem byConnection_checkLowLevel (conn : Connection F) :
    ∀ effect ∈ (conn.checkLowLevel op.fd).2, effect.ByConnection op := by
  unfold checkLowLevel
  split
  · split
    · exact List.forall_mem_singleton.mpr ⟨rfl, trivial⟩
    · exact List.forall_mem_nil _
  · exact List.forall_mem_nil _

theorem byConnection_toList {e : F → Effect F} (he : ∀ f, (e f).ByConnection op)
    (callback : Option F) : ∀ effect ∈ (callback.map e).toList, effect.ByConnection op := by
  cases callback with
  | none => exact List.forall_mem_nil _
  | some f => exact List.forall_mem_singleton.mpr (he f)

theorem byConnection_map {α : Type*} {e : α → Effect F} (he : ∀ a, (e a).ByConnection op)
    (xs : List α) : ∀ effect ∈ xs.map e, effect.ByConnection op :=
  List.forall_mem_map.mpr fun a _ => he a

theorem byConnection_failAll (conn : Connection F) :
    ∀ effect ∈ (conn.failAllPendingWrites op.fd).2, effect.ByConnection op := by
  rw [(failAllPendingWrites_eq op.fd conn).2]
  exact byConnection_map op (fun _ => ⟨rfl, trivial⟩) _

theorem byConnection_closeEffects (conn : Connection F) :
    ∀ effect ∈ conn.closeEffects op.fd, effect.ByConnection op :=
  List.forall_mem_append.mpr ⟨List.forall_mem_append.mpr
    ⟨byConnection_toList op (fun _ => ⟨rfl, trivial⟩) _, byConnection_failAll op conn⟩,
      List.forall_mem_singleton.mpr ⟨rfl, trivial⟩⟩

theorem byConnection_stepWrite {socket : Socket}
    {enqueue : Connection F → Connection F × List (Effect F)}
    (henqueue : ∀ conn, ∀ effect ∈ (enqueue conn).2, effect.ByConnection op) :
    ∀ effect ∈ (stepWrite op.fd old socket enqueue).2, effect.ByConnection op :=
  List.forall_mem_append.mpr ⟨henqueue _, byConnection_checkHighLevel op _⟩

theorem byConnection_stepConnection :
    ∀ effect ∈ (stepConnection old op).2, effect.ByConnection op := by
  cases op with
  | registerRead => cases old <;> exact List.forall_mem_nil _
  | writeOnce fd socket callback buf =>
      exact byConnection_stepWrite (.writeOnce fd socket callback buf)
        fun _ => List.forall_mem_singleton.mpr ⟨rfl, trivial⟩
  | writeBatch fd socket callbacks bufs =>
      refine byConnection_stepWrite (.writeBatch fd socket callbacks bufs) fun conn => ?_
      rw [(enqueueBatch_eq callbacks 0 bufs).2]
      exact byConnection_map _ (fun _ => ⟨rfl, trivial⟩) _
  | registerHighLevel | registerLowLevel | registerClose => exact List.forall_mem_nil _
  | handleRead fd outcome consumed =>
      cases old with
      | none => exact List.forall_mem_nil _
      | some conn =>
          cases outcome with
          | bytes chunk =>
              show ∀ effect ∈ (conn.receive fd chunk consumed).2, _
              unfold receive
              cases conn.readCb with
              | none => exact List.forall_mem_nil _
              | some f => exact List.forall_mem_singleton.mpr ⟨rfl, rfl⟩
          | zero => exact byConnection_toList _ (fun _ => ⟨rfl, rfl⟩) _
          | again => exact List.forall_mem_nil _
          | error => exact byConnection_closeEffects (.handleRead fd .error consumed) conn
  | handleWrite fd outcome =>
      cases old with
      | none => exact List.forall_mem_nil _
      | some conn =>
          simp only [stepConnection]
          split
          · exact List.forall_mem_nil _
          · cases outcome with
            | accepted n =>
                exact List.forall_mem_cons.mpr ⟨⟨rfl, trivial⟩, List.forall_mem_append.mpr
                  ⟨byConnection_map _ (fun _ => ⟨rfl, trivial⟩) _,
                    byConnection_checkLowLevel (.handleWrite fd (.accepted n)) _⟩⟩
            | again => exact List.forall_mem_nil _
            | error =>
                exact List.forall_mem_append.mpr
                  ⟨byConnection_failAll (.handleWrite fd .error) conn,
                    byConnection_closeEffects (.handleWrite fd .error) _⟩
  | close fd =>
      cases old with
      | none => exact List.forall_mem_nil _
      | some conn => exact byConnection_closeEffects (.close fd) conn

theorem Effect.By.fd_eq {s : EventLoopThread F} {op : Op F} {effect : Effect F}
    (h : effect.By s op) : effect.fd = op.fd := by
  rcases h with h | ⟨-, ⟨f, rfl⟩ | ⟨f, rfl, -⟩⟩
  · exact h.1
  · rfl
  · rfl

end Effects

namespace EventLoopThread

section Effects

theorem byConnection_closeConnection (op : Op F) (s : EventLoopThread F) :
    ∀ effect ∈ (s.closeConnection op.fd).2, effect.ByConnection op := by
  unfold closeConnection
  simp only
  split
  · exact List.forall_mem_nil _
  · split
    · exact List.forall_mem_nil _
    · exact byConnection_closeEffects op _

theorem by_handleRead (fd : Fd) (outcome : ReadOutcome) (consumed : ℕ) (s : EventLoopThread F) :
    ∀ effect ∈ (s.handleRead fd outcome consumed).2,
      effect.By s (.handleRead fd outcome consumed) := by
  cases haccept : s.acceptSocketSet fd with
  | some ctx =>
      simp only [handleRead, handleAccept, haccept, Option.isSome_some, if_true]
      cases ctx.acceptCb with
      | none => exact List.forall_mem_nil _
      | some f => exact List.forall_mem_singleton.mpr (Or.inr ⟨rfl, Or.inl ⟨f, rfl⟩⟩)
  | none =>
      cases htimer : s.timerFds fd with
      | some callback =>
          simp only [handleRead, handleTimer, haccept, htimer, Option.isSome_some,
            Option.isSome_none, Bool.false_eq_true, if_false, if_true]
          cases callback with
          | none => exact List.forall_mem_nil _
          | some f =>
              exact List.forall_mem_singleton.mpr (Or.inr ⟨rfl, Or.inr ⟨f, rfl, htimer⟩⟩)
      | none =>
          rw [handleRead_effects ⟨haccept, htimer⟩]
          exact fun effect heffect => Or.inl (byConnection_stepConnection _ effect heffect)

theorem byConnection_handleWrite (fd : Fd) (outcome : WriteOutcome) (s : EventLoopThread F) :
    ∀ effect ∈ (s.handleWrite fd outcome).2,
      effect.ByConnection (.handleWrite fd outcome : Op F) := by
  cases hconn : s.connections fd with
  | none =>
      simp only [handleWrite, hconn]
      exact List.forall_mem_nil _
  | some conn =>
      by_cases hiovs : conn.iovs = []
      · simp only [handleWrite, hconn, hiovs, if_true]
        exact List.forall_mem_nil _
      · cases outcome with
        | again =>
            simp only [handleWrite, hconn, hiovs, if_false]
            exact List.forall_mem_nil _
        | accepted n =>
            have hstep := @byConnection_stepConnection _ (.handleWrite fd (.accepted n)) (some conn)
            simp only [stepConnection, hiovs, if_false] at hstep
            simp only [handleWrite, hconn, hiovs, if_false]
            exact hstep
        | error =>
            simp only [handleWrite, hconn, hiovs, if_false]
            exact List.forall_mem_append.mpr
              ⟨byConnection_failAll (.handleWrite fd .error) conn,
                byConnection_closeConnection (.handleWrite fd .error) _⟩

theorem by_exec (s : EventLoopThread F) (op : Op F) :
    ∀ effect ∈ (s.exec op).2, effect.By s op := by
  cases op with
  | registerRead | writeOnce | writeBatch | registerHighLevel | registerLowLevel
  | registerClose =>
      rw [exec_effects_of_stores _ rfl]
      exact fun effect heffect => Or.inl (byConnection_stepConnection _ effect heffect)
  | handleRead fd outcome consumed => exact by_handleRead fd outcome consumed s
  | handleWrite fd outcome =>
      exact fun effect heffect => Or.inl (byConnection_handleWrite fd outcome s effect heffect)
  | close fd =>
      exact fun effect heffect => Or.inl (byConnection_closeConnection (.close fd) s effect heffect)

end Effects

end EventLoopThread

/-- What the tables of a loop have under a number belongs to the descriptor that has it. -/
structure OwnedAt (s : EventLoopThread F) (fd : Fd) (descriptor : Option Descriptor) : Prop where
  connection : ∀ conn, s.connections fd = some conn → descriptor = some (.socket conn.socket)
  acceptor : ∀ ctx, s.acceptSocketSet fd = some ctx → descriptor = some (.socket ctx.socket)
  timer : (s.timerFds fd).isSome = true ↔
    ∃ timer owner, descriptor = some (.timer timer owner)
  interest : s.epoll fd ≠ none → descriptor ≠ none

def Owned (r : RunningLoop F) : Prop := ∀ fd, OwnedAt r.loop fd (r.descriptors fd)

section Owned

open EventLoopThread RunningLoop

variable {s s' : EventLoopThread F} {r r' : RunningLoop F} {op : Op F} {fd : Fd}
  {descriptor : Option Descriptor}

theorem OwnedAt.congr (h : OwnedAt s fd descriptor) (hsame : SameAt fd s s') :
    OwnedAt s' fd descriptor where
  connection := hsame.connections ▸ h.connection
  acceptor := hsame.acceptSocketSet ▸ h.acceptor
  timer := hsame.timerFds ▸ h.timer
  interest := hsame.epoll ▸ h.interest

theorem ownedAt_none (hconnection : s.connections fd = none)
    (haccept : s.acceptSocketSet fd = none) (htimer : s.timerFds fd = none)
    (hepoll : s.epoll fd = none) : OwnedAt s fd none where
  connection conn hconn := by cases hconnection.symm.trans hconn
  acceptor ctx hctx := by cases haccept.symm.trans hctx
  timer := by simp [htimer]
  interest hne := absurd hepoll hne

/-- A number that is not in use is in no table. -/
theorem OwnedAt.connection_none (h : OwnedAt s fd none) : s.connections fd = none :=
  Option.eq_none_iff_forall_ne_some.mpr fun conn hconn => by cases h.connection conn hconn

theorem OwnedAt.acceptor_none (h : OwnedAt s fd none) : s.acceptSocketSet fd = none :=
  Option.eq_none_iff_forall_ne_some.mpr fun ctx hctx => by cases h.acceptor ctx hctx

theorem OwnedAt.timer_none (h : OwnedAt s fd descriptor)
    (hdescriptor : ∀ timer owner, descriptor ≠ some (.timer timer owner)) :
    s.timerFds fd = none := by
  refine Option.not_isSome_iff_eq_none.mp fun hsome => ?_
  obtain ⟨timer, owner, htimer⟩ := h.timer.mp hsome
  exact hdescriptor timer owner htimer

theorem OwnedAt.interest_none (h : OwnedAt s fd none) : s.epoll fd = none :=
  not_not.mp fun hne => h.interest hne rfl

/-- A connection and a timer do not share a number. -/
theorem OwnedAt.connection_of_timer (h : OwnedAt s fd descriptor) {callback : Option F}
    (htimer : s.timerFds fd = some callback) : s.connections fd = none := by
  obtain ⟨timer, owner, hdescriptor⟩ := h.timer.mp (htimer ▸ rfl)
  refine Option.eq_none_iff_forall_ne_some.mpr fun conn hconn => ?_
  cases hdescriptor.symm.trans (h.connection conn hconn)

theorem OwnedAt.timer_of_connection (h : OwnedAt s fd descriptor) {conn : Connection F}
    (hconn : s.connections fd = some conn) : s.timerFds fd = none := by
  apply h.timer_none
  intro timer owner hdescriptor
  cases hdescriptor.symm.trans (h.connection conn hconn)

theorem OwnedAt.acceptor_of_timer (h : OwnedAt s fd descriptor) {callback : Option F}
    (htimer : s.timerFds fd = some callback) : s.acceptSocketSet fd = none := by
  obtain ⟨timer, owner, hdescriptor⟩ := h.timer.mp (htimer ▸ rfl)
  refine Option.eq_none_iff_forall_ne_some.mpr fun ctx hctx => ?_
  cases hdescriptor.symm.trans (h.acceptor ctx hctx)

theorem owned_fresh : Owned (fresh : RunningLoop F) :=
  fun _ => ownedAt_none rfl rfl rfl rfl

/-- A step that leaves the timer of its descriptor where it is. -/
theorem OwnedAt.touches (h : OwnedAt s op.fd descriptor) (htouches : Touches op s s')
    (htimer : s'.timerFds op.fd = s.timerFds op.fd)
    (hholds : ∀ socket, op.holds = some socket → descriptor = some (.socket socket)) :
    OwnedAt s' op.fd descriptor where
  connection conn' hconn' := by
    rcases (htouches.connection conn' hconn').socket with hsocket | ⟨conn, hconn, hsocket⟩
    · exact hholds _ hsocket
    · rw [hsocket]
      exact h.connection conn hconn
  acceptor ctx hctx := by
    rcases htouches.acceptor with hsame | hnone
    · exact h.acceptor ctx (hsame.symm.trans hctx)
    · cases hnone.symm.trans hctx
  timer := htimer ▸ h.timer
  interest hne := by
    rcases htouches.interest hne with hholds' | hne'
    · obtain ⟨socket, hsocket⟩ := Option.ne_none_iff_exists'.mp hholds'
      rw [hholds socket hsocket]
      exact Option.some_ne_none _
    · exact h.interest hne'

/-- A step that takes the timer of its descriptor away. -/
theorem OwnedAt.fired (h : OwnedAt s op.fd descriptor) (htouches : Touches op s s')
    (hsome : (s.timerFds op.fd).isSome = true) (hnone : s'.timerFds op.fd = none)
    (hholds : ∀ socket, op.holds = some socket → descriptor = some (.socket socket)) :
    OwnedAt s' op.fd none := by
  obtain ⟨callback, htimer⟩ := Option.isSome_iff_exists.mp hsome
  have hevents : s'.epoll op.fd = none := by
    rcases htouches.timer with hsame | ⟨-, hevents⟩
    · cases (hnone.symm.trans hsame).trans htimer
    · exact hevents
  refine ownedAt_none ?_ ?_ hnone hevents
  · refine Option.eq_none_iff_forall_ne_some.mpr fun conn' hconn' => ?_
    obtain ⟨timer, owner, hdescriptor⟩ := h.timer.mp hsome
    rcases (htouches.connection conn' hconn').socket with hsocket | ⟨conn, hconn, -⟩
    · cases hdescriptor.symm.trans (hholds _ hsocket)
    · cases (h.connection_of_timer htimer).symm.trans hconn
  · rcases htouches.acceptor with hsame | haccept
    · exact hsame.trans (h.acceptor_of_timer htimer)
    · exact haccept

/-- A step on the loop, if the socket that it brings has the descriptor. -/
theorem Owned.perform (h : Owned r)
    (hholds : ∀ socket, op.holds = some socket → r.descriptors op.fd = some (.socket socket)) :
    Owned (r.perform op) := by
  intro fd
  have htouches := exec_touches r.loop op
  show OwnedAt (r.loop.exec op).1 fd
    (if (r.loop.timerFds fd).isSome && ((r.loop.exec op).1.timerFds fd).isNone then none
      else r.descriptors fd)
  by_cases hfd : fd = op.fd
  · subst hfd
    split
    · rename_i hfired
      rw [Bool.and_eq_true, Option.isNone_iff_eq_none] at hfired
      exact (h op.fd).fired htouches hfired.1 hfired.2 hholds
    · rename_i hkept
      refine (h op.fd).touches htouches ?_ hholds
      rcases htouches.timer with hsame | ⟨hnone, -⟩
      · exact hsame
      · have hbefore : r.loop.timerFds op.fd = none := by simpa [hnone] using hkept
        rw [hnone, hbefore]
  · rw [(htouches.others fd hfd).timerFds]
    have hsame : ((r.loop.timerFds fd).isSome && (r.loop.timerFds fd).isNone) = false := by
      cases r.loop.timerFds fd <;> rfl
    rw [hsame]
    exact (h fd).congr (htouches.others fd hfd)

/-- A call of `run` brings no socket. -/
theorem holds_of_makes {call : Call} (h : call.makes op = true) : op.holds = none := by
  cases op with
  | registerRead | writeOnce | writeBatch => cases call <;> cases h
  | registerHighLevel | registerLowLevel | registerClose | handleRead | handleWrite | close => rfl

theorem fd_of_makes {call : Call} (h : call.makes op = true) : call.fd? = some op.fd := by
  cases call <;> cases op <;> simp_all [Call.makes, Call.fd?, Op.fd]

theorem eq_handleRead_of_makes {call : Call} {outcome : ReadOutcome} {consumed : ℕ}
    (h : call.makes (.handleRead fd outcome consumed : Op F) = true) : call = .handleRead fd := by
  cases call with
  | handleRead fd' =>
      obtain rfl : fd' = fd := by simpa [Call.makes] using h
      rfl
  | _ => cases h

theorem RunningLoop.canRun_holds (h : r.canRun op = true) (socket : Socket)
    (hholds : op.holds = some socket) : r.descriptors op.fd = some (.socket socket) := by
  simp only [canRun, hholds, Bool.and_eq_true, decide_eq_true_eq] at h
  exact h.2

/-- A disarmed entry. -/
def Interest.disarmed (events : Interest) : Interest :=
  if events.oneShot then { oneShot := true } else events

theorem disarm_eq (list : InterestList) (event : Event) (fd : Fd) :
    event.disarm list fd = list fd ∨ event.disarm list fd = (list fd).map Interest.disarmed := by
  cases event with
  | wakeup => exact Or.inl rfl
  | ready fd' hangup input output =>
      by_cases hfd : fd = fd'
      · subst hfd
        exact Or.inr (Function.update_self _ _ _)
      · exact Or.inl (Function.update_of_ne hfd _ _)

theorem disarmed_disarmed (events : Interest) : events.disarmed.disarmed = events.disarmed := by
  unfold Interest.disarmed
  split <;> simp_all

/-- A batch disarms an entry or leaves it. -/
theorem foldl_disarm_eq (list : InterestList) (events : List Event) (fd : Fd) :
    events.foldl Event.disarm list fd = list fd ∨
      events.foldl Event.disarm list fd = (list fd).map Interest.disarmed := by
  induction events generalizing list with
  | nil => exact Or.inl rfl
  | cons event events ih =>
      rw [List.foldl_cons]
      rcases ih (event.disarm list) with h | h
      · rw [h]
        exact disarm_eq list event fd
      · rw [h]
        refine Or.inr ?_
        rcases disarm_eq list event fd with heq | heq
        · rw [heq]
        · rw [heq, Option.map_map]
          exact congrArg (Option.map · (list fd)) (funext disarmed_disarmed)

theorem foldl_disarm_eq_none (list : InterestList) (events : List Event) (fd : Fd) :
    events.foldl Event.disarm list fd = none ↔ list fd = none := by
  rcases foldl_disarm_eq list events fd with h | h <;> simp [h]

/-- A timer that `epoll` has not taken leaves nothing behind. -/
theorem addTimer_rejected (h : s.timerFds fd = none) (callback : Option F) :
    s.addTimer callback (.rejected fd) = s := by
  simp only [EventLoopThread.addTimer, emplaceTimer, h, Option.isSome_none, Bool.false_eq_true,
    if_false, Function.update_idem]
  rw [← h, Function.update_eq_self]

theorem addTimer_added (htimer : s.timerFds fd = none) (hepoll : s.epoll fd = none)
    (callback : Option F) : s.addTimer callback (.added fd) =
      { s with
        timerFds := Function.update s.timerFds fd (some callback)
        epoll := Function.update s.epoll fd (some { input := true, oneShot := true }) } := by
  simp [EventLoopThread.addTimer, emplaceTimer, addEpollEvents, ctlAdd, htimer, hepoll]

/-- An acceptor that is there already keeps its socket. -/
theorem doRegisterAccept_eq (s : EventLoopThread F) (fd : Fd) (socket : Socket)
    (callback : Option F) : ∃ ctx events, s.doRegisterAccept fd socket callback =
      { s with
        acceptSocketSet := Function.update s.acceptSocketSet fd (some ctx)
        epoll := Function.update s.epoll fd events } ∧
      (ctx.socket = socket ∨
        ∃ ctx', s.acceptSocketSet fd = some ctx' ∧ ctx.socket = ctx'.socket) := by
  cases haccept : s.acceptSocketSet fd with
  | some ctx =>
      refine ⟨{ ctx with acceptCb := callback }, s.epoll fd, ?_, Or.inr ⟨ctx, rfl, rfl⟩⟩
      simp only [doRegisterAccept, haccept, Function.update_eq_self]
  | none =>
      refine ⟨⟨socket, callback⟩, some ((s.epoll fd).getD epollIn), ?_, Or.inl rfl⟩
      simp only [doRegisterAccept, haccept, addEpollEvents_eq_put]
      simp only [put, Function.update_eq_self]

theorem sameAt_doRegisterAccept {fd' : Fd} (hfd : fd ≠ fd') (socket : Socket)
    (callback : Option F) : SameAt fd s (s.doRegisterAccept fd' socket callback) := by
  obtain ⟨ctx, events, heq, -⟩ := doRegisterAccept_eq s fd' socket callback
  rw [heq]
  exact ⟨rfl, Function.update_of_ne hfd _ _, rfl, Function.update_of_ne hfd _ _⟩

theorem sameAt_addTimer {timerfd : Fd} (hunused : OwnedAt s timerfd none) (hfd : fd ≠ timerfd)
    (callback : Option F) : SameAt fd s (s.addTimer callback (.added timerfd)) := by
  rw [addTimer_added (hunused.timer_none nofun) hunused.interest_none]
  exact ⟨rfl, rfl, Function.update_of_ne hfd _ _, Function.update_of_ne hfd _ _⟩

theorem Owned.wait (h : Owned r) (events : List Event) (calls : List Call) :
    Owned { r with
      loop := { r.loop with epoll := events.foldl Event.disarm r.loop.epoll }
      calls := calls } := fun fd =>
  { connection := (h fd).connection
    acceptor := (h fd).acceptor
    timer := (h fd).timer
    interest := fun hne =>
      (h fd).interest fun hnone => hne ((foldl_disarm_eq_none _ events fd).mpr hnone) }

/-- A step that touches one descriptor. -/
theorem Owned.update (h : Owned r) (hself : OwnedAt s' fd descriptor)
    (hothers : ∀ fd', fd' ≠ fd → SameAt fd' r.loop s') (fd' : Fd) :
    OwnedAt s' fd' (Function.update r.descriptors fd descriptor fd') := by
  by_cases hfd : fd' = fd
  · subst hfd
    rw [Function.update_self]
    exact hself
  · rw [Function.update_of_ne hfd]
    exact (h fd').congr (hothers fd' hfd)

theorem Owned.registerAccept (h : Owned r) {socket : Socket} (callback : Option F)
    (hsocket : r.descriptors fd = some (.socket socket)) :
    Owned { r with loop := r.loop.doRegisterAccept fd socket callback } := by
  have hself : OwnedAt (r.loop.doRegisterAccept fd socket callback) fd (r.descriptors fd) := by
    obtain ⟨ctx, events, heq, hctx⟩ := doRegisterAccept_eq r.loop fd socket callback
    rw [heq]
    refine ⟨(h fd).connection, fun ctx' hctx' => ?_, (h fd).timer, fun _ => ?_⟩
    · cases (Function.update_self _ _ _).symm.trans hctx'
      rcases hctx with hsame | ⟨old, hold, hsame⟩
      · rw [hsame]
        exact hsocket
      · rw [hsame]
        exact (h fd).acceptor old hold
    · rw [hsocket]
      exact Option.some_ne_none _
  intro fd'
  have hupdate := h.update hself (fun _ hfd => sameAt_doRegisterAccept hfd socket callback) fd'
  rwa [Function.update_eq_self] at hupdate

theorem Owned.timerAdded (h : Owned r) (callback : Option F) (owner : Option Socket)
    (hunused : r.descriptors fd = none) : Owned { r with
      loop := r.loop.addTimer callback (.added fd)
      descriptors := Function.update r.descriptors fd (some (.timer r.timers owner))
      timers := r.timers + 1 } := by
  have hnone : OwnedAt r.loop fd none := hunused ▸ h fd
  refine h.update ?_ fun _ hfd => sameAt_addTimer hnone hfd callback
  rw [addTimer_added (hnone.timer_none nofun) hnone.interest_none]
  refine ⟨fun conn hconn => ?_, fun ctx hctx => ?_, ?_, fun _ => Option.some_ne_none _⟩
  · cases hnone.connection_none.symm.trans hconn
  · cases hnone.acceptor_none.symm.trans hctx
  · simp

theorem Owned.openSocket (h : Owned r) (hunused : r.descriptors fd = none) : Owned { r with
    descriptors := Function.update r.descriptors fd (some (.socket r.sockets))
    sockets := r.sockets + 1 } := by
  have hnone : OwnedAt r.loop fd none := hunused ▸ h fd
  refine h.update ?_ fun _ _ => ⟨rfl, rfl, rfl, rfl⟩
  refine ⟨fun conn hconn => ?_, fun ctx hctx => ?_, ?_, fun _ => Option.some_ne_none _⟩
  · cases hnone.connection_none.symm.trans hconn
  · cases hnone.acceptor_none.symm.trans hctx
  · simp [hnone.timer_none nofun]

theorem RunningLoop.released_eq (h : r.released fd = true) :
    r.loop.connections fd = none ∧ r.loop.acceptSocketSet fd = none ∧
      ∃ socket, r.descriptors fd = some (.socket socket) := by
  simp only [released, Bool.and_eq_true, Option.isNone_iff_eq_none] at h
  obtain ⟨⟨hconnection, haccept⟩, hdescriptor⟩ := h
  refine ⟨hconnection, haccept, ?_⟩
  split at hdescriptor
  · rename_i socket hsocket
    exact ⟨socket, hsocket⟩
  · cases hdescriptor

theorem Owned.release (h : Owned r) (hreleased : r.released fd = true) : Owned { r with
    loop := r.loop.removeEpollEvents fd
    descriptors := Function.update r.descriptors fd none } := by
  obtain ⟨hconnection, haccept, socket, hsocket⟩ := released_eq hreleased
  refine h.update ?_ fun _ hfd => sameAt_removeEpollEvents hfd
  refine ownedAt_none hconnection haccept ?_ (Function.update_self _ _ _)
  exact (h fd).timer_none fun timer owner htimer => by cases hsocket.symm.trans htimer

theorem Owned.step {a : LoopStep F} (h : Owned r) (hstep : r.step a = some r') : Owned r' := by
  cases stepped_of_step hstep with
  | wait => exact h.wait _ _
  | task hhead hcan => exact h.perform (canRun_holds hcan)
  | registerAccept hhead hsocket => exact h.registerAccept _ hsocket
  | drained => exact h
  | call hcalls hmakes hpossible =>
      refine h.perform fun socket hholds => ?_
      cases (holds_of_makes hmakes).symm.trans hholds
  | timerFailed => exact h
  | timerRejected hunused =>
      rw [addTimer_rejected ((hunused ▸ h _ : OwnedAt r.loop _ none).timer_none nofun)]
      exact h
  | timerAdded howner hunused => exact h.timerAdded _ _ hunused
  | openSocket hunused => exact h.openSocket hunused
  | release hreleased => exact h.release hreleased

section Numbers

variable {a : LoopStep F} {timer : ℕ} {owner : Option Socket}

theorem perform_descriptors_of_timer
    (h : (r.loop.exec op).1.timerFds fd = r.loop.timerFds fd) :
    (r.perform op).descriptors fd = r.descriptors fd := by
  unfold perform
  simp only [h]
  cases r.loop.timerFds fd <;> rfl

theorem perform_descriptors_of_ne (hfd : fd ≠ op.fd) :
    (r.perform op).descriptors fd = r.descriptors fd :=
  perform_descriptors_of_timer ((exec_touches r.loop op).others fd hfd).timerFds

theorem perform_descriptors_of_some {descriptor : Descriptor}
    (h : (r.perform op).descriptors fd = some descriptor) :
    r.descriptors fd = some descriptor := by
  unfold perform at h
  simp only at h
  split at h
  · cases h
  · exact h

/-- A timer that is there behind a step was there before, or the step adds it. -/
theorem timer_of_step (hstep : r.step a = some r')
    (h : r'.descriptors fd = some (.timer timer owner)) :
    r.descriptors fd = some (.timer timer owner) ∨ timer = r.timers ∧ r'.timers = r.timers + 1 ∧
      ∃ via callback, a = .addTimer via (.added fd) callback ∧ r.owner? via = some owner := by
  cases stepped_of_step hstep with
  | task | call => exact Or.inl (perform_descriptors_of_some h)
  | wait | registerAccept | drained | timerFailed | timerRejected => exact Or.inl h
  | @timerAdded via callback timerfd owner' howner hunused =>
      by_cases hfd : fd = timerfd
      · subst hfd
        cases (Function.update_self _ _ _).symm.trans h
        exact Or.inr ⟨rfl, rfl, via, callback, rfl, howner⟩
      · exact Or.inl ((Function.update_of_ne hfd _ _).symm.trans h)
  | @openSocket fd' hunused =>
      by_cases hfd : fd = fd'
      · subst hfd
        cases (Function.update_self _ _ _).symm.trans h
      · exact Or.inl ((Function.update_of_ne hfd _ _).symm.trans h)
  | @release fd' hreleased =>
      by_cases hfd : fd = fd'
      · subst hfd
        cases (Function.update_self _ _ _).symm.trans h
      · exact Or.inl ((Function.update_of_ne hfd _ _).symm.trans h)

theorem timers_mono (hstep : r.step a = some r') : r.timers ≤ r'.timers := by
  cases stepped_of_step hstep with
  | timerAdded => exact Nat.le_succ _
  | task | call | wait | registerAccept | drained | timerFailed | timerRejected | openSocket
  | release => exact le_rfl

/-- The timers that are open have numbers that were given out. -/
def Numbered (r : RunningLoop F) : Prop :=
  ∀ fd timer owner, r.descriptors fd = some (.timer timer owner) → timer < r.timers

theorem numbered_fresh : Numbered (fresh : RunningLoop F) := nofun

theorem Numbered.step (h : Numbered r) (hstep : r.step a = some r') : Numbered r' := by
  intro fd timer owner hfd
  rcases timer_of_step hstep hfd with hold | ⟨hnew, htimers, -⟩
  · exact (h fd timer owner hold).trans_le (timers_mono hstep)
  · rw [hnew, htimers]
    exact Nat.lt_succ_self _

end Numbers

theorem fd_of_mem_calls {hangup input output : Bool} {call : Call}
    (h : call ∈ (Event.ready fd hangup input output).calls) : call.fd? = some fd := by
  simp only [Event.calls] at h
  split at h
  · cases List.mem_singleton.mp h
    rfl
  · rcases List.mem_append.mp h with h | h <;> split at h <;> simp_all [Call.fd?]

/-- A call is made for a descriptor that is polled. -/
theorem interest_of_reported {list : InterestList} {event : Event} {call : Call}
    (hreported : event.reported list = true) (hcall : call ∈ event.calls)
    (hfd : call.fd? = some fd) : list fd ≠ none := by
  cases event with
  | wakeup =>
      cases List.mem_singleton.mp hcall
      cases hfd
  | ready fd' hangup input output =>
      obtain rfl : fd' = fd := Option.some.inj ((fd_of_mem_calls hcall).symm.trans hfd)
      intro hnone
      simp [Event.reported, hnone] at hreported

/-- A read is called for a descriptor that is polled for input. -/
theorem input_of_reported {list : InterestList} {event : Event}
    (hreported : event.reported list = true) (hcall : .handleRead fd ∈ event.calls) :
    ∃ interest, list fd = some interest ∧ interest.input = true := by
  obtain ⟨interest, hinterest⟩ :=
    Option.ne_none_iff_exists'.mp (interest_of_reported hreported hcall rfl)
  refine ⟨interest, hinterest, ?_⟩
  cases event with
  | wakeup => cases List.mem_singleton.mp hcall
  | ready fd' hangup input output =>
      obtain rfl : fd = fd' := Option.some.inj (fd_of_mem_calls hcall)
      simp only [Event.reported, hinterest, Bool.and_eq_true] at hreported
      cases input with
      | true => simpa using hreported.1.2
      | false => cases hangup <;> cases output <;> simp [Event.calls] at hcall

/-- Only the return of `epoll_wait` brings calls. -/
theorem calls_sublist {a : LoopStep F} (h : r.step a = some r')
    (hwait : ∀ events, a ≠ .wait events) : r'.calls.Sublist r.calls := by
  cases stepped_of_step h with
  | wait => exact absurd rfl (hwait _)
  | drained hcalls | call hcalls =>
      rw [hcalls]
      exact List.sublist_cons_self _ _
  | task | registerAccept | timerFailed | timerRejected | timerAdded | openSocket | release =>
      exact List.Sublist.refl _

theorem wait_or_sublist {a : LoopStep F} (h : r.step a = some r') :
    (∃ events, a = .wait events) ∨ r'.calls.Sublist r.calls := by
  by_cases hwait : ∃ events, a = .wait events
  · exact Or.inl hwait
  · exact Or.inr (calls_sublist h fun events ha => hwait ⟨events, ha⟩)

/-- The calls of a new batch. -/
theorem interest_of_wait {events : List Event}
    (h : r.step (.wait events) = some r') {call : Call} (hcall : call ∈ r'.calls)
    (hfd : call.fd? = some fd) : r'.descriptors = r.descriptors ∧ r.loop.epoll fd ≠ none := by
  cases stepped_of_step h with
  | wait hcalls hlength hnodup hreported =>
      obtain ⟨event, hevent, hcall⟩ := List.mem_flatMap.mp hcall
      exact ⟨rfl, interest_of_reported (hreported event hevent) hcall hfd⟩

theorem owned_of_reachable (h : Reachable RunningLoop.step fresh r) : Owned r :=
  h.invariant (fun _ _ _ hr => hr.step) owned_fresh

end Owned

end SimpleRedis.Net
