import SimpleRedis.EventLoop

/-!
# The interest list and the needs of the connections

The two flags of a connection say which events the loop has asked for, but not
whether the descriptor is in the interest list at all. A connection that has
neither flag has been taken out of the list, and `EPOLL_CTL_MOD` cannot bring it
back. As long as no task writes to or reads from such a connection, the list has
exactly the events of the flags.
-/
namespace SimpleRedis.Net

open TransitionRun

variable {F : Type*}

namespace Connection

/-- The events that the flags of a connection stand for. -/
def mask (conn : Connection F) : Option Interest :=
  if conn.writeRegistered then some (if conn.readRegistered then epollInOut else epollOut)
  else if conn.readRegistered then some epollIn
  else none

/-- The flags fit the write queue and the state of the peer. -/
structure Consistent (conn : Connection F) : Prop where
  queued : conn.writeQueue ≠ [] → conn.writeRegistered = true
  unread : conn.peerClosed = true → conn.readRegistered = false

/-- Neither reading nor writing is asked for. -/
def Detached (conn : Connection F) : Prop :=
  conn.readRegistered = false ∧ conn.writeRegistered = false

end Connection

/-- A descriptor with a connection has the events of its flags, one without has none. -/
def Armed : Option (Connection F) → Option Interest → Prop
  | none, events => events = none
  | some conn, events => conn.Consistent ∧ events = conn.mask

/-- No task that needs an event runs on a detached connection. A read
registration after the peer has closed asks for nothing. -/
def Attached (s : EventLoopThread F) : Op F → Prop
  | .registerRead fd _ _ =>
      ∀ conn, s.connections fd = some conn → conn.peerClosed = false → ¬ conn.Detached
  | .writeOnce fd _ _ _ | .writeBatch fd _ _ _ =>
      ∀ conn, s.connections fd = some conn → ¬ conn.Detached
  | _ => True

section Flags

/-- The fields of a connection that the interest list depends on. -/
structure SameFlags (conn conn' : Connection F) : Prop where
  read : conn'.readRegistered = conn.readRegistered
  write : conn'.writeRegistered = conn.writeRegistered
  peer : conn'.peerClosed = conn.peerClosed

variable (fd : Fd) (conn : Connection F)

theorem sameFlags_refl : SameFlags conn conn := ⟨rfl, rfl, rfl⟩

theorem sameFlags_enqueue (callback : Option (WriteCallback F)) (buf : List CChar) :
    SameFlags conn (conn.enqueue fd callback buf).1 := ⟨rfl, rfl, rfl⟩

theorem sameFlags_enqueueBatch (f : F) (i : ℕ) (bufs : List (List CChar)) :
    SameFlags conn (conn.enqueueBatch fd f i bufs).1 := by
  induction bufs generalizing conn i with
  | nil => exact sameFlags_refl conn
  | cons buf bufs ih =>
      obtain ⟨hread, hwrite, hpeer⟩ := ih (conn.enqueue fd (some (.batch f i)) buf).1 (i + 1)
      exact ⟨hread, hwrite, hpeer⟩

theorem sameFlags_checkHighLevel : SameFlags conn (conn.checkHighLevel fd).1 := by
  unfold Connection.checkHighLevel
  split
  · split
    · split <;> exact ⟨rfl, rfl, rfl⟩
    · exact sameFlags_refl conn
  · exact sameFlags_refl conn

theorem sameFlags_checkLowLevel : SameFlags conn (conn.checkLowLevel fd).1 := by
  unfold Connection.checkLowLevel
  split
  · split
    · exact ⟨rfl, rfl, rfl⟩
    · exact sameFlags_refl conn
  · exact sameFlags_refl conn

theorem SameFlags.trans {conn conn' conn'' : Connection F} (h : SameFlags conn conn')
    (h' : SameFlags conn' conn'') : SameFlags conn conn'' :=
  ⟨h'.read.trans h.read, h'.write.trans h.write, h'.peer.trans h.peer⟩

theorem SameFlags.mask {conn conn' : Connection F} (h : SameFlags conn conn') :
    conn'.mask = conn.mask := by
  simp only [Connection.mask, h.read, h.write]

end Flags

namespace EventLoopThread

/-- A step changes nothing but its own descriptor and keeps that one armed. -/
def StepsArmed (s s' : EventLoopThread F) (fd : Fd) : Prop :=
  ∃ conn events, s' = s.put fd conn events ∧
    (Armed (s.connections fd) (s.epoll fd) → Armed conn events)

section Handlers

variable {s : EventLoopThread F} {fd : Fd}

theorem stepsArmed_refl : StepsArmed s s fd :=
  ⟨s.connections fd, s.epoll fd, (s.put_self fd).symm, id⟩

/-- A step on an existing connection that leaves the queue and the flags alone. -/
theorem setConnection_armed {conn conn' : Connection F} (h : s.connections fd = some conn)
    (hflags : SameFlags conn conn') (hqueue : conn'.writeQueue = conn.writeQueue) :
    StepsArmed s (s.setConnection fd conn') fd := by
  refine ⟨some conn', s.epoll fd, setConnection_eq_put s fd conn', fun harmed => ?_⟩
  rw [h] at harmed
  obtain ⟨⟨hqueued, hunread⟩, hevents⟩ := harmed
  refine ⟨⟨?_, ?_⟩, hevents.trans hflags.mask.symm⟩
  · rwa [hqueue, hflags.write]
  · rwa [hflags.peer, hflags.read]

theorem updateConnection_armed {f : Connection F → Connection F}
    (hf : ∀ conn, SameFlags conn (f conn) ∧ (f conn).writeQueue = conn.writeQueue) :
    StepsArmed s (s.updateConnection fd f) fd := by
  unfold updateConnection
  split
  · exact stepsArmed_refl
  · rename_i conn h
    exact setConnection_armed h (hf conn).1 (hf conn).2

theorem closeConnection_armed (hs : s.Plain) : StepsArmed s (s.closeConnection fd).1 fd :=
  ⟨none, none, closeConnection_fst (hs.plainAt fd), fun _ => rfl⟩

theorem peerClosed_armed {conn : Connection F} (h : s.connections fd = some conn) :
    StepsArmed s (s.peerClosed fd conn).1 fd := by
  refine ⟨_, _, peerClosed_fst conn, fun harmed => ?_⟩
  rw [h] at harmed
  obtain ⟨⟨hqueued, hunread⟩, hevents⟩ := harmed
  refine ⟨⟨fun hne => by simpa using hne, fun _ => rfl⟩, ?_⟩
  by_cases hqueue : conn.writeQueue = []
  · simp [hqueue, Connection.mask]
  · rw [hevents]
    simp [hqueue, Connection.mask, hqueued hqueue]

theorem handleRead_armed (hs : s.Plain) (outcome : ReadOutcome) (consumed : ℕ) :
    StepsArmed s (s.handleRead fd outcome consumed).1 fd := by
  rw [handleRead_plain (hs.plainAt fd)]
  split
  · exact stepsArmed_refl
  · rename_i conn h
    split
    · unfold Connection.receive
      split <;> exact setConnection_armed h ⟨rfl, rfl, rfl⟩ rfl
    · exact peerClosed_armed h
    · exact stepsArmed_refl
    · exact closeConnection_armed hs

theorem written_armed {conn : Connection F} (h : s.connections fd = some conn) (n : ℕ) :
    StepsArmed s (s.written fd conn n).1 fd := by
  set finished := Connection.finish n conn.writeQueue with hfinished
  set sent : Connection F := { conn with
    writeQueue := finished.1
    inQueueWriteBufferByteSize := conn.countSent n
    writeRegistered := conn.writeRegistered && decide (finished.1 ≠ []) } with hsent
  have hflags := sameFlags_checkLowLevel fd sent
  have hqueue := Connection.writeQueue_checkLowLevel fd sent
  refine ⟨some (sent.checkLowLevel fd).1,
    if finished.1 = [] then drainedEvents sent (s.epoll fd) else s.epoll fd, ?_, fun harmed => ?_⟩
  · simp only [written, ← hfinished, ← hsent, setConnection_eq_put]
    split
    · exact drained_put _ _ _
    · rfl
  · rw [h] at harmed
    obtain ⟨⟨hqueued, hunread⟩, hevents⟩ := harmed
    refine ⟨⟨?_, ?_⟩, ?_⟩
    · rw [hqueue, hflags.write]
      intro hne
      have hconn : conn.writeQueue ≠ [] := by
        intro hempty
        rw [hsent, hfinished, hempty] at hne
        exact hne rfl
      simpa [hsent, hqueued hconn] using hne
    · rw [hflags.peer, hflags.read]
      exact hunread
    · rw [hflags.mask, hevents]
      by_cases hempty : finished.1 = []
      · simp only [hempty, if_true, drainedEvents, Connection.mask, hsent]
        cases hpeer : conn.peerClosed
        · cases conn.readRegistered <;> cases conn.writeRegistered <;> rfl
        · simp [hunread hpeer]
      · simp [hempty, Connection.mask, hsent]

theorem handleWrite_armed (hs : s.Plain) (outcome : WriteOutcome) :
    StepsArmed s (s.handleWrite fd outcome).1 fd := by
  unfold handleWrite
  split
  · exact stepsArmed_refl
  · rename_i conn h
    split
    · exact stepsArmed_refl
    · split
      · exact stepsArmed_refl
      · have hplain : (s.setConnection fd (conn.failAllPendingWrites fd).1).Plain := by
          rw [setConnection_eq_put]
          exact hs.put _ _ _
        refine ⟨none, none, ?_, fun _ => rfl⟩
        rw [closeConnection_fst (hplain.plainAt fd), setConnection_eq_put, put_put]
      · exact written_armed h _

theorem doRegisterRead_armed (socket : Socket) (callback : Option F)
    (hok : ∀ conn, s.connections fd = some conn → conn.peerClosed = false → ¬ conn.Detached) :
    StepsArmed s (s.doRegisterRead fd socket callback) fd := by
  cases h : s.connections fd with
  | none =>
      rw [doRegisterRead_none socket callback h]
      refine ⟨_, _, rfl, fun harmed => ?_⟩
      rw [h] at harmed
      have hevents : s.epoll fd = none := harmed
      exact ⟨⟨fun hne => absurd rfl hne, fun hpeer => nomatch hpeer⟩, by rw [hevents]; rfl⟩
  | some conn =>
      rw [doRegisterRead_some socket callback h]
      refine ⟨_, _, rfl, fun harmed => ?_⟩
      rw [h] at harmed
      obtain ⟨⟨hqueued, hunread⟩, hevents⟩ := harmed
      refine ⟨⟨hqueued, fun hpeer => ?_⟩, ?_⟩
      · simp only [show conn.peerClosed = true from hpeer, hunread hpeer]
        rfl
      · have hattached := hok conn h
        rw [hevents]
        simp only [Connection.mask, Connection.Detached] at hattached ⊢
        cases hpeer : conn.peerClosed
        · cases hread : conn.readRegistered <;> cases hwrite : conn.writeRegistered <;>
            simp_all
        · simp [hunread hpeer]

/-- A write task leaves an attached connection armed, whatever it queues. -/
theorem requestOutput_armed {conn conn' : Connection F} (h : s.connections fd = some conn)
    (hflags : SameFlags conn conn') (hok : ¬ conn.Detached) :
    StepsArmed s (s.requestOutput fd conn') fd := by
  refine ⟨_, _, requestOutput_eq_put conn', fun harmed => ?_⟩
  rw [h] at harmed
  obtain ⟨⟨hqueued, hunread⟩, hevents⟩ := harmed
  refine ⟨⟨fun _ => rfl, ?_⟩, ?_⟩
  · rw [← hflags.peer, ← hflags.read] at hunread
    exact hunread
  · rw [hevents, hflags.write, hflags.read]
    simp only [Connection.mask, if_true]
    cases hread : conn.readRegistered <;> cases hwrite : conn.writeRegistered <;>
      simp_all [Connection.Detached]

/-- A write task that makes the connection arms it for output. -/
theorem requestOutput_created (socket : Socket) {conn' : Connection F}
    (hflags : SameFlags { Connection.fresh socket none with writeRegistered := true } conn')
    (h : s.connections fd = none) :
    StepsArmed s ((s.findOrCreate fd socket).1.requestOutput fd conn') fd := by
  rw [findOrCreate_none socket h, requestOutput_put]
  refine ⟨_, _, rfl, fun harmed => ?_⟩
  rw [h] at harmed
  have hevents : s.epoll fd = none := harmed
  have hwrite : conn'.writeRegistered = true := hflags.write
  have hread : conn'.readRegistered = false := hflags.read
  refine ⟨⟨fun _ => rfl, fun _ => hread⟩, ?_⟩
  simp [hevents, hwrite, hread, Connection.mask]

theorem doAsyncWriteOnce_armed (socket : Socket) (callback : Option F) (buf : List CChar)
    (hok : ∀ conn, s.connections fd = some conn → ¬ conn.Detached) :
    StepsArmed s (s.doAsyncWriteOnce fd socket callback buf).1 fd := by
  have hflags : ∀ conn : Connection F, SameFlags conn
      ((conn.enqueue fd (callback.map .once) buf).1.checkHighLevel fd).1 := fun conn =>
    (sameFlags_enqueue fd conn _ buf).trans (sameFlags_checkHighLevel fd _)
  cases h : s.connections fd with
  | none =>
      have hcreated := requestOutput_created socket (hflags _) h
      rw [findOrCreate_none socket h] at hcreated
      simpa only [doAsyncWriteOnce, findOrCreate_none socket h] using hcreated
  | some conn =>
      simp only [doAsyncWriteOnce, findOrCreate_some socket h]
      exact requestOutput_armed h (hflags conn) (hok conn h)

theorem doAsyncWriteBatch_armed (socket : Socket) (callbacks : F) (bufs : List (List CChar))
    (hok : ∀ conn, s.connections fd = some conn → ¬ conn.Detached) :
    StepsArmed s (s.doAsyncWriteBatch fd socket callbacks bufs).1 fd := by
  have hflags : ∀ conn : Connection F, SameFlags conn
      ((conn.enqueueBatch fd callbacks 0 bufs).1.checkHighLevel fd).1 := fun conn =>
    (sameFlags_enqueueBatch fd conn callbacks 0 bufs).trans (sameFlags_checkHighLevel fd _)
  cases h : s.connections fd with
  | none =>
      have hcreated := requestOutput_created socket (hflags _) h
      rw [findOrCreate_none socket h] at hcreated
      simpa only [doAsyncWriteBatch, findOrCreate_none socket h] using hcreated
  | some conn =>
      simp only [doAsyncWriteBatch, findOrCreate_some socket h]
      exact requestOutput_armed h (hflags conn) (hok conn h)

theorem exec_armed (hs : s.Plain) (op : Op F) (hok : Attached s op) :
    StepsArmed s (s.exec op).1 op.fd := by
  cases op with
  | registerRead fd socket callback => exact doRegisterRead_armed socket callback hok
  | writeOnce fd socket callback buf => exact doAsyncWriteOnce_armed socket callback buf hok
  | writeBatch fd socket callbacks bufs => exact doAsyncWriteBatch_armed socket callbacks bufs hok
  | registerHighLevel fd callback => exact updateConnection_armed fun _ => ⟨⟨rfl, rfl, rfl⟩, rfl⟩
  | registerLowLevel fd callback => exact updateConnection_armed fun _ => ⟨⟨rfl, rfl, rfl⟩, rfl⟩
  | registerClose fd callback => exact updateConnection_armed fun _ => ⟨⟨rfl, rfl, rfl⟩, rfl⟩
  | handleRead fd outcome consumed => exact handleRead_armed hs outcome consumed
  | handleWrite fd outcome => exact handleWrite_armed hs outcome
  | close fd => exact closeConnection_armed hs

end Handlers

end EventLoopThread

/-- The invariant of the loop's state: a plain loop with every descriptor armed. -/
structure AllArmed (s : EventLoopThread F) : Prop where
  plain : s.Plain
  armed : ∀ fd, Armed (s.connections fd) (s.epoll fd)

theorem allArmed_fresh : AllArmed (EventLoopThread.fresh : EventLoopThread F) :=
  ⟨EventLoopThread.plain_fresh, fun _ => rfl⟩

theorem AllArmed.step {s s' : EventLoopThread F} {fd : Fd} (h : AllArmed s)
    (hstep : s.StepsArmed s' fd) : AllArmed s' := by
  obtain ⟨conn, events, rfl, hlocal⟩ := hstep
  refine ⟨h.plain.put fd conn events, fun fd' => ?_⟩
  by_cases hfd : fd' = fd
  · subst hfd
    rw [EventLoopThread.connections_put, EventLoopThread.epoll_put]
    exact hlocal (h.armed fd')
  · rw [EventLoopThread.connections_put_of_ne _ _ _ _ hfd,
      EventLoopThread.epoll_put_of_ne _ _ _ _ hfd]
    exact h.armed fd'

/-- Every connection has the events it needs in the interest list. -/
def InterestServed (e : Execution F) : Prop :=
  ∀ fd conn, e.loop.connections fd = some conn →
    (conn.writeQueue ≠ [] → ∃ events, e.loop.epoll fd = some events ∧ events.output = true) ∧
    (conn.readRegistered = true → conn.peerClosed = false →
      ∃ events, e.loop.epoll fd = some events ∧ events.input = true)

theorem AllArmed.served {e : Execution F} (h : AllArmed e.loop) : InterestServed e := by
  intro fd conn hconn
  have harmed := h.armed fd
  rw [hconn] at harmed
  obtain ⟨⟨hqueued, -⟩, hevents⟩ := harmed
  constructor
  · intro hne
    refine ⟨if conn.readRegistered then epollInOut else epollOut, ?_, ?_⟩
    · rw [hevents, Connection.mask, hqueued hne]
      rfl
    · cases conn.readRegistered <;> rfl
  · intro hread _
    refine ⟨if conn.writeRegistered then epollInOut else epollIn, ?_, ?_⟩
    · rw [hevents, Connection.mask, hread]
      cases conn.writeRegistered <;> rfl
    · cases conn.writeRegistered <;> rfl

/-- In every run in which no task needs an event of a detached connection, every
connection has the events it needs, after every step. -/
theorem interestServed_of_attached {ops : List (Op F)}
    (h : EachStep Execution.step (fun e op => Attached e.loop op) Execution.fresh ops) :
    Always Execution.step InterestServed Execution.fresh ops := by
  refine always_of_eachStep (I := fun e => AllArmed e.loop) ?_ (fun e he => he.served)
    allArmed_fresh h
  intro e op e' he hok hstep
  obtain ⟨-, hloop, -⟩ := Execution.step_eq_some hstep
  rw [hloop]
  exact he.step (EventLoopThread.exec_armed he.plain op hok)

/-- A write-only connection sends one byte and is taken out of the list; the next
write finds it there no more. -/
def detachedRun : List (Op Unit) :=
  [.writeOnce 3 0 none [1], .handleWrite 3 (.accepted 1), .writeOnce 3 0 none [2]]

theorem not_interestServed_detachedRun :
    ¬ Always Execution.step InterestServed Execution.fresh detachedRun := by
  intro h
  have hview : (run Execution.step Execution.fresh detachedRun).map
      (fun e => ((e.loop.connections 3).map (·.writeQueue.length), e.loop.epoll 3)) =
        some (some 1, none) := by decide
  obtain ⟨e, he, hview⟩ := Option.map_eq_some_iff.mp hview
  rw [Prod.mk.injEq] at hview
  obtain ⟨conn, hconn, hlen⟩ := Option.map_eq_some_iff.mp hview.1
  have hne : conn.writeQueue ≠ [] := by
    intro hempty
    rw [hempty] at hlen
    cases hlen
  obtain ⟨events, hevents, -⟩ := (h.last he 3 conn hconn).1 hne
  rw [hview.2] at hevents
  cases hevents

/-- A write on a connection that is registered for reading. -/
theorem interestServed_registered_then_write :
    Always Execution.step InterestServed (Execution.fresh : Execution Unit)
      [.registerRead 3 0 none, .writeOnce 3 0 none [1]] := by
  refine interestServed_of_attached (eachStep_cons rfl ?_ (eachStep_cons rfl ?_ trivial))
  · exact fun conn hconn => nomatch hconn
  · rintro conn hconn ⟨hread, -⟩
    cases hconn
    cases hread

end SimpleRedis.Net
