import SimpleRedis.RedisEnds
import SimpleRedis.EpollInterest
import SimpleRedis.WriteDrain

/-!
# Every promise can be kept

A socket that is read serves every promise that it holds: the loop is told of the output as long
as commands are queued, the server has a command to answer as long as a promise waits without a
reply, and the loop is told of the input as long as a reply is on the way. So from every state of
the client its loop and the server alone can go on until the socket holds no promise, and each of
them has the reply to its own command. As in `System`, no read tears a reply: a promise whose reply
is torn stays without one.
-/
namespace SimpleRedis.Redis

open Net Resp TransitionRun Custody

/-- A connection of the client that asks for input. -/
structure Reading (fd : Fd) (conn : Connection Closure) (events : Option Interest) : Prop where
  armed : Armed (some conn) events
  readCb : conn.readCb = some (.read fd)
  size : conn.readBuffer.size = Net.defaultBufferSize

def AllReading (loop : EventLoopThread Closure) : Prop :=
  ∀ fd conn, loop.connections fd = some conn → conn.readRegistered = true →
    Reading fd conn (loop.epoll fd)

section Queue

variable {conn : Connection Closure}

/-- Where every entry has a byte, the last one of the window has. -/
theorem last_unsent (hqueue : conn.writeQueue ≠ [])
    (hunsent : ∀ m ∈ conn.writeQueue, m.unsent ≠ []) :
    ∃ m, conn.window.getLast? = some m ∧ m.unsent ≠ [] := by
  have hwindow : conn.window ≠ [] := by
    intro hnil
    have happend := window_append_drop conn
    rw [hnil, List.nil_append] at happend
    exact drop_ne_self hqueue happend.symm
  refine ⟨_, List.getLast?_eq_some_getLast hwindow, hunsent _ ?_⟩
  exact List.mem_of_mem_take (List.getLast_mem hwindow)

theorem iovs_ne_nil (hqueue : conn.writeQueue ≠ [])
    (hunsent : ∀ m ∈ conn.writeQueue, m.unsent ≠ []) : conn.iovs ≠ [] := by
  obtain ⟨m, hlast, hm⟩ := last_unsent hqueue hunsent
  intro hnil
  have hbytes := iovs_eq_nil_iff.mp hnil
  exact hm (List.flatten_eq_nil_iff.mp hbytes _ (List.mem_map_of_mem (List.mem_of_getLast? hlast)))

end Queue

section Loop

variable {fd : Fd} {conn conn' : Connection Closure} {loop : EventLoopThread Closure}
  {op : Op Closure}

/-- A connection does not begin to ask for input without a registration, and as long as it asks
its callback and the size of its buffer stay. -/
structure StaysReading (conn conn' : Connection Closure) : Prop where
  registered : conn'.readRegistered = true → conn.readRegistered = true
  readCb : conn'.readCb = conn.readCb
  size : conn'.readBuffer.size = conn.readBuffer.size

theorem staysReading_of_readSide (h : conn'.readSide = conn.readSide) :
    StaysReading conn conn' := by
  simp only [Connection.readSide, Prod.mk.injEq] at h
  obtain ⟨hcb, hbuffer, hregistered, -⟩ := h
  exact ⟨fun hnew => hregistered ▸ hnew, hcb, congrArg SimpleBuffer.size hbuffer⟩

theorem staysReading_receive (fd : Fd) (conn : Connection Closure) (chunk : List CChar)
    (consumed : ℕ) : StaysReading conn (conn.receive fd chunk consumed).1 := by
  unfold Connection.receive
  split
  · exact ⟨id, rfl, (SimpleBuffer.size_consume _ _).trans (SimpleBuffer.size_fill _ _)⟩
  · exact ⟨id, rfl, SimpleBuffer.size_clear _⟩

/-- A write task keeps the side of an existing connection that reads. -/
theorem readSide_stepWrite {socket : Socket}
    {enqueue : Connection Closure → Connection Closure × List (Effect Closure)}
    (hkeep : ∀ conn, (enqueue conn).1.readSide = conn.readSide)
    {old : Option (Connection Closure)} (h : (stepWrite fd old socket enqueue).1 = some conn') :
    conn'.readSide = (old.getD (Connection.writeOnly socket)).readSide := by
  cases h
  exact (Connection.readSide_checkHighLevel fd _).trans (hkeep _)

theorem staysReading_step (hregister : op.setsReadCb = false)
    (h : (stepConnection (some conn) op).1 = some conn') : StaysReading conn conn' := by
  cases op with
  | registerRead fd socket callback => cases hregister
  | writeOnce fd socket callback buf =>
      exact staysReading_of_readSide (readSide_stepWrite (fun _ => rfl) h)
  | writeBatch fd socket callbacks bufs =>
      exact staysReading_of_readSide (readSide_stepWrite
        (fun conn => Connection.readSide_enqueueBatch fd conn callbacks 0 bufs) h)
  | registerHighLevel | registerLowLevel | registerClose =>
      cases h
      exact ⟨id, rfl, rfl⟩
  | handleRead fd outcome consumed =>
      cases outcome with
      | bytes chunk =>
          cases h
          exact staysReading_receive fd conn chunk consumed
      | zero =>
          cases h
          exact ⟨nofun, rfl, rfl⟩
      | again =>
          cases h
          exact ⟨id, rfl, rfl⟩
      | error => cases h
  | handleWrite fd outcome =>
      simp only [stepConnection] at h
      split at h
      · cases h
        exact ⟨id, rfl, rfl⟩
      · cases outcome with
        | accepted n =>
            cases h
            exact staysReading_of_readSide (Connection.readSide_checkLowLevel fd (conn.sent n))
        | again =>
            cases h
            exact ⟨id, rfl, rfl⟩
        | error => cases h
  | close fd => cases h

/-- A connection that a task makes does not read. -/
theorem not_registered_of_none {old : Option (Connection Closure)} (hold : old = none)
    (hregister : op.setsReadCb = false) (h : (stepConnection old op).1 = some conn') :
    conn'.readRegistered = false := by
  have hwriteOnly : ∀ socket : Socket,
      conn'.readSide = (old.getD (Connection.writeOnly socket)).readSide →
      conn'.readRegistered = false := by
    intro socket hside
    rw [hold] at hside
    simp only [Connection.readSide, Prod.mk.injEq] at hside
    exact hside.2.2.1
  cases op with
  | registerRead fd socket callback => cases hregister
  | writeOnce fd socket callback buf =>
      exact hwriteOnly socket (readSide_stepWrite (fun _ => rfl) h)
  | writeBatch fd socket callbacks bufs =>
      exact hwriteOnly socket (readSide_stepWrite
        (fun conn => Connection.readSide_enqueueBatch fd conn callbacks 0 bufs) h)
  | registerHighLevel | registerLowLevel | registerClose | handleRead | handleWrite | close =>
      subst hold
      cases h

/-- A step leaves a connection that asks for input in the interest list. -/
theorem AllReading.exec (h : AllReading loop) (hplain : loop.Plain)
    (hregister : op.setsReadCb = false) : AllReading (loop.exec op).1 := by
  intro fd conn' hconn' hregistered
  have hput := EventLoopThread.exec_put op (hplain.plainAt op.fd)
  by_cases hfd : fd = op.fd
  · subst hfd
    have hnew : (stepConnection (loop.connections op.fd) op).1 = some conn' := by
      rw [hput, EventLoopThread.connections_put] at hconn'
      exact hconn'
    cases hold : loop.connections op.fd with
    | none =>
        cases (not_registered_of_none hold hregister hnew).symm.trans hregistered
    | some conn =>
        rw [hold] at hnew
        have hstays := staysReading_step hregister hnew
        have hreading := h op.fd conn hold (hstays.registered hregistered)
        have hattached : Attached loop op := by
          have hreads : ∀ c, loop.connections op.fd = some c → ¬ c.Detached := by
            rintro c hc ⟨hread, -⟩
            cases hold.symm.trans hc
            cases hread.symm.trans (hstays.registered hregistered)
          cases op with
          | registerRead fd socket callback => cases hregister
          | writeOnce fd socket callback buf => exact hreads
          | writeBatch fd socket callbacks bufs => exact hreads
          | _ => trivial
        obtain ⟨new, events, hloop, harmed⟩ := EventLoopThread.exec_armed hplain op hattached
        rw [hloop, EventLoopThread.connections_put] at hconn'
        rw [hloop, EventLoopThread.epoll_put]
        subst hconn'
        refine ⟨harmed ?_, hstays.readCb.trans hreading.readCb, hstays.size.trans hreading.size⟩
        rw [hold]
        exact hreading.armed
  · rw [hput, EventLoopThread.connections_put_of_ne _ _ _ _ hfd] at hconn'
    rw [hput, EventLoopThread.epoll_put_of_ne _ _ _ _ hfd]
    exact h fd conn' hconn' hregistered

end Loop

namespace System

variable {Θ : Type*} {memory : Memory} {s s' : System Θ} {fd : Fd} {op : Op Closure}
  {conn : Connection Closure}

section Frames

/-- A write callback leaves everything but the promises alone. -/
theorem foldl_deliver_rest (effects : List (Effect Closure)) :
    (effects.foldl deliver s).server = s.server ∧ (effects.foldl deliver s).tasks = s.tasks ∧
      (effects.foldl deliver s).calls = s.calls := by
  induction effects generalizing s with
  | nil => exact ⟨rfl, rfl, rfl⟩
  | cons effect effects ih =>
      obtain ⟨hserver, htasks, hcalls⟩ := ih (s := s.deliver effect)
      have hfirst : (s.deliver effect).server = s.server ∧ (s.deliver effect).tasks = s.tasks ∧
          (s.deliver effect).calls = s.calls := by
        unfold deliver
        split <;> exact ⟨rfl, rfl, rfl⟩
      exact ⟨hserver.trans hfirst.1, htasks.trans hfirst.2.1, hcalls.trans hfirst.2.2⟩

theorem exists_run (h : s.exec.loop.possible op = true) : ∃ s', s.run op = some s' := by
  have hstep : s.exec.step op = some _ := if_pos h
  exact ⟨_, Option.map_eq_some_iff.mpr ⟨_, hstep, rfl⟩⟩

theorem frame_run (hrun : s.run op = some s') :
    s'.exec.loop = (s.exec.loop.exec op).1 ∧ s'.server = s.server ∧ s'.tasks = s.tasks ∧
      s'.calls = s.calls := by
  obtain ⟨exec, hstep, rfl⟩ := Option.map_eq_some_iff.mp hrun
  obtain ⟨hexec, -⟩ :=
    foldl_deliver_frame (s := { s with exec := exec }) (s.exec.loop.exec op).2
  obtain ⟨hserver, htasks, hcalls⟩ :=
    foldl_deliver_rest (s := { s with exec := exec }) (s.exec.loop.exec op).2
  refine ⟨?_, hserver, htasks, hcalls⟩
  rw [hexec]
  exact (Execution.step_eq_some hstep).2.1

end Frames

/-- The connections that ask for input are in the interest list, and no buffer holds a whole reply:
the callback has taken those. -/
structure Steady (s : System Θ) : Prop where
  reading : AllReading s.exec.loop
  short : ∀ fd conn closure, s.exec.loop.connections fd = some conn →
    conn.readCb = some closure → ∀ r rest, (s.server fd).replies = r :: rest →
      conn.readBuffer.dataSize < r.enc.length

section Arrival

variable {chunk : List CChar} {closure : Closure}

/-- The loop gives a callback at least one byte, and no more than its buffer takes. -/
theorem length_of_handleRead {server : Server} (hconn : s.exec.loop.connections fd = some conn)
    (hstep : (s.setServer fd server).handleRead memory fd (.bytes chunk) = some s') :
    0 < chunk.length ∧ chunk.length ≤ conn.readBuffer.free := by
  have hloop : (s.setServer fd server).exec.loop.connections fd = some conn := hconn
  unfold System.handleRead at hstep
  split at hstep
  · obtain ⟨exec, hexec, -⟩ := Option.map_eq_some_iff.mp hstep
    exact (EventLoopThread.possible_bytes_iff hloop).mp (Execution.step_eq_some hexec).1
  · obtain ⟨r, -, hrun⟩ := Option.bind_eq_some_iff.mp hstep
    obtain ⟨exec, hexec, -⟩ := Option.map_eq_some_iff.mp hrun
    exact (EventLoopThread.possible_bytes_iff hloop).mp (Execution.step_eq_some hexec).1

/-- What `handleRead` makes of bytes that end cleanly. -/
structure Arrived (s s' : System Θ) (fd : Fd) (conn : Connection Closure) (chunk : List CChar)
    (parsed : Reach) (consumed : ℕ) : Prop where
  loop : s'.exec.loop = (s.exec.loop.exec (.handleRead fd (.bytes chunk) consumed)).1
  resolved : s'.resolved = s.resolved ++ values (s.clients fd).promises parsed.whole
  calls : s'.calls = s.calls
  tasks : s'.tasks = s.tasks
  server : s'.server = Function.update s.server fd { s.server fd with
    replies := parsed.rest
    bytes := (s.server fd).bytes.drop chunk.length }
  promises : (s'.clients fd).promises = (s.clients fd).promises.drop parsed.whole.length
  pending : ((conn.readBuffer.fill chunk).consume consumed).dataSize = parsed.pending

theorem Ok.exists_arrived (h : s.Ok memory) (hconn : s.exec.loop.connections fd = some conn)
    (hcb : conn.readCb = some closure) (hpos : 0 < chunk.length)
    (hfree : chunk.length ≤ conn.readBuffer.free) (harrived : chunk <+: (s.server fd).bytes)
    (hclean : cleanCuts conn.readBuffer.size (s.server fd).replies conn.readBuffer.dataSize
      [chunk.length] = true) :
    ∃ s' consumed,
      (s.arrive fd (.bytes chunk)).bind (·.handleRead memory fd (.bytes chunk)) = some s' ∧
        s.Arrived s' fd conn chunk
          (reach (s.server fd).replies (conn.readBuffer.dataSize + chunk.length)) consumed := by
  obtain ⟨rfl, -, hinstep⟩ := (h.channel fd).reading conn closure hconn hcb
  set parsed := reach (s.server fd).replies (conn.readBuffer.dataSize + chunk.length) with hparsed
  set served := s.setServer fd { s.server fd with
    replies := parsed.rest
    bytes := (s.server fd).bytes.drop chunk.length } with hserved
  have harrive : s.arrive fd (.bytes chunk) = some served := by
    simp only [arrive, hconn, hcb, reduceCtorEq, if_false]
    exact if_pos ⟨harrived, hclean⟩
  have hcall : served.readCall fd (.bytes chunk) =
      some (fd, (conn.readBuffer.fill chunk).buffer, (conn.readBuffer.fill chunk).dataSize) := by
    have hloop : served.exec.loop.connections fd = some conn := hconn
    simp only [readCall, hloop, Option.bind_some, hcb]
  -- what the callback makes of the bytes
  obtain ⟨future, hfuture⟩ := harrived
  have hstream : (conn.readBuffer.valid ++ chunk) ++ future = encAll (s.server fd).replies := by
    rw [List.append_assoc, hfuture]
    exact hinstep.stream
  obtain ⟨part, returned, hpending, -, hparse, hvalid⟩ :=
    read_replies hparsed.symm hinstep.wellFormed hfree hstream hinstep.length_le
  have hkept : ¬ (parsed.elementDue = true ∧ chunk.length < conn.readBuffer.free) := by
    have := conn.readBuffer.free_add_dataSize
    rintro ⟨hdue, hroom⟩
    have hlt : conn.readBuffer.dataSize + chunk.length < conn.readBuffer.size := by omega
    simp [cleanCuts, ← hparsed, hdue, hlt] at hclean
  rw [if_neg hkept, List.drop_zero] at hvalid
  -- what the loop makes of its result
  have hpossible : served.exec.loop.possible (.handleRead fd (.bytes chunk) returned) = true :=
    (EventLoopThread.possible_bytes_iff hconn).mpr ⟨hpos, hfree⟩
  set r : ReadResult ℕ := ⟨returned, (s.clients fd).promises.drop parsed.whole.length,
    (s.clients fd).promises.zip parsed.whole, false⟩ with hr
  obtain ⟨s', hrun⟩ := exists_run (s := served.finishRead fd r) hpossible
  have hran := ran_receive (s := served.finishRead fd r) h.held.kept hconn hrun
  obtain ⟨hloop, hserver, htasks, hcalls⟩ := frame_run hrun
  refine ⟨s', returned, ?_, hloop, hran.resolved, hcalls, htasks, hserver, ?_, ?_⟩
  · rw [harrive, Option.bind_some, System.handleRead, hcall]
    exact Option.bind_eq_some_iff.mpr ⟨r, hparse, hrun⟩
  · have hclients := congrArg (fun v : View => v.channel.promises) hran.view
    rw [view_finishRead] at hclients
    exact hclients
  · rw [← SimpleBuffer.length_valid, hvalid, hpending]

end Arrival

section Steady

variable {chunk : List CChar}

theorem Steady.of_eq (h : s.Steady) (hexec : s'.exec = s.exec) (hserver : s'.server = s.server) :
    s'.Steady := by
  refine ⟨?_, ?_⟩
  · rw [hexec]
    exact h.reading
  · rw [hexec, hserver]
    exact h.short

/-- A step of a loop that leaves the read buffers alone. -/
theorem Steady.run (h : s.Steady) (hs : AllKept s.exec) (hrun : s.run op = some s')
    (hregister : op.setsReadCb = false)
    (hkeeps : KeepsReading (s.exec.loop.connections op.fd)
      (stepConnection (s.exec.loop.connections op.fd) op).1) : s'.Steady := by
  obtain ⟨hloop, hserver, -, -⟩ := frame_run hrun
  refine ⟨hloop ▸ h.reading.exec hs.plain hregister, fun fd conn' closure hconn' hcb => ?_⟩
  rw [hloop, EventLoopThread.exec_put op (hs.plain.plainAt op.fd)] at hconn'
  rw [hserver]
  by_cases hfd : fd = op.fd
  · subst hfd
    rw [EventLoopThread.connections_put] at hconn'
    obtain ⟨conn, hconn, hold, hbuffer⟩ := hkeeps conn' closure hconn' hcb
    rw [hbuffer]
    exact h.short op.fd conn closure hconn hold
  · rw [EventLoopThread.connections_put_of_ne _ _ _ _ hfd] at hconn'
    exact h.short fd conn' closure hconn' hcb

/-- Bytes for a connection without a read callback. -/
theorem keepsReading_dropped {old : Option (Connection Closure)}
    (h : ∀ conn, old = some conn → conn.readCb = none) (consumed : ℕ) :
    KeepsReading old (stepConnection old (.handleRead fd (.bytes chunk) consumed)).1 := by
  cases old with
  | none => exact keepsReading_none
  | some conn =>
      intro conn' f hconn' hf
      simp only [stepConnection, Connection.receive, h conn rfl] at hconn'
      cases hconn'
      cases hf

theorem Steady.arrived (h : s.Steady) (hs : AllKept s.exec)
    (hconn : s.exec.loop.connections fd = some conn) {closure : Closure}
    (hcb : conn.readCb = some closure) {parsed : Reach} {n consumed : ℕ}
    (hparsed : parsed = reach (s.server fd).replies n)
    (harrived : s.Arrived s' fd conn chunk parsed consumed) : s'.Steady := by
  refine ⟨harrived.loop ▸ h.reading.exec hs.plain rfl, ?_⟩
  intro fd' conn' closure' hconn' hcb'
  rw [harrived.loop, EventLoopThread.exec_put _ (hs.plain.plainAt _)] at hconn'
  rw [harrived.server]
  by_cases hfd : fd' = fd
  · subst hfd
    rw [Op.fd, EventLoopThread.connections_put, hconn] at hconn'
    simp only [stepConnection, receive_of_readCb fd' chunk hcb] at hconn'
    cases hconn'
    intro r rest hreplies
    rw [Function.update_self] at hreplies
    subst hparsed
    exact harrived.pending ▸ reach_pending_lt hreplies
  · rw [Op.fd, EventLoopThread.connections_put_of_ne _ _ _ _ hfd] at hconn'
    rw [Function.update_of_ne hfd]
    exact h.short fd' conn' closure' hconn' hcb'

theorem Steady.handleRead (h : s.Steady) (hok : s.Ok memory) {outcome : ReadOutcome}
    (hstep : (s.arrive fd outcome).bind (·.handleRead memory fd outcome) = some s') :
    s'.Steady := by
  cases outcome with
  | zero =>
      have hevent : s.handleRead memory fd .zero = some s' := hstep
      rw [handleRead_zero memory] at hevent
      exact h.run hok.held.kept hevent rfl (keepsReading_stepConnection rfl rfl)
  | again =>
      have hevent : s.handleRead memory fd .again = some s' := hstep
      rw [handleRead_nothing memory (Or.inl rfl)] at hevent
      exact h.run hok.held.kept hevent rfl (keepsReading_stepConnection rfl rfl)
  | error =>
      have hevent : s.handleRead memory fd .error = some s' := hstep
      rw [handleRead_nothing memory (Or.inr rfl)] at hevent
      exact h.run hok.held.kept hevent rfl (keepsReading_stepConnection rfl rfl)
  | bytes chunk =>
      cases hconn : s.exec.loop.connections fd with
      | none =>
          simp only [arrive, hconn, Option.bind_some, System.handleRead, readCall,
            Option.bind_none] at hstep
          exact h.run hok.held.kept hstep rfl
            (keepsReading_dropped (fun _ hsome => by cases hconn.symm.trans hsome) 0)
      | some conn =>
          cases hcb : conn.readCb with
          | none =>
              simp only [arrive, hconn, hcb, if_true, Option.bind_some, System.handleRead,
                readCall] at hstep
              refine h.run hok.held.kept hstep rfl (keepsReading_dropped (fun conn' hsome => ?_) 0)
              cases hconn.symm.trans hsome
              exact hcb
          | some closure =>
              have hstep' := hstep
              simp only [arrive, hconn, hcb, reduceCtorEq, if_false] at hstep'
              split at hstep'
              · rename_i hguard
                obtain ⟨hpos, hfree⟩ := length_of_handleRead hconn hstep'
                obtain ⟨t, consumed, ht, harrived⟩ :=
                  hok.exists_arrived hconn hcb hpos hfree hguard.1 hguard.2
                cases ht.symm.trans hstep
                exact h.arrived hok.held.kept hconn hcb rfl harrived
              · cases hstep'

/-- A new answer comes behind the replies on the way, or into an empty buffer. -/
theorem Steady.answer (h : s.Steady) (hok : s.Ok memory) {reply : Reply memory}
    (hstep : s.answer fd reply = some s') : s'.Steady := by
  unfold System.answer at hstep
  extract_lets server life at hstep
  split at hstep
  · cases hstep
    refine ⟨h.reading, fun fd' conn closure hconn hcb r rest hreplies => ?_⟩
    change (Function.update s.server fd _ fd').replies = _ at hreplies
    by_cases hfd : fd' = fd
    · subst hfd
      rw [Function.update_self] at hreplies
      cases hold : server.replies with
      | nil =>
          obtain ⟨-, -, hinstep⟩ := (hok.channel fd').reading conn closure hconn hcb
          have hstream := hinstep.stream
          have hempty : (s.view fd').server.replies = [] := hold
          rw [hempty, encAll, List.append_eq_nil_iff] at hstream
          rw [← SimpleBuffer.length_valid, hstream.1]
          exact r.enc_length_pos
      | cons r' rest' =>
          rw [hold, List.cons_append] at hreplies
          cases hreplies
          exact h.short fd' conn closure hconn hcb _ _ hold
    · rw [Function.update_of_ne hfd] at hreplies
      exact h.short fd' conn closure hconn hcb r rest hreplies
  · cases hstep

theorem Steady.step [DecidableEq Θ] {setup : Setup} (h : s.Steady) (hok : s.Ok setup.memory)
    {act : Act setup.memory Θ} (hstep : s.step setup act = some s') : s'.Steady := by
  cases act with
  | execute thread args =>
      cases hstep
      refine h.of_eq (exec_execute thread args) ?_
      unfold System.execute
      extract_lets
      split <;> rfl
  | close fd =>
      cases hstep
      exact h.of_eq rfl rfl
  | runTask fd =>
      cases htasks : s.tasks fd with
      | nil => simp [System.step, htasks] at hstep
      | cons task tasks =>
          simp only [System.step, htasks] at hstep
          have hset : (s.setTasks fd tasks).Steady := h.of_eq rfl rfl
          cases task <;>
            exact hset.run hok.held.kept hstep rfl (keepsReading_stepConnection rfl rfl)
  | handleRead fd outcome => exact h.handleRead hok hstep
  | handleWrite fd outcome =>
      exact h.run hok.held.kept hstep rfl (keepsReading_stepConnection rfl rfl)
  | hangUp fd => exact h.run hok.held.kept hstep rfl (keepsReading_stepConnection rfl rfl)
  | answer fd reply => exact h.answer hok hstep

/-- The loops behind `connect`: every socket asks for input. -/
structure Connected (loop : EventLoopThread Closure) : Prop where
  armed : AllArmed loop
  registered : Registered loop
  reading : ∀ fd conn, loop.connections fd = some conn →
    conn.readRegistered = true ∧ conn.readBuffer.size = Net.defaultBufferSize

theorem Connected.doRegisterRead {loop : EventLoopThread Closure} (h : Connected loop) (fd : Fd) :
    Connected (loop.doRegisterRead fd fd (some (.read fd))) := by
  have hattached : Attached loop (.registerRead fd fd (some (.read fd))) := by
    rintro conn hconn - ⟨hread, -⟩
    cases hread.symm.trans (h.reading fd conn hconn).1
  refine ⟨h.armed.step (EventLoopThread.exec_armed h.armed.plain _ hattached),
    h.registered.doRegisterRead fd, fun fd' conn' hconn' => ?_⟩
  by_cases hfd : fd' = fd
  · subst hfd
    cases hconn : loop.connections fd' with
    | none =>
        rw [EventLoopThread.doRegisterRead_none fd' _ hconn,
          EventLoopThread.connections_put] at hconn'
        cases hconn'
        exact ⟨rfl, SimpleBuffer.size_ofSize _⟩
    | some conn =>
        rw [EventLoopThread.doRegisterRead_some fd' _ hconn,
          EventLoopThread.connections_put] at hconn'
        cases hconn'
        obtain ⟨hread, hsize⟩ := h.reading fd' conn hconn
        exact ⟨by simp [hread], hsize⟩
  · rw [EventLoopThread.doRegisterRead_put, EventLoopThread.connections_put_of_ne _ _ _ _ hfd]
      at hconn'
    exact h.reading fd' conn' hconn'

theorem connected_connect (setup : Setup) : Connected setup.connect := by
  have hfold : ∀ (sockets : List Fd) (loop : EventLoopThread Closure), Connected loop →
      Connected (sockets.foldl
        (fun loop fd => loop.doRegisterRead fd fd (some (.read fd))) loop) := by
    intro sockets
    induction sockets with
    | nil => exact fun _ h => h
    | cons fd sockets ih => exact fun loop h => ih _ (h.doRegisterRead fd)
  have hfresh : Connected (.fresh : EventLoopThread Closure) :=
    ⟨allArmed_fresh, ⟨EventLoopThread.plain_fresh, fun _ _ hconn => nomatch hconn⟩,
      fun _ _ hconn => nomatch hconn⟩
  exact hfold _ _ hfresh

theorem steady_initial (setup : Setup) : (initial setup : System Θ).Steady := by
  have hconnected := connected_connect setup
  refine ⟨fun fd conn hconn _ => ?_, fun _ _ _ _ _ _ _ hreplies => nomatch hreplies⟩
  have hloop : setup.connect.connections fd = some conn := hconn
  have harmed := hconnected.armed.armed fd
  rw [hloop] at harmed
  exact ⟨harmed, (hconnected.registered.fresh fd conn hconn).2.2,
    (hconnected.reading fd conn hconn).2⟩

end Steady

/-- A step that the loop of a socket takes, or its server. -/
def serves (fd : Fd) : Act memory Θ → Bool
  | .runTask fd' | .handleRead fd' _ | .handleWrite fd' _ | .answer fd' _ => fd' = fd
  | _ => false

/-- The loop is told of the event that a call is for. -/
def polled (s : System Θ) : Act memory Θ → Bool
  | .handleRead fd _ => (s.exec.loop.epoll fd).any (·.input)
  | .handleWrite fd _ => (s.exec.loop.epoll fd).any (·.output)
  | _ => true

/-- A step of one socket, for an event that the loop is told of. -/
def serve [DecidableEq Θ] (setup : Setup) (fd : Fd) (s : System Θ) (act : Act setup.memory Θ) :
    Option (System Θ) :=
  if serves fd act && s.polled act then s.step setup act else none

/-- What keeps a socket waiting: a task becomes a queued command, a command a promise without a
reply, and a reply takes a promise with it. -/
def waiting (fd : Fd) (s : System Θ) : ℕ :=
  4 * (s.tasks fd).length + 3 * (queueOf (s.exec.loop.connections fd)).length +
    2 * (s.clients fd).promises.length - (s.server fd).replies.length

/-- A socket that is read and not closed, with replies that fit into its buffer. `s₀` is where it
has started from. -/
structure Serving (memory : Memory) (s₀ : System Θ) (fd : Fd) (s : System Θ) : Prop where
  ok : s.Ok memory
  steady : s.Steady
  reads : ∃ conn, s.exec.loop.connections fd = some conn ∧ conn.readRegistered = true
  noClose : .close ∉ s.tasks fd
  fits : ∀ v ∈ (s.server fd).replies, v.enc.length ≤ Net.defaultBufferSize
  calls : s.calls = s₀.calls
  values : ∀ promise outcome, (promise, outcome) ∈ s.resolved →
    (promise, outcome) ∈ s₀.resolved ∨ ∃ v, outcome = .value v

section Moved

theorem readRegistered_of_readSide {conn conn' : Connection Closure}
    (h : conn'.readSide = conn.readSide) : conn'.readRegistered = conn.readRegistered := by
  simp only [Connection.readSide, Prod.mk.injEq] at h
  exact h.2.2.1

/-- A task puts its command into the queue. -/
theorem queued_of_run (hs : AllKept s.exec) (hconn : s.exec.loop.connections fd = some conn)
    {tasks : List Task} {promise : ℕ} {args : List (List CChar)}
    (hrun : (s.setTasks fd tasks).run (Task.op fd (.asyncWriteOnce promise args)) = some s') :
    ∃ conn', s'.exec.loop.connections fd = some conn' ∧ conn'.readSide = conn.readSide ∧
      conn'.writeQueue.length = conn.writeQueue.length + 1 ∧ s'.resolved = s.resolved ∧
      s'.clients fd = s.clients fd := by
  obtain ⟨base, effects, hs', -, hran, hmove⟩ :=
    ran_run hs (Task.op fd (.asyncWriteOnce promise args)) hrun
  have hview := hran.view
  generalize hnew : (stepConnection (s.view (Task.op fd (.asyncWriteOnce promise args)).fd).conn
    (Task.op fd (.asyncWriteOnce promise args))).1 = new at hmove hview
  cases hmove with
  | quiet hnone => cases hnone
  | sent n hnone => cases hnone
  | ended hnone => cases hnone
  | @queued conn' rest hqueue hrest =>
      rw [List.foldl_append, foldl_deliver_ofSubmission, foldl_deliver_quiet hrest] at hs'
      subst hs'
      have hold : (s.view fd).conn = some conn := hconn
      change (stepConnection (s.view fd).conn _).1 = some conn' at hnew
      change conn'.writeQueue = queueOf (s.view fd).conn ++ _ at hqueue
      rw [hold] at hnew hqueue
      refine ⟨conn', congrArg View.conn hview, readSide_stepWrite (fun _ => rfl) hnew, ?_,
        hran.resolved, congrArg View.channel hview⟩
      rw [hqueue]
      exact List.length_append

theorem reach_zero (replies : List RESPValue) : reach replies 0 = ⟨[], replies, 0⟩ := by
  cases replies with
  | nil => rfl
  | cons r rest => rw [reach, if_neg (Nat.not_le.mpr r.enc_length_pos)]

/-- The bytes up to the end of the first reply reach just that far. -/
theorem reach_first (r : RESPValue) (rest : List RESPValue) :
    reach (r :: rest) r.enc.length = ⟨[r], rest, 0⟩ := by
  rw [reach, if_pos (Nat.le_refl _), Nat.sub_self, reach_zero]

/-- The connection of a socket that is served, with its place in the interest list. -/
theorem Serving.exists_conn {s₀ : System Θ} (h : Serving memory s₀ fd s) :
    ∃ conn, s.exec.loop.connections fd = some conn ∧ conn.readRegistered = true ∧
      Reading fd conn (s.exec.loop.epoll fd) := by
  obtain ⟨conn, hconn, hregistered⟩ := h.reads
  exact ⟨conn, hconn, hregistered, h.steady.reading fd conn hconn hregistered⟩

/-- A promise that waits for a reply stands for each reply on the way. -/
theorem Serving.replies_le {s₀ : System Θ} (h : Serving memory s₀ fd s) :
    (s.server fd).replies.length ≤ (s.clients fd).promises.length := by
  obtain ⟨conn, hconn, -, hreading⟩ := h.exists_conn
  exact ((h.ok.channel fd).reading conn _ hconn hreading.readCb).2.2.length_le

/-- A socket that nothing keeps waiting holds no promise. -/
theorem Serving.held_eq_nil {s₀ : System Θ} (h : Serving memory s₀ fd s)
    (hwaiting : waiting fd s = 0) :
    (s.view fd).held = [] := by
  have hle := h.replies_le
  rw [waiting] at hwaiting
  have htasks : s.tasks fd = [] := List.eq_nil_of_length_eq_zero (by omega)
  have hqueue : queueOf (s.exec.loop.connections fd) = [] :=
    List.eq_nil_of_length_eq_zero (by omega)
  have hpromises : (s.clients fd).promises = [] := List.eq_nil_of_length_eq_zero (by omega)
  change (s.clients fd).promises ++ queuedPromises (queueOf (s.exec.loop.connections fd)) ++
    postedPromises (s.tasks fd) = []
  rw [htasks, hqueue, hpromises]
  rfl

/-- All that is offered is accepted: the commands of the window are done. -/
theorem sent_of_run (h : s.Ok memory) (hconn : s.exec.loop.connections fd = some conn)
    (hqueue : conn.writeQueue ≠ [])
    (hrun : s.run (.handleWrite fd (.accepted conn.iovs.flatten.length)) = some s') :
    ∃ conn', s'.exec.loop.connections fd = some conn' ∧ conn'.readSide = conn.readSide ∧
      conn'.writeQueue.length < conn.writeQueue.length ∧ s'.resolved = s.resolved ∧
      (s'.clients fd).promises.length + conn'.writeQueue.length =
        (s.clients fd).promises.length + conn.writeQueue.length := by
  rw [← setTasks_self s fd] at hrun
  obtain ⟨base, effects, rfl, heffects, hran, -⟩ :=
    ran_run h.held.kept (.handleWrite fd (.accepted conn.iovs.flatten.length)) hrun
  have hold : (s.view fd).conn = some conn := hconn
  have hunsent := (h.channel fd).unsent
  have hwrites := (h.held.wired fd).writes
  rw [hold] at hunsent hwrites
  have hlast := last_unsent hqueue hunsent
  -- the callbacks of the commands that are done
  obtain ⟨moved, hmoved, hcalls, -, -⟩ :=
    finish_spec conn.iovs.flatten.length ((h.held.kept.kept fd).kept conn hconn).tail
  have hdeliver := foldl_deliver_sent (s := base) hmoved hcalls hwrites
    (quiet_checkLowLevel fd (conn.sent conn.iovs.flatten.length))
    (conn.iovs.flatten.take conn.iovs.flatten.length)
  have hfold : effects.foldl deliver base =
      base.setPromises fd ((base.clients fd).promises ++ moved.map promiseOf) := by
    rw [← hdeliver, heffects]
    change List.foldl deliver base (stepConnection (s.view fd).conn _).2 = _
    simp only [hold, stepConnection, if_neg (iovs_ne_nil hqueue hunsent), List.map_map]
    rfl
  -- what is left of the queue
  have hconn' : base.exec.loop.connections fd =
      some ((conn.sent conn.iovs.flatten.length).checkLowLevel fd).1 := by
    refine (congrArg View.conn hran.view).trans ?_
    change (stepConnection (s.view fd).conn _).1 = _
    simp only [hold, stepConnection, if_neg (iovs_ne_nil hqueue hunsent)]
  have hleft : ((conn.sent conn.iovs.flatten.length).checkLowLevel fd).1.writeQueue =
      conn.writeQueue.drop iovMax :=
    (Connection.writeQueue_checkLowLevel fd _).trans (congrArg Prod.fst (finish_offered hlast))
  have hclients : base.clients fd = s.clients fd := congrArg View.channel hran.view
  have hcount : conn.writeQueue.length = moved.length + (conn.writeQueue.drop iovMax).length := by
    have hlength := congrArg List.length hmoved
    rwa [finish_offered hlast, List.length_append, List.length_map, List.length_map] at hlength
  have hpos := List.length_pos_iff.mpr hqueue
  rw [hfold]
  refine ⟨_, hconn', Connection.readSide_checkLowLevel fd _, ?_, hran.resolved, ?_⟩
  · rw [hleft, List.length_drop, iovMax]
    omega
  · change (Function.update base.clients fd _ fd).promises.length + _ = _
    rw [Function.update_self, List.length_append, List.length_map, hclients, hleft]
    omega

end Moved

section Progress

variable [DecidableEq Θ] {setup : Setup} {s₀ : System Θ}

/-- A step that brings the socket forward. -/
def Forward (setup : Setup) (s₀ : System Θ) (fd : Fd) (s : System Θ) : Prop :=
  ∃ act s', serve setup fd s act = some s' ∧ Serving setup.memory s₀ fd s' ∧
    waiting fd s' < waiting fd s

theorem serve_of_step {act : Act setup.memory Θ} (hserves : serves fd act = true)
    (hpolled : s.polled act = true) (hstep : s.step setup act = some s') :
    serve setup fd s act = some s' := by
  rw [serve, hserves, hpolled]
  exact hstep

/-- A command that waits in a task is queued. -/
theorem Serving.forward_task (h : Serving setup.memory s₀ fd s) {task : Task}
    {tasks : List Task} (htasks : s.tasks fd = task :: tasks) : Forward setup s₀ fd s := by
  cases task with
  | close => exact absurd (htasks ▸ List.mem_cons_self) h.noClose
  | asyncWriteOnce promise args =>
      have hpossible : (s.setTasks fd tasks).exec.loop.possible
          (Task.op fd (.asyncWriteOnce promise args)) = true := rfl
      obtain ⟨s', hrun⟩ := exists_run hpossible
      have hstep : s.step setup (.runTask fd) = some s' := by
        simp only [System.step, htasks]
        exact hrun
      obtain ⟨-, hserver, hleft, hcalls⟩ := frame_run hrun
      replace hserver : s'.server = s.server := hserver
      replace hleft : s'.tasks fd = tasks := hleft ▸ Function.update_self ..
      obtain ⟨conn, hconn, hregistered⟩ := h.reads
      obtain ⟨conn', hconn', hside, hqueue, hresolved, hclients⟩ :=
        queued_of_run h.ok.held.kept hconn hrun
      refine ⟨.runTask fd, s', serve_of_step (decide_eq_true rfl) rfl hstep,
        ⟨h.ok.step hstep, h.steady.step h.ok hstep, ⟨conn', hconn', ?_⟩, ?_, ?_,
          hcalls.trans h.calls, ?_⟩, ?_⟩
      · rw [readRegistered_of_readSide hside, hregistered]
      · rw [hleft]
        exact fun hmem => h.noClose (htasks ▸ List.mem_cons_of_mem _ hmem)
      · rw [hserver]
        exact h.fits
      · rw [hresolved]
        exact h.values
      · have hle := h.replies_le
        simp only [waiting, hleft, htasks, hconn, hconn', hclients, hserver, queueOf, Option.elim,
          hqueue, List.length_cons]
        omega

/-- A command that is queued is written. -/
theorem Serving.forward_write (h : Serving setup.memory s₀ fd s)
    (hqueue : queueOf (s.exec.loop.connections fd) ≠ []) : Forward setup s₀ fd s := by
  obtain ⟨conn, hconn, hregistered, hreading⟩ := h.exists_conn
  rw [hconn] at hqueue
  change conn.writeQueue ≠ [] at hqueue
  have hunsent := (h.ok.channel fd).unsent
  rw [show (s.view fd).conn = some conn from hconn] at hunsent
  have hbytes : 0 < conn.iovs.flatten.length := by
    obtain ⟨m, hlast, hm⟩ := last_unsent hqueue hunsent
    rw [flatten_iovs, List.length_pos_iff]
    intro hnil
    have hmem := List.mem_map_of_mem (f := WriteMetaInfo.unsent) (List.mem_of_getLast? hlast)
    exact hm (List.flatten_eq_nil_iff.mp hnil _ hmem)
  obtain ⟨s', hrun⟩ := exists_run (s := s)
    ((EventLoopThread.possible_accepted_iff hconn).mpr ⟨hbytes, Nat.le_refl _⟩)
  have hstep : s.step setup (.handleWrite fd (.accepted conn.iovs.flatten.length)) = some s' := hrun
  obtain ⟨-, hserver, htasks, hcalls⟩ := frame_run hrun
  obtain ⟨conn', hconn', hside, hshorter, hresolved, hcount⟩ := sent_of_run h.ok hconn hqueue hrun
  have hpolled : s.polled (.handleWrite fd (.accepted conn.iovs.flatten.length) :
      Act setup.memory Θ) = true := by
    obtain ⟨hconsistent, hevents⟩ := hreading.armed
    have hwrite := hconsistent.queued hqueue
    simp only [polled, hevents, Connection.mask, hwrite, if_true, Option.any_some]
    split <;> rfl
  refine ⟨.handleWrite fd (.accepted conn.iovs.flatten.length), s',
    serve_of_step (decide_eq_true rfl) hpolled hstep,
    ⟨h.ok.step hstep, h.steady.step h.ok hstep, ⟨conn', hconn', ?_⟩, ?_, ?_,
      hcalls.trans h.calls, ?_⟩, ?_⟩
  · rw [readRegistered_of_readSide hside, hregistered]
  · rw [htasks]
    exact h.noClose
  · rw [hserver]
    exact h.fits
  · rw [hresolved]
    exact h.values
  · have hle := h.replies_le
    simp only [waiting, htasks, hserver, hconn, hconn', queueOf, Option.elim]
    omega

/-- A reply on the way is read to its end. -/
theorem Serving.forward_read (h : Serving setup.memory s₀ fd s) {r : RESPValue}
    {rest : List RESPValue} (hreplies : (s.server fd).replies = r :: rest) :
    Forward setup s₀ fd s := by
  obtain ⟨conn, hconn, hregistered, hreading⟩ := h.exists_conn
  have hshort := h.steady.short fd conn _ hconn hreading.readCb r rest hreplies
  have hfits := h.fits r (hreplies ▸ List.mem_cons_self)
  obtain ⟨-, -, hinstep⟩ := (h.ok.channel fd).reading conn _ hconn hreading.readCb
  set chunk := r.enc.drop conn.readBuffer.dataSize with hchunk
  have hlength : conn.readBuffer.dataSize + chunk.length = r.enc.length := by
    rw [hchunk, List.length_drop]
    omega
  have hreach : reach (s.server fd).replies (conn.readBuffer.dataSize + chunk.length) =
      ⟨[r], rest, 0⟩ := by rw [hlength, hreplies, reach_first]
  have harrived : chunk <+: (s.server fd).bytes := by
    refine ⟨encAll rest, ?_⟩
    have hstream : conn.readBuffer.valid ++ (s.server fd).bytes = r.enc ++ encAll rest := by
      have := hinstep.stream
      rw [show (s.view fd).server.replies = r :: rest from hreplies, encAll] at this
      exact this
    have hbytes := congrArg (List.drop conn.readBuffer.valid.length) hstream
    rw [List.drop_left, SimpleBuffer.length_valid,
      List.drop_append_of_le_length (Nat.le_of_lt hshort)] at hbytes
    exact hbytes.symm
  have hclean : cleanCuts conn.readBuffer.size (s.server fd).replies conn.readBuffer.dataSize
      [chunk.length] = true := by
    simp only [cleanCuts, hreach, Reach.elementDue]
    cases rest <;> simp
  have hfree : chunk.length ≤ conn.readBuffer.free := by
    have := conn.readBuffer.free_add_dataSize
    have := hreading.size
    omega
  obtain ⟨s', consumed, hstep, harr⟩ := h.ok.exists_arrived hconn hreading.readCb (by omega) hfree
    harrived hclean
  rw [hreach] at harr
  have hstep' : s.step setup (.handleRead fd (.bytes chunk)) = some s' := hstep
  have hserver : (s'.server fd).replies = rest := by rw [harr.server, Function.update_self]
  have hconn' : s'.exec.loop.connections fd = some (conn.receive fd chunk consumed).1 := by
    rw [harr.loop, EventLoopThread.exec_put _ (h.ok.held.kept.plain.plainAt _), Op.fd,
      EventLoopThread.connections_put, hconn]
    rfl
  have hpolled : s.polled (.handleRead fd (.bytes chunk) : Act setup.memory Θ) = true := by
    obtain ⟨-, hevents⟩ := hreading.armed
    simp only [polled, hevents, Connection.mask, hregistered, if_true]
    split <;> rfl
  refine ⟨.handleRead fd (.bytes chunk), s', serve_of_step (decide_eq_true rfl) hpolled hstep',
    ⟨h.ok.step hstep', h.steady.step h.ok hstep', ⟨_, hconn', ?_⟩, ?_, ?_,
      harr.calls.trans h.calls, fun promise outcome hmem => ?_⟩, ?_⟩
  · rw [receive_of_readCb fd chunk hreading.readCb]
    exact hregistered
  · rw [harr.tasks]
    exact h.noClose
  · rw [hserver]
    exact fun v hv => h.fits v (hreplies ▸ List.mem_cons_of_mem r hv)
  · rw [harr.resolved] at hmem
    rcases List.mem_append.mp hmem with hmem | hmem
    · exact h.values promise outcome hmem
    · obtain ⟨⟨_, v⟩, -, heq⟩ := List.mem_map.mp hmem
      cases heq
      exact Or.inr ⟨v, rfl⟩
  · have hle := h.replies_le
    have hqueue : (conn.receive fd chunk consumed).1.writeQueue = conn.writeQueue := by
      rw [receive_of_readCb fd chunk hreading.readCb]
    rw [hreplies, List.length_cons] at hle
    simp only [waiting, harr.tasks, hserver, hconn, hconn', hreplies, harr.promises, queueOf,
      Option.elim, hqueue, List.length_drop, List.length_cons, List.length_nil]
    omega

/-- A promise without a reply has a command that the server has not answered. -/
theorem Serving.forward_answer (h : Serving setup.memory s₀ fd s)
    (hpromises : (s.clients fd).promises ≠ []) (hreplies : (s.server fd).replies = []) :
    Forward setup s₀ fd s := by
  obtain ⟨conn, hconn, hregistered, hreading⟩ := h.exists_conn
  obtain ⟨-, hended, hinstep⟩ := (h.ok.channel fd).reading conn _ hconn hreading.readCb
  obtain ⟨done, parsed, hdone, hwaiting, hleft, hparsed, hanswers⟩ := hinstep.matched
  have hunsent := (h.ok.channel fd).unsent
  rw [show (s.view fd).conn = some conn from hconn] at hunsent
  have hcount := received_kept ((h.ok.held.kept.kept fd).kept conn hconn) hunsent hdone
  have hreceived : (s.server fd).answers.length < done.length := by
    have hall := List.drop_eq_nil_iff.mp (hleft.symm.trans hreplies)
    have hsome := List.length_pos_iff.mpr (hwaiting ▸ hpromises)
    rw [List.length_drop, List.length_map] at hsome
    change (s.view fd).server.answers.length < done.length
    omega
  set reply : Reply setup.memory := ⟨.integer 0, trivial⟩ with hreply
  set s' := s.setServer fd {
    answers := (s.server fd).answers ++ [reply.val]
    replies := (s.server fd).replies ++ [reply.val]
    bytes := (s.server fd).bytes ++ reply.val.enc } with hs'
  have hstep : s.step setup (.answer fd reply) = some s' := by
    have hfirst : (livesOf fd s.exec.trace).ended = [] := hended
    have hlife : firstLife (livesOf fd s.exec.trace) = (livesOf fd s.exec.trace).current := by
      rw [firstLife, hfirst]
      rfl
    rw [← hcount, ← hlife] at hreceived
    exact if_pos hreceived
  have hserver : (s'.server fd).replies = [reply.val] := by
    change (Function.update s.server fd _ fd).replies = _
    rw [Function.update_self, hreplies, List.nil_append]
  refine ⟨.answer fd reply, s', serve_of_step (decide_eq_true rfl) rfl hstep,
    ⟨h.ok.step hstep, h.steady.step h.ok hstep, ⟨conn, hconn, hregistered⟩, h.noClose, ?_, h.calls,
      h.values⟩, ?_⟩
  · rw [hserver, List.forall_mem_singleton]
    change (RESPValue.integer 0).enc.length ≤ Net.defaultBufferSize
    decide
  · have hpos := List.length_pos_iff.mpr hpromises
    have hsame : s'.tasks = s.tasks ∧ s'.exec = s.exec ∧ s'.clients = s.clients := ⟨rfl, rfl, rfl⟩
    simp only [waiting, hsame, hserver, hreplies, List.length_cons, List.length_nil]
    omega

/-- As long as the socket holds a promise, it can be brought forward. -/
theorem Serving.forward (h : Serving setup.memory s₀ fd s) (hwaiting : waiting fd s ≠ 0) :
    Forward setup s₀ fd s := by
  cases htasks : s.tasks fd with
  | cons task tasks => exact h.forward_task htasks
  | nil =>
      by_cases hqueue : queueOf (s.exec.loop.connections fd) = []
      · cases hreplies : (s.server fd).replies with
        | cons r rest => exact h.forward_read hreplies
        | nil =>
            refine h.forward_answer (fun hnil => hwaiting ?_) hreplies
            simp [waiting, htasks, hqueue, hnil]
      · exact h.forward_write hqueue

/-- The loop and the server alone can go on until the socket holds no promise; what it held then has
the replies to its commands. -/
theorem Ok.exists_replied (hok : s.Ok setup.memory) (hsteady : s.Steady)
    (hconn : s.exec.loop.connections fd = some conn) (hread : conn.readRegistered = true)
    (hclose : .close ∉ s.tasks fd)
    (hfits : ∀ v ∈ (s.server fd).replies, v.enc.length ≤ Net.defaultBufferSize) :
    ∃ acts s', TransitionRun.run (serve setup fd) s acts = some s' ∧ s'.Ok setup.memory ∧
      (s'.view fd).held = [] ∧ ∀ promise ∈ (s.view fd).held,
        ∃ v, (promise, .value v) ∈ s'.resolved ∧ s'.Replied promise v := by
  have hserving : Serving setup.memory s fd s :=
    ⟨hok, hsteady, ⟨conn, hconn, hread⟩, hclose, hfits, rfl, fun _ _ => Or.inl⟩
  obtain ⟨acts, s', hrun, hend, hzero⟩ : ∃ acts s',
      TransitionRun.run (serve setup fd) s acts = some s' ∧ Serving setup.memory s fd s' ∧
        waiting fd s' = 0 :=
    exists_run_of_rank (fun _ h hwaiting => h.forward hwaiting) hserving
  have hnone := hend.held_eq_nil hzero
  refine ⟨acts, s', hrun, hend.ok, hnone, fun promise hheld => ?_⟩
  have howner : (s'.calls.map Call.client)[promise]? = some fd :=
    hend.calls ▸ hok.held.once.own fd promise hheld
  obtain ⟨⟨_, outcome⟩, hmem, rfl⟩ :=
    List.mem_map.mp (hend.ok.held.once.all_settled_iff.mpr hnone promise howner)
  rcases hend.values _ _ hmem with hold | ⟨v, rfl⟩
  · exact absurd (List.mem_map_of_mem hold) (hok.held.once.unsettled fd _ hheld)
  · exact ⟨v, hmem, hend.ok.own _ v hmem⟩

/-- From every state that the client reaches without a reply that is torn, the loop and the server
can go on until a socket that is read and not closed holds no promise; each promise that it held
then has the reply to its command. -/
theorem resolvable_of_reachable (hs : Reachable (System.step setup) (initial setup) s)
    (hconn : s.exec.loop.connections fd = some conn) (hread : conn.readRegistered = true)
    (hclose : .close ∉ s.tasks fd)
    (hfits : ∀ v ∈ (s.server fd).replies, v.enc.length ≤ Net.defaultBufferSize) :
    ∃ acts s', TransitionRun.run (serve setup fd) s acts = some s' ∧ (s'.view fd).held = [] ∧
      ∀ promise ∈ (s.view fd).held,
        ∃ v, (promise, .value v) ∈ s'.resolved ∧ s'.Replied promise v := by
  obtain ⟨hok, hsteady⟩ := hs.invariant (I := fun s => s.Ok setup.memory ∧ s.Steady)
    (fun _ _ _ h hstep => ⟨h.1.step hstep, h.2.step h.1 hstep⟩)
    ⟨ok_initial setup, steady_initial setup⟩
  obtain ⟨acts, s', hrun, -, hnone, hreplied⟩ :=
    hok.exists_replied hsteady hconn hread hclose hfits
  exact ⟨acts, s', hrun, hnone, hreplied⟩

end Progress

/-- One command is sent, and another one in part. -/
def twoCalls : List (Act oneSocket.memory Unit) :=
  [.execute () [[80]], .runTask 5, .execute () [[80]], .runTask 5, .handleWrite 5 (.accepted 15)]

theorem resolvable_of_reachable_twoCalls :
    ∃ s acts s', TransitionRun.run (System.step oneSocket) (initial oneSocket) twoCalls = some s ∧
      (s.view 5).held = [0, 1] ∧ TransitionRun.run (serve oneSocket 5) s acts = some s' ∧
      ∀ promise ∈ [0, 1], ∃ v, (promise, .value v) ∈ s'.resolved ∧ s'.Replied promise v := by
  have hend : (TransitionRun.run (System.step oneSocket) (initial oneSocket) twoCalls).map
      (fun s => ((s.view 5).held, (s.exec.loop.connections 5).map (·.readRegistered),
        (s.tasks 5).length, (s.server 5).replies.length)) =
        some ([0, 1], some true, 0, 0) := by decide +kernel
  obtain ⟨s, hs, hparts⟩ := Option.map_eq_some_iff.mp hend
  obtain ⟨hheld, hparts⟩ := Prod.mk.inj hparts
  obtain ⟨hregistered, hparts⟩ := Prod.mk.inj hparts
  obtain ⟨htasks, hreplies⟩ := Prod.mk.inj hparts
  obtain ⟨conn, hconn, hread⟩ := Option.map_eq_some_iff.mp hregistered
  have htasks := List.eq_nil_of_length_eq_zero htasks
  have hnone := List.eq_nil_of_length_eq_zero hreplies
  obtain ⟨acts, s', hrun, -, hall⟩ := resolvable_of_reachable ⟨twoCalls, hs⟩ hconn hread
    (htasks ▸ List.not_mem_nil) (hnone ▸ List.forall_mem_nil _)
  exact ⟨s, acts, s', hs, hheld, hrun, hheld ▸ hall⟩

end System

end SimpleRedis.Redis
