import SimpleRedis.RpcRequest
import SimpleRedis.RpcResponse
import SimpleRedis.ThreadPool

/-!
# Requests, handlers and answers

The read callback puts every message into the thread pool, two workers take the messages
out and run `dispatch`, and `dispatch` hands one buffer to `asyncWriteOnce`. The state
below is that of one connection; the steps of the callback and of the workers come in any
order, so answers may overtake each other.
-/
namespace SimpleRedis.Rpc

open TransitionRun ThreadPool

def errBadRequest : CChar := 1
def errBadInternal : CChar := 3
def errUnknownFunction : CChar := 100
def errUnknownParam : CChar := 101
def errUnknownResponse : CChar := 102

/-- How a call of a handler ends: with its bytes, or with an exception, which is a
`BadParamException`, a `BadResponseException` or anything else. -/
inductive HandlerResult where
  | returned (res : List CChar)
  | badParam
  | badResponse
  | otherException
  deriving DecidableEq, Repr

/-- What a handler does with the params of the `n`-th message of the connection. -/
abbrev RpcHandler := ℕ → List CChar → HandlerResult

/-- `handlers_`, by service and function. -/
abbrev Handlers := List CChar × List CChar → Option RpcHandler

/-- `RpcServerImpl::dispatch`: the buffer that it hands to `asyncWriteOnce`. -/
def dispatch (handlers : Handlers) (n : ℕ) (context : RpcContext) : List CChar :=
  match context.result with
  | .error => buildErrorResponse context.requestId errBadRequest
  | .complete =>
      match handlers (context.serviceName, context.funcName) with
      | some handler =>
          match handler n context.params with
          | .returned res => buildResponse res context.requestId
          | .badParam => buildErrorResponse context.requestId errUnknownParam
          | .badResponse => buildErrorResponse context.requestId errUnknownResponse
          | .otherException => buildErrorResponse context.requestId errBadInternal
      | none => buildErrorResponse context.requestId errUnknownFunction
  -- the assertion at the head of the function rules this out
  | .waiting => []

/-- The arguments of a task of the pool; `number` counts the messages of the connection. -/
structure Message where
  number : ℕ
  context : RpcContext
  deriving DecidableEq, Repr

/-- The server as far as one connection is concerned. -/
structure Server where
  client : Client := {}
  /-- The messages that the read callback has yet to put into the pool. -/
  parsed : List RpcContext := []
  pool : Pool Message := Pool.create Message 2 false
  /-- The chunks received so far. -/
  chunks : List Chunk := []
  /-- The buffers handed to `asyncWriteOnce`. -/
  written : List (List CChar) := []

namespace Server

inductive Act where
  /-- The loop thread calls the read callback. -/
  | receive (chunk : Chunk)
  /-- The callback puts its next message into the pool. -/
  | put
  | worker (i : ℕ)

/-- The read callback parses a chunk. -/
def receive (s : Server) (chunk : Chunk) : Server :=
  let out := s.client.read chunk
  { s with
    client := out.1
    parsed := out.2.map (·.context)
    chunks := s.chunks ++ [chunk] }

/-- The read callback puts a message into the pool. -/
def put (s : Server) (context : RpcContext) (parsed : List RpcContext) : Server :=
  { s with
    parsed := parsed
    pool := s.pool.put ⟨s.pool.pushed.length, context⟩ }

/-- A worker has come to another state of the pool, and may have run `dispatch`. -/
def work (handlers : Handlers) (s : Server) (i : ℕ) (pool : Pool Message) : Server :=
  { s with
    pool := pool
    written := s.written ++
      (s.pool.executing i).map fun m => dispatch handlers m.number m.context }

/-- A callback begins when the one before has put all its messages. The callback of a
task is the empty lambda. -/
def step (handlers : Handlers) (s : Server) : Act → Option Server
  | .receive chunk => if s.parsed = [] then some (s.receive chunk) else none
  | .put =>
      match s.parsed with
      | [] => none
      | context :: parsed => some (s.put context parsed)
  | .worker i => (s.pool.stepWorker (fun _ => true) i).map (s.work handlers i)

/-- All that was received is answered, and the workers wait for more. -/
structure Quiescent (s : Server) : Prop where
  parsed : s.parsed = []
  queue : s.pool.tasks.queue = []
  threads : ∀ loop ∈ s.pool.threads, loop = .popping

/-- The number and the context of every message agree with what the parser has
dispatched, and every task executed has written its answer. -/
structure Ok (handlers : Handlers) (s : Server) : Prop where
  pool : s.pool.Ok fun _ => true
  outside : s.pool.joiner = .outside
  stillOpen : s.pool.tasks.stopped = false
  size : s.pool.threads.length = 2
  client : s.client = (({} : Client).readAll s.chunks).1
  contexts : s.pool.pushed.map (·.context) ++ s.parsed =
    (({} : Client).readAll s.chunks).2.map (·.context)
  numbers : s.pool.pushed.map (·.number) = List.range s.pool.pushed.length
  written : s.written = s.pool.executed.map fun m => dispatch handlers m.number m.context

section Steps

variable {handlers : Handlers} {s s' : Server}

theorem ok_initial : Ok handlers {} where
  pool := Pool.ok_create 2 false
  outside := rfl
  stillOpen := rfl
  size := rfl
  client := rfl
  contexts := rfl
  numbers := rfl
  written := rfl

theorem readAll_concat (client : Client) (chunks : List Chunk) (chunk : Chunk) :
    client.readAll (chunks ++ [chunk]) =
      (((client.readAll chunks).1.read chunk).1,
        (client.readAll chunks).2 ++ ((client.readAll chunks).1.read chunk).2) := by
  induction chunks generalizing client with
  | nil => simp [Client.readAll]
  | cons first chunks ih => simp [Client.readAll, ih]

theorem Ok.receive (h : Ok handlers s) (hparsed : s.parsed = []) (chunk : Chunk) :
    Ok handlers (s.receive chunk) := by
  have hcontexts := h.contexts
  rw [hparsed, List.append_nil] at hcontexts
  refine { h with client := ?_, contexts := ?_ }
  · simp only [Server.receive, readAll_concat, h.client]
  · simp only [Server.receive, readAll_concat, h.client, List.map_append, hcontexts]

theorem Ok.put (h : Ok handlers s) {context : RpcContext} {parsed : List RpcContext}
    (hparsed : s.parsed = context :: parsed) : Ok handlers (s.put context parsed) := by
  have hpool := h.pool.put ⟨s.pool.pushed.length, context⟩
  have hcontexts := h.contexts
  rw [hparsed] at hcontexts
  unfold Server.put
  rw [Pool.put_of_open h.stillOpen] at hpool ⊢
  refine { h with pool := hpool, contexts := ?_, numbers := ?_ }
  · rw [← hcontexts, List.map_append, List.append_assoc]
    rfl
  · rw [List.map_append, h.numbers, List.length_append, List.length_singleton, List.range_succ]
    rfl

theorem Ok.work (h : Ok handlers s) {i : ℕ} {pool : Pool Message}
    (hstep : s.pool.stepWorker (fun _ => true) i = some pool) :
    Ok handlers (s.work handlers i pool) := by
  obtain ⟨hexecuted, hpushed, hstopped, hjoiner⟩ := Pool.stepWorker_frame hstep
  refine { h with
    pool := h.pool.stepWorker hstep
    outside := hjoiner.trans h.outside
    stillOpen := hstopped.trans h.stillOpen
    size := (Pool.length_threads_step (a := .worker i) hstep).trans h.size
    contexts := ?_, numbers := ?_, written := ?_ }
  · simp only [Server.work, hpushed]
    exact h.contexts
  · simp only [Server.work, hpushed]
    exact h.numbers
  · simp only [Server.work, hexecuted, List.map_append, h.written]

theorem Ok.step (h : Ok handlers s) {a : Act} (hstep : s.step handlers a = some s') :
    Ok handlers s' := by
  cases a with
  | receive chunk =>
      simp only [Server.step] at hstep
      split at hstep
      · rename_i hparsed
        cases hstep
        exact h.receive hparsed chunk
      · cases hstep
  | put =>
      simp only [Server.step] at hstep
      split at hstep
      · cases hstep
      · rename_i context parsed hparsed
        cases hstep
        exact h.put hparsed
  | worker i =>
      obtain ⟨pool, hpool, rfl⟩ := Option.map_eq_some_iff.mp hstep
      exact h.work hpool

theorem ok_of_reachable (h : Reachable (step handlers) {} s) : Ok handlers s :=
  h.invariant (fun _ _ _ hok hstep => hok.step hstep) ok_initial

/-- The messages of a list of contexts, counted from `n`. -/
def messages (n : ℕ) (contexts : List RpcContext) : List Message :=
  (contexts.zipIdx n).map fun p => ⟨p.2, p.1⟩

theorem Ok.messages_pushed (h : Ok handlers s) :
    messages 0 (s.pool.pushed.map (·.context)) = s.pool.pushed := by
  refine List.ext_getElem (by simp [messages]) fun i hi hi' => ?_
  have hnumber := congrArg (·[i]?) h.numbers
  simp only [List.getElem?_map, List.getElem?_eq_getElem hi', List.getElem?_range hi',
    Option.map_some, Option.some.injEq] at hnumber
  simp only [messages, List.getElem_map, List.getElem_zipIdx, Nat.zero_add]
  exact congrArg (Message.mk · _) hnumber.symm

/-- Every message received has been answered, is with a worker, waits in the queue or
waits for the callback to put it there. -/
theorem Ok.answers_perm (h : Ok handlers s) :
    ((messages 0 ((({} : Client).readAll s.chunks).2.map (·.context))).map fun m =>
        dispatch handlers m.number m.context).Perm
      (s.written ++ ((s.pool.threads.flatMap Loop.unexecuted ++ s.pool.tasks.queue) ++
        messages s.pool.pushed.length s.parsed).map fun m =>
          dispatch handlers m.number m.context) := by
  have hsplit : messages 0 (s.pool.pushed.map (·.context) ++ s.parsed) =
      s.pool.pushed ++ messages s.pool.pushed.length s.parsed := by
    rw [messages, List.zipIdx_append, List.map_append, List.length_map, Nat.zero_add]
    exact congrArg (· ++ _) h.messages_pushed
  have hpushed : s.pool.pushed.Perm (s.pool.executed ++
      (s.pool.threads.flatMap Loop.unexecuted ++ s.pool.tasks.queue)) := by
    rw [← h.pool.order, ← List.append_assoc]
    exact (h.pool.executing.trans List.perm_append_comm).append_right _
  rw [← h.contexts, hsplit, h.written, ← List.map_append, ← List.append_assoc]
  exact (hpushed.append_right _).map _

/-- What is left to do with the bytes received. -/
def rank (s : Server) : ℕ := 9 * s.parsed.length + s.pool.rank

/-- As long as something is left to do, a thread can do it. -/
theorem Ok.decreases (h : Ok handlers s) :
    s.Quiescent ∨ ∃ a s', s.step handlers a = some s' ∧ s'.chunks = s.chunks ∧
      s'.rank < s.rank := by
  cases hparsed : s.parsed with
  | cons context parsed =>
      refine Or.inr ⟨.put, s.put context parsed, by simp only [Server.step, hparsed], rfl, ?_⟩
      simp only [rank, Server.put, Pool.put_rank h.stillOpen, hparsed, List.length_cons]
      omega
  | nil =>
      have hcbOpen : s.pool.cbTasks.stopped = false := by
        rw [← Bool.not_eq_true, h.pool.cbShut, h.outside]
        simp
      rcases h.pool.work_decreases h.stillOpen hcbOpen (by rw [h.size]; decide) with
        ⟨hqueue, hthreads⟩ | ⟨i, pool, hstep, hlt⟩
      · exact Or.inl ⟨hparsed, hqueue, hthreads⟩
      · refine Or.inr ⟨.worker i, s.work handlers i pool, ?_, rfl, ?_⟩
        · simp only [Server.step, hstep, Option.map_some]
        · simp only [rank, Server.work]
          omega

/-- Whatever has been received, the threads can bring it to an end. -/
theorem Ok.run_quiescent (h : Ok handlers s) :
    ∃ acts s', run (Server.step handlers) s acts = some s' ∧ s'.chunks = s.chunks ∧
      s'.Quiescent := by
  induction hrank : s.rank using Nat.strongRecOn generalizing s with
  | ind n ih =>
      rcases h.decreases with hquiescent | ⟨a, t, hstep, hchunks, hlt⟩
      · exact ⟨[], s, rfl, rfl, hquiescent⟩
      · obtain ⟨acts, s', hrun, hchunks', hend⟩ := ih t.rank (hrank ▸ hlt) (h.step hstep) rfl
        exact ⟨a :: acts, s', (run_cons hstep).trans hrun, hchunks'.trans hchunks, hend⟩

end Steps

end Server

/-- The frame that answers the `n`-th request of a connection. -/
def answer (handlers : Handlers) (n : ℕ) (r : Request) : Frame :=
  match handlers (toChars r.serviceName, toChars r.funcName) with
  | none => ⟨RequestType.reqError, r.requestId.toNat, [], 100⟩
  | some handler =>
      match handler n (toChars r.params) with
      | .returned res => ⟨RequestType.response, r.requestId.toNat, res.map u8, 0⟩
      | .badParam => ⟨RequestType.reqError, r.requestId.toNat, [], 101⟩
      | .badResponse => ⟨RequestType.reqError, r.requestId.toNat, [], 102⟩
      | .otherException => ⟨RequestType.reqError, r.requestId.toNat, [], 3⟩

/-- The handlers return fewer than `2 ^ 32` bytes. -/
def ShortResults (handlers : Handlers) : Prop :=
  ∀ key handler, handlers key = some handler → ∀ n params res,
    handler n params = .returned res → res.length < 2 ^ 32

theorem dispatch_completed {handlers : Handlers} (hshort : ShortResults handlers) (n : ℕ)
    (r : Request) : (dispatch handlers n r.completed).map u8 = (answer handlers n r).bytes := by
  simp only [dispatch, answer, Request.completed]
  cases hkey : handlers (toChars r.serviceName, toChars r.funcName) with
  | none => exact buildErrorResponse_eq _ _
  | some handler =>
      simp only
      cases hresult : handler n (toChars r.params) with
      | returned res => exact buildResponse_eq (hshort _ handler hkey n _ res hresult) _
      | badParam => exact buildErrorResponse_eq _ _
      | badResponse => exact buildErrorResponse_eq _ _
      | otherException => exact buildErrorResponse_eq _ _

theorem messages_completed {handlers : Handlers} (hshort : ShortResults handlers)
    (requests : List Request) :
    ((Server.messages 0 (requests.map Request.completed)).map fun m =>
        (dispatch handlers m.number m.context).map u8) =
      requests.zipIdx.map fun p => (answer handlers p.2 p.1).bytes := by
  rw [Server.messages, List.zipIdx_map, List.map_map, List.map_map]
  exact List.map_congr_left fun p _ => dispatch_completed hshort p.2 p.1

/-- Every request of a connection is answered once and under its own id. At any time
nothing but such answers has been written, each at most once; the threads can always bring
it to an end; and then the buffers written are, up to order, one frame for each request. -/
theorem requests_answered (handlers : Handlers) (hshort : ShortResults handlers)
    (requests : List Request) {s : Server} (h : Reachable (Server.step handlers) {} s)
    (hstream : stream s.chunks = toChars (frames requests)) :
    (∃ owed, (requests.zipIdx.map fun p => (answer handlers p.2 p.1).bytes).Perm
        (s.written.map (List.map u8) ++ owed)) ∧
      (∃ acts s', run (Server.step handlers) s acts = some s' ∧ s'.chunks = s.chunks ∧
        s'.Quiescent) ∧
      (s.Quiescent → (s.written.map (List.map u8)).Perm
        (requests.zipIdx.map fun p => (answer handlers p.2 p.1).bytes)) := by
  have hok := Server.ok_of_reachable h
  have hperm := hok.answers_perm.map (List.map u8)
  rw [(readAll_frames requests s.chunks hstream).1, List.map_map] at hperm
  have hexpected := messages_completed hshort requests
  have hcomp : (List.map u8 ∘ fun m : Message => dispatch handlers m.number m.context) =
      fun m => (dispatch handlers m.number m.context).map u8 := rfl
  rw [hcomp, hexpected, List.map_append] at hperm
  refine ⟨⟨_, hperm⟩, hok.run_quiescent, fun hquiescent => ?_⟩
  have hidle : s.pool.threads.flatMap Loop.unexecuted = [] := by
    rw [List.flatMap_eq_nil_iff]
    intro loop hloop
    rw [hquiescent.threads loop hloop]
    rfl
  rw [hidle, hquiescent.queue, hquiescent.parsed] at hperm
  simpa [Server.messages] using hperm.symm

/-- One handler, which returns the same two bytes every time. -/
def markerHandlers : Handlers := fun key =>
  if key = (toChars [0x0a, 0x0b], toChars [0x0b, 0x0c]) then
    some fun _ _ => .returned (toChars [0x0b, 0x0c])
  else none

/-- A function that is not registered. -/
def unknownRequest : Request where
  requestId := 7
  serviceName := [0x0a, 0x0b]
  funcName := []
  params := []
  id_ne := by decide
  service_le := markerRequest.service_le
  func_le := by decide
  params_lt := by decide

/-- Both requests in one chunk. -/
def markerChunk : Chunk :=
  .exact (toChars (frames [markerRequest, unknownRequest])) (by decide)

theorem requests_answered_markers :
    ∃ s, Reachable (Server.step markerHandlers) {} s ∧ s.Quiescent ∧
      (s.written.map (List.map u8)).Perm
        [Frame.bytes ⟨2, 0x0a0b, [0x0b, 0x0c], 0⟩, Frame.bytes ⟨3, 7, [], 100⟩] := by
  have hshort : ShortResults markerHandlers := by
    intro key handler hkey n params res hres
    unfold markerHandlers at hkey
    split at hkey
    · cases hkey
      cases hres
      decide
    · cases hkey
  have hreceive : run (Server.step markerHandlers) {} [.receive markerChunk] =
      some (({} : Server).receive markerChunk) := rfl
  have hstream : stream [markerChunk] = toChars (frames [markerRequest, unknownRequest]) := by
    simp [stream, markerChunk]
  obtain ⟨acts, s, hrun, hchunks, hquiescent⟩ :=
    (requests_answered markerHandlers hshort [markerRequest, unknownRequest] ⟨_, hreceive⟩
      hstream).2.1
  have hreachable : Reachable (Server.step markerHandlers) {} s := by
    refine ⟨[.receive markerChunk] ++ acts, ?_⟩
    rw [run_append, hreceive]
    exact hrun
  have hmarker : answer markerHandlers 0 markerRequest = ⟨2, 0x0a0b, [0x0b, 0x0c], 0⟩ := by decide
  have hunknown : answer markerHandlers 1 unknownRequest = ⟨3, 7, [], 100⟩ := by decide
  have hwritten := (requests_answered markerHandlers hshort [markerRequest, unknownRequest]
    hreachable (by rw [hchunks]; exact hstream)).2.2 hquiescent
  simp only [List.zipIdx, List.map_cons, List.map_nil, Nat.zero_add, hmarker, hunknown] at hwritten
  exact ⟨s, hreachable, hquiescent, hwritten⟩

end SimpleRedis.Rpc
