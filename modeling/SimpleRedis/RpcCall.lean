import SimpleRedis.RpcClient
import SimpleRedis.RpcDispatch
import Mathlib.Data.List.Nodup

/-!
# Calls from end to end

The Python client sends one request after the other and waits for the frame with the id of the
last one. A call may raise before its frame is there; the frame then meets a later call, which
keeps it in `_pending`. Between the client and the server are two streams of bytes, which may be cut
anywhere, and in the server two workers, so that answers overtake each other.
-/
namespace SimpleRedis.Rpc

open BigEndian TransitionRun

/-- How a call ends. -/
inductive Outcome where
  | body (bytes : List UInt8)
  | rpcError (code : UInt8)
  | timeoutError
  | connectionError
  deriving DecidableEq, Repr

/-- The call has not got a frame. -/
def Outcome.Lost (o : Outcome) : Prop := o = .timeoutError ∨ o = .connectionError

/-- What `call` makes of the frame that it has received. -/
def Frame.outcome (f : Frame) : Outcome :=
  if f.type = RequestType.reqError then .rpcError f.extra
  else if f.extra ≠ 0 then .rpcError f.extra
  else .body f.body

theorem Frame.not_lost_outcome (f : Frame) : ¬ f.outcome.Lost := by
  unfold outcome Outcome.Lost
  split
  · simp
  · split <;> simp

/-- `next_request_id`: the id, and the counter behind it. -/
def nextRequestId (counter : ℕ) : ℕ × ℕ :=
  if counter % 2 ^ 64 = 0 then nextRequestId (counter + 1) else (counter % 2 ^ 64, counter + 1)
termination_by 1 - counter % 2 ^ 64
decreasing_by omega

/-- The id of a call, which the caller may give. -/
def drawId (counter : ℕ) : Option ℕ → ℕ × ℕ
  | some id => (id, counter)
  | none => nextRequestId counter

/-- The assertions of `build_packet`, and the range that `struct.pack` checks. -/
def Request.make? (requestId : ℕ) (serviceName funcName params : List UInt8) : Option Request :=
  if h : (0 < requestId ∧ requestId < 2 ^ 64) ∧ serviceName.length ≤ 255 ∧
      funcName.length ≤ 255 ∧ params.length < 2 ^ 32 then
    some
      { requestId := UInt64.ofNat requestId
        serviceName := serviceName
        funcName := funcName
        params := params
        id_ne := by
          intro hzero
          have hnat := congrArg UInt64.toNat hzero
          rw [UInt64.toNat_ofNat_of_lt' h.1.2] at hnat
          exact h.1.1.ne' hnat
        service_le := h.2.1
        func_le := h.2.2.1
        params_lt := h.2.2.2 }
  else none

theorem Request.toNat_of_make? {requestId : ℕ} {serviceName funcName params : List UInt8}
    {r : Request} (h : Request.make? requestId serviceName funcName params = some r) :
    r.requestId.toNat = requestId := by
  unfold Request.make? at h
  split at h
  · rename_i hbounds
    cases h
    exact UInt64.toNat_ofNat_of_lt' hbounds.1.2
  · cases h

/-- The Python client with the counter of its module; `taken` are the frames taken off `_buf`. -/
structure PyClient where
  buf : List UInt8 := []
  pending : ℕ → Option Frame := fun _ => none
  counter : ℕ := 1
  taken : List Frame := []

namespace PyClient

/-- A frame has been taken off `_buf`. -/
def take (c : PyClient) (f : Frame) (rest : List UInt8) : PyClient :=
  { c with buf := rest, taken := c.taken ++ [f] }

/-- The frame belongs to another call. -/
def keep (c : PyClient) (f : Frame) : PyClient :=
  { c with pending := Function.update c.pending f.requestId (some f) }

/-- The loop of `_recv_frame` up to its next `recv`: the frame that it returns, if any. -/
def poll (expect : ℕ) (c : PyClient) : Option Frame × PyClient :=
  match _h : tryParseFrame c.buf with
  | (none, rest) => (none, { c with buf := rest })
  | (some f, rest) =>
      if f.requestId = expect then (some f, c.take f rest)
      else poll expect ((c.take f rest).keep f)
termination_by c.buf.length
decreasing_by exact tryParseFrame_length_lt _h

/-- `_recv_frame` before its first `recv`. -/
def recvFrame (expect : ℕ) (c : PyClient) : Option Frame × PyClient :=
  match c.pending expect with
  | some f => (some f, { c with pending := Function.update c.pending expect none })
  | none => c.poll expect

theorem poll_none {expect : ℕ} {c : PyClient} {rest : List UInt8}
    (h : tryParseFrame c.buf = (none, rest)) : c.poll expect = (none, { c with buf := rest }) := by
  rw [poll]
  split
  · rename_i heq
    cases h.symm.trans heq
    rfl
  · rename_i heq
    cases h.symm.trans heq

theorem poll_some {expect : ℕ} {c : PyClient} {f : Frame} {rest : List UInt8}
    (h : tryParseFrame c.buf = (some f, rest)) :
    c.poll expect =
      if f.requestId = expect then (some f, c.take f rest)
      else poll expect ((c.take f rest).keep f) := by
  rw [poll]
  split
  · rename_i heq
    cases h.symm.trans heq
  · rename_i heq
    cases h.symm.trans heq
    rfl

theorem pending_keep {c : PyClient} {f g : Frame} {id : ℕ} (h : (c.keep f).pending id = some g) :
    c.pending id = some g ∨ f = g ∧ f.requestId = id := by
  have hupdate : Function.update c.pending f.requestId (some f) id = some g := h
  rw [Function.update_apply] at hupdate
  split at hupdate
  · rename_i hid
    exact Or.inr ⟨Option.some.inj hupdate, hid.symm⟩
  · exact Or.inl hupdate

/-- What `poll` does with a buffer that begins with the frames `todo`: it takes `done` of them. -/
structure Polled (c : PyClient) (expect : ℕ) (todo done : List Frame)
    (out : Option Frame × PyClient) : Prop where
  prefixed : done <+: todo
  taken : out.2.taken = c.taken ++ done
  rest : frameStream done ++ out.2.buf = c.buf
  pending : ∀ id f, out.2.pending id = some f →
    c.pending id = some f ∨ f ∈ done ∧ f.requestId = id ∧ id ≠ expect
  counter : out.2.counter = c.counter
  found : ∀ f, out.1 = some f → f ∈ done ∧ f.requestId = expect
  missing : out.1 = none →
    (∀ f ∈ done, f.requestId ≠ expect) ∧ tryParseFrame out.2.buf = (none, out.2.buf)

theorem frameStream_cons (f : Frame) (fs : List Frame) :
    frameStream (f :: fs) = f.bytes ++ frameStream fs := List.flatten_cons

theorem frameStream_append (fs fs' : List Frame) :
    frameStream (fs ++ fs') = frameStream fs ++ frameStream fs' := by
  rw [frameStream, List.map_append, List.flatten_append]
  rfl

/-- The frames that are whole are taken until the one that is expected. -/
theorem poll_stream {todo : List Frame} (htodo : ∀ f ∈ todo, f.WellFormed) (expect : ℕ)
    {c : PyClient} {later : List UInt8} (h : c.buf ++ later = frameStream todo) :
    ∃ done, c.Polled expect todo done (c.poll expect) := by
  induction todo generalizing c with
  | nil =>
      obtain ⟨hbuf, -⟩ := List.append_eq_nil_iff.mp h
      have hnone : tryParseFrame c.buf = (none, c.buf) := by
        rw [hbuf]
        rfl
      rw [poll_none hnone]
      refine ⟨[], List.nil_prefix, by simp, rfl, fun _ _ hf => Or.inl hf, rfl, ?_, ?_⟩
      · intro f hf
        cases hf
      · exact fun _ => ⟨by simp, hnone⟩
  | cons f todo ih =>
      have hf := htodo f List.mem_cons_self
      rw [frameStream_cons] at h
      by_cases hlt : c.buf.length < f.bytes.length
      · have hpart : c.buf <+: f.bytes :=
          List.prefix_of_prefix_length_le ⟨later, h⟩ (List.prefix_append _ _) hlt.le
        have hnone := tryParseFrame_part hf hpart hlt
        rw [poll_none hnone]
        refine ⟨[], List.nil_prefix, by simp, rfl, fun _ _ hf => Or.inl hf, rfl, ?_, ?_⟩
        · intro f hf
          cases hf
        · exact fun _ => ⟨by simp, hnone⟩
      · obtain ⟨rest, hrest⟩ : f.bytes <+: c.buf :=
          List.prefix_of_prefix_length_le (List.prefix_append _ _) ⟨later, h⟩ (Nat.le_of_not_lt hlt)
        rw [← hrest, List.append_assoc, List.append_cancel_left_eq] at h
        rw [poll_some (by rw [← hrest]; exact tryParseFrame_bytes hf rest)]
        by_cases hexpect : f.requestId = expect
        · rw [if_pos hexpect]
          refine ⟨[f], ⟨todo, rfl⟩, rfl, ?_, fun _ _ hf => Or.inl hf, rfl, ?_, ?_⟩
          · rw [frameStream_cons, ← hrest]
            simp [frameStream, take]
          · intro g hg
            cases hg
            exact ⟨List.mem_singleton_self f, hexpect⟩
          · intro hg
            cases hg
        · rw [if_neg hexpect]
          obtain ⟨done, hdone⟩ := ih (fun g hg => htodo g (List.mem_cons_of_mem _ hg))
            (c := (c.take f rest).keep f) h
          refine ⟨f :: done, ?_, ?_, ?_, ?_, hdone.counter, ?_, ?_⟩
          · exact List.cons_prefix_cons.mpr ⟨rfl, hdone.prefixed⟩
          · rw [hdone.taken, keep, take, List.append_assoc]
            rfl
          · rw [frameStream_cons, List.append_assoc, hdone.rest]
            exact hrest
          · intro id g hg
            rcases hdone.pending id g hg with hkeep | ⟨hmem, hid⟩
            · rcases pending_keep hkeep with hold | ⟨rfl, rfl⟩
              · exact Or.inl hold
              · exact Or.inr ⟨List.mem_cons_self, rfl, hexpect⟩
            · exact Or.inr ⟨List.mem_cons_of_mem _ hmem, hid⟩
          · intro g hg
            obtain ⟨hmem, hid⟩ := hdone.found g hg
            exact ⟨List.mem_cons_of_mem _ hmem, hid⟩
          · intro hg
            obtain ⟨hmissing, hrest⟩ := hdone.missing hg
            exact ⟨List.forall_mem_cons.mpr ⟨hexpect, hmissing⟩, hrest⟩

end PyClient

/-- The frame that answers a message of a client. -/
def reply (handlers : Handlers) (m : Message) : Frame :=
  match handlers (m.context.serviceName, m.context.funcName) with
  | none => ⟨RequestType.reqError, m.context.requestId.toNat, [], 100⟩
  | some handler =>
      match handler m.number m.context.params with
      | .returned res => ⟨RequestType.response, m.context.requestId.toNat, res.map u8, 0⟩
      | .badParam => ⟨RequestType.reqError, m.context.requestId.toNat, [], 101⟩
      | .badResponse => ⟨RequestType.reqError, m.context.requestId.toNat, [], 102⟩
      | .otherException => ⟨RequestType.reqError, m.context.requestId.toNat, [], 3⟩

section Replies

variable {handlers : Handlers}

theorem reply_completed (n : ℕ) (r : Request) :
    reply handlers ⟨n, r.completed⟩ = answer handlers n r := rfl

theorem requestId_reply (m : Message) :
    (reply handlers m).requestId = m.context.requestId.toNat := by
  unfold reply
  split
  · rfl
  · split <;> rfl

theorem reply_wellFormed (hshort : ShortResults handlers) (m : Message) :
    (reply handlers m).WellFormed := by
  have hid := m.context.requestId.toNat_lt
  unfold reply
  split
  · exact ⟨Or.inr rfl, hid, by simp⟩
  · rename_i handler hhandler
    split
    · rename_i res hres
      exact ⟨Or.inl rfl, hid, by simpa using hshort _ handler hhandler _ _ res hres⟩
    all_goals exact ⟨Or.inr rfl, hid, by simp⟩

/-- What the parser has dispatched of a part of the requests. -/
theorem prefix_contexts {chunks : List Chunk} {requests : List Request}
    (h : stream chunks <+: toChars (frames requests)) :
    (({} : Client).readAll chunks).2.map (·.context) <+: requests.map Request.completed := by
  obtain ⟨rest, hrest⟩ := h
  by_cases hne : rest = []
  · rw [hne, List.append_nil] at hrest
    exact (readAll_frames requests chunks hrest).1 ▸ List.prefix_refl _
  · have hall : stream (chunks ++ [Chunk.exact rest hne]) = toChars (frames requests) := by
      simpa [stream] using hrest
    have hcontexts := (readAll_frames requests _ hall).1
    rw [Server.readAll_concat, List.map_append] at hcontexts
    exact ⟨_, hcontexts⟩

namespace Server

variable {s s' : Server}

theorem Ok.pushed_perm (h : Ok handlers s) : s.pool.pushed.Perm
    (s.pool.executed ++ (s.pool.threads.flatMap ThreadPool.Loop.unexecuted ++
      s.pool.tasks.queue)) := by
  rw [← h.pool.order, ← List.append_assoc]
  exact (h.pool.executing.trans List.perm_append_comm).append_right _

/-- Every message that was executed is one of the requests. -/
theorem Ok.executed_request (h : Ok handlers s) {requests : List Request}
    (hstream : stream s.chunks <+: toChars (frames requests)) {m : Message}
    (hm : m ∈ s.pool.executed) :
    ∃ r, requests[m.number]? = some r ∧ m.context = r.completed := by
  have hpushed : m ∈ s.pool.pushed :=
    h.pushed_perm.symm.subset (List.mem_append_left _ hm)
  obtain ⟨i, hi, rfl⟩ := List.getElem_of_mem hpushed
  have hnumber : s.pool.pushed[i].number = i := by
    have hnumbers := congrArg (·[i]?) h.numbers
    simpa [List.getElem?_eq_getElem hi, List.getElem?_range hi] using hnumbers
  have hprefix : s.pool.pushed.map (·.context) <+: requests.map Request.completed := by
    refine List.IsPrefix.trans ?_ (prefix_contexts hstream)
    exact ⟨s.parsed, h.contexts⟩
  have hget : (requests.map Request.completed)[i]? = some s.pool.pushed[i].context := by
    rw [List.prefix_iff_getElem?.mp hprefix i (by simpa using hi), List.getElem_map]
  rw [List.getElem?_map] at hget
  obtain ⟨r, hr, hcontext⟩ := Option.map_eq_some_iff.mp hget
  rw [hnumber]
  exact ⟨r, hr, hcontext.symm⟩

theorem Ok.executed_nodup (h : Ok handlers s) : (s.pool.executed.map (·.number)).Nodup := by
  have hperm := h.pushed_perm.map (·.number)
  rw [h.numbers, List.map_append] at hperm
  exact List.Nodup.of_append_left (hperm.nodup_iff.mp List.nodup_range)

/-- The bytes written are the frames of the replies, as long as the client sends requests. -/
theorem Ok.written_replies (h : Ok handlers s) (hshort : ShortResults handlers)
    {requests : List Request} (hstream : stream s.chunks <+: toChars (frames requests)) :
    s.written.flatten.map u8 = frameStream (s.pool.executed.map (reply handlers)) := by
  rw [h.written, List.map_flatten, List.map_map, frameStream, List.map_map]
  refine congrArg List.flatten (List.map_congr_left fun m hm => ?_)
  obtain ⟨r, -, hcontext⟩ := h.executed_request hstream hm
  have hdispatch := dispatch_completed hshort m.number r
  rw [← hcontext] at hdispatch
  rw [Function.comp_apply, hdispatch, ← reply_completed, ← hcontext]
  rfl

/-- The server executes more and more messages, and receives more and more chunks. -/
theorem step_prefix {a : Act} (h : s.step handlers a = some s') :
    s.pool.executed <+: s'.pool.executed ∧ s.chunks <+: s'.chunks := by
  cases a with
  | receive chunk =>
      obtain ⟨-, hs'⟩ := Option.ite_none_right_eq_some.mp h
      cases hs'
      exact ⟨List.prefix_refl _, List.prefix_append _ _⟩
  | put =>
      simp only [Server.step] at h
      split at h
      · cases h
      · cases h
        exact ⟨List.prefix_refl _, List.prefix_refl _⟩
  | worker i =>
      obtain ⟨pool, hpool, rfl⟩ := Option.map_eq_some_iff.mp h
      obtain ⟨hexecuted, -⟩ := ThreadPool.Pool.stepWorker_frame hpool
      exact ⟨⟨_, hexecuted.symm⟩, List.prefix_refl _⟩

end Server

end Replies

/-- A client, the server as far as this client is concerned, and the bytes that either has sent to
the other and that have arrived. `requests` and `outcomes` are those of the calls so far, `waiting`
is the id that the call in `_recv_frame` expects. `ended` says that the server has closed its side,
and `torn` that a send has failed behind the first byte. -/
structure Session where
  client : PyClient := {}
  server : Server := {}
  sent : List UInt8 := []
  received : List UInt8 := []
  requests : List Request := []
  outcomes : List Outcome := []
  waiting : Option ℕ := none
  ended : Bool := false
  torn : Bool := false

namespace Session

inductive Act where
  | call (requestId : Option ℕ) (serviceName funcName params : List UInt8)
  | sendFails (requestId : Option ℕ) (serviceName funcName params : List UInt8) (sent : ℕ)
  | recv (chunk : List UInt8)
  | timeout
  | closed
  | server (a : Server.Act)

/-- The bytes that the server has handed to its loop, in the order of `asyncWriteOnce`. -/
def wire (s : Session) : List UInt8 := s.server.written.flatten.map u8

/-- The call in `_recv_frame` ends. -/
def finish (s : Session) (o : Outcome) : Session :=
  { s with outcomes := s.outcomes ++ [o], waiting := none }

/-- The call goes on with a frame, or with the next `recv`. -/
def resume (s : Session) (out : Option Frame × PyClient) : Session :=
  match out.1 with
  | some f => { s with client := out.2 }.finish f.outcome
  | none => { s with client := out.2 }

theorem resume_some {s : Session} {out : Option Frame × PyClient} {f : Frame}
    (h : out.1 = some f) : s.resume out = { s with client := out.2 }.finish f.outcome := by
  simp only [resume, h]

theorem resume_none {s : Session} {out : Option Frame × PyClient} (h : out.1 = none) :
    s.resume out = { s with client := out.2 } := by
  simp only [resume, h]

/-- A request goes out. -/
def send (s : Session) (r : Request) (counter : ℕ) : Session :=
  { s with
    client := { s.client with counter := counter }
    sent := s.sent ++ r.buildPacket
    requests := s.requests ++ [r]
    waiting := some r.requestId.toNat }

/-- `sendall` raises when the first bytes of the request have gone out. -/
def sendPart (s : Session) (r : Request) (counter sent : ℕ) : Session :=
  { s with
    client := { s.client with counter := counter }
    sent := s.sent ++ r.buildPacket.take sent
    torn := s.torn || sent ≠ 0 }

/-- A piece of the server's bytes arrives. -/
def arrive (s : Session) (chunk : List UInt8) : Session :=
  { s with
    client := { s.client with buf := s.client.buf ++ chunk }
    received := s.received ++ chunk }

/-- `RECV_SIZE`. -/
def recvSize : ℕ := 65536

/-- The server receives no byte that was not sent, and neither does the client. Behind the end of
the stream there is only its end. -/
def step (handlers : Handlers) (s : Session) : Act → Option Session
  | .call requestId serviceName funcName params =>
      if s.waiting.isSome then none
      else
        let drawn := drawId s.client.counter requestId
        match Request.make? drawn.1 serviceName funcName params with
        -- an assertion of `build_packet` raises
        | none => some { s with client := { s.client with counter := drawn.2 } }
        | some r =>
            let s := s.send r drawn.2
            some (s.resume (s.client.recvFrame r.requestId.toNat))
  | .sendFails requestId serviceName funcName params sent =>
      if s.waiting.isSome then none
      else
        let drawn := drawId s.client.counter requestId
        (Request.make? drawn.1 serviceName funcName params).bind fun r =>
          if sent < r.buildPacket.length then some (s.sendPart r drawn.2 sent) else none
  | .recv chunk =>
      match s.waiting with
      | none => none
      | some expect =>
          if s.ended = false ∧ chunk ≠ [] ∧ chunk.length ≤ recvSize ∧
              s.received ++ chunk <+: s.wire then
            let s := s.arrive chunk
            some (s.resume (s.client.poll expect))
          else none
  | .timeout =>
      if s.waiting.isSome ∧ s.ended = false then some (s.finish .timeoutError) else none
  | .closed =>
      if s.waiting.isSome then some ({ s with ended := true }.finish .connectionError) else none
  | .server a =>
      (s.server.step handlers a).bind fun server =>
        if stream server.chunks <+: toChars s.sent then some { s with server := server } else none

/-- The frames of the server so far. -/
def replies (handlers : Handlers) (s : Session) : List Frame :=
  s.server.pool.executed.map (reply handlers)

/-- What holds whatever ids the calls have. -/
structure Ok (handlers : Handlers) (s : Session) : Prop where
  server : s.server.Ok handlers
  sent : s.sent = frames s.requests
  reached : stream s.server.chunks <+: toChars s.sent
  arrived : s.received <+: s.wire
  buffered : frameStream s.client.taken ++ s.client.buf = s.received
  order : s.client.taken <+: s.replies handlers
  calls : s.requests.length = s.outcomes.length + if s.waiting.isSome then 1 else 0
  expects : ∀ expect, s.waiting = some expect →
    ∃ r, s.requests[s.outcomes.length]? = some r ∧ r.requestId.toNat = expect

/-- No two calls have the same id. -/
def Distinct (s : Session) : Prop := (s.requests.map (·.requestId)).Nodup

/-- The outcome of each call and the frames in `_pending`. -/
structure Account (handlers : Handlers) (s : Session) : Prop where
  settled : ∀ n r o, s.requests[n]? = some r → s.outcomes[n]? = some o →
    o.Lost ∨ o = (answer handlers n r).outcome ∧ answer handlers n r ∈ s.client.taken
  pending : ∀ id f, s.client.pending id = some f → ∃ n r o, s.requests[n]? = some r ∧
    s.outcomes[n]? = some o ∧ o.Lost ∧ r.requestId.toNat = id ∧ f = answer handlers n r

/-- The frame of the call that waits has not been taken. -/
def Untaken (s : Session) : Prop :=
  ∀ expect, s.waiting = some expect → ∀ f ∈ s.client.taken, f.requestId ≠ expect

section Facts

variable {handlers : Handlers} {s : Session}

theorem Distinct.index (h : s.Distinct) {n n' : ℕ} {r r' : Request}
    (hr : s.requests[n]? = some r) (hr' : s.requests[n']? = some r')
    (hid : r.requestId.toNat = r'.requestId.toNat) : n = n' := by
  have hget : (s.requests.map (·.requestId))[n]? = (s.requests.map (·.requestId))[n']? := by
    rw [List.getElem?_map, List.getElem?_map, hr, hr', Option.map_some, Option.map_some,
      UInt64.toNat_inj.mp hid]
  obtain ⟨hlt, -⟩ := List.getElem?_eq_some_iff.mp hr
  exact (List.getElem?_inj (by simpa using hlt) h).mp hget

theorem Ok.stream_requests (h : Ok handlers s) :
    stream s.server.chunks <+: toChars (frames s.requests) := h.sent ▸ h.reached

theorem Ok.wire_eq (h : Ok handlers s) (hshort : ShortResults handlers) :
    s.wire = frameStream (s.replies handlers) :=
  h.server.written_replies hshort h.stream_requests

/-- A frame of the server answers a request. -/
theorem Ok.reply_answer (h : Ok handlers s) {f : Frame} (hf : f ∈ s.replies handlers) :
    ∃ n r, s.requests[n]? = some r ∧ f = answer handlers n r := by
  obtain ⟨m, hm, rfl⟩ := List.mem_map.mp hf
  obtain ⟨r, hr, hcontext⟩ := h.server.executed_request h.stream_requests hm
  refine ⟨m.number, r, hr, ?_⟩
  rw [← reply_completed, ← hcontext]

theorem requestId_answer (n : ℕ) (r : Request) :
    (answer handlers n r).requestId = r.requestId.toNat := by
  rw [← reply_completed, requestId_reply]
  rfl

/-- With distinct ids, no id is answered twice. -/
theorem Ok.replies_nodup (h : Ok handlers s) (hdistinct : s.Distinct) :
    ((s.replies handlers).map (·.requestId)).Nodup := by
  rw [replies, List.map_map]
  refine List.Nodup.map_on ?_ (List.Nodup.of_map _ h.server.executed_nodup)
  intro m hm m' hm' hid
  obtain ⟨r, hr, hcontext⟩ := h.server.executed_request h.stream_requests hm
  obtain ⟨r', hr', hcontext'⟩ := h.server.executed_request h.stream_requests hm'
  simp only [Function.comp_apply, requestId_reply, hcontext, hcontext'] at hid
  have hnumber := hdistinct.index hr hr' hid
  exact List.inj_on_of_nodup_map h.server.executed_nodup hm hm' hnumber

/-- The client goes on with whole frames of the server. -/
theorem Ok.polled (h : Ok handlers s) (hshort : ShortResults handlers) (expect : ℕ) :
    ∃ todo done, s.replies handlers = s.client.taken ++ todo ∧
      s.client.Polled expect todo done (s.client.poll expect) := by
  obtain ⟨todo, htodo⟩ := h.order
  obtain ⟨later, hlater⟩ := h.arrived
  rw [h.wire_eq hshort, ← h.buffered, ← htodo, PyClient.frameStream_append, List.append_assoc,
    List.append_cancel_left_eq] at hlater
  have hformed : ∀ f ∈ todo, f.WellFormed := by
    intro f hf
    have hmem : f ∈ s.replies handlers := htodo ▸ List.mem_append_right _ hf
    obtain ⟨m, -, rfl⟩ := List.mem_map.mp hmem
    exact reply_wellFormed hshort m
  obtain ⟨done, hdone⟩ := PyClient.poll_stream hformed expect hlater
  exact ⟨todo, done, htodo.symm, hdone⟩

end Facts

section Steps

variable {handlers : Handlers} {s s' : Session}

/-- The invariant of a session. -/
structure Sound (handlers : Handlers) (s : Session) : Prop extends Ok handlers s where
  whole : s.torn = false
  parsed : s.waiting.isSome → tryParseFrame s.client.buf = (none, s.client.buf)
  account : s.Distinct → Account handlers s
  untaken : s.Distinct → s.Untaken

theorem sound_initial : Sound handlers {} where
  server := Server.ok_initial
  sent := rfl
  reached := List.prefix_refl _
  arrived := List.nil_prefix
  buffered := rfl
  order := List.prefix_refl _
  calls := rfl
  expects := by simp
  whole := rfl
  parsed := by simp
  account := fun _ => ⟨by simp, by simp⟩
  untaken := fun _ => by simp [Untaken]

/-- The call that waits is the last one. -/
theorem Ok.waiting_call (h : Ok handlers s) {expect : ℕ} (hwait : s.waiting = some expect) :
    ∃ r, s.requests[s.outcomes.length]? = some r ∧ r.requestId.toNat = expect ∧
      s.requests.length = s.outcomes.length + 1 := by
  obtain ⟨r, hr, hid⟩ := h.expects expect hwait
  have hcalls := h.calls
  rw [hwait] at hcalls
  exact ⟨r, hr, hid, hcalls⟩

theorem Ok.finish (h : Ok handlers s) (hwait : s.waiting.isSome) (o : Outcome) :
    Ok handlers (s.finish o) := by
  have hcalls := h.calls
  rw [if_pos hwait] at hcalls
  refine { h with calls := ?_, expects := ?_ }
  · simpa [Session.finish] using hcalls
  · intro expect hexpect
    cases hexpect

/-- The outcome of the call that waits is added to those before it. -/
theorem Account.finish (h : Account handlers s) {o : Outcome}
    (ho : ∀ r, s.requests[s.outcomes.length]? = some r →
      o.Lost ∨ o = (answer handlers s.outcomes.length r).outcome ∧
        answer handlers s.outcomes.length r ∈ s.client.taken) :
    Account handlers (s.finish o) := by
  refine ⟨fun n r o' hr ho' => ?_, fun id f hf => ?_⟩
  · rcases Nat.lt_or_ge n s.outcomes.length with hlt | hge
    · rw [Session.finish, List.getElem?_append_left hlt] at ho'
      exact h.settled n r o' hr ho'
    · have hn : n = s.outcomes.length := by
        obtain ⟨hlt, -⟩ := List.getElem?_eq_some_iff.mp ho'
        rw [Session.finish, List.length_append, List.length_singleton] at hlt
        omega
      subst hn
      rw [Session.finish, List.getElem?_concat_length] at ho'
      cases ho'
      exact ho r hr
  · obtain ⟨n, r, o', hr, ho', hrest⟩ := h.pending id f hf
    refine ⟨n, r, o', hr, ?_, hrest⟩
    obtain ⟨hlt, -⟩ := List.getElem?_eq_some_iff.mp ho'
    rw [Session.finish, List.getElem?_append_left hlt, ho']

/-- The call ends without a frame. -/
theorem Sound.lose (h : Sound handlers s) (hwait : s.waiting.isSome) {o : Outcome} (ho : o.Lost) :
    Sound handlers (s.finish o) where
  toOk := h.toOk.finish hwait o
  whole := h.whole
  parsed := by simp [Session.finish]
  account := fun hdistinct => (h.account hdistinct).finish fun _ _ => Or.inl ho
  untaken := fun _ => by simp [Untaken, Session.finish]

/-- The server has closed its side. -/
theorem Sound.end (h : Sound handlers s) : Sound handlers { s with ended := true } :=
  { h with
    account := fun hdistinct => ⟨(h.account hdistinct).settled, (h.account hdistinct).pending⟩
    untaken := h.untaken }

/-- The client has taken frames off its buffer. -/
theorem Ok.poll (h : Ok handlers s) {expect : ℕ} {todo done : List Frame}
    {out : Option Frame × PyClient} (htodo : s.replies handlers = s.client.taken ++ todo)
    (hout : s.client.Polled expect todo done out) :
    Ok handlers { s with client := out.2 } := by
  refine { h with buffered := ?_, order := ?_ }
  · rw [hout.taken, PyClient.frameStream_append, List.append_assoc, hout.rest, h.buffered]
  · have hprefix : s.client.taken ++ done <+: s.client.taken ++ todo :=
      (List.prefix_append_right_inj _).mpr hout.prefixed
    rw [hout.taken]
    exact htodo ▸ hprefix

/-- What is taken and does not belong to the call that waits answers a call that was lost. -/
theorem Account.poll (h : Account handlers s) (hok : Ok handlers s) (hdistinct : s.Distinct)
    {expect : ℕ} (hwait : s.waiting = some expect) {todo done : List Frame}
    {out : Option Frame × PyClient} (htodo : s.replies handlers = s.client.taken ++ todo)
    (hout : s.client.Polled expect todo done out) :
    Account handlers { s with client := out.2 } := by
  refine ⟨fun n r o hr ho => ?_, fun id f hf => ?_⟩
  · refine (h.settled n r o hr ho).imp_right fun hgot => ⟨hgot.1, ?_⟩
    rw [hout.taken]
    exact List.mem_append_left _ hgot.2
  rcases hout.pending id f hf with hold | ⟨hmem, hid, hne⟩
  · exact h.pending id f hold
  have hreply : f ∈ s.replies handlers :=
    htodo ▸ List.mem_append_right _ (hout.prefixed.subset hmem)
  obtain ⟨n, r, hr, rfl⟩ := hok.reply_answer hreply
  rw [requestId_answer] at hid
  obtain ⟨r', hr', hexpect, hlength⟩ := hok.waiting_call hwait
  have hlt : n < s.outcomes.length := by
    obtain ⟨hn, -⟩ := List.getElem?_eq_some_iff.mp hr
    have hother : n ≠ s.outcomes.length := by
      rintro rfl
      cases hr.symm.trans hr'
      exact hne (hid.symm.trans hexpect)
    omega
  have ho : s.outcomes[n]? = some s.outcomes[n] := List.getElem?_eq_getElem hlt
  refine ⟨n, r, _, hr, ho, ?_, hid, rfl⟩
  -- a call that got its frame has taken the only one with its id
  refine (h.settled n r _ hr ho).resolve_right fun hsettled => ?_
  have hnodup := hok.replies_nodup hdistinct
  rw [htodo, List.map_append, List.nodup_append] at hnodup
  exact hnodup.2.2 _ (List.mem_map_of_mem hsettled.2) _
    (List.mem_map_of_mem (hout.prefixed.subset hmem)) rfl

/-- The call goes on with what has arrived. -/
theorem Ok.resume (h : Ok handlers s) (hwhole : s.torn = false)
    (hshort : ShortResults handlers) {expect : ℕ} (hwait : s.waiting = some expect)
    (haccount : s.Distinct → Account handlers s) (huntaken : s.Distinct → s.Untaken) :
    Sound handlers (s.resume (s.client.poll expect)) := by
  obtain ⟨todo, done, htodo, hout⟩ := h.polled hshort expect
  have hpoll := h.poll htodo hout
  have hpolled (hdistinct : s.Distinct) :=
    (haccount hdistinct).poll h hdistinct hwait htodo hout
  unfold Session.resume
  cases hfound : (s.client.poll expect).1 with
  | none =>
      obtain ⟨hmissing, hparsed⟩ := hout.missing hfound
      refine
        { hpoll with
          whole := hwhole, parsed := fun _ => hparsed, account := hpolled
          untaken := fun hdistinct => ?_ }
      intro id hid f hf
      cases hwait.symm.trans hid
      rcases List.mem_append.mp (hout.taken ▸ hf) with hold | hnew
      · exact huntaken hdistinct expect hwait f hold
      · exact hmissing f hnew
  | some f =>
      obtain ⟨hmem, hid⟩ := hout.found f hfound
      have hreply : f ∈ s.replies handlers :=
        htodo ▸ List.mem_append_right _ (hout.prefixed.subset hmem)
      refine
        { hpoll.finish (by simp [hwait]) f.outcome with
          whole := hwhole
          parsed := by simp [Session.finish]
          account := fun hdistinct => (hpolled hdistinct).finish fun r hr => Or.inr ?_
          untaken := fun _ => by simp [Untaken, Session.finish] }
      obtain ⟨n, r', hr', rfl⟩ := h.reply_answer hreply
      obtain ⟨r'', hr'', hexpect, -⟩ := h.waiting_call hwait
      rw [requestId_answer, ← hexpect] at hid
      have hn := Distinct.index hdistinct hr' hr'' hid
      subst hn
      cases hr.symm.trans hr'
      refine ⟨rfl, ?_⟩
      rw [hout.taken]
      exact List.mem_append_right _ hmem

/-- The server goes on. -/
theorem Sound.server_step (h : Sound handlers s) (hshort : ShortResults handlers) {a : Server.Act}
    {server : Server} (hstep : s.server.step handlers a = some server)
    (hreach : stream server.chunks <+: toChars s.sent) :
    Sound handlers { s with server := server } := by
  obtain ⟨⟨more, hmore⟩, -⟩ := Server.step_prefix hstep
  have hserver := h.server.step hstep
  have hwire : s.wire <+: server.written.flatten.map u8 := by
    rw [h.wire_eq hshort, hserver.written_replies hshort (h.sent ▸ hreach), ← hmore,
      List.map_append, PyClient.frameStream_append]
    exact List.prefix_append _ _
  refine { h with
    server := hserver
    reached := hreach
    arrived := h.arrived.trans hwire
    order := ?_
    account := fun hdistinct =>
      ⟨(h.account hdistinct).settled, (h.account hdistinct).pending⟩
    untaken := h.untaken }
  refine h.order.trans ?_
  rw [replies, replies, ← hmore, List.map_append]
  exact List.prefix_append _ _

/-- A piece of the answers has arrived. -/
theorem Sound.arrive (h : Sound handlers s) {chunk : List UInt8}
    (hchunk : s.received ++ chunk <+: s.wire) : Ok handlers (s.arrive chunk) ∧
      (s.Distinct → Account handlers (s.arrive chunk)) ∧
      (s.Distinct → (s.arrive chunk).Untaken) := by
  refine ⟨{ h.toOk with arrived := hchunk, buffered := ?_ }, fun hdistinct => ?_, h.untaken⟩
  · simp only [Session.arrive, ← List.append_assoc, h.buffered]
  · exact ⟨(h.account hdistinct).settled, (h.account hdistinct).pending⟩

theorem Ok.requests_length (h : Ok handlers s) (hwait : s.waiting = none) :
    s.requests.length = s.outcomes.length := by
  simpa [hwait] using h.calls

theorem Distinct.of_send {r : Request} {counter : ℕ} (h : (s.send r counter).Distinct) :
    s.Distinct := by
  unfold Distinct Session.send at h
  rw [List.map_append, List.nodup_append] at h
  exact h.1

/-- The id of a new call is new. -/
theorem Distinct.send_ne {r : Request} {counter : ℕ} (h : (s.send r counter).Distinct) {n : ℕ}
    {r' : Request} (hr' : s.requests[n]? = some r') : r'.requestId.toNat ≠ r.requestId.toNat := by
  intro hid
  obtain ⟨hlt, -⟩ := List.getElem?_eq_some_iff.mp hr'
  have hold : (s.send r counter).requests[n]? = some r' := by
    rw [Session.send, List.getElem?_append_left hlt, hr']
  have hnew : (s.send r counter).requests[s.requests.length]? = some r := by
    rw [Session.send, List.getElem?_concat_length]
  have hn := h.index hold hnew hid
  omega

/-- A request has gone out. -/
theorem Sound.send (h : Sound handlers s) (hwait : s.waiting = none) (r : Request) (counter : ℕ) :
    Ok handlers (s.send r counter) ∧
      ((s.send r counter).Distinct → Account handlers (s.send r counter)) ∧
      ((s.send r counter).Distinct → (s.send r counter).Untaken) := by
  have hlength := h.requests_length hwait
  have hgrow : ∀ n, n < s.outcomes.length →
      (s.send r counter).requests[n]? = s.requests[n]? := by
    intro n hn
    rw [Session.send, List.getElem?_append_left (by omega)]
  refine ⟨{ h.toOk with sent := ?_, reached := ?_, calls := ?_, expects := ?_ }, ?_, ?_⟩
  · simp [Session.send, h.sent, frames]
  · refine h.reached.trans ?_
    simp [Session.send]
  · simp [Session.send, hlength]
  · intro expect hexpect
    cases hexpect
    refine ⟨r, ?_, rfl⟩
    rw [Session.send, ← hlength, List.getElem?_concat_length]
  · intro hdistinct
    have haccount := h.account hdistinct.of_send
    refine ⟨fun n r' o hr' ho => ?_, fun id f hf => ?_⟩
    · obtain ⟨hlt, -⟩ := List.getElem?_eq_some_iff.mp ho
      rw [hgrow n hlt] at hr'
      exact haccount.settled n r' o hr' ho
    · obtain ⟨n, r', o, hr', ho, hrest⟩ := haccount.pending id f hf
      obtain ⟨hlt, -⟩ := List.getElem?_eq_some_iff.mp ho
      exact ⟨n, r', o, (hgrow n hlt).trans hr', ho, hrest⟩
  · intro hdistinct expect hexpect f hf hid
    cases hexpect
    obtain ⟨n, r', hr', rfl⟩ := h.reply_answer (h.order.subset hf)
    rw [requestId_answer] at hid
    exact hdistinct.send_ne hr' hid

/-- `_recv_frame` finds the frame in `_pending`, which happens only if an id is used again. -/
theorem Sound.resume_pending (h : Sound handlers s) (hwait : s.waiting = none) {r : Request}
    {counter : ℕ} {f : Frame} (hf : s.client.pending r.requestId.toNat = some f)
    (pending : ℕ → Option Frame) : Sound handlers
      ((s.send r counter).resume
        (some f, { (s.send r counter).client with pending := pending })) := by
  obtain ⟨hok, -, -⟩ := h.send hwait r counter
  have hnever (hdistinct : (s.send r counter).Distinct) : False := by
    obtain ⟨n, r', o, hr', -, -, hid, -⟩ := (h.account hdistinct.of_send).pending _ f hf
    exact hdistinct.send_ne hr' hid
  have hpending : Ok handlers
      { s.send r counter with
        client := { (s.send r counter).client with pending := pending } } := { hok with }
  exact
    { hpending.finish rfl f.outcome with
      whole := h.whole
      parsed := by simp [Session.resume, Session.finish]
      account := fun hdistinct => (hnever hdistinct).elim
      untaken := fun hdistinct => (hnever hdistinct).elim }

/-- A call that sends nothing has only drawn its id. -/
theorem Sound.draw (h : Sound handlers s) (counter : ℕ) :
    Sound handlers { s with client := { s.client with counter := counter } } :=
  { h with
    account := fun hdistinct => ⟨(h.account hdistinct).settled, (h.account hdistinct).pending⟩
    untaken := h.untaken }

theorem Sound.step (h : Sound handlers s) (hshort : ShortResults handlers) {a : Act}
    (hstep : s.step handlers a = some s') (hwhole : s'.torn = false) : Sound handlers s' := by
  cases a with
  | call requestId serviceName funcName params =>
      obtain ⟨hwait, hs'⟩ := Option.ite_none_left_eq_some.mp hstep
      rw [Option.not_isSome_iff_eq_none] at hwait
      simp only at hs'
      split at hs'
      · cases hs'
        exact h.draw _
      · rename_i r hr
        cases hs'
        obtain ⟨hok, haccount, huntaken⟩ := h.send hwait r _
        simp only [PyClient.recvFrame]
        cases hpending : s.client.pending r.requestId.toNat with
        | some f =>
            have hsend : (s.send r (drawId s.client.counter requestId).2).client.pending
                r.requestId.toNat = some f := hpending
            rw [hsend]
            exact h.resume_pending hwait hpending _
        | none =>
            have hsend : (s.send r (drawId s.client.counter requestId).2).client.pending
                r.requestId.toNat = none := hpending
            rw [hsend]
            exact hok.resume h.whole hshort rfl haccount huntaken
  | sendFails requestId serviceName funcName params sent =>
      obtain ⟨-, hs'⟩ := Option.ite_none_left_eq_some.mp hstep
      obtain ⟨r, -, hs'⟩ := Option.bind_eq_some_iff.mp hs'
      obtain ⟨-, hs'⟩ := Option.ite_none_right_eq_some.mp hs'
      cases hs'
      -- nothing of the request has gone out
      obtain ⟨-, hnone⟩ : s.torn = false ∧ sent = 0 := by
        simpa [Session.sendPart] using hwhole
      have hdrawn := h.draw (drawId s.client.counter requestId).2
      simpa [Session.sendPart, hnone] using hdrawn
  | recv chunk =>
      simp only [Session.step] at hstep
      split at hstep
      · cases hstep
      · rename_i expect hwait
        obtain ⟨⟨-, -, -, hchunk⟩, hs'⟩ := Option.ite_none_right_eq_some.mp hstep
        cases hs'
        obtain ⟨hok, haccount, huntaken⟩ := h.arrive hchunk
        exact hok.resume h.whole hshort hwait haccount huntaken
  | timeout =>
      obtain ⟨⟨hwait, -⟩, hs'⟩ := Option.ite_none_right_eq_some.mp hstep
      cases hs'
      exact h.lose hwait (Or.inl rfl)
  | closed =>
      obtain ⟨hwait, hs'⟩ := Option.ite_none_right_eq_some.mp hstep
      cases hs'
      exact h.end.lose hwait (Or.inr rfl)
  | server a =>
      obtain ⟨server, hserver, hs'⟩ := Option.bind_eq_some_iff.mp hstep
      obtain ⟨hreach, hs'⟩ := Option.ite_none_right_eq_some.mp hs'
      cases hs'
      exact h.server_step hshort hserver hreach

theorem torn_resume (out : Option Frame × PyClient) : (s.resume out).torn = s.torn := by
  unfold Session.resume
  split <;> rfl

/-- A stream that is torn is never mended. -/
theorem torn_step {a : Act} (hstep : s.step handlers a = some s') (hwhole : s'.torn = false) :
    s.torn = false := by
  cases a with
  | call requestId serviceName funcName params =>
      obtain ⟨-, hs'⟩ := Option.ite_none_left_eq_some.mp hstep
      simp only at hs'
      split at hs' <;> cases hs'
      · exact hwhole
      · rw [torn_resume] at hwhole
        exact hwhole
  | sendFails requestId serviceName funcName params sent =>
      obtain ⟨-, hs'⟩ := Option.ite_none_left_eq_some.mp hstep
      obtain ⟨r, -, hs'⟩ := Option.bind_eq_some_iff.mp hs'
      obtain ⟨-, hs'⟩ := Option.ite_none_right_eq_some.mp hs'
      cases hs'
      exact (Bool.or_eq_false_iff.mp hwhole).1
  | recv chunk =>
      simp only [Session.step] at hstep
      split at hstep
      · cases hstep
      · obtain ⟨-, hs'⟩ := Option.ite_none_right_eq_some.mp hstep
        cases hs'
        rw [torn_resume] at hwhole
        exact hwhole
  | timeout | closed =>
      obtain ⟨-, hs'⟩ := Option.ite_none_right_eq_some.mp hstep
      cases hs'
      exact hwhole
  | server a =>
      obtain ⟨server, -, hs'⟩ := Option.bind_eq_some_iff.mp hstep
      obtain ⟨-, hs'⟩ := Option.ite_none_right_eq_some.mp hs'
      cases hs'
      exact hwhole

theorem Sound.of_run (h : Sound handlers s) (hshort : ShortResults handlers) {acts : List Act}
    (hrun : run (Session.step handlers) s acts = some s') (hwhole : s'.torn = false) :
    Sound handlers s' :=
  run_invariant (I := fun s => s.torn = false → Sound handlers s)
    (fun _ _ _ hs hstep hwhole => (hs (torn_step hstep hwhole)).step hshort hstep hwhole)
    (fun _ => h) hrun hwhole

theorem sound_of_reachable (hshort : ShortResults handlers)
    (h : Reachable (step handlers) {} s) (hwhole : s.torn = false) : Sound handlers s := by
  obtain ⟨acts, hrun⟩ := h
  exact sound_initial.of_run hshort hrun hwhole

end Steps

section Progress

variable {handlers : Handlers} {s s' : Session}

theorem prefix_stream {chunks chunks' : List Chunk} (h : chunks <+: chunks') :
    stream chunks <+: stream chunks' := by
  obtain ⟨more, rfl⟩ := h
  rw [stream, stream, List.map_append, List.flatten_append]
  exact List.prefix_append _ _

theorem run_chunks {server server' : Server} {acts : List Server.Act}
    (hrun : run (Server.step handlers) server acts = some server') :
    server.chunks <+: server'.chunks :=
  run_invariant (I := fun t => server.chunks <+: t.chunks)
    (fun _ _ _ hprefix hstep => hprefix.trans (Server.step_prefix hstep).2)
    (List.prefix_refl _) hrun

/-- A run of the server is one of the session, if it receives only what was sent. -/
theorem run_server {server : Server} {acts : List Server.Act}
    (hrun : run (Server.step handlers) s.server acts = some server)
    (hreach : stream server.chunks <+: toChars s.sent) :
    run (step handlers) s (acts.map .server) = some { s with server := server } := by
  induction acts generalizing s with
  | nil =>
      cases hrun
      rfl
  | cons a acts ih =>
      obtain ⟨next, hnext, hrest⟩ := Option.bind_eq_some_iff.mp hrun
      have hstep : s.step handlers (.server a) = some { s with server := next } := by
        simp only [Session.step, hnext, Option.bind_some]
        exact if_pos ((prefix_stream (run_chunks hrest)).trans hreach)
      rw [List.map_cons, run_cons hstep]
      exact ih hrest hreach

/-- The server can receive all that was sent and answer it. -/
theorem Ok.serve (h : Ok handlers s) : ∃ acts server,
    run (Server.step handlers) s.server acts = some server ∧ server.Quiescent ∧
      stream server.chunks = toChars s.sent := by
  obtain ⟨acts₁, server₁, hrun₁, hchunks₁, hquiet₁⟩ := h.server.run_quiescent
  obtain ⟨rest, hrest⟩ := h.reached
  rw [← hchunks₁] at hrest
  by_cases hne : rest = []
  · rw [hne, List.append_nil] at hrest
    exact ⟨acts₁, server₁, hrun₁, hquiet₁, hrest⟩
  · have hok₁ : server₁.Ok handlers :=
      run_invariant (fun _ _ _ hok hstep => hok.step hstep) h.server hrun₁
    have hreceive : server₁.step handlers (.receive (Chunk.exact rest hne)) =
        some (server₁.receive (Chunk.exact rest hne)) := if_pos hquiet₁.parsed
    obtain ⟨acts₂, server₂, hrun₂, hchunks₂, hquiet₂⟩ := (hok₁.step hreceive).run_quiescent
    refine ⟨acts₁ ++ _ :: acts₂, server₂, run_trans hrun₁ ((run_cons hreceive).trans hrun₂),
      hquiet₂, ?_⟩
    rw [hchunks₂, ← hrest]
    simp [Server.receive, stream]

/-- A server that rests has answered every request. -/
theorem Ok.answer_mem (h : Ok handlers s) (hquiet : s.server.Quiescent)
    (hstream : stream s.server.chunks = toChars s.sent) {n : ℕ} {r : Request}
    (hr : s.requests[n]? = some r) : answer handlers n r ∈ s.replies handlers := by
  have hcontexts := h.server.contexts
  rw [hquiet.parsed, List.append_nil, (readAll_frames _ _ (h.sent ▸ hstream)).1] at hcontexts
  have hidle : s.server.pool.threads.flatMap ThreadPool.Loop.unexecuted = [] := by
    rw [List.flatMap_eq_nil_iff]
    intro loop hloop
    rw [hquiet.threads loop hloop]
    rfl
  have hperm := h.server.pushed_perm
  rw [hidle, hquiet.queue, List.append_nil, List.append_nil] at hperm
  have hmem : (⟨n, r.completed⟩ : Message) ∈ s.server.pool.pushed := by
    rw [← h.server.messages_pushed, hcontexts, Server.messages]
    refine List.mem_map.mpr ⟨(r.completed, n), ?_, rfl⟩
    rw [List.mem_zipIdx_iff_getElem?, List.getElem?_map, hr]
    rfl
  exact List.mem_map.mpr ⟨_, hperm.subset hmem, reply_completed n r⟩

/-- When everything has arrived, the frame of the call that waits has been taken. -/
theorem Sound.received_lt (h : Sound handlers s) (hshort : ShortResults handlers)
    (hdistinct : s.Distinct) {expect : ℕ} (hwait : s.waiting = some expect) {f : Frame}
    (hf : f ∈ s.replies handlers) (hid : f.requestId = expect) : s.received ≠ s.wire := by
  intro hall
  obtain ⟨todo, htodo⟩ := h.order
  have hbuf : s.client.buf = frameStream todo := by
    rw [← h.buffered, h.wire_eq hshort, ← htodo, PyClient.frameStream_append,
      List.append_cancel_left_eq] at hall
    exact hall
  cases todo with
  | nil =>
      rw [List.append_nil] at htodo
      exact h.untaken hdistinct expect hwait f (htodo ▸ hf) hid
  | cons g todo =>
      have hparsed := h.parsed (by simp [hwait])
      have hformed : g.WellFormed := by
        have hmem : g ∈ s.replies handlers := htodo ▸ List.mem_append_right _ List.mem_cons_self
        obtain ⟨m, -, rfl⟩ := List.mem_map.mp hmem
        exact reply_wellFormed hshort m
      rw [hbuf, PyClient.frameStream_cons, tryParseFrame_bytes hformed] at hparsed
      cases hparsed

/-- The call that waits gets its frame when the bytes of the server arrive. -/
theorem Sound.recv_all (h : Sound handlers s) (hshort : ShortResults handlers)
    (hdistinct : s.Distinct) (hended : s.ended = false) {expect : ℕ}
    (hwait : s.waiting = some expect) {f : Frame} (hf : f ∈ s.replies handlers)
    (hid : f.requestId = expect) :
    ∃ acts s' g, run (Session.step handlers) s acts = some s' ∧ s'.torn = false ∧
      s'.requests = s.requests ∧ s'.outcomes = s.outcomes ++ [Frame.outcome g] ∧
      s'.waiting = none := by
  induction hleft : s.wire.length - s.received.length using Nat.strongRecOn generalizing s with
  | ind left ih =>
      obtain ⟨rest, hrest⟩ := h.arrived
      cases rest with
      | nil =>
          rw [List.append_nil] at hrest
          exact absurd hrest (h.received_lt hshort hdistinct hwait hf hid)
      | cons b rest =>
          have hchunk : s.received ++ [b] <+: s.wire := ⟨rest, by rw [← hrest]; simp⟩
          have hstep : s.step handlers (.recv [b]) =
              some ((s.arrive [b]).resume ((s.arrive [b]).client.poll expect)) := by
            simp only [Session.step, hwait]
            exact if_pos ⟨hended, by simp, by simp [recvSize], hchunk⟩
          have hsound := h.step hshort hstep ((torn_resume _).trans h.whole)
          cases hfound : ((s.arrive [b]).client.poll expect).1 with
          | some g =>
              rw [resume_some hfound] at hstep
              exact ⟨[.recv [b]], _, g, run_cons hstep, h.whole, rfl, rfl, rfl⟩
          | none =>
              rw [resume_none hfound] at hstep hsound
              have hlength : s.wire.length = s.received.length + (rest.length + 1) := by
                rw [← hrest, List.length_append, List.length_cons]
              obtain ⟨acts, s', g, hrun, hs'⟩ := ih _ (by
                rw [← hleft]
                simp only [Session.arrive, Session.wire, List.length_append, List.length_singleton]
                  at hlength ⊢
                omega) hsound hdistinct hended hwait hf rfl
              exact ⟨_ :: acts, s', g, (run_cons hstep).trans hrun, hs'⟩

/-- The call that waits can end with the answer to its request. -/
theorem Sound.exists_outcome (h : Sound handlers s) (hshort : ShortResults handlers)
    (hdistinct : s.Distinct) (hended : s.ended = false) {r : Request} (hwait : s.waiting.isSome)
    (hr : s.requests[s.outcomes.length]? = some r) :
    ∃ acts s', run (Session.step handlers) s acts = some s' ∧ s'.torn = false ∧
      s'.requests = s.requests ∧ s'.waiting = none ∧
      s'.outcomes = s.outcomes ++ [(answer handlers s.outcomes.length r).outcome] := by
  obtain ⟨expect, hexpect⟩ := Option.isSome_iff_exists.mp hwait
  obtain ⟨r', hr', hid, -⟩ := h.waiting_call hexpect
  cases hr.symm.trans hr'
  obtain ⟨acts, server, hrun, hquiet, hstream⟩ := h.serve
  have hserved := run_server hrun (hstream ▸ List.prefix_refl _)
  have hsound₁ : Sound handlers { s with server := server } :=
    h.of_run hshort hserved h.whole
  have hmem := hsound₁.answer_mem hquiet hstream hr
  obtain ⟨acts', s', g, hrun', hwhole, hrequests, houtcomes, hdone⟩ :=
    hsound₁.recv_all hshort hdistinct hended hexpect hmem ((requestId_answer _ _).trans hid)
  refine ⟨_, s', run_trans hserved hrun', hwhole, hrequests, hdone, ?_⟩
  have hsound' : Sound handlers s' := hsound₁.of_run hshort hrun' hwhole
  have hdistinct' : s'.Distinct := by
    rw [Distinct, hrequests]
    exact hdistinct
  have ho : s'.outcomes[s.outcomes.length]? = some g.outcome := by
    rw [houtcomes, List.getElem?_concat_length]
  rcases (hsound'.account hdistinct').settled _ r _ (by rw [hrequests]; exact hr) ho with
    hlost | ⟨houtcome, -⟩
  · exact absurd hlost g.not_lost_outcome
  · rw [houtcomes, houtcome]

/-- Behind the end of the stream a call that waits ends with its end. -/
theorem step_ended (hended : s.ended = true) (hwait : s.waiting.isSome) {a : Act}
    (hstep : s.step handlers a = some s') :
    s'.waiting = s.waiting ∨ s'.outcomes = s.outcomes ++ [.connectionError] := by
  cases a with
  | call | sendFails => exact absurd hwait (Option.ite_none_left_eq_some.mp hstep).1
  | recv chunk =>
      simp only [Session.step] at hstep
      split at hstep
      · cases hstep
      · rw [(Option.ite_none_right_eq_some.mp hstep).1.1] at hended
        cases hended
  | timeout =>
      rw [(Option.ite_none_right_eq_some.mp hstep).1.2] at hended
      cases hended
  | closed =>
      obtain ⟨-, hs'⟩ := Option.ite_none_right_eq_some.mp hstep
      cases hs'
      exact Or.inr rfl
  | server a =>
      obtain ⟨server, -, hs'⟩ := Option.bind_eq_some_iff.mp hstep
      obtain ⟨-, hs'⟩ := Option.ite_none_right_eq_some.mp hs'
      cases hs'
      exact Or.inl rfl

end Progress

section Counted

variable {handlers : Handlers} {s s' : Session}

theorem nextRequestId_small {counter : ℕ} (hpos : 0 < counter) (hlt : counter < 2 ^ 64) :
    nextRequestId counter = (counter, counter + 1) := by
  have hmod : counter % 2 ^ 64 = counter := Nat.mod_eq_of_lt hlt
  rw [nextRequestId, hmod, if_neg hpos.ne']

theorem nextRequestId_lt (counter : ℕ) : counter < (nextRequestId counter).2 := by
  induction counter using nextRequestId.induct with
  | case1 counter hzero ih =>
      rw [nextRequestId, if_pos hzero]
      omega
  | case2 counter hne =>
      rw [nextRequestId, if_neg hne]
      exact Nat.lt_succ_self _

/-- The caller gives no id. -/
def Act.Counted : Act → Prop
  | .call requestId _ _ _ | .sendFails requestId _ _ _ _ => requestId = none
  | _ => True

/-- The ids are drawn one after the other, as long as the counter is below `2 ^ 64`. -/
structure Drawn (s : Session) : Prop where
  pos : 0 < s.client.counter
  below : s.client.counter ≤ 2 ^ 64 → ∀ r ∈ s.requests, r.requestId.toNat < s.client.counter
  ascending : s.client.counter ≤ 2 ^ 64 →
    (s.requests.map (·.requestId.toNat)).Pairwise (· < ·)

/-- A step that sends nothing and draws nothing. -/
theorem Drawn.of_eq (h : Drawn s) (hcounter : s'.client.counter = s.client.counter)
    (hrequests : s'.requests = s.requests) : Drawn s' := by
  obtain ⟨hpos, hbelow, hascending⟩ := h
  exact ⟨hcounter ▸ hpos, by rw [hcounter, hrequests]; exact hbelow,
    by rw [hcounter, hrequests]; exact hascending⟩

theorem counter_poll (expect : ℕ) (c : PyClient) : (c.poll expect).2.counter = c.counter := by
  induction c using PyClient.poll.induct expect with
  | case1 c rest h => rw [PyClient.poll_none h]
  | case2 c f rest h hid =>
      rw [PyClient.poll_some h, if_pos hid]
      rfl
  | case3 c f rest h hid ih =>
      rw [PyClient.poll_some h, if_neg hid, ih]
      rfl

theorem counter_recvFrame (expect : ℕ) (c : PyClient) :
    (c.recvFrame expect).2.counter = c.counter := by
  unfold PyClient.recvFrame
  split
  · rfl
  · exact counter_poll expect c

theorem resume_frame (out : Option Frame × PyClient) :
    (s.resume out).client = out.2 ∧ (s.resume out).requests = s.requests := by
  cases hfound : out.1 with
  | some f =>
      rw [resume_some hfound]
      exact ⟨rfl, rfl⟩
  | none =>
      rw [resume_none hfound]
      exact ⟨rfl, rfl⟩

theorem Drawn.call (h : Drawn s) {r : Request}
    (hid : r.requestId.toNat = (nextRequestId s.client.counter).1) :
    Drawn (s.send r (nextRequestId s.client.counter).2) := by
  have hgrows := nextRequestId_lt s.client.counter
  have hsmall : (nextRequestId s.client.counter).2 ≤ 2 ^ 64 →
      r.requestId.toNat = s.client.counter ∧
        ∀ r' ∈ s.requests, r'.requestId.toNat < s.client.counter := by
    intro hle
    rw [nextRequestId_small h.pos (by omega)] at hid
    exact ⟨hid, h.below (by omega)⟩
  refine ⟨by simp only [Session.send]; omega, fun hle r' hr' => ?_, fun hle => ?_⟩
  · obtain ⟨hlast, hbelow⟩ := hsmall hle
    rcases List.mem_append.mp hr' with hold | hnew
    · exact (hbelow r' hold).trans hgrows
    · rw [List.mem_singleton.mp hnew, hlast]
      exact hgrows
  · obtain ⟨hlast, hbelow⟩ := hsmall hle
    simp only [Session.send, List.map_append, List.map_singleton]
    refine List.pairwise_append.mpr ⟨h.ascending (by simp only [Session.send] at hle; omega),
      List.pairwise_singleton _ _, ?_⟩
    intro id hid' id' hid''
    obtain ⟨r', hr', rfl⟩ := List.mem_map.mp hid'
    rw [List.mem_singleton.mp hid'', hlast]
    exact hbelow r' hr'

/-- An id that is drawn and not used. -/
theorem Drawn.skip (h : Drawn s) : Drawn { s with
    client := { s.client with counter := (nextRequestId s.client.counter).2 } } := by
  have hgrows := nextRequestId_lt s.client.counter
  exact ⟨Nat.zero_lt_of_lt hgrows,
    fun hle r hr => (h.below (hgrows.le.trans hle) r hr).trans hgrows,
    fun hle => h.ascending (hgrows.le.trans hle)⟩

theorem Drawn.step (h : Drawn s) {a : Act} (hcounted : a.Counted)
    (hstep : s.step handlers a = some s') : Drawn s' := by
  cases a with
  | call requestId serviceName funcName params =>
      have hnone : requestId = none := hcounted
      subst hnone
      obtain ⟨-, hs'⟩ := Option.ite_none_left_eq_some.mp hstep
      simp only [drawId] at hs'
      split at hs'
      · cases hs'
        exact h.skip.of_eq rfl rfl
      · rename_i r hr
        cases hs'
        obtain ⟨hclient, hrequests⟩ := resume_frame
          (s := s.send r (nextRequestId s.client.counter).2)
          (((s.send r (nextRequestId s.client.counter).2).client).recvFrame r.requestId.toNat)
        refine (h.call (Request.toNat_of_make? hr)).of_eq ?_ hrequests
        rw [hclient, counter_recvFrame]
  | sendFails requestId serviceName funcName params sent =>
      have hnone : requestId = none := hcounted
      subst hnone
      obtain ⟨-, hs'⟩ := Option.ite_none_left_eq_some.mp hstep
      obtain ⟨r, -, hs'⟩ := Option.bind_eq_some_iff.mp hs'
      obtain ⟨-, hs'⟩ := Option.ite_none_right_eq_some.mp hs'
      cases hs'
      exact h.skip.of_eq rfl rfl
  | recv chunk =>
      simp only [Session.step] at hstep
      split at hstep
      · cases hstep
      · obtain ⟨-, hs'⟩ := Option.ite_none_right_eq_some.mp hstep
        cases hs'
        obtain ⟨hclient, hrequests⟩ := resume_frame (s := s.arrive chunk)
          ((s.arrive chunk).client.poll _)
        refine h.of_eq ?_ hrequests
        rw [hclient, counter_poll]
        rfl
  | timeout | closed =>
      obtain ⟨-, hs'⟩ := Option.ite_none_right_eq_some.mp hstep
      cases hs'
      exact h.of_eq rfl rfl
  | server a =>
      obtain ⟨server, -, hs'⟩ := Option.bind_eq_some_iff.mp hstep
      obtain ⟨-, hs'⟩ := Option.ite_none_right_eq_some.mp hs'
      cases hs'
      exact h.of_eq rfl rfl

/-- The ids that `next_request_id` gives are distinct until the counter has passed `2 ^ 64`. -/
theorem distinct_of_counted {acts : List Act} (hrun : run (step handlers) {} acts = some s)
    (hcounted : ∀ a ∈ acts, a.Counted) (hfew : s.client.counter ≤ 2 ^ 64) : s.Distinct := by
  have hdrawn : Drawn s :=
    run_invariant_of_forall (fun _ _ _ h hcounted hstep => h.step hcounted hstep)
      ⟨Nat.one_pos, by simp, by simp⟩ hcounted hrun
  refine List.Nodup.of_map UInt64.toNat ?_
  rw [List.map_map]
  exact (hdrawn.ascending hfew).imp fun hlt => hlt.ne

end Counted

/-- A call that finds nothing for it sends its request and waits. -/
theorem step_call {handlers : Handlers} {s : Session} {requestId : Option ℕ}
    {serviceName funcName params : List UInt8} {id counter : ℕ} {r : Request}
    (hwait : s.waiting = none) (hdraw : drawId s.client.counter requestId = (id, counter))
    (hr : Request.make? id serviceName funcName params = some r)
    (hpending : s.client.pending r.requestId.toNat = none)
    (hbuf : tryParseFrame s.client.buf = (none, s.client.buf)) :
    s.step handlers (.call requestId serviceName funcName params) = some (s.send r counter) := by
  have hrecv : (s.send r counter).client.recvFrame r.requestId.toNat =
      (none, (s.send r counter).client) := by
    simp only [PyClient.recvFrame, Session.send, hpending]
    exact PyClient.poll_none hbuf
  simp only [Session.step, hwait, Option.isSome_none, Bool.false_eq_true, if_false, hdraw, hr,
    hrecv]
  rfl

end Session

/-- A request without names and params. -/
def emptyRequest (requestId : UInt64) (h : requestId ≠ 0) : Request where
  requestId := requestId
  serviceName := []
  funcName := []
  params := []
  id_ne := h
  service_le := Nat.zero_le _
  func_le := Nat.zero_le _
  params_lt := Nat.two_pow_pos _

end SimpleRedis.Rpc
