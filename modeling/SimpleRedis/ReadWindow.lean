import SimpleRedis.ConnectionStep
import SimpleRedis.RedisReader

/-!
# The end of the stream and the room in the read buffer

`handleRead` asks for as many bytes as the buffer has room for and takes an answer
of zero for the end of the stream. With no room left it asks for zero bytes, and
the kernel answers zero whatever the peer does. The buffer has room in every state
if and only if no read callback that is given a full buffer returns zero.
-/
namespace SimpleRedis.Net

open TransitionRun

variable {F : Type*}

/-- What the peer of a socket has done: bytes that are not read yet, and whether it
has closed its write side. -/
structure Peer where
  pending : List CChar := []
  closed : Bool := false

namespace Peer

/-- What `read` answers for a length. More than `limit + 1` bytes have not arrived. -/
def read (peer : Peer) (len limit : ℕ) : ReadOutcome :=
  if len = 0 then .zero
  else if peer.pending = [] then if peer.closed then .zero else .again
  else .bytes (peer.pending.take (min len (limit + 1)))

/-- The bytes of an answer are read only once. -/
def afterRead (peer : Peer) : ReadOutcome → Peer
  | .bytes chunk => { peer with pending := peer.pending.drop chunk.length }
  | _ => peer

theorem closed_afterRead (peer : Peer) (outcome : ReadOutcome) :
    (peer.afterRead outcome).closed = peer.closed := by
  cases outcome <;> rfl

/-- With room for a byte only a closed peer gives zero. -/
theorem read_eq_zero {peer : Peer} {len limit : ℕ} (hlen : 0 < len)
    (h : peer.read len limit = .zero) : peer.closed = true := by
  rw [read, if_neg (Nat.pos_iff_ne_zero.mp hlen)] at h
  split at h
  · split at h
    · assumption
    · cases h
  · cases h

theorem read_of_pending {peer : Peer} {len : ℕ} (limit : ℕ) (hlen : len ≠ 0)
    (h : peer.pending ≠ []) :
    peer.read len limit = .bytes (peer.pending.take (min len (limit + 1))) := by
  rw [read, if_neg hlen, if_neg h]

theorem read_length_le {peer : Peer} {len limit : ℕ} {chunk : List CChar}
    (h : peer.read len limit = .bytes chunk) : chunk.length ≤ len := by
  unfold read at h
  split at h
  · cases h
  · split at h
    · split at h <;> cases h
    · cases h
      rw [List.length_take]
      omega

end Peer

/-- A read that gives bytes or the end of the stream. -/
def Op.fromPeer : Op F → Bool
  | .handleRead _ (.bytes _) _ | .handleRead _ .zero _ => true
  | _ => false

/-- A loop and the peers of its sockets. -/
structure Host (F : Type*) where
  loop : EventLoopThread F
  peers : Fd → Peer

/-- What can happen to a loop and its peers. A descriptor belongs to a new socket
only after its connection is gone, since the connection keeps the old one open. -/
inductive HostAct (F : Type*) where
  | connect (fd : Fd)
  | send (fd : Fd) (bytes : List CChar)
  | shutdown (fd : Fd)
  | task (op : Op F)
  | readable (fd : Fd) (limit consumed : ℕ)

namespace Host

def fresh : Host F := { loop := .fresh, peers := fun _ => {} }

/-- The peer of one descriptor after an update. -/
def setPeer (h : Host F) (fd : Fd) (peer : Peer) : Host F :=
  { h with peers := Function.update h.peers fd peer }

def step (h : Host F) : HostAct F → Option (Host F)
  | .connect fd => if (h.loop.connections fd).isNone then some (h.setPeer fd {}) else none
  | .send fd bytes =>
      if (h.peers fd).closed then none
      else some (h.setPeer fd { h.peers fd with pending := (h.peers fd).pending ++ bytes })
  | .shutdown fd => some (h.setPeer fd { h.peers fd with closed := true })
  | .task op =>
      if h.loop.possible op && !op.fromPeer then some { h with loop := (h.loop.exec op).1 }
      else none
  | .readable fd limit consumed =>
      match h.loop.connections fd with
      | none => some h
      | some conn =>
          let outcome := (h.peers fd).read conn.readBuffer.free limit
          some
            { (h.setPeer fd ((h.peers fd).afterRead outcome)) with
              loop := (h.loop.exec (.handleRead fd outcome consumed)).1 }

end Host

/-- There is room for a byte in every read buffer, and only a peer that has closed
its write side is taken for closed. -/
def EndOfStreamFromPeer (h : Host F) : Prop :=
  ∀ fd conn, h.loop.connections fd = some conn →
    1 ≤ conn.readBuffer.free ∧ (conn.peerClosed = true → (h.peers fd).closed = true)

/-- A read callback that is given a full buffer consumes something. -/
def Drains (h : Host F) : HostAct F → Prop
  | .readable fd limit consumed =>
      ∀ conn chunk, h.loop.connections fd = some conn →
        (h.peers fd).read conn.readBuffer.free limit = .bytes chunk →
        conn.readCb.isSome → chunk.length = conn.readBuffer.free → 0 < consumed
  | _ => True

namespace Connection

/-- The part of a connection that only `handleRead` changes. -/
def input (conn : Connection F) : SimpleBuffer × Bool := (conn.readBuffer, conn.peerClosed)

theorem input_of_readSide {conn conn' : Connection F} (h : conn'.readSide = conn.readSide) :
    conn'.input = conn.input :=
  congrArg (fun side => (side.2.1, side.2.2.2)) h

end Connection

open Connection

/-- The input of a descriptor, where a new connection would start without one. -/
def inputOf (old : Option (Connection F)) : SimpleBuffer × Bool :=
  old.elim (.ofSize defaultBufferSize, false) input

section Step

variable {old : Option (Connection F)} {conn' : Connection F}

theorem inputOf_getD (socket : Socket) : (old.getD (writeOnly socket)).input = inputOf old := by
  cases old <;> rfl

theorem stepWrite_input {fd : Fd} {socket : Socket}
    {enqueue : Connection F → Connection F × List (Effect F)}
    (hkeep : ∀ conn, (enqueue conn).1.input = conn.input)
    (h : (stepWrite fd old socket enqueue).1 = some conn') : conn'.input = inputOf old := by
  cases h
  have hinput := input_of_readSide
    (readSide_checkHighLevel fd (enqueue (old.getD (writeOnly socket))).1)
  rw [hkeep, inputOf_getD] at hinput
  exact hinput

theorem map_input {f : Connection F → Connection F} (h : old.map f = some conn')
    (hkeep : ∀ conn, (f conn).input = conn.input) : conn'.input = inputOf old := by
  obtain ⟨conn, rfl, rfl⟩ := Option.map_eq_some_iff.mp h
  exact hkeep conn

/-- Nothing but an answer of the peer changes the input of a connection. -/
theorem stepConnection_input {op : Op F} (hop : op.fromPeer = false)
    (h : (stepConnection old op).1 = some conn') : conn'.input = inputOf old := by
  cases op with
  | registerRead fd socket callback =>
      cases old <;> cases h <;> rfl
  | writeOnce fd socket callback buf => exact stepWrite_input (fun _ => rfl) h
  | writeBatch fd socket callbacks bufs =>
      exact stepWrite_input
        (fun conn => input_of_readSide (readSide_enqueueBatch fd conn callbacks 0 bufs)) h
  | registerHighLevel fd callback => exact map_input h fun _ => rfl
  | registerLowLevel fd callback => exact map_input h fun _ => rfl
  | registerClose fd callback => exact map_input h fun _ => rfl
  | handleRead fd outcome consumed =>
      cases old with
      | none => cases h
      | some conn =>
          cases outcome with
          | bytes chunk => cases hop
          | zero => cases hop
          | again =>
              cases h
              rfl
          | error => cases h
  | handleWrite fd outcome =>
      cases old with
      | none => cases h
      | some conn =>
          by_cases hiovs : conn.iovs = []
          · simp only [stepConnection, if_pos hiovs] at h
            cases h
            rfl
          · simp only [stepConnection, if_neg hiovs] at h
            cases outcome with
            | accepted n =>
                cases h
                exact input_of_readSide (readSide_checkLowLevel fd (conn.sent n))
            | again =>
                cases h
                rfl
            | error => cases h
  | close fd => cases old <;> cases h

/-- After a read there is room unless the callback has left a full buffer. -/
theorem free_receive_pos_iff (fd : Fd) (consumed : ℕ) {conn : Connection F} {chunk : List CChar}
    (hsize : 0 < conn.readBuffer.size) (hchunk : chunk.length ≤ conn.readBuffer.free) :
    1 ≤ (conn.receive fd chunk consumed).1.readBuffer.free ↔
      (conn.readCb.isSome → chunk.length = conn.readBuffer.free → 0 < consumed) := by
  have hroom := conn.readBuffer.free_add_dataSize
  unfold receive
  cases conn.readCb with
  | none =>
      simp only [SimpleBuffer.free_clear, Option.isSome_none, Bool.false_eq_true, false_implies,
        iff_true]
      exact hsize
  | some f =>
      have hfree : ((conn.readBuffer.fill chunk).consume consumed).free =
          conn.readBuffer.size - (conn.readBuffer.dataSize + chunk.length - consumed) := by
        rw [SimpleBuffer.free, SimpleBuffer.size_consume, SimpleBuffer.size_fill,
          ← SimpleBuffer.length_valid, SimpleBuffer.valid_consume, SimpleBuffer.valid_fill _ hchunk,
          List.length_drop, List.length_append, SimpleBuffer.length_valid]
      simp only [hfree, Option.isSome_some, true_implies]
      omega

theorem size_receive (fd : Fd) (conn : Connection F) (chunk : List CChar) (consumed : ℕ) :
    (conn.receive fd chunk consumed).1.readBuffer.size = conn.readBuffer.size := by
  unfold receive
  cases conn.readCb <;> simp

theorem peerClosed_receive (fd : Fd) (conn : Connection F) (chunk : List CChar) (consumed : ℕ) :
    (conn.receive fd chunk consumed).1.peerClosed = conn.peerClosed := by
  unfold receive
  cases conn.readCb <;> rfl

end Step

namespace Host

/-- The state of one descriptor as it should be. -/
structure Roomy (conn : Connection F) (peer : Peer) : Prop where
  size : conn.readBuffer.size = defaultBufferSize
  free : 1 ≤ conn.readBuffer.free
  closed : conn.peerClosed = true → peer.closed = true

/-- The invariant: a plain loop whose read buffers all have room. -/
structure AllRoomy (h : Host F) : Prop where
  plain : h.loop.Plain
  roomy : ∀ fd conn, h.loop.connections fd = some conn → Roomy conn (h.peers fd)

theorem allRoomy_fresh : AllRoomy (fresh : Host F) :=
  ⟨EventLoopThread.plain_fresh, fun _ _ hconn => nomatch hconn⟩

section Steps

variable {h : Host F} {fd : Fd}

/-- A peer that acts stays closed once it is. -/
theorem AllRoomy.setPeer (hinv : AllRoomy h) {peer : Peer}
    (hclosed : (h.peers fd).closed = true → peer.closed = true) : AllRoomy (h.setPeer fd peer) := by
  refine ⟨hinv.plain, fun fd' conn hconn => ?_⟩
  obtain ⟨hsize, hfree, hpeer⟩ := hinv.roomy fd' conn hconn
  refine ⟨hsize, hfree, fun hc => ?_⟩
  by_cases hfd : fd' = fd
  · subst hfd
    simpa [Host.setPeer] using hclosed (hpeer hc)
  · simpa [Host.setPeer, hfd] using hpeer hc

/-- A step of the loop keeps the invariant if it does at its own descriptor. -/
theorem AllRoomy.exec (hinv : AllRoomy h) (op : Op F)
    (hlocal : ∀ conn', (stepConnection (h.loop.connections op.fd) op).1 = some conn' →
      Roomy conn' (h.peers op.fd)) : AllRoomy { h with loop := (h.loop.exec op).1 } := by
  obtain ⟨⟨events, hput⟩, -⟩ := EventLoopThread.exec_refines op (hinv.plain.plainAt op.fd)
  rw [hput]
  refine ⟨hinv.plain.put _ _ _, fun fd conn hconn => ?_⟩
  by_cases hfd : fd = op.fd
  · subst hfd
    rw [EventLoopThread.connections_put] at hconn
    exact hlocal conn hconn
  · rw [EventLoopThread.connections_put_of_ne _ _ _ _ hfd] at hconn
    exact hinv.roomy fd conn hconn

theorem roomy_inputOf (hinv : AllRoomy h) {conn' : Connection F}
    (hinput : conn'.input = inputOf (h.loop.connections fd)) : Roomy conn' (h.peers fd) := by
  obtain ⟨hbuffer, hpeer⟩ := Prod.mk.inj hinput
  cases hconn : h.loop.connections fd with
  | none =>
      rw [hconn] at hbuffer hpeer
      refine ⟨?_, ?_, fun hc => nomatch hpeer.symm.trans hc⟩
      · rw [hbuffer]
        exact SimpleBuffer.size_ofSize _
      · rw [hbuffer]
        have hpos : 1 ≤ defaultBufferSize := by decide
        exact hpos.trans (SimpleBuffer.free_ofSize defaultBufferSize).ge
  | some conn =>
      rw [hconn] at hbuffer hpeer
      obtain ⟨hsize, hfree, hclosed⟩ := hinv.roomy fd conn hconn
      refine ⟨?_, ?_, ?_⟩
      · rwa [hbuffer]
      · rwa [hbuffer]
      · rwa [hpeer]

theorem roomy_receive {conn : Connection F} {peer : Peer} {chunk : List CChar} {consumed : ℕ}
    (hroomy : Roomy conn peer) (hchunk : chunk.length ≤ conn.readBuffer.free)
    (hdrains : conn.readCb.isSome → chunk.length = conn.readBuffer.free → 0 < consumed) :
    Roomy (conn.receive fd chunk consumed).1 peer := by
  have hsize : 0 < conn.readBuffer.size := by
    rw [hroomy.size]
    decide
  refine ⟨?_, (free_receive_pos_iff fd consumed hsize hchunk).mpr hdrains, ?_⟩
  · rw [size_receive, hroomy.size]
  · rw [peerClosed_receive]
    exact hroomy.closed

/-- A readable socket: the answer is no more than there is room for, and zero only
if the peer has closed. -/
theorem readable_roomy (hinv : AllRoomy h) {conn : Connection F} {limit consumed : ℕ}
    (hconn : h.loop.connections fd = some conn)
    (hdrains : ∀ chunk, (h.peers fd).read conn.readBuffer.free limit = .bytes chunk →
      conn.readCb.isSome → chunk.length = conn.readBuffer.free → 0 < consumed) :
    AllRoomy { h with loop := (h.loop.exec
      (.handleRead fd ((h.peers fd).read conn.readBuffer.free limit) consumed)).1 } := by
  have hroomy := hinv.roomy fd conn hconn
  refine hinv.exec _ fun conn' hstep => ?_
  rw [Op.fd, hconn] at hstep
  rw [Op.fd]
  cases hread : (h.peers fd).read conn.readBuffer.free limit with
  | bytes chunk =>
      rw [hread] at hstep
      cases hstep
      exact roomy_receive hroomy (Peer.read_length_le hread) (hdrains chunk hread)
  | zero =>
      rw [hread] at hstep
      cases hstep
      exact ⟨hroomy.size, hroomy.free, fun _ => Peer.read_eq_zero hroomy.free hread⟩
  | again =>
      rw [hread] at hstep
      cases hstep
      exact hroomy
  | error =>
      rw [hread] at hstep
      cases hstep

theorem allRoomy_step {h' : Host F} {act : HostAct F} (hinv : AllRoomy h) (hdrains : Drains h act)
    (hstep : h.step act = some h') : AllRoomy h' := by
  cases act with
  | connect fd =>
      simp only [step] at hstep
      split at hstep
      · rename_i hnone
        cases hstep
        refine ⟨hinv.plain, fun fd' conn hconn => ?_⟩
        have hfd : fd' ≠ fd := by
          rintro rfl
          rw [show h.loop.connections fd' = some conn from hconn] at hnone
          cases hnone
        simpa [Host.setPeer, hfd] using hinv.roomy fd' conn hconn
      · cases hstep
  | send fd bytes =>
      simp only [step] at hstep
      split at hstep
      · cases hstep
      · cases hstep
        exact hinv.setPeer id
  | shutdown fd =>
      cases hstep
      exact hinv.setPeer fun _ => rfl
  | task op =>
      simp only [step] at hstep
      split at hstep
      · rename_i hop
        cases hstep
        refine hinv.exec op fun conn' hconn' => roomy_inputOf hinv (stepConnection_input ?_ hconn')
        simpa using (Bool.and_eq_true_iff.mp hop).2
      · cases hstep
  | readable fd limit consumed =>
      simp only [step] at hstep
      split at hstep
      · cases hstep
        exact hinv
      · rename_i conn hconn
        cases hstep
        have hread := readable_roomy hinv hconn fun chunk => hdrains conn chunk hconn
        refine hread.setPeer ?_
        rw [Peer.closed_afterRead]
        exact id

theorem AllRoomy.endOfStream (hinv : AllRoomy h) : EndOfStreamFromPeer h := fun fd conn hconn =>
  ⟨(hinv.roomy fd conn hconn).free, (hinv.roomy fd conn hconn).closed⟩

/-- What a readable socket does to its connection and its peer. -/
theorem step_readable (hplain : h.loop.Plain) {conn : Connection F}
    (hconn : h.loop.connections fd = some conn) (limit consumed : ℕ) :
    ∃ h', h.step (.readable fd limit consumed) = some h' ∧ h'.loop.Plain ∧
      h'.loop.connections fd = (stepConnection (some conn)
        (.handleRead fd ((h.peers fd).read conn.readBuffer.free limit) consumed)).1 ∧
      h'.peers fd = (h.peers fd).afterRead ((h.peers fd).read conn.readBuffer.free limit) := by
  obtain ⟨⟨events, hput⟩, -⟩ := EventLoopThread.exec_refines
    (.handleRead fd ((h.peers fd).read conn.readBuffer.free limit) consumed) (hplain.plainAt fd)
  rw [Op.fd, hconn] at hput
  simp only [step, hconn, hput]
  exact ⟨_, rfl, hplain.put _ _ _, EventLoopThread.connections_put _ _ _ _,
    Function.update_self _ _ _⟩

/-- A read callback that leaves a full buffer leaves no room. -/
theorem drains_of_endOfStream {h' : Host F} {act : HostAct F} (hinv : AllRoomy h)
    (hstep : h.step act = some h') (hend : EndOfStreamFromPeer h') : Drains h act := by
  cases act with
  | readable fd limit consumed =>
      intro conn chunk hconn hread
      have hroomy := hinv.roomy fd conn hconn
      have hsize : 0 < conn.readBuffer.size := by
        rw [hroomy.size]
        decide
      obtain ⟨t, ht, -, hconn', -⟩ := step_readable hinv.plain hconn limit consumed
      cases ht.symm.trans hstep
      rw [hread] at hconn'
      have hfree := free_receive_pos_iff fd consumed hsize (Peer.read_length_le hread)
      exact hfree.mp (hend fd _ hconn').1
  | connect | send | shutdown | task => trivial

/-- With a full buffer the next read is taken for the end of the stream, whatever
the peer does. -/
theorem readable_full (hplain : h.loop.Plain) {conn : Connection F}
    (hconn : h.loop.connections fd = some conn) (hfull : conn.readBuffer.free = 0)
    (limit consumed : ℕ) :
    ∃ h' conn', h.step (.readable fd limit consumed) = some h' ∧
      h'.loop.connections fd = some conn' ∧ conn'.peerClosed = true ∧
      h'.peers fd = h.peers fd := by
  obtain ⟨h', hstep, -, hconn', hpeer⟩ := step_readable hplain hconn limit consumed
  have hread : (h.peers fd).read conn.readBuffer.free limit = .zero := by
    rw [Peer.read, if_pos hfull]
  rw [hread] at hconn' hpeer
  exact ⟨h', _, hstep, hconn', rfl, hpeer⟩

/-- In exactly the runs in which no read callback that is given a full buffer returns
zero, every read has room for a byte, and the end of a stream is reported only when
the peer has closed its write side. -/
theorem endOfStreamFromPeer_iff_drains (acts : List (HostAct F)) :
    Always step EndOfStreamFromPeer fresh acts ↔ EachStep step Drains fresh acts :=
  always_iff_eachStep (I := AllRoomy) (fun _ _ _ => allRoomy_step)
    (fun _ => AllRoomy.endOfStream) (fun _ _ _ => drains_of_endOfStream) allRoomy_fresh acts

end Steps

end Host

/-- `ClientImpl::read` returns zero while a reply fills the buffer and goes on. -/
theorem read_of_prefix {P : Type*} {memory : Resp.Memory} (promises : List P)
    {r : Resp.RESPValue} (hwf : r.WellFormed memory)
    {received missing : List CChar} (henc : r.enc = received ++ missing) (hreceived : received ≠ [])
    (hmissing : missing ≠ []) :
    Redis.read memory promises received received.length = some ⟨0, promises, [], false⟩ := by
  have hbuf : received.drop 0 = received ++ List.replicate 0 0 := by simp
  have hcut := Redis.readLoop_cut promises hwf henc hmissing hreceived hbuf
  simpa [Redis.read] using hcut

/-- A simple string that is longer than the buffer. -/
def longReply : Resp.RESPValue := .simpleString (List.replicate 5000 (Resp.ch 'a'))

theorem wellFormed_longReply (memory : Resp.Memory) : longReply.WellFormed memory := by
  intro hinfix
  have hmem := hinfix.subset (List.mem_cons_self : Resp.cr ∈ Resp.crlf)
  exact absurd (List.eq_of_mem_replicate hmem) (by decide)

theorem length_longReply : longReply.enc.length = 5003 := by
  rw [longReply, Resp.RESPValue.enc, List.length_cons, List.length_append, List.length_replicate]
  rfl

theorem length_take_longReply : (longReply.enc.take 4096).length = 4096 := by
  rw [List.length_take, length_longReply]
  rfl

theorem longReply_pending : ([] ++ longReply.enc : List CChar) ≠ [] := by
  rw [List.nil_append, ← List.length_pos_iff, length_longReply]
  decide

/-- The peer sends a reply of 5003 bytes and keeps its side open; the callback
returns zero for the first 4096 of them, as `ClientImpl::read` does. -/
def longReplyRun : List (HostAct Unit) :=
  [.send 3 longReply.enc, .task (.registerRead 3 0 (some ())), .readable 3 4095 0,
    .readable 3 0 0]

theorem run_longReplyRun :
    ∃ h conn, run Host.step Host.fresh longReplyRun = some h ∧
      h.loop.connections 3 = some conn ∧ conn.peerClosed = true ∧ (h.peers 3).closed = false := by
  obtain ⟨h, hregistered, hplain, hconn, hpeer⟩ : ∃ h : Host Unit,
      run Host.step Host.fresh (longReplyRun.take 2) = some h ∧ h.loop.Plain ∧
        h.loop.connections 3 = some (readOnly 0 (some ())) ∧
        h.peers 3 = { pending := [] ++ longReply.enc } :=
    ⟨_, rfl, ⟨fun _ => rfl, fun _ => rfl⟩, rfl, rfl⟩
  have hfree : (readOnly 0 (some ())).readBuffer.free = 4096 := SimpleBuffer.free_ofSize _
  have hread : (h.peers 3).read (readOnly 0 (some ())).readBuffer.free 4095 =
      .bytes (longReply.enc.take 4096) := by
    rw [hfree, hpeer]
    exact Peer.read_of_pending 4095 (by decide) longReply_pending
  obtain ⟨h', hfirst, hplain', hconn', hpeer'⟩ := Host.step_readable hplain hconn 4095 0
  rw [hread] at hconn' hpeer'
  have hfull : (receive 3 (readOnly 0 (some ())) (longReply.enc.take 4096) 0).1.readBuffer.free =
      0 := by
    have hsize : 0 < (readOnly 0 (some ())).readBuffer.size :=
      (SimpleBuffer.size_ofSize 4096).symm ▸ Nat.zero_lt_succ 4095
    have hroom := free_receive_pos_iff 3 0 hsize
      (length_take_longReply.trans hfree.symm).le
    by_contra hne
    exact Nat.lt_irrefl 0
      (hroom.mp (Nat.pos_of_ne_zero hne) rfl (length_take_longReply.trans hfree.symm))
  obtain ⟨h'', conn, hsecond, hconn'', hclosed, hpeer''⟩ :=
    Host.readable_full hplain' hconn' hfull 0 0
  refine ⟨h'', conn, ?_, hconn'', hclosed, ?_⟩
  · rw [← List.take_append_drop 2 longReplyRun, run_append, hregistered]
    exact (run_cons hfirst).trans (run_cons hsecond)
  · rw [hpeer'', hpeer', Peer.closed_afterRead, hpeer]

theorem longReplyRun_reports_end :
    (∀ (memory : Resp.Memory) (promises : List Unit),
      Redis.read memory promises (longReply.enc.take 4096) 4096 =
        some ⟨0, promises, [], false⟩) ∧
    ¬ Always Host.step EndOfStreamFromPeer Host.fresh longReplyRun := by
  constructor
  · intro memory promises
    have hread := read_of_prefix promises (wellFormed_longReply memory)
      (List.take_append_drop 4096 longReply.enc).symm ?_ ?_
    · rwa [length_take_longReply] at hread
    · rw [← List.length_pos_iff, length_take_longReply]
      decide
    · rw [← List.length_pos_iff, List.length_drop, length_longReply]
      decide
  · intro halways
    obtain ⟨h, conn, hrun, hconn, hclosed, hpeer⟩ := run_longReplyRun
    exact absurd ((halways.last hrun 3 conn hconn).2 hclosed) (by rw [hpeer]; decide)

end SimpleRedis.Net
