import SimpleRedis.ReadWindow

/-!
# The account of the received bytes

A read callback is shown the front of a buffer and takes as much of it as it likes. An
account goes beside each connection: what its reads have given, from its creation on, and
how much of that is consumed. The valid part of the buffer is the rest of the account, and
behind it are zeros, so that a callback which looks at the whole buffer sees no old byte.
-/
namespace SimpleRedis.Net

open TransitionRun Connection

variable {F : Type*}

structure ReadAccount where
  received : List CChar
  consumed : ℕ
  consumed_le : consumed ≤ received.length

namespace ReadAccount

/-- The account of a connection that has read nothing. -/
def fresh : ReadAccount := ⟨[], 0, le_rfl⟩

/-- The bytes received and not consumed. -/
def pending (account : ReadAccount) : List CChar := account.received.drop account.consumed

def receive (account : ReadAccount) (chunk : List CChar) : ReadAccount where
  received := account.received ++ chunk
  consumed := account.consumed
  consumed_le := by
    have := account.consumed_le
    rw [List.length_append]
    omega

/-- A count that is larger than the data stands for all of the data. -/
def consume (account : ReadAccount) (count : ℕ) : ReadAccount where
  received := account.received
  consumed := account.consumed + min count account.pending.length
  consumed_le := by
    have := account.consumed_le
    rw [pending, List.length_drop]
    omega

/-- Everything is dropped. -/
def discard (account : ReadAccount) : ReadAccount := ⟨account.received, _, le_rfl⟩

section Lemmas

variable (account : ReadAccount)

@[simp] theorem pending_discard : account.discard.pending = [] := List.drop_length

theorem pending_receive (chunk : List CChar) :
    (account.receive chunk).pending = account.pending ++ chunk :=
  List.drop_append_of_le_length account.consumed_le

theorem pending_consume (count : ℕ) :
    (account.consume count).pending = account.pending.drop count := by
  have hmin : (account.consume count).pending =
      account.pending.drop (min count account.pending.length) := List.drop_drop.symm
  rw [hmin]
  rcases Nat.le_total count account.pending.length with hle | hle
  · rw [Nat.min_eq_left hle]
  · rw [Nat.min_eq_right hle, List.drop_length, List.drop_of_length_le hle]

end Lemmas

end ReadAccount

/-- A loop with the accounts of its descriptors. -/
structure Audit (F : Type*) where
  loop : EventLoopThread F
  accounts : Fd → ReadAccount

namespace Audit

def fresh : Audit F := { loop := .fresh, accounts := fun _ => .fresh }

/-- The account of a step's descriptor behind the step. Without a callback the bytes are
dropped, and an account ends with its connection. -/
def account (h : Audit F) (op : Op F) : ReadAccount :=
  match h.loop.connections op.fd, op with
  | some conn, .handleRead fd (.bytes chunk) consumed =>
      let received := (h.accounts fd).receive chunk
      if conn.readCb.isSome then received.consume consumed else received.discard
  | _, _ =>
      if ((h.loop.exec op).1.connections op.fd).isSome then h.accounts op.fd else .fresh

def step (h : Audit F) (op : Op F) : Option (Audit F) :=
  if h.loop.possible op then
    some { loop := (h.loop.exec op).1
           accounts := Function.update h.accounts op.fd (h.account op) }
  else none

end Audit

/-- What a callback is shown: the rest of the account, inside the buffer, then zeros. -/
structure WindowExact (account : ReadAccount) (buffer : List CChar) (size : ℕ) : Prop where
  window : buffer.take size = account.pending
  size_le : size ≤ buffer.length
  zeros : buffer.drop size = List.replicate (buffer.length - size) 0

section Receive

variable {fd : Fd} {conn : Connection F} {chunk : List CChar} {consumed : ℕ}

theorem valid_receive_some {f : F} (hcb : conn.readCb = some f)
    (hchunk : chunk.length ≤ conn.readBuffer.free) :
    (conn.receive fd chunk consumed).1.readBuffer.valid =
      (conn.readBuffer.valid ++ chunk).drop consumed := by
  simp only [receive, hcb]
  rw [SimpleBuffer.valid_consume, SimpleBuffer.valid_fill _ hchunk]

theorem valid_receive_none (hcb : conn.readCb = none) :
    (conn.receive fd chunk consumed).1.readBuffer.valid = [] := by
  simp only [receive, hcb]
  exact SimpleBuffer.valid_clear _

/-- The callback is called with the window. -/
theorem receive_windowExact (fd : Fd) (consumed : ℕ) {f : F} (hcb : conn.readCb = some f)
    (hchunk : chunk.length ≤ conn.readBuffer.free) {account : ReadAccount}
    (hvalid : conn.readBuffer.valid = account.pending) :
    ∃ buffer size, (conn.receive fd chunk consumed).2 = [.read fd f buffer size] ∧
      WindowExact (account.receive chunk) buffer size ∧
      buffer.length = conn.readBuffer.size := by
  set filled := conn.readBuffer.fill chunk with hfilled
  refine ⟨filled.buffer, filled.dataSize, ?_, ⟨?_, filled.dataSize_le, filled.zero_fill⟩, ?_⟩
  · simp only [receive, hcb, ← hfilled]
  · have hwindow := SimpleBuffer.valid_fill conn.readBuffer hchunk
    rw [hvalid, ← ReadAccount.pending_receive] at hwindow
    exact hwindow
  · exact SimpleBuffer.size_fill conn.readBuffer chunk

end Receive

namespace Audit

/-- The buffer of a descriptor holds the rest of its account. A descriptor without a
connection counts as one with an empty buffer. -/
structure Accounted (old : Option (Connection F)) (account : ReadAccount) : Prop where
  valid : (inputOf old).1.valid = account.pending
  size : (inputOf old).1.size = defaultBufferSize

/-- The invariant: a plain loop in which every descriptor has its account. -/
structure AllAccounted (h : Audit F) : Prop where
  plain : h.loop.Plain
  accounted : ∀ fd, Accounted (h.loop.connections fd) (h.accounts fd)

theorem accounted_none : Accounted (none : Option (Connection F)) .fresh :=
  ⟨rfl, SimpleBuffer.size_ofSize defaultBufferSize⟩

theorem allAccounted_fresh : AllAccounted (fresh : Audit F) :=
  ⟨EventLoopThread.plain_fresh, fun _ => accounted_none⟩

/-- A step that keeps the buffer keeps the account while the connection lives. -/
theorem Accounted.keep {old new : Option (Connection F)} {account : ReadAccount}
    (h : Accounted old account)
    (hkeep : ∀ conn', new = some conn' → conn'.readBuffer = (inputOf old).1) :
    Accounted new (if new.isSome then account else .fresh) := by
  cases new with
  | none => exact accounted_none
  | some conn' =>
      have hbuffer : (inputOf (some conn')).1 = (inputOf old).1 := hkeep conn' rfl
      rw [if_pos Option.isSome_some]
      exact ⟨hbuffer ▸ h.valid, hbuffer ▸ h.size⟩

theorem Accounted.receive {fd : Fd} {conn : Connection F} {account : ReadAccount}
    {chunk : List CChar} {consumed : ℕ} (h : Accounted (some conn) account)
    (hchunk : chunk.length ≤ conn.readBuffer.free) :
    Accounted (some (conn.receive fd chunk consumed).1)
      (if conn.readCb.isSome then (account.receive chunk).consume consumed
        else (account.receive chunk).discard) := by
  refine ⟨?_, (size_receive fd conn chunk consumed).trans h.size⟩
  show (conn.receive fd chunk consumed).1.readBuffer.valid = _
  cases hcb : conn.readCb with
  | none =>
      rw [valid_receive_none hcb]
      exact (ReadAccount.pending_discard _).symm
  | some f =>
      have hvalid : conn.readBuffer.valid = account.pending := h.valid
      rw [valid_receive_some hcb hchunk, hvalid, ← ReadAccount.pending_receive]
      exact (ReadAccount.pending_consume _ _).symm

/-- Only bytes that are read change a buffer. -/
theorem readBuffer_of_stepConnection {old : Option (Connection F)} {op : Op F}
    (hop : ∀ conn fd chunk consumed, old = some conn →
      op ≠ .handleRead fd (.bytes chunk) consumed) {conn' : Connection F}
    (h : (stepConnection old op).1 = some conn') : conn'.readBuffer = (inputOf old).1 := by
  cases hpeer : op.fromPeer with
  | false => exact congrArg Prod.fst (stepConnection_input hpeer h)
  | true =>
      cases old with
      | none =>
          cases op with
          | handleRead => cases h
          | registerRead | writeOnce | writeBatch | registerHighLevel | registerLowLevel
          | registerClose | handleWrite | close => cases hpeer
      | some conn =>
          cases op with
          | handleRead fd outcome consumed =>
              cases outcome with
              | bytes chunk => exact absurd rfl (hop conn fd chunk consumed rfl)
              | zero =>
                  cases h
                  rfl
              | again | error => cases hpeer
          | registerRead | writeOnce | writeBatch | registerHighLevel | registerLowLevel
          | registerClose | handleWrite | close => cases hpeer

section Step

variable {h h' : Audit F} {op : Op F}

theorem step_eq_some (hstep : h.step op = some h') :
    h.loop.possible op = true ∧ h' =
      { loop := (h.loop.exec op).1
        accounts := Function.update h.accounts op.fd (h.account op) } := by
  unfold step at hstep
  split at hstep
  · rename_i hpossible
    exact ⟨hpossible, (Option.some.inj hstep).symm⟩
  · cases hstep

/-- A step keeps the account of its own descriptor. -/
theorem AllAccounted.own (hinv : AllAccounted h) (hpossible : h.loop.possible op = true) :
    Accounted (stepConnection (h.loop.connections op.fd) op).1 (h.account op) := by
  have hown := hinv.accounted op.fd
  obtain ⟨⟨events, hput⟩, -⟩ := EventLoopThread.exec_refines op (hinv.plain.plainAt op.fd)
  unfold account
  split
  · rename_i conn fd chunk consumed hconn
    simp only [Op.fd] at hconn hown ⊢
    rw [hconn] at hown ⊢
    exact hown.receive ((EventLoopThread.possible_bytes_iff hconn).mp hpossible).2
  · rename_i hother
    rw [hput, EventLoopThread.connections_put]
    exact hown.keep fun conn' => readBuffer_of_stepConnection fun conn fd chunk consumed =>
      hother conn fd chunk consumed

theorem allAccounted_step (hinv : AllAccounted h) (hstep : h.step op = some h') :
    AllAccounted h' := by
  obtain ⟨hpossible, rfl⟩ := step_eq_some hstep
  obtain ⟨⟨events, hput⟩, -⟩ := EventLoopThread.exec_refines op (hinv.plain.plainAt op.fd)
  have hown := hinv.own hpossible
  rw [hput]
  refine ⟨hinv.plain.put _ _ _, fun fd => ?_⟩
  show Accounted _ (Function.update h.accounts op.fd (h.account op) fd)
  by_cases hfd : fd = op.fd
  · subst hfd
    rw [EventLoopThread.connections_put, Function.update_self]
    exact hown
  · rw [EventLoopThread.connections_put_of_ne _ _ _ _ hfd, Function.update_of_ne hfd]
    exact hinv.accounted fd

end Step

/-- In every state that the loop can reach, whatever the sockets have given and the
callbacks have returned before, a read callback is shown exactly the bytes that were
received and not consumed, and its count is what is consumed of them. -/
theorem windowExact_of_reachable {h : Audit F} (hreach : Reachable step fresh h) {fd : Fd}
    {conn : Connection F} (hconn : h.loop.connections fd = some conn) {f : F}
    (hcb : conn.readCb = some f) {chunk : List CChar} (hpos : 0 < chunk.length)
    (hchunk : chunk.length ≤ conn.readBuffer.free) (consumed : ℕ) :
    ∃ h' buffer size, h.step (.handleRead fd (.bytes chunk) consumed) = some h' ∧
      (h.loop.exec (.handleRead fd (.bytes chunk) consumed)).2 = [.read fd f buffer size] ∧
      WindowExact ((h.accounts fd).receive chunk) buffer size ∧
      buffer.length = defaultBufferSize ∧
      h'.accounts fd = ((h.accounts fd).receive chunk).consume consumed := by
  have hinv : AllAccounted h :=
    hreach.invariant (fun _ _ _ hinv => allAccounted_step hinv) allAccounted_fresh
  obtain ⟨hvalid, hsize⟩ := hinv.accounted fd
  rw [hconn] at hvalid hsize
  obtain ⟨buffer, size, heffect, hexact, hlength⟩ :=
    receive_windowExact fd consumed hcb hchunk hvalid
  have hpossible : h.loop.possible (.handleRead fd (.bytes chunk) consumed) = true :=
    (EventLoopThread.possible_bytes_iff hconn).mpr ⟨hpos, hchunk⟩
  refine ⟨_, buffer, size, if_pos hpossible, ?_, hexact, hlength.trans hsize, ?_⟩
  · obtain ⟨-, heffects⟩ := EventLoopThread.exec_refines
      (.handleRead fd (.bytes chunk) consumed) (hinv.plain.plainAt fd)
    rw [heffects, Op.fd, hconn]
    exact heffect
  · simp [account, Op.fd, hconn, hcb]

section SecondRead

open SimpleBuffer

/-- The buffer behind a read of three bytes of which the callback has consumed one. -/
def twoLeft : SimpleBuffer := ((ofSize defaultBufferSize).fill [1, 2, 3]).consume 1

theorem room_ofSize : ([1, 2, 3] : List CChar).length ≤ (ofSize defaultBufferSize).free :=
  le_of_le_of_eq (by decide) (free_ofSize defaultBufferSize).symm

theorem room_twoLeft : ([4, 5] : List CChar).length ≤ twoLeft.free := by
  have hdata : twoLeft.dataSize = 2 := by
    rw [← length_valid, twoLeft, valid_consume, valid_fill _ room_ofSize]
    rfl
  have hsize : twoLeft.size = 4096 := by
    rw [twoLeft, size_consume, size_fill, size_ofSize]
    rfl
  have hfree := free_add_dataSize twoLeft
  rw [hdata, hsize] at hfree
  change 2 ≤ twoLeft.free
  omega

theorem exists_twoLeft :
    ∃ h : Audit Unit, Reachable step fresh h ∧ (h.accounts 3).pending = [2, 3] ∧
      h.loop.connections 3 =
        some { Connection.fresh 0 (some ()) with
          readRegistered := true
          readBuffer := twoLeft } := by
  have hopened : (EventLoopThread.exec .fresh (.registerRead 3 0 (some ()))).1.connections 3 =
      some { Connection.fresh 0 (some ()) with readRegistered := true } := rfl
  have hpossible : EventLoopThread.possible _ (.handleRead 3 (.bytes [1, 2, 3]) 1) = true :=
    (EventLoopThread.possible_bytes_iff hopened).mpr ⟨by decide, room_ofSize⟩
  have hfirst : step (fresh : Audit Unit) (.registerRead 3 0 (some ())) = some _ := rfl
  have hrun : run step (fresh : Audit Unit)
      [.registerRead 3 0 (some ()), .handleRead 3 (.bytes [1, 2, 3]) 1] = some _ :=
    (run_cons hfirst).trans (run_cons (if_pos hpossible))
  exact ⟨_, ⟨_, hrun⟩, rfl, rfl⟩

end SecondRead

/-- Two more bytes are read behind the two that are left. -/
theorem windowExact_of_reachable_second :
    ∃ h h' : Audit Unit, ∃ buffer size, (h.accounts 3).pending = [2, 3] ∧
      h.step (.handleRead 3 (.bytes [4, 5]) 9) = some h' ∧
      (h.loop.exec (.handleRead 3 (.bytes [4, 5]) 9)).2 = [.read 3 () buffer size] ∧
      WindowExact ((h.accounts 3).receive [4, 5]) buffer size ∧
      buffer.length = defaultBufferSize ∧
      h'.accounts 3 = ((h.accounts 3).receive [4, 5]).consume 9 := by
  obtain ⟨h, hreach, hpending, hconn⟩ := exists_twoLeft
  have hroom := room_twoLeft
  generalize twoLeft = left at hconn hroom
  obtain ⟨h', buffer, size, hread⟩ :=
    windowExact_of_reachable hreach hconn rfl (by decide) hroom 9
  exact ⟨h, h', buffer, size, hpending, hread⟩

end Audit

end SimpleRedis.Net
