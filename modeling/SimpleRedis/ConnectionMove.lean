import SimpleRedis.ConnectionStep

/-!
# What a step can do to the writes of a connection

Of the effects of a step only those count here that concern written buffers. There
are four kinds of steps: nothing happens to the write queue; entries are queued;
`writev` takes bytes and finishes entries; or the connection ends and its entries
fail.
-/
namespace SimpleRedis.Net

variable {F : Type*}

/-- A buffer with the callback it was submitted with. -/
structure Submission (F : Type*) where
  buffer : List CChar
  callback : Option (WriteCallback F)

/-- The submission that a queue entry comes from. -/
def WriteMetaInfo.submission (m : WriteMetaInfo F) : Submission F := ⟨m.buffer, m.callback⟩

/-- The queue entry that a submission becomes. -/
def Submission.entry (s : Submission F) : WriteMetaInfo F := .mk' s.callback s.buffer

/-- The calls of the callbacks of some submissions, each with the same result. -/
def callsOf (success : Bool) (submissions : List (Submission F)) :
    List (WriteCallback F × Bool) :=
  submissions.filterMap fun s => s.callback.map (·, success)

namespace Effect

/-- The descriptor that an effect belongs to. -/
def fd : Effect F → Fd
  | .queued fd _ _ | .accepted fd _ | .wrote fd _ _ | .read fd _ _ _ | .highLevel fd _
  | .lowLevel fd _ | .closing fd _ | .closed fd | .accept fd _ | .timer fd _ => fd

/-- The effect has nothing to do with written buffers. -/
def isQuiet : Effect F → Bool
  | .queued _ _ _ | .accepted _ _ | .wrote _ _ _ | .closed _ => false
  | _ => true

/-- A quiet effect at a descriptor. -/
def Quiet (fd : Fd) (effect : Effect F) : Prop := effect.fd = fd ∧ effect.isQuiet = true

def ofSubmission (fd : Fd) (s : Submission F) : Effect F := .queued fd s.buffer s.callback

def ofCall (fd : Fd) (call : WriteCallback F × Bool) : Effect F := .wrote fd call.1 call.2

end Effect

/-- The write queue of a descriptor, empty without a connection. -/
def queueOf (old : Option (Connection F)) : List (WriteMetaInfo F) :=
  old.elim [] (·.writeQueue)

open Connection

/-- The submissions of a batch, numbered from `i` on. -/
def batch (f : F) (i : ℕ) : List (List CChar) → List (Submission F)
  | [] => []
  | buf :: bufs => ⟨buf, some (.batch f i)⟩ :: batch f (i + 1) bufs

/-- What a step submits. -/
def Op.submissions : Op F → List (Submission F)
  | .writeOnce _ _ callback buf => [⟨buf, callback.map .once⟩]
  | .writeBatch _ _ callbacks bufs => batch callbacks 0 bufs
  | _ => []

/-- What a step does to the connection of a descriptor, with its effects. -/
inductive Move (fd : Fd) (submissions : List (Submission F)) (old : Option (Connection F)) :
    Option (Connection F) → List (Effect F) → Prop where
  | quiet {new : Option (Connection F)} {effects : List (Effect F)} (hnone : submissions = [])
      (hqueue : queueOf new = queueOf old) (hkeep : new = none → old = none)
      (heffects : ∀ effect ∈ effects, effect.Quiet fd) : Move fd submissions old new effects
  | queued {conn' : Connection F} {rest : List (Effect F)}
      (hqueue : conn'.writeQueue = queueOf old ++ submissions.map (·.entry))
      (hrest : ∀ effect ∈ rest, effect.Quiet fd) :
      Move fd submissions old (some conn') (submissions.map (Effect.ofSubmission fd) ++ rest)
  | sent {conn conn' : Connection F} {rest : List (Effect F)} (n : ℕ)
      (hnone : submissions = []) (hold : old = some conn) (hn : n ≤ conn.iovs.flatten.length)
      (hqueue : conn'.writeQueue = (finish n conn.writeQueue).1)
      (hrest : ∀ effect ∈ rest, effect.Quiet fd) :
      Move fd submissions old (some conn') (.accepted fd (conn.iovs.flatten.take n) ::
        (((finish n conn.writeQueue).2.map (·, true)).map (Effect.ofCall fd) ++ rest))
  | ended {conn : Connection F} {before after : List (Effect F)} (hnone : submissions = [])
      (hold : old = some conn) (hbefore : ∀ effect ∈ before, effect.Quiet fd)
      (hafter : ∀ effect ∈ after, effect.Quiet fd) :
      Move fd submissions old none (before ++
        (callsOf false (conn.writeQueue.map (·.submission))).map (Effect.ofCall fd) ++ after ++
          [.closed fd])

section Quiet

variable (fd : Fd) (conn : Connection F)

theorem quiet_checkHighLevel : ∀ effect ∈ (conn.checkHighLevel fd).2, effect.Quiet fd := by
  unfold checkHighLevel
  split
  · split
    · split
      · exact List.forall_mem_nil _
      · exact List.forall_mem_singleton.mpr ⟨rfl, rfl⟩
    · exact List.forall_mem_nil _
  · exact List.forall_mem_nil _

theorem quiet_checkLowLevel : ∀ effect ∈ (conn.checkLowLevel fd).2, effect.Quiet fd := by
  unfold checkLowLevel
  split
  · split
    · exact List.forall_mem_singleton.mpr ⟨rfl, rfl⟩
    · exact List.forall_mem_nil _
  · exact List.forall_mem_nil _

theorem quiet_read (callback : Option F) (buffer : List CChar) (size : ℕ) :
    ∀ effect ∈ (callback.map (Effect.read fd · buffer size)).toList, effect.Quiet fd := by
  cases callback with
  | none => exact List.forall_mem_nil _
  | some f => exact List.forall_mem_singleton.mpr ⟨rfl, rfl⟩

theorem quiet_closing :
    ∀ effect ∈ (conn.closingCallback.map (Effect.closing fd)).toList, effect.Quiet fd := by
  cases conn.closingCallback with
  | none => exact List.forall_mem_nil _
  | some f => exact List.forall_mem_singleton.mpr ⟨rfl, rfl⟩

theorem quiet_receive (chunk : List CChar) (consumed : ℕ) :
    ∀ effect ∈ (conn.receive fd chunk consumed).2, effect.Quiet fd := by
  unfold receive
  cases conn.readCb with
  | none => exact List.forall_mem_nil _
  | some f => exact List.forall_mem_singleton.mpr ⟨rfl, rfl⟩

theorem failAllPendingWrites_eq :
    (conn.failAllPendingWrites fd).1.writeQueue = [] ∧
      (conn.failAllPendingWrites fd).2 =
        (callsOf false (conn.writeQueue.map (·.submission))).map (Effect.ofCall fd) := by
  unfold failAllPendingWrites
  split
  · rename_i hempty
    simp [hempty, callsOf]
  · refine ⟨rfl, ?_⟩
    simp only [callsOf, List.filterMap_map, List.map_filterMap]
    congr 1
    funext m
    cases h : m.callback <;> simp [WriteMetaInfo.submission, Effect.ofCall, h]

end Quiet

section Moves

variable {old : Option (Connection F)} {conn : Connection F} {fd : Fd}

theorem queueOf_getD (socket : Socket) :
    (old.getD (writeOnly socket)).writeQueue = queueOf old := by
  cases old <;> rfl

theorem enqueueBatch_eq (f : F) (i : ℕ) (bufs : List (List CChar)) :
    (conn.enqueueBatch fd f i bufs).1.writeQueue =
        conn.writeQueue ++ (batch f i bufs).map (·.entry) ∧
      (conn.enqueueBatch fd f i bufs).2 = (batch f i bufs).map (Effect.ofSubmission fd) := by
  induction bufs generalizing conn i with
  | nil => simp [enqueueBatch, batch]
  | cons buf bufs ih =>
      obtain ⟨hqueue, heffects⟩ := @ih (conn.enqueue fd (some (.batch f i)) buf).1 (i + 1)
      constructor
      · simp only [enqueueBatch, hqueue, batch, List.map_cons]
        simp [enqueue, Submission.entry]
      · simp only [enqueueBatch, heffects, batch, List.map_cons]
        rfl

/-- A write task queues what `enqueue` puts into the queue. -/
theorem move_stepWrite (socket : Socket) {enqueue : Connection F → Connection F × List (Effect F)}
    (submissions : List (Submission F))
    (hqueue : ∀ conn, (enqueue conn).1.writeQueue =
      conn.writeQueue ++ submissions.map (·.entry))
    (heffects : ∀ conn, (enqueue conn).2 = submissions.map (Effect.ofSubmission fd)) :
    Move fd submissions old (stepWrite fd old socket enqueue).1
      (stepWrite fd old socket enqueue).2 := by
  simp only [stepWrite, heffects]
  refine .queued ?_ (quiet_checkHighLevel fd _)
  rw [← queueOf_getD socket, ← hqueue]
  exact writeQueue_checkHighLevel fd _

theorem move_map {f : Connection F → Connection F} (hf : ∀ conn, (f conn).writeQueue =
    conn.writeQueue) : Move fd [] old (old.map f) [] := by
  refine .quiet rfl ?_ (Option.map_eq_none_iff.mp) (List.forall_mem_nil _)
  cases old with
  | none => rfl
  | some conn => exact hf conn

theorem move_close (conn : Connection F) :
    Move fd [] (some conn) none (conn.closeEffects fd) := by
  have hmove : Move fd [] (some conn) none ((conn.closingCallback.map (Effect.closing fd)).toList ++
      (callsOf false (conn.writeQueue.map (·.submission))).map (Effect.ofCall fd) ++ [] ++
        [.closed fd]) := .ended rfl rfl (quiet_closing fd conn) (List.forall_mem_nil _)
  rwa [← (failAllPendingWrites_eq fd conn).2, List.append_nil] at hmove

/-- Behind a failed write there is nothing left to fail. -/
theorem move_failed (conn : Connection F) :
    Move fd [] (some conn) none ((conn.failAllPendingWrites fd).2 ++
      (conn.failAllPendingWrites fd).1.closeEffects fd) := by
  obtain ⟨hqueue, heffects⟩ := failAllPendingWrites_eq fd conn
  have hnone : ((conn.failAllPendingWrites fd).1.failAllPendingWrites fd).2 = [] := by
    rw [failAllPendingWrites, if_pos hqueue]
  have hmove : Move fd [] (some conn) none ([] ++
      (callsOf false (conn.writeQueue.map (·.submission))).map (Effect.ofCall fd) ++
        ((conn.failAllPendingWrites fd).1.closingCallback.map (Effect.closing fd)).toList ++
          [.closed fd]) := .ended rfl rfl (List.forall_mem_nil _) (quiet_closing fd _)
  rw [← heffects, List.nil_append, List.append_assoc] at hmove
  rwa [closeEffects, hnone, List.append_nil]

theorem move_sent (conn : Connection F) {n : ℕ} (hn : n ≤ conn.iovs.flatten.length) :
    Move fd [] (some conn) (some ((conn.sent n).checkLowLevel fd).1)
      (.accepted fd (conn.iovs.flatten.take n) ::
        ((finish n conn.writeQueue).2.map (Effect.wrote fd · true) ++
          ((conn.sent n).checkLowLevel fd).2)) := by
  have hcalls : (finish n conn.writeQueue).2.map (Effect.wrote fd · true) =
      ((finish n conn.writeQueue).2.map (·, true)).map (Effect.ofCall fd) := by
    rw [List.map_map]
    rfl
  rw [hcalls]
  exact .sent n rfl rfl hn (writeQueue_checkLowLevel fd _) (quiet_checkLowLevel fd _)

/-- A connection that stays with its queue. -/
theorem move_stays {conn' : Connection F} {effects : List (Effect F)}
    (hqueue : conn'.writeQueue = queueOf old) (heffects : ∀ effect ∈ effects, effect.Quiet fd) :
    Move fd [] old (some conn') effects :=
  .quiet rfl hqueue nofun heffects

/-- Every step is a move, if `writev` accepts no more than it was offered. -/
theorem stepConnection_move (op : Op F)
    (hpossible : ∀ conn n, old = some conn → op = .handleWrite op.fd (.accepted n) →
      n ≤ conn.iovs.flatten.length) :
    Move op.fd op.submissions old (stepConnection old op).1 (stepConnection old op).2 := by
  cases op with
  | registerRead fd socket callback =>
      cases old with
      | none => exact move_stays rfl (List.forall_mem_nil _)
      | some conn => exact move_stays rfl (List.forall_mem_nil _)
  | writeOnce fd socket callback buf =>
      exact move_stepWrite socket [⟨buf, callback.map .once⟩] (fun _ => rfl) fun _ => rfl
  | writeBatch fd socket callbacks bufs =>
      exact move_stepWrite socket (batch callbacks 0 bufs)
        (fun _ => (enqueueBatch_eq callbacks 0 bufs).1)
        fun _ => (enqueueBatch_eq callbacks 0 bufs).2
  | registerHighLevel fd callback => exact move_map fun _ => rfl
  | registerLowLevel fd callback => exact move_map fun _ => rfl
  | registerClose fd callback => exact move_map fun _ => rfl
  | handleRead fd outcome consumed =>
      cases old with
      | none => exact .quiet rfl rfl (fun _ => rfl) (List.forall_mem_nil _)
      | some conn =>
          cases outcome with
          | bytes chunk =>
              exact move_stays (writeQueue_receive fd conn chunk consumed)
                (quiet_receive fd conn chunk consumed)
          | zero => exact move_stays rfl (quiet_read fd conn.readCb _ _)
          | again => exact move_stays rfl (List.forall_mem_nil _)
          | error => exact move_close conn
  | handleWrite fd outcome =>
      cases old with
      | none => exact .quiet rfl rfl (fun _ => rfl) (List.forall_mem_nil _)
      | some conn =>
          simp only [stepConnection]
          split
          · exact move_stays rfl (List.forall_mem_nil _)
          · cases outcome with
            | accepted n => exact move_sent conn (hpossible conn n rfl rfl)
            | again => exact move_stays rfl (List.forall_mem_nil _)
            | error => exact move_failed conn
  | close fd =>
      cases old with
      | none => exact .quiet rfl rfl (fun _ => rfl) (List.forall_mem_nil _)
      | some conn => exact move_close conn

/-- The operation that gives a connection a read callback. -/
def Op.setsReadCb : Op F → Bool
  | .registerRead _ _ _ => true
  | _ => false

/-- The operation that moves the read buffer. -/
def Op.readsBytes : Op F → Bool
  | .handleRead _ (.bytes _) _ => true
  | _ => false

theorem Op.eq_of_readsBytes {op : Op F} (h : op.readsBytes = true) :
    ∃ fd chunk consumed, op = .handleRead fd (.bytes chunk) consumed := by
  cases op with
  | handleRead fd outcome consumed =>
      cases outcome with
      | bytes chunk => exact ⟨fd, chunk, consumed, rfl⟩
      | zero | again | error => cases h
  | _ => cases h

/-- A reading connection with its buffer was there before, with the same of both. -/
def KeepsReading (old : Option (Connection F)) (new : Option (Connection F)) : Prop :=
  ∀ conn' f, new = some conn' → conn'.readCb = some f →
    ∃ conn, old = some conn ∧ conn.readCb = some f ∧ conn'.readBuffer = conn.readBuffer

theorem keepsReading_none : KeepsReading old none := nofun

theorem keepsReading_some {conn' : Connection F} (hcb : conn'.readCb = conn.readCb)
    (hbuffer : conn'.readBuffer = conn.readBuffer) :
    KeepsReading (some conn) (some conn') := by
  intro c f hc hf
  cases hc
  exact ⟨conn, rfl, hcb.symm.trans hf, hbuffer⟩

theorem keepsReading_of_readSide {conn' : Connection F} (h : conn'.readSide = conn.readSide) :
    KeepsReading (some conn) (some conn') := by
  simp only [readSide, Prod.mk.injEq] at h
  exact keepsReading_some h.1 h.2.1

theorem keepsReading_stepWrite {socket : Socket}
    {enqueue : Connection F → Connection F × List (Effect F)}
    (hkeep : ∀ conn, (enqueue conn).1.readSide = conn.readSide) :
    KeepsReading old (stepWrite fd old socket enqueue).1 := by
  have hside := (readSide_checkHighLevel fd (enqueue (old.getD (writeOnly socket))).1).trans
    (hkeep _)
  cases old with
  | none =>
      -- a connection that a write makes has no read callback
      intro conn' f hconn hf
      cases hconn
      have hnone : ((enqueue (writeOnly socket)).1.checkHighLevel fd).1.readCb = none :=
        (Prod.mk.inj hside).1
      cases hnone.symm.trans hf
  | some conn => exact keepsReading_of_readSide hside

theorem keepsReading_map {f : Connection F → Connection F}
    (hf : ∀ conn, (f conn).readSide = conn.readSide) : KeepsReading old (old.map f) := by
  cases old with
  | none => exact keepsReading_none
  | some conn => exact keepsReading_of_readSide (hf conn)

/-- Only a registration gives a connection a read callback, and only a read changes
its buffer. -/
theorem keepsReading_stepConnection {op : Op F} (hregister : op.setsReadCb = false)
    (hbytes : op.readsBytes = false) : KeepsReading old (stepConnection old op).1 := by
  cases op with
  | registerRead fd socket callback => cases hregister
  | writeOnce fd socket callback buf => exact keepsReading_stepWrite fun _ => rfl
  | writeBatch fd socket callbacks bufs =>
      exact keepsReading_stepWrite fun conn => readSide_enqueueBatch fd conn callbacks 0 bufs
  | registerHighLevel fd callback => exact keepsReading_map fun _ => rfl
  | registerLowLevel fd callback => exact keepsReading_map fun _ => rfl
  | registerClose fd callback => exact keepsReading_map fun _ => rfl
  | handleRead fd outcome consumed =>
      cases old with
      | none => exact keepsReading_none
      | some conn =>
          cases outcome with
          | bytes chunk => cases hbytes
          | zero => exact keepsReading_some rfl rfl
          | again => exact keepsReading_some rfl rfl
          | error => exact keepsReading_none
  | handleWrite fd outcome =>
      cases old with
      | none => exact keepsReading_none
      | some conn =>
          simp only [stepConnection]
          split
          · exact keepsReading_some rfl rfl
          · cases outcome with
            | accepted n => exact keepsReading_of_readSide (readSide_checkLowLevel fd (conn.sent n))
            | again => exact keepsReading_some rfl rfl
            | error => exact keepsReading_none
  | close fd => cases old <;> exact keepsReading_none

end Moves

namespace EventLoopThread

/-- A possible step of the loop is a move of its descriptor and leaves the others alone. -/
theorem exec_move {s : EventLoopThread F} {op : Op F} (hs : s.PlainAt op.fd)
    (hpossible : s.possible op = true) :
    ∃ new events, (s.exec op).1 = s.put op.fd new events ∧
      new = (stepConnection (s.connections op.fd) op).1 ∧
      Move op.fd op.submissions (s.connections op.fd) new (s.exec op).2 := by
  obtain ⟨⟨events, hput⟩, heffects⟩ := exec_refines op hs
  refine ⟨_, events, hput, rfl, ?_⟩
  rw [heffects]
  refine stepConnection_move op fun conn n hconn hop => ?_
  rw [hop, possible_accepted_iff hconn] at hpossible
  exact hpossible.2

end EventLoopThread

end SimpleRedis.Net
