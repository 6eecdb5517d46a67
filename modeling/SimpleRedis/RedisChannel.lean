import SimpleRedis.RedisClient
import SimpleRedis.Custody

/-!
# One socket of the Redis client

A `View` is all that the system knows of one socket: its connection in the loop with
the lives of its descriptor, the tasks that wait, its promises and its server. The
promises that a socket holds stand in one list: those that wait for a reply, those of
the write queue and those of the tasks. A step moves promises along this list or takes
some out of it.
-/
namespace SimpleRedis.Redis

open Net Resp

/-- The promise that the callback of a submitted command carries. -/
def promiseOf (s : Submission Closure) : ℕ :=
  match s.callback with
  | some (.once (.written _ promise)) => promise
  | _ => 0

@[simp] theorem promiseOf_command (fd : Fd) (promise : ℕ) (args : List (List CChar)) :
    promiseOf (command fd promise args) = promise := rfl

def Task.promise : Task → Option ℕ
  | .asyncWriteOnce promise _ => some promise
  | .close => none

/-- The promises of the tasks that wait. -/
def postedPromises (tasks : List Task) : List ℕ := tasks.filterMap Task.promise

/-- The promises of the entries of a write queue. -/
def queuedPromises (queue : List (WriteMetaInfo Closure)) : List ℕ :=
  (queue.map (·.submission)).map promiseOf

structure View where
  conn : Option (Connection Closure)
  lives : Lives Closure
  tasks : List Task
  channel : Channel
  server : Server

def View.held (v : View) : List ℕ :=
  v.channel.promises ++ queuedPromises (queueOf v.conn) ++ postedPromises v.tasks

/-- A submission is the command of a call of `execute` for the socket. -/
def IsCommand (calls : List Call) (fd : Fd) (s : Submission Closure) : Prop :=
  ∃ promise args, calls[promise]? = some ⟨fd, args⟩ ∧ s = command fd promise args

/-- The commands that are written completely are answered in order, the answers are
parsed in order, and the promises wait in the order of the commands. -/
structure InStep (memory : Memory) (submitted : List (Submission Closure))
    (queue : List (WriteMetaInfo Closure)) (valid : List CChar) (promises : List ℕ)
    (server : Server) : Prop where
  matched : ∃ done parsed, submitted = done ++ queue.map (·.submission) ∧
    promises = (done.map promiseOf).drop parsed ∧ server.replies = server.answers.drop parsed ∧
    parsed ≤ server.answers.length ∧ server.answers.length ≤ done.length
  stream : valid ++ server.bytes = encAll server.replies
  wellFormed : AllWellFormed memory server.replies

structure ChannelOk (memory : Memory) (calls : List Call) (fd : Fd) (v : View) : Prop where
  named : ∀ s ∈ v.lives.current.submitted, IsCommand calls fd s
  unsent : ∀ m ∈ queueOf v.conn, m.unsent ≠ []
  posted : ∀ promise args, .asyncWriteOnce promise args ∈ v.tasks →
    calls[promise]? = some ⟨fd, args⟩
  reading : ∀ conn closure, v.conn = some conn → conn.readCb = some closure →
    closure = .read fd ∧ v.lives.ended = [] ∧
      InStep memory v.lives.current.submitted conn.writeQueue conn.readBuffer.valid
        v.channel.promises v.server

section Commands

variable {memory : Memory} {calls calls' : List Call} {fd : Fd} {s : Submission Closure}

theorem getElem?_of_isPrefix {α : Type*} {xs ys : List α} {i : ℕ} {x : α} (h : xs <+: ys)
    (hx : xs[i]? = some x) : ys[i]? = some x := by
  obtain ⟨zs, rfl⟩ := h
  rw [List.getElem?_append_left (List.getElem?_eq_some_iff.mp hx).1]
  exact hx

theorem IsCommand.mono (h : IsCommand calls fd s) (hcalls : calls <+: calls') :
    IsCommand calls' fd s := by
  obtain ⟨promise, args, hcall, rfl⟩ := h
  exact ⟨promise, args, getElem?_of_isPrefix hcalls hcall, rfl⟩

theorem ChannelOk.mono {v : View} (h : ChannelOk memory calls fd v) (hcalls : calls <+: calls') :
    ChannelOk memory calls' fd v :=
  ⟨fun s hs => (h.named s hs).mono hcalls, h.unsent,
    fun promise args ht => getElem?_of_isPrefix hcalls (h.posted promise args ht), h.reading⟩

theorem unsent_entry (fd : Fd) (promise : ℕ) (args : List (List CChar)) :
    (command fd promise args).entry.unsent ≠ [] := by
  have hpos := buildRESPCommand_length_pos args
  intro h
  have hlen := congrArg List.length h
  simp only [WriteMetaInfo.unsent, Submission.entry, WriteMetaInfo.mk', command, List.drop_zero,
    List.length_nil] at hlen
  omega

/-- `finish` leaves bytes to send in every entry. -/
theorem unsent_finish {queue : List (WriteMetaInfo Closure)} (n : ℕ)
    (h : ∀ m ∈ queue, m.unsent ≠ []) : ∀ m ∈ (Connection.finish n queue).1, m.unsent ≠ [] := by
  induction queue generalizing n with
  | nil => exact h
  | cons m queue ih =>
      have hrest := (List.forall_mem_cons.mp h).2
      rw [Connection.finish]
      split
      · exact h
      · split
        · exact ih _ hrest
        · rename_i hzero hlt
          refine List.forall_mem_cons.mpr ⟨fun hnil => ?_, hrest⟩
          have hlen := congrArg List.length hnil
          simp only [WriteMetaInfo.unsent, WriteMetaInfo.skip, List.length_drop,
            List.length_nil] at hlen hlt
          omega

end Commands

section Received

/-- Behind the buffers that are done, a part of the next one does not count. -/
theorem received_append {done rest : List (Submission Closure)} {k : ℕ}
    (h : ∀ s ∈ rest.head?, k < s.buffer.length) :
    received (done ++ rest) ((bytesOf done).length + k) = done.length := by
  induction done with
  | nil =>
      cases rest with
      | nil => rfl
      | cons s rest =>
          have hlt := h s rfl
          simp only [bytesOf, List.map_nil, List.flatten_nil, List.length_nil, List.nil_append,
            received]
          rw [if_neg (by omega)]
  | cons s done ih =>
      have hbytes : (bytesOf (s :: done)).length = s.buffer.length + (bytesOf done).length := by
        simp [bytesOf]
      rw [List.cons_append, received, if_pos (by omega), hbytes]
      have hsub : s.buffer.length + (bytesOf done).length + k - s.buffer.length =
          (bytesOf done).length + k := by omega
      rw [hsub, ih, List.length_cons]

/-- The server has received the commands that the queue does not hold any more. -/
theorem received_kept {queue : List (WriteMetaInfo Closure)} {life : Life Closure}
    {done : List (Submission Closure)} (h : Kept queue life)
    (hunsent : ∀ m ∈ queue, m.unsent ≠ [])
    (hdone : life.submitted = done ++ queue.map (·.submission)) :
    received life.submitted life.accepted.length = done.length := by
  obtain ⟨⟨done', hsubmitted, haccepted, -⟩, -⟩ := h
  have hsame : done = done' := List.append_cancel_right (hdone.symm.trans hsubmitted)
  subst hsame
  rw [haccepted, hdone, List.length_append]
  refine received_append fun s hs => ?_
  cases queue with
  | nil => cases hs
  | cons m queue =>
      have hne := hunsent m List.mem_cons_self
      rw [WriteMetaInfo.unsent, ne_eq, List.drop_eq_nil_iff] at hne
      cases hs
      rw [length_frontSent]
      show m.offset < m.buffer.length
      omega

end Received

section Lives

variable {lives : Lives Closure} {fd : Fd}

/-- An effect takes nothing away from what the first life has submitted. -/
theorem firstLife_observe (effect : Effect Closure) :
    (firstLife lives).submitted <+: (firstLife (lives.observe effect)).submitted := by
  cases hended : lives.ended with
  | nil =>
      cases effect with
      | queued fd buffer callback =>
          simp only [firstLife, Lives.observe, hended, Life.observe]
          exact List.prefix_append _ _
      | _ => simp [firstLife, Lives.observe, hended, Life.observe]
  | cons life ended =>
      cases effect <;> simp [firstLife, Lives.observe, hended]

theorem firstLife_foldl (effects : List (Effect Closure)) :
    (firstLife lives).submitted <+: (firstLife (effects.foldl Lives.observe lives)).submitted := by
  induction effects generalizing lives with
  | nil => exact List.prefix_rfl
  | cons effect effects ih => exact (firstLife_observe effect).trans ih

end Lives

section Replies

variable {memory : Memory} {submitted : List (Submission Closure)}
  {queue : List (WriteMetaInfo Closure)} {valid : List CChar} {promises : List ℕ} {server : Server}

/-- There is a promise for every reply. -/
theorem InStep.length_le (h : InStep memory submitted queue valid promises server) :
    server.replies.length ≤ promises.length := by
  obtain ⟨⟨done, parsed, -, hpromises, hreplies, hparsed, hanswers⟩, -, -⟩ := h
  rw [hpromises, hreplies, List.length_drop, List.length_drop, List.length_map]
  omega

/-- The promise at the place of a reply is that of the command that it answers. -/
theorem InStep.paired (h : InStep memory submitted queue valid promises server) {i promise : ℕ}
    {v : RESPValue} (hpromise : promises[i]? = some promise) (hv : server.replies[i]? = some v) :
    ∃ (k : ℕ) (s : Submission Closure), submitted[k]? = some s ∧ promiseOf s = promise ∧
      server.answers[k]? = some v := by
  obtain ⟨⟨done, parsed, hdone, hpromises, hreplies, hparsed, hanswers⟩, -, -⟩ := h
  rw [hpromises, List.getElem?_drop, List.getElem?_map] at hpromise
  rw [hreplies, List.getElem?_drop] at hv
  obtain ⟨s, hs, rfl⟩ := Option.map_eq_some_iff.mp hpromise
  refine ⟨parsed + i, s, ?_, rfl, hv⟩
  rw [hdone]
  exact getElem?_of_isPrefix (List.prefix_append _ _) hs

/-- The replies that are whole are parsed, and the promises before them are gone. -/
theorem InStep.parse (h : InStep memory submitted queue valid promises server)
    {whole rest : List RESPValue} (hreplies : whole ++ rest = server.replies)
    {valid' future : List CChar} (hstream : valid' ++ future = encAll rest) :
    InStep memory submitted queue valid' (promises.drop whole.length)
      { server with replies := rest, bytes := future } := by
  obtain ⟨⟨done, parsed, hdone, hpromises, hanswered, hparsed, hanswers⟩, -, hwf⟩ := h
  have hlen := congrArg List.length (hreplies.trans hanswered)
  rw [List.length_append, List.length_drop] at hlen
  refine ⟨⟨done, parsed + whole.length, hdone, ?_, ?_, ?_, hanswers⟩, hstream, ?_⟩
  · rw [hpromises, List.drop_drop]
  · show rest = server.answers.drop (parsed + whole.length)
    rw [← List.drop_drop, ← hanswered, ← hreplies, List.drop_left]
  · show parsed + whole.length ≤ server.answers.length
    omega
  · rw [← hreplies] at hwf
    exact (allWellFormed_append.mp hwf).2

end Replies

section Moves

variable {memory : Memory} {calls : List Call} {fd : Fd} {v : View} {tasks : List Task}

/-- A step that leaves the write queue alone. -/
theorem ChannelOk.quiet (h : ChannelOk memory calls fd v) {new : Option (Connection Closure)}
    (hqueue : queueOf new = queueOf v.conn) (hreading : KeepsReading v.conn new)
    (htasks : ∀ t ∈ tasks, t ∈ v.tasks) :
    ChannelOk memory calls fd { v with conn := new, tasks := tasks } := by
  refine ⟨h.named, ?_, fun promise args ht => h.posted promise args (htasks _ ht), ?_⟩
  · show ∀ m ∈ queueOf new, m.unsent ≠ []
    rw [hqueue]
    exact h.unsent
  · intro conn' closure hconn' hclosure
    obtain ⟨conn, hconn, hcb, hbuffer⟩ := hreading conn' closure hconn' hclosure
    obtain ⟨hfd, hended, hstep⟩ := h.reading conn closure hconn hcb
    have hsame : conn'.writeQueue = conn.writeQueue := by
      have hnew : new = some conn' := hconn'
      rw [hnew, hconn] at hqueue
      exact hqueue
    refine ⟨hfd, hended, ?_⟩
    rw [hsame, hbuffer]
    exact hstep

/-- Commands are queued. -/
theorem ChannelOk.queued (h : ChannelOk memory calls fd v) {conn' : Connection Closure}
    {submissions : List (Submission Closure)}
    (hqueue : conn'.writeQueue = queueOf v.conn ++ submissions.map (·.entry))
    (hcommands : ∀ s ∈ submissions, IsCommand calls fd s)
    (hreading : KeepsReading v.conn (some conn')) (htasks : ∀ t ∈ tasks, t ∈ v.tasks) :
    ChannelOk memory calls fd { v with
      conn := some conn'
      lives := { v.lives with current :=
        { v.lives.current with submitted := v.lives.current.submitted ++ submissions } }
      tasks := tasks } := by
  refine ⟨?_, ?_, fun promise args ht => h.posted promise args (htasks _ ht), ?_⟩
  · exact List.forall_mem_append.mpr ⟨h.named, hcommands⟩
  · show ∀ m ∈ conn'.writeQueue, m.unsent ≠ []
    rw [hqueue]
    refine List.forall_mem_append.mpr ⟨h.unsent, fun m hm => ?_⟩
    obtain ⟨s, hs, rfl⟩ := List.mem_map.mp hm
    obtain ⟨promise, args, -, rfl⟩ := hcommands s hs
    exact unsent_entry fd promise args
  · intro conn'' closure hconn'' hclosure
    cases hconn''
    obtain ⟨conn, hconn, hcb, hbuffer⟩ := hreading conn' closure rfl hclosure
    obtain ⟨hfd, hended, ⟨done, parsed, hsubmitted, hrest⟩, hstream, hwf⟩ :=
      h.reading conn closure hconn hcb
    refine ⟨hfd, hended, ⟨done, parsed, ?_, hrest⟩, ?_, hwf⟩
    · have hentries : (submissions.map (·.entry)).map (·.submission) = submissions := by
        rw [List.map_map]
        exact List.map_id _
      rw [hconn] at hqueue
      rw [hqueue, List.map_append, hentries, ← List.append_assoc]
      exact congrArg (· ++ submissions) hsubmitted
    · rw [hbuffer]
      exact hstream

/-- `writev` takes bytes and finishes the commands of `moved`. -/
theorem ChannelOk.sent (h : ChannelOk memory calls fd v) {conn conn' : Connection Closure} {n : ℕ}
    {moved : List (Submission Closure)} {current : Life Closure} (hconn : v.conn = some conn)
    (hsubmitted : current.submitted = v.lives.current.submitted)
    (hqueue : conn'.writeQueue = (Connection.finish n conn.writeQueue).1)
    (hmoved : conn.writeQueue.map (·.submission) =
      moved ++ (Connection.finish n conn.writeQueue).1.map (·.submission))
    (hreading : KeepsReading v.conn (some conn')) (htasks : ∀ t ∈ tasks, t ∈ v.tasks) :
    ChannelOk memory calls fd { v with
      conn := some conn'
      lives := { v.lives with current := current }
      tasks := tasks
      channel := { v.channel with
        promises := v.channel.promises ++ moved.map promiseOf } } := by
  have hunsent := h.unsent
  rw [hconn] at hunsent
  refine ⟨?_, ?_, fun promise args ht => h.posted promise args (htasks _ ht), ?_⟩
  · show ∀ s ∈ current.submitted, IsCommand calls fd s
    rw [hsubmitted]
    exact h.named
  · show ∀ m ∈ conn'.writeQueue, m.unsent ≠ []
    rw [hqueue]
    exact unsent_finish n hunsent
  · intro conn'' closure hconn'' hclosure
    cases hconn''
    obtain ⟨old, hold, hcb, hbuffer⟩ := hreading conn' closure rfl hclosure
    cases hconn.symm.trans hold
    obtain ⟨hfd, hended, ⟨done, parsed, hdone, hpromises, hreplies, hparsed, hanswers⟩, hstream,
      hwf⟩ := h.reading conn closure hconn hcb
    refine ⟨hfd, hended, ⟨done ++ moved, parsed, ?_, ?_, hreplies, hparsed, ?_⟩, ?_, hwf⟩
    · show current.submitted = _
      rw [hsubmitted, hdone, hmoved, hqueue, List.append_assoc]
    · show v.channel.promises ++ moved.map promiseOf = _
      rw [hpromises, List.map_append, List.drop_append_of_le_length (by simp; omega)]
    · rw [List.length_append]
      exact Nat.le_add_right_of_le hanswers
    · rw [hbuffer]
      exact hstream

/-- The connection is gone. -/
theorem ChannelOk.ended (h : ChannelOk memory calls fd v) (ended : List (Life Closure))
    (htasks : ∀ t ∈ tasks, t ∈ v.tasks) :
    ChannelOk memory calls fd { v with
      conn := none
      lives := { ended := ended, current := {} }
      tasks := tasks } :=
  ⟨List.forall_mem_nil _, List.forall_mem_nil _,
    fun promise args ht => h.posted promise args (htasks _ ht),
    fun conn _ hconn => (nomatch (show none = some conn from hconn))⟩

end Moves

end SimpleRedis.Redis
