import SimpleRedis.RedisCustody
import Mathlib.Data.List.Infix

/-!
# Promises and replies

A reply is matched with a promise by position only. The promise of a command is
queued when its last byte is accepted, so the promises wait in the order of the
commands that the server has received, and the server answers in this order. Every
step of the system keeps this.
-/
namespace SimpleRedis.Redis

open Net Resp TransitionRun Custody

namespace System

variable {Θ : Type*} {memory : Memory} {s s' : System Θ} {fd : Fd}

/-- The promise carries what the server has answered to its command: the command is
that of the call which returned the promise. -/
def Replied (s : System Θ) (promise : ℕ) (v : RESPValue) : Prop :=
  ∃ (fd : Fd) (k : ℕ) (args : List (List CChar)), s.calls[promise]? = some ⟨fd, args⟩ ∧
    (firstLife (livesOf fd s.exec.trace)).submitted[k]? = some (command fd promise args) ∧
    (s.server fd).answers[k]? = some v

/-- Every promise gets its own command's reply: it is resolved once at most, a value is
the answer to its command, and `read` has always found a promise. -/
structure Matched (s : System Θ) : Prop where
  once : (s.resolved.map Prod.fst).Nodup
  own : ∀ promise v, (promise, .value v) ∈ s.resolved → s.Replied promise v
  fed : s.starved = false

/-- The invariant of the system. -/
structure Ok (memory : Memory) (s : System Θ) : Prop where
  held : s.Held
  channel : ∀ fd, ChannelOk memory s.calls fd (s.view fd)
  own : ∀ promise v, (promise, .value v) ∈ s.resolved → s.Replied promise v
  fed : s.starved = false

/-- What is known of a socket is never taken back. -/
def Extends (s s' : System Θ) : Prop :=
  s.calls <+: s'.calls ∧ ∀ fd,
    (firstLife (s.view fd).lives).submitted <+: (firstLife (s'.view fd).lives).submitted ∧
    (s.view fd).server.answers <+: (s'.view fd).server.answers

theorem Replied.mono {promise : ℕ} {v : RESPValue} (h : s.Replied promise v)
    (hextends : s.Extends s') : s'.Replied promise v := by
  obtain ⟨fd, k, args, hcall, hsubmitted, hanswer⟩ := h
  obtain ⟨hcalls, hviews⟩ := hextends
  exact ⟨fd, k, args, getElem?_of_isPrefix hcalls hcall,
    getElem?_of_isPrefix (hviews fd).1 hsubmitted, getElem?_of_isPrefix (hviews fd).2 hanswer⟩

/-- A step at one socket that resolves the promises of `out`. -/
theorem Ok.update (h : s.Ok memory) (fd : Fd) (out : List (ℕ × Outcome)) (hheld : s'.Held)
    (hcalls : s'.calls = s.calls) (hstarved : s'.starved = s.starved)
    (hresolved : s'.resolved = s.resolved ++ out)
    (hother : ∀ fd', fd' ≠ fd → s'.view fd' = s.view fd')
    (hchannel : ChannelOk memory s.calls fd (s'.view fd))
    (hlives : (firstLife (s.view fd).lives).submitted <+:
      (firstLife (s'.view fd).lives).submitted)
    (hanswers : (s.view fd).server.answers <+: (s'.view fd).server.answers)
    (hvalues : ∀ promise v, (promise, .value v) ∈ out → s'.Replied promise v) : s'.Ok memory := by
  have hextends : s.Extends s' := by
    refine ⟨hcalls ▸ List.prefix_rfl, fun fd' => ?_⟩
    by_cases hfd : fd' = fd
    · subst hfd
      exact ⟨hlives, hanswers⟩
    · rw [hother fd' hfd]
      exact ⟨List.prefix_rfl, List.prefix_rfl⟩
  refine ⟨hheld, fun fd' => ?_, fun promise v hmem => ?_, hstarved.trans h.fed⟩
  · rw [hcalls]
    by_cases hfd : fd' = fd
    · subst hfd
      exact hchannel
    · rw [hother fd' hfd]
      exact h.channel fd'
  · rw [hresolved] at hmem
    rcases List.mem_append.mp hmem with hmem | hmem
    · exact (h.own promise v hmem).mono hextends
    · exact hvalues promise v hmem

section Moves

variable {base : System Θ} {tasks : List Task} {new : Option (Connection Closure)}
  {effects : List (Effect Closure)} {submissions : List (Submission Closure)}

/-- The entries of a write queue are commands, of which only the first is sent in part. -/
theorem Ok.queue_spec (h : s.Ok memory) {conn : Connection Closure}
    (hconn : (s.view fd).conn = some conn) :
    (∀ x ∈ conn.writeQueue.map (·.submission), IsCommand s.calls fd x) ∧
      TailUnsent conn.writeQueue := by
  obtain ⟨⟨done, hsubmitted, -⟩, htail⟩ := (h.held.kept.kept fd).kept conn hconn
  refine ⟨fun x hx => (h.channel fd).named x ?_, htail⟩
  have hcurrent : (s.view fd).lives.current.submitted =
    done ++ conn.writeQueue.map (·.submission) := hsubmitted
  rw [hcurrent]
  exact List.mem_append_right done hx

/-- The callbacks of a move keep the invariant. The promise of a command that is
queued comes from the task. -/
theorem Ok.move (h : s.Ok memory) (hran : s.Ran base fd tasks new effects)
    (hmove : Move fd submissions (s.view fd).conn new effects)
    (hreading : KeepsReading (s.view fd).conn new)
    (htasks : ∀ t ∈ tasks, t ∈ (s.view fd).tasks)
    (hcommands : ∀ x ∈ submissions, IsCommand s.calls fd x)
    (hposted : postedPromises (s.view fd).tasks =
      submissions.map promiseOf ++ postedPromises tasks) :
    (effects.foldl deliver base).Ok memory := by
  have hview := hran.view
  have hok := h.channel fd
  have hheld : (effects.foldl deliver base).Held := by
    refine h.held.move hran hmove (fun conn closure hnew hcb => ?_)
      (fun x hx => (hcommands x hx).isWrite) hposted
    obtain ⟨old, hold, hclosure, -⟩ := hreading conn closure hnew hcb
    exact (h.held.wired fd).reads old closure hold hclosure
  have hlives : (firstLife (s.view fd).lives).submitted <+:
      (firstLife (base.view fd).lives).submitted := by
    rw [hview]
    exact firstLife_foldl effects
  have hanswers : (s.view fd).server.answers <+: (base.view fd).server.answers := by
    rw [hview]
  cases hmove with
  | quiet hnone hqueue hkeep heffects =>
      rw [foldl_deliver_quiet heffects] at hheld ⊢
      rw [foldl_quiet heffects] at hview
      refine h.update fd [] hheld hran.calls hran.starved
        (hran.resolved.trans (List.append_nil _).symm) hran.other ?_ hlives hanswers nofun
      rw [hview]
      exact hok.quiet hqueue hreading htasks
  | @queued conn' rest hqueue hrest =>
      rw [List.foldl_append, foldl_deliver_ofSubmission, foldl_deliver_quiet hrest] at hheld ⊢
      rw [List.foldl_append, foldl_ofSubmission, foldl_quiet hrest] at hview
      refine h.update fd [] hheld hran.calls hran.starved
        (hran.resolved.trans (List.append_nil _).symm) hran.other ?_ hlives hanswers nofun
      rw [hview]
      exact hok.queued hqueue hcommands hreading htasks
  | @sent conn conn' rest n hnone hold hn hqueue hrest =>
      obtain ⟨hnamed, htail⟩ := h.queue_spec hold
      obtain ⟨moved, hmoved, hcalls, -, -⟩ := finish_spec n htail
      have hchannel : base.clients fd = (s.view fd).channel := congrArg View.channel hview
      have hwrites : ∀ x ∈ conn.writeQueue.map (·.submission), IsWrite fd x :=
        fun x hx => (hnamed x hx).isWrite
      rw [foldl_deliver_sent hmoved hcalls hwrites hrest, hchannel] at hheld ⊢
      rw [List.foldl_cons, List.foldl_append, foldl_ofCall, foldl_quiet hrest] at hview
      refine h.update fd [] hheld hran.calls hran.starved
        (hran.resolved.trans (List.append_nil _).symm)
        (fun fd' hfd => (view_setPromises_of_ne _ hfd).trans (hran.other fd' hfd)) ?_ ?_ ?_ nofun
      · rw [view_setPromises, hview]
        exact hok.sent hold rfl hqueue hmoved hreading htasks
      · rw [view_setPromises]
        exact hlives
      · rw [view_setPromises]
        exact hanswers
  | @ended conn before after hnone hold hbefore hafter =>
      obtain ⟨hnamed, -⟩ := h.queue_spec hold
      have hwrites : ∀ x ∈ conn.writeQueue.map (·.submission), IsWrite fd x :=
        fun x hx => (hnamed x hx).isWrite
      rw [foldl_deliver_ended hbefore hafter hwrites, hran.resolved] at hheld ⊢
      rw [List.foldl_append, List.foldl_append, List.foldl_append, foldl_quiet hbefore,
        foldl_ofCall, foldl_quiet hafter] at hview
      refine h.update fd _ hheld hran.calls hran.starved rfl hran.other ?_ hlives hanswers
        fun promise v hmem => ?_
      · exact hview ▸ hok.ended _ htasks
      · obtain ⟨x, -, heq⟩ := List.mem_map.mp hmem
        cases heq

end Moves

section Runs

variable {tasks : List Task} {exec : Execution Closure}

/-- A step of the loop with its write callbacks keeps the invariant. -/
theorem Ok.run (h : s.Ok memory) (op : Op Closure)
    (hrun : (s.setTasks op.fd tasks).run op = some s')
    (hreading : KeepsReading (s.view op.fd).conn (stepConnection (s.view op.fd).conn op).1)
    (htasks : ∀ t ∈ tasks, t ∈ s.tasks op.fd)
    (hcommands : ∀ x ∈ op.submissions, IsCommand s.calls op.fd x)
    (hposted : postedPromises (s.tasks op.fd) =
      op.submissions.map promiseOf ++ postedPromises tasks) : s'.Ok memory := by
  obtain ⟨base, effects, rfl, -, hran, hmove⟩ := ran_run h.held.kept op hrun
  exact h.move hran hmove hreading htasks hcommands hposted

/-- An event that submits nothing. -/
theorem Ok.event (h : s.Ok memory) (op : Op Closure) (hrun : s.run op = some s')
    (hnone : op.submissions = [])
    (hreading : KeepsReading (s.view op.fd).conn (stepConnection (s.view op.fd).conn op).1) :
    s'.Ok memory := by
  refine h.run op ?_ hreading (fun _ ht => ht) ?_ ?_
  · rw [setTasks_self]
    exact hrun
  · rw [hnone]
    exact nofun
  · rw [hnone]
    rfl

theorem Ok.runTask (h : s.Ok memory) {task : Task} (htasks : s.tasks fd = task :: tasks)
    (hrun : (s.setTasks fd tasks).run (task.op fd) = some s') : s'.Ok memory := by
  have hmem : ∀ t ∈ tasks, t ∈ s.tasks fd := fun t ht => by
    rw [htasks]
    exact List.mem_cons_of_mem task ht
  cases task with
  | asyncWriteOnce promise args =>
      have hcall : s.calls[promise]? = some ⟨fd, args⟩ := by
        refine (h.channel fd).posted promise args ?_
        show _ ∈ s.tasks fd
        rw [htasks]
        exact List.mem_cons_self
      refine h.run (Task.op fd (.asyncWriteOnce promise args)) hrun
        (keepsReading_stepConnection rfl rfl) hmem ?_ ?_
      · exact List.forall_mem_singleton.mpr ⟨promise, args, hcall, rfl⟩
      · exact congrArg postedPromises htasks
  | close =>
      refine h.run (Task.op fd .close) hrun (keepsReading_stepConnection rfl rfl) hmem nofun ?_
      show postedPromises (s.tasks fd) = _
      rw [htasks]
      rfl

end Runs

section Posts

theorem Ok.close (h : s.Ok memory) (fd : Fd) :
    (s.setTasks fd (s.tasks fd ++ [.close])).Ok memory := by
  refine h.update fd [] (h.held.close fd) rfl rfl (List.append_nil _).symm
    (fun fd' hfd => view_setTasks_of_ne _ hfd) ?_ ?_ ?_ nofun
  · rw [view_setTasks]
    have hok := h.channel fd
    refine ⟨hok.named, hok.unsent, fun promise args ht => hok.posted promise args ?_, hok.reading⟩
    rcases List.mem_append.mp ht with ht | ht
    · exact ht
    · cases List.mem_singleton.mp ht
  · rw [view_setTasks]
  · rw [view_setTasks]

/-- A new call that changes nothing but the tasks of its socket. -/
theorem Ok.call (h : s.Ok memory) (fd : Fd) {args : List (List CChar)} (out : List (ℕ × Outcome))
    (hheld : s'.Held) (hcalls : s'.calls = s.calls ++ [⟨fd, args⟩])
    (hstarved : s'.starved = s.starved) (hresolved : s'.resolved = s.resolved ++ out)
    (hother : ∀ fd', fd' ≠ fd → s'.view fd' = s.view fd')
    (hview : s'.view fd = { s.view fd with tasks := s'.tasks fd })
    (hposted : ∀ promise args', .asyncWriteOnce promise args' ∈ s'.tasks fd →
      s'.calls[promise]? = some ⟨fd, args'⟩)
    (hvalues : ∀ promise v, (promise, .value v) ∉ out) : s'.Ok memory := by
  have hgrow : s.calls <+: s'.calls := ⟨_, hcalls.symm⟩
  have hextends : s.Extends s' := by
    refine ⟨hgrow, fun fd' => ?_⟩
    by_cases hfd : fd' = fd
    · rw [hfd, hview]
      exact ⟨List.prefix_rfl, List.prefix_rfl⟩
    · rw [hother fd' hfd]
      exact ⟨List.prefix_rfl, List.prefix_rfl⟩
  refine ⟨hheld, fun fd' => ?_, fun promise v hmem => ?_, hstarved.trans h.fed⟩
  · have hok := (h.channel fd').mono hgrow
    by_cases hfd : fd' = fd
    · subst hfd
      rw [hview]
      exact ⟨hok.named, hok.unsent, hposted, hok.reading⟩
    · rw [hother fd' hfd]
      exact hok
  · rw [hresolved] at hmem
    rcases List.mem_append.mp hmem with hmem | hmem
    · exact (h.own promise v hmem).mono hextends
    · exact absurd hmem (hvalues promise v)

/-- A call of `execute` posts its command, or fails its promise at once. -/
theorem Ok.execute [DecidableEq Θ] (h : s.Ok memory) (setup : Setup) (thread : Θ)
    (args : List (List CChar)) : (s.execute setup thread args).Ok memory := by
  have hheld := h.held.execute setup thread args
  generalize hcall : s.execute setup thread args = s' at hheld ⊢
  unfold System.execute at hcall
  extract_lets counter fd called at hcall
  split at hcall <;> subst hcall
  · refine h.call fd _ hheld rfl rfl rfl (fun _ _ => rfl) rfl (fun promise args' ht => ?_)
      (fun promise v hmem => by simp at hmem)
    exact getElem?_of_isPrefix (List.prefix_append _ _) ((h.channel fd).posted promise args' ht)
  · set tasks := s.tasks fd ++ [.asyncWriteOnce s.calls.length args] with htasks
    have hview : (called.setTasks fd tasks).view fd = { s.view fd with tasks := tasks } :=
      view_setTasks tasks
    have hother : ∀ fd', fd' ≠ fd → (called.setTasks fd tasks).view fd' = s.view fd' :=
      fun fd' hfd => view_setTasks_of_ne tasks hfd
    have hself : (called.setTasks fd tasks).tasks fd = tasks := Function.update_self _ _ _
    refine h.call fd [] hheld rfl rfl (List.append_nil _).symm hother ?_ ?_ nofun
    · rw [hview, hself]
    · intro promise args' ht
      rw [hself, htasks] at ht
      rcases List.mem_append.mp ht with ht | ht
      · exact getElem?_of_isPrefix (List.prefix_append _ _)
          ((h.channel fd).posted promise args' ht)
      · cases List.mem_singleton.mp ht
        exact List.getElem?_concat_length

end Posts

section Server

variable {server : Server}

/-- The server answers a command that it has received: its promise waits. -/
theorem Ok.answer (h : s.Ok memory) {reply : Reply memory}
    (hstep : s.answer fd reply = some s') : s'.Ok memory := by
  unfold System.answer at hstep
  extract_lets server life at hstep
  split at hstep
  · rename_i hreceived
    cases hstep
    have hok := h.channel fd
    refine h.update fd [] (h.held.setServer fd _) rfl rfl (List.append_nil _).symm
      (fun fd' hfd => view_setServer_of_ne hfd) ?_ ?_ ?_ nofun
    · rw [view_setServer]
      refine ⟨hok.named, hok.unsent, hok.posted, fun conn closure hconn hcb => ?_⟩
      obtain ⟨hfd, hended, ⟨done, parsed, hdone, hpromises, hreplies, hparsed, -⟩, hstream, hwf⟩ :=
        hok.reading conn closure hconn hcb
      have hlife : life = (s.view fd).lives.current := by
        show ((s.view fd).lives.ended.head?).getD (s.view fd).lives.current = _
        rw [hended]
        rfl
      have hkept := (h.held.kept.kept fd).kept conn hconn
      have hunsent := hok.unsent
      rw [show (s.view fd).conn = some conn from hconn] at hunsent
      have hcount : received (s.view fd).lives.current.submitted
          (s.view fd).lives.current.accepted.length = done.length :=
        received_kept hkept hunsent hdone
      rw [hlife, hcount] at hreceived
      refine ⟨hfd, hended, ⟨done, parsed, hdone, hpromises, ?_, ?_, ?_⟩, ?_, ?_⟩
      · show (s.view fd).server.replies ++ [reply.val] =
          ((s.view fd).server.answers ++ [reply.val]).drop parsed
        rw [hreplies, List.drop_append_of_le_length hparsed]
      · rw [List.length_append]
        exact Nat.le_add_right_of_le hparsed
      · rw [List.length_append]
        exact hreceived
      · show conn.readBuffer.valid ++ ((s.view fd).server.bytes ++ reply.val.enc) =
          encAll ((s.view fd).server.replies ++ [reply.val])
        rw [← List.append_assoc, hstream, encAll_append, encAll, encAll, List.append_nil]
      · exact allWellFormed_append.mpr ⟨hwf, reply.property, trivial⟩
    · rw [view_setServer]
    · rw [view_setServer]
      exact List.prefix_append _ _
  · cases hstep

end Server

section Reads

variable {conn : Connection Closure} {chunk : List CChar}

/-- The promises that `read` resolves, with the values. -/
def values (promises : List ℕ) (whole : List RESPValue) : List (ℕ × Outcome) :=
  (promises.zip whole).map fun p => (p.1, .value p.2)

/-- Without a read callback the bytes are dropped. -/
theorem Ok.handleRead_dropped (h : s.Ok memory) (hcb : ∀ conn, (s.view fd).conn = some conn →
    conn.readCb = none) (hevent : s.run (.handleRead fd (.bytes chunk) 0) = some s') :
    s'.Ok memory := by
  refine h.event _ hevent rfl ?_
  show KeepsReading (s.view fd).conn (stepConnection (s.view fd).conn
    (.handleRead fd (.bytes chunk) 0)).1
  cases hconn : (s.view fd).conn with
  | none => exact keepsReading_none
  | some conn =>
      intro conn' f hconn' hf
      have hnone := hcb conn hconn
      simp only [stepConnection, Connection.receive, hnone] at hconn'
      cases hconn'
      cases hf

theorem receive_of_readCb (fd : Fd) (chunk : List CChar) {closure : Closure}
    (hcb : conn.readCb = some closure) (consumed : ℕ) :
    (conn.receive fd chunk consumed).1 =
      { conn with readBuffer := (conn.readBuffer.fill chunk).consume consumed } := by
  simp only [Connection.receive, hcb]

/-- The replies of `whole` are parsed, each for the promise of its command. -/
theorem Ok.parsed (h : s.Ok memory) (hconn : (s.view fd).conn = some conn)
    (hcb : conn.readCb = some (.read fd)) {whole rest : List RESPValue} {future : List CChar}
    {consumed : ℕ} (happ : whole ++ rest = (s.view fd).server.replies)
    (hstream : ((conn.readBuffer.fill chunk).consume consumed).valid ++ future = encAll rest)
    (hheld : s'.Held) (hcalls : s'.calls = s.calls) (hstarved : s'.starved = s.starved)
    (hresolved : s'.resolved = s.resolved ++ values (s.view fd).channel.promises whole)
    (hother : ∀ fd', fd' ≠ fd → s'.view fd' = s.view fd')
    (hview : s'.view fd = { s.view fd with
      conn := some (conn.receive fd chunk consumed).1
      channel := { (s.view fd).channel with
        promises := (s.view fd).channel.promises.drop whole.length }
      server := { (s.view fd).server with replies := rest, bytes := future } }) : s'.Ok memory := by
  have hok := h.channel fd
  obtain ⟨-, hended, hinstep⟩ := hok.reading conn _ hconn hcb
  have hreceive := receive_of_readCb fd chunk hcb consumed
  refine h.update fd _ hheld hcalls hstarved hresolved hother ?_ ?_ ?_ ?_
  · rw [hview, hreceive]
    refine ⟨hok.named, ?_, hok.posted, fun conn' closure hconn' hclosure => ?_⟩
    · have hunsent := hok.unsent
      rw [hconn] at hunsent
      exact hunsent
    · cases hconn'
      cases hcb.symm.trans hclosure
      exact ⟨rfl, hended, hinstep.parse happ hstream⟩
  · rw [hview]
  · rw [hview]
  · intro promise v hmem
    obtain ⟨⟨promise', v'⟩, hzip, heq⟩ := List.mem_map.mp hmem
    cases heq
    obtain ⟨i, hi⟩ := List.mem_iff_getElem?.mp hzip
    obtain ⟨hpromise, hvalue⟩ := List.getElem?_zip_eq_some.mp hi
    obtain ⟨k, x, hx, rfl, hanswer⟩ := hinstep.paired hpromise
      (getElem?_of_isPrefix ⟨rest, happ⟩ hvalue)
    obtain ⟨promise, args, hcall, rfl⟩ := hok.named x (List.mem_of_getElem? hx)
    refine ⟨fd, k, args, hcalls ▸ hcall, ?_, ?_⟩
    · have hlives : livesOf fd s'.exec.trace = (s.view fd).lives := congrArg View.lives hview
      rw [hlives, firstLife, hended]
      exact hx
    · have hserver : s'.server fd = { (s.view fd).server with replies := rest, bytes := future } :=
        congrArg View.server hview
      rw [hserver]
      exact hanswer

/-- The loop hands the read callback no more bytes than its buffer takes. -/
theorem length_le_free_of_run (hconn : (s.view fd).conn = some conn) {consumed : ℕ}
    (hrun : s.run (.handleRead fd (.bytes chunk) consumed) = some s') :
    chunk.length ≤ conn.readBuffer.free := by
  have hloop : s.exec.loop.connections fd = some conn := hconn
  obtain ⟨exec, hexec, -⟩ := Option.map_eq_some_iff.mp hrun
  have hpossible := (Execution.step_eq_some hexec).1
  exact ((EventLoopThread.possible_bytes_iff hloop).mp hpossible).2

/-- The effects of a read resolve nothing, so only the connection changes. -/
theorem ran_receive (hkept : AllKept s.exec) (hconn : (s.view fd).conn = some conn) {consumed : ℕ}
    (hrun : s.run (.handleRead fd (.bytes chunk) consumed) = some s') :
    s.Ran s' fd (s.tasks fd) (some (conn.receive fd chunk consumed).1) [] := by
  rw [← setTasks_self s fd] at hrun
  obtain ⟨base, effects, rfl, rfl, hran, -⟩ :=
    ran_run hkept (.handleRead fd (.bytes chunk) consumed) hrun
  have hreceive : stepConnection (s.view fd).conn (.handleRead fd (.bytes chunk) consumed) =
      (some (conn.receive fd chunk consumed).1, (conn.receive fd chunk consumed).2) := by
    rw [hconn]
    rfl
  have hquiet := quiet_receive fd conn chunk consumed
  have hview := hran.view
  simp only [Op.fd, hreceive] at hran hview ⊢
  rw [foldl_quiet hquiet] at hview
  rw [foldl_deliver_quiet hquiet]
  exact ⟨hran.kept, hran.calls, hran.resolved, hran.starved, hview, hran.other⟩

/-- Bytes that arrive complete some replies; each goes to the promise of its command. -/
theorem Ok.handleRead_parsed (h : s.Ok memory) {closure : Closure}
    (hconn : (s.view fd).conn = some conn) (hcb : conn.readCb = some closure)
    (harrived : chunk <+: (s.server fd).bytes)
    (hclean : cleanCuts conn.readBuffer.size (s.server fd).replies conn.readBuffer.dataSize
      [chunk.length] = true)
    (hstep : (s.setServer fd { s.server fd with
      replies := (reach (s.server fd).replies (conn.readBuffer.dataSize + chunk.length)).rest
      bytes := (s.server fd).bytes.drop chunk.length }).handleRead memory fd (.bytes chunk) =
        some s') :
    s'.Ok memory := by
  obtain ⟨rfl, -, hinstep⟩ := (h.channel fd).reading conn closure hconn hcb
  have hheld : s'.Held := (h.held.setServer fd _).handleRead hstep
  set parsed := reach (s.server fd).replies (conn.readBuffer.dataSize + chunk.length) with hparsed
  set served := s.setServer fd { s.server fd with
    replies := parsed.rest
    bytes := (s.server fd).bytes.drop chunk.length } with hserved
  obtain ⟨future, hfuture⟩ := harrived
  have hcall : served.readCall fd (.bytes chunk) =
      some (fd, (conn.readBuffer.fill chunk).buffer, (conn.readBuffer.fill chunk).dataSize) := by
    have hloop : served.exec.loop.connections fd = some conn := hconn
    simp only [readCall, hloop, Option.bind_some, hcb]
  simp only [System.handleRead, hcall] at hstep
  obtain ⟨r, hread, hrun⟩ := Option.bind_eq_some_iff.mp hstep
  have hfree := length_le_free_of_run (s := served.finishRead fd r) hconn hrun
  -- what the callback makes of the bytes
  have hstream : (conn.readBuffer.valid ++ chunk) ++ future = encAll (s.server fd).replies := by
    rw [List.append_assoc, hfuture]
    exact hinstep.stream
  obtain ⟨part, returned, hpending, hrest, hparse, hvalid⟩ :=
    read_replies hparsed.symm hinstep.wellFormed hfree hstream hinstep.length_le
  cases hparse.symm.trans hread
  have hkept : ¬ (parsed.elementDue = true ∧ chunk.length < conn.readBuffer.free) := by
    have := conn.readBuffer.free_add_dataSize
    rintro ⟨hdue, hroom⟩
    have hlt : conn.readBuffer.dataSize + chunk.length < conn.readBuffer.size := by omega
    simp [cleanCuts, ← hparsed, hdue, hlt] at hclean
  rw [if_neg hkept, List.drop_zero] at hvalid
  have hfinish : ((conn.readBuffer.fill chunk).consume returned).valid ++
      (s.server fd).bytes.drop chunk.length = encAll parsed.rest := by
    rw [hvalid, ← hfuture, List.drop_left]
    exact hrest
  -- what the loop makes of its result
  have hran := ran_receive (s := served.finishRead fd _) h.held.kept hconn hrun
  have hview := hran.view
  rw [view_finishRead, hserved, view_setServer] at hview
  refine h.parsed hconn hcb (reach_append _ _) hfinish hheld hran.calls ?_ hran.resolved
    (fun fd' hfd => (hran.other fd' hfd).trans
      ((view_finishRead_of_ne _ hfd).trans (view_setServer_of_ne hfd))) hview
  exact hran.starved.trans (Bool.or_false _)

theorem Ok.handleRead (h : s.Ok memory) {outcome : ReadOutcome}
    (hstep : (s.arrive fd outcome).bind (·.handleRead memory fd outcome) = some s') :
    s'.Ok memory := by
  cases outcome with
  | zero =>
      have hevent : s.handleRead memory fd .zero = some s' := hstep
      rw [handleRead_zero memory] at hevent
      exact h.event _ hevent rfl (keepsReading_stepConnection rfl rfl)
  | again =>
      have hevent : s.handleRead memory fd .again = some s' := hstep
      rw [handleRead_nothing memory (Or.inl rfl)] at hevent
      exact h.event _ hevent rfl (keepsReading_stepConnection rfl rfl)
  | error =>
      have hevent : s.handleRead memory fd .error = some s' := hstep
      rw [handleRead_nothing memory (Or.inr rfl)] at hevent
      exact h.event _ hevent rfl (keepsReading_stepConnection rfl rfl)
  | bytes chunk =>
      cases hconn : s.exec.loop.connections fd with
      | none =>
          simp only [arrive, hconn, Option.bind_some, System.handleRead, readCall,
            Option.bind_none] at hstep
          exact h.handleRead_dropped (fun _ hsome => by cases hconn.symm.trans hsome) hstep
      | some conn =>
          cases hcb : conn.readCb with
          | none =>
              simp only [arrive, hconn, hcb, if_true, Option.bind_some, System.handleRead,
                readCall] at hstep
              refine h.handleRead_dropped (fun conn' hsome => ?_) hstep
              cases hconn.symm.trans hsome
              exact hcb
          | some closure =>
              simp only [arrive, hconn, hcb, reduceCtorEq, if_false] at hstep
              split at hstep
              · rename_i hguard
                exact h.handleRead_parsed hconn hcb hguard.1 hguard.2 hstep
              · cases hstep

end Reads

section Initial

theorem ok_initial (setup : Setup) : (initial setup : System Θ).Ok memory := by
  have hregistered := registered_connect setup
  refine ⟨held_initial setup, fun fd => ⟨List.forall_mem_nil _, ?_, nofun,
    fun conn closure hconn hcb => ?_⟩, nofun, rfl⟩
  · show ∀ m ∈ queueOf (setup.connect.connections fd), m.unsent ≠ []
    rw [hregistered.queueOf_eq]
    exact List.forall_mem_nil _
  · obtain ⟨hempty, hvalid, hread⟩ := hregistered.fresh fd conn hconn
    cases hread.symm.trans hcb
    refine ⟨rfl, rfl, ⟨[], 0, ?_, rfl, rfl, Nat.le_refl 0, Nat.le_refl 0⟩, ?_, trivial⟩
    · rw [hempty]
      rfl
    · rw [hvalid]
      rfl

end Initial

theorem Ok.step [DecidableEq Θ] {setup : Setup} (h : s.Ok setup.memory)
    {act : Act setup.memory Θ} (hstep : s.step setup act = some s') : s'.Ok setup.memory := by
  cases act with
  | execute thread args =>
      cases hstep
      exact h.execute setup thread args
  | close fd =>
      cases hstep
      exact h.close fd
  | runTask fd =>
      cases htasks : s.tasks fd with
      | nil => simp [System.step, htasks] at hstep
      | cons task tasks =>
          simp only [System.step, htasks] at hstep
          exact h.runTask htasks hstep
  | handleRead fd outcome => exact h.handleRead hstep
  | handleWrite fd outcome =>
      exact h.event _ hstep rfl (keepsReading_stepConnection rfl rfl)
  | hangUp fd => exact h.event _ hstep rfl (keepsReading_stepConnection rfl rfl)
  | answer fd reply => exact h.answer hstep

theorem Ok.matched (h : s.Ok memory) : s.Matched := ⟨h.held.once.once, h.own, h.fed⟩

/-- In every state that the client can reach, every promise that has a value has the
reply to its own command, no promise is resolved twice and no reply is without one. -/
theorem matched_of_reachable [DecidableEq Θ] {setup : Setup}
    (h : Reachable (System.step setup) (initial setup) s) : s.Matched :=
  (h.invariant (fun _ _ _ hs hstep => hs.step hstep) (ok_initial setup)).matched

/-- One socket, on which two commands are sent and answered. The first write takes a
part of the first command, the next one the rest of both. -/
def oneSocket : Setup := ⟨[5], id, .unbounded, by decide, by decide⟩

def pingRun : List (Act oneSocket.memory Unit) :=
  [.execute () [[80]], .execute () [[81]], .runTask 5, .runTask 5,
    .handleWrite 5 (.accepted 7), .handleWrite 5 (.accepted 15),
    .answer 5 ⟨.integer 7, trivial⟩, .answer 5 ⟨.integer 8, trivial⟩,
    .handleRead 5 (.bytes ((RESPValue.integer 7).enc ++ (RESPValue.integer 8).enc))]

theorem matched_pingRun :
    ∃ s, TransitionRun.run (System.step oneSocket) (initial oneSocket) pingRun = some s ∧
      s.resolved.map Prod.fst = [0, 1] ∧ s.Matched := by
  have hrun : (TransitionRun.run (System.step oneSocket) (initial oneSocket) pingRun).map
      (·.resolved.map Prod.fst) = some [0, 1] := by decide +kernel
  obtain ⟨s, hs, hresolved⟩ := Option.map_eq_some_iff.mp hrun
  exact ⟨s, hs, hresolved, matched_of_reachable ⟨pingRun, hs⟩⟩

end System

end SimpleRedis.Redis
