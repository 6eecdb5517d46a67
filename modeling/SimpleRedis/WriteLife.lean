import SimpleRedis.ConnectionMove

/-!
# What becomes of submitted buffers

A `Life` is what can be seen of the writes of one connection between its creation
and its end: the buffers submitted, the bytes that the kernel has accepted and the
callbacks that were invoked. The write queue of the connection is at every moment
the part of the submitted buffers that is not done, with the offset of the front
entry between what is accepted and what is done.
-/
namespace SimpleRedis.Net

open TransitionRun

variable {F : Type*}

structure Life (F : Type*) where
  submitted : List (Submission F) := []
  accepted : List CChar := []
  invoked : List (WriteCallback F × Bool) := []

/-- The lives of the connections of one descriptor, the last of them still open. -/
structure Lives (F : Type*) where
  ended : List (Life F) := []
  current : Life F := {}

namespace Life

def observe (life : Life F) : Effect F → Life F
  | .queued _ buffer callback =>
      { life with submitted := life.submitted ++ [⟨buffer, callback⟩] }
  | .accepted _ bytes => { life with accepted := life.accepted ++ bytes }
  | .wrote _ callback success => { life with invoked := life.invoked ++ [(callback, success)] }
  | _ => life

end Life

namespace Lives

def observe (lives : Lives F) : Effect F → Lives F
  | .closed _ => { ended := lives.ended ++ [lives.current], current := {} }
  | effect => { lives with current := lives.current.observe effect }

end Lives

def livesOf (fd : Fd) (trace : List (Effect F)) : Lives F :=
  (trace.filter (·.fd = fd)).foldl Lives.observe {}

/-- The bytes of some submissions. -/
def bytesOf (submissions : List (Submission F)) : List CChar :=
  (submissions.map (·.buffer)).flatten

/-- Everything that was submitted in some lives. -/
def Lives.submitted (lives : Lives F) : List (Submission F) :=
  (lives.ended ++ [lives.current]).flatMap (·.submitted)

/-- What a step hands over to be written to a descriptor. -/
def Op.submittedTo (fd : Fd) (op : Op F) : List (Submission F) :=
  if op.fd = fd then op.submissions else []

namespace Life

/-- The submitted buffers are those that are done and a rest; what is accepted is a
prefix of their bytes that reaches `offset` bytes beyond what is done. -/
structure Accounted (life : Life F) (done rest : List (Submission F)) (offset : ℕ) : Prop where
  submitted : life.submitted = done ++ rest
  accepted_prefix : life.accepted <+: bytesOf life.submitted
  done_accepted : bytesOf done <+: life.accepted
  length_accepted : life.accepted.length = (bytesOf done).length + offset

/-- The account of a connection that is still open: what it has done is called back,
and its queue holds the rest. -/
def Open (life : Life F) (queue : List (WriteMetaInfo F)) : Prop :=
  ∃ done, life.Accounted done (queue.map (·.submission))
      ((queue.head?.map (·.offset)).getD 0) ∧
    life.invoked = callsOf true done

/-- The account of a connection that is gone: every callback has run once. -/
def Ended (life : Life F) : Prop :=
  ∃ done rest offset, life.Accounted done rest offset ∧
    life.invoked = callsOf true done ++ callsOf false rest ∧
    life.invoked.map Prod.fst = life.submitted.filterMap (·.callback)

end Life

/-- Every life that has ended and every open one has its account, and the buffers of the lives
are those that the write tasks have brought, with their callbacks. -/
structure WritesAccounted (tasks : List (Op F)) (e : Execution F) : Prop where
  submitted : ∀ fd, (livesOf fd e.trace).submitted = tasks.flatMap (·.submittedTo fd)
  ended : ∀ fd, ∀ life ∈ (livesOf fd e.trace).ended, life.Ended
  current : ∀ fd conn, e.loop.connections fd = some conn →
    (livesOf fd e.trace).current.Open conn.writeQueue
  closed : ∀ fd, e.loop.connections fd = none → (livesOf fd e.trace).current = {}

/-- The steps that end a connection: a close, and an error of a read or of a write
that has bytes to offer. -/
def EndsConnection (old : Option (Connection F)) : Op F → Prop
  | .close _ | .handleRead _ .error _ => True
  | .handleWrite _ .error => ∀ conn, old = some conn → conn.iovs ≠ []
  | _ => False

section Calls

variable (success : Bool) (xs ys : List (Submission F))

@[simp] theorem bytesOf_append : bytesOf (xs ++ ys) = bytesOf xs ++ bytesOf ys := by
  simp [bytesOf]

@[simp] theorem callsOf_append :
    callsOf success (xs ++ ys) = callsOf success xs ++ callsOf success ys := by
  simp [callsOf]

theorem callsOf_cons (s : Submission F) :
    callsOf success (s :: xs) = (s.callback.map (·, success)).toList ++ callsOf success xs := by
  cases h : s.callback <;> simp [callsOf, h]

theorem callsOf_map_fst : (callsOf success xs).map Prod.fst = xs.filterMap (·.callback) := by
  rw [callsOf, List.map_filterMap]
  congr 1
  funext s
  cases s.callback <;> rfl

end Calls

/-- The bytes of the front entry that are accepted already. -/
def frontSent (queue : List (WriteMetaInfo F)) : List CChar :=
  (queue.head?.map fun m => m.buffer.take m.offset).getD []

/-- Only the front entry has been sent in part. -/
def TailUnsent (queue : List (WriteMetaInfo F)) : Prop := ∀ m ∈ queue.tail, m.offset = 0

section Queue

variable {m : WriteMetaInfo F} {queue : List (WriteMetaInfo F)}

theorem frontSent_append_unsent (m : WriteMetaInfo F) :
    m.buffer.take m.offset ++ m.unsent = m.buffer := List.take_append_drop _ _

theorem TailUnsent.of_cons (h : TailUnsent (m :: queue)) : TailUnsent queue :=
  fun m' hm' => h m' (List.mem_of_mem_tail hm')

/-- Without its front entry nothing of a queue is sent. -/
theorem TailUnsent.frontSent_eq_nil (h : TailUnsent (m :: queue)) : frontSent queue = [] := by
  cases queue with
  | nil => rfl
  | cons m' queue =>
      have hoffset : m'.offset = 0 := h m' List.mem_cons_self
      simp [frontSent, hoffset]

/-- The unsent bytes of a queue, the front entry's first. -/
def unsentOf (queue : List (WriteMetaInfo F)) : List CChar := (queue.map (·.unsent)).flatten

theorem unsentOf_cons : unsentOf (m :: queue) = m.unsent ++ unsentOf queue := rfl

theorem frontSent_cons : frontSent (m :: queue) = m.buffer.take m.offset := rfl

/-- What `finish` takes off the queue is done, and the accepted bytes are those of
the done entries and of the part of the new front entry. -/
theorem finish_spec (n : ℕ) (htail : TailUnsent queue) :
    ∃ done, queue.map (·.submission) =
        done ++ (Connection.finish n queue).1.map (·.submission) ∧
      (Connection.finish n queue).2.map (·, true) = callsOf true done ∧
      frontSent queue ++ (unsentOf queue).take n =
        bytesOf done ++ frontSent (Connection.finish n queue).1 ∧
      TailUnsent (Connection.finish n queue).1 := by
  induction queue generalizing n with
  | nil => exact ⟨[], rfl, rfl, by simp [frontSent, unsentOf, bytesOf, Connection.finish], htail⟩
  | cons m queue ih =>
      rw [Connection.finish]
      by_cases hzero : n = 0
      · rw [if_pos hzero]
        exact ⟨[], rfl, rfl, by simp [bytesOf, hzero], htail⟩
      · rw [if_neg hzero]
        by_cases hwhole : m.unsent.length ≤ n
        · rw [dif_pos hwhole]
          obtain ⟨done, hqueue, hcalls, hbytes, htail'⟩ := ih (n - m.unsent.length) htail.of_cons
          refine ⟨m.submission :: done, ?_, ?_, ?_, htail'⟩
          · rw [List.map_cons, hqueue, List.cons_append]
          · rw [List.map_append, hcalls, callsOf_cons]
            congr 1
            cases h : m.callback <;> simp [WriteMetaInfo.submission, h]
          · rw [htail.frontSent_eq_nil, List.nil_append] at hbytes
            rw [frontSent_cons, unsentOf_cons, List.take_append, List.take_of_length_le hwhole,
              hbytes, ← List.append_assoc, frontSent_append_unsent, ← List.append_assoc]
            rfl
        · rw [dif_neg hwhole]
          refine ⟨[], rfl, rfl, ?_, htail⟩
          have hlt : n ≤ m.unsent.length := Nat.le_of_not_le hwhole
          rw [frontSent_cons, unsentOf_cons, List.take_append_of_le_length hlt]
          exact List.take_add.symm

theorem unsentOf_append (queue queue' : List (WriteMetaInfo F)) :
    unsentOf (queue ++ queue') = unsentOf queue ++ unsentOf queue' := by
  simp [unsentOf]

/-- One `writev` offers the bytes of the window. -/
theorem flatten_iovs (conn : Connection F) : conn.iovs.flatten = unsentOf conn.window := by
  unfold Connection.iovs unsentOf
  induction conn.window with
  | nil => rfl
  | cons m window ih =>
      rw [List.map_cons, List.filter_cons]
      split
      · rw [List.flatten_cons, ih, List.flatten_cons]
      · rename_i hempty
        rw [ih, List.flatten_cons]
        simp_all

/-- One `writev` offers the first bytes of the queue. -/
theorem iovs_prefix (conn : Connection F) : conn.iovs.flatten <+: unsentOf conn.writeQueue := by
  refine ⟨unsentOf (conn.writeQueue.drop iovMax), ?_⟩
  rw [flatten_iovs, Connection.window, ← unsentOf_append, List.take_append_drop]

end Queue

/-- The queue of a connection fits its life so far. -/
structure Kept (queue : List (WriteMetaInfo F)) (life : Life F) : Prop where
  account : ∃ done, life.submitted = done ++ queue.map (·.submission) ∧
    life.accepted = bytesOf done ++ frontSent queue ∧ life.invoked = callsOf true done
  tail : TailUnsent queue

section Kept

variable {queue : List (WriteMetaInfo F)} {life : Life F} {fd : Fd}

theorem kept_nil : Kept ([] : List (WriteMetaInfo F)) {} :=
  ⟨⟨[], rfl, rfl, rfl⟩, fun _ hm => nomatch hm⟩

theorem frontSent_append_entry (s : Submission F) :
    frontSent (queue ++ [s.entry]) = frontSent queue := by
  cases queue <;> rfl

theorem kept_queued (h : Kept queue life) (s : Submission F) :
    Kept (queue ++ [s.entry]) { life with submitted := life.submitted ++ [s] } := by
  obtain ⟨⟨done, hsubmitted, haccepted, hinvoked⟩, htail⟩ := h
  refine ⟨⟨done, ?_, ?_, hinvoked⟩, fun m hm => ?_⟩
  · simp [hsubmitted, WriteMetaInfo.submission, Submission.entry, WriteMetaInfo.mk']
  · rw [frontSent_append_entry]
    exact haccepted
  · cases queue with
    | nil => cases hm
    | cons m' queue =>
        rcases List.mem_append.mp hm with hm | hm
        · exact htail m hm
        · rw [List.mem_singleton.mp hm]
          rfl

theorem bytesOf_submission (htail : TailUnsent queue) :
    bytesOf (queue.map (·.submission)) = frontSent queue ++ unsentOf queue := by
  induction queue with
  | nil => rfl
  | cons m queue ih =>
      have hrest := ih htail.of_cons
      rw [htail.frontSent_eq_nil, List.nil_append] at hrest
      rw [frontSent_cons, unsentOf_cons, ← List.append_assoc, frontSent_append_unsent, ← hrest]
      rfl

theorem length_frontSent :
    (frontSent queue).length = (queue.head?.map (·.offset)).getD 0 := by
  cases queue with
  | nil => rfl
  | cons m queue =>
      rw [frontSent_cons, List.length_take, Nat.min_eq_left m.offset_le]
      rfl

theorem Kept.open' (h : Kept queue life) : life.Open queue := by
  obtain ⟨⟨done, hsubmitted, haccepted, hinvoked⟩, htail⟩ := h
  refine ⟨done, ⟨hsubmitted, ?_, ?_, ?_⟩, hinvoked⟩
  · refine ⟨unsentOf queue, ?_⟩
    rw [haccepted, hsubmitted, bytesOf_append, bytesOf_submission htail, List.append_assoc]
  · rw [haccepted]
    exact List.prefix_append _ _
  · rw [haccepted, List.length_append, length_frontSent]

/-- The callbacks of a queue that is given up fail in order. -/
theorem Kept.ended (h : Kept queue life) :
    Life.Ended { life with
      invoked := life.invoked ++ callsOf false (queue.map (·.submission)) } := by
  obtain ⟨done, haccounted, hinvoked⟩ := h.open'
  refine ⟨done, _, _, ⟨haccounted.submitted, haccounted.accepted_prefix,
    haccounted.done_accepted, haccounted.length_accepted⟩, by rw [hinvoked], ?_⟩
  rw [List.map_append, hinvoked, callsOf_map_fst, callsOf_map_fst, ← List.filterMap_append]
  exact congrArg _ haccounted.submitted.symm

end Kept

/-- The ended lives of a descriptor have their accounts, and its connection, if it
has one, fits the open life. -/
structure KeptAt (old : Option (Connection F)) (lives : Lives F) : Prop where
  ended : ∀ life ∈ lives.ended, life.Ended
  kept : ∀ conn, old = some conn → Kept conn.writeQueue lives.current
  closed : old = none → lives.current = {}

section Observe

variable {lives : Lives F} {fd : Fd} {effects : List (Effect F)}

theorem observe_quiet {effect : Effect F} (h : effect.Quiet fd) : lives.observe effect = lives := by
  obtain ⟨-, hquiet⟩ := h
  cases effect with
  | queued | accepted | wrote | closed => cases hquiet
  | read | highLevel | lowLevel | closing | accept | timer => rfl

theorem foldl_quiet (h : ∀ effect ∈ effects, effect.Quiet fd) :
    effects.foldl Lives.observe lives = lives := by
  induction effects with
  | nil => rfl
  | cons effect effects ih =>
      obtain ⟨hfirst, hrest⟩ := List.forall_mem_cons.mp h
      rw [List.foldl_cons, observe_quiet hfirst]
      exact ih hrest

theorem foldl_ofCall (calls : List (WriteCallback F × Bool)) :
    (calls.map (Effect.ofCall fd)).foldl Lives.observe lives =
      { lives with current :=
        { lives.current with invoked := lives.current.invoked ++ calls } } := by
  induction calls generalizing lives with
  | nil => simp
  | cons c calls ih =>
      rw [List.map_cons, List.foldl_cons, ih]
      simp [Lives.observe, Life.observe, Effect.ofCall]

theorem foldl_ofSubmission (submissions : List (Submission F)) :
    (submissions.map (Effect.ofSubmission fd)).foldl Lives.observe lives =
      { lives with current :=
        { lives.current with submitted := lives.current.submitted ++ submissions } } := by
  induction submissions generalizing lives with
  | nil => simp
  | cons s submissions ih =>
      rw [List.map_cons, List.foldl_cons, ih]
      simp [Lives.observe, Life.observe, Effect.ofSubmission]

end Observe

section Step

variable {old new : Option (Connection F)} {lives : Lives F} {fd : Fd}
  {submissions : List (Submission F)} {effects : List (Effect F)}

theorem KeptAt.queue (h : KeptAt old lives) : Kept (queueOf old) lives.current := by
  cases old with
  | none =>
      rw [h.closed rfl]
      exact kept_nil
  | some conn => exact h.kept conn rfl

theorem keptAt_some (h : KeptAt old lives) {conn' : Connection F} {life : Life F}
    (hkept : Kept conn'.writeQueue life) : KeptAt (some conn') { lives with current := life } := by
  refine ⟨h.ended, fun c hc => ?_, nofun⟩
  cases hc
  exact hkept

theorem kept_submissions {queue : List (WriteMetaInfo F)} {life : Life F} (h : Kept queue life)
    (submissions : List (Submission F)) :
    Kept (queue ++ submissions.map (·.entry))
      { life with submitted := life.submitted ++ submissions } := by
  induction submissions generalizing queue life with
  | nil => simpa using h
  | cons s submissions ih =>
      simpa using ih (kept_queued h s)

/-- A life ends when the callbacks of its queue have failed. -/
theorem keptAt_gone {conn : Connection F} (h : KeptAt (some conn) lives) (fd : Fd) :
    KeptAt none (Lives.observe { lives with current :=
      { lives.current with invoked :=
        lives.current.invoked ++ callsOf false (conn.writeQueue.map (·.submission)) } }
      (.closed fd)) := by
  refine ⟨fun life hlife => ?_, nofun, fun _ => rfl⟩
  rcases List.mem_append.mp hlife with hlife | hlife
  · exact h.ended life hlife
  · rw [List.mem_singleton.mp hlife]
    exact (h.kept conn rfl).ended

theorem kept_sent {conn : Connection F} {life : Life F} (h : Kept conn.writeQueue life) {n : ℕ}
    (hn : n ≤ conn.iovs.flatten.length) :
    Kept (Connection.finish n conn.writeQueue).1 { life with
      accepted := life.accepted ++ conn.iovs.flatten.take n
      invoked := life.invoked ++ (Connection.finish n conn.writeQueue).2.map (·, true) } := by
  obtain ⟨⟨done, hsubmitted, haccepted, hinvoked⟩, htail⟩ := h
  obtain ⟨done', hqueue, hdone', hbytes, htail'⟩ := finish_spec n htail
  have hoffered : conn.iovs.flatten.take n = (unsentOf conn.writeQueue).take n := by
    obtain ⟨rest, hrest⟩ := iovs_prefix conn
    rw [← hrest, List.take_append_of_le_length hn]
  refine ⟨⟨done ++ done', ?_, ?_, ?_⟩, htail'⟩
  · rw [List.append_assoc]
    exact hsubmitted.trans (congrArg (done ++ ·) hqueue)
  · show life.accepted ++ _ = _
    rw [haccepted, hoffered, bytesOf_append, List.append_assoc, hbytes, List.append_assoc]
  · show life.invoked ++ _ = _
    rw [hinvoked, hdone', callsOf_append]

/-- Every move keeps the account of its descriptor. -/
theorem Move.kept (h : Move fd submissions old new effects) (hkept : KeptAt old lives) :
    KeptAt new (effects.foldl Lives.observe lives) := by
  cases h with
  | quiet hnone hqueue hkeep heffects =>
      rw [foldl_quiet heffects]
      cases new with
      | none =>
          rw [hkeep rfl] at hkept
          exact hkept
      | some conn' =>
          have hcurrent := hkept.queue
          rw [← hqueue] at hcurrent
          exact keptAt_some hkept hcurrent
  | queued hqueue hrest =>
      rw [List.foldl_append, foldl_ofSubmission, foldl_quiet hrest]
      refine keptAt_some hkept ?_
      rw [hqueue]
      exact kept_submissions hkept.queue submissions
  | sent n hnone hold hn hqueue hrest =>
      subst hold
      rw [List.foldl_cons, List.foldl_append, foldl_ofCall, foldl_quiet hrest]
      refine keptAt_some hkept ?_
      rw [hqueue]
      exact kept_sent (hkept.kept _ rfl) hn
  | ended hnone hold hbefore hafter =>
      subst hold
      rw [List.foldl_append, List.foldl_append, List.foldl_append, foldl_quiet hbefore,
        foldl_ofCall, foldl_quiet hafter]
      exact keptAt_gone hkept fd

theorem fd_quiet (h : ∀ effect ∈ effects, effect.Quiet fd) :
    ∀ effect ∈ effects, effect.fd = fd := fun effect heffect => (h effect heffect).1

theorem fd_ofCall (calls : List (WriteCallback F × Bool)) :
    ∀ effect ∈ calls.map (Effect.ofCall fd), effect.fd = fd := by
  intro effect heffect
  obtain ⟨c, -, rfl⟩ := List.mem_map.mp heffect
  rfl

theorem fd_ofSubmission (submissions : List (Submission F)) :
    ∀ effect ∈ submissions.map (Effect.ofSubmission fd), effect.fd = fd := by
  intro effect heffect
  obtain ⟨s, -, rfl⟩ := List.mem_map.mp heffect
  rfl

/-- A move has effects at its own descriptor only. -/
theorem Move.fd_eq (h : Move fd submissions old new effects) :
    ∀ effect ∈ effects, effect.fd = fd := by
  cases h with
  | quiet hnone hqueue hkeep heffects => exact fd_quiet heffects
  | queued hqueue hrest =>
      exact List.forall_mem_append.mpr ⟨fd_ofSubmission submissions, fd_quiet hrest⟩
  | sent n hnone hold hn hqueue hrest =>
      exact List.forall_mem_cons.mpr
        ⟨rfl, List.forall_mem_append.mpr ⟨fd_ofCall _, fd_quiet hrest⟩⟩
  | ended hnone hold hbefore hafter =>
      simp only [List.forall_mem_append]
      exact ⟨⟨⟨fd_quiet hbefore, fd_ofCall _⟩, fd_quiet hafter⟩,
        List.forall_mem_singleton.mpr rfl⟩

end Step

section Trace

variable {fd : Fd} {trace effects : List (Effect F)}

theorem filter_fd_append_self (h : ∀ effect ∈ effects, effect.fd = fd) :
    (trace ++ effects).filter (·.fd = fd) = trace.filter (·.fd = fd) ++ effects := by
  rw [List.filter_append]
  exact congrArg _ (List.filter_eq_self.mpr fun effect heffect => by simpa using h effect heffect)

theorem filter_fd_append_other (h : ∀ effect ∈ effects, effect.fd ≠ fd) :
    (trace ++ effects).filter (·.fd = fd) = trace.filter (·.fd = fd) := by
  have hnone : effects.filter (·.fd = fd) = [] :=
    List.filter_eq_nil_iff.mpr fun effect heffect => by simpa using h effect heffect
  rw [List.filter_append, hnone, List.append_nil]

theorem livesOf_append_self (h : ∀ effect ∈ effects, effect.fd = fd) :
    livesOf fd (trace ++ effects) = effects.foldl Lives.observe (livesOf fd trace) := by
  rw [livesOf, filter_fd_append_self h, List.foldl_append]
  rfl

theorem livesOf_append_other (h : ∀ effect ∈ effects, effect.fd ≠ fd) :
    livesOf fd (trace ++ effects) = livesOf fd trace := by
  rw [livesOf, filter_fd_append_other h]
  rfl

end Trace

section Submissions

variable {old new : Option (Connection F)} {lives : Lives F} {fd : Fd}
  {submissions : List (Submission F)} {effects : List (Effect F)}

/-- A move adds its submissions to what its lives have submitted. -/
theorem Move.submitted (h : Move fd submissions old new effects) :
    (effects.foldl Lives.observe lives).submitted = lives.submitted ++ submissions := by
  cases h with
  | quiet hnone hqueue hkeep heffects =>
      rw [foldl_quiet heffects, hnone, List.append_nil]
  | queued hqueue hrest =>
      rw [List.foldl_append, foldl_ofSubmission, foldl_quiet hrest]
      simp [Lives.submitted]
  | sent n hnone hold hn hqueue hrest =>
      rw [List.foldl_cons, List.foldl_append, foldl_ofCall, foldl_quiet hrest, hnone]
      simp [Lives.submitted, Lives.observe, Life.observe]
  | ended hnone hold hbefore hafter =>
      rw [List.foldl_append, List.foldl_append, List.foldl_append, foldl_quiet hbefore,
        foldl_ofCall, foldl_quiet hafter, hnone]
      simp [Lives.submitted, Lives.observe]

theorem flatMap_submittedTo (fd : Fd) (past : List (Op F)) (op : Op F) :
    (past ++ [op]).flatMap (·.submittedTo fd) =
      past.flatMap (·.submittedTo fd) ++ op.submittedTo fd := by
  rw [List.flatMap_append, List.flatMap_singleton]

/-- A step adds what it hands over to the lives of its own descriptor. -/
theorem Move.submitted_append {op : Op F} {trace : List (Effect F)}
    (h : Move op.fd op.submissions old new effects) :
    (livesOf fd (trace ++ effects)).submitted =
      (livesOf fd trace).submitted ++ op.submittedTo fd := by
  rw [Op.submittedTo]
  split
  · rename_i hfd
    subst hfd
    rw [livesOf_append_self h.fd_eq, h.submitted]
  · rename_i hfd
    rw [livesOf_append_other, List.append_nil]
    exact fun effect heffect heq => hfd ((h.fd_eq effect heffect).symm.trans heq)

end Submissions

/-- The invariant: a plain loop in which every descriptor has its account. -/
structure AllKept (e : Execution F) : Prop where
  plain : e.loop.Plain
  kept : ∀ fd, KeptAt (e.loop.connections fd) (livesOf fd e.trace)

theorem allKept_fresh : AllKept (Execution.fresh : Execution F) :=
  ⟨EventLoopThread.plain_fresh, fun _ =>
    ⟨fun _ hlife => (nomatch hlife), fun _ hconn => (nomatch hconn), fun _ => rfl⟩⟩

theorem allKept_step {e e' : Execution F} {op : Op F} (h : AllKept e)
    (hstep : e.step op = some e') : AllKept e' := by
  obtain ⟨hpossible, hloop, htrace⟩ := Execution.step_eq_some hstep
  obtain ⟨new, events, hput, -, hmove⟩ :=
    EventLoopThread.exec_move (h.plain.plainAt op.fd) hpossible
  rw [hput] at hloop
  refine ⟨hloop ▸ h.plain.put _ _ _, fun fd => ?_⟩
  rw [hloop, htrace]
  by_cases hfd : fd = op.fd
  · subst hfd
    rw [EventLoopThread.connections_put, livesOf_append_self hmove.fd_eq]
    exact hmove.kept (h.kept op.fd)
  · rw [EventLoopThread.connections_put_of_ne _ _ _ _ hfd, livesOf_append_other]
    · exact h.kept fd
    · exact fun effect heffect heq => hfd (heq.symm.trans (hmove.fd_eq effect heffect))

/-- The invariant of a run: every descriptor has its account, and its lives have submitted
what the steps have handed over. -/
structure Submitted (past : List (Op F)) (e : Execution F) : Prop where
  kept : AllKept e
  submitted : ∀ fd, (livesOf fd e.trace).submitted = past.flatMap (·.submittedTo fd)

theorem submitted_step {past : List (Op F)} {e e' : Execution F} {op : Op F}
    (h : Submitted past e) (hstep : e.step op = some e') : Submitted (past ++ [op]) e' := by
  refine ⟨allKept_step h.kept hstep, fun fd => ?_⟩
  obtain ⟨hpossible, -, htrace⟩ := Execution.step_eq_some hstep
  obtain ⟨new, -, -, -, hmove⟩ :=
    EventLoopThread.exec_move (h.kept.plain.plainAt op.fd) hpossible
  rw [htrace, hmove.submitted_append, h.submitted, flatMap_submittedTo]

theorem submitted_of_run {tasks : List (Op F)} {e : Execution F}
    (h : run Execution.step .fresh tasks = some e) : Submitted tasks e :=
  run_history (fun _ _ _ _ hs hstep => submitted_step hs hstep)
    ⟨allKept_fresh, fun _ => rfl⟩ h

theorem Submitted.writesAccounted {tasks : List (Op F)} {e : Execution F}
    (h : Submitted tasks e) : WritesAccounted tasks e where
  submitted := h.submitted
  ended fd := (h.kept.kept fd).ended
  current fd conn hconn := ((h.kept.kept fd).kept conn hconn).open'
  closed fd := (h.kept.kept fd).closed

theorem stepConnection_ends {op : Op F} {old : Option (Connection F)}
    (h : EndsConnection old op) : (stepConnection old op).1 = none := by
  cases old with
  | none =>
      cases op with
      | close | handleRead | handleWrite => rfl
      | registerRead | writeOnce | writeBatch | registerHighLevel | registerLowLevel
      | registerClose => exact h.elim
  | some conn =>
      cases op with
      | close => rfl
      | handleRead fd outcome consumed =>
          cases outcome with
          | error => rfl
          | bytes | zero | again => exact h.elim
      | handleWrite fd outcome =>
          cases outcome with
          | error => simp only [stepConnection, if_neg (h conn rfl)]
          | accepted | again => exact h.elim
      | registerRead | writeOnce | writeBatch | registerHighLevel | registerLowLevel
      | registerClose => exact h.elim

/-- No other step takes a connection away. -/
theorem endsConnection_of_none {op : Op F} {conn : Connection F}
    (h : (stepConnection (some conn) op).1 = none) : EndsConnection (some conn) op := by
  cases op with
  | close => trivial
  | handleRead fd outcome consumed =>
      cases outcome with
      | error => trivial
      | bytes | zero | again => cases h
  | handleWrite fd outcome =>
      by_cases hiovs : conn.iovs = []
      · simp only [stepConnection, if_pos hiovs] at h
        cases h
      · simp only [stepConnection, if_neg hiovs] at h
        cases outcome with
        | error =>
            intro conn' hconn
            cases hconn
            exact hiovs
        | accepted | again => cases h
  | registerRead | writeOnce | writeBatch | registerHighLevel | registerLowLevel
  | registerClose => cases h

/-- In every run of the loop the writes of every connection have their account, and the
steps that end a connection leave no open one. -/
theorem writesAccounted_of_run {tasks : List (Op F)} {e : Execution F}
    (h : run Execution.step .fresh tasks = some e) :
    WritesAccounted tasks e ∧ ∀ op e', EndsConnection (e.loop.connections op.fd) op →
      e.step op = some e' → e'.loop.connections op.fd = none := by
  have hsubmitted := submitted_of_run h
  refine ⟨hsubmitted.writesAccounted, fun op e' hends hstep => ?_⟩
  obtain ⟨-, hloop, -⟩ := Execution.step_eq_some hstep
  obtain ⟨⟨events, hput⟩, -⟩ :=
    EventLoopThread.exec_refines op (hsubmitted.kept.plain.plainAt op.fd)
  rw [hloop, hput, EventLoopThread.connections_put]
  exact stepConnection_ends hends

/-- A write and a batch; `writev` accepts the first two buffers and a part of the third,
then it fails. -/
def failedWriteRun : List (Op ℕ) :=
  [.writeOnce 3 0 (some 0) [1, 2], .writeBatch 3 0 1 [[3], [4, 5], [6]],
    .handleWrite 3 (.accepted 4), .handleWrite 3 .error]

theorem writesAccounted_failedWriteRun :
    ∃ e, run Execution.step Execution.fresh failedWriteRun = some e ∧
      (livesOf 3 e.trace).ended.map (·.invoked) =
        [[(.once 0, true), (.batch 1 0, true), (.batch 1 1, false), (.batch 1 2, false)]] ∧
      WritesAccounted failedWriteRun e ∧
      ∀ op e', EndsConnection (e.loop.connections op.fd) op →
        e.step op = some e' → e'.loop.connections op.fd = none :=
  ⟨_, rfl, rfl, writesAccounted_of_run rfl⟩

end SimpleRedis.Net
