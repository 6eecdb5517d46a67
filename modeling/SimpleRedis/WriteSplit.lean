import SimpleRedis.WriteDrain
import SimpleRedis.Backpressure

/-!
# Writes that are cut

A buffer can leave in any number of pieces, and other buffers can be submitted between two of
them. It makes no difference in the end: what is queued and which callbacks have run is what one
`writev` would have left that had been given the bytes at once, behind the last submission.
-/
namespace SimpleRedis.Net

open TransitionRun Connection

variable {F : Type*}

/-- The queue and the callbacks if all buffers had been queued first and the accepted bytes had
been written at once. -/
def Life.atOnce (life : Life F) : List (WriteMetaInfo F) × List (WriteCallback F) :=
  finish life.accepted.length (life.submitted.map (·.entry))

/-- A connection that is open has what it would have. -/
structure Life.OpenAtOnce (life : Life F) (queue : List (WriteMetaInfo F)) : Prop where
  queue_eq : queue = life.atOnce.1
  invoked : life.invoked = life.atOnce.2.map (·, true)
  accepted : life.accepted <+: bytesOf life.submitted

/-- A connection that has ended has failed the rest. -/
structure Life.EndedAtOnce (life : Life F) : Prop where
  invoked : life.invoked = life.atOnce.2.map (·, true) ++
    callsOf false (life.atOnce.1.map (·.submission))
  accepted : life.accepted <+: bytesOf life.submitted

section Finish

variable {queue : List (WriteMetaInfo F)}

theorem skip_skip (m : WriteMetaInfo F) {a b : ℕ} (ha : a < m.unsent.length)
    (hb : b < (m.skip a ha).unsent.length) (hab : a + b < m.unsent.length) :
    (m.skip a ha).skip b hb = m.skip (a + b) hab := by
  simp only [WriteMetaInfo.skip, Nat.add_assoc]

/-- Two writes are one write of the bytes of both. -/
theorem finish_add (a b : ℕ) (queue : List (WriteMetaInfo F)) :
    finish (a + b) queue =
      ((finish b (finish a queue).1).1, (finish a queue).2 ++ (finish b (finish a queue).1).2) := by
  induction queue generalizing a with
  | nil => rfl
  | cons m queue ih =>
      by_cases hzero : a = 0
      · subst hzero
        rw [Nat.zero_add, finish_zero, List.nil_append]
      by_cases hwhole : m.unsent.length ≤ a
      · have hsub : a + b - m.unsent.length = a - m.unsent.length + b := by omega
        rw [finish, finish, if_neg (by omega), if_neg hzero, dif_pos (by omega), dif_pos hwhole,
          hsub, ih]
        simp only [List.append_assoc]
      · have hlt : a < m.unsent.length := by omega
        have hrest : (m.skip a hlt).unsent.length = m.unsent.length - a := by
          rw [unsent_skip, List.length_drop]
        have hfirst : finish a (m :: queue) = (m.skip a hlt :: queue, []) := by
          rw [finish, if_neg hzero, dif_neg hwhole]
        rw [hfirst, List.nil_append]
        by_cases hb : b = 0
        · rw [hb, Nat.add_zero, finish_zero, hfirst]
        rw [finish, finish, if_neg (by omega), if_neg hb]
        by_cases hall : m.unsent.length ≤ a + b
        · have hsub : a + b - m.unsent.length = b - (m.skip a hlt).unsent.length := by omega
          rw [dif_pos hall, dif_pos (by omega), hsub]
          rfl
        · rw [dif_neg hall, dif_neg (by omega), skip_skip]

/-- Entries behind the bytes that are written stay as they are. -/
theorem finish_append {n : ℕ} (rest : List (WriteMetaInfo F))
    (h : n ≤ (unsentOf queue).length) :
    finish n (queue ++ rest) = ((finish n queue).1 ++ rest, (finish n queue).2) := by
  induction queue generalizing n with
  | nil =>
      cases Nat.le_zero.mp h
      rw [List.nil_append, finish_zero, finish_zero, List.nil_append]
  | cons m queue ih =>
      rw [unsentOf_cons, List.length_append] at h
      rw [List.cons_append, finish, finish]
      by_cases hzero : n = 0
      · rw [if_pos hzero, if_pos hzero, List.cons_append]
      rw [if_neg hzero, if_neg hzero]
      by_cases hwhole : m.unsent.length ≤ n
      · rw [dif_pos hwhole, dif_pos hwhole, ih (by omega)]
      · rw [dif_neg hwhole, dif_neg hwhole, List.cons_append]

end Finish

section Life

variable {life : Life F} {queue : List (WriteMetaInfo F)} {conn : Connection F}

theorem openAtOnce_nil : Life.OpenAtOnce {} ([] : List (WriteMetaInfo F)) :=
  ⟨rfl, rfl, List.prefix_rfl⟩

theorem Life.OpenAtOnce.queued (h : life.OpenAtOnce queue) (submissions : List (Submission F)) :
    Life.OpenAtOnce { life with submitted := life.submitted ++ submissions }
      (queue ++ submissions.map (·.entry)) := by
  have hbytes : life.accepted.length ≤ (unsentOf (life.submitted.map (·.entry))).length := by
    rw [unsentOf_entries]
    exact h.accepted.length_le
  have happend : Life.atOnce { life with submitted := life.submitted ++ submissions } =
      (life.atOnce.1 ++ submissions.map (·.entry), life.atOnce.2) := by
    rw [Life.atOnce, List.map_append]
    exact finish_append _ hbytes
  refine ⟨?_, ?_, ?_⟩
  · rw [happend, h.queue_eq]
  · rw [happend]
    exact h.invoked
  · rw [bytesOf_append]
    exact h.accepted.trans (List.prefix_append _ _)

theorem Life.OpenAtOnce.sent (h : life.OpenAtOnce conn.writeQueue) {n : ℕ}
    (hn : n ≤ conn.iovs.flatten.length) :
    Life.OpenAtOnce { life with
        accepted := life.accepted ++ conn.iovs.flatten.take n
        invoked := life.invoked ++ (finish n conn.writeQueue).2.map (·, true) }
      (finish n conn.writeQueue).1 := by
  have hlength : (life.accepted ++ conn.iovs.flatten.take n).length = life.accepted.length + n := by
    rw [List.length_append, List.length_take, Nat.min_eq_left hn]
  have hsplit := finish_add life.accepted.length n (life.submitted.map (·.entry))
  rw [← Life.atOnce, ← h.queue_eq, ← hlength] at hsplit
  refine ⟨?_, ?_, ?_⟩
  · exact (congrArg Prod.fst hsplit).symm
  · refine Eq.trans ?_ (congrArg (List.map (·, true)) (congrArg Prod.snd hsplit)).symm
    rw [List.map_append, ← h.invoked]
  · -- what is offered are the first bytes that are left
    obtain ⟨more, hmore⟩ := h.accepted
    have hleft : unsentOf conn.writeQueue = more := by
      rw [h.queue_eq, Life.atOnce, unsentOf_finish, unsentOf_entries, ← hmore, List.drop_left]
    have hoffered : conn.iovs.flatten.take n <+: more :=
      (List.take_prefix _ _).trans (hleft ▸ iovs_prefix conn)
    obtain ⟨rest, rfl⟩ := hoffered
    exact ⟨rest, by rw [List.append_assoc, hmore]⟩

theorem Life.OpenAtOnce.ended (h : life.OpenAtOnce queue) :
    Life.EndedAtOnce { life with
      invoked := life.invoked ++ callsOf false (queue.map (·.submission)) } where
  invoked := by
    change life.invoked ++ _ = life.atOnce.2.map (·, true) ++ _
    rw [h.invoked, h.queue_eq]
    rfl
  accepted := h.accepted

end Life

/-- Every life of a descriptor is as if its bytes had been written at once. -/
structure LivesAtOnce (old : Option (Connection F)) (lives : Lives F) : Prop where
  current : lives.current.OpenAtOnce (queueOf old)
  ended : ∀ life ∈ lives.ended, life.EndedAtOnce

section Step

variable {old new : Option (Connection F)} {lives : Lives F} {fd : Fd}
  {submissions : List (Submission F)} {effects : List (Effect F)}

theorem Move.atOnce (h : Move fd submissions old new effects) (hlives : LivesAtOnce old lives) :
    LivesAtOnce new (effects.foldl Lives.observe lives) := by
  cases h with
  | quiet hnone hqueue hkeep heffects =>
      rw [foldl_quiet heffects]
      exact ⟨hqueue ▸ hlives.current, hlives.ended⟩
  | @queued conn' rest hqueue hrest =>
      rw [List.foldl_append, foldl_ofSubmission, foldl_quiet hrest]
      refine ⟨?_, hlives.ended⟩
      change Life.OpenAtOnce _ conn'.writeQueue
      rw [hqueue]
      exact hlives.current.queued submissions
  | @sent conn conn' rest n hnone hold hn hqueue hrest =>
      subst hold
      rw [List.foldl_cons, List.foldl_append, foldl_ofCall, foldl_quiet hrest]
      refine ⟨?_, hlives.ended⟩
      change Life.OpenAtOnce _ conn'.writeQueue
      rw [hqueue]
      exact hlives.current.sent hn
  | ended hnone hold hbefore hafter =>
      subst hold
      rw [List.foldl_append, List.foldl_append, List.foldl_append, foldl_quiet hbefore,
        foldl_ofCall, foldl_quiet hafter]
      refine ⟨openAtOnce_nil, fun life hlife => ?_⟩
      rcases List.mem_append.mp hlife with hlife | hlife
      · exact hlives.ended life hlife
      · rw [List.mem_singleton.mp hlife]
        exact hlives.current.ended

/-- Every connection of a loop. -/
structure AllAtOnce (e : Execution F) : Prop where
  plain : e.loop.Plain
  lives : ∀ fd, LivesAtOnce (e.loop.connections fd) (livesOf fd e.trace)

theorem allAtOnce_step {e e' : Execution F} {op : Op F} (h : AllAtOnce e)
    (hstep : e.step op = some e') : AllAtOnce e' := by
  obtain ⟨hpossible, hloop, htrace⟩ := Execution.step_eq_some hstep
  obtain ⟨new, events, hput, -, hmove⟩ :=
    EventLoopThread.exec_move (h.plain.plainAt op.fd) hpossible
  rw [hput] at hloop
  refine ⟨hloop ▸ h.plain.put _ _ _, fun fd => ?_⟩
  rw [hloop, htrace]
  by_cases hfd : fd = op.fd
  · subst hfd
    rw [EventLoopThread.connections_put, livesOf_append_self hmove.fd_eq]
    exact hmove.atOnce (h.lives op.fd)
  · rw [EventLoopThread.connections_put_of_ne _ _ _ _ hfd, livesOf_append_other]
    · exact h.lives fd
    · exact fun effect heffect heq => hfd (heq.symm.trans (hmove.fd_eq effect heffect))

theorem allAtOnce_fresh : AllAtOnce (Execution.fresh : Execution F) :=
  ⟨EventLoopThread.plain_fresh, fun _ => ⟨openAtOnce_nil, List.forall_mem_nil _⟩⟩

/-- However the bytes of a connection were cut into writes and the writes mixed with submissions,
and whether it is open or has ended, its queue and its callbacks are those of one write of all the
accepted bytes behind the last submission. The submissions are those of the write tasks. -/
theorem atOnce_of_run {tasks : List (Op F)} {e : Execution F}
    (h : run Execution.step Execution.fresh tasks = some e) (fd : Fd) :
    (livesOf fd e.trace).submitted = tasks.flatMap (·.submittedTo fd) ∧
      (livesOf fd e.trace).current.OpenAtOnce (queueOf (e.loop.connections fd)) ∧
      ∀ life ∈ (livesOf fd e.trace).ended, life.EndedAtOnce := by
  have hall := run_invariant (fun _ _ _ hall hstep => allAtOnce_step hall hstep) allAtOnce_fresh h
  exact ⟨(submitted_of_run h).submitted fd, (hall.lives fd).current, (hall.lives fd).ended⟩

end Step

/-- The first of three bytes leaves before a batch is submitted, and a part of the batch with the
rest of them. -/
def cutWrites : List (Op ℕ) :=
  [.writeOnce 5 0 (some 1) [65, 66, 67], .handleWrite 5 (.accepted 1),
    .writeBatch 5 0 2 [[68], [69, 70]], .handleWrite 5 .again, .handleWrite 5 (.accepted 4)]

theorem atOnce_of_run_cut :
    ∃ e, run Execution.step (Execution.fresh : Execution ℕ) cutWrites = some e ∧
      (livesOf 5 e.trace).current.invoked = [(.once 1, true), (.batch 2 0, true)] ∧
      (livesOf 5 e.trace).submitted = cutWrites.flatMap (·.submittedTo 5) ∧
      (livesOf 5 e.trace).current.OpenAtOnce (queueOf (e.loop.connections 5)) := by
  have hrun : run Execution.step (Execution.fresh : Execution ℕ) cutWrites = some _ := rfl
  obtain ⟨hsubmitted, hopen, -⟩ := atOnce_of_run hrun 5
  exact ⟨_, hrun, rfl, hsubmitted, hopen⟩

end SimpleRedis.Net
