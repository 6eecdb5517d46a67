import SimpleRedis.Wakeup

/-!
# A loop that posts to itself

The queue of a loop is bounded, and a post to a full queue is tried again until it
succeeds. Only the loop's own thread takes tasks out. A task or a handler that posts to
its own loop while the queue is full waits for itself, and it waits for ever.
-/
namespace SimpleRedis.Wakeup

open TransitionRun

variable {P T : Type*}

/-- The tasks that `task_queue_` holds: its ring of 512 cells keeps one of them free. -/
def capacity : ℕ := 512 - 1

/-- The tasks that are still to be pushed. -/
def Post.rest : Post T → List T
  | .posting rest => rest
  | .idle | .signal => []

namespace EventLoop

/-- The tasks that a thread in `postTask` or `postTaskBatch` has still to push. -/
def toPush (s : EventLoop P T) (t : Option P) : List T := (s.post t).rest

/-- A step of a loop with a bounded queue. A `push` that finds it full returns false. -/
def stepBounded [DecidableEq P] (cap : ℕ) (s : EventLoop P T) : Act P T → Option (EventLoop P T)
  | .post t => if s.toPush t ≠ [] ∧ cap ≤ s.queue.length then some s else s.stepPost t
  | act => s.step act

end EventLoop

/-- The step is one of a thread that posts. -/
def Act.isPost : Act P T → Bool
  | .call _ _ | .post _ => true
  | .wake | .event | .loop | .flush => false

/-- The loop's thread is in the retry loop of its own post while the queue is full. -/
def Blocked (cap : ℕ) (s : EventLoop P T) : Prop := s.toPush none ≠ [] ∧ cap ≤ s.queue.length

/-- While the loop's thread has a task to push there is room for it: its post starts
with room, it leaves room for its own next task, and no other thread takes the last
free place. -/
def HasRoom (cap : ℕ) (s : EventLoop P T) : Act P T → Prop
  | .call none tasks => tasks ≠ [] → s.queue.length < cap
  | .post none => 1 < (s.toPush none).length → s.queue.length + 1 < cap
  | .post (some p) => s.toPush (some p) ≠ [] → s.toPush none ≠ [] → s.queue.length + 1 < cap
  | _ => True

/-- The loop's thread takes at most a task out of the queue, and while it posts it does
not get on. -/
theorem stepLoop_spec {s s' : EventLoop P T} (hstep : s.stepLoop = some s') :
    s'.post = s.post ∧ s'.queue.length ≤ s.queue.length ∧
      (s.loop = .running ∨ s.loop = .handling → s.post none = .idle) := by
  unfold EventLoop.stepLoop at hstep
  cases hloop : s.loop with
  | wait =>
      rw [hloop] at hstep
      cases hstep
  | handling | running =>
      simp only [hloop] at hstep
      split at hstep
      · rename_i hidle
        cases hstep
        exact ⟨rfl, Nat.le_refl _, fun _ => hidle⟩
      · cases hstep
  | popping =>
      simp only [hloop] at hstep
      split at hstep
      · cases hstep
        exact ⟨rfl, Nat.le_refl _, by simp⟩
      · rename_i task queue hqueue
        cases hstep
        refine ⟨rfl, ?_, by simp⟩
        rw [hqueue]
        exact Nat.le_succ _
  | reading | recheck | exchange =>
      simp only [hloop] at hstep
      split at hstep <;> cases hstep <;> exact ⟨rfl, Nat.le_refl _, by simp⟩
  | storing | signal =>
      simp only [hloop] at hstep
      cases hstep
      exact ⟨rfl, Nat.le_refl _, by simp⟩

section Steps

variable [DecidableEq P] {cap : ℕ} {s s' : EventLoop P T} {a : Act P T}

/-- What a step does to the queue and to the posts. -/
inductive Posted (cap : ℕ) (s s' : EventLoop P T) : Act P T → Prop where
  | call {t : Option P} {tasks : List T} (hnone : s.toPush t = [])
      (hpush : ∀ t', s'.toPush t' = if t' = t then tasks else s.toPush t')
      (hqueue : s'.queue = s.queue) : Posted cap s s' (.call t tasks)
  | push {t : Option P} {task : T} {rest : List T} (htasks : s.toPush t = task :: rest)
      (hroom : s.queue.length < cap)
      (hpush : ∀ t', s'.toPush t' = if t' = t then rest else s.toPush t')
      (hqueue : s'.queue = s.queue ++ [task]) : Posted cap s s' (.post t)
  | full {t : Option P} (htasks : s.toPush t ≠ []) (hfull : cap ≤ s.queue.length)
      (hsame : s' = s) : Posted cap s s' (.post t)
  | signal {t : Option P} (hnone : s.toPush t = []) (hpush : ∀ t', s'.toPush t' = s.toPush t')
      (hqueue : s'.queue = s.queue) : Posted cap s s' (.post t)
  | loop {a : Act P T} (hact : a.isPost = false) (hpush : ∀ t', s'.toPush t' = s.toPush t')
      (hqueue : s'.queue.length ≤ s.queue.length) : Posted cap s s' a

theorem toPush_setPost (s : EventLoop P T) (t t' : Option P) (pc : Post T) :
    (s.setPost t pc).toPush t' = if t' = t then pc.rest else s.toPush t' := by
  by_cases ht : t' = t
  · subst ht
    simp [EventLoop.toPush, EventLoop.setPost]
  · simp [EventLoop.toPush, EventLoop.setPost, ht]

/-- A thread that neither had nor gets a task to push. -/
theorem toPush_setPost_nil {t : Option P} {pc : Post T} (hnone : s.toPush t = [])
    (hpc : pc.rest = []) (t' : Option P) : (s.setPost t pc).toPush t' = s.toPush t' := by
  rw [toPush_setPost]
  split
  · rename_i ht
    rw [ht, hnone, hpc]
  · rfl

theorem posted_post {t : Option P} (hstep : s.stepBounded cap (.post t) = some s') :
    Posted cap s s' (.post t) := by
  simp only [EventLoop.stepBounded] at hstep
  split at hstep
  · rename_i hfull
    cases hstep
    exact .full hfull.1 hfull.2 rfl
  · rename_i hroom
    unfold EventLoop.stepPost at hstep
    cases hpost : s.post t with
    | idle =>
        rw [hpost] at hstep
        cases hstep
    | posting tasks =>
        have htasks : s.toPush t = tasks := by rw [EventLoop.toPush, hpost, Post.rest]
        rw [hpost] at hstep
        cases tasks with
        | nil =>
            simp only at hstep
            split at hstep
            · cases hstep
            · cases hstep
              have hpc : (if s.awake then Post.idle else Post.signal : Post T).rest = [] := by
                cases s.awake <;> rfl
              exact .signal htasks
                (toPush_setPost_nil (s := { s with awake := true }) htasks hpc) rfl
        | cons task rest =>
            cases hstep
            rw [htasks] at hroom
            have hlt : s.queue.length < cap := by
              by_contra hge
              exact hroom ⟨List.cons_ne_nil _ _, Nat.le_of_not_lt hge⟩
            exact .push htasks hlt
              (fun t' => toPush_setPost { s with queue := s.queue ++ [task] } t t' _) rfl
    | signal =>
        have hnone : s.toPush t = [] := by rw [EventLoop.toPush, hpost, Post.rest]
        rw [hpost] at hstep
        cases hstep
        exact .signal hnone
          (toPush_setPost_nil (s := { s with eventfd := s.eventfd + 1 }) hnone rfl) rfl

theorem posted_stepBounded (hstep : s.stepBounded cap a = some s') : Posted cap s s' a := by
  cases a with
  | call t tasks =>
      simp only [EventLoop.stepBounded, EventLoop.step] at hstep
      split at hstep
      · rename_i hidle
        split at hstep
        · cases hstep
          have hnone : s.toPush t = [] := by rw [EventLoop.toPush, hidle, Post.rest]
          exact .call hnone (fun t' => toPush_setPost s t t' _) rfl
        · cases hstep
      · cases hstep
  | post t => exact posted_post hstep
  | wake | event | flush =>
      simp only [EventLoop.stepBounded, EventLoop.step] at hstep
      split at hstep
      all_goals cases hstep
      exact .loop rfl (fun _ => rfl) (Nat.le_refl _)
  | loop =>
      obtain ⟨hpost, hqueue, -⟩ := stepLoop_spec hstep
      exact .loop rfl (fun t => congrArg (fun post => (post t).rest) hpost) hqueue

/-- A step does not block the loop if and only if there is room. -/
theorem not_blocked_step_iff (h : ¬ Blocked cap s) (hstep : s.stepBounded cap a = some s') :
    ¬ Blocked cap s' ↔ HasRoom cap s a := by
  have hfree : s.toPush none ≠ [] → s.queue.length < cap := fun hne => by
    by_contra hge
    exact h ⟨hne, Nat.le_of_not_lt hge⟩
  unfold Blocked
  rw [not_and, Nat.not_le]
  cases posted_stepBounded hstep with
  | @call t tasks hnone hpush hqueue =>
      rw [hpush, hqueue]
      cases t with
      | none => rfl
      | some p => exact iff_of_true hfree trivial
  | @push t task rest htasks hroom hpush hqueue =>
      rw [hpush, hqueue, List.length_append, List.length_singleton]
      cases t with
      | none =>
          have hmore : rest ≠ [] ↔ 1 < (s.toPush none).length := by
            rw [htasks, List.length_cons, Nat.lt_add_left_iff_pos, List.length_pos_iff]
          exact imp_congr_left hmore
      | some p =>
          have hne : s.toPush (some p) ≠ [] := by simp [htasks]
          rw [if_neg nofun]
          exact ⟨fun hroom' _ => hroom', fun hroom' => hroom' hne⟩
  | @full t htasks hfull hsame =>
      subst hsame
      cases t with
      | none => exact absurd hfull (Nat.not_le.mpr (hfree htasks))
      | some p =>
          refine iff_of_true hfree fun _ hne => ?_
          exact absurd hfull (Nat.not_le.mpr (hfree hne))
  | @signal t hnone hpush hqueue =>
      rw [hpush, hqueue]
      refine iff_of_true hfree ?_
      cases t with
      | none => exact fun hmore => by simp [hnone] at hmore
      | some p => exact fun hne => absurd hnone hne
  | loop hact hpush hqueue =>
      rw [hpush]
      refine iff_of_true (fun hne => Nat.lt_of_le_of_lt hqueue (hfree hne)) ?_
      cases a with
      | call | post => cases hact
      | wake | event | loop | flush => trivial

/-- The loop's thread posts only from a task or a handler. -/
def PostsFromTasks (s : EventLoop P T) : Prop :=
  s.post none ≠ .idle → s.loop = .running ∨ s.loop = .handling

theorem PostsFromTasks.stepPost (h : PostsFromTasks s) {t : Option P}
    (hstep : s.stepPost t = some s') : PostsFromTasks s' := by
  have hmay : s.post t ≠ .idle → s.mayPost t = true := by
    intro hbusy
    cases t with
    | none => simpa [EventLoop.mayPost] using h hbusy
    | some p => rfl
  unfold EventLoop.stepPost at hstep
  split at hstep
  · cases hstep
  · rename_i task rest hpost
    cases hstep
    exact own_setPost (hmay (by simp [hpost])) h
  · rename_i hpost
    split at hstep
    · cases hstep
    · cases hstep
      exact own_setPost (hmay (by simp [hpost])) h
  · rename_i hpost
    cases hstep
    exact own_setPost (hmay (by simp [hpost])) h

theorem PostsFromTasks.step (h : PostsFromTasks s) (hstep : s.stepBounded cap a = some s') :
    PostsFromTasks s' := by
  have hidle : s.loop ≠ .running → s.loop ≠ .handling → s.post none = .idle := by
    intro hrunning hhandling
    by_contra hne
    exact (h hne).elim hrunning hhandling
  cases a with
  | call t tasks =>
      simp only [EventLoop.stepBounded, EventLoop.step] at hstep
      split at hstep
      · split at hstep
        · rename_i hmay
          cases hstep
          exact own_setPost hmay h
        · cases hstep
      · cases hstep
  | post t =>
      simp only [EventLoop.stepBounded] at hstep
      split at hstep
      · cases hstep
        exact h
      · exact h.stepPost hstep
  | wake =>
      simp only [EventLoop.stepBounded, EventLoop.step] at hstep
      split at hstep
      · rename_i hwake
        cases hstep
        exact fun hne => absurd (hidle (by simp [hwake.1]) (by simp [hwake.1])) hne
      · cases hstep
  | event =>
      simp only [EventLoop.stepBounded, EventLoop.step] at hstep
      split at hstep
      · cases hstep
        exact fun _ => Or.inr rfl
      · cases hstep
  | loop =>
      obtain ⟨hpost, -, hidle'⟩ := stepLoop_spec hstep
      intro hne
      rw [hpost] at hne
      exact absurd (hidle' (h hne)) hne
  | flush =>
      simp only [EventLoop.stepBounded, EventLoop.step] at hstep
      split at hstep
      · cases hstep
      · cases hstep
        exact h

/-- The loop's thread cannot get out, and no other thread takes a task. -/
theorem Blocked.step (hblocked : Blocked cap s) (h : PostsFromTasks s)
    (hstep : s.stepBounded cap a = some s') : Blocked cap s' := by
  obtain ⟨hpushing, hfull⟩ := hblocked
  have hbusy : s.post none ≠ .idle := by
    intro hidle
    rw [EventLoop.toPush, hidle] at hpushing
    exact hpushing rfl
  have hposted := posted_stepBounded hstep
  cases hposted with
  | @call t tasks hnone hpush hqueue =>
      cases t with
      | none => exact absurd hnone hpushing
      | some p =>
          refine ⟨?_, hqueue ▸ hfull⟩
          rw [hpush]
          exact hpushing
  | push htasks hroom hpush hqueue => exact absurd hfull (Nat.not_le.mpr hroom)
  | full htasks hfull hsame =>
      subst hsame
      exact ⟨hpushing, hfull⟩
  | signal hnone hpush hqueue =>
      refine ⟨?_, hqueue ▸ hfull⟩
      rw [hpush]
      exact hpushing
  | loop hact hpush hqueue =>
      refine ⟨by rw [hpush]; exact hpushing, ?_⟩
      cases a with
      | call | post => cases hact
      | wake | event =>
          simp only [EventLoop.stepBounded, EventLoop.step] at hstep
          split at hstep
          · rename_i hwait
            rcases h hbusy with hloop | hloop <;> simp [hloop] at hwait
          · cases hstep
      | loop => exact absurd ((stepLoop_spec hstep).2.2 (h hbusy)) hbusy
      | flush =>
          simp only [EventLoop.stepBounded, EventLoop.step] at hstep
          split at hstep
          · cases hstep
          · cases hstep
            exact hfull

end Steps

/-- A loop that waits for itself does so for ever. -/
theorem blocked_forever [DecidableEq P] {cap : ℕ} {s s' : EventLoop P T} {acts : List (Act P T)}
    (h : Reachable (EventLoop.stepBounded cap) EventLoop.fresh s) (hblocked : Blocked cap s)
    (hrun : run (EventLoop.stepBounded cap) s acts = some s') : Blocked cap s' := by
  have hposts : PostsFromTasks s :=
    h.invariant (fun _ _ _ hs hstep => hs.step hstep) fun hne => absurd rfl hne
  have hboth : PostsFromTasks s' ∧ Blocked cap s' :=
    run_invariant (I := fun s => PostsFromTasks s ∧ Blocked cap s)
      (fun _ _ _ hs hstep => ⟨hs.1.step hstep, hs.2.step hs.1 hstep⟩) ⟨hposts, hblocked⟩ hrun
  exact hboth.2

/-- A loop never waits for itself in a run if and only if it finds room in its own queue
whenever it has a task to push. -/
theorem neverBlocked_iff_hasRoom [DecidableEq P] (cap : ℕ) (acts : List (Act P T)) :
    Always (EventLoop.stepBounded cap) (fun s => ¬ Blocked cap s) EventLoop.fresh acts ↔
      EachStep (EventLoop.stepBounded cap) (HasRoom cap) EventLoop.fresh acts := by
  have hfresh : ¬ Blocked cap (EventLoop.fresh : EventLoop P T) := fun h => h.1 rfl
  refine always_iff_eachStep (I := fun s => ¬ Blocked cap s) ?_ (fun _ h => h) ?_ hfresh acts
  · exact fun s a s' h hroom hstep => (not_blocked_step_iff h hstep).mpr hroom
  · exact fun s a s' h hstep h' => (not_blocked_step_iff h hstep).mp h'

/-- The loop takes a task out of its queue; before the task posts, another thread fills
the queue. -/
def floodRun : List (Act Unit Unit) :=
  [.call (some ()) [()], .post (some ()), .post (some ()), .post (some ()), .wake, .loop, .loop,
    .loop, .call (some ()) (List.replicate capacity ())] ++
      List.replicate capacity (.post (some ())) ++ [.call none [()]]

theorem not_neverBlocked_floodRun :
    ¬ Always (EventLoop.stepBounded capacity) (fun s => ¬ Blocked capacity s) EventLoop.fresh
      floodRun := by
  intro halways
  have hrun : (run (EventLoop.stepBounded capacity) EventLoop.fresh floodRun).map
      (fun s => (s.toPush none, s.queue.length)) = some ([()], capacity) := by decide +kernel
  obtain ⟨s, hs, hend⟩ := Option.map_eq_some_iff.mp hrun
  obtain ⟨hpush, hlength⟩ := Prod.mk.inj hend
  refine halways.last hs ⟨?_, ?_⟩
  · rw [hpush]
    exact List.cons_ne_nil _ _
  · exact Nat.le_of_eq hlength.symm

end SimpleRedis.Wakeup
