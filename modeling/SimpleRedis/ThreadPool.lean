import Mathlib.Algebra.GroupWithZero.Nat
import Mathlib.Data.List.Perm.Basic
import SimpleRedis.TransitionRun

/-!
# The thread pool and its shutdown

Workers and a callback thread run the same loop over a queue of their own: they take
an item and run it, and leave when the queue is shut down and empty and `join` has set
the flag. `join` shuts the two queues down one after the other, the second only when
no worker is left to push into it. A step is one operation under the lock of a queue,
one access to the flag, one run of a task or of a callback, or one thread joined.
-/
namespace SimpleRedis.ThreadPool

open TransitionRun

/-- `SpinBlockingQueue`. Its methods hold the lock from end to end, so each of them is
one step. -/
structure SpinBlockingQueue (α : Type*) where
  queue : List α := []
  stopped : Bool := false

namespace SpinBlockingQueue

variable {α : Type*} (q : SpinBlockingQueue α)

def push (item : α) : SpinBlockingQueue α :=
  if q.stopped then q else { q with queue := q.queue ++ [item] }

/-- One turn of the loop in `pop`: the item it returns, with `T{}` as `none`. A turn
that finds nothing and goes round again is no step. -/
def pop : Option (Option α × SpinBlockingQueue α) :=
  if q.stopped && q.queue.isEmpty then some (none, q)
  else
    match q.queue with
    | [] => none
    | item :: rest => some (some item, { q with queue := rest })

def shutdown : SpinBlockingQueue α := { q with stopped := true }

def empty : Bool := q.queue.isEmpty

variable {q}

theorem push_of_stopped (h : q.stopped = true) (item : α) : q.push item = q := if_pos h

theorem push_of_open (h : q.stopped = false) (item : α) :
    q.push item = { q with queue := q.queue ++ [item] } :=
  if_neg (by rw [h]; decide)

end SpinBlockingQueue

/-- Where a thread is in the `while` loop of `run` or `cb_run`. -/
inductive Loop (β : Type*) where
  /-- `pop` is called next. -/
  | popping
  /-- `task()` is under way. -/
  | running (work : β)
  /-- There was no task, and `joined` is loaded next. -/
  | checking
  /-- `joined` was set, and `empty` is called next. -/
  | testing
  | exited
  deriving DecidableEq, Repr

/-- The steps that `run` and `cb_run` have in common. -/
def Loop.next {α β : Type*} (start : α → β) (joined : Bool) (q : SpinBlockingQueue α) :
    Loop β → Option (Loop β × SpinBlockingQueue α)
  | .popping =>
      q.pop.map fun
        | (some item, q) => (.running (start item), q)
        | (none, q) => (.checking, q)
  | .checking => some (if joined then .testing else .popping, q)
  | .testing => some (if q.empty then .exited else .popping, q)
  | .running _ => none
  | .exited => none

/-- The closure that `put` makes of a task: its function, then its callback. -/
inductive Job (α : Type*) where
  | function (task : α)
  | callback (task : α)
  deriving DecidableEq, Repr

/-- The task that a worker has taken and not yet executed. -/
def Loop.unexecuted {α : Type*} : Loop (Job α) → List α
  | .running (.function task) => [task]
  | _ => []

/-- The task that a worker has executed and whose callback is due. -/
def Loop.uncalled {α : Type*} : Loop (Job α) → List α
  | .running (.callback task) => [task]
  | _ => []

/-- The callback that the callback thread has taken and not yet called. -/
def Loop.uncalledCb {α : Type*} : Loop α → List α
  | .running task => [task]
  | _ => []

/-- Where the thread that calls `join` is. -/
inductive Joiner where
  | outside
  /-- `tasks` is shut down, and `joined` is stored next. -/
  | storing
  /-- That many workers have been joined. -/
  | joining (count : ℕ)
  /-- `cb_tasks` is shut down, and the callback thread is waited for. -/
  | joiningCb
  | returned
  deriving DecidableEq, Repr

/-- The members of `ThreadPool`, where its threads are, and what has happened so far. -/
structure Pool (α : Type*) where
  useAsyncCb : Bool
  tasks : SpinBlockingQueue α := {}
  cbTasks : SpinBlockingQueue α := {}
  joined : Bool := false
  threads : List (Loop (Job α))
  cbThread : Loop α := .popping
  joiner : Joiner := .outside
  /-- The tasks whose push took effect, in that order. -/
  pushed : List α := []
  /-- The tasks that have left the queue. -/
  popped : List α := []
  /-- The tasks whose function has run. -/
  executed : List α := []
  /-- The tasks whose callback has run. -/
  called : List α := []

/-- The constructor. -/
def Pool.create (α : Type*) (threadNum : ℕ) (useAsyncCb : Bool) : Pool α where
  useAsyncCb := useAsyncCb
  threads := List.replicate threadNum .popping

inductive Act (α : Type*) where
  /-- Some thread calls `put`. -/
  | put (task : α)
  | worker (i : ℕ)
  | cbThread
  | join

namespace Pool

variable {α : Type*}

def put (s : Pool α) (task : α) : Pool α :=
  { s with
    tasks := s.tasks.push task
    pushed := if s.tasks.stopped then s.pushed else s.pushed ++ [task] }

/-- `enqueue_callback`. -/
def enqueueCallback (s : Pool α) (task : α) : Pool α :=
  { s with cbTasks := s.cbTasks.push task }

/-- The function of a task returns; a task without a callback is done with. -/
def execute (hasCallback : α → Bool) (s : Pool α) (i : ℕ) (task : α) : Pool α :=
  { s with
    threads := s.threads.set i (if hasCallback task then .running (.callback task) else .popping)
    executed := s.executed ++ [task] }

/-- The end of the closure: the callback is called, or handed to its thread. -/
def callBack (s : Pool α) (i : ℕ) (task : α) : Pool α :=
  let s := if s.useAsyncCb then s.enqueueCallback task else { s with called := s.called ++ [task] }
  { s with threads := s.threads.set i .popping }

/-- A worker goes round its loop, and takes a task perhaps. -/
def turn (s : Pool α) (i : ℕ) (loop : Loop (Job α)) (tasks : SpinBlockingQueue α) : Pool α :=
  { s with
    threads := s.threads.set i loop
    tasks := tasks
    popped := s.popped ++ loop.unexecuted }

def stepWorker (hasCallback : α → Bool) (s : Pool α) (i : ℕ) : Option (Pool α) :=
  match s.threads[i]? with
  | none => none
  | some (.running (.function task)) => some (s.execute hasCallback i task)
  | some (.running (.callback task)) => some (s.callBack i task)
  | some loop =>
      (loop.next .function s.joined s.tasks).map fun
        | (loop, tasks) => s.turn i loop tasks

/-- The tasks whose function the next step of a worker runs. -/
def executing (s : Pool α) (i : ℕ) : List α :=
  match s.threads[i]? with
  | some loop => loop.unexecuted
  | none => []

def stepCbThread (s : Pool α) : Option (Pool α) :=
  match s.cbThread with
  | .running task => some { s with cbThread := .popping, called := s.called ++ [task] }
  | loop =>
      (loop.next id s.joined s.cbTasks).map fun
        | (loop, cbTasks) => { s with cbThread := loop, cbTasks := cbTasks }

def stepJoin (s : Pool α) : Option (Pool α) :=
  match s.joiner with
  | .outside => some { s with tasks := s.tasks.shutdown, joiner := .storing }
  | .storing => some { s with joined := true, joiner := .joining 0 }
  | .joining count =>
      match s.threads[count]? with
      | none => some { s with cbTasks := s.cbTasks.shutdown, joiner := .joiningCb }
      | some .exited => some { s with joiner := .joining (count + 1) }
      | some _ => none
  | .joiningCb =>
      match s.cbThread with
      | .exited => some { s with joiner := .returned }
      | _ => none
  | .returned => none

def step (hasCallback : α → Bool) (s : Pool α) : Act α → Option (Pool α)
  | .put task => some (s.put task)
  | .worker i => s.stepWorker hasCallback i
  | .cbThread => s.stepCbThread
  | .join => s.stepJoin

end Pool

section Loops

variable {α β : Type*} {start : α → β} {joined : Bool} {q q' : SpinBlockingQueue α}
  {loop loop' : Loop β}

/-- The thread has seen its queue shut down and empty. -/
def Loop.Leaving : Loop β → Prop
  | .checking | .testing | .exited => True
  | _ => False

/-- A turn takes the first item, or takes nothing; and it leaves only behind a queue that
is shut down and empty. -/
theorem Loop.next_cases (h : Loop.next start joined q loop = some (loop', q')) :
    (∃ item, loop = .popping ∧ loop' = .running (start item) ∧
        q.queue = item :: q'.queue ∧ q'.stopped = q.stopped) ∨
      (q' = q ∧ (∀ work, loop ≠ .running work) ∧ (∀ work, loop' ≠ .running work) ∧
        loop ≠ .exited ∧ (loop'.Leaving → loop.Leaving ∨ q.stopped = true ∧ q.queue = [])) := by
  cases loop with
  | popping =>
      obtain ⟨⟨taken, q''⟩, hpop, hnext⟩ := Option.map_eq_some_iff.mp h
      unfold SpinBlockingQueue.pop at hpop
      split at hpop
      · rename_i hdone
        rw [Bool.and_eq_true, List.isEmpty_iff] at hdone
        cases hpop
        cases hnext
        exact Or.inr ⟨rfl, nofun, nofun, nofun, fun _ => Or.inr hdone⟩
      · split at hpop
        · cases hpop
        · rename_i item rest hqueue
          cases hpop
          cases hnext
          exact Or.inl ⟨item, rfl, rfl, hqueue, rfl⟩
  | checking =>
      cases h
      refine Or.inr ⟨rfl, nofun, ?_, nofun, fun _ => Or.inl trivial⟩
      intro work
      split <;> nofun
  | testing =>
      cases h
      refine Or.inr ⟨rfl, nofun, ?_, nofun, fun _ => Or.inl trivial⟩
      intro work
      split <;> nofun
  | running work => cases h
  | exited => cases h

/-- The turns that a thread still needs to leave. -/
def Loop.weight (work : β → ℕ) : Loop β → ℕ
  | .popping => 3
  | .running b => work b
  | .checking => 2
  | .testing => 1
  | .exited => 0

/-- The steps that a closure still has before it. -/
def Job.steps : Job α → ℕ
  | .function _ => 9
  | .callback _ => 8

/-- Once its queue is shut down and the flag is set, a thread comes closer to its end
with every turn; an item that is taken counts for `k`. -/
theorem Loop.next_decreases (start : α → β) (work : β → ℕ) (k : ℕ)
    (hwork : ∀ item, work (start item) < 3 + k)
    (hstopped : q.stopped = true) (hempty : loop.Leaving → q.queue = [])
    (hrunning : ∀ b, loop ≠ .running b) (hexited : loop ≠ .exited) :
    ∃ loop' q', Loop.next start true q loop = some (loop', q') ∧
      loop'.weight work + k * q'.queue.length < loop.weight work + k * q.queue.length := by
  cases loop with
  | popping =>
      cases hqueue : q.queue with
      | nil =>
          refine ⟨.checking, q, ?_, ?_⟩
          · simp only [Loop.next, SpinBlockingQueue.pop, hstopped, hqueue]
            rfl
          · rw [hqueue]
            exact Nat.lt_succ_self _
      | cons item rest =>
          refine ⟨.running (start item), { q with queue := rest }, ?_, ?_⟩
          · simp only [Loop.next, SpinBlockingQueue.pop, hstopped, hqueue]
            rfl
          · have hitem := hwork item
            simp only [Loop.weight, List.length_cons, Nat.mul_add, Nat.mul_one]
            omega
  | checking => exact ⟨.testing, q, rfl, Nat.add_lt_add_right Nat.one_lt_two _⟩
  | testing =>
      refine ⟨.exited, q, ?_, Nat.add_lt_add_right Nat.one_pos _⟩
      simp only [Loop.next, SpinBlockingQueue.empty, hempty trivial]
      rfl
  | running b => exact absurd rfl (hrunning b)
  | exited => exact absurd rfl hexited

end Loops

section Counting

variable {α β : Type*}

/-- Only the changed thread counts. -/
theorem sum_map_set (f : α → ℕ) {xs : List α} {i : ℕ} {x : α} (h : xs[i]? = some x) (x' : α) :
    ((xs.set i x').map f).sum + f x = (xs.map f).sum + f x' := by
  induction xs generalizing i with
  | nil => cases h
  | cons y xs ih =>
      cases i with
      | zero =>
          cases h
          simp only [List.set_cons_zero, List.map_cons, List.sum_cons]
          omega
      | succ i =>
          have htail := ih h
          simp only [List.set_cons_succ, List.map_cons, List.sum_cons]
          omega

theorem count_flatMap_set [DecidableEq β] (f : α → List β) {xs : List α} {i : ℕ} {x : α}
    (h : xs[i]? = some x) (x' : α) (b : β) :
    ((xs.set i x').flatMap f).count b + (f x).count b =
      (xs.flatMap f).count b + (f x').count b := by
  rw [List.count_flatMap, List.count_flatMap]
  exact sum_map_set (List.count b ∘ f) h x'

end Counting

/-- The workers that `join` has waited for. -/
def Joiner.waited (threadNum : ℕ) : Joiner → ℕ
  | .outside | .storing => 0
  | .joining count => count
  | .joiningCb | .returned => threadNum

namespace Pool

variable {α : Type*}

/-- Every task that has left the queue is with a worker or has been executed, and every
callback that is due is with a worker, in the queue of callbacks, with their thread or
has been called. A thread leaves, and `join` goes on, only behind a queue that is shut
down and empty. -/
structure Ok (hasCallback : α → Bool) (s : Pool α) : Prop where
  order : s.popped ++ s.tasks.queue = s.pushed
  executing : s.popped.Perm (s.threads.flatMap Loop.unexecuted ++ s.executed)
  calling : (s.executed.filter hasCallback).Perm
    (s.threads.flatMap Loop.uncalled ++ s.cbTasks.queue ++ s.cbThread.uncalledCb ++ s.called)
  drained : ∀ loop ∈ s.threads, loop.Leaving → s.tasks.stopped = true ∧ s.tasks.queue = []
  cbDrained : s.cbThread.Leaving → s.cbTasks.stopped = true ∧ s.cbTasks.queue = []
  shut : s.joiner ≠ .outside → s.tasks.stopped = true
  flag : s.joiner ≠ .outside → s.joiner ≠ .storing → s.joined = true
  waited : ∀ i < s.joiner.waited s.threads.length, s.threads[i]? = some .exited
  cbShut : s.cbTasks.stopped = true ↔ s.joiner = .joiningCb ∨ s.joiner = .returned
  cbJoined : s.joiner = .returned → s.cbThread = .exited

section Steps

variable {hasCallback : α → Bool} {s s' : Pool α}

theorem ok_create (threadNum : ℕ) (useAsyncCb : Bool) :
    Ok hasCallback (create α threadNum useAsyncCb) where
  order := rfl
  executing := by
    have hnone : (List.replicate threadNum (Loop.popping : Loop (Job α))).flatMap Loop.unexecuted =
        [] := by
      rw [List.flatMap_eq_nil_iff]
      intro loop hloop
      rw [List.eq_of_mem_replicate hloop]
      rfl
    simp only [create, hnone]
    exact List.Perm.refl _
  calling := by
    have hnone : (List.replicate threadNum (Loop.popping : Loop (Job α))).flatMap Loop.uncalled =
        [] := by
      rw [List.flatMap_eq_nil_iff]
      intro loop hloop
      rw [List.eq_of_mem_replicate hloop]
      rfl
    simp only [create, hnone]
    exact List.Perm.refl _
  drained loop hloop hleaving := by
    rw [List.eq_of_mem_replicate hloop] at hleaving
    exact hleaving.elim
  cbDrained h := h.elim
  shut h := absurd rfl h
  flag h := absurd rfl h
  waited i hi := absurd hi (Nat.not_lt_zero i)
  cbShut := by simp [create]
  cbJoined h := nomatch h

/-- After the shutdown `put` has no effect. -/
theorem put_of_stopped (h : s.tasks.stopped = true) (task : α) : s.put task = s := by
  simp only [put, SpinBlockingQueue.push_of_stopped h, h, if_true]

theorem put_of_open (h : s.tasks.stopped = false) (task : α) :
    s.put task = { s with
      tasks := { s.tasks with queue := s.tasks.queue ++ [task] }
      pushed := s.pushed ++ [task] } := by
  simp only [put, SpinBlockingQueue.push_of_open h, h, Bool.false_eq_true, if_false]

theorem Ok.put (h : Ok hasCallback s) (task : α) : Ok hasCallback (s.put task) := by
  cases hstopped : s.tasks.stopped with
  | true => rwa [put_of_stopped hstopped]
  | false =>
      rw [put_of_open hstopped]
      refine { h with order := ?_, drained := ?_ }
      · simp only [← List.append_assoc, h.order]
      · intro loop hloop hleaving
        exact absurd (h.drained loop hloop hleaving).1 (by rw [hstopped]; decide)

/-- A worker that has not exited is not among those that `join` has waited for. -/
theorem Ok.waited_set (h : Ok hasCallback s) {i : ℕ} {loop : Loop (Job α)}
    (hi : s.threads[i]? = some loop) (hne : loop ≠ .exited) (loop' : Loop (Job α)) :
    ∀ j < s.joiner.waited (s.threads.set i loop').length,
      (s.threads.set i loop')[j]? = some .exited := by
  intro j hj
  rw [List.length_set] at hj
  have hexited := h.waited j hj
  have hij : i ≠ j := by
    rintro rfl
    exact hne (Option.some.inj (hi.symm.trans hexited))
  rwa [List.getElem?_set_ne hij]

theorem Ok.drained_set (h : Ok hasCallback s) (i : ℕ) {loop' : Loop (Job α)}
    (hleaving : loop'.Leaving → s.tasks.stopped = true ∧ s.tasks.queue = []) :
    ∀ loop ∈ s.threads.set i loop', loop.Leaving →
      s.tasks.stopped = true ∧ s.tasks.queue = [] := by
  intro loop hloop
  rcases List.mem_or_eq_of_mem_set hloop with hold | rfl
  · exact h.drained loop hold
  · exact hleaving

theorem Ok.execute (h : Ok hasCallback s) {i : ℕ} {task : α}
    (hi : s.threads[i]? = some (.running (.function task))) :
    Ok hasCallback (s.execute hasCallback i task) := by
  classical
  have hleaving : ¬ (if hasCallback task then Loop.running (Job.callback task)
      else .popping).Leaving := by
    split <;> exact id
  refine { h with executing := ?_, calling := ?_, drained := ?_, waited := ?_ }
  · refine h.executing.trans (List.perm_iff_count.mpr fun b => ?_)
    have hcount := count_flatMap_set Loop.unexecuted hi
      (if hasCallback task then .running (.callback task) else .popping) b
    have hnone : (if hasCallback task then Loop.running (Job.callback task)
        else .popping).unexecuted = [] := by
      split <;> rfl
    rw [hnone, List.count_nil] at hcount
    simp only [Loop.unexecuted] at hcount
    simp only [Pool.execute, List.count_append]
    omega
  · have hcalling := List.perm_iff_count.mp h.calling
    refine List.perm_iff_count.mpr fun b => ?_
    have hcount := count_flatMap_set Loop.uncalled hi
      (if hasCallback task then .running (.callback task) else .popping) b
    have hdue : (if hasCallback task then Loop.running (Job.callback task)
        else .popping).uncalled = [task].filter hasCallback := by
      by_cases hcb : hasCallback task = true
      · rw [if_pos hcb, List.filter_cons_of_pos hcb]
        rfl
      · rw [if_neg hcb, List.filter_cons_of_neg hcb]
        rfl
    have hold := hcalling b
    rw [hdue] at hcount
    simp only [Loop.uncalled, List.count_nil] at hcount
    simp only [Pool.execute, List.filter_append, List.count_append] at hold ⊢
    omega
  · exact h.drained_set i fun hl => absurd hl hleaving
  · exact h.waited_set hi nofun _

/-- While a worker has a callback to hand over, the queue of callbacks is open. -/
theorem Ok.cbTasks_open (h : Ok hasCallback s) {i : ℕ} {work : Job α}
    (hi : s.threads[i]? = some (.running work)) : s.cbTasks.stopped = false := by
  by_contra hstopped
  rw [Bool.not_eq_false] at hstopped
  have hlt : i < s.threads.length := (List.getElem?_eq_some_iff.mp hi).1
  have hexited : s.threads[i]? = some .exited := by
    apply h.waited i
    rcases h.cbShut.mp hstopped with hjoiner | hjoiner <;> rw [hjoiner] <;> exact hlt
  cases hi.symm.trans hexited

theorem Ok.callBack (h : Ok hasCallback s) {i : ℕ} {task : α}
    (hi : s.threads[i]? = some (.running (.callback task))) :
    Ok hasCallback (s.callBack i task) := by
  classical
  have hexecuting : s.popped.Perm
      ((s.threads.set i .popping).flatMap Loop.unexecuted ++ s.executed) := by
    refine h.executing.trans (List.perm_iff_count.mpr fun b => ?_)
    have hcount := count_flatMap_set Loop.unexecuted hi .popping b
    simp only [Loop.unexecuted, List.count_nil] at hcount
    simp only [List.count_append]
    omega
  have hdrained : ∀ loop ∈ s.threads.set i .popping, loop.Leaving →
      s.tasks.stopped = true ∧ s.tasks.queue = [] := h.drained_set i fun hl => hl.elim
  have hwaited := h.waited_set hi nofun .popping
  have hcount := count_flatMap_set Loop.uncalled hi .popping
  simp only [Loop.uncalled, List.count_nil] at hcount
  have hcalling := List.perm_iff_count.mp h.calling
  unfold Pool.callBack
  split
  · have hopen := h.cbTasks_open hi
    rw [enqueueCallback, SpinBlockingQueue.push_of_open hopen]
    refine { h with
      executing := hexecuting, calling := ?_, drained := hdrained, cbDrained := ?_,
      waited := hwaited }
    · refine List.perm_iff_count.mpr fun b => ?_
      have hold := hcalling b
      have hmoved := hcount b
      simp only [List.count_append] at hold ⊢
      omega
    · intro hl
      exact absurd (h.cbDrained hl).1 (by rw [hopen]; decide)
  · refine { h with
      executing := hexecuting, calling := ?_, drained := hdrained, waited := hwaited }
    refine List.perm_iff_count.mpr fun b => ?_
    have hold := hcalling b
    have hmoved := hcount b
    simp only [List.count_append] at hold ⊢
    omega

theorem Ok.turn (h : Ok hasCallback s) {i : ℕ} {loop loop' : Loop (Job α)}
    {tasks : SpinBlockingQueue α} (hi : s.threads[i]? = some loop)
    (hnext : loop.next .function s.joined s.tasks = some (loop', tasks)) :
    Ok hasCallback (s.turn i loop' tasks) := by
  classical
  have hcalling := List.perm_iff_count.mp h.calling
  have huncalled := count_flatMap_set Loop.uncalled hi loop'
  have hexecuting := List.perm_iff_count.mp h.executing
  have hunexecuted := count_flatMap_set Loop.unexecuted hi loop'
  rcases Loop.next_cases hnext with ⟨task, rfl, rfl, hqueue, hstopped⟩ | ⟨rfl, hold, hnew, hne, hl⟩
  · -- a task has left the queue
    refine { h with
      order := ?_, executing := ?_, calling := ?_, drained := ?_, shut := ?_, waited := ?_ }
    · have horder := h.order
      rw [hqueue] at horder
      simpa only [Pool.turn, Loop.unexecuted, List.append_assoc, List.singleton_append] using horder
    · refine List.perm_iff_count.mpr fun b => ?_
      have hb := hexecuting b
      have hmoved := hunexecuted b
      simp only [Loop.unexecuted, List.count_nil] at hmoved
      simp only [Pool.turn, Loop.unexecuted, List.count_append] at hb ⊢
      omega
    · refine List.perm_iff_count.mpr fun b => ?_
      have hb := hcalling b
      have hmoved := huncalled b
      simp only [Loop.uncalled, List.count_nil] at hmoved
      simp only [Pool.turn, List.count_append] at hb ⊢
      omega
    · intro loop hloop hleaving
      rcases List.mem_or_eq_of_mem_set hloop with hmem | rfl
      · have hempty := (h.drained loop hmem hleaving).2
        rw [hqueue] at hempty
        cases hempty
      · exact hleaving.elim
    · intro hjoiner
      exact hstopped.trans (h.shut hjoiner)
    · exact h.waited_set hi nofun _
  · -- nothing is taken
    have hidle : ∀ l : Loop (Job α), (∀ work, l ≠ .running work) →
        l.unexecuted = [] ∧ l.uncalled = [] := by
      intro l hl
      cases l with
      | running work => exact absurd rfl (hl work)
      | _ => exact ⟨rfl, rfl⟩
    refine { h with
      order := ?_, executing := ?_, calling := ?_, drained := ?_, waited := ?_ }
    · simpa only [Pool.turn, (hidle loop' hnew).1, List.append_nil] using h.order
    · refine List.perm_iff_count.mpr fun b => ?_
      have hb := hexecuting b
      have hmoved := hunexecuted b
      simp only [(hidle loop hold).1, (hidle loop' hnew).1, List.count_nil] at hmoved
      simp only [Pool.turn, (hidle loop' hnew).1, List.count_append, List.count_nil] at hb ⊢
      omega
    · refine List.perm_iff_count.mpr fun b => ?_
      have hb := hcalling b
      have hmoved := huncalled b
      simp only [(hidle loop hold).2, (hidle loop' hnew).2, List.count_nil] at hmoved
      simp only [Pool.turn, List.count_append] at hb ⊢
      omega
    · refine h.drained_set i fun hleaving => ?_
      exact (hl hleaving).elim (h.drained loop (List.mem_of_getElem? hi)) id
    · exact h.waited_set hi hne _

theorem stepWorker_cases {i : ℕ} (h : s.stepWorker hasCallback i = some s') :
    (∃ task, s.threads[i]? = some (.running (.function task)) ∧
        s' = s.execute hasCallback i task) ∨
      (∃ task, s.threads[i]? = some (.running (.callback task)) ∧ s' = s.callBack i task) ∨
      ∃ loop loop' tasks, s.threads[i]? = some loop ∧
        loop.next .function s.joined s.tasks = some (loop', tasks) ∧ s' = s.turn i loop' tasks := by
  unfold stepWorker at h
  split at h
  · cases h
  · rename_i task hi
    cases h
    exact Or.inl ⟨task, hi, rfl⟩
  · rename_i task hi
    cases h
    exact Or.inr (Or.inl ⟨task, hi, rfl⟩)
  · rename_i loop _ _ hi
    obtain ⟨⟨loop', tasks⟩, hnext, rfl⟩ := Option.map_eq_some_iff.mp h
    exact Or.inr (Or.inr ⟨loop, loop', tasks, hi, hnext, rfl⟩)

/-- What a step of a worker does to the history, and what it leaves as it is. -/
theorem stepWorker_frame {i : ℕ} (h : s.stepWorker hasCallback i = some s') :
    s'.executed = s.executed ++ s.executing i ∧ s'.pushed = s.pushed ∧
      s'.tasks.stopped = s.tasks.stopped ∧ s'.joiner = s.joiner := by
  rcases stepWorker_cases h with
    ⟨task, hi, rfl⟩ | ⟨task, hi, rfl⟩ | ⟨loop, loop', tasks, hi, hnext, rfl⟩
  · simp only [executing, hi]
    exact ⟨rfl, rfl, rfl, rfl⟩
  · simp only [executing, hi, Loop.unexecuted, List.append_nil, Pool.callBack]
    split <;> exact ⟨rfl, rfl, rfl, rfl⟩
  · simp only [executing, hi]
    rcases Loop.next_cases hnext with ⟨task, rfl, rfl, -, hstopped⟩ | ⟨rfl, hrunning, -⟩
    · exact ⟨(List.append_nil _).symm, rfl, hstopped, rfl⟩
    · cases loop with
      | running work => exact absurd rfl (hrunning work)
      | _ => exact ⟨(List.append_nil _).symm, rfl, rfl, rfl⟩

theorem Ok.stepWorker (h : Ok hasCallback s) {i : ℕ}
    (hstep : s.stepWorker hasCallback i = some s') : Ok hasCallback s' := by
  rcases stepWorker_cases hstep with
    ⟨task, hi, rfl⟩ | ⟨task, hi, rfl⟩ | ⟨loop, loop', tasks, hi, hnext, rfl⟩
  · exact h.execute hi
  · exact h.callBack hi
  · exact h.turn hi hnext

theorem Ok.stepCbThread (h : Ok hasCallback s) (hstep : s.stepCbThread = some s') :
    Ok hasCallback s' := by
  classical
  have hcalling := List.perm_iff_count.mp h.calling
  unfold Pool.stepCbThread at hstep
  split at hstep
  · rename_i task hrunning
    rw [hrunning] at hcalling
    cases hstep
    refine { h with calling := ?_, cbDrained := ?_, cbJoined := ?_ }
    · refine List.perm_iff_count.mpr fun b => ?_
      have hb := hcalling b
      simp only [Loop.uncalledCb, List.count_append, List.count_nil] at hb ⊢
      omega
    · exact fun hl => hl.elim
    · intro hjoiner
      exact absurd (h.cbJoined hjoiner) (by rw [hrunning]; nofun)
  · obtain ⟨⟨loop', cbTasks⟩, hnext, rfl⟩ := Option.map_eq_some_iff.mp hstep
    rcases Loop.next_cases hnext with
      ⟨task, hpop, rfl, hqueue, hstopped⟩ | ⟨rfl, hold, hnew, hne, hl⟩
    · -- a callback has left the queue
      rw [hpop, hqueue] at hcalling
      refine { h with calling := ?_, cbDrained := ?_, cbShut := ?_, cbJoined := ?_ }
      · refine List.perm_iff_count.mpr fun b => ?_
        have hb := hcalling b
        simp only [Loop.uncalledCb, id, List.count_append, List.count_cons, List.count_nil] at hb ⊢
        omega
      · exact fun hl => hl.elim
      · rw [hstopped]
        exact h.cbShut
      · intro hjoiner
        exact absurd (h.cbJoined hjoiner) (by rw [hpop]; nofun)
    · -- nothing is taken
      have hidle : ∀ l : Loop α, (∀ work, l ≠ .running work) → l.uncalledCb = [] := by
        intro l hl
        cases l with
        | running work => exact absurd rfl (hl work)
        | _ => rfl
      refine { h with calling := ?_, cbDrained := ?_, cbJoined := ?_ }
      · have hcalling := h.calling
        rwa [hidle _ hold, ← hidle _ hnew] at hcalling
      · intro hleaving
        exact (hl hleaving).elim h.cbDrained id
      · intro hjoiner
        exact absurd (h.cbJoined hjoiner) hne

theorem Ok.stepJoin (h : Ok hasCallback s) (hstep : s.stepJoin = some s') :
    Ok hasCallback s' := by
  unfold Pool.stepJoin at hstep
  split at hstep
  · rename_i hjoiner
    cases hstep
    refine { h with
      drained := ?_, shut := ?_, flag := ?_, waited := ?_, cbShut := ?_, cbJoined := ?_ }
    · exact fun loop hloop hl => ⟨rfl, (h.drained loop hloop hl).2⟩
    · exact fun _ => rfl
    · exact fun _ hne => absurd rfl hne
    · exact fun i hi => absurd hi (Nat.not_lt_zero i)
    · have hcbShut := h.cbShut
      rw [hjoiner] at hcbShut
      exact hcbShut.trans (by simp)
    · exact nofun
  · rename_i hjoiner
    cases hstep
    refine { h with shut := ?_, flag := ?_, waited := ?_, cbShut := ?_, cbJoined := ?_ }
    · exact fun _ => h.shut (by rw [hjoiner]; nofun)
    · exact fun _ _ => rfl
    · exact fun i hi => absurd hi (Nat.not_lt_zero i)
    · have hcbShut := h.cbShut
      rw [hjoiner] at hcbShut
      exact hcbShut.trans (by simp)
    · exact nofun
  · rename_i count hjoiner
    have hshut := h.shut (by rw [hjoiner]; nofun)
    have hflag := h.flag (by rw [hjoiner]; nofun) (by rw [hjoiner]; nofun)
    have hwaited := h.waited
    have hcbShut := h.cbShut
    rw [hjoiner] at hwaited hcbShut
    split at hstep
    · rename_i hcount
      cases hstep
      refine { h with
        cbDrained := ?_, shut := ?_, flag := ?_, waited := ?_, cbShut := ?_, cbJoined := ?_ }
      · exact fun hl => ⟨rfl, (h.cbDrained hl).2⟩
      · exact fun _ => hshut
      · exact fun _ _ => hflag
      · exact fun i hi => hwaited i (Nat.lt_of_lt_of_le hi (List.getElem?_eq_none_iff.mp hcount))
      · exact ⟨fun _ => Or.inl rfl, fun _ => rfl⟩
      · exact nofun
    · rename_i hcount
      cases hstep
      refine { h with shut := ?_, flag := ?_, waited := ?_, cbShut := ?_, cbJoined := ?_ }
      · exact fun _ => hshut
      · exact fun _ _ => hflag
      · intro i hi
        rcases Nat.lt_succ_iff_lt_or_eq.mp hi with hlt | rfl
        · exact hwaited i hlt
        · exact hcount
      · exact hcbShut.trans (by simp)
      · exact nofun
    · cases hstep
  · rename_i hjoiner
    have hwaited := h.waited
    have hcbShut := h.cbShut
    rw [hjoiner] at hwaited hcbShut
    split at hstep
    · rename_i hexited
      cases hstep
      refine { h with shut := ?_, flag := ?_, waited := ?_, cbShut := ?_, cbJoined := ?_ }
      · exact fun _ => h.shut (by rw [hjoiner]; nofun)
      · exact fun _ _ => h.flag (by rw [hjoiner]; nofun) (by rw [hjoiner]; nofun)
      · exact hwaited
      · exact hcbShut.trans (by simp)
      · exact fun _ => hexited
    · cases hstep
  · cases hstep

theorem Ok.step (h : Ok hasCallback s) {a : Act α} (hstep : s.step hasCallback a = some s') :
    Ok hasCallback s' := by
  cases a with
  | put task =>
      cases hstep
      exact h.put task
  | worker i => exact h.stepWorker hstep
  | cbThread => exact h.stepCbThread hstep
  | join => exact h.stepJoin hstep

theorem ok_of_reachable {threadNum : ℕ} {useAsyncCb : Bool}
    (h : Reachable (step hasCallback) (create α threadNum useAsyncCb) s) : Ok hasCallback s :=
  h.invariant (fun _ _ _ hok hstep => hok.step hstep) (ok_create threadNum useAsyncCb)

theorem length_threads_step {a : Act α} (hstep : s.step hasCallback a = some s') :
    s'.threads.length = s.threads.length := by
  cases a with
  | put task =>
      cases hstep
      rfl
  | worker i =>
      rcases stepWorker_cases hstep with
        ⟨task, -, rfl⟩ | ⟨task, -, rfl⟩ | ⟨loop, loop', tasks, -, -, rfl⟩
      · exact List.length_set
      · unfold callBack
        split <;> exact List.length_set
      · exact List.length_set
  | cbThread =>
      simp only [step, Pool.stepCbThread] at hstep
      split at hstep
      · cases hstep
        rfl
      · obtain ⟨_, -, rfl⟩ := Option.map_eq_some_iff.mp hstep
        rfl
  | join =>
      simp only [step, Pool.stepJoin] at hstep
      repeat' split at hstep
      all_goals cases hstep
      all_goals rfl

theorem length_threads {threadNum : ℕ} {useAsyncCb : Bool}
    (h : Reachable (step hasCallback) (create α threadNum useAsyncCb) s) :
    s.threads.length = threadNum :=
  h.invariant (fun _ _ _ hlen hstep => (length_threads_step hstep).trans hlen)
    List.length_replicate

/-- When `join` has returned, every thread has left. -/
theorem Ok.exited (h : Ok hasCallback s) (hreturned : s.joiner = .returned) :
    ∀ loop ∈ s.threads, loop = .exited := by
  intro loop hloop
  obtain ⟨i, hi⟩ := List.getElem?_of_mem hloop
  have hlt : i < s.joiner.waited s.threads.length := by
    rw [hreturned]
    exact (List.getElem?_eq_some_iff.mp hi).1
  exact Option.some.inj (hi.symm.trans (h.waited i hlt))

/-- Nothing is left over when `join` has returned. -/
theorem Ok.returned (h : Ok hasCallback s) (hpos : 0 < s.threads.length)
    (hreturned : s.joiner = .returned) :
    s.executed.Perm s.pushed ∧ s.called.Perm (s.pushed.filter hasCallback) := by
  have hexited := h.exited hreturned
  have hqueue : s.tasks.queue = [] := by
    obtain ⟨loop, hloop⟩ := List.exists_mem_of_length_pos hpos
    refine (h.drained loop hloop ?_).2
    rw [hexited loop hloop]
    trivial
  have hcbQueue : s.cbTasks.queue = [] := by
    refine (h.cbDrained ?_).2
    rw [h.cbJoined hreturned]
    trivial
  have hunexecuted : s.threads.flatMap Loop.unexecuted = [] := by
    rw [List.flatMap_eq_nil_iff]
    intro loop hloop
    rw [hexited loop hloop]
    rfl
  have huncalled : s.threads.flatMap Loop.uncalled = [] := by
    rw [List.flatMap_eq_nil_iff]
    intro loop hloop
    rw [hexited loop hloop]
    rfl
  have hpopped : s.popped = s.pushed := by
    have horder := h.order
    rwa [hqueue, List.append_nil] at horder
  have hexecuted := h.executing
  rw [hunexecuted, List.nil_append, hpopped] at hexecuted
  have hcalled := h.calling
  rw [huncalled, hcbQueue, h.cbJoined hreturned] at hcalled
  exact ⟨hexecuted.symm, hcalled.symm.trans (hexecuted.symm.filter _)⟩

/-- Behind the return of `join` nothing happens any more. -/
theorem Ok.step_returned (h : Ok hasCallback s) (hreturned : s.joiner = .returned) {a : Act α}
    (hstep : s.step hasCallback a = some s') : s' = s := by
  cases a with
  | put task =>
      cases hstep
      exact put_of_stopped (h.shut (by rw [hreturned]; nofun)) task
  | worker i =>
      have hexited : ∀ loop, s.threads[i]? = some loop → loop = .exited :=
        fun loop hi => h.exited hreturned loop (List.mem_of_getElem? hi)
      rcases stepWorker_cases hstep with
        ⟨task, hi, -⟩ | ⟨task, hi, -⟩ | ⟨loop, loop', tasks, hi, hnext, -⟩
      · cases hexited _ hi
      · cases hexited _ hi
      · rw [hexited _ hi] at hnext
        cases hnext
  | cbThread =>
      simp only [Pool.step, Pool.stepCbThread, h.cbJoined hreturned] at hstep
      cases hstep
  | join =>
      simp only [Pool.step, Pool.stepJoin, hreturned] at hstep
      cases hstep

end Steps

section Progress

variable {hasCallback : α → Bool} {s s' : Pool α}

/-- What the workers have left to do once `join` is under way. -/
def workerRank (s : Pool α) : ℕ :=
  (s.threads.map (Loop.weight Job.steps)).sum + 8 * s.tasks.queue.length

def cbRank (s : Pool α) : ℕ := (s.cbThread.weight fun _ => 5) + 4 * s.cbTasks.queue.length

def joinRank (s : Pool α) : ℕ :=
  match s.joiner with
  | .outside => s.threads.length + 4
  | .storing => s.threads.length + 3
  | .joining count => s.threads.length + 2 - count
  | .joiningCb => 1
  | .returned => 0

def rank (s : Pool α) : ℕ := s.workerRank + s.cbRank + s.joinRank

theorem joinRank_congr (hthreads : s'.threads.length = s.threads.length)
    (hjoiner : s'.joiner = s.joiner) : s'.joinRank = s.joinRank := by
  rw [joinRank, joinRank, hthreads, hjoiner]

theorem execute_rank {i : ℕ} {task : α} (hi : s.threads[i]? = some (.running (.function task))) :
    (s.execute hasCallback i task).rank < s.rank := by
  have hjoin : (s.execute hasCallback i task).joinRank = s.joinRank :=
    joinRank_congr List.length_set rfl
  have hweight := sum_map_set (Loop.weight Job.steps) hi
    (if hasCallback task then .running (.callback task) else .popping)
  have hle : (if hasCallback task then Loop.running (Job.callback task)
      else .popping).weight Job.steps ≤ 8 := by
    split <;> simp [Loop.weight, Job.steps]
  have hwork : (s.execute hasCallback i task).workerRank < s.workerRank := by
    simp only [workerRank, Pool.execute]
    simp only [show (Loop.running (Job.function task)).weight Job.steps = 9 from rfl] at hweight
    omega
  have hcb : (s.execute hasCallback i task).cbRank = s.cbRank := rfl
  rw [rank, rank, hjoin, hcb]
  omega

theorem callBack_rank {i : ℕ} {task : α} (hi : s.threads[i]? = some (.running (.callback task)))
    (hopen : s.cbTasks.stopped = false) : (s.callBack i task).rank < s.rank := by
  have hweight := sum_map_set (Loop.weight Job.steps) hi .popping
  simp only [show (Loop.running (Job.callback task)).weight Job.steps = 8 from rfl,
    show (Loop.popping : Loop (Job α)).weight Job.steps = 3 from rfl] at hweight
  unfold callBack
  split
  · rw [enqueueCallback, SpinBlockingQueue.push_of_open hopen]
    simp only [rank, workerRank, cbRank, joinRank, List.length_set, List.length_append,
      List.length_singleton]
    omega
  · simp only [rank, workerRank, cbRank, joinRank, List.length_set]
    omega

theorem turn_rank {i : ℕ} {loop loop' : Loop (Job α)} {tasks : SpinBlockingQueue α}
    (hi : s.threads[i]? = some loop)
    (hlt : loop'.weight Job.steps + 8 * tasks.queue.length <
      loop.weight Job.steps + 8 * s.tasks.queue.length) :
    (s.turn i loop' tasks).rank < s.rank := by
  have hjoin : (s.turn i loop' tasks).joinRank = s.joinRank :=
    joinRank_congr List.length_set rfl
  have hweight := sum_map_set (Loop.weight Job.steps) hi loop'
  have hwork : (s.turn i loop' tasks).workerRank < s.workerRank := by
    simp only [workerRank, Pool.turn]
    omega
  have hcb : (s.turn i loop' tasks).cbRank = s.cbRank := rfl
  rw [rank, rank, hjoin, hcb]
  omega

theorem put_rank (hopen : s.tasks.stopped = false) (task : α) :
    (s.put task).rank = s.rank + 8 := by
  rw [put_of_open hopen]
  simp only [rank, workerRank, cbRank, joinRank, List.length_append, List.length_singleton]
  omega

/-- While the pool is open, the workers have work to do or wait for more. -/
theorem Ok.work_decreases (h : Ok hasCallback s) (hopen : s.tasks.stopped = false)
    (hcbOpen : s.cbTasks.stopped = false) (hpos : 0 < s.threads.length) :
    (s.tasks.queue = [] ∧ ∀ loop ∈ s.threads, loop = .popping) ∨
      ∃ i s', s.stepWorker hasCallback i = some s' ∧ s'.rank < s.rank := by
  by_cases hbusy : ∃ loop ∈ s.threads, loop ≠ .popping
  · obtain ⟨loop, hloop, hne⟩ := hbusy
    obtain ⟨i, hi⟩ := List.getElem?_of_mem hloop
    refine Or.inr ⟨i, ?_⟩
    cases loop with
    | popping => exact absurd rfl hne
    | running work =>
        cases work with
        | function task =>
            exact ⟨s.execute hasCallback i task, by simp only [Pool.stepWorker, hi],
              execute_rank hi⟩
        | callback task =>
            exact ⟨s.callBack i task, by simp only [Pool.stepWorker, hi],
              callBack_rank hi hcbOpen⟩
    | _ => exact absurd (h.drained _ hloop trivial).1 (by rw [hopen]; decide)
  · have hidle : ∀ loop ∈ s.threads, loop = .popping := by
      intro loop hloop
      by_contra hne
      exact hbusy ⟨loop, hloop, hne⟩
    cases hqueue : s.tasks.queue with
    | nil => exact Or.inl ⟨rfl, hidle⟩
    | cons task rest =>
        have hi : s.threads[0]? = some .popping := by
          rw [List.getElem?_eq_getElem hpos, hidle _ (List.getElem_mem hpos)]
        refine Or.inr ⟨0, s.turn 0 (.running (.function task)) { s.tasks with queue := rest },
          ?_, turn_rank hi ?_⟩
        · simp only [Pool.stepWorker, hi, Loop.next, SpinBlockingQueue.pop, hopen, hqueue]
          rfl
        · rw [hqueue]
          simp only [Loop.weight, Job.steps, List.length_cons]
          omega

/-- A worker that `join` waits for can go on. -/
theorem Ok.worker_decreases (h : Ok hasCallback s) {count : ℕ} (hjoiner : s.joiner = .joining count)
    {loop : Loop (Job α)} (hi : s.threads[count]? = some loop) (hexited : loop ≠ .exited) :
    ∃ s', s.stepWorker hasCallback count = some s' ∧ s'.joiner ≠ .outside ∧ s'.rank < s.rank := by
  have hne : s.joiner ≠ .outside := by rw [hjoiner]; nofun
  have hflag := h.flag hne (by rw [hjoiner]; nofun)
  by_cases hrunning : ∃ job, loop = .running job
  · obtain ⟨job, rfl⟩ := hrunning
    cases job with
    | function task =>
        exact ⟨s.execute hasCallback count task, by simp only [Pool.stepWorker, hi], hne,
          execute_rank hi⟩
    | callback task =>
        refine ⟨s.callBack count task, by simp only [Pool.stepWorker, hi], ?_,
          callBack_rank hi (h.cbTasks_open hi)⟩
        unfold Pool.callBack
        split <;> exact hne
  · have hrunning : ∀ job, loop ≠ .running job := fun job heq => hrunning ⟨job, heq⟩
    have hempty : loop.Leaving → s.tasks.queue = [] :=
      fun hl => (h.drained loop (List.mem_of_getElem? hi) hl).2
    obtain ⟨loop', tasks, hnext, hlt⟩ :=
      Loop.next_decreases Job.function Job.steps 8 (fun _ => (by decide : 9 < 3 + 8)) (h.shut hne)
        hempty hrunning hexited
    refine ⟨s.turn count loop' tasks, ?_, hne, turn_rank hi hlt⟩
    unfold Pool.stepWorker
    rw [hi, hflag]
    cases loop with
    | running job => exact absurd rfl (hrunning job)
    | _ => simp only [hnext, Option.map_some]

/-- The callback thread can go on once its queue is shut down. -/
theorem Ok.cbThread_decreases (h : Ok hasCallback s) (hjoiner : s.joiner = .joiningCb)
    (hexited : s.cbThread ≠ .exited) :
    ∃ s', s.stepCbThread = some s' ∧ s'.joiner ≠ .outside ∧ s'.rank < s.rank := by
  have hne : s.joiner ≠ .outside := by rw [hjoiner]; nofun
  have hflag := h.flag hne (by rw [hjoiner]; nofun)
  by_cases hrunning : ∃ task, s.cbThread = .running task
  · obtain ⟨task, hrunning⟩ := hrunning
    refine ⟨{ s with cbThread := .popping, called := s.called ++ [task] }, ?_, hne, ?_⟩
    · simp only [Pool.stepCbThread, hrunning]
    · simp only [rank, workerRank, cbRank, joinRank, hrunning, Loop.weight]
      omega
  · have hrunning : ∀ task, s.cbThread ≠ .running task := fun task heq => hrunning ⟨task, heq⟩
    obtain ⟨loop', cbTasks, hnext, hlt⟩ :=
      Loop.next_decreases id (fun _ => 5) 4 (fun _ => (by decide : 5 < 3 + 4))
        (h.cbShut.mpr (Or.inl hjoiner)) (fun hl => (h.cbDrained hl).2) hrunning hexited
    refine ⟨{ s with cbThread := loop', cbTasks := cbTasks }, ?_, hne, ?_⟩
    · unfold Pool.stepCbThread
      rw [hflag]
      split
      · rename_i task heq
        exact absurd heq (hrunning task)
      · rw [hnext]
        rfl
    · simp only [rank, workerRank, cbRank, joinRank]
      omega

/-- While `join` is under way, some thread can go on. -/
theorem Ok.decreases (h : Ok hasCallback s) (hne : s.joiner ≠ .outside)
    (hreturned : s.joiner ≠ .returned) :
    ∃ a s', s.step hasCallback a = some s' ∧ s'.joiner ≠ .outside ∧ s'.rank < s.rank := by
  cases hjoiner : s.joiner with
  | outside => exact absurd hjoiner hne
  | returned => exact absurd hjoiner hreturned
  | storing =>
      refine ⟨.join, { s with joined := true, joiner := .joining 0 }, ?_, nofun, ?_⟩
      · simp only [Pool.step, Pool.stepJoin, hjoiner]
      · simp only [rank, workerRank, cbRank, joinRank, hjoiner]
        omega
  | joining count =>
      cases hi : s.threads[count]? with
      | none =>
          have hle : count ≤ s.threads.length := by
            by_contra hgt
            have hexited := h.waited s.threads.length (by rw [hjoiner]; exact Nat.lt_of_not_le hgt)
            rw [List.getElem?_eq_none (Nat.le_refl _)] at hexited
            cases hexited
          refine
            ⟨.join, { s with cbTasks := s.cbTasks.shutdown, joiner := .joiningCb }, ?_, nofun, ?_⟩
          · simp only [Pool.step, Pool.stepJoin, hjoiner, hi]
          · simp only [rank, workerRank, cbRank, joinRank, hjoiner, SpinBlockingQueue.shutdown]
            omega
      | some loop =>
          by_cases hexited : loop = .exited
          · subst hexited
            have hlt := (List.getElem?_eq_some_iff.mp hi).1
            refine ⟨.join, { s with joiner := .joining (count + 1) }, ?_, nofun, ?_⟩
            · simp only [Pool.step, Pool.stepJoin, hjoiner, hi]
            · simp only [rank, workerRank, cbRank, joinRank, hjoiner]
              omega
          · obtain ⟨s', hstep, hjoiner', hlt⟩ := h.worker_decreases hjoiner hi hexited
            exact ⟨.worker count, s', hstep, hjoiner', hlt⟩
  | joiningCb =>
      by_cases hexited : s.cbThread = .exited
      · refine ⟨.join, { s with joiner := .returned }, ?_, nofun, ?_⟩
        · simp only [Pool.step, Pool.stepJoin, hjoiner, hexited]
        · simp only [rank, workerRank, cbRank, joinRank, hjoiner]
          omega
      · obtain ⟨s', hstep, hjoiner', hlt⟩ := h.cbThread_decreases hjoiner hexited
        exact ⟨.cbThread, s', hstep, hjoiner', hlt⟩

/-- `join` can always be brought to its end. -/
theorem Ok.run_returned (h : Ok hasCallback s) (hne : s.joiner ≠ .outside) :
    ∃ acts s', run (Pool.step hasCallback) s acts = some s' ∧ s'.joiner = .returned := by
  induction hrank : s.rank using Nat.strongRecOn generalizing s with
  | ind n ih =>
      by_cases hreturned : s.joiner = .returned
      · exact ⟨[], s, rfl, hreturned⟩
      · obtain ⟨a, t, hstep, hjoiner, hlt⟩ := h.decreases hne hreturned
        obtain ⟨acts, s', hrun, hend⟩ := ih t.rank (hrank ▸ hlt) (h.step hstep) hjoiner rfl
        exact ⟨a :: acts, s', (run_cons hstep).trans hrun, hend⟩

end Progress

end Pool

open Pool in
/-- The pool loses nothing at shutdown. Tasks leave the queue in push order and each is
executed at most once; once the queue is shut down a `put` has no effect; `join` can always
be brought to its end, and when it has returned, every task whose push took effect has been
executed once, its callback has been called once, and nothing happens any more. -/
theorem join_loses_nothing {α : Type*} (hasCallback : α → Bool) {threadNum : ℕ}
    (hpos : 1 ≤ threadNum) (useAsyncCb : Bool) {s : Pool α}
    (h : Reachable (Pool.step hasCallback) (Pool.create α threadNum useAsyncCb) s) :
    s.popped <+: s.pushed ∧
      (∃ others, s.pushed.Perm (s.executed ++ others)) ∧
      (s.tasks.stopped = true → ∀ task, s.step hasCallback (.put task) = some s) ∧
      (s.joiner ≠ .outside → ∃ acts s', run (Pool.step hasCallback) s acts = some s' ∧
        s'.joiner = .returned) ∧
      (s.joiner = .returned → s.executed.Perm s.pushed ∧
        s.called.Perm (s.pushed.filter hasCallback) ∧
        ∀ a s', s.step hasCallback a = some s' → s' = s) := by
  have hok := ok_of_reachable h
  refine ⟨⟨_, hok.order⟩, ⟨s.threads.flatMap Loop.unexecuted ++ s.tasks.queue, ?_⟩,
    fun hstopped task => congrArg some (put_of_stopped hstopped task), hok.run_returned,
    fun hreturned => ?_⟩
  · rw [← hok.order, ← List.append_assoc]
    exact (hok.executing.trans List.perm_append_comm).append_right _
  · obtain ⟨hexecuted, hcalled⟩ := hok.returned (by rw [length_threads h]; exact hpos) hreturned
    exact ⟨hexecuted, hcalled, fun a s' hstep => hok.step_returned hreturned hstep⟩

/-- Two tasks and one that comes too late; `join` overtakes both. -/
def shutdownRun : List (Act ℕ) :=
  [.put 1, .put 2, .worker 1, .join, .put 3, .worker 0, .worker 0, .worker 1, .worker 1, .worker 0,
    .cbThread, .join, .worker 0, .worker 0, .worker 0, .worker 1, .worker 1, .worker 1, .cbThread,
    .join, .join, .join, .cbThread, .cbThread, .cbThread, .cbThread, .cbThread, .join]

theorem join_loses_nothing_shutdownRun :
    ∃ s, run (Pool.step fun _ => true) (Pool.create ℕ 2 true) shutdownRun = some s ∧
      s.joiner = .returned ∧ s.executed.Perm [1, 2] ∧ s.called.Perm [1, 2] := by
  have hrun : (run (Pool.step fun _ => true) (Pool.create ℕ 2 true) shutdownRun).map
      (fun s => (s.joiner, s.pushed)) = some (.returned, [1, 2]) := rfl
  obtain ⟨s, hs, heq⟩ := Option.map_eq_some_iff.mp hrun
  obtain ⟨hjoiner, hpushed⟩ := Prod.mk.inj heq
  obtain ⟨-, -, -, -, hreturned⟩ :=
    join_loses_nothing (fun _ => true) (by decide : 1 ≤ 2) true ⟨shutdownRun, hs⟩
  obtain ⟨hexecuted, hcalled, -⟩ := hreturned hjoiner
  rw [hpushed] at hexecuted hcalled
  exact ⟨s, hs, hjoiner, hexecuted, hcalled⟩

end SimpleRedis.ThreadPool
