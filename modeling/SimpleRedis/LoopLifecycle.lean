import SimpleRedis.TransitionRun
import Mathlib.Data.Nat.Notation
import Mathlib.Logic.Function.Basic

/-!
# Starting and stopping an event loop

`start` sets `running_` and then starts the thread of `run`; `stop` exchanges `running_`, signals
the eventfd, and joins the thread. In between other threads post tasks, and so do the tasks. The
loop looks at `running_` between two batches of events, and empties its queue once more before it
leaves. A task that was posted before `stop` is then executed before `stop` returns, and the signal
of `stop` is never lost. `stop` returns unless the loop's own thread is caught in a `push`: its
queue is a ring, here a list that holds no more than `places` tasks, and nobody else empties it.
-/
namespace SimpleRedis.Lifecycle

open TransitionRun

variable {P T : Type*}

/-- Where a thread is: in `postTask` or `postTaskBatch`, with tasks left to push and the exchange
ahead, or before the write to the eventfd; in `start`, before the thread is made; or in `stop`,
before the write or before `join`. -/
inductive Spot (T : Type*) where
  | idle
  | posting (rest : List T)
  | signal
  | starting
  | stopping
  | joining

/-- Where the loop is: before it runs; before the condition of its `while`; in `epoll_wait`; in the
`for` loop over the batch; in a handler; before a read of the eventfd; in `drainTasks` before a
`pop`, in a task, before the store, before `empty()`, before the exchange, before the write; behind
the `while` before `empty()`, before `pop`, in a task; and behind the end of the thread. -/
inductive Point where
  | idle
  | checking
  | waiting
  | dispatching
  | handling
  | reading
  | popping
  | running
  | storing
  | recheck
  | exchange
  | signal
  | testing
  | lastPop
  | lastRun
  | exited
  deriving DecidableEq, Repr

/-- The loop with the threads that post to it or stop it; `none` is the loop's own thread. `batch`
are the events that are left, `true` for `wakeup_fd_`; `inFlight` counts the stores of false to
`awake` that only the loop's thread sees. `starting` says that a thread is in `start`, `promised`
are the tasks that were pushed before the last `stop`, and `broken` says that `epoll_wait` has
failed. -/
structure LoopThread (P T : Type*) where
  queue : List T
  awake : Bool
  inFlight : ℕ
  eventfd : ℕ
  running : Bool
  starting : Bool
  joined : Bool
  point : Point
  batch : List Bool
  spots : Option P → Spot T
  pushed : List T
  executed : List T
  promised : List T
  broken : Bool

inductive Act (P T : Type*) where
  | start (p : P)
  | call (t : Option P) (tasks : List T)
  | stop (p : P)
  | go (t : Option P)
  | wake (batch : List Bool)
  | interrupted
  | failed
  | loop
  | flush

namespace LoopThread

def fresh : LoopThread P T where
  queue := []
  awake := false
  inFlight := 0
  eventfd := 0
  running := false
  starting := false
  joined := false
  point := .idle
  batch := []
  spots _ := .idle
  pushed := []
  executed := []
  promised := []
  broken := false

/-- The loop's thread posts only while it runs a task or a handler. -/
def mayPost (s : LoopThread P T) (t : Option P) : Bool :=
  t.isSome || s.point = .handling || s.point = .running || s.point = .lastRun

/-- A task leaves the queue and is run. -/
def take (s : LoopThread P T) (task : T) (rest : List T) (point : Point) : LoopThread P T :=
  { s with queue := rest, executed := s.executed ++ [task], point := point }

/-- The loop leaves a task or a handler when it posts no more. -/
def leave (s : LoopThread P T) (point : Point) : Option (LoopThread P T) :=
  match s.spots none with
  | .idle => some { s with point := point }
  | _ => none

/-- The loop's next step. -/
def stepLoop (s : LoopThread P T) : Option (LoopThread P T) :=
  match s.point with
  | .idle | .waiting | .exited => none
  | .checking => some { s with point := if s.running then .waiting else .testing }
  | .dispatching =>
      match s.batch with
      | [] => some { s with point := .checking }
      | wakeup :: batch =>
          some { s with batch := batch, point := if wakeup then .reading else .handling }
  | .handling => s.leave .dispatching
  | .reading =>
      if s.eventfd = 0 then some { s with point := .popping } else some { s with eventfd := 0 }
  | .popping =>
      match s.queue with
      | [] => some { s with point := .storing }
      | task :: rest => some (s.take task rest .running)
  | .running => s.leave .popping
  | .storing => some { s with inFlight := s.inFlight + 1, point := .recheck }
  | .recheck =>
      some { s with point := if s.queue.isEmpty then .dispatching else .exchange }
  | .exchange =>
      if s.inFlight ≠ 0 then none
      else some { s with awake := true, point := if s.awake then .dispatching else .signal }
  | .signal => some { s with eventfd := s.eventfd + 1, point := .dispatching }
  | .testing => some { s with point := if s.queue.isEmpty then .exited else .lastPop }
  | .lastPop =>
      match s.queue with
      | [] => some { s with point := .testing }
      | task :: rest => some (s.take task rest .lastRun)
  | .lastRun => s.leave .testing

variable [DecidableEq P]

def goTo (s : LoopThread P T) (t : Option P) (spot : Spot T) : LoopThread P T :=
  { s with spots := Function.update s.spots t spot }

/-- The next step of a thread that posts, starts or stops. A `push` that finds the queue full has
no effect and is repeated, so it is no step; `join` waits for the end of the thread. -/
def stepThread (places : ℕ) (s : LoopThread P T) (t : Option P) : Option (LoopThread P T) :=
  match s.spots t with
  | .idle => none
  | .posting (task :: rest) =>
      if s.queue.length < places then
        some ({ s with queue := s.queue ++ [task], pushed := s.pushed ++ [task] }.goTo t
          (.posting rest))
      else none
  | .posting [] =>
      if t.isNone ∧ s.inFlight ≠ 0 then none
      else some ({ s with awake := true }.goTo t (if s.awake then .idle else .signal))
  | .signal => some ({ s with eventfd := s.eventfd + 1 }.goTo t .idle)
  | .starting =>
      some ({ s with starting := false, joined := false, broken := false, point := .checking }.goTo
        t .idle)
  | .stopping => some ({ s with eventfd := s.eventfd + 1 }.goTo t .joining)
  | .joining => if s.point = .exited then some ({ s with joined := true }.goTo t .idle) else none

/-- `start` runs the thread if it does not run; a thread that has run before was joined. `stop`
takes `running_`, or returns at once if it was false. `thread_` is not shared: nobody starts the
loop while another thread stops it, or stops it while another thread starts it. -/
def step (places : ℕ) (s : LoopThread P T) : Act P T → Option (LoopThread P T)
  | .start p =>
      match s.spots (some p) with
      | .idle =>
          if s.running = true then some s
          else if s.point = .idle ∨ s.joined = true then
            some ({ s with running := true, starting := true }.goTo (some p) .starting)
          else none
      | _ => none
  | .call t tasks =>
      match s.spots t with
      | .idle => if s.mayPost t then some (s.goTo t (.posting tasks)) else none
      | _ => none
  | .stop p =>
      match s.spots (some p) with
      | .idle =>
          if s.starting then none
          else if s.running then
            some ({ s with running := false, promised := s.pushed }.goTo (some p) .stopping)
          else some s
      | _ => none
  | .go t => s.stepThread places t
  | .wake batch =>
      if s.point = .waiting ∧ batch ≠ [] ∧ batch.count true ≤ 1 ∧
          (true ∈ batch → s.eventfd ≠ 0) then
        some { s with batch := batch, point := .dispatching }
      else none
  | .interrupted => if s.point = .waiting then some { s with point := .checking } else none
  | .failed =>
      if s.point = .waiting then some { s with point := .testing, broken := true } else none
  | .loop => s.stepLoop
  | .flush =>
      if s.inFlight = 0 then none
      else some { s with awake := false, inFlight := s.inFlight - 1 }

end LoopThread

/-- The thread is in `stop`, and has taken `running_`. -/
def Spot.Stops : Spot T → Prop
  | .stopping | .joining => True
  | _ => False

/-- The thread is in `start` or `stop`, which use `thread_`. -/
def Spot.Manages : Spot T → Prop
  | .starting | .stopping | .joining => True
  | _ => False

theorem Spot.Stops.manages {spot : Spot T} (h : spot.Stops) : spot.Manages := by
  cases spot <;> trivial

theorem Spot.manages_of_eq {spot : Spot T} (h : spot = .starting) : spot.Manages := by
  rw [h]
  trivial

/-- The loop is in a task or in a handler. -/
def Point.Posts (point : Point) : Prop :=
  point = .handling ∨ point = .running ∨ point = .lastRun

/-- The loop is behind its `while`. -/
def Point.Leaves (point : Point) : Prop :=
  point = .testing ∨ point = .lastPop ∨ point = .lastRun ∨ point = .exited

/-- The invariant of the loop and the threads that start and stop it. -/
structure Ok (places : ℕ) (s : LoopThread P T) : Prop where
  order : s.executed ++ s.queue = s.pushed
  bounded : s.queue.length ≤ places
  own : s.spots none ≠ .idle → s.point.Posts
  own_manages : ¬ (s.spots none).Manages
  woken : s.point = .waiting → s.running = false →
    s.eventfd ≠ 0 ∨ ∃ p, s.spots (some p) = .stopping
  winner : ∀ p, (s.spots (some p)).Stops →
    s.running = false ∧ s.joined = false ∧ s.point ≠ .idle
  starter : ∀ p, s.spots (some p) = .starting → s.starting = true
  unique : ∀ p q, (s.spots (some p)).Manages → (s.spots (some q)).Manages → p = q
  starts : s.starting = true → s.running = true ∧ (s.point = .idle ∨ s.joined = true)
  runs : s.running = true → s.starting = true ∨ s.joined = false ∧ s.point ≠ .idle
  joined : s.joined = true → s.point = .exited
  leaves : s.starting = false → s.point.Leaves → s.broken = true ∨ s.running = false
  last : s.point = .lastPop → s.queue ≠ []
  promised : s.promised <+: s.pushed
  kept : s.point = .exited → s.broken = false → s.promised <+: s.executed

theorem ok_fresh (places : ℕ) : Ok places (LoopThread.fresh : LoopThread P T) := by
  constructor <;> simp [LoopThread.fresh, Spot.Manages, Spot.Stops, Point.Leaves]

section Loop

variable {places : ℕ} {s s' : LoopThread P T}

theorem Ok.own_idle (h : Ok places s) (hposts : ¬ s.point.Posts) : s.spots none = .idle := by
  by_contra hne
  exact hposts (h.own hne)

theorem Ok.not_joined (h : Ok places s) (hpoint : s.point ≠ .exited) : s.joined = false := by
  rw [← Bool.not_eq_true]
  exact fun hjoined => hpoint (h.joined hjoined)

theorem Ok.not_starting (h : Ok places s) (hfrom : s.point ≠ .idle ∧ s.point ≠ .exited) :
    s.starting = false := by
  rw [← Bool.not_eq_true]
  intro hstarting
  rcases (h.starts hstarting).2 with hidle | hjoined
  · exact hfrom.1 hidle
  · exact hfrom.2 (h.joined hjoined)

/-- The loop goes on to another point, which is `epoll_wait` only while `running_` is set. -/
theorem Ok.move (h : Ok places s) (awake : Bool) (inFlight eventfd : ℕ) (batch : List Bool)
    (point : Point) (hfrom : s.point ≠ .idle ∧ s.point ≠ .exited)
    (hown : s.spots none = .idle ∨ point.Posts)
    (hidle : point ≠ .idle) (hwaits : point = .waiting → s.running = true)
    (hleaves : point.Leaves → s.broken = true ∨ s.running = false)
    (hqueue : (point = .lastPop → s.queue ≠ []) ∧ (point = .exited → s.queue = [])) :
    Ok places { s with
      awake := awake, inFlight := inFlight, eventfd := eventfd, batch := batch,
      point := point } := by
  have hjoined := h.not_joined hfrom.2
  have hstarting := h.not_starting hfrom
  constructor
  · exact h.order
  · exact h.bounded
  · exact fun hne => hown.resolve_left hne
  · exact h.own_manages
  · intro hwait hstopped
    rw [hwaits hwait] at hstopped
    cases hstopped
  · exact fun p hp => ⟨(h.winner p hp).1, hjoined, hidle⟩
  · exact h.starter
  · exact h.unique
  · simp [hstarting]
  · exact fun _ => Or.inr ⟨hjoined, hidle⟩
  · intro hjoined'
    rw [hjoined] at hjoined'
    cases hjoined'
  · exact fun _ => hleaves
  · exact hqueue.1
  · exact h.promised
  · intro hexited _
    have horder := h.order
    rw [hqueue.2 hexited, List.append_nil] at horder
    rw [horder]
    exact h.promised

/-- The loop takes a task. -/
theorem Ok.take (h : Ok places s) {task : T} {rest : List T} {point : Point}
    (hqueue : s.queue = task :: rest) (hposts : point.Posts)
    (hfrom : s.point ≠ .idle ∧ s.point ≠ .exited)
    (hleaves : point.Leaves → s.point.Leaves) : Ok places (s.take task rest point) := by
  have hjoined := h.not_joined hfrom.2
  have hstarting := h.not_starting hfrom
  have hbounded := h.bounded
  rw [hqueue, List.length_cons] at hbounded
  have hne : point ≠ .idle ∧ point ≠ .waiting ∧ point ≠ .lastPop ∧ point ≠ .exited := by
    rcases hposts with rfl | rfl | rfl <;> simp
  constructor
  · simp only [LoopThread.take, ← h.order, hqueue, List.append_assoc, List.singleton_append]
  · exact Nat.le_of_succ_le hbounded
  · exact fun _ => hposts
  · exact h.own_manages
  · exact fun hwait => absurd hwait hne.2.1
  · exact fun p hp => ⟨(h.winner p hp).1, hjoined, hne.1⟩
  · exact h.starter
  · exact h.unique
  · simp [LoopThread.take, hstarting]
  · exact fun _ => Or.inr ⟨hjoined, hne.1⟩
  · intro hjoined'
    rw [LoopThread.take, hjoined] at hjoined'
    cases hjoined'
  · exact fun hstarting hleave => h.leaves hstarting (hleaves hleave)
  · exact fun hlast => absurd hlast hne.2.2.1
  · exact h.promised
  · exact fun hexited => absurd hexited hne.2.2.2

/-- The loop goes on within a batch, or to the end of it. -/
theorem Ok.pass (h : Ok places s) (awake : Bool) (inFlight eventfd : ℕ) (batch : List Bool)
    {point : Point} (hfrom : s.point ≠ .idle ∧ s.point ≠ .exited) (hidle : s.spots none = .idle)
    (hto : point ≠ .idle ∧ point ≠ .waiting ∧ ¬ point.Leaves) :
    Ok places { s with
      awake := awake, inFlight := inFlight, eventfd := eventfd, batch := batch,
      point := point } := by
  obtain ⟨hne, hwait, hleaves⟩ := hto
  refine h.move _ _ _ _ _ hfrom (Or.inl hidle) hne (fun h => absurd h hwait)
    (fun h => absurd h hleaves) ⟨?_, ?_⟩
  · rintro rfl
    simp [Point.Leaves] at hleaves
  · rintro rfl
    simp [Point.Leaves] at hleaves

/-- The loop comes back from a task or a handler. -/
theorem Ok.leave (h : Ok places s) {point : Point} (hleave : s.leave point = some s')
    (hfrom : s.point ≠ .idle ∧ s.point ≠ .exited)
    (hpoint : point = .dispatching ∨ point = .popping ∨ point = .testing ∧ s.point.Leaves) :
    Ok places s' := by
  unfold LoopThread.leave at hleave
  split at hleave
  · rename_i hidle
    cases hleave
    rcases hpoint with rfl | rfl | ⟨rfl, hleaves⟩
    · exact h.pass _ _ _ _ hfrom hidle (by simp [Point.Leaves])
    · exact h.pass _ _ _ _ hfrom hidle (by simp [Point.Leaves])
    · exact h.move _ _ _ _ _ hfrom (Or.inl hidle) (by simp) (by simp)
        (fun _ => h.leaves (h.not_starting hfrom) hleaves) (by simp)
  · cases hleave

theorem Ok.stepLoop (h : Ok places s) (hstep : s.stepLoop = some s') : Ok places s' := by
  unfold LoopThread.stepLoop at hstep
  have hidle (hposts : ¬ s.point.Posts) := h.own_idle hposts
  cases hpoint : s.point with
  | idle | waiting | exited =>
      rw [hpoint] at hstep
      cases hstep
  | checking =>
      simp only [hpoint] at hstep
      cases hstep
      have hidle := hidle (by simp [Point.Posts, hpoint])
      split
      · rename_i hrunning
        exact h.move _ _ _ _ .waiting (by simp [hpoint]) (Or.inl hidle) (by simp)
          (fun _ => hrunning) (by simp [Point.Leaves]) (by simp)
      · rename_i hrunning
        exact h.move _ _ _ _ .testing (by simp [hpoint]) (Or.inl hidle) (by simp) (by simp)
          (fun _ => Or.inr (Bool.eq_false_iff.mpr hrunning)) (by simp)
  | dispatching =>
      simp only [hpoint] at hstep
      have hidle := hidle (by simp [Point.Posts, hpoint])
      split at hstep
      · cases hstep
        exact h.pass _ _ _ _ (by simp [hpoint]) hidle (by simp [Point.Leaves])
      · cases hstep
        refine h.pass _ _ _ _ (by simp [hpoint]) hidle ?_
        split <;> simp [Point.Leaves]
  | handling =>
      simp only [hpoint] at hstep
      exact h.leave hstep (by simp [hpoint]) (Or.inl rfl)
  | reading =>
      simp only [hpoint] at hstep
      have hidle := hidle (by simp [Point.Posts, hpoint])
      split at hstep
      · cases hstep
        exact h.pass _ _ _ _ (by simp [hpoint]) hidle (by simp [Point.Leaves])
      · cases hstep
        rw [← hpoint]
        exact h.pass _ _ _ _ (by simp [hpoint]) hidle (by simp [hpoint, Point.Leaves])
  | popping =>
      simp only [hpoint] at hstep
      have hidle := hidle (by simp [Point.Posts, hpoint])
      split at hstep
      · cases hstep
        exact h.pass _ _ _ _ (by simp [hpoint]) hidle (by simp [Point.Leaves])
      · rename_i task rest hqueue
        cases hstep
        exact h.take hqueue (by simp [Point.Posts]) (by simp [hpoint]) (by simp [Point.Leaves])
  | running =>
      simp only [hpoint] at hstep
      exact h.leave hstep (by simp [hpoint]) (Or.inr (Or.inl rfl))
  | storing =>
      simp only [hpoint] at hstep
      cases hstep
      exact h.pass _ _ _ _ (by simp [hpoint]) (hidle (by simp [Point.Posts, hpoint]))
        (by simp [Point.Leaves])
  | recheck =>
      simp only [hpoint] at hstep
      cases hstep
      refine h.pass _ _ _ _ (by simp [hpoint]) (hidle (by simp [Point.Posts, hpoint])) ?_
      split <;> simp [Point.Leaves]
  | exchange =>
      simp only [hpoint] at hstep
      split at hstep
      · cases hstep
      · cases hstep
        refine h.pass _ _ _ _ (by simp [hpoint]) (hidle (by simp [Point.Posts, hpoint])) ?_
        split <;> simp [Point.Leaves]
  | signal =>
      simp only [hpoint] at hstep
      cases hstep
      exact h.pass _ _ _ _ (by simp [hpoint]) (hidle (by simp [Point.Posts, hpoint]))
        (by simp [Point.Leaves])
  | testing =>
      simp only [hpoint] at hstep
      cases hstep
      have hidle := hidle (by simp [Point.Posts, hpoint])
      have hleaves := h.leaves (h.not_starting (by simp [hpoint])) (by simp [Point.Leaves, hpoint])
      split
      · rename_i hqueue
        exact h.move _ _ _ _ .exited (by simp [hpoint]) (Or.inl hidle) (by simp) (by simp)
          (fun _ => hleaves) ⟨by simp, fun _ => List.isEmpty_iff.mp hqueue⟩
      · rename_i hqueue
        exact h.move _ _ _ _ .lastPop (by simp [hpoint]) (Or.inl hidle) (by simp) (by simp)
          (fun _ => hleaves) ⟨fun _ hnil => hqueue (List.isEmpty_iff.mpr hnil), by simp⟩
  | lastPop =>
      simp only [hpoint] at hstep
      have hidle := hidle (by simp [Point.Posts, hpoint])
      have hleaves : s.point.Leaves := by simp [Point.Leaves, hpoint]
      split at hstep
      · rename_i hqueue
        exact absurd hqueue (h.last hpoint)
      · rename_i task rest hqueue
        cases hstep
        exact h.take hqueue (by simp [Point.Posts]) (by simp [hpoint]) fun _ => hleaves
  | lastRun =>
      simp only [hpoint] at hstep
      exact h.leave hstep (by simp [hpoint])
        (Or.inr (Or.inr ⟨rfl, by simp [Point.Leaves, hpoint]⟩))

/-- The flags of the wake-up and a signal change nothing. -/
theorem Ok.signal (h : Ok places s) (awake : Bool) (inFlight : ℕ) {eventfd : ℕ}
    (hle : s.eventfd ≤ eventfd) :
    Ok places { s with awake := awake, inFlight := inFlight, eventfd := eventfd } := by
  refine { h with woken := fun hwait hstopped => ?_ }
  refine (h.woken hwait hstopped).imp_left fun hevent => ?_
  exact Nat.ne_of_gt (Nat.lt_of_lt_of_le (Nat.pos_of_ne_zero hevent) hle)

/-- `epoll_wait` has failed. -/
theorem Ok.break (h : Ok places s) : Ok places { s with broken := true } := by
  refine { h with leaves := fun _ _ => Or.inl rfl, kept := ?_ }
  intro _ hbroken
  cases hbroken

/-- A task is pushed. -/
theorem Ok.push (h : Ok places s) (hplace : s.queue.length < places) (task : T) :
    Ok places { s with queue := s.queue ++ [task], pushed := s.pushed ++ [task] } := by
  refine { h with order := ?_, bounded := ?_, last := ?_, promised := ?_ }
  · simp only [← h.order, List.append_assoc]
  · rw [List.length_append]
    exact hplace
  · simp
  · exact h.promised.trans (List.prefix_append _ _)

theorem Ok.mayPost (h : Ok places s) {t : Option P} (hbusy : s.spots t ≠ .idle) :
    s.mayPost t = true := by
  cases t with
  | some p => rfl
  | none =>
      rcases h.own hbusy with hpoint | hpoint | hpoint <;> simp [LoopThread.mayPost, hpoint]

/-- Without a thread that can be joined nobody stops the loop, and its thread does not run. -/
theorem Ok.unmanaged (h : Ok places s) (hstart : s.point = .idle ∨ s.joined = true) :
    (∀ q, ¬ (s.spots (some q)).Stops) ∧ s.spots none = .idle := by
  constructor
  · intro q hq
    obtain ⟨-, hjoined, hpoint⟩ := h.winner q hq
    rcases hstart with hidle | hjoined'
    · exact hpoint hidle
    · rw [hjoined] at hjoined'
      cases hjoined'
  · refine h.own_idle ?_
    rcases hstart with hidle | hjoined
    · simp [Point.Posts, hidle]
    · simp [Point.Posts, h.joined hjoined]

end Loop

section Threads

variable [DecidableEq P] {places : ℕ} {s s' : LoopThread P T} {t : Option P}

@[simp] theorem spots_goTo (spot : Spot T) : (s.goTo t spot).spots t = spot :=
  Function.update_self ..

theorem spots_goTo_of_ne {u : Option P} (spot : Spot T) (hut : u ≠ t) :
    (s.goTo t spot).spots u = s.spots u :=
  Function.update_of_ne hut ..

@[simp] theorem spots_goTo_none {p : P} (spot : Spot T) :
    (s.goTo (some p) spot).spots none = s.spots none :=
  spots_goTo_of_ne spot (Option.some_ne_none p).symm

/-- A thread that goes anywhere else is not in `start`. -/
theorem starting_of_update {spots : Option P → Spot T} {p q : P} {spot : Spot T}
    (hq : Function.update spots (some p) spot (some q) = .starting) (hspot : spot ≠ .starting) :
    spots (some q) = .starting := by
  by_cases hqp : q = p
  · subst hqp
    exact absurd ((Function.update_self ..).symm.trans hq) hspot
  · rwa [Function.update_of_ne (by simpa using hqp)] at hq

/-- Where only one thread can be in `start` or `stop`, no other one is. -/
theorem unique_goTo {p : P} (spot : Spot T)
    (h : ∀ q, q ≠ p → ¬ (s.spots (some q)).Manages) :
    ∀ q r, ((s.goTo (some p) spot).spots (some q)).Manages →
      ((s.goTo (some p) spot).spots (some r)).Manages → q = r := by
  have honly : ∀ q, ((s.goTo (some p) spot).spots (some q)).Manages → q = p := by
    intro q hq
    by_contra hqp
    rw [spots_goTo_of_ne spot (by simpa using hqp)] at hq
    exact h q hqp hq
  exact fun q r hq hr => (honly q hq).trans (honly r hr).symm

/-- A thread goes on with its posting. -/
theorem Ok.goTo (h : Ok places s) {spot : Spot T} (hmay : s.mayPost t = true)
    (hfrom : ¬ (s.spots t).Manages) (hto : ¬ spot.Manages) : Ok places (s.goTo t spot) := by
  have hmanages : ∀ u, ((s.goTo t spot).spots u).Manages → (s.goTo t spot).spots u = s.spots u := by
    intro u hu
    by_cases hut : u = t
    · subst hut
      rw [spots_goTo] at hu
      exact absurd hu hto
    · exact spots_goTo_of_ne spot hut
  refine { h with
    own := ?_, own_manages := ?_, woken := ?_, winner := ?_, starter := ?_, unique := ?_ }
  · intro hne
    cases t with
    | none =>
        have hposts : s.point.Posts := by
          simpa [LoopThread.mayPost, Point.Posts, or_assoc] using hmay
        exact hposts
    | some p => exact h.own (by simpa using hne)
  · exact fun hown => h.own_manages (hmanages none hown ▸ hown)
  · intro hwait hstopped
    refine (h.woken hwait hstopped).imp_right ?_
    rintro ⟨p, hp⟩
    refine ⟨p, ?_⟩
    have hpt : some p ≠ t := by
      rintro rfl
      rw [hp] at hfrom
      exact hfrom trivial
    exact (spots_goTo_of_ne spot hpt).trans hp
  · exact fun p hp => h.winner p (hmanages (some p) hp.manages ▸ hp)
  · intro p hp
    refine h.starter p ((hmanages (some p) ?_).symm.trans hp)
    rw [hp]
    trivial
  · exact fun p q hp hq =>
      h.unique p q (hmanages (some p) hp ▸ hp) (hmanages (some q) hq ▸ hq)

theorem not_manages_goTo {p : P} (h : ∀ q, q ≠ p → ¬ (s.spots (some q)).Manages) (q : P) :
    ¬ ((s.goTo (some p) .idle).spots (some q)).Manages := by
  by_cases hqp : q = p
  · subst hqp
    rw [spots_goTo]
    exact id
  · rw [spots_goTo_of_ne _ (by simpa using hqp)]
    exact h q hqp

/-- `start` has set `running_`. -/
theorem Ok.start (h : Ok places s) (p : P) (hrunning : s.running = false)
    (hstart : s.point = .idle ∨ s.joined = true) :
    Ok places ({ s with running := true, starting := true }.goTo (some p) .starting) := by
  obtain ⟨hnone, hown⟩ := h.unmanaged hstart
  have hfree : ∀ q, ¬ (s.spots (some q)).Manages := by
    intro q hq
    cases hspot : s.spots (some q) with
    | starting =>
        rw [(h.starts (h.starter q hspot)).1] at hrunning
        cases hrunning
    | stopping | joining => exact hnone q (by rw [hspot]; trivial)
    | idle | posting | signal =>
        rw [hspot] at hq
        exact hq
  exact
    { order := h.order
      bounded := h.bounded
      own := fun hne => h.own (by simpa using hne)
      own_manages := by simpa using h.own_manages
      woken := by simp [LoopThread.goTo]
      winner := by
        intro q hq
        by_cases hqp : q = p
        · subst hqp
          rw [spots_goTo] at hq
          exact hq.elim
        · rw [spots_goTo_of_ne _ (by simpa using hqp)] at hq
          exact absurd hq (hnone q)
      starter := fun _ _ => rfl
      unique := unique_goTo _ fun q _ => hfree q
      starts := fun _ => ⟨rfl, hstart⟩
      runs := fun _ => Or.inl rfl
      joined := h.joined
      leaves := nofun
      last := h.last
      promised := h.promised
      kept := h.kept }

/-- `start` has made the thread. -/
theorem Ok.create (h : Ok places s) {p : P} (hspot : s.spots (some p) = .starting) :
    Ok places ({ s with
      starting := false, joined := false, broken := false, point := .checking }.goTo (some p)
        .idle) := by
  obtain ⟨-, hown⟩ := h.unmanaged (h.starts (h.starter p hspot)).2
  have hfree : ∀ q, q ≠ p → ¬ (s.spots (some q)).Manages := fun q hqp hq =>
    hqp (h.unique q p hq (Spot.manages_of_eq hspot))
  exact
    { order := h.order
      bounded := h.bounded
      own := fun hne => absurd hown (by simpa using hne)
      own_manages := by simpa using h.own_manages
      woken := by simp [LoopThread.goTo]
      winner := fun q hq => absurd hq.manages (not_manages_goTo hfree q)
      starter := fun q hq => absurd (Spot.manages_of_eq hq) (not_manages_goTo hfree q)
      unique := unique_goTo _ hfree
      starts := nofun
      runs := fun _ => Or.inr ⟨rfl, by simp [LoopThread.goTo]⟩
      joined := by simp [LoopThread.goTo]
      leaves := by simp [LoopThread.goTo, Point.Leaves]
      last := by simp [LoopThread.goTo]
      promised := h.promised
      kept := by simp [LoopThread.goTo] }

/-- The thread that stops the loop goes on. -/
theorem Ok.stopped (h : Ok places s) {p : P} {spot : Spot T} (hstops : (s.spots (some p)).Stops)
    (hspot : spot.Stops) (hwoken : s.point = .waiting → s.eventfd ≠ 0 ∨ spot = .stopping) :
    Ok places (s.goTo (some p) spot) := by
  refine { h with
    own := ?_, own_manages := ?_, woken := ?_, winner := ?_, starter := ?_, unique := ?_ }
  · exact fun hne => h.own (by simpa using hne)
  · simpa using h.own_manages
  · intro hwait _
    refine (hwoken hwait).imp_right ?_
    rintro rfl
    exact ⟨p, spots_goTo _⟩
  · exact fun _ _ => h.winner p hstops
  · refine fun q hq => h.starter q (starting_of_update hq ?_)
    rintro rfl
    exact hspot
  · exact unique_goTo spot fun q hqp hq => hqp (h.unique q p hq hstops.manages)

/-- `stop` has joined the thread. -/
theorem Ok.join (h : Ok places s) {p : P} (hspot : s.spots (some p) = .joining)
    (hexited : s.point = .exited) :
    Ok places ({ s with joined := true }.goTo (some p) .idle) := by
  have hp : (s.spots (some p)).Stops := by
    rw [hspot]
    trivial
  have hrunning := (h.winner p hp).1
  have hfree : ∀ q, q ≠ p → ¬ (s.spots (some q)).Manages := fun q hqp hq =>
    hqp (h.unique q p hq hp.manages)
  exact
    { order := h.order
      bounded := h.bounded
      own := fun hne => h.own (by simpa using hne)
      own_manages := by simpa using h.own_manages
      woken := by simp [LoopThread.goTo, hexited]
      winner := fun q hq => absurd hq.manages (not_manages_goTo hfree q)
      starter := fun q hq => absurd (Spot.manages_of_eq hq) (not_manages_goTo hfree q)
      unique := unique_goTo _ hfree
      starts := fun hstarting => ⟨(h.starts hstarting).1, Or.inr rfl⟩
      runs := fun hruns => absurd hruns (by simp [LoopThread.goTo, hrunning])
      joined := fun _ => hexited
      leaves := h.leaves
      last := h.last
      promised := h.promised
      kept := h.kept }

theorem Ok.stepThread (h : Ok places s) (hstep : s.stepThread places t = some s') :
    Ok places s' := by
  unfold LoopThread.stepThread at hstep
  cases hspot : s.spots t with
  | idle =>
      rw [hspot] at hstep
      cases hstep
  | posting rest =>
      have hmay := h.mayPost (t := t) (by simp [hspot])
      have hfrom : ¬ (s.spots t).Manages := by
        rw [hspot]
        exact id
      cases rest with
      | nil =>
          simp only [hspot] at hstep
          split at hstep
          · cases hstep
          · cases hstep
            refine (h.signal true s.inFlight (Nat.le_refl _)).goTo hmay hfrom ?_
            split <;> exact id
      | cons task rest =>
          simp only [hspot] at hstep
          split at hstep
          · rename_i hplace
            cases hstep
            exact (h.push hplace task).goTo hmay hfrom id
          · cases hstep
  | signal =>
      simp only [hspot] at hstep
      cases hstep
      have hmay := h.mayPost (t := t) (by simp [hspot])
      refine (h.signal s.awake s.inFlight (Nat.le_succ _)).goTo hmay ?_ id
      rw [hspot]
      exact id
  | starting =>
      simp only [hspot] at hstep
      cases hstep
      cases t with
      | none => exact absurd (Spot.manages_of_eq hspot) h.own_manages
      | some p => exact h.create hspot
  | stopping =>
      simp only [hspot] at hstep
      cases hstep
      cases t with
      | none => exact absurd (by rw [hspot]; trivial) h.own_manages
      | some p =>
          have hp : (s.spots (some p)).Stops := by
            rw [hspot]
            trivial
          exact (h.signal s.awake s.inFlight (Nat.le_succ _)).stopped hp trivial
            fun _ => Or.inl (Nat.succ_ne_zero _)
  | joining =>
      simp only [hspot] at hstep
      split at hstep
      · rename_i hexited
        cases hstep
        cases t with
        | none => exact absurd (by rw [hspot]; trivial) h.own_manages
        | some p => exact h.join hspot hexited
      · cases hstep

/-- `stop` has taken `running_`. -/
theorem Ok.stop (h : Ok places s) (p : P) (hstarting : s.starting = false)
    (hrunning : s.running = true) :
    Ok places ({ s with running := false, promised := s.pushed }.goTo (some p) .stopping) := by
  obtain ⟨hjoined, hpoint⟩ := (h.runs hrunning).resolve_left (by simp [hstarting])
  have hfree : ∀ q, ¬ (s.spots (some q)).Manages := by
    intro q hq
    cases hspot : s.spots (some q) with
    | starting => exact absurd (h.starter q hspot) (by simp [hstarting])
    | stopping | joining =>
        have hstopped := (h.winner q (by rw [hspot]; trivial)).1
        exact absurd hrunning (by simp [hstopped])
    | idle | posting | signal =>
        rw [hspot] at hq
        exact hq
  have hkept : s.point = .exited → s.broken = false → s.pushed <+: s.executed := by
    intro hexited hbroken
    rcases h.leaves hstarting (by simp [Point.Leaves, hexited]) with hb | hr
    · rw [hb] at hbroken
      cases hbroken
    · rw [hr] at hrunning
      cases hrunning
  exact
    { order := h.order
      bounded := h.bounded
      own := fun hne => h.own (by simpa using hne)
      own_manages := by simpa using h.own_manages
      woken := fun _ _ => Or.inr ⟨p, spots_goTo _⟩
      winner := fun q _ => ⟨rfl, hjoined, hpoint⟩
      starter := fun q hq => h.starter q (starting_of_update hq nofun)
      unique := unique_goTo _ fun q _ => hfree q
      starts := fun hbegun => absurd hbegun (by simp [LoopThread.goTo, hstarting])
      runs := by simp [LoopThread.goTo]
      joined := h.joined
      leaves := fun _ _ => Or.inr rfl
      last := h.last
      promised := List.prefix_refl _
      kept := hkept }

theorem Ok.step (h : Ok places s) {a : Act P T} (hstep : s.step places a = some s') :
    Ok places s' := by
  cases a with
  | start p =>
      simp only [LoopThread.step] at hstep
      split at hstep
      · split at hstep
        · cases hstep
          exact h
        · rename_i hrunning
          split at hstep
          · rename_i hstart
            cases hstep
            exact h.start p (Bool.eq_false_iff.mpr hrunning) hstart
          · cases hstep
      · cases hstep
  | call t tasks =>
      simp only [LoopThread.step] at hstep
      split at hstep
      · rename_i hidle
        split at hstep
        · rename_i hmay
          cases hstep
          refine h.goTo hmay ?_ id
          rw [hidle]
          exact id
        · cases hstep
      · cases hstep
  | stop p =>
      simp only [LoopThread.step] at hstep
      split at hstep
      · split at hstep
        · cases hstep
        · rename_i hstarting
          split at hstep
          · rename_i hrunning
            cases hstep
            exact h.stop p (Bool.eq_false_iff.mpr hstarting) hrunning
          · cases hstep
            exact h
      · cases hstep
  | go t => exact h.stepThread hstep
  | wake batch =>
      obtain ⟨⟨hpoint, -⟩, hs'⟩ := Option.ite_none_right_eq_some.mp hstep
      cases hs'
      exact h.pass _ _ _ _ (by simp [hpoint]) (h.own_idle (by simp [Point.Posts, hpoint]))
        (by simp [Point.Leaves])
  | interrupted =>
      obtain ⟨hpoint, hs'⟩ := Option.ite_none_right_eq_some.mp hstep
      cases hs'
      exact h.pass _ _ _ _ (by simp [hpoint]) (h.own_idle (by simp [Point.Posts, hpoint]))
        (by simp [Point.Leaves])
  | failed =>
      obtain ⟨hpoint, hs'⟩ := Option.ite_none_right_eq_some.mp hstep
      cases hs'
      exact h.break.move _ _ _ _ .testing (by simp [hpoint])
        (Or.inl (h.own_idle (by simp [Point.Posts, hpoint]))) (by simp) (by simp)
        (fun _ => Or.inl rfl) (by simp)
  | loop => exact h.stepLoop hstep
  | flush =>
      obtain ⟨-, hs'⟩ := Option.ite_none_left_eq_some.mp hstep
      cases hs'
      exact h.signal _ _ (Nat.le_refl _)

theorem ok_of_reachable
    (h : Reachable (LoopThread.step places) (LoopThread.fresh : LoopThread P T) s) : Ok places s :=
  h.invariant (fun _ _ _ hok hstep => hok.step hstep) (ok_fresh places)

end Threads

section Progress

/-- The steps that a thread has before it; a task that it pushes has to be run as well. -/
def Spot.rank : Spot T → ℕ
  | .idle | .starting => 0
  | .posting rest => 22 * rest.length + 3
  | .signal => 2
  | .stopping => 3
  | .joining => 1

/-- The steps to the end of the thread of `run` but for tasks and events, once `running_` is
false. -/
def Point.rank : Point → ℕ
  | .idle | .exited => 0
  | .lastPop => 2
  | .testing => 3
  | .lastRun => 4
  | .checking => 5
  | .dispatching => 6
  | .handling => 7
  | .signal => 8
  | .exchange => 9
  | .recheck => 10
  | .storing => 14
  | .popping => 15
  | .running => 16
  | .reading => 20
  | .waiting => 40

/-- What is left to do until `stop` returns, if nobody posts anything new. -/
def rank (s : LoopThread P T) (p : P) : ℕ :=
  s.point.rank + (if s.point = .reading ∧ s.eventfd ≠ 0 then 1 else 0) + 20 * s.queue.length +
    30 * s.batch.length + 3 * s.inFlight + (s.spots none).rank + (s.spots (some p)).rank

/-- The steps of the loop's thread, of the kernel and of the memory. -/
def Act.isLoop : Act P T → Bool
  | .go none | .wake _ | .loop | .flush => true
  | _ => false

/-- The ring has places for all that the task of the loop's thread is about to post. -/
def OwnFits (places : ℕ) (s : LoopThread P T) : Prop :=
  ∀ rest, s.spots none = .posting rest → s.queue.length + rest.length ≤ places

theorem OwnFits.mono {places : ℕ} {s s' : LoopThread P T} (h : OwnFits places s)
    (hspot : s'.spots none = s.spots none) (hqueue : s'.queue.length ≤ s.queue.length) :
    OwnFits places s' := fun rest hrest =>
  Nat.le_trans (Nat.add_le_add_right hqueue _) (h rest (hspot ▸ hrest))

/-- The loop itself posts nothing and empties the queue only. -/
theorem frame_stepLoop {s s' : LoopThread P T} (hstep : s.stepLoop = some s') :
    s'.spots = s.spots ∧ s'.queue.length ≤ s.queue.length := by
  have hleave : ∀ point, s.leave point = some s' →
      s'.spots = s.spots ∧ s'.queue.length ≤ s.queue.length := by
    intro point hs'
    unfold LoopThread.leave at hs'
    split at hs'
    · cases hs'
      exact ⟨rfl, Nat.le_refl _⟩
    · cases hs'
  have htake : ∀ task rest point, s.queue = task :: rest → s.take task rest point = s' →
      s'.spots = s.spots ∧ s'.queue.length ≤ s.queue.length := by
    rintro task rest point hqueue rfl
    exact ⟨rfl, by rw [hqueue]; exact Nat.le_succ _⟩
  unfold LoopThread.stepLoop at hstep
  cases hpoint : s.point <;> simp only [hpoint] at hstep
  case idle | waiting | exited => cases hstep
  case handling | running | lastRun => exact hleave _ hstep
  case popping | lastPop =>
    split at hstep
    · cases hstep
      exact ⟨rfl, Nat.le_refl _⟩
    · rename_i task rest hqueue
      exact htake task rest _ hqueue (Option.some.inj hstep)
  case checking | storing | recheck | signal | testing =>
    cases hstep
    exact ⟨rfl, Nat.le_refl _⟩
  case dispatching | reading | exchange =>
    split at hstep <;> cases hstep <;> exact ⟨rfl, Nat.le_refl _⟩

variable [DecidableEq P] {places : ℕ} {s s' : LoopThread P T} {p : P}

/-- A step of the loop brings the thread in `stop` closer to its end. -/
def Advances (places : ℕ) (s : LoopThread P T) (p : P) : Prop :=
  ∃ a s', a.isLoop = true ∧ s.step places a = some s' ∧
    s'.spots (some p) = s.spots (some p) ∧ rank s' p < rank s p

/-- A store becomes visible. -/
theorem flush_advances (hflight : s.inFlight ≠ 0) :
    Advances places s p := by
  refine ⟨.flush, _, rfl, if_neg hflight, rfl, ?_⟩
  simp only [rank]
  omega

/-- A task or a handler comes closer to its end. -/
theorem Ok.posts_advances (h : Ok places s) (hfits : OwnFits places s)
    (hposts : s.point.Posts) :
    Advances places s p := by
  have hread : s.point ≠ .reading := by
    rcases hposts with hpoint | hpoint | hpoint <;> simp [hpoint]
  cases hspot : s.spots none with
  | idle =>
      rcases hposts with hpoint | hpoint | hpoint
      · refine ⟨.loop, { s with point := .dispatching }, rfl, ?_, rfl, ?_⟩
        · simp [LoopThread.step, LoopThread.stepLoop, LoopThread.leave, hpoint, hspot]
        · simp [rank, Point.rank, hpoint]
      · refine ⟨.loop, { s with point := .popping }, rfl, ?_, rfl, ?_⟩
        · simp [LoopThread.step, LoopThread.stepLoop, LoopThread.leave, hpoint, hspot]
        · simp [rank, Point.rank, hpoint]
      · refine ⟨.loop, { s with point := .testing }, rfl, ?_, rfl, ?_⟩
        · simp [LoopThread.step, LoopThread.stepLoop, LoopThread.leave, hpoint, hspot]
        · simp [rank, Point.rank, hpoint]
  | posting rest =>
      cases rest with
      | cons task rest =>
          refine ⟨.go none, { s with
            queue := s.queue ++ [task], pushed := s.pushed ++ [task] }.goTo none (.posting rest),
            rfl, ?_, ?_, ?_⟩
          · have hplace := hfits _ hspot
            rw [List.length_cons] at hplace
            have hlt : s.queue.length < places := by omega
            simp [LoopThread.step, LoopThread.stepThread, hspot, hlt]
          · simp [LoopThread.goTo]
          · simp [rank, LoopThread.goTo, hspot, Spot.rank, hread]
            omega
      | nil =>
          by_cases hflight : s.inFlight = 0
          · refine ⟨.go none, { s with awake := true }.goTo none
              (if s.awake then .idle else .signal), rfl, ?_, ?_, ?_⟩
            · simp [LoopThread.step, LoopThread.stepThread, hspot, hflight]
            · simp [LoopThread.goTo]
            · cases s.awake <;> simp [rank, LoopThread.goTo, hspot, Spot.rank]
          · exact flush_advances hflight
  | signal =>
      refine ⟨.go none, { s with eventfd := s.eventfd + 1 }.goTo none .idle, rfl, ?_, ?_, ?_⟩
      · simp [LoopThread.step, LoopThread.stepThread, hspot]
      · simp [LoopThread.goTo]
      · simp [rank, LoopThread.goTo, hspot, Spot.rank, hread]
  | starting | stopping | joining => exact absurd (by rw [hspot]; trivial) h.own_manages

/-- Where the loop's thread is neither in `epoll_wait` nor in a task nor at its end, it goes on. -/
theorem Ok.loop_advances (h : Ok places s) (hrunning : s.running = false) (hposts : ¬ s.point.Posts)
    (hpoint : s.point ≠ .idle ∧ s.point ≠ .waiting ∧ s.point ≠ .exited) :
    Advances places s p := by
  obtain ⟨hidle, hwait, hexited⟩ := hpoint
  cases hpoint : s.point with
  | idle => exact absurd hpoint hidle
  | waiting => exact absurd hpoint hwait
  | exited => exact absurd hpoint hexited
  | handling | running | lastRun => exact absurd (by simp [Point.Posts, hpoint]) hposts
  | checking =>
      refine ⟨.loop, { s with point := .testing }, rfl, ?_, rfl, ?_⟩
      · simp [LoopThread.step, LoopThread.stepLoop, hpoint, hrunning]
      · simp [rank, Point.rank, hpoint]
  | dispatching =>
      cases hbatch : s.batch with
      | nil =>
          refine ⟨.loop, { s with point := .checking }, rfl, ?_, rfl, ?_⟩
          · simp [LoopThread.step, LoopThread.stepLoop, hpoint, hbatch]
          · simp [rank, Point.rank, hpoint]
      | cons wakeup batch =>
          refine ⟨.loop, { s with
            batch := batch, point := if wakeup then .reading else .handling }, rfl, ?_, rfl, ?_⟩
          · simp [LoopThread.step, LoopThread.stepLoop, hpoint, hbatch]
          · simp only [rank, hpoint, hbatch, List.length_cons]
            cases wakeup
            · simp [Point.rank]
              omega
            · simp [Point.rank]
              split <;> omega
  | reading =>
      by_cases hevent : s.eventfd = 0
      · refine ⟨.loop, { s with point := .popping }, rfl, ?_, rfl, ?_⟩
        · simp [LoopThread.step, LoopThread.stepLoop, hpoint, hevent]
        · simp [rank, Point.rank, hpoint, hevent]
      · refine ⟨.loop, { s with eventfd := 0 }, rfl, ?_, rfl, ?_⟩
        · simp [LoopThread.step, LoopThread.stepLoop, hpoint, hevent]
        · simp [rank, hpoint, hevent]
  | popping =>
      cases hqueue : s.queue with
      | nil =>
          refine ⟨.loop, { s with point := .storing }, rfl, ?_, rfl, ?_⟩
          · simp [LoopThread.step, LoopThread.stepLoop, hpoint, hqueue]
          · simp [rank, Point.rank, hpoint]
      | cons task rest =>
          refine ⟨.loop, s.take task rest .running, rfl, ?_, rfl, ?_⟩
          · simp [LoopThread.step, LoopThread.stepLoop, hpoint, hqueue]
          · simp [rank, LoopThread.take, Point.rank, hpoint, hqueue]
            omega
  | storing =>
      refine ⟨.loop, { s with inFlight := s.inFlight + 1, point := .recheck }, rfl, ?_, rfl, ?_⟩
      · simp [LoopThread.step, LoopThread.stepLoop, hpoint]
      · simp [rank, Point.rank, hpoint]
        omega
  | recheck =>
      refine ⟨.loop, { s with
        point := if s.queue.isEmpty then .dispatching else .exchange }, rfl, ?_, rfl, ?_⟩
      · simp [LoopThread.step, LoopThread.stepLoop, hpoint]
      · simp only [rank, hpoint]
        split <;> simp [Point.rank]
  | exchange =>
      by_cases hflight : s.inFlight = 0
      · refine ⟨.loop, { s with
          awake := true, point := if s.awake then .dispatching else .signal }, rfl, ?_, rfl, ?_⟩
        · simp [LoopThread.step, LoopThread.stepLoop, hpoint, hflight]
        · simp only [rank, hpoint]
          split <;> simp [Point.rank]
      · exact flush_advances hflight
  | signal =>
      refine ⟨.loop, { s with eventfd := s.eventfd + 1, point := .dispatching }, rfl, ?_, rfl, ?_⟩
      · simp [LoopThread.step, LoopThread.stepLoop, hpoint]
      · simp [rank, Point.rank, hpoint]
  | testing =>
      refine ⟨.loop, { s with
        point := if s.queue.isEmpty then .exited else .lastPop }, rfl, ?_, rfl, ?_⟩
      · simp [LoopThread.step, LoopThread.stepLoop, hpoint]
      · simp only [rank, hpoint]
        split <;> simp [Point.rank]
  | lastPop =>
      cases hqueue : s.queue with
      | nil => exact absurd hqueue (h.last hpoint)
      | cons task rest =>
          refine ⟨.loop, s.take task rest .lastRun, rfl, ?_, rfl, ?_⟩
          · simp [LoopThread.step, LoopThread.stepLoop, hpoint, hqueue]
          · simp [rank, LoopThread.take, Point.rank, hpoint, hqueue]
            omega

/-- A thread pushes its next task, or goes on without the queue. -/
theorem frame_stepThread {t : Option P} (hstep : s.stepThread places t = some s') :
    (∃ task rest, s.spots t = .posting (task :: rest) ∧ s'.queue = s.queue ++ [task] ∧
      s'.spots = Function.update s.spots t (.posting rest)) ∨
    s'.queue = s.queue ∧ (∀ rest, s.spots t = .posting rest → rest = []) ∧
      ∃ spot, s'.spots = Function.update s.spots t spot ∧ (∀ rest, spot ≠ .posting rest) ∧
        ((s.spots t).Stops → spot.Stops ∨ s.point = .exited) := by
  unfold LoopThread.stepThread at hstep
  cases hspot : s.spots t with
  | idle =>
      rw [hspot] at hstep
      cases hstep
  | posting rest =>
      cases rest with
      | cons task rest =>
          simp only [hspot] at hstep
          split at hstep
          · cases hstep
            exact Or.inl ⟨task, rest, rfl, rfl, rfl⟩
          · cases hstep
      | nil =>
          simp only [hspot] at hstep
          split at hstep
          · cases hstep
          · cases hstep
            refine Or.inr ⟨rfl, fun _ hnil => (Spot.posting.inj hnil).symm, _, rfl, ?_, False.elim⟩
            intro rest
            split <;> simp
  | signal | starting =>
      simp only [hspot] at hstep
      cases hstep
      exact Or.inr ⟨rfl, nofun, _, rfl, nofun, False.elim⟩
  | stopping =>
      simp only [hspot] at hstep
      cases hstep
      exact Or.inr ⟨rfl, nofun, _, rfl, nofun, fun _ => Or.inl trivial⟩
  | joining =>
      simp only [hspot] at hstep
      split at hstep
      · rename_i hexited
        cases hstep
        exact Or.inr ⟨rfl, nofun, _, rfl, nofun, fun _ => Or.inr hexited⟩
      · cases hstep

/-- What the loop's thread is about to post goes on to fit. -/
theorem OwnFits.step (h : OwnFits places s) {a : Act P T} (ha : a.isLoop = true)
    (hstep : s.step places a = some s') : OwnFits places s' := by
  cases a with
  | start | call | stop | interrupted | failed => cases ha
  | loop =>
      obtain ⟨hspots, hqueue⟩ := frame_stepLoop hstep
      exact h.mono (congrFun hspots none) hqueue
  | flush =>
      obtain ⟨-, hs'⟩ := Option.ite_none_left_eq_some.mp hstep
      cases hs'
      exact h
  | wake batch =>
      obtain ⟨-, hs'⟩ := Option.ite_none_right_eq_some.mp hstep
      cases hs'
      exact h
  | go t =>
      cases t with
      | some p => cases ha
      | none =>
          intro rest hrest
          rcases frame_stepThread hstep with
            ⟨task, rest', hspot, hqueue, hspots⟩ | ⟨-, -, spot, hspots, hspot, -⟩
          · have hfits := h _ hspot
            rw [hspots, Function.update_self] at hrest
            cases hrest
            rw [hqueue, List.length_append, List.length_singleton]
            rw [List.length_cons] at hfits
            omega
          · rw [hspots, Function.update_self] at hrest
            exact absurd hrest (hspot rest)

/-- One step of the thread in `stop`, or of the loop that it waits for. -/
theorem Ok.stop_advances (h : Ok places s) (hfits : OwnFits places s)
    (hstops : (s.spots (some p)).Stops) :
    ∃ a s', s.step places a = some s' ∧ OwnFits places s' ∧ rank s' p < rank s p ∧
      ((s'.spots (some p)).Stops ∨ s'.spots (some p) = .idle ∧ s'.joined = true) := by
  obtain ⟨hrunning, hjoined, hidle⟩ := h.winner p hstops
  have hlift (hgo : Advances places s p) : ∃ a s', s.step places a = some s' ∧
      OwnFits places s' ∧ rank s' p < rank s p ∧
      ((s'.spots (some p)).Stops ∨ s'.spots (some p) = .idle ∧ s'.joined = true) := by
    obtain ⟨a, s', ha, hstep, hspots, hrank⟩ := hgo
    exact ⟨a, s', hstep, hfits.step ha hstep, hrank, Or.inl (hspots ▸ hstops)⟩
  cases hspot : s.spots (some p) with
  | idle | posting rest | signal | starting =>
      rw [hspot] at hstops
      exact hstops.elim
  | stopping =>
      refine ⟨.go (some p), { s with eventfd := s.eventfd + 1 }.goTo (some p) .joining,
        ?_, ?_, ?_, Or.inl ?_⟩
      · simp [LoopThread.step, LoopThread.stepThread, hspot]
      · exact hfits.mono (spots_goTo_none _) (Nat.le_refl _)
      · simp only [rank, LoopThread.goTo, hspot, Spot.rank, Function.update_self, ne_eq,
          reduceCtorEq, not_false_eq_true, Function.update_of_ne]
        split <;> split <;> omega
      · simp [LoopThread.goTo, Spot.Stops]
  | joining =>
      by_cases hposts : s.point.Posts
      · exact hlift (h.posts_advances hfits hposts)
      by_cases hexited : s.point = .exited
      · refine ⟨.go (some p), { s with joined := true }.goTo (some p) .idle, ?_, ?_, ?_,
          Or.inr ?_⟩
        · simp [LoopThread.step, LoopThread.stepThread, hspot, hexited]
        · exact hfits.mono (spots_goTo_none _) (Nat.le_refl _)
        · simp [rank, LoopThread.goTo, hspot, Spot.rank, hexited]
        · simp [LoopThread.goTo]
      by_cases hwait : s.point = .waiting
      · -- the write of `stop` has not been read
        have hevent : s.eventfd ≠ 0 := by
          refine (h.woken hwait hrunning).resolve_right ?_
          rintro ⟨q, hq⟩
          have hqp := h.unique q p (by rw [hq]; trivial) hstops.manages
          rw [hqp, hspot] at hq
          cases hq
        refine hlift ⟨.wake [true], { s with batch := [true], point := .dispatching }, rfl, ?_,
          rfl, ?_⟩
        · simp [LoopThread.step, hwait, hevent]
        · simp [rank, hwait, Point.rank]
          omega
      · exact hlift (h.loop_advances hrunning hposts ⟨hidle, hwait, hexited⟩)

/-- If nobody else posts anything, `stop` returns. -/
theorem Ok.exists_joined (h : Ok places s) (hfits : OwnFits places s)
    (hstops : (s.spots (some p)).Stops) :
    ∃ as s', run (LoopThread.step places) s as = some s' ∧ s'.spots (some p) = .idle ∧
      s'.joined = true := by
  induction hrank : rank s p using Nat.strongRecOn generalizing s with
  | ind n ih =>
      obtain ⟨a, s', hstep, hfits', hless, hstops | ⟨hidle, hjoined⟩⟩ :=
        h.stop_advances hfits hstops
      · obtain ⟨as, s'', hrun, hs''⟩ := ih _ (hrank ▸ hless) (h.step hstep) hfits' hstops rfl
        exact ⟨a :: as, s'', (run_cons hstep).trans hrun, hs''⟩
      · exact ⟨[a], s', run_cons hstep, hidle, hjoined⟩

/-- Who is not in `stop` takes nobody out of it. -/
theorem stops_update {t : Option P} (spot : Spot T) (hfrom : (s.spots t).Stops → spot.Stops)
    (hstops : (s.spots (some p)).Stops) : (Function.update s.spots t spot (some p)).Stops := by
  by_cases hpt : some p = t
  · subst hpt
    rw [Function.update_self]
    exact hfrom hstops
  · rwa [Function.update_of_ne hpt]

/-- The loop's thread waits for places that only it could free, and `stop` waits for the thread. -/
theorem Ok.blocked_step (h : Ok places s) (hblocked : ¬ OwnFits places s)
    (hstops : (s.spots (some p)).Stops) {a : Act P T} (hstep : s.step places a = some s') :
    ¬ OwnFits places s' ∧ (s'.spots (some p)).Stops := by
  obtain ⟨rest, hspot, hfull⟩ : ∃ rest, s.spots none = .posting rest ∧
      places < s.queue.length + rest.length := by
    simpa [OwnFits] using hblocked
  have hposts : s.point.Posts := h.own (by simp [hspot])
  have hpoint : s.point ≠ .waiting ∧ s.point ≠ .exited := by
    rcases hposts with hpoint | hpoint | hpoint <;> simp [hpoint]
  have hmono (hnone : s'.spots none = s.spots none) (hqueue : s.queue.length ≤ s'.queue.length) :
      ¬ OwnFits places s' := fun hfits => hblocked (hfits.mono hnone.symm hqueue)
  -- a thread that was idle is another one
  have hcalls (t : Option P) (spot : Spot T) (hidle : s.spots t = .idle)
      (hspots : s'.spots = Function.update s.spots t spot) (hqueue : s'.queue = s.queue) :
      ¬ OwnFits places s' ∧ (s'.spots (some p)).Stops := by
    have hother : none ≠ t := by
      rintro rfl
      rw [hspot] at hidle
      cases hidle
    refine ⟨hmono ?_ (Nat.le_of_eq (congrArg List.length hqueue.symm)), ?_⟩
    · rw [hspots, Function.update_of_ne hother]
    · rw [hspots]
      exact stops_update spot (by rw [hidle]; exact False.elim) hstops
  cases a with
  | start q =>
      simp only [LoopThread.step] at hstep
      split at hstep
      · rename_i hidle
        split at hstep
        · cases hstep
          exact ⟨hblocked, hstops⟩
        · split at hstep
          · cases hstep
            exact hcalls (some q) .starting hidle rfl rfl
          · cases hstep
      · cases hstep
  | call t tasks =>
      simp only [LoopThread.step] at hstep
      split at hstep
      · rename_i hidle
        split at hstep
        · cases hstep
          exact hcalls t (.posting tasks) hidle rfl rfl
        · cases hstep
      · cases hstep
  | stop q =>
      simp only [LoopThread.step] at hstep
      split at hstep
      · rename_i hidle
        split at hstep
        · cases hstep
        · split at hstep
          · cases hstep
            exact hcalls (some q) .stopping hidle rfl rfl
          · cases hstep
            exact ⟨hblocked, hstops⟩
      · cases hstep
  | go t =>
      rcases frame_stepThread hstep with
        ⟨task, rest', hposting, hqueue, hspots⟩ | ⟨hqueue, hnil, spot, hspots, -, hstill⟩
      · refine ⟨?_, ?_⟩
        · cases t with
          | some q =>
              refine hmono (by rw [hspots, Function.update_of_ne (Option.some_ne_none q).symm]) ?_
              rw [hqueue, List.length_append]
              exact Nat.le_add_right _ _
          | none =>
              intro hfits
              cases hspot.symm.trans hposting
              have hroom := hfits rest' (by rw [hspots, Function.update_self])
              rw [hqueue, List.length_append, List.length_singleton] at hroom
              rw [List.length_cons] at hfull
              omega
        · rw [hspots]
          exact stops_update _ (by rw [hposting]; exact False.elim) hstops
      · have hsome : t ≠ none := by
          rintro rfl
          have hbounded := h.bounded
          rw [hnil rest hspot, List.length_nil] at hfull
          omega
        refine ⟨hmono ?_ (Nat.le_of_eq (congrArg List.length hqueue.symm)), ?_⟩
        · rw [hspots, Function.update_of_ne hsome.symm]
        · rw [hspots]
          exact stops_update _ (fun hst => (hstill hst).resolve_right hpoint.2) hstops
  | wake batch => exact absurd (Option.ite_none_right_eq_some.mp hstep).1.1 hpoint.1
  | interrupted => exact absurd (Option.ite_none_right_eq_some.mp hstep).1 hpoint.1
  | failed => exact absurd (Option.ite_none_right_eq_some.mp hstep).1 hpoint.1
  | loop =>
      have hloop : s.stepLoop = some s' := hstep
      unfold LoopThread.stepLoop at hloop
      rcases hposts with hp | hp | hp <;>
        · simp only [hp, LoopThread.leave, hspot] at hloop
          cases hloop
  | flush =>
      obtain ⟨-, hs'⟩ := Option.ite_none_left_eq_some.mp hstep
      cases hs'
      exact ⟨hblocked, hstops⟩

/-- `stop` can return if and only if the loop's own thread is not caught in a `push`. -/
theorem Ok.exists_joined_iff (h : Ok places s) (hstops : (s.spots (some p)).Stops) :
    (∃ as s', run (LoopThread.step places) s as = some s' ∧ s'.spots (some p) = .idle ∧
      s'.joined = true) ↔ OwnFits places s := by
  constructor
  · rintro ⟨as, s', hrun, hidle, -⟩
    by_contra hblocked
    obtain ⟨-, -, hlast⟩ := run_invariant
      (I := fun s => Ok places s ∧ ¬ OwnFits places s ∧ (s.spots (some p)).Stops)
      (fun s a s' ⟨hs, hb, hst⟩ hstep => ⟨hs.step hstep, hs.blocked_step hb hst hstep⟩)
      ⟨h, hblocked, hstops⟩ hrun
    rw [hidle] at hlast
    exact hlast
  · exact fun hfits => h.exists_joined hfits hstops

end Progress

/-- A task is pushed but not signalled when another thread stops the loop, which is about to
wait. -/
def stopBehindPost : List (Act (Fin 2) ℕ) :=
  [.start 0, .go (some 0), .loop, .call (some 0) [7], .go (some 0), .stop 1]

end SimpleRedis.Lifecycle
