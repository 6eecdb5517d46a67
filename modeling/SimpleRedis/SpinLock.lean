import SimpleRedis.LockedObject
import SimpleRedis.ThreadPool

/-!
# The spin lock and the queue behind it

`SpinLock::lock` loads the flag, and exchanges it if it was false; when that fails it pauses, for
longer each time. `SpinBlockingQueue` makes its accesses to `queue_` and `stopped_` between `lock`
and `unlock`. Threads that call its methods, with all their steps interleaved, find the queue whose
methods take one step each, and no access comes to an item that is not there.
-/
namespace SimpleRedis.ThreadPool

open TransitionRun LockedObject

variable {T α : Type*}

/-- Where a thread is in `SpinLock::lock`; `left` counts the pauses that are left. -/
inductive Locking where
  | loading (backoff : ℕ)
  | exchanging (backoff : ℕ)
  | pausing (backoff left : ℕ)
  | locked
  deriving DecidableEq, Repr

namespace Locking

/-- The backoff loop. -/
def backOff (backoff : ℕ) : Locking := .pausing backoff (1 <<< min backoff 8)

/-- One access to the flag, one pause, or the end of the pauses. -/
def attempt (flag : Bool) : Locking → Bool × Locking
  | .loading backoff => (flag, if flag then backOff backoff else .exchanging backoff)
  | .exchanging backoff => (true, if flag then backOff backoff else .locked)
  | .pausing backoff (left + 1) => (flag, .pausing backoff left)
  | .pausing backoff 0 => (flag, .loading (if backoff < 16 then backoff + 1 else backoff))
  | .locked => (flag, .locked)

def isLocked : Locking → Bool
  | .locked => true
  | _ => false

/-- The steps to the lock while the flag is false. -/
def rank : Locking → ℕ
  | .loading _ => 2
  | .exchanging _ => 1
  | .pausing _ left => left + 3
  | .locked => 0

end Locking

/-- `SpinLock`: the lock is free while the flag is false. -/
def spinLock : Lock Bool Locking where
  initial := false
  free flag := !flag
  enter := .loading 0
  attempt := Locking.attempt
  holds := Locking.isLocked
  release _ := false
  rank := Locking.rank
  free_initial := rfl
  holds_enter := rfl
  free_release _ := rfl
  attempt_holds flag p hp h := by
    cases p with
    | loading backoff => cases flag <;> cases h
    | exchanging backoff =>
        cases flag with
        | true => cases h
        | false => exact ⟨rfl, rfl⟩
    | pausing backoff left => cases left <;> cases h
    | locked => cases hp
  attempt_waits flag p h := by
    cases p with
    | loading backoff => rfl
    | exchanging backoff =>
        cases flag with
        | true => rfl
        | false => cases h
    | pausing backoff left => cases left <;> rfl
    | locked => rfl
  attempt_rank flag p hflag hp h := by
    cases flag with
    | true => cases hflag
    | false =>
        cases p with
        | loading backoff => exact Nat.one_lt_two
        | exchanging backoff => cases h
        | pausing backoff left =>
            cases left with
            | zero => exact Nat.lt_succ_self 2
            | succ left => exact Nat.lt_succ_self _
        | locked => cases hp

namespace SpinBlockingQueue

/-- `try_pop`: `nullptr` is `none`. -/
def tryPop (q : SpinBlockingQueue α) : Option α × SpinBlockingQueue α :=
  match q.queue with
  | [] => (none, q)
  | item :: rest => (some item, { q with queue := rest })

/-- The methods. -/
inductive Method (α : Type*) where
  | push (item : α)
  | pop
  | shutdown
  | tryPop
  | empty
  deriving DecidableEq, Repr

/-- What a method returns. -/
inductive Outcome (α : Type*) where
  | done
  | item (item : Option α)
  | isEmpty (empty : Bool)
  deriving DecidableEq, Repr

/-- The methods as one step each. -/
def method : Method α → SpinBlockingQueue α → Option (SpinBlockingQueue α × Outcome α)
  | .push item, q => some (q.push item, .done)
  | .pop, q => q.pop.map fun out => (out.2, .item out.1)
  | .shutdown, q => some (q.shutdown, .done)
  | .tryPop, q => some (q.tryPop.2, .item q.tryPop.1)
  | .empty, q => some (q, .isEmpty q.empty)

/-- The accesses of the methods to the members of the queue. -/
inductive Point (α : Type*) where
  /-- `if (stopped_)` of `push`. -/
  | pushStopped (item : α)
  /-- `queue_.emplace`. -/
  | emplace (item : α)
  /-- `stopped_ && ...` of `pop`. -/
  | popStopped
  /-- `... && queue_.empty()` of `pop`. -/
  | popStoppedEmpty
  /-- `if (!queue_.empty())` of `pop`. -/
  | popEmpty
  /-- `if (queue_.empty())` of `try_pop`. -/
  | tryEmpty
  /-- `std::move(queue_.front())`. -/
  | front
  /-- `queue_.pop()`. -/
  | remove (item : α)
  /-- `stopped_ = true`. -/
  | shutdown
  /-- `return queue_.empty()`. -/
  | empty
  deriving DecidableEq, Repr

/-- The code of the methods. `front` and `pop` of an empty `std::queue` are undefined. -/
def code : Object (Method α) (SpinBlockingQueue α) (Point α) (Outcome α) where
  start
    | .push item => .pushStopped item
    | .pop => .popStopped
    | .shutdown => .shutdown
    | .tryPop => .tryEmpty
    | .empty => .empty
  access
    | .pushStopped item, q =>
        some (q, if q.stopped then .inr (some .done) else .inl (.emplace item))
    | .emplace item, q => some ({ q with queue := q.queue ++ [item] }, .inr (some .done))
    | .popStopped, q => some (q, .inl (if q.stopped then .popStoppedEmpty else .popEmpty))
    | .popStoppedEmpty, q =>
        some (q, if q.queue.isEmpty then .inr (some (.item none)) else .inl .popEmpty)
    | .popEmpty, q => some (q, if q.queue.isEmpty then .inr none else .inl .front)
    | .tryEmpty, q => some (q, if q.queue.isEmpty then .inr (some (.item none)) else .inl .front)
    | .front, q => q.queue.head?.map fun item => (q, .inl (.remove item))
    | .remove item, q =>
        match q.queue with
        | [] => none
        | _ :: rest => some ({ q with queue := rest }, .inr (some (.item (some item))))
    | .shutdown, q => some ({ q with stopped := true }, .inr (some .done))
    | .empty, q => some (q, .inr (some (.isEmpty q.queue.isEmpty)))

section Bodies

variable {q : SpinBlockingQueue α} {item : α} {rest : List α}

/-- `front` and `pop` take the first item. -/
theorem body_front (hqueue : q.queue = item :: rest) :
    code.Body .front q { q with queue := rest } (some (.item (some item))) := by
  have hfirst : code.access .front q = some (q, .inl (.remove item)) := by
    simp only [code, hqueue, List.head?_cons, Option.map_some]
  refine .next hfirst (.last ?_)
  simp only [code, hqueue]

theorem body_push (q : SpinBlockingQueue α) (item : α) :
    code.Body (.pushStopped item) q (q.push item) (some .done) := by
  cases hstopped : q.stopped with
  | true =>
      rw [push_of_stopped hstopped]
      exact .last (by simp only [code, hstopped, if_true])
  | false =>
      rw [push_of_open hstopped]
      have hfirst : code.access (.pushStopped item) q = some (q, .inl (.emplace item)) := by
        simp [code, hstopped]
      exact .next hfirst (.last rfl)

/-- Behind the look at `stopped_`, `pop` takes the first item or goes round. -/
theorem body_popEmpty (q : SpinBlockingQueue α) :
    match q.queue with
    | [] => code.Body .popEmpty q q none
    | item :: rest =>
        code.Body .popEmpty q { q with queue := rest } (some (.item (some item))) := by
  split
  · rename_i hqueue
    exact .last (by simp [code, hqueue])
  · rename_i item rest hqueue
    have hfirst : code.access .popEmpty q = some (q, .inl .front) := by simp [code, hqueue]
    exact .next hfirst (body_front hqueue)

theorem body_pop (q : SpinBlockingQueue α) :
    match q.pop with
    | some (item, q') => code.Body .popStopped q q' (some (.item item))
    | none => code.Body .popStopped q q none := by
  have hrest := body_popEmpty q
  cases hstopped : q.stopped with
  | false =>
      have hfirst : code.access .popStopped q = some (q, .inl .popEmpty) := by
        simp [code, hstopped]
      cases hqueue : q.queue with
      | nil =>
          rw [hqueue] at hrest
          simpa [pop, hstopped, hqueue] using Object.Body.next hfirst hrest
      | cons item rest =>
          rw [hqueue] at hrest
          simpa [pop, hstopped, hqueue] using Object.Body.next hfirst hrest
  | true =>
      have hfirst : code.access .popStopped q = some (q, .inl .popStoppedEmpty) := by
        simp [code, hstopped]
      cases hqueue : q.queue with
      | nil =>
          have hsecond : code.access .popStoppedEmpty q = some (q, .inr (some (.item none))) := by
            simp [code, hqueue]
          simpa [pop, hstopped, hqueue] using Object.Body.next hfirst (.last hsecond)
      | cons item rest =>
          have hsecond : code.access .popStoppedEmpty q = some (q, .inl .popEmpty) := by
            simp [code, hqueue]
          rw [hqueue] at hrest
          simpa [pop, hstopped, hqueue] using
            Object.Body.next hfirst (.next hsecond hrest)

theorem body_tryPop (q : SpinBlockingQueue α) :
    code.Body .tryEmpty q q.tryPop.2 (some (.item q.tryPop.1)) := by
  cases hqueue : q.queue with
  | nil =>
      simp only [tryPop, hqueue]
      exact .last (by simp [code, hqueue])
  | cons item rest =>
      simp only [tryPop, hqueue]
      have hfirst : code.access .tryEmpty q = some (q, .inl .front) := by simp [code, hqueue]
      exact .next hfirst (body_front hqueue)

/-- Between `lock` and `unlock` a method does what it does as one step. -/
theorem code_implements : (code : Object (Method α) _ _ _).Implements method := by
  intro m q
  cases m with
  | push item => exact body_push q item
  | pop =>
      have hbody := body_pop q
      cases hpop : q.pop with
      | none =>
          rw [hpop] at hbody
          simp only [method, hpop, Option.map_none]
          exact hbody
      | some out =>
          rw [hpop] at hbody
          simp only [method, hpop, Option.map_some]
          exact hbody
  | shutdown => exact .last rfl
  | tryPop => exact body_tryPop q
  | empty => exact .last rfl

end Bodies

/-- Only `pop` waits, and only for an item or for `shutdown`. -/
theorem method_eq_none {m : Method α} {q : SpinBlockingQueue α} (h : method m q = none) :
    m = .pop ∧ q.queue = [] ∧ q.stopped = false := by
  cases m with
  | pop =>
      have hpop : q.pop = none := Option.map_eq_none_iff.mp h
      unfold pop at hpop
      split at hpop
      · cases hpop
      · rename_i hdone
        split at hpop
        · rename_i hqueue
          exact ⟨rfl, hqueue, by simpa [hqueue] using hdone⟩
        · cases hpop
  | push | shutdown | tryPop | empty => cases h

section Threads

variable [DecidableEq T] {s : Shared T (Method α) (SpinBlockingQueue α) (Point α) (Outcome α) Bool
  Locking}

/-- The queue behind its spin lock, for any number of threads and every interleaving of the single
accesses to the flag and to the members: one thread at most is between `lock` and `unlock`; `front`
and `pop` always find an item; the calls and the returns are those of a run in which each method
takes effect in one step between the two; and no call is ever shut out: it can return, or it is a
`pop` that has found the queue open and empty, and the lock is free. -/
theorem linearized_of_reachable
    (h : Reachable (Shared.step spinLock code) (.fresh spinLock {}) s) :
    (∀ i j, (s.spots i).Holds → (s.spots j).Holds → i = j) ∧
      (∀ i m l, s.spots i = .inside m l → (code.access l s.data).isSome = true) ∧
      (∃ t, Reachable (Atomic.step method) (.fresh {}) t ∧ t.log = s.log) ∧
      ∀ i, ∃ acts s', run (Shared.step spinLock code) s acts = some s' ∧
        (s'.spots i = .outside ∨ ∃ p, s'.spots i = .locking .pop p ∧ s'.lock = false ∧
          s'.data.queue = [] ∧ s'.data.stopped = false) := by
  obtain ⟨t, ht, hex, hlink⟩ := linked_of_reachable code_implements h
  refine ⟨hex.unique, fun i m l hspot => ?_, ⟨t, ht, hlink.log⟩, fun i => ?_⟩
  · obtain ⟨d, r, hbody, -⟩ := hlink.body i m l hspot
    exact hbody.isSome
  · obtain ⟨acts, s', hrun, hend⟩ := exists_return code_implements hex hlink i
    refine ⟨acts, s', hrun, hend.imp_right ?_⟩
    rintro ⟨m, p, hspot, hfree, hblocked⟩
    obtain ⟨rfl, hqueue, hopen⟩ := method_eq_none hblocked
    exact ⟨p, hspot, by simpa [spinLock] using hfree, hqueue, hopen⟩

end Threads

/-- One thread has pushed an item, while another one has seen the lock taken with its `pop`. -/
theorem linearized_of_reachable_push :
    ∃ t : Atomic (Fin 2) (Method ℕ) (SpinBlockingQueue ℕ) (Outcome ℕ),
      Reachable (Atomic.step method) (.fresh {}) t ∧
        t.log = [.call 0 (.push 5), .call 1 .pop, .ret 0 (.push 5) .done] :=
  (linearized_of_reachable (T := Fin 2) (α := ℕ)
    ⟨[.call 0 (.push 5), .call 1 .pop, .go 0, .go 0, .go 1, .go 0, .go 1, .go 0, .go 0], rfl⟩).2.2.1

end SpinBlockingQueue

end SimpleRedis.ThreadPool
