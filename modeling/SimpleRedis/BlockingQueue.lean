import SimpleRedis.TransitionRun
import Mathlib.Data.List.Count
import Mathlib.Data.Nat.Notation

/-!
# A queue with a condition variable

`BlockingQueue` waits on a condition variable where the queue of the pool spins. `push` notifies
one waiter behind its unlock, and `shutdown` all of them. A waiter may wake up for no reason, and
the thread that was notified may come too late. Every item is then left to a thread that is still
about to look, and nobody sleeps for good.
-/
namespace SimpleRedis.Monitor

open TransitionRun

variable {α : Type*}

/-- Where a thread is. Between lock and unlock a method is one step, as the mutex lets nobody in;
`cv_.wait` unlocks and sleeps at once. -/
inductive Spot where
  | outside
  /-- In `push`, before `notify_one`. -/
  | notifying
  /-- In `pop`, before the mutex, at the beginning or woken up. -/
  | popping
  /-- In `cv_.wait`. -/
  | sleeping
  /-- In `shutdown`, before `notify_all`. -/
  | notifyingAll
  deriving DecidableEq, Repr

/-- What `notify_all` does to a thread. -/
def Spot.wake : Spot → Spot
  | .sleeping => .popping
  | spot => spot

/-- The queue, its threads, and what has happened: the items that were accepted, those that were
taken, and the calls of `pop` that returned `T{}`. -/
structure BlockingQueue (α : Type*) where
  queue : List α := []
  stopped : Bool := false
  spots : List Spot
  pushed : List α := []
  popped : List α := []
  emptyHanded : ℕ := 0

inductive Act (α : Type*) where
  | push (i : ℕ) (item : α)
  | notifyOne (i : ℕ) (woken : Option ℕ)
  | callPop (i : ℕ)
  /-- `pop` has the mutex and looks at its predicate. -/
  | look (i : ℕ)
  | spurious (i : ℕ)
  | shutdown (i : ℕ)
  | notifyAll (i : ℕ)
  | tryPop (i : ℕ)
  | empty (i : ℕ)

namespace BlockingQueue

def create (α : Type*) (threads : ℕ) : BlockingQueue α where
  spots := List.replicate threads .outside

variable (s : BlockingQueue α)

def goTo (i : ℕ) (spot : Spot) : BlockingQueue α := { s with spots := s.spots.set i spot }

def push (i : ℕ) (item : α) : BlockingQueue α :=
  if s.stopped then s
  else { s with queue := s.queue ++ [item], pushed := s.pushed ++ [item] }.goTo i .notifying

/-- `front` and `pop` of a queue that has an item, behind which the method returns. -/
def take (item : α) (rest : List α) : BlockingQueue α :=
  { s with queue := rest, popped := s.popped ++ [item] }

def look (i : ℕ) : BlockingQueue α :=
  match s.queue with
  | item :: rest => (s.take item rest).goTo i .outside
  | [] =>
      if s.stopped then { s with emptyHanded := s.emptyHanded + 1 }.goTo i .outside
      else s.goTo i .sleeping

/-- `try_pop`, which returns `nullptr` if there is nothing. -/
def tryPop : BlockingQueue α :=
  match s.queue with
  | item :: rest => s.take item rest
  | [] => s

def notifyAll (i : ℕ) : BlockingQueue α :=
  { s with spots := (s.spots.map Spot.wake).set i .outside }

/-- `notify_one` wakes one of the threads that sleep, if there is one. -/
def step : Act α → Option (BlockingQueue α)
  | .push i item => if s.spots[i]? = some .outside then some (s.push i item) else none
  | .notifyOne i none =>
      if s.spots[i]? = some .notifying ∧ .sleeping ∉ s.spots then some (s.goTo i .outside) else none
  | .notifyOne i (some j) =>
      if s.spots[i]? = some .notifying ∧ s.spots[j]? = some .sleeping then
        some ((s.goTo i .outside).goTo j .popping)
      else none
  | .callPop i => if s.spots[i]? = some .outside then some (s.goTo i .popping) else none
  | .look i => if s.spots[i]? = some .popping then some (s.look i) else none
  | .spurious i => if s.spots[i]? = some .sleeping then some (s.goTo i .popping) else none
  | .shutdown i =>
      if s.spots[i]? = some .outside then
        some ({ s with stopped := true }.goTo i .notifyingAll)
      else none
  | .notifyAll i => if s.spots[i]? = some .notifyingAll then some (s.notifyAll i) else none
  | .tryPop i => if s.spots[i]? = some .outside then some s.tryPop else none
  | .empty i => if s.spots[i]? = some .outside then some s else none

end BlockingQueue

section Counting

variable {spots : List Spot} {i : ℕ} {spot : Spot}

/-- Only the changed thread counts. -/
theorem count_set (h : spots[i]? = some spot) (spot' a : Spot) :
    (spots.set i spot').count a + (if spot = a then 1 else 0) =
      spots.count a + (if spot' = a then 1 else 0) := by
  induction spots generalizing i with
  | nil => cases h
  | cons first spots ih =>
      cases i with
      | zero =>
          cases h
          simp only [List.set_cons_zero, List.count_cons, beq_iff_eq]
          omega
      | succ i =>
          have htail := ih h
          simp only [List.set_cons_succ, List.count_cons, beq_iff_eq]
          omega

theorem count_wake_sleeping (spots : List Spot) : (spots.map Spot.wake).count .sleeping = 0 := by
  rw [List.count_eq_zero]
  intro hmem
  obtain ⟨spot, -, hwake⟩ := List.mem_map.mp hmem
  cases spot <;> cases hwake

theorem count_wake (spots : List Spot) {a : Spot} (hsleeping : a ≠ .sleeping)
    (hpopping : a ≠ .popping) : (spots.map Spot.wake).count a = spots.count a := by
  induction spots with
  | nil => rfl
  | cons spot spots ih =>
      rw [List.map_cons, List.count_cons, List.count_cons, ih]
      cases spot with
      | sleeping => simp [Spot.wake, hsleeping.symm, hpopping.symm]
      | outside | notifying | popping | notifyingAll => rfl

theorem count_wake_popping (spots : List Spot) :
    (spots.map Spot.wake).count .popping = spots.count .popping + spots.count .sleeping := by
  induction spots with
  | nil => rfl
  | cons spot spots ih =>
      rw [List.map_cons, List.count_cons, List.count_cons, List.count_cons, ih]
      cases spot <;> simp [Spot.wake] <;> omega

theorem count_pos_of_getElem? (h : spots[i]? = some spot) : 0 < spots.count spot :=
  List.count_pos_iff.mpr (List.mem_of_getElem? h)

end Counting

/-- While somebody sleeps, every item is left to a thread that is about to notify or about to
look, and behind a `shutdown` somebody is about to notify all. -/
structure Ok (s : BlockingQueue α) : Prop where
  order : s.popped ++ s.queue = s.pushed
  covered : 0 < s.spots.count .sleeping →
    s.queue.length ≤ s.spots.count .notifying + s.spots.count .popping
  shut : s.stopped = true → 0 < s.spots.count .sleeping → 0 < s.spots.count .notifyingAll
  drained : 0 < s.emptyHanded → s.stopped = true ∧ s.queue = []

section Steps

variable {s s' : BlockingQueue α}

theorem ok_create (threads : ℕ) : Ok (BlockingQueue.create α threads) where
  order := rfl
  covered _ := Nat.zero_le _
  shut h := by cases h
  drained h := absurd h (Nat.lt_irrefl 0)

theorem Ok.push (h : Ok s) {i : ℕ} (hi : s.spots[i]? = some .outside) (item : α) :
    Ok (s.push i item) := by
  unfold BlockingQueue.push
  split
  · exact h
  · rename_i hopen
    have hsleeping := count_set hi .notifying .sleeping
    have hnotifying := count_set hi .notifying .notifying
    have hpopping := count_set hi .notifying .popping
    simp only [reduceCtorEq, if_false, if_true, Nat.add_zero] at hsleeping hnotifying hpopping
    constructor
    · simp only [BlockingQueue.goTo, ← h.order, List.append_assoc]
    · have hcovered := h.covered
      simp only [BlockingQueue.goTo, List.length_append, List.length_singleton]
      omega
    · exact fun hstopped => absurd hstopped hopen
    · exact fun hended => absurd (h.drained hended).1 hopen

theorem Ok.take (h : Ok s) {item : α} {rest : List α} (hqueue : s.queue = item :: rest)
    (spots : List Spot)
    (hsleeping : spots.count .sleeping = s.spots.count .sleeping)
    (hnotifyingAll : spots.count .notifyingAll = s.spots.count .notifyingAll)
    (hcount : s.spots.count .notifying + s.spots.count .popping ≤
      spots.count .notifying + spots.count .popping + 1) :
    Ok { s.take item rest with spots := spots } := by
  have hcovered := h.covered
  rw [hqueue, List.length_cons] at hcovered
  constructor
  · simp only [BlockingQueue.take, ← h.order, hqueue, List.append_assoc, List.singleton_append]
  · simp only [BlockingQueue.take]
    omega
  · simp only [BlockingQueue.take, hsleeping, hnotifyingAll]
    exact h.shut
  · intro hended
    rw [(h.drained hended).2] at hqueue
    cases hqueue

theorem Ok.look (h : Ok s) {i : ℕ} (hi : s.spots[i]? = some .popping) : Ok (s.look i) := by
  unfold BlockingQueue.look
  split
  · rename_i item rest hqueue
    refine h.take hqueue (s.spots.set i .outside) ?_ ?_ ?_
    · simpa using count_set hi .outside .sleeping
    · simpa using count_set hi .outside .notifyingAll
    · have hnotifying := count_set hi .outside .notifying
      have hpopping := count_set hi .outside .popping
      simp only [reduceCtorEq, if_false, if_true, Nat.add_zero] at hnotifying hpopping
      omega
  · rename_i hqueue
    split
    · rename_i hstopped
      constructor
      · exact h.order
      · exact fun _ => by simp [BlockingQueue.goTo, hqueue]
      · have hsleeping := count_set hi .outside .sleeping
        have hall := count_set hi .outside .notifyingAll
        have hshut := h.shut hstopped
        simp only [reduceCtorEq, if_false, Nat.add_zero] at hsleeping hall
        simp only [BlockingQueue.goTo]
        omega
      · exact fun _ => ⟨hstopped, hqueue⟩
    · rename_i hopen
      constructor
      · exact h.order
      · exact fun _ => by simp [BlockingQueue.goTo, hqueue]
      · exact fun hstopped => absurd hstopped hopen
      · exact fun hended => absurd (h.drained hended).1 hopen

theorem Ok.tryPop (h : Ok s) : Ok s.tryPop := by
  unfold BlockingQueue.tryPop
  split
  · rename_i item rest hqueue
    exact h.take hqueue s.spots rfl rfl (Nat.le_succ _)
  · exact h

/-- A thread that has notified, or wakes up, or calls `pop`. -/
theorem Ok.respot (h : Ok s) {spots : List Spot}
    (hcovered : 0 < spots.count .sleeping → 0 < s.spots.count .sleeping ∧
      s.spots.count .notifying + s.spots.count .popping ≤
        spots.count .notifying + spots.count .popping)
    (hshut : 0 < spots.count .sleeping → 0 < s.spots.count .notifyingAll →
      0 < spots.count .notifyingAll) : Ok { s with spots := spots } := by
  constructor
  · exact h.order
  · intro hsleeping
    obtain ⟨hslept, hle⟩ := hcovered hsleeping
    exact Nat.le_trans (h.covered hslept) hle
  · intro hstopped hsleeping
    exact hshut hsleeping (h.shut hstopped (hcovered hsleeping).1)
  · exact h.drained

/-- A thread is about to look: it calls `pop`, or wakes up. -/
theorem Ok.awake (h : Ok s) {i : ℕ} {spot : Spot} (hi : s.spots[i]? = some spot)
    (hspot : spot = .outside ∨ spot = .sleeping) : Ok (s.goTo i .popping) := by
  have hsleeping := count_set hi .popping .sleeping
  have hnotifying := count_set hi .popping .notifying
  have hpopping := count_set hi .popping .popping
  have hall := count_set hi .popping .notifyingAll
  rcases hspot with rfl | rfl
  all_goals
    simp only [reduceCtorEq, if_false, if_true, Nat.add_zero] at hsleeping hnotifying hpopping hall
    exact h.respot (by omega) (by omega)

/-- A thread notifies another one, which is about to look in its place. -/
theorem Ok.notifyOne (h : Ok s) {i j : ℕ} (hi : s.spots[i]? = some .notifying)
    (hj : s.spots[j]? = some .sleeping) : Ok ((s.goTo i .outside).goTo j .popping) := by
  have hj' : (s.spots.set i .outside)[j]? = some .sleeping := by
    rw [List.getElem?_set_ne, hj]
    rintro rfl
    cases hi.symm.trans hj
  have hi' := count_set hi .outside
  have hj'' := count_set hj' .popping
  have hslept := count_pos_of_getElem? hj
  change Ok { s with spots := (s.spots.set i .outside).set j .popping }
  refine h.respot (fun _ => ⟨hslept, ?_⟩) fun _ hall => ?_
  · have h₁ := hi' .notifying
    have h₂ := hi' .popping
    have h₃ := hj'' .notifying
    have h₄ := hj'' .popping
    simp only [reduceCtorEq, if_false, if_true, Nat.add_zero] at h₁ h₂ h₃ h₄
    omega
  · have h₁ := hi' .notifyingAll
    have h₂ := hj'' .notifyingAll
    simp only [reduceCtorEq, if_false, Nat.add_zero] at h₁ h₂
    omega

theorem Ok.shutdown (h : Ok s) {i : ℕ} (hi : s.spots[i]? = some .outside) :
    Ok ({ s with stopped := true }.goTo i .notifyingAll) := by
  have hsleeping := count_set hi .notifyingAll .sleeping
  have hnotifying := count_set hi .notifyingAll .notifying
  have hpopping := count_set hi .notifyingAll .popping
  have hall := count_set hi .notifyingAll .notifyingAll
  simp only [reduceCtorEq, if_false, if_true, Nat.add_zero] at hsleeping hnotifying hpopping hall
  constructor
  · exact h.order
  · have hcovered := h.covered
    simp only [BlockingQueue.goTo]
    omega
  · intro _ _
    simp only [BlockingQueue.goTo]
    omega
  · exact fun hended => ⟨rfl, (h.drained hended).2⟩

theorem Ok.step (h : Ok s) {a : Act α} (hstep : s.step a = some s') : Ok s' := by
  cases a with
  | push i item =>
      obtain ⟨hi, hs'⟩ := Option.ite_none_right_eq_some.mp hstep
      cases hs'
      exact h.push hi item
  | notifyOne i woken =>
      cases woken with
      | none =>
          obtain ⟨⟨hi, hnone⟩, hs'⟩ := Option.ite_none_right_eq_some.mp hstep
          cases hs'
          have hsleeping : (s.spots.set i .outside).count .sleeping = 0 := by
            have hcount := count_set hi .outside .sleeping
            rw [List.count_eq_zero.mpr hnone] at hcount
            simpa using hcount
          exact h.respot (fun hslept => by omega) (fun hslept => by omega)
      | some j =>
          obtain ⟨⟨hi, hj⟩, hs'⟩ := Option.ite_none_right_eq_some.mp hstep
          cases hs'
          exact h.notifyOne hi hj
  | callPop i =>
      obtain ⟨hi, hs'⟩ := Option.ite_none_right_eq_some.mp hstep
      cases hs'
      exact h.awake hi (Or.inl rfl)
  | look i =>
      obtain ⟨hi, hs'⟩ := Option.ite_none_right_eq_some.mp hstep
      cases hs'
      exact h.look hi
  | spurious i =>
      obtain ⟨hi, hs'⟩ := Option.ite_none_right_eq_some.mp hstep
      cases hs'
      exact h.awake hi (Or.inr rfl)
  | shutdown i =>
      obtain ⟨hi, hs'⟩ := Option.ite_none_right_eq_some.mp hstep
      cases hs'
      exact h.shutdown hi
  | notifyAll i =>
      obtain ⟨hi, hs'⟩ := Option.ite_none_right_eq_some.mp hstep
      cases hs'
      have hsleeping : ((s.spots.map Spot.wake).set i .outside).count .sleeping = 0 := by
        have hi' : (s.spots.map Spot.wake)[i]? = some .notifyingAll := by
          rw [List.getElem?_map, hi]
          rfl
        have hcount := count_set hi' .outside .sleeping
        rw [count_wake_sleeping] at hcount
        simpa using hcount
      exact h.respot (by omega) (by omega)
  | tryPop i =>
      obtain ⟨-, hs'⟩ := Option.ite_none_right_eq_some.mp hstep
      cases hs'
      exact h.tryPop
  | empty i =>
      obtain ⟨-, hs'⟩ := Option.ite_none_right_eq_some.mp hstep
      cases hs'
      exact h

theorem ok_of_reachable {threads : ℕ}
    (h : Reachable BlockingQueue.step (.create α threads) s) : Ok s :=
  h.invariant (fun _ _ _ hok hstep => hok.step hstep) (ok_create threads)

/-- A thread that is neither outside nor asleep. -/
def Spot.Busy (spot : Spot) : Prop := spot ≠ .outside ∧ spot ≠ .sleeping

/-- What the threads inside have to do at most, if nobody calls a method or wakes up for no
reason. -/
def rank (s : BlockingQueue α) : ℕ :=
  s.spots.count .popping + 2 * s.spots.count .notifying +
    (s.spots.length + 1) * s.spots.count .notifyingAll

/-- `look` ends outside or asleep. -/
theorem look_cases {i : ℕ} (s : BlockingQueue α) :
    ∃ spot, (spot = .outside ∨ spot = .sleeping) ∧ (s.look i).spots = s.spots.set i spot ∧
      (s.look i).pushed = s.pushed ∧ (s.look i).stopped = s.stopped := by
  unfold BlockingQueue.look
  split
  · exact ⟨.outside, Or.inl rfl, rfl, rfl, rfl⟩
  · split
    · exact ⟨.outside, Or.inl rfl, rfl, rfl, rfl⟩
    · exact ⟨.sleeping, Or.inr rfl, rfl, rfl, rfl⟩

/-- A busy thread can go on, and all come closer to the end. -/
theorem busy_decreases {i : ℕ} {spot : Spot} (hi : s.spots[i]? = some spot) (hbusy : spot.Busy) :
    ∃ a s', s.step a = some s' ∧ s'.pushed = s.pushed ∧ s'.stopped = s.stopped ∧
      rank s' < rank s := by
  cases spot with
  | outside => exact absurd rfl hbusy.1
  | sleeping => exact absurd rfl hbusy.2
  | popping =>
      obtain ⟨spot, hspot, hspots, hpushed, hstopped⟩ := look_cases (i := i) s
      refine ⟨.look i, s.look i, if_pos hi, hpushed, hstopped, ?_⟩
      have hpopping := count_set hi spot .popping
      have hnotifying := count_set hi spot .notifying
      have hall := count_set hi spot .notifyingAll
      rw [rank, rank, hspots, List.length_set]
      rcases hspot with rfl | rfl
      all_goals
        simp only [reduceCtorEq, if_false, if_true, Nat.add_zero] at hpopping hnotifying hall
        rw [hnotifying, hall]
        omega
  | notifying =>
      by_cases hsleeping : .sleeping ∈ s.spots
      · obtain ⟨j, hj⟩ := List.getElem?_of_mem hsleeping
        have hj' : (s.spots.set i .outside)[j]? = some .sleeping := by
          rw [List.getElem?_set_ne, hj]
          rintro rfl
          cases hi.symm.trans hj
        refine ⟨.notifyOne i (some j), _, if_pos ⟨hi, hj⟩, rfl, rfl, ?_⟩
        have hpopping := count_set hi .outside .popping
        have hnotifying := count_set hi .outside .notifying
        have hall := count_set hi .outside .notifyingAll
        have hpopping' := count_set hj' .popping .popping
        have hnotifying' := count_set hj' .popping .notifying
        have hall' := count_set hj' .popping .notifyingAll
        simp only [reduceCtorEq, if_false, if_true, Nat.add_zero] at *
        simp only [rank, BlockingQueue.goTo, List.length_set, hall', hall]
        omega
      · refine ⟨.notifyOne i none, _, if_pos ⟨hi, hsleeping⟩, rfl, rfl, ?_⟩
        have hpopping := count_set hi .outside .popping
        have hnotifying := count_set hi .outside .notifying
        have hall := count_set hi .outside .notifyingAll
        simp only [reduceCtorEq, if_false, if_true, Nat.add_zero] at hpopping hnotifying hall
        simp only [rank, BlockingQueue.goTo, List.length_set, hall, hpopping]
        omega
  | notifyingAll =>
      refine ⟨.notifyAll i, _, if_pos hi, rfl, rfl, ?_⟩
      have hi' : (s.spots.map Spot.wake)[i]? = some .notifyingAll := by
        rw [List.getElem?_map, hi]
        rfl
      have hpopping := count_set hi' .outside .popping
      have hnotifying := count_set hi' .outside .notifying
      have hall := count_set hi' .outside .notifyingAll
      have hle : s.spots.count .sleeping ≤ s.spots.length := List.count_le_length
      rw [count_wake_popping] at hpopping
      rw [count_wake _ (by decide) (by decide)] at hnotifying hall
      simp only [reduceCtorEq, if_false, if_true, Nat.add_zero] at hpopping hnotifying hall
      simp only [rank, BlockingQueue.notifyAll, List.length_set, List.length_map, hpopping,
        hnotifying, ← hall, Nat.mul_add, Nat.mul_one]
      omega

/-- The threads inside can all come to rest. -/
theorem exists_rest (s : BlockingQueue α) :
    ∃ acts s', run BlockingQueue.step s acts = some s' ∧ s'.pushed = s.pushed ∧
      s'.stopped = s.stopped ∧ ∀ spot ∈ s'.spots, ¬ spot.Busy := by
  induction hrank : rank s using Nat.strongRecOn generalizing s with
  | ind n ih =>
      by_cases hrest : ∃ spot ∈ s.spots, spot.Busy
      · obtain ⟨spot, hmem, hbusy⟩ := hrest
        obtain ⟨i, hi⟩ := List.getElem?_of_mem hmem
        obtain ⟨a, t, hstep, hpushed, hstopped, hlt⟩ := busy_decreases hi hbusy
        obtain ⟨acts, s', hrun, hpushed', hstopped', hend⟩ := ih (rank t) (hrank ▸ hlt) t rfl
        exact ⟨a :: acts, s', (run_cons hstep).trans hrun, hpushed'.trans hpushed,
          hstopped'.trans hstopped, hend⟩
      · exact ⟨[], s, rfl, rfl, rfl, fun spot hmem hbusy => hrest ⟨spot, hmem, hbusy⟩⟩

/-- Whoever sleeps while there is something to take, or behind a `shutdown`, is still to be
woken up. -/
theorem Ok.busy (h : Ok s) (hsleeping : .sleeping ∈ s.spots)
    (hdue : s.queue ≠ [] ∨ s.stopped = true) : ∃ spot ∈ s.spots, spot.Busy := by
  have hslept : 0 < s.spots.count .sleeping := List.count_pos_iff.mpr hsleeping
  rcases hdue with hqueue | hstopped
  · have hcovered := h.covered hslept
    have hlength := List.length_pos_iff.mpr hqueue
    by_cases hnotifying : 0 < s.spots.count .notifying
    · exact ⟨_, List.count_pos_iff.mp hnotifying, by simp [Spot.Busy]⟩
    · have hpopping : 0 < s.spots.count .popping := by omega
      exact ⟨_, List.count_pos_iff.mp hpopping, by simp [Spot.Busy]⟩
  · exact ⟨_, List.count_pos_iff.mp (h.shut hstopped hslept), by simp [Spot.Busy]⟩

/-- For any number of threads and every interleaving of their methods, with wake-ups for no reason:
the items are taken in the order in which they were accepted, each once; `pop` returns `T{}` only
behind a `shutdown` and when every accepted item is taken; a thread sleeps through an item or a
`shutdown` only as long as another one is still on its way to wake it or to look itself; and the
threads inside can come to rest, where a thread sleeps only if the queue is open and empty. -/
theorem delivered_of_reachable {threads : ℕ}
    (h : Reachable BlockingQueue.step (.create α threads) s) :
    s.popped ++ s.queue = s.pushed ∧
      (0 < s.emptyHanded → s.stopped = true ∧ s.popped = s.pushed) ∧
      (.sleeping ∈ s.spots → s.queue ≠ [] ∨ s.stopped = true → ∃ spot ∈ s.spots, spot.Busy) ∧
      ∃ acts s', run BlockingQueue.step s acts = some s' ∧ s'.pushed = s.pushed ∧
        s'.stopped = s.stopped ∧ (∀ spot ∈ s'.spots, ¬ spot.Busy) ∧
        (.sleeping ∈ s'.spots → s'.popped = s'.pushed ∧ s'.stopped = false) := by
  have hok := ok_of_reachable h
  refine ⟨hok.order, fun hended => ?_, hok.busy, ?_⟩
  · obtain ⟨hstopped, hqueue⟩ := hok.drained hended
    have horder := hok.order
    rw [hqueue, List.append_nil] at horder
    exact ⟨hstopped, horder⟩
  · obtain ⟨acts, s', hrun, hpushed, hstopped, hrest⟩ := exists_rest s
    refine ⟨acts, s', hrun, hpushed, hstopped, hrest, fun hsleeping => ?_⟩
    have hok' : Ok s' := run_invariant (fun _ _ _ hok hstep => hok.step hstep) hok hrun
    have hdue : ¬ (s'.queue ≠ [] ∨ s'.stopped = true) := by
      intro hdue
      obtain ⟨spot, hmem, hbusy⟩ := hok'.busy hsleeping hdue
      exact hrest spot hmem hbusy
    obtain ⟨hqueue, hopen⟩ := not_or.mp hdue
    have horder := hok'.order
    rw [not_ne_iff.mp hqueue, List.append_nil] at horder
    exact ⟨horder, Bool.eq_false_iff.mpr hopen⟩

end Steps

/-- Two waiters sleep, and an item has been pushed but nobody notified yet. -/
def sleepersRun : List (Act ℕ) := [.callPop 0, .look 0, .callPop 1, .look 1, .push 2 4]

theorem delivered_of_reachable_sleepers :
    ∃ s, run BlockingQueue.step (.create ℕ 3) sleepersRun = some s ∧
      s.spots = [.sleeping, .sleeping, .notifying] ∧ ∃ spot ∈ s.spots, spot.Busy := by
  have hrun : run BlockingQueue.step (.create ℕ 3) sleepersRun = some _ := rfl
  refine ⟨_, hrun, rfl, ?_⟩
  exact (delivered_of_reachable ⟨_, hrun⟩).2.2.1 (by decide) (Or.inl (by decide))

end SimpleRedis.Monitor
