import Mathlib.Data.List.Basic

/-!
# The closure of a task and its callback

`ThreadPool::put` wraps a function and its callback in a closure that catches whatever
the function throws and hands it to the callback. The callback is called inside the same
`try` block where the function has returned, and inside the handler where it has thrown.
The loops of the workers and of the callback thread catch what is derived from
`std::exception`; anything else ends the process. The model runs the closure with its
handlers, and records the calls of the callback.
-/
namespace SimpleRedis.TaskCallback

/-- `std::any`: nothing, a `nullptr`, or a value of the function. -/
inductive Any (V : Type*) where
  | empty
  | nullptr
  | value (v : V)
  deriving DecidableEq, Repr

/-- `Result`; `E` is the type of what can be thrown. -/
structure Result (V E : Type*) where
  result : Any V
  exception : Option E
  deriving DecidableEq, Repr

namespace Result

variable {V E : Type*}

/-- `Result(nullptr)`. -/
def ofNullptr : Result V E := ⟨.empty, none⟩

/-- `Result(t)` for the value of a function. -/
def ofValue (t : V) : Result V E := ⟨.value t, none⟩

/-- `Result(nullptr, exception)`. -/
def ofException (exception : E) : Result V E := ⟨.nullptr, some exception⟩

/-- `Result::get`, with the `any_cast` of its type. -/
def get {T : Type*} (anyCast : Any V → Except E T) (r : Result V E) : Except E T :=
  match r.exception with
  | some exception => .error exception
  | none => anyCast r.result

end Result

/-- How `std::invoke` of the function ends, by the type of its value. -/
inductive Func (V E : Type*) where
  | void (outcome : Except E Unit)
  | value (outcome : Except E V)

/-- How a call of the callback ends. It may depend on the calls that were made before. -/
abbrev Callback (V E : Type*) := List (Result V E) → Result V E → Except E Unit

/-- The arguments of `put`; without a callback `cb` is a `CallBackNone`. -/
structure Task (V E : Type*) where
  func : Func V E
  cb : Option (Callback V E)

/-- The closure that is pushed into `cb_tasks`: a callback, the calls it has seen, and the
`Result` for the next. -/
structure Deferred (V E : Type*) where
  cb : Callback V E
  earlier : List (Result V E)
  result : Result V E

/-- What the closure of a task has done with its callback. -/
structure Calls (V E : Type*) where
  invoked : List (Result V E) := []
  enqueued : List (Deferred V E) := []

/-- Code that may throw and records what it does with the callback. -/
abbrev Exec (V E : Type) := ExceptT E (StateM (Calls V E))

section Closure

variable {V E : Type}

/-- `cb(result)`. -/
def call (cb : Callback V E) (result : Result V E) : Exec V E Unit := fun s =>
  (cb s.invoked result, { s with invoked := s.invoked ++ [result] })

/-- `enqueue_callback` with the closure that calls `cb`. -/
def enqueueCallback (cb : Callback V E) (result : Result V E) : Exec V E Unit := fun s =>
  (.ok (), { s with enqueued := s.enqueued ++ [⟨cb, s.invoked, result⟩] })

/-- The four places that hand a `Result` to the callback. -/
def handOver (useAsyncCb : Bool) (cb : Option (Callback V E)) (result : Result V E) :
    Exec V E Unit :=
  match cb with
  | none => pure ()
  | some cb => if useAsyncCb then enqueueCallback cb result else call cb result

/-- The lambda that `put` pushes into `tasks`. -/
def closure (useAsyncCb : Bool) (task : Task V E) : Exec V E Unit :=
  match task.func with
  | .void outcome =>
      tryCatch
        (do
          liftExcept outcome
          handOver useAsyncCb task.cb .ofNullptr)
        fun exception => handOver useAsyncCb task.cb (.ofException exception)
  | .value outcome =>
      tryCatch
        (do
          let t ← liftExcept outcome
          handOver useAsyncCb task.cb (.ofValue t))
        fun exception => handOver useAsyncCb task.cb (.ofException exception)

end Closure

/-- What a loop has done with the items that `pop` gave it, and whether it goes on. -/
structure Turns (σ : Type*) where
  turns : List σ
  alive : Bool

/-- The loop of `run` and of `cb_run` over the items that `pop` gives it. What is thrown
and not derived from `std::exception` leaves the thread, and the process ends. -/
def loop {E τ σ : Type*} (isException : E → Bool) (body : τ → Except E Unit × σ) :
    List τ → Turns σ
  | [] => ⟨[], true⟩
  | item :: items =>
      let turn := body item
      let others := loop isException body items
      match turn.1 with
      | .ok () => ⟨turn.2 :: others.turns, others.alive⟩
      | .error e =>
          if isException e then ⟨turn.2 :: others.turns, others.alive⟩ else ⟨[turn.2], false⟩

section Loops

variable {V E : Type}

/-- `ThreadPool::run`. -/
def run (isException : E → Bool) (useAsyncCb : Bool) (tasks : List (Task V E)) :
    Turns (Calls V E) :=
  loop isException (fun task => (closure useAsyncCb task).run {}) tasks

/-- `ThreadPool::cb_run`, with the calls that each closure makes. -/
def cbRun (isException : E → Bool) (deferred : List (Deferred V E)) : Turns (List (Result V E)) :=
  loop isException (fun d => (d.cb d.earlier d.result, [d.result])) deferred

/-- The `Result` of the function: the value it has returned or what it has thrown. -/
def Func.expected : Func V E → Result V E
  | .void (.ok ()) => .ofNullptr
  | .value (.ok t) => .ofValue t
  | .void (.error e) | .value (.error e) => .ofException e

def Func.threw : Func V E → Bool
  | .void (.ok ()) | .value (.ok _) => false
  | .void (.error _) | .value (.error _) => true

/-- The callback is called once, by the worker or by the callback thread, with the
`Result` of the function, and both threads go on. `rest` is what the worker takes next. -/
def CalledOnce (isException : E → Bool) (useAsyncCb : Bool) (func : Func V E)
    (cb : Callback V E) (rest : List (Task V E)) : Prop :=
  ∃ calls : Calls V E,
    run isException useAsyncCb (⟨func, some cb⟩ :: rest) =
        ⟨calls :: (run isException useAsyncCb rest).turns,
          (run isException useAsyncCb rest).alive⟩ ∧
      (cbRun isException calls.enqueued).alive = true ∧
      calls.invoked ++ (cbRun isException calls.enqueued).turns.flatten = [func.expected]

/-- The callback returns from its first call, or throws what is derived from
`std::exception` where the function's `try` block does not see it. -/
def Tolerated (isException : E → Bool) (useAsyncCb : Bool) (func : Func V E)
    (cb : Callback V E) : Prop :=
  match cb [] func.expected with
  | .ok () => True
  | .error e => isException e = true ∧ (useAsyncCb = true ∨ func.threw = true)

variable {isException : E → Bool} {func : Func V E} {cb : Callback V E}

theorem tryCatch_ok {body : Exec V E Unit} {s s' : Calls V E} (h : body.run s = (.ok (), s'))
    (handler : E → Exec V E Unit) : (tryCatch body handler).run s = (.ok (), s') := by
  simp only [ExceptT.run, tryCatch, tryCatchThe, MonadExceptOf.tryCatch, ExceptT.tryCatch,
    ExceptT.mk, bind, StateT.bind] at h ⊢
  rw [h]
  rfl

theorem tryCatch_error {body : Exec V E Unit} {e : E} {s s' : Calls V E}
    (h : body.run s = (.error e, s')) (handler : E → Exec V E Unit) :
    (tryCatch body handler).run s = (handler e).run s' := by
  simp only [ExceptT.run, tryCatch, tryCatchThe, MonadExceptOf.tryCatch, ExceptT.tryCatch,
    ExceptT.mk, bind, StateT.bind] at h ⊢
  rw [h]

/-- A call that is not made in the `try` block of the function. -/
theorem closure_threw (h : func.threw = true) :
    (closure false ⟨func, some cb⟩).run {} =
      (cb [] func.expected, ({ invoked := [func.expected] } : Calls V E)) := by
  cases func with
  | void outcome =>
      cases outcome with
      | ok _ => cases h
      | error e => rfl
  | value outcome =>
      cases outcome with
      | ok _ => cases h
      | error e => rfl

/-- Where the function has returned, the callback is called in its `try` block. -/
theorem closure_eq_tryCatch (cb : Callback V E) (h : func.threw = false) :
    ∃ body : Exec V E Unit, closure false ⟨func, some cb⟩ =
        tryCatch body (fun exception => call cb (.ofException exception)) ∧
      body.run {} = (cb [] func.expected, { invoked := [func.expected] }) := by
  cases func with
  | void outcome =>
      cases outcome with
      | ok _ => exact ⟨_, rfl, rfl⟩
      | error e => cases h
  | value outcome =>
      cases outcome with
      | ok t => exact ⟨_, rfl, rfl⟩
      | error e => cases h

theorem closure_returned (h : func.threw = false) (hcb : cb [] func.expected = .ok ()) :
    (closure false ⟨func, some cb⟩).run {} =
      (.ok (), ({ invoked := [func.expected] } : Calls V E)) := by
  obtain ⟨body, hclosure, hbody⟩ := closure_eq_tryCatch cb h
  rw [hcb] at hbody
  rw [hclosure, tryCatch_ok hbody]

/-- A callback that throws in the `try` block of the function is called again, with its own
exception. -/
theorem closure_twice (h : func.threw = false) {e : E} (hcb : cb [] func.expected = .error e) :
    (closure false ⟨func, some cb⟩).run {} =
      (cb [func.expected] (.ofException e),
        ({ invoked := [func.expected, .ofException e] } : Calls V E)) := by
  obtain ⟨body, hclosure, hbody⟩ := closure_eq_tryCatch cb h
  rw [hcb] at hbody
  rw [hclosure, tryCatch_error hbody]
  rfl

theorem closure_async :
    (closure true ⟨func, some cb⟩).run {} =
      (.ok (), ({ enqueued := [⟨cb, [], func.expected⟩] } : Calls V E)) := by
  cases func with
  | void outcome => cases outcome <;> rfl
  | value outcome => cases outcome <;> rfl

theorem loop_cons_alive {τ σ : Type} {body : τ → Except E Unit × σ} {item : τ}
    (items : List τ) (h : ∀ e, (body item).1 = .error e → isException e = true) :
    loop isException body (item :: items) =
      ⟨(body item).2 :: (loop isException body items).turns,
        (loop isException body items).alive⟩ := by
  rw [loop]
  cases hturn : (body item).1 with
  | ok _ => rfl
  | error e => simp only [h e hturn, if_true]

theorem loop_cons_ended {τ σ : Type} {body : τ → Except E Unit × σ} {item : τ}
    (items : List τ) {e : E} (h : (body item).1 = .error e) (he : isException e = false) :
    loop isException body (item :: items) = ⟨[(body item).2], false⟩ := by
  rw [loop]
  simp only [h, he, Bool.false_eq_true, if_false]

/-- A loop that has done nothing goes on. -/
theorem loop_alive_of_nil {τ σ : Type} {body : τ → Except E Unit × σ} {items : List τ}
    (h : (loop isException body items).turns = []) :
    (loop isException body items).alive = true := by
  cases items with
  | nil => rfl
  | cons item items =>
      rw [loop] at h
      split at h
      · cases h
      · split at h <;> cases h

/-- The loop goes on behind an item exactly if nothing leaves the thread. -/
theorem loop_cons_iff {τ σ : Type} {body : τ → Except E Unit × σ} {item : τ} {items : List τ}
    {turn : σ} :
    loop isException body (item :: items) =
        ⟨turn :: (loop isException body items).turns, (loop isException body items).alive⟩ ↔
      turn = (body item).2 ∧ ∀ e, (body item).1 = .error e → isException e = true := by
  by_cases h : ∀ e, (body item).1 = .error e → isException e = true
  · rw [loop_cons_alive items h, Turns.mk.injEq, List.cons_eq_cons]
    exact ⟨fun heq => ⟨heq.1.1.symm, h⟩, fun heq => ⟨⟨heq.1.symm, rfl⟩, rfl⟩⟩
  · simp only [not_forall, Bool.not_eq_true] at h
    obtain ⟨e, he, hexception⟩ := h
    rw [loop_cons_ended items he hexception]
    constructor
    · intro heq
      rw [Turns.mk.injEq, List.cons_eq_cons] at heq
      have halive := loop_alive_of_nil heq.1.2.symm
      rw [← heq.2] at halive
      cases halive
    · rintro ⟨-, hall⟩
      rw [hall e he] at hexception
      cases hexception

/-- The property, on the run of the closure alone. -/
theorem calledOnce_iff_closure {useAsyncCb : Bool} {rest : List (Task V E)}
    {outcome : Except E Unit} {calls : Calls V E}
    (h : (closure useAsyncCb ⟨func, some cb⟩).run {} = (outcome, calls)) :
    CalledOnce isException useAsyncCb func cb rest ↔
      (∀ e, outcome = .error e → isException e = true) ∧
        (cbRun isException calls.enqueued).alive = true ∧
        calls.invoked ++ (cbRun isException calls.enqueued).turns.flatten = [func.expected] := by
  simp only [CalledOnce, run, loop_cons_iff, h]
  constructor
  · rintro ⟨calls', ⟨rfl, hexception⟩, hafter⟩
    exact ⟨hexception, hafter⟩
  · rintro ⟨hexception, hafter⟩
    exact ⟨calls, ⟨rfl, hexception⟩, hafter⟩

theorem cbRun_nil : cbRun isException ([] : List (Deferred V E)) = ⟨[], true⟩ := rfl

/-- The turn of the callback thread for one callback. -/
theorem cbRun_singleton (d : Deferred V E) (isException : E → Bool) :
    (cbRun isException [d]).turns.flatten = [d.result] ∧
      ((cbRun isException [d]).alive = true ↔
        ∀ e, d.cb d.earlier d.result = .error e → isException e = true) := by
  by_cases h : ∀ e, d.cb d.earlier d.result = .error e → isException e = true
  · rw [cbRun, loop_cons_alive [] h]
    exact ⟨rfl, fun _ => h, fun _ => rfl⟩
  · have hnot := h
    simp only [not_forall, Bool.not_eq_true] at hnot
    obtain ⟨e, he, hexception⟩ := hnot
    rw [cbRun, loop_cons_ended [] he hexception]
    exact ⟨rfl, fun hfalse => absurd hfalse Bool.false_ne_true, fun hall => absurd hall h⟩

/-- For every function and every callback, whatever they return or throw and on whichever
thread the callback runs: it is called once, with the `Result` of the function, and the
threads go on, if and only if its exception, when it throws one, is derived from
`std::exception` and does not come out of the `try` block of the function. -/
theorem calledOnce_iff (useAsyncCb : Bool) (func : Func V E) (cb : Callback V E)
    (rest : List (Task V E)) :
    CalledOnce isException useAsyncCb func cb rest ↔ Tolerated isException useAsyncCb func cb := by
  cases useAsyncCb with
  | true =>
      have hturn := cbRun_singleton (⟨cb, [], func.expected⟩ : Deferred V E) isException
      rw [calledOnce_iff_closure closure_async]
      simp only [hturn.1, hturn.2, List.nil_append, Tolerated, true_or, and_true]
      cases hcb : cb [] func.expected <;> simp
  | false =>
      cases hthrew : func.threw with
      | true =>
          rw [calledOnce_iff_closure (closure_threw hthrew)]
          simp only [cbRun_nil, List.flatten_nil, List.append_nil, and_true, Tolerated, hthrew,
            or_true]
          cases hcb : cb [] func.expected <;> simp
      | false =>
          cases hcb : cb [] func.expected with
          | ok _ =>
              rw [calledOnce_iff_closure (closure_returned hthrew hcb)]
              simp [cbRun_nil, Tolerated, hcb]
          | error e =>
              rw [calledOnce_iff_closure (closure_twice hthrew hcb)]
              simp [cbRun_nil, Tolerated, hcb, hthrew]

/-- A callback that asks the `Result` for a type of its own: `bad_any_cast`, here 1, where
the function has returned, and what the function has thrown otherwise. -/
def wrongTypeCallback : Callback ℕ ℕ := fun _ r =>
  (r.get fun _ => .error 1).map fun (_ : Unit) => ()

/-- A callback that throws behind a function that has returned is called twice. -/
theorem not_calledOnce_wrongType :
    ¬ ∀ (isException : ℕ → Bool) (useAsyncCb : Bool) (func : Func ℕ ℕ) (cb : Callback ℕ ℕ)
        (rest : List (Task ℕ ℕ)), CalledOnce isException useAsyncCb func cb rest := by
  intro h
  have hreturned : (Func.value (.ok 5) : Func ℕ ℕ).threw = false := rfl
  have hthrows : wrongTypeCallback [] (Func.value (.ok 5) : Func ℕ ℕ).expected = .error 1 := rfl
  have hcalled := h (fun _ => true) false (.value (.ok 5)) wrongTypeCallback []
  rw [calledOnce_iff_closure (closure_twice hreturned hthrows)] at hcalled
  have hlen := congrArg List.length hcalled.2.2
  simp [cbRun_nil] at hlen

/-- A loop that nothing leaves gets through its items. -/
theorem loop_eq_map {τ σ : Type} {body : τ → Except E Unit × σ} {items : List τ}
    (h : ∀ item ∈ items, ∀ e, (body item).1 = .error e → isException e = true) :
    loop isException body items = ⟨items.map fun item => (body item).2, true⟩ := by
  induction items with
  | nil => rfl
  | cons item items ih =>
      rw [loop_cons_alive items (h item List.mem_cons_self),
        ih fun other hother => h other (List.mem_cons_of_mem item hother)]
      rfl

theorem Tolerated.caught {useAsyncCb : Bool} (h : Tolerated isException useAsyncCb func cb)
    {e : E} (hcb : cb [] func.expected = .error e) : isException e = true := by
  rw [Tolerated, hcb] at h
  exact h.1

/-- Without a callback thread the closure itself calls the callback. -/
theorem closure_tolerated (h : Tolerated isException false func cb) :
    ∃ outcome, (closure false ⟨func, some cb⟩).run {} =
        (outcome, ({ invoked := [func.expected] } : Calls V E)) ∧
      ∀ e, outcome = .error e → isException e = true := by
  cases hthrew : func.threw with
  | true => exact ⟨_, closure_threw hthrew, fun e he => Tolerated.caught h he⟩
  | false =>
      cases hcb : cb [] func.expected with
      | ok _ => exact ⟨_, closure_returned hthrew hcb, fun e he => by cases he⟩
      | error e => simp [Tolerated, hcb, hthrew] at h

/-- A whole run of a worker and of the callback thread: every task is called back once and
in order, and both threads go on. -/
theorem run_tolerated (useAsyncCb : Bool) (tasks : List (Func V E × Callback V E))
    (h : ∀ t ∈ tasks, Tolerated isException useAsyncCb t.1 t.2) :
    let worker := run isException useAsyncCb (tasks.map fun t => ⟨t.1, some t.2⟩)
    let callbacks := cbRun isException (worker.turns.flatMap (·.enqueued))
    worker.alive = true ∧ callbacks.alive = true ∧
      worker.turns.flatMap (·.invoked) ++ callbacks.turns.flatten =
        tasks.map (·.1.expected) := by
  cases useAsyncCb with
  | true =>
      have hworker : run isException true (tasks.map fun t => ⟨t.1, some t.2⟩) =
          ⟨tasks.map fun t => { enqueued := [⟨t.2, [], t.1.expected⟩] }, true⟩ := by
        rw [run, loop_eq_map]
        · simp only [List.map_map, Function.comp_def, closure_async]
        · intro task htask e he
          obtain ⟨t, -, rfl⟩ := List.mem_map.mp htask
          rw [closure_async] at he
          cases he
      have hcallbacks : cbRun isException (tasks.map fun t => ⟨t.2, [], t.1.expected⟩) =
          ⟨tasks.map fun t => [t.1.expected], true⟩ := by
        rw [cbRun, loop_eq_map]
        · simp only [List.map_map, Function.comp_def]
        · intro d hd e he
          obtain ⟨t, ht, rfl⟩ := List.mem_map.mp hd
          exact Tolerated.caught (h t ht) he
      have hnone : (tasks.flatMap fun _ => ([] : List (Result V E))) = [] := by simp
      simp only [hworker, List.flatMap_map, ← List.map_eq_flatMap, hcallbacks, hnone,
        List.nil_append, true_and]
      rw [← List.flatMap_def, ← List.map_eq_flatMap]
  | false =>
      have hworker : run isException false (tasks.map fun t => ⟨t.1, some t.2⟩) =
          ⟨tasks.map fun t => { invoked := [t.1.expected] }, true⟩ := by
        rw [run, loop_eq_map]
        · simp only [List.map_map, Turns.mk.injEq, and_true]
          refine List.map_congr_left fun t ht => ?_
          obtain ⟨outcome, hclosure, -⟩ := closure_tolerated (h t ht)
          exact congrArg Prod.snd hclosure
        · intro task htask e he
          obtain ⟨t, ht, rfl⟩ := List.mem_map.mp htask
          obtain ⟨outcome, hclosure, hexception⟩ := closure_tolerated (h t ht)
          rw [hclosure] at he
          exact hexception e he
      have hnone : (tasks.flatMap fun _ => ([] : List (Deferred V E))) = [] := by simp
      simp only [hworker, List.flatMap_map, ← List.map_eq_flatMap, hnone, cbRun_nil,
        List.flatten_nil, List.append_nil, true_and]

end Loops

end SimpleRedis.TaskCallback
