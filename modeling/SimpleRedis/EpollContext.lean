import SimpleRedis.LoopLocality
import SimpleRedis.DescriptorOwner

/-!
# The loops of a context

`EpollContext` has four loops. What it is asked to do with a socket becomes a task of the loop
that the descriptor of the socket is hashed to, and a loop runs its tasks in the order in which
they were posted, between the calls that it makes for its own events. The four loops do together
what a single loop does that is given the same tasks and calls, and what happens on a descriptor
is the same as if there were no other. The queue of a loop is taken as a FIFO of its places, and
no timers are asked for.
-/
namespace SimpleRedis.Net

open TransitionRun KeyedState

variable {F : Type*}

/-- `EpollContextImpl::LOOP_SIZE`. -/
abbrev loopSize : ℕ := 4

/-- A task in the queue of a loop. `op` is a function of the loop on a connection and `function`
one that was given to `postTask`. -/
inductive LoopTask (F : Type*) where
  | op (op : Op F)
  | registerAccept (fd : Fd) (socket : Socket) (callback : Option F)
  | function (fd : Fd) (function : F)
  deriving DecidableEq, Repr

/-- What a loop does: it runs a task, it makes a call for an event, or it is told of an event. -/
inductive Work (F : Type*) where
  | task (task : LoopTask F)
  | call (op : Op F)
  | report (fd : Fd) (hangup input output : Bool)
  deriving DecidableEq, Repr

/-- What is seen of a loop. -/
inductive Output (F : Type*) where
  | effect (effect : Effect F)
  | ran (fd : Fd) (function : F)
  deriving Repr

def LoopTask.fd : LoopTask F → Fd
  | .op o => o.fd
  | .registerAccept fd _ _ | .function fd _ => fd

namespace Work

def fd : Work F → Fd
  | .task t => t.fd
  | .call op => op.fd
  | .report fd _ _ _ => fd

def task? : Work F → Option (LoopTask F)
  | .task t => some t
  | _ => none

end Work

def Output.fd : Output F → Fd
  | .effect e => e.fd
  | .ran fd _ => fd

namespace EventLoopThread

def runTask (s : EventLoopThread F) : LoopTask F → EventLoopThread F × List (Output F)
  | .op op => ((s.exec op).1, (s.exec op).2.map .effect)
  | .registerAccept fd socket callback => (s.doRegisterAccept fd socket callback, [])
  | .function fd function => (s, [.ran fd function])

def work (s : EventLoopThread F) : Work F → EventLoopThread F × List (Output F)
  | .task task => s.runTask task
  | .call op => ((s.exec op).1, (s.exec op).2.map .effect)
  | .report fd hangup input output =>
      ({ s with epoll := Event.disarm s.epoll (.ready fd hangup input output) }, [])

/-- A loop that does one thing after the other, as the kernel answers and reports. -/
def oneLoop : Machine (EventLoopThread F) (Work F) (Output F) where
  possible s
    | .task _ => true
    | .call op => s.possible op
    | .report fd hangup input output => Event.reported s.epoll (.ready fd hangup input output)
  exec := work

end EventLoopThread

/-- A pointer to an `ISocket`; the number is `none` for `ERROR_SOCKET`. -/
structure SocketPointer where
  socket : Socket
  native : Option Fd
  deriving DecidableEq, Repr

/-- `checkSocket`: a null pointer and an invalid descriptor are refused. -/
def checkSocket : Option SocketPointer → Option (Fd × Socket)
  | none => none
  | some pointer => pointer.native.map (·, pointer.socket)

/-- A write that `checkSocket` refuses calls back with `false`, a batch with the index `-1`. -/
inductive Refusal (F : Type*) where
  | once (callback : F)
  | batch (callback : F) (index : ℤ)
  deriving DecidableEq, Repr

/-- The loops with their queues and the calls that are left of their batches. `posted` has the
tasks in the order in which they were posted, `done` the work of all loops in the order in which
it was done. -/
structure EpollContext (F : Type*) where
  loops : Fin loopSize → EventLoopThread F
  taskQueue : Fin loopSize → List (LoopTask F)
  calls : Fin loopSize → List Call
  trace : List (Output F)
  refused : List (Refusal F)
  posted : List (LoopTask F)
  done : List (Work F)

namespace EpollContext

def fresh : EpollContext F where
  loops _ := .fresh
  taskQueue _ := []
  calls _ := []
  trace := []
  refused := []
  posted := []
  done := []

section Api

variable (hash : Fd → ℕ)

/-- `std::hash<int>{}(fd) % loops_.size()`. -/
def index (fd : Fd) : Fin loopSize := ⟨hash fd % loopSize, Nat.mod_lt _ (by decide)⟩

/-- `postTask` of a loop. -/
def post (c : EpollContext F) (i : Fin loopSize) (task : LoopTask F) : EpollContext F :=
  { c with
    taskQueue := Function.update c.taskQueue i (c.taskQueue i ++ [task])
    posted := c.posted ++ [task] }

/-- What all requests have in common: the task goes to the loop of the descriptor. -/
def submit (c : EpollContext F) (socket : Option SocketPointer) (task : Fd → Socket → LoopTask F)
    (refusal : List (Refusal F)) : EpollContext F :=
  match checkSocket socket with
  | some (fd, socket) => c.post (index hash fd) (task fd socket)
  | none => { c with refused := c.refused ++ refusal }

variable (c : EpollContext F) (socket : Option SocketPointer)

def registerAccept (callback : Option F) : EpollContext F :=
  c.submit hash socket (fun fd socket => .registerAccept fd socket callback) []

def registerRead (callback : Option F) : EpollContext F :=
  c.submit hash socket (fun fd socket => .op (.registerRead fd socket callback)) []

def asyncWriteOnce (callback : Option F) (buf : List CChar) : EpollContext F :=
  c.submit hash socket (fun fd socket => .op (.writeOnce fd socket callback buf))
    (callback.map .once).toList

def asyncWriteBatch (callback : F) (bufs : List (List CChar)) : EpollContext F :=
  c.submit hash socket (fun fd socket => .op (.writeBatch fd socket callback bufs))
    [.batch callback (-1)]

def removeSocket : EpollContext F := c.submit hash socket (fun fd _ => .op (.close fd)) []

def registerHighLevel (callback : Option F) : EpollContext F :=
  c.submit hash socket (fun fd _ => .op (.registerHighLevel fd callback)) []

def registerLowLevel (callback : Option F) : EpollContext F :=
  c.submit hash socket (fun fd _ => .op (.registerLowLevel fd callback)) []

def registerCloseCallback (callback : Option F) : EpollContext F :=
  c.submit hash socket (fun fd _ => .op (.registerClose fd callback)) []

def postTask (function : F) : EpollContext F :=
  c.submit hash socket (fun fd _ => .function fd function) []

end Api

end EpollContext

/-- A request to the context. `addTimer` is none of them: it posts no task, and the descriptor that
it makes goes into the loop of the socket, whatever it would be hashed to itself. -/
inductive Request (F : Type*) where
  | registerAccept (callback : Option F)
  | registerRead (callback : Option F)
  | asyncWriteOnce (callback : Option F) (buf : List CChar)
  | asyncWriteBatch (callback : F) (bufs : List (List CChar))
  | removeSocket
  | registerHighLevel (callback : Option F)
  | registerLowLevel (callback : Option F)
  | registerCloseCallback (callback : Option F)
  | postTask (function : F)

/-- A step of the context. Any thread can make a request, as soon as the queue has a place for its
task; the other steps are those of one loop: `epoll_wait` returns, `drainTasks` runs a task or
ends, the next call of the batch. -/
inductive ContextStep (F : Type*) where
  | request (socket : Option SocketPointer) (request : Request F)
  | wait (i : Fin loopSize) (events : List Event)
  | task (i : Fin loopSize)
  | drained (i : Fin loopSize)
  | call (i : Fin loopSize) (op : Op F)

namespace EpollContext

def request (hash : Fd → ℕ) (c : EpollContext F) (socket : Option SocketPointer) :
    Request F → EpollContext F
  | .registerAccept callback => c.registerAccept hash socket callback
  | .registerRead callback => c.registerRead hash socket callback
  | .asyncWriteOnce callback buf => c.asyncWriteOnce hash socket callback buf
  | .asyncWriteBatch callback bufs => c.asyncWriteBatch hash socket callback bufs
  | .removeSocket => c.removeSocket hash socket
  | .registerHighLevel callback => c.registerHighLevel hash socket callback
  | .registerLowLevel callback => c.registerLowLevel hash socket callback
  | .registerCloseCallback callback => c.registerCloseCallback hash socket callback
  | .postTask function => c.postTask hash socket function

/-- `postTask` tries again until `push` has found a place for the task. A request that
`checkSocket` refuses makes none. -/
def fits (hash : Fd → ℕ) (places : ℕ) (c : EpollContext F) (socket : Option SocketPointer) :
    Bool :=
  (checkSocket socket).all fun socket => (c.taskQueue (index hash socket.1)).length < places

/-- The work that a loop does when `epoll_wait` returns. -/
def reports (events : List Event) : List (Work F) :=
  events.filterMap fun
    | .wakeup => none
    | .ready fd hangup input output => some (.report fd hangup input output)

/-- A loop does some work. -/
def perform (c : EpollContext F) (i : Fin loopSize) (w : Work F) : EpollContext F :=
  { c with
    loops := Function.update c.loops i ((c.loops i).work w).1
    trace := c.trace ++ ((c.loops i).work w).2
    done := c.done ++ [w] }

def step (hash : Fd → ℕ) (places : ℕ) (c : EpollContext F) :
    ContextStep F → Option (EpollContext F)
  | .request socket request =>
      if c.fits hash places socket then some (c.request hash socket request) else none
  | .wait i events =>
      if c.calls i = [] ∧ events.length ≤ maxEvents ∧ (events.map Event.fd?).Nodup ∧
          ∀ event ∈ events, event.reported (c.loops i).epoll = true then
        some { (reports events).foldl (·.perform i ·) c with
          calls := Function.update c.calls i (events.flatMap Event.calls) }
      else none
  | .task i =>
      match c.taskQueue i with
      | [] => none
      | task :: tasks =>
          if (c.calls i).head? = some .drainTasks then
            some { c.perform i (.task task) with
              taskQueue := Function.update c.taskQueue i tasks }
          else none
  | .drained i =>
      match c.calls i with
      | .drainTasks :: calls => some { c with calls := Function.update c.calls i calls }
      | _ => none
  | .call i op =>
      match c.calls i with
      | [] => none
      | call :: calls =>
          if call.makes op && (c.loops i).possible op then
            some { c.perform i (.call op) with calls := Function.update c.calls i calls }
          else none

end EpollContext

section Locality

open EventLoopThread

theorem local_runTask (task : LoopTask F) :
    Local view task.fd fun s : EventLoopThread F => s.runTask task := by
  cases task with
  | op op => exact (local_exec op).map Output.effect
  | registerAccept fd socket callback =>
      exact (local_doRegisterAccept socket callback []).map Output.effect
  | function fd function => exact local_id _

theorem local_work (w : Work F) : Local view w.fd fun s : EventLoopThread F => s.work w := by
  cases w with
  | task task => exact local_runTask task
  | call op => exact (local_exec op).map Output.effect
  | report fd hangup input output =>
      exact (local_disarm hangup input output []).map Output.effect

theorem possible_of_view {s s' : EventLoopThread F} (op : Op F)
    (h : s.view op.fd = s'.view op.fd) : s.possible op = s'.possible op := by
  have hconnection := connections_of_view h
  cases op with
  | handleRead fd outcome consumed =>
      cases outcome with
      | bytes chunk =>
          change s.connections fd = s'.connections fd at hconnection
          simp only [possible, hconnection]
      | zero | again | error => rfl
  | handleWrite fd outcome =>
      cases outcome with
      | accepted n =>
          change s.connections fd = s'.connections fd at hconnection
          simp only [possible, hconnection]
      | again | error => rfl
  | registerRead | writeOnce | writeBatch | registerHighLevel | registerLowLevel
  | registerClose | close => rfl

theorem fd_of_mem_exec {s : EventLoopThread F} {op : Op F} {o : Output F}
    (h : o ∈ (s.exec op).2.map Output.effect) : o.fd = op.fd := by
  obtain ⟨effect, heffect, rfl⟩ := List.mem_map.mp h
  exact (by_exec s op effect heffect).fd_eq

/-- What a loop does for a descriptor is local to the descriptor. -/
theorem keyed_oneLoop :
    (oneLoop : Machine (EventLoopThread F) _ _).Keyed view Work.fd Output.fd where
  isLocal := local_work
  possible_congr w h := by
    cases w with
    | task task => rfl
    | call op => exact possible_of_view op h
    | report fd hangup input output =>
        have hevents : _ = _ := events_of_view h
        simp only [Work.fd] at hevents
        simp only [oneLoop, Event.reported, hevents]
  tag_eq s w o ho := by
    cases w with
    | task task =>
        cases task with
        | op op => exact fd_of_mem_exec ho
        | registerAccept fd socket callback => exact absurd ho List.not_mem_nil
        | function fd function =>
            cases List.mem_singleton.mp ho
            rfl
    | call op => exact fd_of_mem_exec ho
    | report fd hangup input output => exact absurd ho List.not_mem_nil

end Locality

namespace EpollContext

open EventLoopThread

section Routing

variable {hash : Fd → ℕ} {places : ℕ} {c c' : EpollContext F}
  {t : Traced (EventLoopThread F) (Output F)} {i : Fin loopSize}

/-- The single loop that has done the work of the context so far. -/
structure Whole (hash : Fd → ℕ) (c : EpollContext F)
    (t : Traced (EventLoopThread F) (Output F)) : Prop where
  ran : run oneLoop.step (Machine.start .fresh) c.done = some t
  trace : c.trace = t.trace
  sharded : Sharded view (index hash) .fresh c.loops t.state

/-- Everything a loop holds is about descriptors of its own, and its tasks are those that were
posted to it. -/
structure Routed (hash : Fd → ℕ) (c : EpollContext F) : Prop where
  queue : ∀ i, ∀ task ∈ c.taskQueue i, index hash task.fd = i
  calls : ∀ i, ∀ call ∈ c.calls i, ∀ fd, call.fd? = some fd → index hash fd = i
  posted : ∀ i, c.posted.filter (index hash ·.fd = i) =
    (c.done.filterMap Work.task?).filter (index hash ·.fd = i) ++ c.taskQueue i

/-- What a loop does on a descriptor of its own, the single loop can do as well. -/
theorem Whole.perform (h : Whole hash c t) {w : Work F} (hi : index hash w.fd = i)
    (hpossible : oneLoop.possible (c.loops i) w = true) : ∃ t', Whole hash (c.perform i w) t' := by
  subst hi
  have hview := h.sharded.own w.fd
  have hpossible' : oneLoop.possible t.state w = true :=
    (keyed_oneLoop.possible_congr w hview).symm.trans hpossible
  have hoff := local_work w
  refine ⟨⟨(t.state.work w).1, t.trace ++ (t.state.work w).2⟩, ?_, ?_, h.sharded.exec hoff⟩
  · exact run_trans h.ran ((run_cons (step_of_possible hpossible')).trans rfl)
  · change c.trace ++ _ = _
    rw [h.trace, hoff.effects hview]

theorem loops_perform (w : Work F) : (c.perform i w).loops i = ((c.loops i).work w).1 :=
  Function.update_self ..

/-- A loop that does not know a descriptor is not told of it. -/
theorem Whole.index_of_reported (h : Whole hash c t) {fd : Fd} {hangup input output : Bool}
    (hreported : Event.reported (c.loops i).epoll (.ready fd hangup input output) = true) :
    index hash fd = i := by
  by_contra hne
  have hunknown : (c.loops i).epoll fd = none := events_of_view (h.sharded.foreign i fd hne)
  simp only [Event.reported, hunknown, Bool.false_eq_true] at hreported

/-- The events of a batch are about different descriptors, so that none of them takes another
one back. -/
theorem Whole.reports {events : List Event} (h : Whole hash c t)
    (hnodup : (events.map Event.fd?).Nodup)
    (hreported : ∀ event ∈ events, event.reported (c.loops i).epoll = true) :
    ∃ t', Whole hash ((reports events).foldl (·.perform i ·) c) t' := by
  induction events generalizing c t with
  | nil => exact ⟨t, h⟩
  | cons event events ih =>
      obtain ⟨hfirst, hrest⟩ := List.forall_mem_cons.mp hreported
      rw [List.map_cons, List.nodup_cons] at hnodup
      cases event with
      | wakeup => exact ih h hnodup.2 hrest
      | ready fd hangup input output =>
          obtain ⟨t₁, h₁⟩ := h.perform (w := .report fd hangup input output)
            (h.index_of_reported hfirst) hfirst
          refine ih h₁ hnodup.2 fun event hevent => ?_
          rw [loops_perform]
          cases event with
          | wakeup => rfl
          | ready fd' hangup' input' output' =>
              have hne : fd' ≠ fd := by
                rintro rfl
                exact hnodup.1 (List.mem_map.mpr ⟨_, hevent, rfl⟩)
              have hkept := hrest _ hevent
              simpa only [work, Event.reported, Event.disarm, Function.update_of_ne hne] using hkept

/-- Work leaves the queues alone. -/
theorem foldl_perform (works : List (Work F)) :
    (works.foldl (·.perform i ·) c).taskQueue = c.taskQueue ∧
      (works.foldl (·.perform i ·) c).calls = c.calls ∧
      (works.foldl (·.perform i ·) c).posted = c.posted ∧
      (works.foldl (·.perform i ·) c).done = c.done ++ works := by
  induction works generalizing c with
  | nil => exact ⟨rfl, rfl, rfl, (List.append_nil _).symm⟩
  | cons w works ih =>
      obtain ⟨hqueue, hcalls, hposted, hdone⟩ := ih (c := c.perform i w)
      refine ⟨hqueue, hcalls, hposted, hdone.trans ?_⟩
      exact List.append_assoc c.done [w] works

theorem tasks_reports (events : List Event) :
    (reports events : List (Work F)).filterMap Work.task? = [] := by
  induction events with
  | nil => rfl
  | cons event events ih =>
      cases event with
      | wakeup => exact ih
      | ready fd hangup input output => exact ih

theorem Routed.post (h : Routed hash c) {task : LoopTask F} (hi : index hash task.fd = i) :
    Routed hash (c.post i task) where
  queue j t ht := by
    change t ∈ Function.update c.taskQueue i (c.taskQueue i ++ [task]) j at ht
    by_cases hj : j = i
    · subst hj
      rw [Function.update_self] at ht
      rcases List.mem_append.mp ht with ht | ht
      · exact h.queue j t ht
      · exact List.mem_singleton.mp ht ▸ hi
    · rw [Function.update_of_ne hj] at ht
      exact h.queue j t ht
  calls := h.calls
  posted j := by
    change (c.posted ++ [task]).filter _ = _
    rw [List.filter_append, h.posted j]
    by_cases hj : j = i
    · subst hj
      simp [EpollContext.post, hi]
    · simp [EpollContext.post, Function.update_of_ne hj, hi, Ne.symm hj]

/-- A task leaves its queue when it is done. -/
theorem Routed.task (h : Routed hash c) {task : LoopTask F} {tasks : List (LoopTask F)}
    (hqueue : c.taskQueue i = task :: tasks) :
    Routed hash { c.perform i (.task task) with
      taskQueue := Function.update c.taskQueue i tasks } where
  queue j t ht := by
    change t ∈ Function.update c.taskQueue i tasks j at ht
    by_cases hj : j = i
    · subst hj
      rw [Function.update_self] at ht
      exact h.queue j t (hqueue ▸ List.mem_cons_of_mem task ht)
    · rw [Function.update_of_ne hj] at ht
      exact h.queue j t ht
  calls := h.calls
  posted j := by
    have hi : index hash task.fd = i := h.queue i task (hqueue ▸ List.mem_cons_self)
    refine (h.posted j).trans ?_
    by_cases hj : j = i
    · subst hj
      simp [perform, Work.task?, hi, hqueue]
    · simp [perform, Work.task?, Function.update_of_ne hj, hi, Ne.symm hj]

theorem Routed.calls_update (h : Routed hash c) {calls : List Call}
    (hcalls : ∀ call ∈ calls, ∀ fd, call.fd? = some fd → index hash fd = i) :
    Routed hash { c with calls := Function.update c.calls i calls } where
  queue := h.queue
  calls j call hcall := by
    change call ∈ Function.update c.calls i calls j at hcall
    by_cases hj : j = i
    · subst hj
      rw [Function.update_self] at hcall
      exact hcalls call hcall
    · rw [Function.update_of_ne hj] at hcall
      exact h.calls j call hcall
  posted := h.posted

/-- Work that is no task is nothing to the queues. -/
theorem Routed.perform_all (h : Routed hash c) (works : List (Work F))
    (hworks : works.filterMap Work.task? = []) :
    Routed hash (works.foldl (·.perform i ·) c) := by
  obtain ⟨hqueue, hcalls, hposted, hdone⟩ := foldl_perform (c := c) (i := i) works
  refine ⟨?_, ?_, fun j => ?_⟩
  · rw [hqueue]
    exact h.queue
  · rw [hcalls]
    exact h.calls
  · rw [hposted, hqueue, hdone, List.filterMap_append, hworks, List.append_nil]
    exact h.posted j

theorem fd?_of_makes {call : Call} {op : Op F} (h : call.makes op = true) :
    call.fd? = some op.fd := by
  cases call <;> cases op <;> simp_all [Call.makes, Call.fd?, Op.fd]

/-- Each call of a batch has the descriptor of its event. -/
theorem fd?_of_mem_calls {event : Event} {call : Call} {fd : Fd} (h : call ∈ event.calls)
    (hfd : call.fd? = some fd) : event.fd? = some fd := by
  cases event with
  | wakeup =>
      cases List.mem_singleton.mp h
      cases hfd
  | ready fd' hangup input output =>
      cases hangup <;> cases input <;> cases output <;>
        simp only [Event.calls, if_true, if_false, Bool.false_eq_true, List.nil_append,
          List.singleton_append, List.append_nil, List.mem_cons, List.not_mem_nil, or_false]
          at h <;>
        grind [Call.fd?, Event.fd?]

/-- A request is a task for the descriptor of the socket, if it has one. -/
theorem exists_submit (hash : Fd → ℕ) (c : EpollContext F) (socket : Option SocketPointer)
    (request : Request F) :
    ∃ task refusal, (∀ fd socket, (task fd socket : LoopTask F).fd = fd) ∧
      c.request hash socket request = c.submit hash socket task refusal := by
  cases request <;> exact ⟨_, _, fun _ _ => rfl, rfl⟩

structure Sound (hash : Fd → ℕ) (c : EpollContext F) : Prop where
  routed : Routed hash c
  whole : ∃ t, Whole hash c t

theorem Whole.of_eq (h : Whole hash c t) (hdone : c'.done = c.done) (htrace : c'.trace = c.trace)
    (hloops : c'.loops = c.loops) : Whole hash c' t :=
  ⟨hdone ▸ h.ran, htrace.trans h.trace, hloops ▸ h.sharded⟩

theorem Sound.request (h : Sound hash c) (socket : Option SocketPointer) (request : Request F) :
    Sound hash (c.request hash socket request) := by
  obtain ⟨t, ht⟩ := h.whole
  obtain ⟨task, refusal, hfd, heq⟩ := exists_submit hash c socket request
  rw [heq]
  unfold submit
  split
  · rename_i fd socket _
    refine ⟨h.routed.post ?_, t, ht.of_eq rfl rfl rfl⟩
    rw [hfd]
  · exact ⟨⟨h.routed.queue, h.routed.calls, h.routed.posted⟩, t, ht.of_eq rfl rfl rfl⟩

theorem Sound.wait (h : Sound hash c) {events : List Event}
    (hnodup : (events.map Event.fd?).Nodup)
    (hreported : ∀ event ∈ events, event.reported (c.loops i).epoll = true) :
    Sound hash { (reports events).foldl (·.perform i ·) c with
      calls := Function.update c.calls i (events.flatMap Event.calls) } := by
  obtain ⟨t, ht⟩ := h.whole
  obtain ⟨t', ht'⟩ := ht.reports hnodup hreported
  have hrouted := h.routed.perform_all (i := i) _ (tasks_reports events)
  have hcalls := (foldl_perform (c := c) (i := i) (reports events)).2.1
  refine ⟨?_, t', ht'.of_eq rfl rfl rfl⟩
  rw [← hcalls]
  refine hrouted.calls_update fun call hcall fd hfd => ?_
  obtain ⟨event, hevent, hmem⟩ := List.mem_flatMap.mp hcall
  cases event with
  | wakeup =>
      cases List.mem_singleton.mp hmem
      cases hfd
  | ready fd' hangup input output =>
      cases fd?_of_mem_calls hmem hfd
      exact ht.index_of_reported (hreported _ hevent)

theorem Sound.call (h : Sound hash c) {op : Op F} {call : Call} {calls : List Call}
    (hcalls : c.calls i = call :: calls) (hmakes : call.makes op = true)
    (hpossible : (c.loops i).possible op = true) :
    Sound hash { c.perform i (.call op) with calls := Function.update c.calls i calls } := by
  obtain ⟨t, ht⟩ := h.whole
  have hi : index hash op.fd = i :=
    h.routed.calls i call (hcalls ▸ List.mem_cons_self) op.fd (fd?_of_makes hmakes)
  obtain ⟨t', ht'⟩ := ht.perform (w := .call op) hi hpossible
  refine ⟨?_, t', ht'.of_eq rfl rfl rfl⟩
  refine (h.routed.perform_all [.call op] rfl).calls_update ?_
  exact fun call' hcall' => h.routed.calls i call' (hcalls ▸ List.mem_cons_of_mem call hcall')

theorem Sound.step {a : ContextStep F} (h : Sound hash c)
    (hstep : c.step hash places a = some c') : Sound hash c' := by
  cases a with
  | request socket request =>
      obtain ⟨-, hc'⟩ := Option.ite_none_right_eq_some.mp hstep
      cases hc'
      exact h.request socket request
  | wait i events =>
      obtain ⟨⟨-, -, hnodup, hreported⟩, hc'⟩ := Option.ite_none_right_eq_some.mp hstep
      cases hc'
      exact h.wait hnodup hreported
  | task i =>
      simp only [EpollContext.step] at hstep
      split at hstep
      · cases hstep
      · rename_i task tasks hqueue
        obtain ⟨-, hc'⟩ := Option.ite_none_right_eq_some.mp hstep
        cases hc'
        obtain ⟨t, ht⟩ := h.whole
        have hi : index hash task.fd = i := h.routed.queue i task (hqueue ▸ List.mem_cons_self)
        obtain ⟨t', ht'⟩ := ht.perform (w := .task task) hi rfl
        exact ⟨h.routed.task hqueue, t', ht'.of_eq rfl rfl rfl⟩
  | drained i =>
      simp only [EpollContext.step] at hstep
      split at hstep
      · rename_i calls hcalls
        cases hstep
        obtain ⟨t, ht⟩ := h.whole
        refine ⟨h.routed.calls_update fun call hcall => ?_, t, ht.of_eq rfl rfl rfl⟩
        exact h.routed.calls i call (hcalls ▸ List.mem_cons_of_mem _ hcall)
      · cases hstep
  | call i op =>
      simp only [EpollContext.step] at hstep
      split at hstep
      · cases hstep
      · rename_i call calls hcalls
        obtain ⟨hguard, hc'⟩ := Option.ite_none_right_eq_some.mp hstep
        cases hc'
        rw [Bool.and_eq_true] at hguard
        exact h.call hcalls hguard.1 hguard.2

theorem sound_fresh : Sound hash (fresh : EpollContext F) where
  routed := ⟨fun _ _ h => absurd h List.not_mem_nil, fun _ _ h => absurd h List.not_mem_nil,
    fun _ => rfl⟩
  whole := ⟨Machine.start .fresh, rfl, rfl, sharded_init⟩

theorem sound_of_reachable (h : Reachable (step hash places) fresh c) : Sound hash c :=
  h.invariant (fun _ _ _ hsound => hsound.step) sound_fresh

/-- Two loops write at the same time; the second request has no socket. -/
def twoWrites : List (ContextStep ℕ) :=
  [.request (some ⟨0, some 4⟩) (.asyncWriteOnce (some 1) [65]),
    .request none (.asyncWriteOnce (some 3) [66]),
    .request (some ⟨1, some 7⟩) (.asyncWriteOnce (some 2) [67]),
    .wait 3 [.wakeup], .task 3, .wait 0 [.wakeup], .task 0, .drained 3,
    .wait 3 [.ready 7 false false true], .call 3 (.handleWrite 7 (.accepted 1))]

theorem filter_tasks (works : List (Work F)) (fd : Fd) :
    (works.filterMap Work.task?).filter (·.fd = fd) =
      (works.filter (·.fd = fd)).filterMap Work.task? := by
  rw [List.filter_filterMap, List.filterMap_filter]
  refine List.filterMap_congr fun w _ => ?_
  cases w with
  | task task => rfl
  | call op => exact (ite_self none).symm
  | report fd' => exact (ite_self none).symm

theorem Routed.posted_fd (h : Routed hash c) (fd : Fd) :
    c.posted.filter (·.fd = fd) = (c.done.filter (·.fd = fd)).filterMap Work.task? ++
      (c.taskQueue (index hash fd)).filter (·.fd = fd) := by
  have hsub : ∀ tasks : List (LoopTask F),
      (tasks.filter (index hash ·.fd = index hash fd)).filter (·.fd = fd) =
        tasks.filter (·.fd = fd) := fun tasks => by
    rw [List.filter_filter]
    refine List.filter_congr fun task _ => ?_
    by_cases hfd : task.fd = fd <;> simp [hfd]
  have hposted := congrArg (List.filter (·.fd = fd)) (h.posted (index hash fd))
  rwa [hsub, List.filter_append, hsub, filter_tasks] at hposted

/-- What happens on a descriptor is what a loop does that is given the tasks and the events of
that descriptor alone, whatever is asked of the others and however the loops take turns. Its tasks
are run in the order in which they were posted. -/
theorem alone_of_reachable (hash : Fd → ℕ) (places : ℕ) {c : EpollContext F}
    (h : Reachable (step hash places) fresh c) (fd : Fd) :
    ∃ t, run oneLoop.step (Machine.start .fresh) (c.done.filter (·.fd = fd)) = some t ∧
      c.trace.filter (·.fd = fd) = t.trace ∧
      (c.loops (index hash fd)).view fd = t.state.view fd ∧
      c.posted.filter (·.fd = fd) = (c.done.filter (·.fd = fd)).filterMap Work.task? ++
        (c.taskQueue (index hash fd)).filter (·.fd = fd) := by
  obtain ⟨hrouted, t, ht⟩ := sound_of_reachable h
  obtain ⟨u, hu, halone⟩ := isolated_start.run keyed_oneLoop (k := fd) ht.ran
  refine ⟨u, hu, ?_, (ht.sharded.own fd).trans halone.view_eq, hrouted.posted_fd fd⟩
  rw [ht.trace]
  exact halone.trace_eq

theorem alone_of_reachable_two :
    ∃ c, run (step id 511) (fresh : EpollContext ℕ) twoWrites = some c ∧
      c.done.filter (·.fd = 7) = [.task (.op (.writeOnce 7 1 (some 2) [67])),
        .report 7 false false true, .call (.handleWrite 7 (.accepted 1))] ∧
      ∃ t, run oneLoop.step (Machine.start .fresh) (c.done.filter (·.fd = 7)) = some t ∧
        c.trace.filter (·.fd = 7) = t.trace := by
  have hrun : run (step id 511) (fresh : EpollContext ℕ) twoWrites = some _ := rfl
  obtain ⟨t, ht, htrace, -⟩ := alone_of_reachable id 511 ⟨_, hrun⟩ 7
  exact ⟨_, hrun, rfl, t, ht, htrace⟩

end Routing

end EpollContext

end SimpleRedis.Net
