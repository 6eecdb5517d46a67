import SimpleRedis.DescriptorOwner
import SimpleRedis.KeyedState

/-!
# What the steps of a loop are about

A handler of a loop looks at what the loop knows of one descriptor and changes nothing else: it is
local to the descriptor. The handlers are put together from steps that store one entry, and so are
the proofs that they are local.
-/
namespace SimpleRedis.Net

open TransitionRun KeyedState

variable {F : Type*}

namespace EventLoopThread

/-- What a loop knows of a descriptor. -/
structure View (F : Type*) where
  connection : Option (Connection F)
  accept : Option (AcceptContext F)
  timer : Option (Option F)
  events : Option Interest

def view (s : EventLoopThread F) (fd : Fd) : View F where
  connection := s.connections fd
  accept := s.acceptSocketSet fd
  timer := s.timerFds fd
  events := s.epoll fd

section Views

variable {s s' : EventLoopThread F} {fd : Fd}

theorem view_eq_iff : s.view fd = s'.view fd ↔
    s.connections fd = s'.connections fd ∧ s.acceptSocketSet fd = s'.acceptSocketSet fd ∧
      s.timerFds fd = s'.timerFds fd ∧ s.epoll fd = s'.epoll fd := by
  simp only [view, View.mk.injEq]

theorem connections_of_view (h : s.view fd = s'.view fd) : s.connections fd = s'.connections fd :=
  congrArg View.connection h

theorem accept_of_view (h : s.view fd = s'.view fd) :
    s.acceptSocketSet fd = s'.acceptSocketSet fd := congrArg View.accept h

theorem timer_of_view (h : s.view fd = s'.view fd) : s.timerFds fd = s'.timerFds fd :=
  congrArg View.timer h

theorem events_of_view (h : s.view fd = s'.view fd) : s.epoll fd = s'.epoll fd :=
  congrArg View.events h

end Views

section Primitives

variable {fd : Fd}

theorem local_setConnection (conn : Connection F) (effects : List (Effect F)) :
    Local view fd fun s : EventLoopThread F => (s.setConnection fd conn, effects) where
  effects _ := rfl
  view_key h := by
    obtain ⟨-, haccept, htimer, hevents⟩ := view_eq_iff.mp h
    exact view_eq_iff.mpr ⟨by simp [setConnection], haccept, htimer, hevents⟩
  frame s k hne := view_eq_iff.mpr ⟨Function.update_of_ne hne .., rfl, rfl, rfl⟩

theorem local_removeConnection (effects : List (Effect F)) :
    Local view fd fun s : EventLoopThread F =>
      ({ s with connections := Function.update s.connections fd none }, effects) where
  effects _ := rfl
  view_key h := by
    obtain ⟨-, haccept, htimer, hevents⟩ := view_eq_iff.mp h
    exact view_eq_iff.mpr ⟨by simp, haccept, htimer, hevents⟩
  frame s k hne := view_eq_iff.mpr ⟨Function.update_of_ne hne .., rfl, rfl, rfl⟩

theorem local_setAccept (ctx : Option (AcceptContext F)) (effects : List (Effect F)) :
    Local view fd fun s : EventLoopThread F =>
      ({ s with acceptSocketSet := Function.update s.acceptSocketSet fd ctx }, effects) where
  effects _ := rfl
  view_key h := by
    obtain ⟨hconnection, -, htimer, hevents⟩ := view_eq_iff.mp h
    exact view_eq_iff.mpr ⟨hconnection, by simp, htimer, hevents⟩
  frame s k hne := view_eq_iff.mpr ⟨rfl, Function.update_of_ne hne .., rfl, rfl⟩

theorem local_removeTimer (effects : List (Effect F)) :
    Local view fd fun s : EventLoopThread F =>
      ({ s with timerFds := Function.update s.timerFds fd none }, effects) where
  effects _ := rfl
  view_key h := by
    obtain ⟨hconnection, haccept, -, hevents⟩ := view_eq_iff.mp h
    exact view_eq_iff.mpr ⟨hconnection, haccept, by simp, hevents⟩
  frame s k hne := view_eq_iff.mpr ⟨rfl, rfl, Function.update_of_ne hne .., rfl⟩

theorem local_epoll {f : InterestList → InterestList}
    (hkey : ∀ {list list' : InterestList}, list fd = list' fd → f list fd = f list' fd)
    (hframe : ∀ (list : InterestList) k, k ≠ fd → f list k = list k)
    (effects : List (Effect F)) :
    Local view fd fun s : EventLoopThread F => ({ s with epoll := f s.epoll }, effects) where
  effects _ := rfl
  view_key h := by
    obtain ⟨hconnection, haccept, htimer, hevents⟩ := view_eq_iff.mp h
    exact view_eq_iff.mpr ⟨hconnection, haccept, htimer, hkey hevents⟩
  frame s k hne := view_eq_iff.mpr ⟨rfl, rfl, rfl, hframe s.epoll k hne⟩

theorem local_removeEpollEvents (effects : List (Effect F)) :
    Local view fd fun s : EventLoopThread F => (s.removeEpollEvents fd, effects) :=
  local_epoll (f := (ctlDel · fd)) (by simp [ctlDel])
    (fun _ _ hne => Function.update_of_ne hne ..) effects

theorem local_modifyEpollEvents (events : Interest) (effects : List (Effect F)) :
    Local view fd fun s : EventLoopThread F => (s.modifyEpollEvents fd events, effects) := by
  refine local_epoll (f := (ctlMod · fd events)) (fun h => ?_) (fun list k hne => ?_) effects
  · simp only [ctlMod, h]
    split
    · simp
    · exact h
  · simp only [ctlMod]
    split
    · exact Function.update_of_ne hne ..
    · rfl

theorem local_addEpollEvents (events : Interest) (effects : List (Effect F)) :
    Local view fd fun s : EventLoopThread F => (s.addEpollEvents fd events, effects) := by
  refine local_epoll (f := (ctlAdd · fd events)) (fun h => ?_) (fun list k hne => ?_) effects
  · simp only [ctlAdd, h]
    split
    · exact h
    · simp
  · simp only [ctlAdd]
    split
    · rfl
    · exact Function.update_of_ne hne ..

/-- An event of a descriptor disarms the entry of that descriptor. -/
theorem local_disarm (hangup input output : Bool) (effects : List (Effect F)) :
    Local view fd fun s : EventLoopThread F =>
      ({ s with epoll := Event.disarm s.epoll (.ready fd hangup input output) }, effects) := by
  refine local_epoll (f := (Event.disarm · (.ready fd hangup input output))) (fun h => ?_)
    (fun list k hne => ?_) effects
  · simp only [Event.disarm, Function.update_self, h]
  · exact Function.update_of_ne hne ..

theorem local_put (c : Option (Connection F)) (f : Option Interest → Option Interest)
    (effects : List (Effect F)) :
    Local view fd fun s : EventLoopThread F => (s.put fd c (f (s.epoll fd)), effects) where
  effects _ := rfl
  view_key h := by
    obtain ⟨-, haccept, htimer, hevents⟩ := view_eq_iff.mp h
    exact view_eq_iff.mpr ⟨by simp, haccept, htimer, by simp [hevents]⟩
  frame s k hne := view_eq_iff.mpr
    ⟨connections_put_of_ne s fd c _ hne, rfl, rfl, epoll_put_of_ne s fd c _ hne⟩

end Primitives

section Handlers

variable {fd : Fd}

/-- The rest of `closeConnection`, behind `removeEpollEvents`. -/
def forget (fd : Fd) (s : EventLoopThread F) : EventLoopThread F × List (Effect F) :=
  if (s.acceptSocketSet fd).isSome then
    ({ s with acceptSocketSet := Function.update s.acceptSocketSet fd none }, [])
  else
    match s.connections fd with
    | none => (s, [])
    | some conn =>
        ({ s with connections := Function.update s.connections fd none }, conn.closeEffects fd)

theorem local_closeConnection :
    Local view fd fun s : EventLoopThread F => s.closeConnection fd := by
  have hforget : Local view fd (forget (F := F) fd) := by
    refine Local.ite (fun h => by rw [accept_of_view h]) (local_setAccept none []) ?_
    refine Local.option connections_of_view (local_id [])
      (fun conn => local_removeConnection (conn.closeEffects fd)) ?_ ?_
    · intro s h
      simp only [h]
    · intro s conn h
      simp only [h]
  exact (local_removeEpollEvents []).andThen hforget

theorem local_handleAccept : Local view fd fun s : EventLoopThread F => s.handleAccept fd := by
  refine Local.option accept_of_view (local_id [])
    (fun ctx => local_id (ctx.acceptCb.map (Effect.accept fd)).toList) ?_ ?_
  · intro s h
    simp only [handleAccept, h]
  · intro s ctx h
    simp only [handleAccept, h]

theorem local_handleTimer : Local view fd fun s : EventLoopThread F => s.handleTimer fd := by
  refine Local.option timer_of_view (local_id []) (fun callback =>
    (local_removeEpollEvents []).andThen
      (local_removeTimer (callback.map (Effect.timer fd)).toList)) ?_ ?_
  · intro s h
    simp only [handleTimer, h]
  · intro s callback h
    simp only [handleTimer, h]
    rfl

theorem local_peerClosed (conn : Connection F) :
    Local view fd fun s : EventLoopThread F => s.peerClosed fd conn := by
  simp only [peerClosed]
  split
  · exact (local_setConnection _ []).andThen (local_modifyEpollEvents _ _)
  · exact (local_setConnection _ []).andThen (local_removeEpollEvents _)

/-- What a read does to a connection. -/
def readConnection (fd : Fd) (outcome : ReadOutcome) (consumed : ℕ) (conn : Connection F)
    (s : EventLoopThread F) : EventLoopThread F × List (Effect F) :=
  match outcome with
  | .bytes chunk =>
      let received := conn.receive fd chunk consumed
      (s.setConnection fd received.1, received.2)
  | .zero => s.peerClosed fd conn
  | .again => (s, [])
  | .error => s.closeConnection fd

theorem local_handleRead (outcome : ReadOutcome) (consumed : ℕ) :
    Local view fd fun s : EventLoopThread F => s.handleRead fd outcome consumed := by
  refine Local.ite (fun h => by rw [accept_of_view h]) local_handleAccept ?_
  refine Local.ite (fun h => by rw [timer_of_view h]) local_handleTimer ?_
  refine Local.option (g := readConnection fd outcome consumed) connections_of_view
    (local_id []) (fun conn => ?_) ?_ ?_
  · cases outcome with
    | bytes chunk => exact local_setConnection _ _
    | zero => exact local_peerClosed conn
    | again => exact local_id []
    | error => exact local_closeConnection
  · intro s h
    simp only [h]
  · intro s conn h
    simp only [h]
    rfl

theorem local_drained (conn : Connection F) (effects : List (Effect F)) :
    Local view fd fun s : EventLoopThread F => (s.drained fd conn, effects) := by
  simp only [drained]
  split
  · exact local_removeEpollEvents _
  · split
    · exact local_modifyEpollEvents _ _
    · exact local_removeEpollEvents _

theorem local_written (conn : Connection F) (n : ℕ) :
    Local view fd fun s : EventLoopThread F => s.written fd conn n := by
  simp only [written]
  split
  · exact (local_setConnection _ []).andThen (local_drained _ _)
  · exact local_setConnection _ _

/-- What a write does to a connection. -/
def writeConnection (fd : Fd) (outcome : WriteOutcome) (conn : Connection F)
    (s : EventLoopThread F) : EventLoopThread F × List (Effect F) :=
  if conn.iovs = [] then (s, [])
  else
    match outcome with
    | .again => (s, [])
    | .error =>
        let failed := conn.failAllPendingWrites fd
        let closed := (s.setConnection fd failed.1).closeConnection fd
        (closed.1, failed.2 ++ closed.2)
    | .accepted n => s.written fd conn n

theorem local_handleWrite (outcome : WriteOutcome) :
    Local view fd fun s : EventLoopThread F => s.handleWrite fd outcome := by
  refine Local.option (g := writeConnection fd outcome) connections_of_view (local_id [])
    (fun conn => ?_) ?_ ?_
  · unfold writeConnection
    split
    · exact local_id []
    · cases outcome with
      | again => exact local_id []
      | error =>
          have hset : Local view fd fun s : EventLoopThread F =>
              (s.setConnection fd (conn.failAllPendingWrites fd).1, []) :=
            local_setConnection _ _
          have hclose := (hset.andThen local_closeConnection).emit (conn.failAllPendingWrites fd).2
          exact hclose
      | accepted n => exact local_written conn n
  · intro s h
    simp only [handleWrite, h]
  · intro s conn h
    simp only [handleWrite, h]
    rfl

theorem local_doRegisterAccept (socket : Socket) (callback : Option F)
    (effects : List (Effect F)) :
    Local view fd fun s : EventLoopThread F =>
      (s.doRegisterAccept fd socket callback, effects) := by
  refine Local.option accept_of_view
    ((local_setAccept (some ⟨socket, callback⟩) []).andThen (local_addEpollEvents epollIn effects))
    (fun ctx => local_setAccept (some { ctx with acceptCb := callback }) effects) ?_ ?_
  · intro s h
    simp only [doRegisterAccept, h]
  · intro s ctx h
    simp only [doRegisterAccept, h]

/-- A step of a loop is about its own descriptor. -/
theorem local_exec (op : Op F) : Local view op.fd fun s : EventLoopThread F => s.exec op := by
  by_cases hstores : op.stores = true
  · have heq : (fun s : EventLoopThread F => s.exec op) = fun s =>
        (s.put op.fd (stepConnection (s.connections op.fd) op).1
          (stepEvents (s.connections op.fd) (s.epoll op.fd) op),
          (stepConnection (s.connections op.fd) op).2) := by
      funext s
      exact Prod.ext (exec_put_of_stores op hstores) (exec_effects_of_stores op hstores)
    rw [heq]
    exact Local.of_ask (f := fun c (s : EventLoopThread F) =>
      (s.put op.fd (stepConnection c op).1 (stepEvents c (s.epoll op.fd) op),
        (stepConnection c op).2))
      connections_of_view fun c => local_put _ (stepEvents c · op) _
  · cases op with
    | handleRead fd outcome consumed => exact local_handleRead outcome consumed
    | handleWrite fd outcome => exact local_handleWrite outcome
    | close fd => exact local_closeConnection
    | _ => exact absurd rfl hstores

end Handlers

end EventLoopThread

end SimpleRedis.Net
