import SimpleRedis.DescriptorOwner

/-!
# Events and the descriptors they were reported for

`epoll_wait` reports numbers, and the calls for them are made one after the other. A task in
between can close a socket, the number can be opened again, and the call then finds who has it
now. It finds who the event was reported for, or nobody, if no step registers anything new under
a number that still has a call to come.
-/
namespace SimpleRedis.Net

open TransitionRun

variable {F : Type*}

/-- The call finds something under its number. `closeConnection` takes the number out of the
interest list before it looks for it, and `handleWrite` returns if there is nothing to write. -/
def EventLoopThread.finds (s : EventLoopThread F) : Call → Prop
  | .drainTasks => False
  | .closeConnection fd =>
      s.acceptSocketSet fd ≠ none ∨ s.connections fd ≠ none ∨ s.epoll fd ≠ none
  | .handleRead fd =>
      s.acceptSocketSet fd ≠ none ∨ s.timerFds fd ≠ none ∨ s.connections fd ≠ none
  | .handleWrite fd => queueOf (s.connections fd) ≠ []

/-- A running loop with the descriptors that were open when the current batch was returned. -/
structure BatchWatch (F : Type*) where
  running : RunningLoop F
  polled : Fd → Option Descriptor

namespace BatchWatch

def fresh : BatchWatch F := { running := .fresh, polled := fun _ => none }

/-- The descriptors of the batch that a step leaves: the return of `epoll_wait` brings others. -/
def polledAfter (w : BatchWatch F) (r : RunningLoop F) : LoopStep F → Fd → Option Descriptor
  | .wait _ => r.descriptors
  | _ => w.polled

def step (w : BatchWatch F) (a : LoopStep F) : Option (BatchWatch F) :=
  (w.running.step a).map fun r => { running := r, polled := w.polledAfter r a }

/-- The next call is for the socket or the timer that had the number when the batch was
returned, or it finds nobody and does nothing. -/
def HitsOwn (w : BatchWatch F) : Prop :=
  ∀ call calls op, w.running.calls = call :: calls → call.makes op = true →
    w.running.descriptors op.fd = w.polled op.fd ∨
      ¬ w.running.loop.finds call ∧ w.running.loop.exec op = (w.running.loop, [])

end BatchWatch

/-- An event never hits another connection: so it is in every state of every run. -/
def EventsHitOwn (F : Type*) : Prop :=
  ∀ acts : List (LoopStep F), Always BatchWatch.step BatchWatch.HitsOwn .fresh acts

/-- The call finds what the step registers: a connection or an acceptor of a socket, what a
connection is to write, or a timer. -/
def LoopStep.meets (a : LoopStep F) : Call → Prop
  | .drainTasks => False
  | .closeConnection fd | .handleRead fd =>
      match a with
      | .task op => op.fd = fd ∧ op.holds ≠ none
      | .registerAccept fd' _ _ => fd' = fd
      | .addTimer _ (.added timerfd) _ => timerfd = fd
      | _ => False
  | .handleWrite fd =>
      match a with
      | .task op => op.fd = fd ∧ op.submissions ≠ []
      | _ => False

/-- Nothing is registered under a number that has a call to come which would find it, unless
the number still has the descriptor that the event was reported for. -/
def BatchWatch.Timely (w : BatchWatch F) (a : LoopStep F) : Prop :=
  ∀ call ∈ w.running.calls, ∀ fd, call.fd? = some fd → a.meets call →
    w.running.descriptors fd = w.polled fd

/-- A step of `run` itself, with nothing done in between. -/
def LoopStep.ofBatch : LoopStep F → Bool
  | .drained | .call _ => true
  | _ => false

/-- The step that makes a call, with an answer that the kernel can give at any time. -/
def Call.made : Call → LoopStep F
  | .drainTasks => .drained
  | .closeConnection fd => .call (.close fd)
  | .handleRead fd => .call (.handleRead fd .again 0)
  | .handleWrite fd => .call (.handleWrite fd .again)

/-- If the rest of the batch is handled with nothing in between, every call hits its own. -/
def BatchWatch.RestHitsOwn (w : BatchWatch F) : Prop :=
  ∀ acts : List (LoopStep F), (∀ a ∈ acts, a.ofBatch = true) →
    Always BatchWatch.step BatchWatch.HitsOwn w acts

section Finds

open EventLoopThread

variable {s s' : EventLoopThread F} {op : Op F} {call : Call} {fd : Fd}

/-- A call that finds nobody does nothing. -/
theorem exec_of_not_finds (hmakes : call.makes op = true) (h : ¬ s.finds call) :
    s.exec op = (s, []) := by
  cases call with
  | drainTasks => cases op <;> cases hmakes
  | closeConnection fd =>
      cases op with
      | close fd' =>
          obtain rfl : fd = fd' := by simpa [Call.makes] using hmakes
          simp only [finds, not_or, not_not] at h
          obtain ⟨haccept, hconnection, hevents⟩ := h
          have hremoved : s.removeEpollEvents fd = s := by
            rw [removeEpollEvents_eq_put, ← hevents, put_self]
          simp [exec, doClose, closeConnection, hremoved, haccept, hconnection]
      | _ => cases hmakes
  | handleRead fd =>
      cases op with
      | handleRead fd' outcome consumed =>
          obtain rfl : fd = fd' := by simpa [Call.makes] using hmakes
          simp only [finds, not_or, not_not] at h
          obtain ⟨haccept, htimer, hconnection⟩ := h
          simp [exec, handleRead, haccept, htimer, hconnection]
      | _ => cases hmakes
  | handleWrite fd =>
      cases op with
      | handleWrite fd' outcome =>
          obtain rfl : fd = fd' := by simpa [Call.makes] using hmakes
          have hqueue : queueOf (s.connections fd) = [] := not_not.mp h
          cases hconn : s.connections fd with
          | none => simp [exec, handleWrite, hconn]
          | some conn =>
              rw [hconn] at hqueue
              have hiovs : conn.iovs = [] := by
                simp only [Connection.iovs, Connection.window]
                rw [show conn.writeQueue = [] from hqueue]
                rfl
              simp [exec, handleWrite, hconn, hiovs]
      | _ => cases hmakes

theorem finds_congr (h : s'.finds call) (hfd : call.fd? = some fd) (hsame : SameAt fd s s') :
    s.finds call := by
  obtain ⟨hconnections, haccept, htimer, hepoll⟩ := hsame
  cases call with
  | drainTasks => cases hfd
  | closeConnection | handleRead | handleWrite =>
      cases hfd
      simpa only [finds, hconnections, haccept, htimer, hepoll] using h

/-- A number that is not in use is found by no call. -/
theorem not_finds_unused (hfd : call.fd? = some fd) (h : OwnedAt s fd none) : ¬ s.finds call := by
  cases call with
  | drainTasks => exact id
  | closeConnection | handleRead | handleWrite =>
      cases hfd
      simp [finds, h.connection_none, h.acceptor_none, h.timer_none nofun, h.interest_none, queueOf]

/-- A call finds behind a step what it has found before, or what the step registers. -/
theorem finds_of_touches (htouches : Touches op s s') (hfd : call.fd? = some op.fd)
    (h : s'.finds call) : (LoopStep.task op).meets call ∨ s.finds call := by
  have haccept : s'.acceptSocketSet op.fd ≠ none → s.acceptSocketSet op.fd ≠ none := fun hne =>
    htouches.acceptor.elim (fun hsame => hsame ▸ hne) fun hnone => absurd hnone hne
  have htimer : s'.timerFds op.fd ≠ none → s.timerFds op.fd ≠ none := fun hne =>
    htouches.timer.elim (fun hsame => hsame ▸ hne) fun hnone => absurd hnone.1 hne
  have hconnection : s'.connections op.fd ≠ none →
      op.holds ≠ none ∨ s.connections op.fd ≠ none := by
    intro hne
    obtain ⟨conn', hconn'⟩ := Option.ne_none_iff_exists'.mp hne
    rcases (htouches.connection conn' hconn').socket with hholds | ⟨conn, hconn, -⟩
    · exact Or.inl (hholds ▸ Option.some_ne_none _)
    · exact Or.inr (hconn ▸ Option.some_ne_none _)
  cases call with
  | drainTasks => cases hfd
  | closeConnection fd =>
      cases hfd
      rcases h with h | h | h
      · exact Or.inr (Or.inl (haccept h))
      · exact (hconnection h).imp (fun hne => ⟨rfl, hne⟩) fun hne => Or.inr (Or.inl hne)
      · exact (htouches.interest h).imp (fun hne => ⟨rfl, hne⟩) fun hne => Or.inr (Or.inr hne)
  | handleRead fd =>
      cases hfd
      rcases h with h | h | h
      · exact Or.inr (Or.inl (haccept h))
      · exact Or.inr (Or.inr (Or.inl (htimer h)))
      · exact (hconnection h).imp (fun hne => ⟨rfl, hne⟩) fun hne => Or.inr (Or.inr hne)
  | handleWrite fd =>
      cases hfd
      have hqueue : queueOf (s'.connections op.fd) ≠ [] := h
      cases hconn' : s'.connections op.fd with
      | none => exact absurd (by rw [hconn']; rfl) hqueue
      | some conn' =>
          rw [hconn'] at hqueue
          exact ((htouches.connection conn' hconn').queue hqueue).imp (fun hne => ⟨rfl, hne⟩) id

/-- Disarming an entry does not take it away. -/
theorem finds_wait {events : List Event} (hfd : call.fd? = some fd)
    (h : ({ s with epoll := events.foldl Event.disarm s.epoll } : EventLoopThread F).finds call) :
    s.finds call := by
  cases call with
  | drainTasks => cases hfd
  | closeConnection fd' => simpa only [finds, ne_eq, foldl_disarm_eq_none] using h
  | handleRead | handleWrite => exact h

theorem finds_registerAccept {fd' : Fd} {socket : Socket} {callback : Option F}
    (hfd : call.fd? = some fd) (h : (s.doRegisterAccept fd' socket callback).finds call) :
    (LoopStep.registerAccept fd' socket callback).meets call ∨ s.finds call := by
  by_cases hne : fd = fd'
  · subst hne
    obtain ⟨ctx, events, heq, -⟩ := doRegisterAccept_eq s fd socket callback
    rw [heq] at h
    cases call with
    | drainTasks => cases hfd
    | closeConnection | handleRead =>
        cases hfd
        exact Or.inl rfl
    | handleWrite =>
        cases hfd
        exact Or.inr h
  · exact Or.inr (finds_congr h hfd (sameAt_doRegisterAccept hne socket callback))

theorem finds_timerAdded {timerfd : Fd} {via : Option Fd} {callback : Option F}
    (hunused : OwnedAt s timerfd none) (hfd : call.fd? = some fd)
    (h : (s.addTimer callback (.added timerfd)).finds call) :
    (fd = timerfd ∧ (LoopStep.addTimer via (.added timerfd) callback).meets call) ∨
      fd ≠ timerfd ∧ s.finds call := by
  by_cases hne : fd = timerfd
  · subst hne
    refine Or.inl ⟨rfl, ?_⟩
    cases call with
    | drainTasks => cases hfd
    | closeConnection | handleRead =>
        cases hfd
        exact rfl
    | handleWrite =>
        cases hfd
        rw [addTimer_added (hunused.timer_none nofun) hunused.interest_none] at h
        exact absurd (congrArg queueOf hunused.connection_none) h
  · exact Or.inr ⟨hne, finds_congr h hfd (sameAt_addTimer hunused hne callback)⟩

/-- A call of `run` registers nothing. -/
theorem not_meets_of_makes {call' : Call} (hmakes : call'.makes op = true) :
    ¬ (LoopStep.task op).meets call := by
  have hholds : op.holds = none := holds_of_makes hmakes
  have hsubmissions : op.submissions = [] := by
    cases op with
    | writeOnce | writeBatch => cases hholds
    | registerRead | registerHighLevel | registerLowLevel | registerClose | handleRead
    | handleWrite | close => rfl
  cases call with
  | drainTasks => exact id
  | closeConnection | handleRead => exact fun hmeets => hmeets.2 hholds
  | handleWrite => exact fun hmeets => hmeets.2 hsubmissions

theorem connection_of_holds (h : op.holds ≠ none) :
    (s.exec op).1.connections op.fd ≠ none := by
  cases op with
  | registerRead fd socket callback =>
      rw [exec_put_of_stores _ rfl, connections_put]
      show (stepConnection (s.connections fd) (.registerRead fd socket callback)).1 ≠ none
      cases s.connections fd <;> exact Option.some_ne_none _
  | writeOnce | writeBatch =>
      rw [exec_put_of_stores _ rfl, connections_put]
      exact Option.some_ne_none _
  | registerHighLevel | registerLowLevel | registerClose | handleRead | handleWrite | close =>
      exact absurd rfl h

theorem queue_of_submissions (h : op.submissions ≠ []) :
    op.holds ≠ none ∧ queueOf ((s.exec op).1.connections op.fd) ≠ [] := by
  have hstores : op.holds ≠ none ∧ op.stores = true := by
    cases op with
    | writeOnce | writeBatch => exact ⟨Option.some_ne_none _, rfl⟩
    | registerRead | registerHighLevel | registerLowLevel | registerClose | handleRead
    | handleWrite | close => exact absurd rfl h
  refine ⟨hstores.1, ?_⟩
  rw [exec_put_of_stores _ hstores.2, connections_put]
  have hmove : Move op.fd op.submissions (s.connections op.fd)
      (stepConnection (s.connections op.fd) op).1 (stepConnection (s.connections op.fd) op).2 := by
    refine stepConnection_move op fun conn n _ hop => ?_
    rw [hop] at hstores
    cases hstores.2
  cases hnew : stepConnection (s.connections op.fd) op with
  | mk new effects =>
      rw [hnew] at hmove
      cases hmove with
      | quiet hnone | sent _ hnone | ended hnone => exact absurd hnone h
      | queued hqueue =>
          show _ ≠ []
          simp only [queueOf, Option.elim_some, hqueue]
          simp [h]

end Finds

section Step

open RunningLoop

variable {r r' : RunningLoop F} {a : LoopStep F} {call : Call} {fd : Fd}

/-- What a call finds behind a step has kept its descriptor, and it was found before or is
registered by the step. -/
theorem finds_of_step (h : Owned r) (hstep : r.step a = some r') (hfd : call.fd? = some fd)
    (hfinds : r'.loop.finds call) :
    (a.meets call ∨ r.loop.finds call) ∧
      (r'.descriptors fd = r.descriptors fd ∨ r.descriptors fd = none ∧ a.meets call) := by
  have hunused : r'.descriptors fd ≠ none := fun hnone =>
    not_finds_unused hfd (hnone ▸ h.step hstep fd) hfinds
  have hperform : ∀ op : Op F, (r.loop.exec op).1.finds call →
      (LoopStep.task op).meets call ∨ r.loop.finds call := by
    intro op hfinds
    have htouches := EventLoopThread.exec_touches r.loop op
    by_cases hop : fd = op.fd
    · subst hop
      exact finds_of_touches htouches hfd hfinds
    · exact Or.inr (finds_congr hfinds hfd (htouches.others fd hop))
  have hkept : ∀ op : Op F, (r.perform op).descriptors fd ≠ none →
      (r.perform op).descriptors fd = r.descriptors fd := by
    intro op hne
    unfold perform at hne ⊢
    simp only at hne ⊢
    split at hne
    · exact absurd rfl hne
    · rename_i hnot
      rw [if_neg hnot]
  cases stepped_of_step hstep with
  | wait => exact ⟨Or.inr (finds_wait hfd hfinds), Or.inl rfl⟩
  | task hhead hcan => exact ⟨hperform _ hfinds, Or.inl (hkept _ hunused)⟩
  | registerAccept hhead hsocket => exact ⟨finds_registerAccept hfd hfinds, Or.inl rfl⟩
  | drained | timerFailed => exact ⟨Or.inr hfinds, Or.inl rfl⟩
  | call hcalls hmakes hpossible =>
      refine ⟨(hperform _ hfinds).imp (fun hmeets => ?_) id, Or.inl (hkept _ hunused)⟩
      exact (not_meets_of_makes hmakes hmeets).elim
  | timerRejected hnone =>
      have hsame := addTimer_rejected ((hnone ▸ h _ : OwnedAt r.loop _ none).timer_none nofun)
      exact ⟨Or.inr (hsame _ ▸ hfinds), Or.inl rfl⟩
  | timerAdded howner hnone =>
      rcases finds_timerAdded (hnone ▸ h _) hfd hfinds with ⟨rfl, hmeets⟩ | ⟨hne, hfound⟩
      · exact ⟨Or.inl hmeets, Or.inr ⟨hnone, hmeets⟩⟩
      · exact ⟨Or.inr hfound, Or.inl (Function.update_of_ne hne _ _)⟩
  | @openSocket fd' hnone =>
      refine ⟨Or.inr hfinds, Or.inl (Function.update_of_ne (fun heq => ?_) _ _)⟩
      subst heq
      exact not_finds_unused hfd (hnone ▸ h fd) hfinds
  | @release fd' hreleased =>
      have hne : fd ≠ fd' := by
        rintro rfl
        exact hunused (Function.update_self _ _ _)
      exact ⟨Or.inr (finds_congr hfinds hfd (EventLoopThread.sameAt_removeEpollEvents hne)),
        Or.inl (Function.update_of_ne hne _ _)⟩

/-- What a step registers is found by the call that is to come. -/
theorem finds_of_meets (h : Owned r) (hstep : r.step a = some r')
    (hfd : call.fd? = some fd) (hmeets : a.meets call) :
    r'.calls = r.calls ∧ r'.loop.finds call ∧ (r'.descriptors fd = r.descriptors fd ∨
      ∃ owner, r'.descriptors fd = some (.timer r.timers owner)) := by
  have htask : ∀ op : Op F, op.holds ≠ none → r.canRun op = true →
      (r.perform op).descriptors op.fd = r.descriptors op.fd := by
    intro op hholds hcan
    obtain ⟨socket, hsocket⟩ := Option.ne_none_iff_exists'.mp hholds
    have hdescriptor := canRun_holds hcan socket hsocket
    have hnone : r.loop.timerFds op.fd = none := by
      apply (h op.fd).timer_none
      intro timer owner htimer
      cases hdescriptor.symm.trans htimer
    apply perform_descriptors_of_timer
    rcases (EventLoopThread.exec_touches r.loop op).timer with hsame | ⟨hgone, -⟩
    · exact hsame
    · rw [hgone, hnone]
  cases stepped_of_step hstep with
  | wait | drained | call | timerFailed | timerRejected | openSocket | release =>
      cases call <;> exact hmeets.elim
  | @task op hhead hcan =>
      cases call with
      | drainTasks => exact hmeets.elim
      | closeConnection fd' =>
          cases hfd
          obtain ⟨rfl, hholds⟩ := hmeets
          exact ⟨rfl, Or.inr (Or.inl (connection_of_holds hholds)), Or.inl (htask op hholds hcan)⟩
      | handleRead fd' =>
          cases hfd
          obtain ⟨rfl, hholds⟩ := hmeets
          exact ⟨rfl, Or.inr (Or.inr (connection_of_holds hholds)), Or.inl (htask op hholds hcan)⟩
      | handleWrite fd' =>
          cases hfd
          obtain ⟨rfl, hsubmissions⟩ := hmeets
          obtain ⟨hholds, hqueue⟩ := queue_of_submissions hsubmissions
          exact ⟨rfl, hqueue, Or.inl (htask op hholds hcan)⟩
  | @registerAccept fd' socket callback hhead hsocket =>
      obtain ⟨ctx, events, heq, -⟩ := doRegisterAccept_eq r.loop fd' socket callback
      have hacceptor :
          (r.loop.doRegisterAccept fd' socket callback).acceptSocketSet fd' ≠ none := by
        rw [heq]
        simp
      cases call with
      | drainTasks | handleWrite => exact hmeets.elim
      | closeConnection | handleRead =>
          cases hfd
          cases hmeets
          exact ⟨rfl, Or.inl hacceptor, Or.inl rfl⟩
  | @timerAdded via callback timerfd owner howner hunused =>
      have hnone : OwnedAt r.loop timerfd none := hunused ▸ h timerfd
      have hadded := addTimer_added (hnone.timer_none nofun) hnone.interest_none callback
      have hevents : (r.loop.addTimer callback (.added timerfd)).epoll timerfd ≠ none := by
        rw [hadded]
        simp
      have htimer : (r.loop.addTimer callback (.added timerfd)).timerFds timerfd ≠ none := by
        rw [hadded]
        simp
      cases call with
      | drainTasks | handleWrite => exact hmeets.elim
      | closeConnection =>
          cases hfd
          cases hmeets
          exact ⟨rfl, Or.inr (Or.inr hevents), Or.inr ⟨owner, Function.update_self _ _ _⟩⟩
      | handleRead =>
          cases hfd
          cases hmeets
          exact ⟨rfl, Or.inr (Or.inl htimer), Or.inr ⟨owner, Function.update_self _ _ _⟩⟩

end Step

section Watch

open BatchWatch RunningLoop

variable {w w' : BatchWatch F} {a : LoopStep F} {call : Call} {calls : List Call} {fd : Fd}

theorem BatchWatch.step_eq_some (h : w.step a = some w') :
    w.running.step a = some w'.running ∧ w'.polled = w.polledAfter w'.running a := by
  obtain ⟨r, hr, rfl⟩ := Option.map_eq_some_iff.mp h
  exact ⟨hr, rfl⟩

/-- A step that registers nothing is timely. -/
theorem timely_of_not_meets (h : ∀ call, ¬ a.meets call) : w.Timely a :=
  fun call _ _ _ hmeets => absurd hmeets (h call)

/-- No call is to come behind the tasks. -/
theorem timely_of_wakeup (h : w.running.calls = [.drainTasks]) : w.Timely a := by
  intro call hcall fd hfd
  rw [h, List.mem_singleton] at hcall
  rw [hcall] at hfd
  cases hfd

/-- The invariant: the calls to come are for descriptors that were open when the batch was
returned, and what they find has them still. -/
structure Steady (w : BatchWatch F) : Prop where
  owned : Owned w.running
  numbered : Numbered w.running
  timers : ∀ fd timer owner, w.polled fd = some (.timer timer owner) → timer < w.running.timers
  polled : ∀ call ∈ w.running.calls, ∀ fd, call.fd? = some fd → w.polled fd ≠ none
  found : ∀ call ∈ w.running.calls, ∀ fd, call.fd? = some fd → w.running.loop.finds call →
    w.running.descriptors fd = w.polled fd

theorem steady_fresh : Steady (fresh : BatchWatch F) := by
  constructor
  · exact owned_fresh
  · exact numbered_fresh
  · exact nofun
  · exact List.forall_mem_nil _
  · exact List.forall_mem_nil _

theorem Steady.step (h : Steady w) (htimely : w.Timely a) (hstep : w.step a = some w') :
    Steady w' := by
  obtain ⟨hr, hpolled⟩ := BatchWatch.step_eq_some hstep
  by_cases hwait : ∃ events, a = .wait events
  · obtain ⟨events, rfl⟩ := hwait
    constructor
    · exact h.owned.step hr
    · exact h.numbered.step hr
    · rw [hpolled]
      exact h.numbered.step hr
    · intro call hcall fd hfd
      obtain ⟨hsame, hinterest⟩ := interest_of_wait hr hcall hfd
      rw [hpolled, BatchWatch.polledAfter, hsame]
      exact (h.owned fd).interest hinterest
    · rw [hpolled]
      exact fun _ _ _ _ _ => rfl
  · have hkept : ∀ call ∈ w'.running.calls, call ∈ w.running.calls :=
      fun call hcall => (calls_sublist hr fun events ha => hwait ⟨events, ha⟩).subset hcall
    have hsame : w'.polled = w.polled := by
      rw [hpolled]
      cases a with
      | wait events => exact absurd ⟨events, rfl⟩ hwait
      | _ => rfl
    constructor
    · exact h.owned.step hr
    · exact h.numbered.step hr
    · rw [hsame]
      exact fun fd timer owner hfd => (h.timers fd timer owner hfd).trans_le (timers_mono hr)
    · rw [hsame]
      exact fun call hcall => h.polled call (hkept call hcall)
    · rw [hsame]
      intro call hcall fd hfd hfinds
      obtain ⟨hfound, hdescriptor⟩ := finds_of_step h.owned hr hfd hfinds
      have hbefore : w.running.descriptors fd = w.polled fd :=
        hfound.elim (htimely call (hkept call hcall) fd hfd)
          (h.found call (hkept call hcall) fd hfd)
      rcases hdescriptor with heq | ⟨hnone, -⟩
      · rw [heq]
        exact hbefore
      · -- a number that has just been given out had no call to come
        exact absurd (hbefore.symm.trans hnone) (h.polled call (hkept call hcall) fd hfd)

theorem Steady.hitsOwn (h : Steady w) : w.HitsOwn := by
  intro call calls op hcalls hmakes
  by_cases hfinds : w.running.loop.finds call
  · left
    apply h.found call _ op.fd (fd_of_makes hmakes) hfinds
    rw [hcalls]
    exact List.mem_cons_self
  · right
    exact ⟨hfinds, exec_of_not_finds hmakes hfinds⟩

/-- If nothing new is registered under a number that has a call to come, every call of every
batch hits who its event was reported for, or nobody. -/
theorem hitsOwn_of_timely (acts : List (LoopStep F))
    (h : EachStep BatchWatch.step Timely (fresh : BatchWatch F) acts) :
    Always BatchWatch.step HitsOwn fresh acts :=
  always_of_eachStep (I := Steady) (fun _ _ _ hw hC hstep => hw.step hC hstep)
    (fun _ => Steady.hitsOwn) steady_fresh h

/-- The next call of a batch can be made. -/
theorem exists_step_of_calls (hcalls : w.running.calls = call :: calls) :
    ∃ w' : BatchWatch F, w.step call.made = some w' ∧ w'.running.calls = calls ∧
      w'.polled = w.polled ∧
        (call.fd? = none ∧ w'.running.loop = w.running.loop ∧
            w'.running.descriptors = w.running.descriptors ∨
          ∃ op, call.makes op = true ∧ w'.running.loop = (w.running.loop.exec op).1 ∧
            w'.running.descriptors = (w.running.perform op).descriptors) := by
  have hstep : ∀ op : Op F, call.makes op = true → w.running.loop.possible op = true →
      w.step (.call op) =
        some { w with running := { w.running.perform op with calls := calls } } := by
    intro op hmakes hpossible
    simp [BatchWatch.step, RunningLoop.step, hcalls, hmakes, hpossible, polledAfter]
  cases call with
  | drainTasks =>
      refine ⟨{ w with running := { w.running with calls := calls } }, ?_, rfl, rfl,
        Or.inl ⟨rfl, rfl, rfl⟩⟩
      simp [Call.made, BatchWatch.step, RunningLoop.step, hcalls, polledAfter]
  | closeConnection fd =>
      exact ⟨_, hstep (.close fd) (by simp [Call.makes]) rfl, rfl, rfl,
        Or.inr ⟨.close fd, by simp [Call.makes], rfl, rfl⟩⟩
  | handleRead fd =>
      exact ⟨_, hstep (.handleRead fd .again 0) (by simp [Call.makes]) rfl, rfl, rfl,
        Or.inr ⟨.handleRead fd .again 0, by simp [Call.makes], rfl, rfl⟩⟩
  | handleWrite fd =>
      exact ⟨_, hstep (.handleWrite fd .again) (by simp [Call.makes]) rfl, rfl, rfl,
        Or.inr ⟨.handleWrite fd .again, by simp [Call.makes], rfl, rfl⟩⟩

/-- A call that is aimed at what is another's comes to be made, if nothing else happens. -/
theorem exists_hit {before after : List Call} (hcalls : w.running.calls = before ++ call :: after)
    (hfd : call.fd? = some fd) (hfinds : w.running.loop.finds call)
    (hother : w.running.descriptors fd ≠ w.polled fd) :
    ∃ acts w', (∀ a ∈ acts, a.ofBatch = true) ∧ run BatchWatch.step w acts = some w' ∧
      ¬ w'.HitsOwn := by
  induction before generalizing w with
  | nil =>
      refine ⟨[], w, List.forall_mem_nil _, rfl, fun hhits => ?_⟩
      obtain ⟨-, -, -, -, ⟨hnone, -⟩ | ⟨op, hmakes, -⟩⟩ := exists_step_of_calls hcalls
      · cases hnone.symm.trans hfd
      · obtain rfl : op.fd = fd := Option.some.inj ((fd_of_makes hmakes).symm.trans hfd)
        rcases hhits call after op hcalls hmakes with hsame | ⟨hnot, -⟩
        · exact hother hsame
        · exact hnot hfinds
  | cons first before ih =>
      by_cases hhits : w.HitsOwn
      · obtain ⟨w', hstep, hcalls', hpolled, hview⟩ := exists_step_of_calls hcalls
        have hkept : w'.running.loop.finds call ∧
            w'.running.descriptors fd = w.running.descriptors fd := by
          rcases hview with ⟨-, hloop, hdescriptors⟩ | ⟨op, hmakes, hloop, hdescriptors⟩
          · exact ⟨hloop ▸ hfinds, by rw [hdescriptors]⟩
          · have htouches := EventLoopThread.exec_touches w.running.loop op
            rw [hloop, hdescriptors]
            by_cases hop : fd = op.fd
            · subst hop
              -- the calls before it for its descriptor do nothing
              rcases hhits first _ op hcalls hmakes with hsame | ⟨-, hnothing⟩
              · exact absurd hsame hother
              · rw [perform_descriptors_of_timer (by rw [hnothing]), hnothing]
                exact ⟨hfinds, rfl⟩
            · exact ⟨finds_congr hfinds hfd (htouches.others fd hop).symm,
                perform_descriptors_of_ne hop⟩
        rw [← hpolled, ← hkept.2] at hother
        obtain ⟨acts, w'', hacts, hrun, hmiss⟩ := ih hcalls' hkept.1 hother
        refine ⟨first.made :: acts, w'', List.forall_mem_cons.mpr ⟨?_, hacts⟩,
          (run_cons hstep).trans hrun, hmiss⟩
        cases first <;> rfl
      · exact ⟨[], w, List.forall_mem_nil _, rfl, hhits⟩

/-- A step that is not timely aims a call at what is another's. -/
theorem exists_hit_of_untimely (h : Steady w) (hstep : w.step a = some w') (hnot : ¬ w.Timely a) :
    ∃ acts w'', (∀ a ∈ acts, a.ofBatch = true) ∧ run BatchWatch.step w' acts = some w'' ∧
      ¬ w''.HitsOwn := by
  obtain ⟨hr, hpolled⟩ := BatchWatch.step_eq_some hstep
  simp only [BatchWatch.Timely, not_forall] at hnot
  obtain ⟨call, hcall, fd, hfd, hmeets, hother⟩ := hnot
  obtain ⟨hcalls, hfinds, hdescriptor⟩ := finds_of_meets h.owned hr hfd hmeets
  have hsame : w'.polled = w.polled := by
    rw [hpolled]
    cases a with
    | wait => cases call <;> exact hmeets.elim
    | _ => rfl
  rw [← hcalls] at hcall
  obtain ⟨before, after, hsplit⟩ := List.append_of_mem hcall
  apply exists_hit hsplit hfd hfinds
  rw [hsame]
  rcases hdescriptor with heq | ⟨owner, hnew⟩
  · rw [heq]
    exact hother
  · -- a new timer has a number that the batch does not know
    rw [hnew]
    intro heq
    exact absurd (h.timers fd _ owner heq.symm) (Nat.lt_irrefl _)

theorem Steady.restHitsOwn (h : Steady w) : w.RestHitsOwn := by
  intro acts hacts
  have hC : EachStep BatchWatch.step (fun _ a => a.ofBatch = true) w acts :=
    eachStep_of_forall hacts
  refine always_of_eachStep (I := Steady) (fun w a w' hw hbatch hstep => hw.step ?_ hstep)
    (fun _ => Steady.hitsOwn) h hC
  apply timely_of_not_meets
  cases a with
  | drained | call => exact fun call => by cases call <;> exact id
  | _ => cases hbatch

/-- The condition is exact: the rest of the batch hits its own from every state of a run if and
only if every step of the run is timely. -/
theorem restHitsOwn_iff_timely (acts : List (LoopStep F)) :
    Always BatchWatch.step RestHitsOwn (fresh : BatchWatch F) acts ↔
      EachStep BatchWatch.step Timely (fresh : BatchWatch F) acts := by
  refine always_iff_eachStep (I := Steady) (fun _ _ _ hw hC hstep => hw.step hC hstep)
    (fun _ => Steady.restHitsOwn) (fun w a w' hw hstep hrest => ?_) steady_fresh acts
  by_contra hnot
  obtain ⟨later, w'', hbatch, hrun, hmiss⟩ := exists_hit_of_untimely hw hstep hnot
  exact hmiss ((hrest later hbatch).last hrun)

end Watch

/-- A connection of the socket 0 on the number 7. The next batch has the wakeup before its
input, and among the tasks is its close; the number is opened again. -/
def reopened : List (LoopStep Unit) :=
  [.openSocket 7, .wait [.wakeup], .task (.registerRead 7 0 (some ())), .drained,
    .wait [.wakeup, .ready 7 false true false], .task (.close 7), .release 7, .openSocket 7]

/-- The task that registers the new socket runs before the call for the old one is made. -/
def reusedRun : List (LoopStep Unit) :=
  reopened ++ [.task (.registerRead 7 1 (some ())), .drained]

/-- The registration comes with the next wakeup. -/
def laterRun : List (LoopStep Unit) :=
  reopened ++ [.drained, .call (.handleRead 7 .again 0), .wait [.wakeup],
    .task (.registerRead 7 1 (some ())), .drained]

/-- The call for the old socket reads the new one. -/
theorem not_eventsHitOwn : ¬ EventsHitOwn Unit := by
  intro h
  obtain ⟨w, hrun, hcalls, hfinds, hother⟩ :
      ∃ w, run BatchWatch.step .fresh reusedRun = some w ∧
        w.running.calls = [.handleRead 7] ∧ w.running.loop.finds (.handleRead 7) ∧
          w.running.descriptors 7 ≠ w.polled 7 :=
    ⟨_, rfl, rfl, Or.inr (Or.inr nofun), by decide⟩
  have hhits : w.HitsOwn := (h reusedRun).last hrun
  rcases hhits _ _ (.handleRead 7 .again 0) hcalls rfl with hsame | ⟨hnone, -⟩
  · exact hother hsame
  · exact hnone hfinds

theorem hitsOwn_laterRun : Always BatchWatch.step BatchWatch.HitsOwn .fresh laterRun := by
  apply hitsOwn_of_timely
  iterate 2
    refine eachStep_cons rfl (timely_of_not_meets fun call => by cases call <;> exact id) ?_
  refine eachStep_cons rfl (timely_of_wakeup rfl) ?_
  iterate 8
    refine eachStep_cons rfl (timely_of_not_meets fun call => ?_) ?_
    · cases call <;> simp [LoopStep.meets, Op.holds, Op.submissions]
  refine eachStep_cons rfl (timely_of_wakeup rfl) ?_
  refine eachStep_cons rfl (timely_of_not_meets fun call => by cases call <;> exact id) trivial

end SimpleRedis.Net
