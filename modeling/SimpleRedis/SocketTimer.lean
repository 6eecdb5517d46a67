import SimpleRedis.DescriptorOwner

/-!
# Timers and the sockets they are added through

The README promises that a timer bound to a socket goes with it. A loop keeps its timers in a
table of their own, by timer descriptor, and `closeConnection` does not look there. A log of the
callbacks and the closes goes beside a running loop: no timer is called back twice, and the
timers of a socket are gone with it if and only if there are none when it is closed.
-/
namespace SimpleRedis.Net

open TransitionRun

variable {F : Type*}

/-- A timer is called back, with the socket it was added through, or `closeConnection` is
executed for a socket. -/
inductive TimerEvent where
  | fired (timer : ℕ) (owner : Option Socket)
  | closed (socket : Socket)
  deriving DecidableEq, Repr

namespace TimerEvent

def timer? : TimerEvent → Option ℕ
  | .fired timer _ => some timer
  | .closed _ => none

/-- The second event is not the callback of a timer whose socket the first one closes. -/
def Silences : TimerEvent → TimerEvent → Prop
  | .closed socket, .fired _ owner => owner ≠ some socket
  | _, _ => True

end TimerEvent

/-- The step executes `closeConnection` for its number. -/
def EventLoopThread.runsClose (s : EventLoopThread F) : Op F → Bool
  | .close _ => true
  | .handleRead fd .error _ =>
      (s.acceptSocketSet fd).isNone && (s.timerFds fd).isNone && (s.connections fd).isSome
  | .handleWrite fd .error => (s.connections fd).any fun conn => conn.iovs ≠ []
  | _ => false

namespace RunningLoop

/-- The callbacks of timers among the effects of a step. -/
def firings (r : RunningLoop F) (effects : List (Effect F)) : List TimerEvent :=
  effects.filterMap fun effect =>
    match effect with
    | .timer fd _ =>
        match r.descriptors fd with
        | some (.timer timer owner) => some (.fired timer owner)
        | _ => none
    | _ => none

/-- The socket that a step closes, if its number is a socket's. -/
def closing (r : RunningLoop F) (op : Op F) : List TimerEvent :=
  if r.loop.runsClose op then
    match r.descriptors op.fd with
    | some (.socket socket) => [.closed socket]
    | _ => []
  else []

def timerEvents (r : RunningLoop F) : LoopStep F → List TimerEvent
  | .task op | .call op => r.firings (r.loop.exec op).2 ++ r.closing op
  | _ => []

end RunningLoop

/-- A running loop with its log. -/
structure TimerWatch (F : Type*) where
  running : RunningLoop F
  log : List TimerEvent

namespace TimerWatch

def fresh : TimerWatch F := { running := .fresh, log := [] }

def step (w : TimerWatch F) (a : LoopStep F) : Option (TimerWatch F) :=
  (w.running.step a).map fun r => { running := r, log := w.log ++ w.running.timerEvents a }

/-- Timers die with their socket: no timer is called back twice, none behind the close of its
socket, and nothing is left of the timers of a closed socket. -/
structure DieWithSocket (w : TimerWatch F) : Prop where
  once : (w.log.filterMap TimerEvent.timer?).Nodup
  silent : w.log.Pairwise TimerEvent.Silences
  gone : ∀ socket, .closed socket ∈ w.log → ∀ fd timer,
    w.running.descriptors fd = some (.timer timer (some socket)) →
      w.running.loop.timerFds fd = none ∧ w.running.loop.epoll fd = none

/-- `closeConnection` is executed for a socket only when none of its timers is left, and no
timer is added through a socket that is closed. -/
def Unarmed (w : TimerWatch F) : LoopStep F → Prop
  | .task op | .call op =>
      w.running.loop.runsClose op = true → ∀ socket,
        w.running.descriptors op.fd = some (.socket socket) → ∀ fd timer,
          w.running.descriptors fd ≠ some (.timer timer (some socket))
  | .addTimer via (.added _) _ => ∀ socket, w.running.owner? via = some (some socket) →
      TimerEvent.closed socket ∉ w.log
  | _ => True

end TimerWatch

/-- The promise of the README: so it is in every state of every run. -/
def TimersDie (F : Type*) : Prop :=
  ∀ acts : List (LoopStep F), Always TimerWatch.step TimerWatch.DieWithSocket .fresh acts

section Events

open EventLoopThread RunningLoop

variable {r r' : RunningLoop F} {op : Op F} {a : LoopStep F} {fd : Fd} {timer : ℕ}
  {owner : Option Socket}

/-- Only the call for a timer that is due calls it back, and the timer is gone then. -/
theorem firings_cases (h : Owned r) :
    r.firings (r.loop.exec op).2 = [] ∨
      ∃ timer owner, r.firings (r.loop.exec op).2 = [.fired timer owner] ∧
        r.descriptors op.fd = some (.timer timer owner) ∧
        (r.perform op).descriptors op.fd = none := by
  by_cases hany : ∃ f, Effect.timer op.fd f ∈ (r.loop.exec op).2
  · obtain ⟨f, hmem⟩ := hany
    have hby := by_exec r.loop op _ hmem
    rcases hby with hby | ⟨hread, ⟨f', heq⟩ | ⟨f', heq, htimer⟩⟩
    · exact hby.2.elim
    · cases heq
    · obtain ⟨timer, owner, hdescriptor⟩ := (h op.fd).timer.mp (htimer ▸ rfl)
      have haccept := (h op.fd).acceptor_of_timer htimer
      right
      refine ⟨timer, owner, ?_, hdescriptor, ?_⟩
      · cases op with
        | handleRead fd outcome consumed =>
            simp only [Op.fd] at htimer haccept hdescriptor
            simp [exec, handleRead, handleTimer, haccept, htimer, firings, hdescriptor]
        | _ => cases hread
      · cases op with
        | handleRead fd outcome consumed =>
            simp only [Op.fd] at htimer haccept hdescriptor ⊢
            simp [perform, exec, handleRead, handleTimer, haccept, htimer]
        | _ => cases hread
  · left
    apply List.filterMap_eq_nil_iff.mpr
    intro effect heffect
    have hby := by_exec r.loop op _ heffect
    cases effect with
    | timer fd f =>
        obtain rfl : fd = op.fd := hby.fd_eq
        exact absurd ⟨f, heffect⟩ hany
    | _ => rfl

/-- What a step adds to the log: nothing, the callback of a timer whose descriptor it closes, or
the close of a socket. -/
theorem timerEvents_cases (h : Owned r) (hstep : r.step a = some r') :
    r.timerEvents a = [] ∨
      (∃ fd timer owner, r.timerEvents a = [.fired timer owner] ∧
        r.descriptors fd = some (.timer timer owner) ∧ r'.descriptors fd = none) ∨
      ∃ op socket, (a = .task op ∨ a = .call op) ∧ r.timerEvents a = [.closed socket] ∧
        r.loop.runsClose op = true ∧ r.descriptors op.fd = some (.socket socket) := by
  have hperform : ∀ op, (a = .task op ∨ a = .call op) →
      r'.descriptors = (r.perform op).descriptors →
      r.timerEvents a = r.firings (r.loop.exec op).2 ++ r.closing op →
      r.timerEvents a = [] ∨
        (∃ fd timer owner, r.timerEvents a = [.fired timer owner] ∧
          r.descriptors fd = some (.timer timer owner) ∧ r'.descriptors fd = none) ∨
        ∃ op socket, (a = .task op ∨ a = .call op) ∧ r.timerEvents a = [.closed socket] ∧
          r.loop.runsClose op = true ∧ r.descriptors op.fd = some (.socket socket) := by
    intro op ha hdescriptors hevents
    rw [hevents]
    rcases firings_cases h with hnone | ⟨timer, owner, hfired, hdescriptor, hgone⟩
    · rw [hnone, List.nil_append]
      by_cases hruns : r.loop.runsClose op = true
      · cases hown : r.descriptors op.fd with
        | none => exact Or.inl (by simp [closing, hown])
        | some descriptor =>
            cases descriptor with
            | timer timer owner => exact Or.inl (by simp [closing, hown])
            | socket socket =>
                exact Or.inr (Or.inr ⟨op, socket, ha, by simp [closing, hruns, hown], hruns, hown⟩)
      · exact Or.inl (if_neg hruns)
    · have hclosing : r.closing op = [] := by simp [closing, hdescriptor]
      rw [hfired, hclosing, List.append_nil]
      exact Or.inr (Or.inl ⟨op.fd, timer, owner, rfl, hdescriptor, hdescriptors ▸ hgone⟩)
  cases stepped_of_step hstep with
  | task => exact hperform _ (Or.inl rfl) rfl rfl
  | call => exact hperform _ (Or.inr rfl) rfl rfl
  | wait | registerAccept | drained | timerFailed | timerRejected | timerAdded | openSocket
  | release => exact Or.inl rfl

theorem descriptors_of_task (h : r.step (.task op) = some r') :
    r'.descriptors = (r.perform op).descriptors := by
  cases stepped_of_step h
  rfl

theorem descriptors_of_call (h : r.step (.call op) = some r') :
    r'.descriptors = (r.perform op).descriptors := by
  cases stepped_of_step h
  rfl

theorem descriptors_of_added {via : Option Fd} {callback : Option F}
    (h : r.step (.addTimer via (.added fd) callback) = some r')
    (howner : r.owner? via = some owner) :
    r'.descriptors fd = some (.timer r.timers owner) := by
  cases stepped_of_step h with
  | timerAdded howner' hunused =>
      cases howner.symm.trans howner'
      exact Function.update_self _ _ _

end Events

section Watch

open TimerWatch

variable {w w' : TimerWatch F} {a : LoopStep F}

theorem TimerWatch.step_eq_some (h : w.step a = some w') :
    w.running.step a = some w'.running ∧ w'.log = w.log ++ w.running.timerEvents a := by
  obtain ⟨r, hr, rfl⟩ := Option.map_eq_some_iff.mp h
  exact ⟨hr, rfl⟩

/-- The numbers of timers: two descriptors have different ones, and a timer that was called back
has no descriptor. -/
structure Issued (w : TimerWatch F) : Prop where
  owned : Owned w.running
  issued : Numbered w.running
  distinct : ∀ fd fd' timer owner owner', w.running.descriptors fd = some (.timer timer owner) →
    w.running.descriptors fd' = some (.timer timer owner') → fd = fd'
  spent : ∀ timer owner, .fired timer owner ∈ w.log → timer < w.running.timers ∧
    ∀ fd owner', w.running.descriptors fd ≠ some (.timer timer owner')
  once : (w.log.filterMap TimerEvent.timer?).Nodup

theorem issued_fresh : Issued (fresh : TimerWatch F) := by
  constructor
  · exact owned_fresh
  · exact numbered_fresh
  · exact nofun
  · exact nofun
  · exact List.nodup_nil

theorem Issued.distinct_step (h : Issued w) (hstep : w.running.step a = some w'.running)
    {fd fd' : Fd} {timer : ℕ} {owner owner' : Option Socket}
    (hfd : w'.running.descriptors fd = some (.timer timer owner))
    (hfd' : w'.running.descriptors fd' = some (.timer timer owner')) : fd = fd' := by
  rcases timer_of_step hstep hfd with hold | ⟨hnew, -, via, callback, ha, -⟩
  · rcases timer_of_step hstep hfd' with hold' | ⟨hnew, -⟩
    · exact h.distinct fd fd' timer owner owner' hold hold'
    · exact absurd hnew (h.issued fd timer owner hold).ne
  · rcases timer_of_step hstep hfd' with hold' | ⟨-, -, via', callback', ha', -⟩
    · exact absurd hnew (h.issued fd' timer owner' hold').ne
    · cases ha.symm.trans ha'
      rfl

/-- A timer without a descriptor does not come back. -/
theorem spent_step (hstep : w.running.step a = some w'.running)
    {timer : ℕ} (hissued : timer < w.running.timers)
    (hnone : ∀ fd owner, w.running.descriptors fd = some (.timer timer owner) →
      w'.running.descriptors fd = none) (fd : Fd) (owner : Option Socket) :
    w'.running.descriptors fd ≠ some (.timer timer owner) := by
  intro hfd
  rcases timer_of_step hstep hfd with hold | ⟨hnew, -⟩
  · cases (hnone fd owner hold).symm.trans hfd
  · exact absurd hnew hissued.ne

theorem Issued.step (h : Issued w) (hstep : w.step a = some w') : Issued w' := by
  obtain ⟨hr, hlog⟩ := TimerWatch.step_eq_some hstep
  have hmono := timers_mono hr
  have hspent : ∀ timer owner, .fired timer owner ∈ w.log → timer < w'.running.timers ∧
      ∀ fd owner', w'.running.descriptors fd ≠ some (.timer timer owner') := by
    intro timer owner hmem
    obtain ⟨hissued, hnone⟩ := h.spent timer owner hmem
    exact ⟨hissued.trans_le hmono, spent_step hr hissued fun fd owner' hfd =>
      absurd hfd (hnone fd owner')⟩
  constructor
  · exact h.owned.step hr
  · exact h.issued.step hr
  · exact fun fd fd' timer owner owner' => h.distinct_step hr
  · intro timer owner hmem
    rw [hlog] at hmem
    rcases List.mem_append.mp hmem with hmem | hmem
    · exact hspent timer owner hmem
    · rcases timerEvents_cases h.owned hr with hnil | ⟨fd, t, o, hfired, hfd, hgone⟩ |
        ⟨op, socket, -, hclosed, -⟩
      · rw [hnil] at hmem
        cases hmem
      · rw [hfired] at hmem
        cases List.mem_singleton.mp hmem
        have hissued := h.issued fd timer owner hfd
        refine ⟨hissued.trans_le hmono, spent_step hr hissued fun fd' owner' hfd' => ?_⟩
        rw [h.distinct fd' fd timer owner' owner hfd' hfd]
        exact hgone
      · rw [hclosed] at hmem
        cases List.mem_singleton.mp hmem
  · rw [hlog, List.filterMap_append]
    rcases timerEvents_cases h.owned hr with hnil | ⟨fd, timer, owner, hfired, hfd, -⟩ |
      ⟨op, socket, -, hclosed, -⟩
    · rw [hnil, List.filterMap_nil, List.append_nil]
      exact h.once
    · rw [hfired]
      refine List.nodup_append.mpr ⟨h.once, List.pairwise_singleton _ _, ?_⟩
      intro old hold new hnew heq
      obtain ⟨event, hevent, htimer⟩ := List.mem_filterMap.mp hold
      cases List.mem_singleton.mp hnew
      subst heq
      cases event with
      | closed socket => cases htimer
      | fired timer' owner' =>
          cases htimer
          exact (h.spent _ owner' hevent).2 fd owner hfd
    · rw [hclosed]
      exact (List.append_nil _).symm ▸ h.once

/-- The callback of a timer runs at most once, whatever becomes of its socket. -/
theorem fired_once (h : Reachable TimerWatch.step fresh w) :
    (w.log.filterMap TimerEvent.timer?).Nodup :=
  (h.invariant (I := Issued) (fun _ _ _ hw hstep => hw.step hstep) issued_fresh).once

/-- The invariant of the runs that meet the condition: no timer is left of a closed socket. -/
structure Watched (w : TimerWatch F) : Prop extends Issued w where
  silent : w.log.Pairwise TimerEvent.Silences
  gone : ∀ socket, .closed socket ∈ w.log → ∀ fd timer,
    w.running.descriptors fd ≠ some (.timer timer (some socket))

theorem watched_fresh : Watched (fresh : TimerWatch F) := by
  constructor
  · exact issued_fresh
  · exact List.Pairwise.nil
  · exact nofun

/-- The socket of a timer that is called back is open. -/
theorem Watched.silent_fired (h : Watched w) {fd : Fd} {timer : ℕ} {owner : Option Socket}
    (hfd : w.running.descriptors fd = some (.timer timer owner)) :
    ∀ event ∈ w.log, event.Silences (.fired timer owner) := by
  intro event hevent
  cases event with
  | fired => exact trivial
  | closed socket =>
      rintro rfl
      exact h.gone socket hevent fd timer hfd

theorem Watched.gone_step (h : Watched w) (hunarmed : w.Unarmed a)
    (hr : w.running.step a = some w'.running) {socket : Socket}
    (hclosed : .closed socket ∈ w.log ++ w.running.timerEvents a) (fd : Fd) (timer : ℕ) :
    w'.running.descriptors fd ≠ some (.timer timer (some socket)) := by
  intro hfd
  rcases List.mem_append.mp hclosed with hbefore | hclosed
  · rcases timer_of_step hr hfd with hold | ⟨-, -, via, callback, rfl, howner⟩
    · exact h.gone socket hbefore fd timer hold
    · exact hunarmed socket howner hbefore
  · rcases timerEvents_cases h.owned hr with hnil | ⟨fd', t, o, hfired, -⟩ |
      ⟨op, socket', ha, heq, hruns, hop⟩
    · rw [hnil] at hclosed
      cases hclosed
    · rw [hfired] at hclosed
      cases List.mem_singleton.mp hclosed
    · rw [heq] at hclosed
      cases List.mem_singleton.mp hclosed
      rcases timer_of_step hr hfd with hold | ⟨-, -, via, callback, hadd, -⟩
      · rcases ha with rfl | rfl <;> exact hunarmed hruns socket hop fd timer hold
      · rcases ha with rfl | rfl <;> cases hadd

theorem Watched.step (h : Watched w) (hunarmed : w.Unarmed a) (hstep : w.step a = some w') :
    Watched w' := by
  obtain ⟨hr, hlog⟩ := TimerWatch.step_eq_some hstep
  constructor
  · exact h.toIssued.step hstep
  · rw [hlog, List.pairwise_append]
    refine ⟨h.silent, ?_, ?_⟩
    · rcases timerEvents_cases h.owned hr with heq | ⟨_, _, _, heq, -⟩ | ⟨_, _, -, heq, -⟩
      · rw [heq]
        exact List.Pairwise.nil
      · rw [heq]
        exact List.pairwise_singleton _ _
      · rw [heq]
        exact List.pairwise_singleton _ _
    · intro event hevent later hlater
      rcases timerEvents_cases h.owned hr with heq | ⟨fd, timer, owner, heq, hfd, -⟩ |
        ⟨_, socket, -, heq, -⟩
      · rw [heq] at hlater
        cases hlater
      · rw [heq] at hlater
        cases List.mem_singleton.mp hlater
        exact h.silent_fired hfd event hevent
      · rw [heq] at hlater
        cases List.mem_singleton.mp hlater
        cases event <;> exact trivial
  · intro socket hclosed
    rw [hlog] at hclosed
    exact h.gone_step hunarmed hr hclosed

theorem Watched.dieWithSocket (h : Watched w) : w.DieWithSocket := by
  constructor
  · exact h.once
  · exact h.silent
  · exact fun socket hclosed fd timer hfd => absurd hfd (h.gone socket hclosed fd timer)

/-- The descriptor of a timer is in `timer_fds_`. -/
theorem TimerWatch.DieWithSocket.absent (h : w.DieWithSocket) (howned : Owned w.running)
    {socket : Socket} (hclosed : .closed socket ∈ w.log) (fd : Fd) (timer : ℕ) :
    w.running.descriptors fd ≠ some (.timer timer (some socket)) := by
  intro hfd
  have hsome := (howned fd).timer.mpr ⟨timer, some socket, hfd⟩
  rw [(h.gone socket hclosed fd timer hfd).1] at hsome
  cases hsome

theorem mem_closing {r : RunningLoop F} {op : Op F} {socket : Socket}
    (hruns : r.loop.runsClose op = true) (hop : r.descriptors op.fd = some (.socket socket)) :
    TimerEvent.closed socket ∈ r.closing op := by
  simp [RunningLoop.closing, hruns, hop]

/-- A step that does not meet the condition leaves a timer behind. -/
theorem unarmed_of_dieWithSocket (h : Watched w) (hstep : w.step a = some w')
    (hdie : w'.DieWithSocket) : w.Unarmed a := by
  obtain ⟨hr, hlog⟩ := TimerWatch.step_eq_some hstep
  have howned : Owned w'.running := h.owned.step hr
  have hperform : ∀ op, w'.running.descriptors = (w.running.perform op).descriptors →
      w.running.closing op ⊆ w.running.timerEvents a →
      w.running.loop.runsClose op = true → ∀ socket,
        w.running.descriptors op.fd = some (.socket socket) → ∀ fd timer,
          w.running.descriptors fd ≠ some (.timer timer (some socket)) := by
    intro op hdescriptors hevents hruns socket hop fd timer hfd
    have hclosed : .closed socket ∈ w'.log := by
      rw [hlog]
      exact List.mem_append_right _ (hevents (mem_closing hruns hop))
    apply hdie.absent howned hclosed fd timer
    rw [hdescriptors, perform_descriptors_of_ne, hfd]
    rintro rfl
    cases hop.symm.trans hfd
  cases a with
  | task op => exact hperform op (descriptors_of_task hr) (List.subset_append_right _ _)
  | call op => exact hperform op (descriptors_of_call hr) (List.subset_append_right _ _)
  | addTimer via outcome callback =>
      cases outcome with
      | failed | rejected => exact trivial
      | added timerfd =>
          intro socket howner hclosed
          have hstays : .closed socket ∈ w'.log := hlog ▸ List.mem_append_left _ hclosed
          exact hdie.absent howned hstays timerfd _ (descriptors_of_added hr howner)
  | wait | registerAccept | drained | openSocket | release => exact trivial

/-- The timers of every socket die with it exactly in the runs in which a socket is closed only
without timers, and gets no timer behind its close. -/
theorem dieWithSocket_iff_unarmed (acts : List (LoopStep F)) :
    Always TimerWatch.step DieWithSocket (fresh : TimerWatch F) acts ↔
      EachStep TimerWatch.step Unarmed (fresh : TimerWatch F) acts :=
  always_iff_eachStep (I := Watched) (fun _ _ _ hw hC hstep => hw.step hC hstep)
    (fun _ => Watched.dieWithSocket) (fun _ _ _ => unarmed_of_dieWithSocket) watched_fresh acts

end Watch

/-- A timer of the socket 0 has the number 7; the socket is closed, and then the timer is due. -/
def forgottenRun : List (LoopStep Unit) :=
  [.openSocket 5, .addTimer (some 5) (.added 7) (some ()), .wait [.wakeup], .task (.close 5),
    .drained, .wait [.ready 7 false true false], .call (.handleRead 7 .again 0)]

/-- The timer is called back behind the close of its socket. -/
theorem not_timersDie : ¬ TimersDie Unit := by
  intro h
  obtain ⟨w, hrun, hlog⟩ : ∃ w, run TimerWatch.step .fresh forgottenRun = some w ∧
      w.log = [.closed 0, .fired 0 (some 0)] := ⟨_, rfl, rfl⟩
  have hdie : w.DieWithSocket := (h forgottenRun).last hrun
  have hsilent := hdie.silent
  rw [hlog] at hsilent
  have hother : some 0 ≠ some (0 : Socket) := List.rel_of_pairwise_cons hsilent List.mem_cons_self
  exact hother rfl

end SimpleRedis.Net
