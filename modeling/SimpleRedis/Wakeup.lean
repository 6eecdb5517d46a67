import SimpleRedis.TransitionRun
import Mathlib.Data.Nat.Notation
import Mathlib.Logic.Function.Basic

/-!
# Waking up an event loop

Threads that post a task push it, exchange `awake` for true, and signal the eventfd if
it was false. The loop drains the queue, stores false, and looks at the queue once
more. The store may become visible late: a thread that exchanges before that does not
signal, and if it has pushed behind the loop's look at the queue, its task stays there.
In the runs in which no store becomes visible so, no wake-up is lost.
-/
namespace SimpleRedis.Wakeup

open TransitionRun

variable {P T : Type*}

/-- Where a thread is in `postTask` or `postTaskBatch`: outside, with tasks left to
push and the exchange ahead, or before the write to the eventfd. -/
inductive Post (T : Type*) where
  | idle
  | posting (rest : List T)
  | signal

/-- Where the loop is: in `epoll_wait`, in the handlers of ordinary events, before a
read of the eventfd, or in `drainTasks` before a `pop`, in a task, before the store,
before `empty()`, before the exchange, before the write to the eventfd. -/
inductive Loop where
  | wait
  | handling
  | reading
  | popping
  | running
  | storing
  | recheck
  | exchange
  | signal
  deriving DecidableEq

/-- The loop with the threads that post to it. `none` is the loop's own thread, which
posts from tasks and from handlers. `inFlight` counts the stores of false that only
the loop's thread sees. -/
structure EventLoop (P T : Type*) where
  queue : List T
  awake : Bool
  inFlight : ℕ
  eventfd : ℕ
  post : Option P → Post T
  loop : Loop

inductive Act (P T : Type*) where
  | call (t : Option P) (tasks : List T)
  | post (t : Option P)
  | wake
  | event
  | loop
  | flush

namespace EventLoop

def fresh : EventLoop P T where
  queue := []
  awake := false
  inFlight := 0
  eventfd := 0
  post _ := .idle
  loop := .wait

/-- The loop's thread posts only while it runs a task or a handler. -/
def mayPost (s : EventLoop P T) (t : Option P) : Bool :=
  t.isSome || s.loop = .running || s.loop = .handling

variable [DecidableEq P]

def setPost (s : EventLoop P T) (t : Option P) (pc : Post T) : EventLoop P T :=
  { s with post := Function.update s.post t pc }

/-- The next step of a thread that posts. A `push` that finds the queue full has no
effect and is repeated, so it is no step. The exchange of the loop's thread comes
behind its own stores. -/
def stepPost (s : EventLoop P T) (t : Option P) : Option (EventLoop P T) :=
  match s.post t with
  | .idle => none
  | .posting (task :: rest) =>
      some ({ s with queue := s.queue ++ [task] }.setPost t (.posting rest))
  | .posting [] =>
      if t.isNone ∧ s.inFlight ≠ 0 then none
      else some ({ s with awake := true }.setPost t (if s.awake then .idle else .signal))
  | .signal => some ({ s with eventfd := s.eventfd + 1 }.setPost t .idle)

/-- The loop's next step. It leaves a task or a handler when it posts no more. -/
def stepLoop (s : EventLoop P T) : Option (EventLoop P T) :=
  match s.loop with
  | .wait => none
  | .handling => match s.post none with
      | .idle => some { s with loop := .wait }
      | _ => none
  | .reading =>
      if s.eventfd = 0 then some { s with loop := .popping } else some { s with eventfd := 0 }
  | .popping => match s.queue with
      | [] => some { s with loop := .storing }
      | _ :: queue => some { s with queue := queue, loop := .running }
  | .running => match s.post none with
      | .idle => some { s with loop := .popping }
      | _ => none
  | .storing => some { s with inFlight := s.inFlight + 1, loop := .recheck }
  | .recheck => match s.queue with
      | [] => some { s with loop := .wait }
      | _ :: _ => some { s with loop := .exchange }
  | .exchange =>
      if s.inFlight ≠ 0 then none
      else some { s with awake := true, loop := if s.awake then .wait else .signal }
  | .signal => some { s with eventfd := s.eventfd + 1, loop := .wait }

def step (s : EventLoop P T) : Act P T → Option (EventLoop P T)
  | .call t tasks => match s.post t with
      | .idle => if s.mayPost t then some (s.setPost t (.posting tasks)) else none
      | _ => none
  | .post t => s.stepPost t
  | .wake =>
      if s.loop = .wait ∧ s.eventfd ≠ 0 then some { s with loop := .reading } else none
  | .event => if s.loop = .wait then some { s with loop := .handling } else none
  | .loop => s.stepLoop
  | .flush =>
      if s.inFlight = 0 then none
      else some { s with awake := false, inFlight := s.inFlight - 1 }

end EventLoop

/-- The loop is not blocked with a task in the queue that nobody will wake it for. -/
def NoLostWakeup (s : EventLoop P T) : Prop :=
  ¬ (s.loop = .wait ∧ s.eventfd = 0 ∧ s.inFlight = 0 ∧ s.queue ≠ [] ∧
    ∀ p, s.post (some p) = .idle)

/-- The queue is empty, or a thread that posts still has its exchange ahead. -/
def Covered (s : EventLoop P T) : Prop :=
  s.queue = [] ∨ ∃ t rest, s.post t = .posting rest

/-- The loop is neither in `drainTasks` nor on the way there. -/
def Passive (s : EventLoop P T) : Prop := s.loop = .wait ∨ s.loop = .handling

/-- A store that becomes visible behind the loop's second look at the queue does so
while the queue is covered. -/
def StoreVisible (s : EventLoop P T) : Act P T → Prop
  | .flush => Passive s → Covered s
  | _ => True

/-- Who is bound to make the loop drain the queue and store false once more: a thread
before its write to the eventfd, the eventfd, the loop itself, or a store in flight. -/
inductive Holder (P : Type*) where
  | post (t : Option P)
  | event
  | drain
  | flight
  | resignal

/-- The loop empties the queue before its next store. -/
def Draining (s : EventLoop P T) : Prop :=
  s.loop = .popping ∨ s.loop = .running ∨ s.loop = .storing ∨
    (s.loop = .reading ∧ s.eventfd = 0)

/-- While `awake` is true one token is under way, and none otherwise. -/
structure Token (s : EventLoop P T) (o : Option (Holder P)) : Prop where
  awake : s.awake = o.isSome
  post : ∀ t, s.post t = .signal ↔ o = some (.post t)
  event : 0 < s.eventfd ↔ o = some .event
  eventfd_le : s.eventfd ≤ 1
  drain : Draining s ↔ o = some .drain
  flight : 0 < s.inFlight ↔ o = some .flight
  inFlight_le : s.inFlight ≤ 1
  resignal : s.loop = .signal ↔ o = some .resignal

/-- The invariant of the handshake. -/
structure Ok (s : EventLoop P T) : Prop where
  token : ∃ o, Token s o
  own : s.post none ≠ .idle → s.loop = .running ∨ s.loop = .handling
  covered : s.awake = false → Passive s → Covered s

theorem ok_fresh : Ok (EventLoop.fresh : EventLoop P T) where
  token := ⟨none, by constructor <;> simp [EventLoop.fresh, Draining]⟩
  own h := absurd rfl h
  covered _ _ := Or.inl rfl

theorem Ok.noLostWakeup {s : EventLoop P T} (h : Ok s) : NoLostWakeup s := by
  rintro ⟨hwait, hevent, hflight, hqueue, hidle⟩
  obtain ⟨o, htoken⟩ := h.token
  have hown : s.post none = .idle := by
    by_contra hne
    rcases h.own hne with hloop | hloop <;> rw [hwait] at hloop <;> cases hloop
  have hidle' : ∀ t, s.post t = .idle := by
    intro t
    cases t with
    | none => exact hown
    | some p => exact hidle p
  have hnone : o = none := by
    cases o with
    | none => rfl
    | some holder =>
        cases holder with
        | post t =>
            have := (htoken.post t).mpr rfl
            rw [hidle'] at this
            cases this
        | event =>
            have := htoken.event.mpr rfl
            omega
        | drain =>
            have := htoken.drain.mpr rfl
            simp [Draining, hwait] at this
        | flight =>
            have := htoken.flight.mpr rfl
            omega
        | resignal =>
            have := htoken.resignal.mpr rfl
            rw [hwait] at this
            cases this
  have hawake : s.awake = false := by rw [htoken.awake, hnone]; rfl
  rcases h.covered hawake (Or.inl hwait) with hempty | ⟨t, rest, hposting⟩
  · exact hqueue hempty
  · rw [hidle'] at hposting
    cases hposting

section Moves

variable {s : EventLoop P T} {o : Option (Holder P)}

/-- A step that moves no token. -/
theorem Token.congr {s' : EventLoop P T} (h : Token s o) (hawake : s'.awake = s.awake)
    (hevent : s'.eventfd = s.eventfd) (hflight : s'.inFlight = s.inFlight)
    (hpost : ∀ t, s'.post t = .signal ↔ s.post t = .signal) (hdrain : Draining s' ↔ Draining s)
    (hloop : s'.loop = .signal ↔ s.loop = .signal) : Token s' o := by
  constructor
  · rw [hawake, h.awake]
  · intro t
    rw [hpost, h.post]
  · rw [hevent, h.event]
  · rw [hevent]
    exact h.eventfd_le
  · rw [hdrain, h.drain]
  · rw [hflight, h.flight]
  · rw [hflight]
    exact h.inFlight_le
  · rw [hloop, h.resignal]

/-- The first read of the eventfd gives the token to the loop. -/
theorem Token.read (h : Token s o) (hloop : s.loop = .reading) (hevent : s.eventfd ≠ 0) :
    Token { s with eventfd := 0 } (some .drain) := by
  obtain rfl := h.event.mp (Nat.pos_of_ne_zero hevent)
  obtain ⟨hawake, hpost, hevent, hevent_le, hdrain, hflight, hflight_le, hresignal⟩ := h
  constructor <;> simp only [Draining] at * <;> grind

/-- The store takes the token along. -/
theorem Token.store (h : Token s o) (hloop : s.loop = .storing) :
    Token { s with inFlight := s.inFlight + 1, loop := .recheck } (some .flight) := by
  obtain rfl := h.drain.mp (Or.inr (Or.inr (Or.inl hloop)))
  obtain ⟨hawake, hpost, hevent, hevent_le, hdrain, hflight, hflight_le, hresignal⟩ := h
  constructor <;> simp only [Draining] at * <;> grind

/-- The store becomes visible, and the token is gone. -/
theorem Token.flush (h : Token s o) (hflight : s.inFlight ≠ 0) :
    Token { s with awake := false, inFlight := s.inFlight - 1 } none := by
  obtain rfl := h.flight.mp (Nat.pos_of_ne_zero hflight)
  obtain ⟨hawake, hpost, hevent, hevent_le, hdrain, hflight, hflight_le, hresignal⟩ := h
  constructor <;> simp only [Draining] at * <;> grind

/-- The loop's exchange makes a token if there is none. -/
theorem Token.exchange (h : Token s o) (hawake : s.awake = false) :
    Token { s with awake := true, loop := .signal } (some .resignal) := by
  obtain rfl : o = none := by simpa [hawake] using h.awake.symm
  obtain ⟨hawake, hpost, hevent, hevent_le, hdrain, hflight, hflight_le, hresignal⟩ := h
  constructor <;> simp only [Draining] at * <;> grind

/-- The loop's write gives the token to the eventfd. -/
theorem Token.resignalled (h : Token s o) (hloop : s.loop = .signal) :
    Token { s with eventfd := s.eventfd + 1, loop := .wait } (some .event) := by
  obtain rfl := h.resignal.mp hloop
  obtain ⟨hawake, hpost, hevent, hevent_le, hdrain, hflight, hflight_le, hresignal⟩ := h
  constructor <;> simp only [Draining] at * <;> grind

variable [DecidableEq P]

/-- A thread's exchange makes a token if there is none. -/
theorem Token.win (h : Token s o) (t : Option P) (hawake : s.awake = false) :
    Token ({ s with awake := true }.setPost t .signal) (some (.post t)) := by
  obtain rfl : o = none := by simpa [hawake] using h.awake.symm
  obtain ⟨hawake, hothers, hevent, hevent_le, hdrain, hflight, hflight_le, hresignal⟩ := h
  constructor <;> simp only [EventLoop.setPost, Draining, Function.update_apply] at * <;> grind

/-- A thread's write gives the token to the eventfd. -/
theorem Token.signalled (h : Token s o) {t : Option P} (hpost : s.post t = .signal) :
    Token ({ s with eventfd := s.eventfd + 1 }.setPost t .idle) (some .event) := by
  obtain rfl := (h.post t).mp hpost
  obtain ⟨hawake, hothers, hevent, hevent_le, hdrain, hflight, hflight_le, hresignal⟩ := h
  constructor <;> simp only [EventLoop.setPost, Draining, Function.update_apply] at * <;> grind

/-- A thread that neither had nor gets the token. -/
theorem Token.setPost (h : Token s o) {t : Option P} (pc : Post T) (hold : s.post t ≠ .signal)
    (hpc : pc ≠ .signal) : Token (s.setPost t pc) o := by
  refine h.congr rfl rfl rfl (fun t' => ?_) Iff.rfl Iff.rfl
  by_cases ht : t' = t
  · subst ht
    simp [EventLoop.setPost, hold, hpc]
  · simp [EventLoop.setPost, ht]

end Moves

section Step

variable {s s' : EventLoop P T}

theorem Ok.mayPost (h : Ok s) {t : Option P} (hbusy : s.post t ≠ .idle) : s.mayPost t = true := by
  cases t with
  | none => simpa [EventLoop.mayPost] using h.own hbusy
  | some p => rfl

theorem Ok.own_idle (h : Ok s) (hrunning : s.loop ≠ .running) (hhandling : s.loop ≠ .handling) :
    s.post none = .idle := by
  by_contra hne
  rcases h.own hne with hloop | hloop
  · exact hrunning hloop
  · exact hhandling hloop

/-- A step of the loop that moves no token and does not end in `epoll_wait` or a handler. -/
theorem Ok.goto (h : Ok s) (queue : List T) {loop : Loop}
    (hdrain : Draining s ↔ Draining { s with queue := queue, loop := loop })
    (hsignal : s.loop ≠ .signal ∧ loop ≠ .signal) (hown : s.post none = .idle ∨ loop = .running)
    (hcovered : s.awake = false → loop = .wait ∨ loop = .handling →
      Covered { s with queue := queue, loop := loop }) :
    Ok { s with queue := queue, loop := loop } := by
  obtain ⟨o, htoken⟩ := h.token
  refine ⟨⟨o, htoken.congr rfl rfl rfl (fun _ => Iff.rfl) hdrain.symm ?_⟩, fun hne => ?_, hcovered⟩
  · exact iff_of_false hsignal.2 hsignal.1
  · rcases hown with hidle | hrunning
    · exact absurd hidle hne
    · exact Or.inl hrunning

theorem Ok.stepLoop (h : Ok s) (hstep : s.stepLoop = some s') : Ok s' := by
  unfold EventLoop.stepLoop at hstep
  cases hloop : s.loop with
  | wait =>
      rw [hloop] at hstep
      cases hstep
  | handling =>
      simp only [hloop] at hstep
      split at hstep
      · rename_i hidle
        cases hstep
        exact h.goto s.queue (by simp [Draining, hloop]) (by simp [hloop]) (Or.inl hidle)
          fun hawake _ => h.covered hawake (Or.inr hloop)
      · cases hstep
  | reading =>
      simp only [hloop] at hstep
      have hidle := h.own_idle (by simp [hloop]) (by simp [hloop])
      split at hstep
      · rename_i hevent
        cases hstep
        exact h.goto s.queue (by simp [Draining, hloop, hevent]) (by simp [hloop]) (Or.inl hidle)
          (by simp)
      · rename_i hevent
        cases hstep
        obtain ⟨o, htoken⟩ := h.token
        have hread := htoken.read hloop hevent
        rw [hloop] at hread
        exact ⟨⟨_, hread⟩, fun hne => absurd hidle hne, fun _ hpassive => by
          simp [Passive] at hpassive⟩
  | popping =>
      simp only [hloop] at hstep
      have hidle := h.own_idle (by simp [hloop]) (by simp [hloop])
      split at hstep
      · cases hstep
        exact h.goto s.queue (by simp [Draining, hloop]) (by simp [hloop]) (Or.inl hidle)
          (by simp)
      · cases hstep
        exact h.goto _ (by simp [Draining, hloop]) (by simp [hloop]) (Or.inl hidle) (by simp)
  | running =>
      simp only [hloop] at hstep
      split at hstep
      · rename_i hidle
        cases hstep
        exact h.goto s.queue (by simp [Draining, hloop]) (by simp [hloop]) (Or.inl hidle)
          (by simp)
      · cases hstep
  | storing =>
      simp only [hloop] at hstep
      cases hstep
      have hidle := h.own_idle (by simp [hloop]) (by simp [hloop])
      obtain ⟨o, htoken⟩ := h.token
      exact ⟨⟨_, htoken.store hloop⟩, fun hne => absurd hidle hne, fun _ hpassive => by
        simp [Passive] at hpassive⟩
  | recheck =>
      simp only [hloop] at hstep
      have hidle := h.own_idle (by simp [hloop]) (by simp [hloop])
      split at hstep
      · rename_i hempty
        cases hstep
        exact h.goto s.queue (by simp [Draining, hloop]) (by simp [hloop]) (Or.inl hidle)
          fun _ _ => Or.inl hempty
      · cases hstep
        exact h.goto s.queue (by simp [Draining, hloop]) (by simp [hloop]) (Or.inl hidle)
          (by simp)
  | exchange =>
      simp only [hloop] at hstep
      have hidle := h.own_idle (by simp [hloop]) (by simp [hloop])
      split at hstep
      · cases hstep
      · cases hstep
        obtain ⟨o, htoken⟩ := h.token
        refine ⟨?_, fun hne => absurd hidle hne, fun hfalse => (nomatch hfalse)⟩
        cases hawake : s.awake with
        | false => exact ⟨_, htoken.exchange hawake⟩
        | true =>
            refine ⟨o, htoken.congr hawake.symm rfl rfl (fun _ => Iff.rfl) ?_ ?_⟩
            · simp [Draining, hloop]
            · simp [hloop]
  | signal =>
      simp only [hloop] at hstep
      cases hstep
      have hidle := h.own_idle (by simp [hloop]) (by simp [hloop])
      obtain ⟨o, htoken⟩ := h.token
      refine ⟨⟨_, htoken.resignalled hloop⟩, fun hne => absurd hidle hne, fun hawake => ?_⟩
      obtain rfl := htoken.resignal.mp hloop
      exact absurd (htoken.awake.symm.trans hawake) (by simp)

theorem Ok.flush (h : Ok s) (hvisible : Passive s → Covered s) (hflight : s.inFlight ≠ 0) :
    Ok { s with awake := false, inFlight := s.inFlight - 1 } := by
  obtain ⟨o, htoken⟩ := h.token
  exact ⟨⟨_, htoken.flush hflight⟩, h.own, fun _ hpassive => hvisible hpassive⟩

variable [DecidableEq P]

/-- The loop's thread is where it may post whenever it is posting. -/
theorem own_setPost {t : Option P} {pc : Post T} (hmay : s.mayPost t = true)
    (h : s.post none ≠ .idle → s.loop = .running ∨ s.loop = .handling) :
    (s.setPost t pc).post none ≠ .idle → s.loop = .running ∨ s.loop = .handling := by
  intro hne
  cases t with
  | none => simpa [EventLoop.mayPost] using hmay
  | some p =>
      refine h ?_
      simpa [EventLoop.setPost] using hne

theorem Ok.call (h : Ok s) {t : Option P} (tasks : List T) (hidle : s.post t = .idle)
    (hmay : s.mayPost t = true) : Ok (s.setPost t (.posting tasks)) := by
  obtain ⟨⟨o, htoken⟩, hown, -⟩ := h
  refine ⟨⟨o, htoken.setPost _ (by simp [hidle]) (by simp)⟩, own_setPost hmay hown,
    fun _ _ => Or.inr ⟨t, tasks, ?_⟩⟩
  simp [EventLoop.setPost]

theorem Ok.stepPost (h : Ok s) {t : Option P} (hstep : s.stepPost t = some s') : Ok s' := by
  unfold EventLoop.stepPost at hstep
  split at hstep
  · cases hstep
  · rename_i task rest hpost
    cases hstep
    have hmay := h.mayPost (t := t) (by simp [hpost])
    obtain ⟨⟨o, htoken⟩, hown, -⟩ := h
    refine ⟨⟨o, ?_⟩, own_setPost hmay hown, fun _ _ => Or.inr ⟨t, rest, ?_⟩⟩
    · exact (htoken.setPost (.posting rest) (by simp [hpost]) (by simp)).congr rfl rfl rfl
        (fun _ => Iff.rfl) Iff.rfl Iff.rfl
    · simp [EventLoop.setPost]
  · rename_i hpost
    split at hstep
    · cases hstep
    · cases hstep
      have hmay := h.mayPost (t := t) (by simp [hpost])
      obtain ⟨⟨o, htoken⟩, hown, -⟩ := h
      refine ⟨?_, own_setPost hmay hown, fun hfalse => (nomatch hfalse)⟩
      cases hawake : s.awake with
      | false => exact ⟨_, htoken.win t hawake⟩
      | true =>
          refine ⟨o, (htoken.setPost .idle (by simp [hpost]) (by simp)).congr ?_ rfl rfl
            (fun _ => Iff.rfl) Iff.rfl Iff.rfl⟩
          exact hawake.symm
  · rename_i hpost
    cases hstep
    have hmay := h.mayPost (t := t) (by simp [hpost])
    obtain ⟨⟨o, htoken⟩, hown, -⟩ := h
    refine ⟨⟨_, htoken.signalled hpost⟩, own_setPost hmay hown, fun hawake => ?_⟩
    obtain rfl := (htoken.post t).mp hpost
    exact absurd (htoken.awake.symm.trans hawake) (by simp)

/-- A step keeps the handshake, unless a store becomes visible too late. -/
theorem Ok.step {a : Act P T} (h : Ok s) (hvisible : StoreVisible s a)
    (hstep : s.step a = some s') : Ok s' := by
  cases a with
  | call t tasks =>
      simp only [EventLoop.step] at hstep
      split at hstep
      · rename_i hidle
        split at hstep
        · rename_i hmay
          cases hstep
          exact h.call tasks hidle hmay
        · cases hstep
      · cases hstep
  | post t => exact h.stepPost hstep
  | wake =>
      simp only [EventLoop.step] at hstep
      split at hstep
      · rename_i hwake
        obtain ⟨hloop, hevent⟩ := hwake
        cases hstep
        have hidle := h.own_idle (by simp [hloop]) (by simp [hloop])
        exact h.goto s.queue (by simp [Draining, hloop, hevent]) (by simp [hloop]) (Or.inl hidle)
          (by simp)
      · cases hstep
  | event =>
      simp only [EventLoop.step] at hstep
      split at hstep
      · rename_i hloop
        cases hstep
        have hidle := h.own_idle (by simp [hloop]) (by simp [hloop])
        exact h.goto s.queue (by simp [Draining, hloop]) (by simp [hloop]) (Or.inl hidle)
          fun hawake _ => h.covered hawake (Or.inl hloop)
      · cases hstep
  | loop => exact h.stepLoop hstep
  | flush =>
      simp only [EventLoop.step] at hstep
      split at hstep
      · cases hstep
      · rename_i hflight
        cases hstep
        exact h.flush hvisible hflight

end Step

/-- No wake-up is lost in a run in which every store of false becomes visible before
the loop's second look at the queue, or else while the queue is covered. -/
theorem noLostWakeup_of_storeVisible [DecidableEq P] {acts : List (Act P T)}
    (h : EachStep EventLoop.step StoreVisible EventLoop.fresh acts) :
    Always EventLoop.step NoLostWakeup EventLoop.fresh acts :=
  always_of_eachStep (I := Ok) (fun _ _ _ hok => hok.step) (fun _ hok => hok.noLostWakeup)
    ok_fresh h

/-- A thread posts and the loop drains; the store is in flight when the loop looks at
the queue again. The thread posts once more and finds `awake` still true. -/
def lateStoreRun : List (Act Unit Unit) :=
  [.call (some ()) [()], .post (some ()), .post (some ()), .post (some ()), .wake, .loop, .loop,
    .loop, .loop, .loop, .loop, .loop, .call (some ()) [()], .post (some ()), .post (some ()),
    .flush]

theorem not_noLostWakeup_lateStoreRun :
    ¬ Always EventLoop.step NoLostWakeup EventLoop.fresh lateStoreRun := by
  intro h
  have hlost : ∃ s, run EventLoop.step EventLoop.fresh lateStoreRun = some s ∧ s.loop = .wait ∧
      s.eventfd = 0 ∧ s.inFlight = 0 ∧ s.queue = [()] ∧ ∀ p, s.post (some p) = .idle :=
    ⟨_, rfl, rfl, rfl, rfl, rfl, fun _ => rfl⟩
  obtain ⟨s, hrun, hloop, hevent, hflight, hqueue, hidle⟩ := hlost
  exact h.last hrun ⟨hloop, hevent, hflight, by simp [hqueue], hidle⟩

/-- The first store becomes visible behind the second look at the queue, but while the thread
that has pushed has its exchange ahead; the next one does before the look. -/
def visibleStoreRun : List (Act Unit Unit) :=
  [.call (some ()) [()], .post (some ()), .post (some ()), .post (some ()), .wake, .loop, .loop,
    .loop, .loop, .loop, .loop, .loop, .call (some ()) [()], .post (some ()), .flush,
    .post (some ()), .post (some ()), .wake, .loop, .loop, .loop, .loop, .loop, .loop, .flush,
    .loop]

theorem noLostWakeup_visibleStoreRun :
    Always EventLoop.step NoLostWakeup EventLoop.fresh visibleStoreRun := by
  have hvisible : EachStep EventLoop.step StoreVisible EventLoop.fresh visibleStoreRun := by
    unfold visibleStoreRun
    iterate 14 refine eachStep_cons rfl trivial ?_
    refine eachStep_cons rfl (fun _ => Or.inr ⟨some (), [], rfl⟩) ?_
    iterate 9 refine eachStep_cons rfl trivial ?_
    refine eachStep_cons rfl (fun hpassive => ?_) (eachStep_cons rfl trivial trivial)
    rcases hpassive with hwait | hhandling
    · cases hwait
    · cases hhandling
  exact noLostWakeup_of_storeVisible hvisible

end SimpleRedis.Wakeup
