import SimpleRedis.RedisPromises

/-!
# The end of a connection of the Redis client

A socket of the client ends when its peer closes or when the loop removes its
connection. The loop then fails the writes of the queue; the promises that wait for a
reply are not its concern, and `ClientImpl::read` does nothing when it is given no
bytes. `LeavesNone` says which promises are left behind.
-/
namespace SimpleRedis.Redis

open Net Resp TransitionRun Custody

namespace System

variable {Θ : Type*} {memory : Memory} {s s' : System Θ} {fd : Fd}

/-- The end of the stream is given to `ClientImpl::read`. -/
def toldEnd (s : System Θ) : Act memory Θ → Fd → Bool
  | .handleRead fd' .zero, fd => fd' == fd && (s.readCall fd' .zero).isSome
  | _, _ => false

/-- `closeConnection` has removed the connection of the socket. -/
def removed (s s' : System Θ) (fd : Fd) : Bool :=
  (s.exec.loop.connections fd).isSome && (s'.exec.loop.connections fd).isNone

/-- The connection of the socket ends in the step. -/
def ends (s : System Θ) (act : Act memory Θ) (s' : System Θ) (fd : Fd) : Bool :=
  s.toldEnd act fd || s.removed s' fd

/-- The promises of the sockets that end in the step. -/
def newlyDue (s : System Θ) (act : Act memory Θ) (s' : System Θ) : List ℕ :=
  (List.range s'.calls.length).filter fun promise =>
    (s'.calls[promise]?).any fun call => s.ends act s' call.client

theorem mem_newlyDue {act : Act memory Θ} {promise : ℕ} :
    promise ∈ s.newlyDue act s' ↔
      ∃ fd, (s'.calls.map Call.client)[promise]? = some fd ∧ s.ends act s' fd = true := by
  rw [newlyDue, List.mem_filter, List.mem_range, List.getElem?_map]
  constructor
  · rintro ⟨-, hany⟩
    cases hcall : s'.calls[promise]? with
    | none =>
        rw [hcall] at hany
        cases hany
    | some call =>
        rw [hcall] at hany
        exact ⟨call.client, rfl, hany⟩
  · rintro ⟨fd, howner, hends⟩
    obtain ⟨call, hcall, rfl⟩ := Option.map_eq_some_iff.mp howner
    refine ⟨(List.getElem?_eq_some_iff.mp hcall).1, ?_⟩
    rw [hcall]
    exact hends

/-- The promises of a socket that are not in the write queue of its connection. -/
def unwritten (s : System Θ) (fd : Fd) : List ℕ :=
  (s.clients fd).promises ++ postedPromises (s.tasks fd)

/-- No promise is left behind by the step: the end of the stream finds a socket that
holds none, and a connection is removed when the write queue holds all of them. -/
def LeavesNone (s : System Θ) : Act memory Θ → Prop
  | .handleRead fd .zero => (s.readCall fd .zero).isSome → (s.view fd).held = []
  | .handleRead fd .error | .hangUp fd =>
      (s.exec.loop.connections fd).isSome → s.unwritten fd = []
  | .handleWrite fd .error =>
      ∀ conn, s.exec.loop.connections fd = some conn → conn.iovs ≠ [] → s.unwritten fd = []
  | .runTask fd =>
      (s.tasks fd).head? = some .close → (s.exec.loop.connections fd).isSome →
        s.unwritten fd = []
  | _ => True

section Frames

variable {tasks : List Task} (op : Op Closure)

/-- A callback leaves the loop alone and takes no outcome back. -/
theorem foldl_deliver_frame (effects : List (Effect Closure)) :
    (effects.foldl deliver s).exec = s.exec ∧
      s.resolved <+: (effects.foldl deliver s).resolved := by
  induction effects generalizing s with
  | nil => exact ⟨rfl, List.prefix_rfl⟩
  | cons effect effects ih =>
      obtain ⟨hexec, hresolved⟩ := ih (s := s.deliver effect)
      have hfirst : (s.deliver effect).exec = s.exec ∧
          s.resolved <+: (s.deliver effect).resolved := by
        unfold deliver
        split
        · exact ⟨rfl, List.prefix_rfl⟩
        · exact ⟨rfl, List.prefix_append _ _⟩
        · exact ⟨rfl, List.prefix_rfl⟩
      exact ⟨hexec.trans hfirst.1, hfirst.2.trans hresolved⟩

/-- A step of a loop gives its socket the connection that `stepConnection` says. -/
structure Stepped (s s' : System Θ) (fd : Fd) (new : Option (Connection Closure)) : Prop where
  resolved : s.resolved <+: s'.resolved
  conn : s'.exec.loop.connections fd = new
  other : ∀ fd', fd' ≠ fd → s'.exec.loop.connections fd' = s.exec.loop.connections fd'

theorem stepped_run (hs : AllKept s.exec) (hrun : (s.setTasks op.fd tasks).run op = some s') :
    s.Stepped s' op.fd (stepConnection (s.exec.loop.connections op.fd) op).1 := by
  obtain ⟨base, effects, rfl, -, hran, -⟩ := ran_run hs op hrun
  obtain ⟨hexec, hresolved⟩ := foldl_deliver_frame (s := base) effects
  refine ⟨hran.resolved ▸ hresolved, ?_, fun fd' hfd => ?_⟩
  · rw [hexec]
    exact congrArg View.conn hran.view
  · rw [hexec]
    exact congrArg View.conn (hran.other fd' hfd)

theorem stepped_event (hs : AllKept s.exec) (hrun : s.run op = some s') :
    s.Stepped s' op.fd (stepConnection (s.exec.loop.connections op.fd) op).1 := by
  rw [← setTasks_self s op.fd] at hrun
  exact stepped_run op hs hrun

/-- When a connection is removed, its queued writes fail; what else the socket holds
stays. -/
theorem Held.held_removed (h : s.Held) (hrun : (s.setTasks op.fd tasks).run op = some s')
    {conn : Connection Closure} (hconn : s.exec.loop.connections op.fd = some conn)
    (hgone : s'.exec.loop.connections op.fd = none) :
    (s'.view op.fd).held = (s.clients op.fd).promises ++ postedPromises tasks := by
  have hnew : (stepConnection (s.view op.fd).conn op).1 = none :=
    (stepped_run op h.kept hrun).conn.symm.trans hgone
  obtain ⟨base, effects, rfl, -, hran, hmove⟩ := ran_run h.kept op hrun
  have hview := hran.view
  have hwrites := (h.wired op.fd).writes
  rw [hnew] at hmove hview
  cases hmove with
  | quiet hnone hqueue hkeep hquiet => cases (hkeep rfl).symm.trans hconn
  | @ended conn before after hnone hold hbefore hafter =>
      rw [hold] at hwrites
      have hfailed : ∀ x ∈ conn.writeQueue.map (·.submission), IsWrite op.fd x := hwrites
      rw [foldl_deliver_ended hbefore hafter hfailed]
      show (base.view op.fd).held = _
      rw [hview]
      show (s.clients op.fd).promises ++ [] ++ postedPromises tasks = _
      rw [List.append_nil]

/-- The end of the stream leaves every promise of the socket where it is. -/
theorem Held.held_zero (h : s.Held) (hrun : s.run (.handleRead fd .zero 0) = some s') :
    (s'.view fd).held = (s.view fd).held := by
  rw [← setTasks_self s fd] at hrun
  obtain ⟨base, effects, rfl, heffects, hran, -⟩ :=
    ran_run h.kept (.handleRead fd .zero 0) hrun
  dsimp only [Op.fd] at heffects hran
  have hquiet : ∀ effect ∈ effects, effect.Quiet fd := by
    rw [heffects]
    cases (s.view fd).conn with
    | none => exact List.forall_mem_nil _
    | some conn => exact quiet_read fd conn.readCb conn.readBuffer.buffer 0
  have hqueue : queueOf (stepConnection (s.view fd).conn (.handleRead fd .zero 0)).1 =
      queueOf (s.view fd).conn := by
    cases (s.view fd).conn <;> rfl
  rw [foldl_deliver_quiet hquiet]
  show (base.view fd).held = _
  rw [hran.view]
  show _ ++ queuedPromises (queueOf (stepConnection (s.view fd).conn _).1) ++ _ = _
  rw [hqueue]
  rfl

/-- A step of a loop removes the connection of its own socket, if it ends it. -/
theorem removed_iff (hs : AllKept s.exec) (hrun : (s.setTasks op.fd tasks).run op = some s') :
    s.removed s' fd = true ↔ fd = op.fd ∧
      ∃ conn, s.exec.loop.connections op.fd = some conn ∧ EndsConnection (some conn) op := by
  have hstepped := stepped_run op hs hrun
  rw [removed, Bool.and_eq_true, Option.isSome_iff_exists, Option.isNone_iff_eq_none]
  constructor
  · rintro ⟨⟨conn, hconn⟩, hgone⟩
    have hfd : fd = op.fd := by
      by_contra hne
      rw [hstepped.other fd hne, hconn] at hgone
      cases hgone
    subst hfd
    rw [hstepped.conn, hconn] at hgone
    exact ⟨rfl, conn, hconn, endsConnection_of_none hgone⟩
  · rintro ⟨rfl, conn, hconn, hends⟩
    refine ⟨⟨conn, hconn⟩, ?_⟩
    rw [hstepped.conn, hconn]
    exact stepConnection_ends hends

/-- What a step of a loop leaves behind. -/
theorem Held.leftBehind_iff (h : s.Held) {act : Act memory Θ}
    (htold : ∀ fd, s.toldEnd act fd = false)
    (hrun : (s.setTasks op.fd tasks).run op = some s') :
    (∀ fd, s.ends act s' fd = true → (s'.view fd).held = []) ↔
      ∀ conn, s.exec.loop.connections op.fd = some conn → EndsConnection (some conn) op →
        (s.clients op.fd).promises ++ postedPromises tasks = [] := by
  simp only [ends, htold, Bool.false_or]
  constructor
  · intro hnone conn hconn hends
    have hremoved : s.removed s' op.fd = true :=
      (removed_iff op h.kept hrun).mpr ⟨rfl, conn, hconn, hends⟩
    have hgone := (Bool.and_eq_true_iff.mp hremoved).2
    rw [← h.held_removed op hrun hconn (Option.isNone_iff_eq_none.mp hgone)]
    exact hnone op.fd hremoved
  · intro hnone fd hremoved
    obtain ⟨rfl, conn, hconn, hends⟩ := (removed_iff op h.kept hrun).mp hremoved
    have hgone := (Bool.and_eq_true_iff.mp hremoved).2
    rw [h.held_removed op hrun hconn (Option.isNone_iff_eq_none.mp hgone)]
    exact hnone conn hconn hends

/-- An event, which takes no task. -/
theorem Held.event_leftBehind_iff (h : s.Held) {act : Act memory Θ}
    (htold : ∀ fd, s.toldEnd act fd = false) (hrun : s.run op = some s') :
    (∀ fd, s.ends act s' fd = true → (s'.view fd).held = []) ↔
      ∀ conn, s.exec.loop.connections op.fd = some conn → EndsConnection (some conn) op →
        s.unwritten op.fd = [] := by
  rw [← setTasks_self s op.fd] at hrun
  exact h.leftBehind_iff op htold hrun

theorem removed_of_exec (hexec : s'.exec = s.exec) : s.removed s' fd = false := by
  rw [removed, hexec]
  cases s.exec.loop.connections fd <;> rfl

/-- A step that ends no connection of a loop. -/
theorem removed_of_not_ends (hs : AllKept s.exec)
    (hends : ∀ conn, ¬ EndsConnection (some conn) op) (hrun : s.run op = some s') :
    s.removed s' fd = false := by
  rw [← setTasks_self s op.fd] at hrun
  rw [Bool.eq_false_iff, ne_eq, removed_iff op hs hrun]
  rintro ⟨-, conn, -, hconn⟩
  exact hends conn hconn

/-- The steps that end no connection are no concern here. -/
theorem leavesNone_of_not_ends {act : Act memory Θ} (hends : ∀ fd, s.ends act s' fd = false)
    (hleaves : s.LeavesNone act) :
    (∀ fd, s.ends act s' fd = true → (s'.view fd).held = []) ↔ s.LeavesNone act := by
  refine iff_of_true (fun fd htrue => ?_) hleaves
  rw [hends fd] at htrue
  cases htrue

end Frames

section Reads

variable {chunk : List CChar}

/-- Bytes that arrive end no connection. -/
theorem Held.handleRead_bytes (h : s.Held)
    (hstep : s.handleRead memory fd (.bytes chunk) = some s') (fd' : Fd) :
    s.removed s' fd' = false ∧ s.resolved <+: s'.resolved := by
  unfold System.handleRead at hstep
  split at hstep
  · exact ⟨removed_of_not_ends _ h.kept (fun _ => id) hstep,
      (stepped_event _ h.kept hstep).resolved⟩
  · rename_i client buf size hcall
    obtain ⟨r, -, hrun⟩ := Option.bind_eq_some_iff.mp hstep
    have hkept : AllKept (s.finishRead client r).exec := h.kept
    have hremoved : (s.finishRead client r).removed s' fd' = false :=
      removed_of_not_ends _ hkept (fun _ => id) hrun
    exact ⟨hremoved, (List.prefix_append _ _).trans (stepped_event _ hkept hrun).resolved⟩

end Reads

section Steps

variable [DecidableEq Θ] {setup : Setup}

theorem exec_execute (thread : Θ) (args : List (List CChar)) :
    (s.execute setup thread args).exec = s.exec := by
  unfold System.execute
  extract_lets
  split <;> rfl

/-- Nobody waits in vain behind a step if and only if the step leaves none. -/
theorem Held.leavesNone_iff (h : s.Held) {act : Act setup.memory Θ}
    (hstep : s.stepAnyPeer setup act = some s') :
    (∀ fd, s.ends act s' fd = true → (s'.view fd).held = []) ↔ s.LeavesNone act := by
  cases act with
  | execute thread args =>
      cases hstep
      exact leavesNone_of_not_ends (fun fd => removed_of_exec (exec_execute thread args)) trivial
  | close fd =>
      cases hstep
      exact leavesNone_of_not_ends (fun fd => removed_of_exec rfl) trivial
  | runTask fd =>
      cases htasks : s.tasks fd with
      | nil => simp [System.stepAnyPeer, System.step, htasks] at hstep
      | cons task tasks =>
          simp only [System.stepAnyPeer, System.step, htasks] at hstep
          simp only [LeavesNone, htasks, List.head?_cons, Option.some.injEq,
            Option.isSome_iff_exists]
          cases task with
          | asyncWriteOnce promise args =>
              refine (h.leftBehind_iff (Task.op fd (.asyncWriteOnce promise args))
                (fun _ => rfl) hstep).trans ?_
              exact iff_of_true (fun _ _ hends => hends.elim) (fun h => by cases h)
          | close =>
              refine (h.leftBehind_iff (Task.op fd .close) (fun _ => rfl) hstep).trans ?_
              have hunwritten : s.unwritten fd =
                  (s.clients fd).promises ++ postedPromises tasks := by
                rw [unwritten, htasks]
                rfl
              rw [hunwritten]
              constructor
              · rintro hnone - ⟨conn, hconn⟩
                exact hnone conn hconn trivial
              · exact fun hnone conn hconn _ => hnone rfl ⟨conn, hconn⟩
  | handleRead fd outcome =>
      have hread : s.handleRead setup.memory fd outcome = some s' := hstep
      cases outcome with
      | bytes chunk =>
          exact leavesNone_of_not_ends (fun fd' => (h.handleRead_bytes hread fd').1) trivial
      | zero =>
          rw [handleRead_zero setup.memory] at hread
          have hremoved : ∀ fd', s.removed s' fd' = false :=
            fun fd' => removed_of_not_ends _ h.kept (fun _ => id) hread
          simp only [ends, toldEnd, hremoved, Bool.or_false, LeavesNone, Bool.and_eq_true,
            beq_iff_eq, ← h.held_zero hread]
          constructor
          · exact fun hnone htold => hnone fd ⟨rfl, htold⟩
          · rintro hnone fd' ⟨rfl, htold⟩
            exact hnone htold
      | again =>
          rw [handleRead_nothing setup.memory (Or.inl rfl)] at hread
          exact leavesNone_of_not_ends
            (fun fd' => removed_of_not_ends _ h.kept (fun _ => id) hread) trivial
      | error =>
          rw [handleRead_nothing setup.memory (Or.inr rfl)] at hread
          refine (h.event_leftBehind_iff _ (fun _ => rfl) hread).trans ?_
          simp only [LeavesNone, Option.isSome_iff_exists]
          constructor
          · rintro hnone ⟨conn, hconn⟩
            exact hnone conn hconn trivial
          · exact fun hnone conn hconn _ => hnone ⟨conn, hconn⟩
  | handleWrite fd outcome =>
      have hevent : s.run (.handleWrite fd outcome) = some s' := hstep
      cases outcome with
      | accepted | again =>
          exact leavesNone_of_not_ends
            (fun fd' => removed_of_not_ends _ h.kept (fun _ => id) hevent) trivial
      | error =>
          refine (h.event_leftBehind_iff _ (fun _ => rfl) hevent).trans ?_
          constructor
          · intro hnone conn hconn hiovs
            refine hnone conn hconn fun conn' hconn' => ?_
            cases hconn'
            exact hiovs
          · exact fun hnone conn hconn hends => hnone conn hconn (hends conn rfl)
  | hangUp fd =>
      refine (h.event_leftBehind_iff (.close fd) (fun _ => rfl) hstep).trans ?_
      simp only [LeavesNone, Option.isSome_iff_exists]
      constructor
      · rintro hnone ⟨conn, hconn⟩
        exact hnone conn hconn trivial
      · exact fun hnone conn hconn _ => hnone ⟨conn, hconn⟩
  | answer fd reply => cases hstep

/-- What has been returned or resolved stays so. -/
theorem Held.grows (h : s.Held) {act : Act setup.memory Θ}
    (hstep : s.stepAnyPeer setup act = some s') :
    s.resolved <+: s'.resolved := by
  cases act with
  | execute thread args =>
      cases hstep
      unfold System.execute
      extract_lets
      split
      · exact List.prefix_append _ _
      · exact List.prefix_rfl
  | close fd =>
      cases hstep
      exact List.prefix_rfl
  | runTask fd =>
      cases htasks : s.tasks fd with
      | nil => simp [System.stepAnyPeer, System.step, htasks] at hstep
      | cons task tasks =>
          simp only [System.stepAnyPeer, System.step, htasks] at hstep
          cases task with
          | asyncWriteOnce promise args =>
              exact (stepped_run (Task.op fd (.asyncWriteOnce promise args)) h.kept
                hstep).resolved
          | close => exact (stepped_run (Task.op fd .close) h.kept hstep).resolved
  | handleRead fd outcome =>
      have hread : s.handleRead setup.memory fd outcome = some s' := hstep
      cases outcome with
      | bytes chunk => exact (h.handleRead_bytes hread fd).2
      | zero =>
          rw [handleRead_zero setup.memory] at hread
          exact (stepped_event _ h.kept hread).resolved
      | again =>
          rw [handleRead_nothing setup.memory (Or.inl rfl)] at hread
          exact (stepped_event _ h.kept hread).resolved
      | error =>
          rw [handleRead_nothing setup.memory (Or.inr rfl)] at hread
          exact (stepped_event _ h.kept hread).resolved
  | handleWrite fd outcome =>
      exact (stepped_event (.handleWrite fd outcome) h.kept hstep).resolved
  | hangUp fd => exact (stepped_event (.close fd) h.kept hstep).resolved
  | answer fd reply => cases hstep

end Steps

end System

/-- A client, with the promises whose connection has ended. -/
structure Watched (Θ : Type*) where
  system : System Θ
  due : List ℕ

namespace Watched

open Redis.System

variable {Θ : Type*}

def initial (setup : Setup) : Watched Θ := { system := .initial setup, due := [] }

def step [DecidableEq Θ] (setup : Setup) (w : Watched Θ) (act : Act setup.memory Θ) :
    Option (Watched Θ) :=
  (w.system.stepAnyPeer setup act).map fun s =>
    { system := s, due := w.due ++ w.system.newlyDue act s }

/-- Every promise whose connection has ended is resolved. -/
def NoneHanging (w : Watched Θ) : Prop :=
  ∀ promise ∈ w.due, promise ∈ w.system.resolved.map Prod.fst

section Steps

variable [DecidableEq Θ] {setup : Setup} {w w' : Watched Θ} {act : Act setup.memory Θ}

/-- A step keeps every promise from hanging if and only if it leaves none behind. -/
theorem noneHanging_step_iff (hheld : w.system.Held) (hnone : w.NoneHanging)
    (hstep : w.step setup act = some w') : w'.NoneHanging ↔ w.system.LeavesNone act := by
  obtain ⟨s', hs', rfl⟩ := Option.map_eq_some_iff.mp hstep
  have honce := (hheld.stepAnyPeer setup act hs').once
  obtain ⟨out, hout⟩ := hheld.grows hs'
  rw [← hheld.leavesNone_iff hs']
  constructor
  · intro hnone' fd hends
    refine honce.all_settled_iff.mp fun promise howner => hnone' promise ?_
    exact List.mem_append_right _ (mem_newlyDue.mpr ⟨fd, howner, hends⟩)
  · intro hempty promise hdue
    rcases List.mem_append.mp hdue with hold | hnew
    · show promise ∈ s'.resolved.map Prod.fst
      rw [← hout, List.map_append]
      exact List.mem_append_left _ (hnone promise hold)
    · obtain ⟨fd, howner, hends⟩ := mem_newlyDue.mp hnew
      exact honce.all_settled_iff.mpr (hempty fd hends) promise howner

end Steps

/-- No promise is left hanging on a dead connection if and only if the steps that end
a connection leave none behind. -/
theorem noneHanging_iff [DecidableEq Θ] (setup : Setup) (acts : List (Act setup.memory Θ)) :
    Always (step setup) NoneHanging (initial setup) acts ↔
      EachStep (step setup) (fun w act => w.system.LeavesNone act) (initial setup) acts := by
  have hinitial : (initial setup : Watched Θ).NoneHanging := List.forall_mem_nil _
  refine always_iff_eachStep (I := fun w : Watched Θ => w.system.Held ∧ w.NoneHanging) ?_
    (fun _ h => h.2) ?_ ⟨held_initial setup, hinitial⟩ acts
  · rintro w act w' ⟨hheld, hnone⟩ hleaves hstep
    refine ⟨?_, (noneHanging_step_iff hheld hnone hstep).mpr hleaves⟩
    obtain ⟨s', hs', rfl⟩ := Option.map_eq_some_iff.mp hstep
    exact hheld.stepAnyPeer setup act hs'
  · rintro w act w' ⟨hheld, hnone⟩ hstep hnone'
    exact (noneHanging_step_iff hheld hnone hstep).mp hnone'

/-- The command is sent, the peer closes without an answer, and then the client closes. -/
def finRun : List (Act oneSocket.memory Unit) :=
  [.execute () [[80]], .runTask 5, .handleWrite 5 (.accepted 11), .handleRead 5 .zero, .close 5,
    .runTask 5]

theorem not_noneHanging_finRun :
    ¬ Always (step oneSocket) NoneHanging (initial oneSocket) finRun := by
  intro halways
  have hrun : (run (step oneSocket) (initial oneSocket) finRun).map
      (fun w => (w.due, w.system.resolved.map Prod.fst)) = some ([0, 0], []) := by
    decide +kernel
  obtain ⟨w, hw, hend⟩ := Option.map_eq_some_iff.mp hrun
  obtain ⟨hdue, hresolved⟩ := Prod.mk.inj hend
  have hnone := halways.last hw 0
  rw [hdue, hresolved] at hnone
  exact absurd (hnone List.mem_cons_self) List.not_mem_nil

end Watched

end SimpleRedis.Redis
