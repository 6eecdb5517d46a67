import SimpleRedis.WriteLife

/-!
# Connections whose bytes are all sent

The loop of `handleWrite` that takes entries off the queue counts bytes, so it stops
behind the last entry that had one: empty entries there stay, and if nothing but empty
entries is left there is no byte for `writev` and `handleWrite` returns at once. A write
that sends everything drains the queue when the last entry it covers has a byte, and the
entries behind, if there are any, have one too.
-/
namespace SimpleRedis.Net

open TransitionRun Connection

variable {F : Type*}

/-- The call of a write callback. -/
def Effect.call? : Effect F → Option (WriteCallback F × Bool)
  | .wrote _ callback success => some (callback, success)
  | _ => none

/-- `writev` accepts all the bytes it is offered, or there are none. -/
def Sends (conn : Connection F) (outcome : WriteOutcome) : Prop :=
  conn.iovs = [] ∨ outcome = .accepted conn.iovs.flatten.length

/-- The loop waits for output on a connection that has entries and no byte to send. -/
def Stuck (s : EventLoopThread F) (fd : Fd) : Prop :=
  ∃ conn events, s.connections fd = some conn ∧ s.epoll fd = some events ∧
    events.output = true ∧ conn.writeQueue ≠ [] ∧ unsentOf conn.writeQueue = []

/-- What `handleWrite` should do to the connection `conn`. -/
structure Drained (fd : Fd) (conn : Connection F) (outcome : WriteOutcome)
    (out : EventLoopThread F × List (Effect F)) : Prop where
  left : Sends conn outcome → ∃ conn', out.1.connections fd = some conn' ∧
    conn'.writeQueue = conn.writeQueue.drop (min conn.writeQueue.length iovMax) ∧
    out.2.filterMap Effect.call? =
      ((conn.writeQueue.take (min conn.writeQueue.length iovMax)).filterMap (·.callback)).map
        (·, true) ∧
    (conn'.writeQueue = [] → ∀ events, out.1.epoll fd = some events → events.output = false)
  moving : ¬ Stuck out.1 fd

/-- The last entry that one `writev` covers has a byte, and so have the entries behind it,
if there are any and the loop waits for output. -/
structure EndsInBytes (conn : Connection F) (events : Option Interest) : Prop where
  last : ∃ m, conn.window.getLast? = some m ∧ m.unsent ≠ []
  behind : (events.any (·.output)) = true → conn.writeQueue.drop iovMax ≠ [] →
    unsentOf (conn.writeQueue.drop iovMax) ≠ []

section Finish

variable {window : List (WriteMetaInfo F)} {n : ℕ}

theorem finish_zero (queue : List (WriteMetaInfo F)) : finish 0 queue = (queue, []) := by
  cases queue with
  | nil => rfl
  | cons m queue => rw [finish, if_pos rfl]

theorem unsent_skip (m : WriteMetaInfo F) (h : n < m.unsent.length) :
    (m.skip n h).unsent = m.unsent.drop n := List.drop_drop.symm

/-- The bytes that `finish` leaves are those that were not accepted. -/
theorem unsentOf_finish (queue : List (WriteMetaInfo F)) :
    unsentOf (finish n queue).1 = (unsentOf queue).drop n := by
  induction queue generalizing n with
  | nil => exact List.drop_nil.symm
  | cons m queue ih =>
      rw [finish]
      by_cases hzero : n = 0
      · rw [if_pos hzero, hzero, List.drop_zero]
      · rw [if_neg hzero]
        by_cases hwhole : m.unsent.length ≤ n
        · rw [dif_pos hwhole, unsentOf_cons, List.drop_append, List.drop_of_length_le hwhole]
          exact ih
        · rw [dif_neg hwhole, unsentOf_cons, unsentOf_cons, unsent_skip,
            List.drop_append_of_le_length (by omega)]

/-- Bytes of the window are enough for its entries if the last one of them has some. -/
theorem finish_window (rest : List (WriteMetaInfo F))
    (hlast : ∃ m, window.getLast? = some m ∧ m.unsent ≠ []) :
    finish (unsentOf window).length (window ++ rest) =
      (rest, window.filterMap (·.callback)) := by
  induction window with
  | nil =>
      obtain ⟨m, hm, -⟩ := hlast
      cases hm
  | cons m window ih =>
      have hlen : (unsentOf (m :: window)).length = m.unsent.length + (unsentOf window).length := by
        rw [unsentOf_cons, List.length_append]
      have hcalls : (m :: window).filterMap (·.callback) =
          m.callback.toList ++ window.filterMap (·.callback) := by
        cases h : m.callback <;> simp [h]
      have hpos : (unsentOf (m :: window)).length ≠ 0 := by
        obtain ⟨m', hm', hunsent⟩ := hlast
        intro hzero
        have hmem := List.mem_of_getLast? hm'
        have hnil := List.length_eq_zero_iff.mp hzero
        exact hunsent (List.flatten_eq_nil_iff.mp hnil _ (List.mem_map_of_mem hmem))
      rw [List.cons_append, finish, if_neg hpos, dif_pos (by omega), hcalls, hlen,
        Nat.add_sub_cancel_left]
      cases window with
      | nil => simp [unsentOf, finish_zero]
      | cons m' window =>
          rw [List.getLast?_cons_cons] at hlast
          rw [ih hlast]

/-- Bytes of the window do not finish entries behind it. -/
theorem length_finish (window rest : List (WriteMetaInfo F)) (h : n ≤ (unsentOf window).length) :
    rest.length ≤ (finish n (window ++ rest)).1.length := by
  induction window generalizing n with
  | nil =>
      have hzero : n = 0 := Nat.le_zero.mp h
      rw [hzero, finish_zero, List.nil_append]
  | cons m window ih =>
      rw [unsentOf_cons, List.length_append] at h
      rw [List.cons_append, finish]
      split
      · simp only [List.length_cons, List.length_append]
        omega
      · split
        · exact ih (by omega)
        · simp only [List.length_cons, List.length_append]
          omega

end Finish

section Window

variable {conn : Connection F}

theorem window_append_drop (conn : Connection F) :
    conn.window ++ conn.writeQueue.drop iovMax = conn.writeQueue := List.take_append_drop _ _

theorem take_min (queue : List (WriteMetaInfo F)) :
    queue.take (min queue.length iovMax) = queue.take iovMax := by
  rcases Nat.le_total queue.length iovMax with hle | hle
  · rw [Nat.min_eq_left hle, List.take_length, List.take_of_length_le hle]
  · rw [Nat.min_eq_right hle]

theorem drop_min (queue : List (WriteMetaInfo F)) :
    queue.drop (min queue.length iovMax) = queue.drop iovMax := by
  rcases Nat.le_total queue.length iovMax with hle | hle
  · rw [Nat.min_eq_left hle, List.drop_length, List.drop_of_length_le hle]
  · rw [Nat.min_eq_right hle]

theorem iovs_eq_nil_iff : conn.iovs = [] ↔ unsentOf conn.window = [] := by
  rw [← flatten_iovs]
  refine ⟨fun h => by rw [h, List.flatten_nil], fun h => ?_⟩
  rw [List.flatten_eq_nil_iff] at h
  refine List.eq_nil_iff_forall_not_mem.mpr fun bytes hbytes => ?_
  have hne := (List.mem_filter.mp hbytes).2
  rw [h bytes hbytes] at hne
  simp at hne

/-- A non-empty queue is longer than what lies behind its window. -/
theorem drop_ne_self (hqueue : conn.writeQueue ≠ []) :
    conn.writeQueue ≠ conn.writeQueue.drop iovMax := by
  intro heq
  have hlen := congrArg List.length heq
  have hpos := List.length_pos_iff.mpr hqueue
  rw [List.length_drop, iovMax] at hlen
  omega

/-- Everything that was offered is sent, and the last entry had a byte. -/
theorem finish_offered (hlast : ∃ m, conn.window.getLast? = some m ∧ m.unsent ≠ []) :
    finish conn.iovs.flatten.length conn.writeQueue =
      (conn.writeQueue.drop iovMax, conn.window.filterMap (·.callback)) := by
  have hfinish := finish_window (conn.writeQueue.drop iovMax) hlast
  rwa [window_append_drop, ← flatten_iovs] at hfinish

/-- The entries of the window leave only if the last of them has a byte. -/
theorem last_of_finish (hqueue : conn.writeQueue ≠ [])
    (h : (finish conn.iovs.flatten.length conn.writeQueue).1 = conn.writeQueue.drop iovMax) :
    ∃ m, conn.window.getLast? = some m ∧ m.unsent ≠ [] := by
  have hwindow : conn.window ≠ [] := by
    intro hnil
    have happend := window_append_drop conn
    rw [hnil, List.nil_append] at happend
    exact drop_ne_self hqueue happend.symm
  refine ⟨_, List.getLast?_eq_some_getLast hwindow, fun hempty => ?_⟩
  have hsplit := List.dropLast_concat_getLast hwindow
  have hbytes : unsentOf conn.window = unsentOf conn.window.dropLast := by
    conv_lhs => rw [← hsplit, unsentOf_append, unsentOf_cons, hempty]
    simp [unsentOf]
  have hfinish := length_finish conn.window.dropLast
    ([conn.window.getLast hwindow] ++ conn.writeQueue.drop iovMax)
    (n := conn.iovs.flatten.length) (by rw [flatten_iovs, hbytes])
  rw [← List.append_assoc, hsplit, window_append_drop, h, List.length_append,
    List.length_singleton] at hfinish
  omega

end Window

section Handler

variable {s : EventLoopThread F} {fd : Fd} {conn : Connection F}

theorem exec_no_iovs (hconn : s.connections fd = some conn) (hiovs : conn.iovs = [])
    (outcome : WriteOutcome) : s.exec (.handleWrite fd outcome) = (s, []) := by
  simp only [EventLoopThread.exec, EventLoopThread.handleWrite, hconn, hiovs, if_true]

theorem exec_again (hconn : s.connections fd = some conn) :
    s.exec (.handleWrite fd .again) = (s, []) := by
  simp only [EventLoopThread.exec, EventLoopThread.handleWrite, hconn]
  split <;> rfl

theorem exec_error (hs : s.Plain) (hconn : s.connections fd = some conn) (hiovs : conn.iovs ≠ []) :
    (s.exec (.handleWrite fd .error)).1.connections fd = none := by
  rw [EventLoopThread.exec_put _ (hs.plainAt _), Op.fd, EventLoopThread.connections_put, hconn]
  simp only [stepConnection, if_neg hiovs]

theorem calls_sent (calls : List (WriteCallback F)) {low : List (Effect F)}
    (hlow : ∀ effect ∈ low, effect.Quiet fd) (bytes : List CChar) :
    (Effect.accepted fd bytes :: (calls.map (Effect.wrote fd · true) ++ low)).filterMap
      Effect.call? = calls.map (·, true) := by
  have hnone : low.filterMap Effect.call? = [] := by
    refine List.filterMap_eq_nil_iff.mpr fun effect heffect => ?_
    have hquiet := (hlow effect heffect).2
    cases effect <;> first | rfl | cases hquiet
  rw [List.filterMap_cons, List.filterMap_append, hnone, List.append_nil, List.filterMap_map]
  exact congrFun List.filterMap_eq_map calls

/-- What `handleWrite` leaves when `writev` has accepted `n` bytes. -/
theorem exec_accepted (hs : s.Plain) (hconn : s.connections fd = some conn)
    (hiovs : conn.iovs ≠ []) (n : ℕ) :
    ∃ conn', (s.exec (.handleWrite fd (.accepted n))).1.connections fd = some conn' ∧
      conn'.writeQueue = (finish n conn.writeQueue).1 ∧
      (s.exec (.handleWrite fd (.accepted n))).2.filterMap Effect.call? =
        (finish n conn.writeQueue).2.map (·, true) ∧
      (s.exec (.handleWrite fd (.accepted n))).1.epoll fd =
        if (finish n conn.writeQueue).1 = [] then
          EventLoopThread.drainedEvents (conn.sent n) (s.epoll fd)
        else s.epoll fd := by
  rw [EventLoopThread.exec_put _ (hs.plainAt _), EventLoopThread.exec_effects _ (hs.plainAt _),
    Op.fd, EventLoopThread.connections_put, EventLoopThread.epoll_put, hconn]
  simp only [stepConnection, stepEvents, if_neg hiovs]
  exact ⟨_, rfl, writeQueue_checkLowLevel fd (conn.sent n),
    calls_sent _ (quiet_checkLowLevel fd (conn.sent n)) _, trivial⟩

theorem output_drainedEvents {events : Option Interest} {ev : Interest}
    (h : EventLoopThread.drainedEvents conn events = some ev) : ev.output = false := by
  unfold EventLoopThread.drainedEvents at h
  split at h
  · cases h
  · split at h
    · obtain ⟨_, -, rfl⟩ := Option.map_eq_some_iff.mp h
      rfl
    · cases h

end Handler

section Drained

variable {s : EventLoopThread F} {fd : Fd} {conn : Connection F} {outcome : WriteOutcome}

/-- A write that does not send everything leaves a byte or no connection. -/
theorem not_stuck_of_not_sends (hs : s.Plain) (hconn : s.connections fd = some conn)
    (hpossible : s.possible (.handleWrite fd outcome) = true) (hsends : ¬ Sends conn outcome) :
    ¬ Stuck (s.exec (.handleWrite fd outcome)).1 fd := by
  rintro ⟨conn', events, hconn', -, -, -, hbytes⟩
  rw [Sends, not_or] at hsends
  obtain ⟨hiovs, hpart⟩ := hsends
  obtain ⟨behind, hprefix⟩ := iovs_prefix conn
  cases outcome with
  | again =>
      rw [exec_again hconn, hconn] at hconn'
      cases hconn'
      rw [hbytes, List.append_eq_nil_iff, flatten_iovs] at hprefix
      exact hiovs (iovs_eq_nil_iff.mpr hprefix.1)
  | error =>
      rw [exec_error hs hconn hiovs] at hconn'
      cases hconn'
  | accepted n =>
      rw [EventLoopThread.possible_accepted_iff hconn] at hpossible
      obtain ⟨conn'', hconn'', hqueue, -⟩ := exec_accepted hs hconn hiovs n
      cases hconn''.symm.trans hconn'
      rw [hqueue, unsentOf_finish, ← hprefix, List.drop_eq_nil_iff, List.length_append] at hbytes
      have hne : n ≠ conn.iovs.flatten.length := fun heq => hpart (congrArg _ heq)
      omega

/-- Without a byte to offer the entries stay. -/
theorem not_drained_of_no_iovs (hconn : s.connections fd = some conn)
    (hqueue : conn.writeQueue ≠ []) (hiovs : conn.iovs = []) :
    ¬ Drained fd conn outcome (s.exec (.handleWrite fd outcome)) := by
  intro h
  obtain ⟨conn', hconn', hleft, -⟩ := h.left (Or.inl hiovs)
  rw [exec_no_iovs hconn hiovs, hconn] at hconn'
  cases hconn'
  rw [drop_min] at hleft
  exact drop_ne_self hqueue hleft

theorem EndsInBytes.iovs_ne_nil {events : Option Interest} (h : EndsInBytes conn events) :
    conn.iovs ≠ [] := by
  obtain ⟨m, hm, hunsent⟩ := h.last
  intro hiovs
  have hnil := iovs_eq_nil_iff.mp hiovs
  exact hunsent (List.flatten_eq_nil_iff.mp hnil _ (List.mem_map_of_mem (List.mem_of_getLast? hm)))

/-- A write that sends everything it offers. -/
theorem drained_accepted_iff (hs : s.Plain) (hconn : s.connections fd = some conn)
    (hqueue : conn.writeQueue ≠ []) (hiovs : conn.iovs ≠ []) :
    Drained fd conn (.accepted conn.iovs.flatten.length)
        (s.exec (.handleWrite fd (.accepted conn.iovs.flatten.length))) ↔
      EndsInBytes conn (s.epoll fd) := by
  obtain ⟨conn', hconn', hleft, hcalls, hevents⟩ :=
    exec_accepted hs hconn hiovs conn.iovs.flatten.length
  constructor
  · intro h
    obtain ⟨conn'', hconn'', hdrop, -⟩ := h.left (Or.inr rfl)
    cases hconn'.symm.trans hconn''
    rw [drop_min] at hdrop
    refine ⟨last_of_finish hqueue (hleft.symm.trans hdrop), fun harmed hbehind hbytes => ?_⟩
    obtain ⟨events, hev, hout⟩ := (Option.any_eq_true _ _).mp harmed
    rw [if_neg (by rwa [← hleft, hdrop])] at hevents
    exact h.moving ⟨conn', events, hconn', hevents.trans hev, hout, by rwa [hdrop],
      by rwa [hdrop]⟩
  · intro h
    have hfinish := finish_offered h.last
    rw [hfinish] at hleft hcalls hevents
    refine ⟨fun _ => ⟨conn', hconn', ?_, ?_, fun hempty ev hev => ?_⟩, ?_⟩
    · rw [drop_min, hleft]
    · rw [take_min, hcalls]
      rfl
    · rw [if_pos (hleft.symm.trans hempty), hev] at hevents
      exact output_drainedEvents hevents.symm
    · rintro ⟨conn'', events, hconn'', hev, hout, hne, hbytes⟩
      cases hconn'.symm.trans hconn''
      rw [hleft] at hne hbytes
      rw [if_neg hne, hev] at hevents
      exact h.behind (by rw [← hevents]; exact hout) hne hbytes

/-- Every call of `handleWrite` on a connection with entries, in every state that the loop
can reach: one that sends everything drains the queue in exactly the cases in which the
window ends with bytes and what lies behind it has some. -/
theorem drained_iff_endsInBytes {e : Execution F} (h : Reachable Execution.step Execution.fresh e)
    (hconn : e.loop.connections fd = some conn) (hqueue : conn.writeQueue ≠ [])
    (hpossible : e.loop.possible (.handleWrite fd outcome) = true) :
    Drained fd conn outcome (e.loop.exec (.handleWrite fd outcome)) ↔
      (Sends conn outcome → EndsInBytes conn (e.loop.epoll fd)) := by
  have hkept : AllKept e := h.invariant (fun _ _ _ he => allKept_step he) allKept_fresh
  by_cases hsends : Sends conn outcome
  · rw [forall_prop_of_true hsends]
    by_cases hiovs : conn.iovs = []
    · exact iff_of_false (not_drained_of_no_iovs hconn hqueue hiovs) fun hends =>
        hends.iovs_ne_nil hiovs
    · obtain rfl := hsends.resolve_left hiovs
      exact drained_accepted_iff hkept.plain hconn hqueue hiovs
  · refine iff_of_true ⟨fun h => absurd h hsends, ?_⟩ fun h => absurd h hsends
    exact not_stuck_of_not_sends hkept.plain hconn hpossible hsends

/-- A buffer of two bytes behind an empty one. -/
theorem drained_iff_endsInBytes_two :
    ∃ (e : Execution Unit) (conn : Connection Unit),
      run Execution.step Execution.fresh
        [.writeOnce 3 0 (some ()) [], .writeOnce 3 0 (some ()) [1, 2]] = some e ∧
      e.loop.connections 3 = some conn ∧
      (Drained 3 conn (.accepted 2) (e.loop.exec (.handleWrite 3 (.accepted 2))) ↔
        (Sends conn (.accepted 2) → EndsInBytes conn (e.loop.epoll 3))) :=
  ⟨_, _, rfl, rfl, drained_iff_endsInBytes
    ⟨[.writeOnce 3 0 (some ()) [], .writeOnce 3 0 (some ()) [1, 2]], rfl⟩ rfl
    (List.cons_ne_nil _ _) rfl⟩

/-- An empty buffer is written: its entry stays, with its callback, and the loop waits for
output on. -/
theorem not_drained_empty_write :
    ¬ ∀ (e : Execution Unit) (conn : Connection Unit) (outcome : WriteOutcome),
      Reachable Execution.step Execution.fresh e → e.loop.connections 3 = some conn →
      conn.writeQueue ≠ [] → e.loop.possible (.handleWrite 3 outcome) = true →
      Drained 3 conn outcome (e.loop.exec (.handleWrite 3 outcome)) := by
  intro h
  have hdrained := h _ _ .again ⟨[.writeOnce 3 0 (some ()) []], rfl⟩ rfl
    (List.cons_ne_nil _ _) rfl
  exact hdrained.moving ⟨_, epollOut, rfl, rfl, rfl, List.cons_ne_nil _ _, rfl⟩

end Drained

end SimpleRedis.Net
