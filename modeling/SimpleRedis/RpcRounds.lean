import SimpleRedis.RpcReadLoop

/-!
# The rounds of the read callback

`readLoop` is the `while` loop of the read callback as a function. Here the loop is
taken round by round, with its three ways on: it goes back to its head, it returns, or
it runs into the `assert(false)` behind the checks of the result. An error at the first
byte of a window moves the offset by nothing; but it leaves the parser at the start of
a message, and whoever looks for a start and finds it has used up a byte.
-/
namespace SimpleRedis.Rpc

/-- How a round of the `while` loop ends. -/
inductive Round where
  | again (offset : ℕ) (context : RpcContext) (dispatch : Dispatch)
  | returned (offset : ℕ) (context : RpcContext)
  | assertFails
  deriving DecidableEq, Repr

/-- A round of the `while` loop, from its head. -/
def round (buffer : List CChar) (size offset : ℕ) (ctx : RpcContext) : Round :=
  if offset < size then
    let parsed := parse buffer offset size ctx
    if parsed.2.result = .complete ∨ parsed.2.result = .error then
      .again (offset + parsed.1) {} ⟨offset + parsed.1, parsed.2⟩
    else if parsed.2.result = .waiting then .returned (offset + parsed.1) parsed.2
    else .assertFails
  else .returned offset ctx

/-- The heads of the loop that one call of the callback passes. -/
inductive Head (buffer : List CChar) (size : ℕ) (ctx : RpcContext) : ℕ → RpcContext → Prop where
  | first : Head buffer size ctx 0 ctx
  | again {offset offset' : ℕ} {context context' : RpcContext} {dispatch : Dispatch}
      (h : Head buffer size ctx offset context)
      (hround : round buffer size offset context = .again offset' context' dispatch) :
      Head buffer size ctx offset' context'

/-- The loop with a bound on its rounds. -/
def loopRounds (buffer : List CChar) (size : ℕ) : ℕ → ℕ → RpcContext → Option ReadOutcome
  | 0, _, _ => none
  | n + 1, offset, ctx =>
      match round buffer size offset ctx with
      | .again offset ctx dispatch =>
          (loopRounds buffer size n offset ctx).map fun out =>
            { out with dispatched := dispatch :: out.dispatched }
      | .returned offset ctx => some { offset := offset, context := ctx, dispatched := [] }
      | .assertFails => none

section Rounds

variable {buffer : List CChar} {size offset : ℕ} {ctx : RpcContext}

/-- A call of `parse` that answers `WAITING` has consumed everything. -/
theorem parse_waiting (hsize : size ≤ buffer.length) (h : offset < size)
    (hwait : (parse buffer offset size ctx).2.result = .waiting) :
    offset + (parse buffer offset size ctx).1 = size := by
  rw [parse_window buffer h] at hwait ⊢
  obtain ⟨hrest, -⟩ := (parseLoop_append { ctx with result := .waiting } rfl
    ((buffer.take size).drop offset) []).1 hwait
  rw [hrest, List.length_drop, List.length_take, Nat.min_eq_left hsize, List.length_nil]
  omega

/-- The checks of the result leave nothing for the `assert(false)`. -/
theorem round_ne_assertFails : round buffer size offset ctx ≠ .assertFails := by
  unfold round
  split
  · extract_lets parsed
    cases parsed.2.result <;> simp
  · simp

theorem round_of_stop (h : offset < size)
    (hstop : (parse buffer offset size ctx).2.result = .complete ∨
      (parse buffer offset size ctx).2.result = .error) :
    round buffer size offset ctx = .again (offset + (parse buffer offset size ctx).1) {}
      ⟨offset + (parse buffer offset size ctx).1, (parse buffer offset size ctx).2⟩ := by
  simp only [round, if_pos h, if_pos hstop]

theorem round_of_waiting (h : offset < size)
    (hstop : ¬ ((parse buffer offset size ctx).2.result = .complete ∨
      (parse buffer offset size ctx).2.result = .error)) :
    round buffer size offset ctx = .returned (offset + (parse buffer offset size ctx).1)
      (parse buffer offset size ctx).2 := by
  have hwait : (parse buffer offset size ctx).2.result = .waiting := by
    cases hresult : (parse buffer offset size ctx).2.result with
    | waiting => rfl
    | complete => exact absurd (Or.inl hresult) hstop
    | error => exact absurd (Or.inr hresult) hstop
  simp only [round, if_pos h, if_neg hstop, if_pos hwait]

/-- Enough rounds give what `readLoop` gives. -/
theorem loopRounds_eq : ∀ n, rounds ((buffer.take size).drop offset).length ctx < n →
    loopRounds buffer size n offset ctx = some (readLoop buffer size offset ctx) := by
  induction offset, ctx using readLoop.induct buffer size with
  | case1 offset ctx hlt parsed hstop ih =>
      intro n h
      -- the bound decreases, also where the offset stays
      have hne : (parse buffer offset size ctx).2.result ≠ .waiting := by
        rcases hstop with h | h <;> rw [h] <;> decide
      have hdecrease : rounds ((buffer.take size).drop
          (offset + (parse buffer offset size ctx).1)).length {} <
          rounds ((buffer.take size).drop offset).length ctx := by
        rw [parse_rest buffer hlt]
        rw [parse_window buffer hlt] at hne
        exact rounds_decrease { ctx with result := .waiting } hne
      obtain ⟨m, rfl⟩ : ∃ m, n = m + 1 := ⟨n - 1, by omega⟩
      rw [loopRounds, round_of_stop hlt hstop, readLoop, dif_pos hlt]
      simp only [parsed] at hstop ih
      simp only [dif_pos hstop, ih m (by omega), Option.map_some]
  | case2 offset ctx hlt parsed hstop =>
      intro n h
      obtain ⟨m, rfl⟩ : ∃ m, n = m + 1 := ⟨n - 1, by omega⟩
      rw [loopRounds, round_of_waiting hlt hstop, readLoop, dif_pos hlt]
      simp only [parsed] at hstop
      simp only [dif_neg hstop]
  | case3 offset ctx hge =>
      intro n h
      obtain ⟨m, rfl⟩ : ∃ m, n = m + 1 := ⟨n - 1, by omega⟩
      have hround : round buffer size offset ctx = .returned offset ctx := by
        rw [round, if_neg hge]
      rw [loopRounds, hround, readLoop, dif_neg hge]

end Rounds

/-- The read loop always ends, and when it does it has consumed everything: two rounds
for each byte and two more are enough, the callback returns `size`, every call of `parse`
that answers `WAITING` has consumed all bytes, and the assertion is not reached. -/
theorem readCallback_consumes_all {buffer : List CChar} {size : ℕ} (hpos : 0 < size)
    (hsize : size ≤ buffer.length) (ctx : RpcContext) :
    (∀ n, 2 * size + 1 < n → ∃ out, loopRounds buffer size n 0 ctx = some out ∧
      out.offset = size) ∧
    (∀ offset context, Head buffer size ctx offset context →
      round buffer size offset context ≠ .assertFails ∧
        (offset < size → (parse buffer offset size context).2.result = .waiting →
          offset + (parse buffer offset size context).1 = size)) ∧
    (readCallback buffer size ctx).returned = size := by
  refine ⟨fun n hn => ?_, fun offset context _ => ⟨round_ne_assertFails, parse_waiting hsize⟩, ?_⟩
  · refine ⟨_, loopRounds_eq n ?_, ?_⟩
    · simp only [rounds, List.drop_zero, List.length_take, Nat.min_eq_left hsize]
      split <;> omega
    · rw [readLoop_eq_window buffer size 0 ctx (Nat.zero_le _) hsize]
  · rw [readCallback_eq_window hpos hsize]

/-- Bytes that end in errors at once, behind a request that breaks off. -/
theorem readCallback_consumes_all_errors :
    (∀ n, 2 * 5 + 1 < n → ∃ out, loopRounds (toChars [10, 10, 11, 7, 0]) 5 n 0
        { status := .eoc } = some out ∧ out.offset = 5) ∧
    (∀ offset context, Head (toChars [10, 10, 11, 7, 0]) 5 { status := .eoc } offset context →
      round (toChars [10, 10, 11, 7, 0]) 5 offset context ≠ .assertFails ∧
        (offset < 5 → (parse (toChars [10, 10, 11, 7, 0]) offset 5 context).2.result = .waiting →
          offset + (parse (toChars [10, 10, 11, 7, 0]) offset 5 context).1 = 5)) ∧
    (readCallback (toChars [10, 10, 11, 7, 0]) 5 { status := .eoc }).returned = 5 :=
  readCallback_consumes_all (by decide) (by decide) _

end SimpleRedis.Rpc
