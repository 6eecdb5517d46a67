import SimpleRedis.RpcResync

/-!
# The scratch buffer of the parse context

The vector `buffer` holds in turn the bytes of the id, a length byte and the bytes of the
parameter length. What it holds is decided by `status` alone, wherever a call of `parse` has
stopped: `WellFormed` says what for each status. The checks in the name and parameter states
that look at the buffer again never fire.
-/
namespace SimpleRedis.Rpc

open TransitionRun RpcContext

/-- What the reading side does to its context: a call of `parse`, and a new context behind a
message that is complete or in error. -/
inductive ContextUse where
  | parse (buffer : List CChar) (start stop : ℕ)
  | reset

namespace RpcContext

def step (ctx : RpcContext) : ContextUse → Option RpcContext
  | .parse buffer start stop => some (parse buffer start stop ctx).2
  | .reset => if ctx.result = .waiting then none else some {}

/-- A check of the `switch` that is there in case the buffer does not hold what it should
fires: it has no length byte or fewer than four, or announces less than is in the string. -/
def Guarded (ctx : RpcContext) : Prop :=
  match ctx.status with
  | .serviceName => ∀ l ∈ ctx.buffer.head?, (u8 l).toNat < ctx.serviceName.length
  | .funcName => ∀ l ∈ ctx.buffer.head?, (u8 l).toNat < ctx.funcName.length
  | .paramString =>
      ctx.buffer.length < 4 ∨ (readU32Be ctx.buffer).toNat < ctx.params.length
  | _ => False

end RpcContext

/-- The contexts with which a call of `parse` enters the `switch`. -/
def passes (ctx : RpcContext) : List CChar → List RpcContext
  | [] => []
  | c :: tail =>
      match _h : turn ctx c tail with
      | .next ctx' rest => ctx :: passes ctx' rest
      | .done _ _ => [ctx]
termination_by ctx.status.ahead
decreasing_by exact (turn_next _h).1

section Guards

variable {ctx : RpcContext}

theorem nameField_guarded {out : List CChar} {store : List CChar → RpcContext}
    {follow : ParserStatus} (h : ∀ l ∈ ctx.buffer.head?, (u8 l).toNat < out.length)
    (window : List CChar) : nameField ctx out store follow window = setError ctx window := by
  unfold nameField
  cases hbuffer : ctx.buffer with
  | nil => rfl
  | cons l ls =>
      have hlong : (u8 l).toNat < out.length := h l (by rw [hbuffer]; rfl)
      simp only [varField, readVar_eq, hlong, if_true]

/-- These are the branches that answer `ERROR` before a byte is read. -/
theorem turn_guarded (h : ctx.Guarded) (c : CChar) (tail : List CChar) :
    turn ctx c tail = setError ctx (c :: tail) := by
  unfold Guarded at h
  unfold turn
  cases hs : ctx.status <;> simp only [hs] at h ⊢
  case serviceName | funcName => exact nameField_guarded h (c :: tail)
  case paramString =>
    rcases h with hshort | hlong
    · rw [if_pos hshort]
    · split
      · rfl
      · simp only [varField, readVar_eq, hlong, if_true]

theorem Announced.not_guarded {buffer name : List CChar} (h : Announced buffer name) :
    ¬ ∀ l ∈ buffer.head?, (u8 l).toNat < name.length := by
  obtain ⟨l, rfl, hle⟩ := h
  intro hall
  have hlong := hall l rfl
  omega

theorem WellFormed.not_guarded (h : ctx.WellFormed) : ¬ ctx.Guarded := by
  unfold WellFormed at h
  unfold Guarded
  cases hs : ctx.status <;> simp only [hs] at h ⊢
  case serviceName => exact Announced.not_guarded h.2
  case funcName => exact Announced.not_guarded h.2.2
  case paramString =>
    obtain ⟨-, -, -, hlen, hle⟩ := h
    omega
  all_goals exact not_false

end Guards

section Invariant

variable {ctx ctx' : RpcContext} {c : CChar} {tail rest : List CChar}

theorem wellFormed_of_soa (h : ctx.status = .soa) : ctx.WellFormed := by
  unfold WellFormed
  rw [h]
  trivial

theorem turn_next_wellFormed (h : ctx.WellFormed) (ht : turn ctx c tail = .next ctx' rest) :
    ctx'.WellFormed :=
  (turn_next_covers ⟨h, [], by simp, rfl⟩ ht).1

theorem turn_done_wellFormed (h : ctx.WellFormed) (ht : turn ctx c tail = .done ctx' rest) :
    ctx'.WellFormed := by
  by_cases hwait : ctx'.result = .waiting
  · have hended := turn_done_ended ⟨h, [], by simp, rfl⟩ ht
    simp only [Ended, hwait] at hended
    exact hended.1
  · exact wellFormed_of_soa ((turn_done ht).1 hwait)

/-- One call of `parse`, whatever it answers. -/
theorem parse_wellFormed (h : ctx.WellFormed) (buffer : List CChar) (start stop : ℕ) :
    (parse buffer start stop ctx).2.WellFormed := by
  unfold parse
  split
  · exact h
  · exact parseLoop_induction (P := fun ctx _ => ctx.WellFormed)
      (Q := fun ctx _ => ctx.WellFormed) (fun _ h => h)
      (fun _ _ _ _ _ h ht => turn_next_wellFormed h ht)
      (fun _ _ _ _ _ h ht => turn_done_wellFormed h ht) _ _ h

theorem step_wellFormed {use : ContextUse} (h : ctx.WellFormed)
    (hstep : ctx.step use = some ctx') : ctx'.WellFormed := by
  cases use with
  | parse buffer start stop =>
      cases hstep
      exact parse_wellFormed h buffer start stop
  | reset =>
      simp only [RpcContext.step] at hstep
      split at hstep
      · cases hstep
      · cases hstep
        exact wellFormed_of_soa rfl

/-- The invariant holds at every pass of a call. -/
theorem passes_wellFormed (h : ctx.WellFormed) {window : List CChar} :
    ∀ pass ∈ passes ctx window, pass.WellFormed := by
  induction ctx, window using passes.induct with
  | case1 ctx =>
      rw [passes]
      exact List.forall_mem_nil _
  | case2 ctx c tail ctx' rest ht ih =>
      rw [passes]
      split
      · rename_i ctx'' rest' ht'
        cases ht.symm.trans ht'
        exact List.forall_mem_cons.mpr ⟨h, ih (turn_next_wellFormed h ht)⟩
      · exact List.forall_mem_singleton.mpr h
  | case3 ctx c tail ctx' rest ht =>
      rw [passes]
      split
      · rename_i ctx'' rest' ht'
        cases ht.symm.trans ht'
      · exact List.forall_mem_singleton.mpr h

end Invariant

/-- Whatever a context was given to parse before: its buffer and its strings hold what the
status says, and the next call of `parse` goes through none of the defensive branches. -/
theorem wellFormed_of_reachable {ctx : RpcContext} (h : Reachable RpcContext.step {} ctx) :
    ctx.WellFormed ∧
      ∀ window, ∀ pass ∈ passes { ctx with result := .waiting } window, ¬ pass.Guarded := by
  have hwf : ctx.WellFormed :=
    h.invariant (fun _ _ _ hwf => step_wellFormed hwf) (wellFormed_of_soa rfl)
  have hwait : ({ ctx with result := .waiting } : RpcContext).WellFormed := hwf
  exact ⟨hwf, fun window pass hpass =>
    WellFormed.not_guarded (passes_wellFormed hwait pass hpass)⟩

/-- The first call ends inside the id and the second inside the service name. -/
def cutTwice : List ContextUse :=
  [.parse (toChars [kMagic0, kMagic1, RequestType.request, 0, 0, 0]) 0 6,
    .parse (toChars [0, 0, 0, 0, 7, 0, 5, 72, 101]) 0 9]

theorem wellFormed_of_reachable_cut :
    ∃ ctx, run RpcContext.step {} cutTwice = some ctx ∧ ctx.status = .serviceName ∧
      ctx.buffer = toChars [5] ∧ ctx.serviceName = toChars [72, 101] ∧ ctx.WellFormed ∧
      ∀ window, ∀ pass ∈ passes { ctx with result := .waiting } window, ¬ pass.Guarded := by
  have hview : (run RpcContext.step {} cutTwice).map
      (fun ctx => (ctx.status, ctx.buffer, ctx.serviceName)) =
        some (.serviceName, toChars [5], toChars [72, 101]) := by decide +kernel
  obtain ⟨ctx, hrun, hctx⟩ := Option.map_eq_some_iff.mp hview
  simp only [Prod.mk.injEq] at hctx
  obtain ⟨hstatus, hbuffer, hname⟩ := hctx
  exact ⟨ctx, hrun, hstatus, hbuffer, hname, wellFormed_of_reachable ⟨_, hrun⟩⟩

end SimpleRedis.Rpc
