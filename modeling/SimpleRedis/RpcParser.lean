import SimpleRedis.RpcContext

/-!
# The resumable request parser

`parse` reads a window of a buffer and a context that an earlier call may have
left in the middle of a field. The model keeps the unread part of the window as
a list, so `i` is the length of what has been dropped from it. One pass through
the `switch` is a `Turn`: it goes back to the head of the `while` loop or
returns from `parse`.
-/
namespace SimpleRedis.Rpc

/-- How one pass through the `switch` ends. -/
inductive Turn where
  | next (ctx : RpcContext) (rest : List CChar)
  | done (ctx : RpcContext) (rest : List CChar)
  deriving DecidableEq, Repr

/-- The lambda `set_waiting`; `parsed` is what has been dropped from the window. -/
def setWaiting (ctx : RpcContext) (rest : List CChar) : Turn :=
  .done { ctx with result := .waiting } rest

/-- The lambda `set_error`. -/
def setError (ctx : RpcContext) (rest : List CChar) : Turn :=
  .done ({ ctx with result := .error, status := .soa } : RpcContext).resetMessage rest

/-- The loop of the lambda `read_fixed`: the buffer it leaves and what is unread. -/
def readFixed (need : ℕ) (buffer : List CChar) : List CChar → List CChar × List CChar
  | [] => (buffer, [])
  | c :: rest =>
      if buffer.length < need then readFixed need (buffer ++ [c]) rest else (buffer, c :: rest)

/-- The three ways out of the lambda `read_var`. -/
inductive VarField where
  | tooLong
  | partialField (out rest : List CChar)
  | full (out rest : List CChar)
  deriving DecidableEq, Repr

/-- The lambda `read_var`. -/
def readVar (len : ℕ) (out rest : List CChar) : VarField :=
  if len < out.length then .tooLong
  else
    let remain := len - out.length
    if 0 < remain then
      let take := min remain rest.length
      let out := out ++ rest.take take
      if out.length < len then .partialField out (rest.drop take)
      else .full out (rest.drop take)
    else .full out rest

/-- `std::memchr(data + i, c, end - i)` as an offset. -/
def memchr (rest : List CChar) (c : UInt8) : Option ℕ := rest.findIdx? fun x => u8 x == c

/-- The cases that collect a fixed number of bytes in `context.buffer`. -/
def fixedField (need : ℕ) (ctx : RpcContext) (rest : List CChar)
    (use : List CChar → List CChar → Turn) : Turn :=
  let filled := readFixed need ctx.buffer rest
  if filled.1.length < need then setWaiting { ctx with buffer := filled.1 } filled.2
  else use filled.1 filled.2

/-- The cases that collect `len` bytes in a string of the context; `store` is
the context with that string replaced, `follow` the state after the field. -/
def varField (ctx : RpcContext) (len : ℕ) (out : List CChar) (store : List CChar → RpcContext)
    (follow : ParserStatus) (rest : List CChar) : Turn :=
  match readVar len out rest with
  | .tooLong => setError ctx rest
  | .partialField out rest => setWaiting (store out) rest
  | .full out rest => .next { store out with buffer := [], status := follow } rest

/-- A variable field whose length is the one byte in `context.buffer`. -/
def nameField (ctx : RpcContext) (out : List CChar) (store : List CChar → RpcContext)
    (follow : ParserStatus) (rest : List CChar) : Turn :=
  match ctx.buffer with
  | [] => setError ctx rest
  | l :: _ => varField ctx (u8 l).toNat out store follow rest

/-- One pass through the `switch`. It is entered with `i < end`, so with a byte
`c` and the bytes `tail` unread, and the checks `i >= end` in the cases fail. -/
def turn (ctx : RpcContext) (c : CChar) (tail : List CChar) : Turn :=
  match ctx.status with
  | .soa =>
      match memchr (c :: tail) kMagic0 with
      | none => setWaiting ctx []
      | some p => .next { ctx with status := .sob } ((c :: tail).drop (p + 1))
  | .sob =>
      if u8 c ≠ kMagic1 then setError ctx (c :: tail)
      else .next { ctx.resetMessage with status := .type } tail
  | .type =>
      if u8 c ≠ RequestType.request then setError ctx tail
      else .next { ctx with status := .requestId } tail
  | .requestId =>
      fixedField 8 ctx (c :: tail) fun buffer rest =>
        let id := readU64Be buffer
        if id = 0 then setError ctx rest
        else .next { ctx with requestId := id, buffer := [], status := .errorCode } rest
  | .errorCode =>
      if u8 c ≠ 0 then setError ctx tail
      else .next { ctx with status := .serviceLen } tail
  | .serviceLen =>
      .next { ctx with serviceName := [], buffer := [c], status := .serviceName } tail
  | .serviceName =>
      nameField ctx ctx.serviceName ({ ctx with serviceName := · }) .funcLen (c :: tail)
  | .funcLen =>
      .next { ctx with funcName := [], buffer := [c], status := .funcName } tail
  | .funcName =>
      nameField ctx ctx.funcName ({ ctx with funcName := · }) .paramLen (c :: tail)
  | .paramLen =>
      fixedField 4 ctx (c :: tail) fun buffer rest =>
        .next { ctx with params := [], buffer := buffer, status := .paramString } rest
  | .paramString =>
      if ctx.buffer.length < 4 then setError ctx (c :: tail)
      else varField ctx (readU32Be ctx.buffer).toNat ctx.params ({ ctx with params := · }) .eob
        (c :: tail)
  | .eob =>
      if u8 c ≠ kMagic1 then setError ctx (c :: tail)
      else .next { ctx with status := .eoc } tail
  | .eoc =>
      if u8 c ≠ kMagic2 then setError ctx (c :: tail)
      else .done { ctx with status := .soa, result := .complete } tail

/-- The number of states that still lie ahead of a parser in this call. -/
def ParserStatus.ahead : ParserStatus → ℕ
  | .soa => 12 | .sob => 11 | .type => 10 | .requestId => 9 | .errorCode => 8
  | .serviceLen => 7 | .serviceName => 6 | .funcLen => 5 | .funcName => 4
  | .paramLen => 3 | .paramString => 2 | .eob => 1 | .eoc => 0

section Fields

theorem readFixed_eq (need : ℕ) (buffer xs : List CChar) :
    readFixed need buffer xs =
      (buffer ++ xs.take (need - buffer.length), xs.drop (need - buffer.length)) := by
  induction xs generalizing buffer with
  | nil => simp [readFixed]
  | cons x xs ih =>
      simp only [readFixed]
      split
      · have hk : need - buffer.length = (need - (buffer ++ [x]).length) + 1 := by
          simp only [List.length_append, List.length_singleton]; omega
        rw [ih, hk, List.take_succ_cons, List.drop_succ_cons, List.append_assoc]
        rfl
      · have hk : need - buffer.length = 0 := by omega
        simp [hk]

/-- A variable field is read like a fixed field that collects in `out`. -/
theorem readVar_eq (len : ℕ) (out xs : List CChar) :
    readVar len out xs =
      if len < out.length then .tooLong
      else if (readFixed len out xs).1.length < len then
        .partialField (readFixed len out xs).1 (readFixed len out xs).2
      else .full (readFixed len out xs).1 (readFixed len out xs).2 := by
  unfold readVar
  by_cases hlong : len < out.length
  · simp only [hlong, if_true]
  by_cases hfull : 0 < len - out.length
  · have htake : xs.take (min (len - out.length) xs.length) = xs.take (len - out.length) :=
      List.take_eq_take_min.symm
    have hdrop : xs.drop (min (len - out.length) xs.length) = xs.drop (len - out.length) := by
      rcases Nat.le_total (len - out.length) xs.length with h | h
      · rw [Nat.min_eq_left h]
      · rw [Nat.min_eq_right h, List.drop_length, List.drop_of_length_le h]
    simp only [hlong, if_false, hfull, if_true, readFixed_eq, htake, hdrop]
  · have hk : len - out.length = 0 := by omega
    have hlen : ¬ out.length < len := by omega
    simp only [hlong, if_false, readFixed_eq, hk, Nat.lt_irrefl, List.take_zero, List.drop_zero,
      List.append_nil, hlen]

/-- Nothing is lost: the field and the unread rest together keep every byte. -/
theorem readFixed_append_rest (need : ℕ) (buffer xs : List CChar) :
    (readFixed need buffer xs).1 ++ (readFixed need buffer xs).2 = buffer ++ xs := by
  rw [readFixed_eq, List.append_assoc, List.take_append_drop]

theorem readFixed_length_le {need : ℕ} {buffer : List CChar} (h : buffer.length ≤ need)
    (xs : List CChar) : (readFixed need buffer xs).1.length ≤ need := by
  simp only [readFixed_eq, List.length_append, List.length_take]
  omega

/-- A fixed field that is not complete has used up the window. -/
theorem readFixed_short {need : ℕ} {buffer xs : List CChar}
    (h : (readFixed need buffer xs).1.length < need) : (readFixed need buffer xs).2 = [] := by
  simp only [readFixed_eq, List.length_append, List.length_take] at h ⊢
  exact List.drop_of_length_le (by omega)

/-- A field that is short goes on where it stopped. -/
theorem readFixed_append_short {need : ℕ} {buffer xs : List CChar}
    (h : (readFixed need buffer xs).1.length < need) (ys : List CChar) :
    readFixed need buffer (xs ++ ys) = readFixed need (readFixed need buffer xs).1 ys := by
  simp only [readFixed_eq, List.length_append, List.length_take] at h ⊢
  have hxs : xs.length ≤ need - buffer.length := by omega
  rw [List.take_append, List.drop_append, List.take_of_length_le hxs,
    List.drop_of_length_le hxs, List.nil_append, List.append_assoc]
  have hk : need - buffer.length - xs.length =
      need - (buffer.length + min (need - buffer.length) xs.length) := by omega
  rw [hk]

/-- A field that is complete does not look at what follows. -/
theorem readFixed_append_full {need : ℕ} {buffer xs : List CChar}
    (h : ¬ (readFixed need buffer xs).1.length < need) (ys : List CChar) :
    readFixed need buffer (xs ++ ys) =
      ((readFixed need buffer xs).1, (readFixed need buffer xs).2 ++ ys) := by
  simp only [readFixed_eq, List.length_append, List.length_take] at h ⊢
  have hxs : need - buffer.length ≤ xs.length := by omega
  rw [List.take_append_of_le_length hxs, List.drop_append_of_le_length hxs]

theorem memchr_append_none {xs : List CChar} {m : UInt8} (h : memchr xs m = none)
    (ys : List CChar) : memchr (xs ++ ys) m = (memchr ys m).map (xs.length + ·) := by
  unfold memchr at h ⊢
  rw [List.findIdx?_append, h]
  simp [Nat.add_comm]

theorem memchr_append_some {xs : List CChar} {m : UInt8} {p : ℕ} (h : memchr xs m = some p)
    (ys : List CChar) : memchr (xs ++ ys) m = some p := by
  unfold memchr at h ⊢
  rw [List.findIdx?_append, h]
  rfl

theorem memchr_lt {xs : List CChar} {m : UInt8} {p : ℕ} (h : memchr xs m = some p) :
    p < xs.length := by
  unfold memchr at h
  exact (List.findIdx?_eq_some_iff_getElem.mp h).choose

end Fields

/-- The same outcome with more input behind it. -/
def Turn.extend (ys : List CChar) : Turn → Turn
  | .next ctx rest => .next ctx (rest ++ ys)
  | .done ctx rest => .done ctx (rest ++ ys)

/-- `parse` returns from this pass to wait for more input. -/
def Turn.Waits : Turn → Prop
  | .next _ _ => False
  | .done ctx _ => ctx.result = .waiting

@[simp] theorem done_waits (ctx : RpcContext) (rest : List CChar) :
    (Turn.done ctx rest).Waits ↔ ctx.result = .waiting := Iff.rfl

@[simp] theorem setWaiting_waits (ctx : RpcContext) (rest : List CChar) :
    (setWaiting ctx rest).Waits := rfl

@[simp] theorem setError_waits (ctx : RpcContext) (rest : List CChar) :
    ¬ (setError ctx rest).Waits := by simp [setError]

@[simp] theorem next_waits (ctx : RpcContext) (rest : List CChar) :
    ¬ (Turn.next ctx rest).Waits := id

section Append

variable {ctx : RpcContext} {xs : List CChar}

theorem fixedField_append {need : ℕ} {use : List CChar → List CChar → Turn} (ys : List CChar)
    (huse : ∀ buffer rest, use buffer (rest ++ ys) = (use buffer rest).extend ys)
    (h : ¬ (fixedField need ctx xs use).Waits) :
    fixedField need ctx (xs ++ ys) use = (fixedField need ctx xs use).extend ys := by
  unfold fixedField at h ⊢
  by_cases hf : (readFixed need ctx.buffer xs).1.length < need
  · simp [hf] at h
  · simp only [readFixed_append_full hf, hf, if_false, huse]

theorem fixedField_waits {need : ℕ} {use : List CChar → List CChar → Turn}
    (huse : ∀ buffer rest, ¬ (use buffer rest).Waits) (h : (fixedField need ctx xs use).Waits) :
    fixedField need ctx xs use =
        setWaiting { ctx with buffer := (readFixed need ctx.buffer xs).1 } [] ∧
      ∀ ys, fixedField need ctx (xs ++ ys) use =
        fixedField need { ctx with buffer := (readFixed need ctx.buffer xs).1 } ys use := by
  unfold fixedField at h ⊢
  by_cases hf : (readFixed need ctx.buffer xs).1.length < need
  · refine ⟨by simp only [hf, if_true, readFixed_short hf], fun ys => ?_⟩
    simp only [readFixed_append_short hf]
  · simp only [hf, if_false] at h
    exact absurd h (huse _ _)

theorem varField_append {len : ℕ} {out : List CChar} {store : List CChar → RpcContext}
    {follow : ParserStatus} (ys : List CChar)
    (h : ¬ (varField ctx len out store follow xs).Waits) :
    varField ctx len out store follow (xs ++ ys) =
      (varField ctx len out store follow xs).extend ys := by
  unfold varField at h ⊢
  by_cases hlong : len < out.length
  · simp only [readVar_eq, hlong, if_true]; rfl
  by_cases hf : (readFixed len out xs).1.length < len
  · simp [readVar_eq, hlong, hf] at h
  · simp only [readVar_eq, hlong, if_false, hf, readFixed_append_full hf]; rfl

theorem varField_waits {len : ℕ} {out : List CChar} {store : List CChar → RpcContext}
    {follow : ParserStatus} (h : (varField ctx len out store follow xs).Waits) :
    varField ctx len out store follow xs = setWaiting (store (readFixed len out xs).1) [] ∧
      ∀ ctx' ys, varField ctx len out store follow (xs ++ ys) =
        varField ctx' len (readFixed len out xs).1 store follow ys := by
  unfold varField at h ⊢
  by_cases hlong : len < out.length
  · simp [readVar_eq, hlong] at h
  by_cases hf : (readFixed len out xs).1.length < len
  · refine ⟨by simp only [readVar_eq, hlong, if_false, hf, if_true, readFixed_short hf], ?_⟩
    intro ctx' ys
    have hlong' : ¬ len < (readFixed len out xs).1.length := by omega
    simp only [readVar_eq, hlong, hlong', if_false, readFixed_append_short hf]
    by_cases hf' : (readFixed len (readFixed len out xs).1 ys).1.length < len
    · simp only [hf', if_true]
    · simp only [hf', if_false]
  · simp [readVar_eq, hlong, hf] at h

/-- A pass that does not wait never looks behind its window. -/
theorem turn_append (c : CChar) (tail ys : List CChar) (h : ¬ (turn ctx c tail).Waits) :
    turn ctx c (tail ++ ys) = (turn ctx c tail).extend ys := by
  unfold turn at h ⊢
  cases hs : ctx.status <;> simp only [hs, ← List.cons_append] at h ⊢
  case soa =>
    cases hm : memchr (c :: tail) kMagic0 with
    | none => simp [hm] at h
    | some p =>
        rw [memchr_append_some hm]
        simp only [Turn.extend, List.drop_append_of_le_length (memchr_lt hm)]
  case requestId =>
    exact fixedField_append ys (fun buffer rest => by split <;> rfl) h
  case paramLen => exact fixedField_append ys (fun buffer rest => rfl) h
  case serviceName | funcName =>
    unfold nameField at h ⊢
    cases hb : ctx.buffer with
    | nil => rfl
    | cons l ls =>
        simp only [hb] at h
        exact varField_append ys h
  case paramString =>
    split
    · rfl
    · rename_i hlen
      simp only [hlen, if_false] at h
      exact varField_append ys h
  case serviceLen | funcLen => rfl
  all_goals split <;> rfl

/-- A pass that waits has used up its window, and the next call goes on as if
the window had not ended. -/
theorem turn_waits (hw : ctx.result = .waiting) {c : CChar} {tail : List CChar}
    (h : (turn ctx c tail).Waits) :
    ∃ ctx', turn ctx c tail = .done ctx' [] ∧
      ∀ d ys, turn ctx c (tail ++ d :: ys) = turn ctx' d ys := by
  obtain ⟨status, result, id, service, func, params, buffer⟩ := ctx
  subst hw
  cases status
  case soa =>
    cases hm : memchr (c :: tail) kMagic0 with
    | some p => simp [turn, hm] at h
    | none =>
        refine ⟨_, by simp only [turn, hm]; rfl, fun d ys => ?_⟩
        simp only [turn, ← List.cons_append, memchr_append_none hm]
        cases memchr (d :: ys) kMagic0 with
        | none => rfl
        | some p => simp only [Option.map_some, Nat.add_assoc, List.drop_length_add_append]
  case requestId =>
    simp only [turn] at h
    obtain ⟨hdone, hresume⟩ := fixedField_waits (fun buffer rest => by split <;> simp) h
    exact ⟨_, hdone, fun d ys => hresume (d :: ys)⟩
  case paramLen =>
    simp only [turn] at h
    obtain ⟨hdone, hresume⟩ := fixedField_waits (fun buffer rest => by simp) h
    exact ⟨_, hdone, fun d ys => hresume (d :: ys)⟩
  case serviceName | funcName =>
    cases buffer with
    | nil => simp [turn, nameField] at h
    | cons l ls =>
        obtain ⟨hdone, hresume⟩ := varField_waits h
        exact ⟨_, hdone, fun d ys => hresume _ (d :: ys)⟩
  case paramString =>
    by_cases hlen : buffer.length < 4
    · simp [turn, hlen] at h
    · simp only [turn, hlen, if_false] at h ⊢
      obtain ⟨hdone, hresume⟩ := varField_waits h
      refine ⟨_, hdone, fun d ys => ?_⟩
      simp only [← List.cons_append, hlen, if_false]
      exact hresume _ (d :: ys)
  case serviceLen | funcLen => simp [turn] at h
  all_goals
    simp only [turn] at h
    split at h
    all_goals simp at h

end Append

section Outcomes

variable {ctx : RpcContext} {xs : List CChar}

/-- A fixed field waits with everything in the buffer, or fills it. -/
theorem fixedField_cases (ctx : RpcContext) (xs : List CChar) (need : ℕ)
    (use : List CChar → List CChar → Turn) :
    ((ctx.buffer ++ xs).length < need ∧
      fixedField need ctx xs use = setWaiting { ctx with buffer := ctx.buffer ++ xs } []) ∨
    ∃ buffer rest, ctx.buffer ++ xs = buffer ++ rest ∧ need ≤ buffer.length ∧
      (ctx.buffer.length ≤ need → buffer.length = need) ∧
      fixedField need ctx xs use = use buffer rest := by
  have hkeep := readFixed_append_rest need ctx.buffer xs
  by_cases hf : (readFixed need ctx.buffer xs).1.length < need
  · have hshort := readFixed_short hf
    rw [hshort, List.append_nil] at hkeep
    rw [hkeep] at hf
    exact Or.inl ⟨hf, by simp only [fixedField, hkeep, hf, if_true, hshort]⟩
  · refine Or.inr ⟨_, _, hkeep.symm, by omega, fun hle => ?_, ?_⟩
    · have := readFixed_length_le hle xs
      omega
    · simp only [fixedField, hf, if_false]

/-- A variable field is too long already, waits with everything, or is full. -/
theorem varField_cases (ctx : RpcContext) (xs : List CChar) (len : ℕ) (out : List CChar)
    (store : List CChar → RpcContext) (follow : ParserStatus) :
    (len < out.length ∧ varField ctx len out store follow xs = setError ctx xs) ∨
    ((out ++ xs).length < len ∧
      varField ctx len out store follow xs = setWaiting (store (out ++ xs)) []) ∨
    ∃ out' rest, out ++ xs = out' ++ rest ∧ out'.length = len ∧
      varField ctx len out store follow xs =
        .next { store out' with buffer := [], status := follow } rest := by
  by_cases hlong : len < out.length
  · exact Or.inl ⟨hlong, by simp only [varField, readVar_eq, hlong, if_true]⟩
  have hkeep := readFixed_append_rest len out xs
  by_cases hf : (readFixed len out xs).1.length < len
  · have hshort := readFixed_short hf
    rw [hshort, List.append_nil] at hkeep
    rw [hkeep] at hf
    exact Or.inr (Or.inl ⟨hf, by
      simp only [varField, readVar_eq, hlong, if_false, hkeep, hf, if_true, hshort]⟩)
  · have hle := readFixed_length_le (Nat.le_of_not_lt hlong) xs
    refine Or.inr (Or.inr ⟨_, _, hkeep.symm, by omega, ?_⟩)
    simp only [varField, readVar_eq, hlong, if_false, hf]

/-- What a pass may come to. If it goes back to the loop head, it has moved to a later state and
left `result` alone. A message that is complete or in error leaves the parser before the next
start byte, and an error has cleared the id. -/
def Turn.Allowed (ctx : RpcContext) : Turn → Prop
  | .next ctx' _ => ctx'.status.ahead < ctx.status.ahead ∧ ctx'.result = ctx.result
  | .done ctx' _ => (ctx'.result ≠ .waiting → ctx'.status = .soa) ∧
      (ctx'.result = .error → ctx'.requestId = 0)

theorem setWaiting_allowed (ctx' : RpcContext) (rest : List CChar) :
    (setWaiting ctx' rest).Allowed ctx := by
  refine ⟨fun h => absurd rfl h, fun h => ?_⟩
  cases h

theorem setError_allowed (ctx' : RpcContext) (rest : List CChar) :
    (setError ctx' rest).Allowed ctx := ⟨fun _ => rfl, fun _ => rfl⟩

theorem fixedField_allowed {need : ℕ} {ctx' : RpcContext} {use : List CChar → List CChar → Turn}
    (huse : ∀ buffer rest, (use buffer rest).Allowed ctx) (xs : List CChar) :
    (fixedField need ctx' xs use).Allowed ctx := by
  unfold fixedField
  simp only
  split
  · exact setWaiting_allowed _ _
  · exact huse _ _

theorem varField_allowed {len : ℕ} {ctx' : RpcContext} {out : List CChar}
    {store : List CChar → RpcContext} {follow : ParserStatus}
    (hresult : ∀ out, (store out).result = ctx.result)
    (hfollow : follow.ahead < ctx.status.ahead) (xs : List CChar) :
    (varField ctx' len out store follow xs).Allowed ctx := by
  unfold varField
  split
  · exact setError_allowed _ _
  · exact setWaiting_allowed _ _
  · exact ⟨hfollow, hresult _⟩

theorem turn_allowed (ctx : RpcContext) (c : CChar) (tail : List CChar) :
    (turn ctx c tail).Allowed ctx := by
  unfold turn
  cases hs : ctx.status <;> simp only
  case requestId =>
    refine fixedField_allowed (fun buffer rest => ?_) _
    split
    · exact setError_allowed _ _
    · exact ⟨by simp [hs, ParserStatus.ahead], rfl⟩
  case paramLen =>
    refine fixedField_allowed (fun _ _ => ?_) _
    exact ⟨by simp [hs, ParserStatus.ahead], rfl⟩
  case serviceName | funcName =>
    unfold nameField
    split
    · exact setError_allowed _ _
    · refine varField_allowed (fun out => ?_) ?_ _
      · rfl
      · simp [hs, ParserStatus.ahead]
  case paramString =>
    split
    · exact setError_allowed _ _
    · refine varField_allowed (fun out => ?_) ?_ _
      · rfl
      · simp [hs, ParserStatus.ahead]
  case serviceLen | funcLen => exact ⟨by simp [hs, ParserStatus.ahead], rfl⟩
  case soa =>
    split
    · exact setWaiting_allowed _ _
    · exact ⟨by simp [hs, ParserStatus.ahead], rfl⟩
  case eoc =>
    split
    · exact setError_allowed _ _
    · refine ⟨fun _ => rfl, fun h => ?_⟩
      cases h
  case sob | type | errorCode | eob =>
    split
    · exact setError_allowed _ _
    · exact ⟨by simp [hs, ParserStatus.ahead], rfl⟩

theorem turn_next {ctx' : RpcContext} {c : CChar} {tail rest : List CChar}
    (h : turn ctx c tail = .next ctx' rest) :
    ctx'.status.ahead < ctx.status.ahead ∧ ctx'.result = ctx.result := by
  have hallowed := turn_allowed ctx c tail
  rwa [h] at hallowed

theorem turn_done {ctx' : RpcContext} {c : CChar} {tail rest : List CChar}
    (h : turn ctx c tail = .done ctx' rest) :
    (ctx'.result ≠ .waiting → ctx'.status = .soa) ∧
      (ctx'.result = .error → ctx'.requestId = 0) := by
  have hallowed := turn_allowed ctx c tail
  rwa [h] at hallowed

end Outcomes

/-- The `while` loop of `parse`: the context it leaves and what it has not read. -/
def parseLoop (ctx : RpcContext) : List CChar → RpcContext × List CChar
  | [] => ({ ctx with result := .waiting }, [])
  | c :: tail =>
      match _h : turn ctx c tail with
      | .next ctx' rest => parseLoop ctx' rest
      | .done ctx' rest => (ctx', rest)
termination_by ctx.status.ahead
decreasing_by exact (turn_next _h).1

/-- `parse(buffer, start, end, parsed, context)`: the value of `parsed` and the
context afterwards. -/
def parse (buffer : List CChar) (start stop : ℕ) (ctx : RpcContext) : ℕ × RpcContext :=
  if stop ≤ start then (0, { ctx with result := .waiting })
  else
    let window := (buffer.take stop).drop start
    let out := parseLoop { ctx with result := .waiting } window
    (window.length - out.2.length, out.1)

section Loop

variable {ctx : RpcContext}

theorem parseLoop_next {ctx' : RpcContext} {c : CChar} {tail rest : List CChar}
    (h : turn ctx c tail = .next ctx' rest) : parseLoop ctx (c :: tail) = parseLoop ctx' rest := by
  rw [parseLoop]
  split <;> simp_all

theorem parseLoop_done {ctx' : RpcContext} {c : CChar} {tail rest : List CChar}
    (h : turn ctx c tail = .done ctx' rest) : parseLoop ctx (c :: tail) = (ctx', rest) := by
  rw [parseLoop]
  split <;> simp_all

theorem parseLoop_nil (hw : ctx.result = .waiting) : parseLoop ctx [] = (ctx, []) := by
  rw [parseLoop, ← hw]

/-- The rule for facts about a whole call of `parse`: what one pass preserves
holds where the loop stops. `P` speaks about the context and the unread bytes. -/
theorem parseLoop_induction {P Q : RpcContext → List CChar → Prop}
    (stop : ∀ ctx, P ctx [] → Q { ctx with result := .waiting } [])
    (next : ∀ ctx c tail ctx' rest, P ctx (c :: tail) → turn ctx c tail = .next ctx' rest →
      P ctx' rest)
    (done : ∀ ctx c tail ctx' rest, P ctx (c :: tail) → turn ctx c tail = .done ctx' rest →
      Q ctx' rest)
    (ctx : RpcContext) (window : List CChar) (h : P ctx window) :
    Q (parseLoop ctx window).1 (parseLoop ctx window).2 := by
  induction ctx, window using parseLoop.induct with
  | case1 ctx => rw [parseLoop]; exact stop ctx h
  | case2 ctx c tail ctx' rest ht ih =>
      rw [parseLoop_next ht]
      exact ih (next ctx c tail ctx' rest h ht)
  | case3 ctx c tail ctx' rest ht =>
      rw [parseLoop_done ht]
      exact done ctx c tail ctx' rest h ht

/-- Reading a window and then what follows it is reading both at once, unless
the first call has answered `COMPLETE` or `ERROR` and left a rest unread. -/
theorem parseLoop_append (ctx : RpcContext) (hw : ctx.result = .waiting) (xs ys : List CChar) :
    ((parseLoop ctx xs).1.result = .waiting →
      (parseLoop ctx xs).2 = [] ∧
        parseLoop ctx (xs ++ ys) = parseLoop (parseLoop ctx xs).1 ys) ∧
    ((parseLoop ctx xs).1.result ≠ .waiting →
      parseLoop ctx (xs ++ ys) = ((parseLoop ctx xs).1, (parseLoop ctx xs).2 ++ ys)) := by
  induction ctx, xs using parseLoop.induct with
  | case1 ctx =>
      rw [parseLoop_nil hw]
      exact ⟨fun _ => ⟨rfl, rfl⟩, fun h => absurd hw h⟩
  | case2 ctx c tail ctx' rest ht ih =>
      have happ : turn ctx c (tail ++ ys) = .next ctx' (rest ++ ys) := by
        rw [turn_append c tail ys (by simp [ht]), ht]; rfl
      rw [parseLoop_next ht, List.cons_append, parseLoop_next happ]
      exact ih ((turn_next ht).2.trans hw)
  | case3 ctx c tail ctx' rest ht =>
      rw [parseLoop_done ht, List.cons_append]
      constructor
      · intro hwait
        have hwaits : (turn ctx c tail).Waits := by rw [ht]; exact hwait
        obtain ⟨ctx'', heq, hresume⟩ := turn_waits hw hwaits
        rw [ht] at heq
        cases heq
        refine ⟨rfl, ?_⟩
        cases ys with
        | nil => rw [List.append_nil, parseLoop_done ht, parseLoop_nil hwait]
        | cons d ys =>
            cases hd : turn ctx' d ys with
            | next ctx' rest =>
                rw [parseLoop_next hd, parseLoop_next ((hresume d ys).trans hd)]
            | done ctx' rest =>
                rw [parseLoop_done hd, parseLoop_done ((hresume d ys).trans hd)]
      · intro hstop
        have happ : turn ctx c (tail ++ ys) = .done ctx' (rest ++ ys) := by
          rw [turn_append c tail ys (by rw [ht]; exact hstop), ht]; rfl
        rw [parseLoop_done happ]

end Loop

end SimpleRedis.Rpc
