import SimpleRedis.RpcCall

/-!
# Services with typed methods

`registerFunction` wraps a method between `ParseFromString` and `SerializeToString`, `addHandler`
puts the handler under the name of its service, and the Python client packs and unpacks the same
messages. The two protobuf libraries are not modelled; what one of them writes, the other one
reads. A call then returns what the method returns for the message that was passed.
-/
namespace SimpleRedis.Rpc

open TransitionRun

/-- How a method ends when it does not return. -/
inductive Thrown where
  | badParam
  | badResponse
  | other
  deriving DecidableEq, Repr

def Thrown.result : Thrown → HandlerResult
  | badParam => .badParam
  | badResponse => .badResponse
  | other => .otherException

section Methods

variable {A R : Type*}

/-- A message class of C++: `ParseFromString` and `SerializeToString`. -/
structure MessageClass (α : Type*) where
  parse : List CChar → Option α
  serialize : α → Option (List CChar)

/-- The lambda of `registerFunction`: parse the argument, call the method, serialize the result. -/
def methodHandler (parse : List CChar → Option A) (func : ℕ → A → Except Thrown R)
    (serialize : R → Option (List CChar)) : RpcHandler := fun n buffer =>
  match parse buffer with
  | none => .badParam
  | some req =>
      match func n req with
      | .error e => e.result
      | .ok ret =>
          match serialize ret with
          | none => .badResponse
          | some out => .returned out

/-- What a handler returns is a serialized result. -/
theorem serialize_of_returned {parse : List CChar → Option A} {func : ℕ → A → Except Thrown R}
    {serialize : R → Option (List CChar)} {n : ℕ} {buffer res : List CChar}
    (h : methodHandler parse func serialize n buffer = .returned res) :
    ∃ ret, serialize ret = some res := by
  unfold methodHandler at h
  split at h
  · cases h
  · split at h
    · rename_i e _
      cases e <;> cases h
    · rename_i ret _
      split at h
      · cases h
      · rename_i out hout
        cases h
        exact ⟨ret, hout⟩

/-- `registerFunction` for `Ret (Arg)`. -/
def retArgHandler (arg : MessageClass A) (ret : MessageClass R)
    (func : ℕ → A → Except Thrown R) : RpcHandler :=
  methodHandler arg.parse func ret.serialize

/-- `registerFunction` for `Ret ()`, which does not look at the params. -/
def retHandler (ret : MessageClass R) (func : ℕ → Except Thrown R) : RpcHandler :=
  methodHandler (fun _ => some ()) (fun n _ => func n) ret.serialize

/-- `registerFunction` for `void (Arg)`, which returns an empty string. -/
def argHandler (arg : MessageClass A) (func : ℕ → A → Except Thrown Unit) : RpcHandler :=
  methodHandler arg.parse func fun _ => some []

/-- `registerFunction` for `void ()`. -/
def voidHandler (func : ℕ → Except Thrown Unit) : RpcHandler :=
  methodHandler (fun _ => some ()) (fun n _ => func n) fun _ => some []

end Methods

/-- What a service does in `setup`. -/
inductive Registration where
  | serviceName (name : List CChar)
  | function (name : List CChar) (handler : RpcHandler)

/-- `addHandler`. -/
def addHandler (handlers : Handlers) (group name : List CChar) (handler : RpcHandler) : Handlers :=
  Function.update handlers (group, name) (some handler)

/-- `setup` of a service with the value of its `serviceName`. -/
def setup (serviceName : List CChar) (handlers : Handlers) : List Registration → Handlers
  | [] => handlers
  | .serviceName name :: registrations => setup name handlers registrations
  | .function name handler :: registrations =>
      setup serviceName (addHandler handlers serviceName name handler) registrations

/-- `registerService` for one service after the other. -/
def registerServices (services : List (List Registration)) : Handlers :=
  services.foldl (fun handlers service => setup [] handlers service) fun _ => none

section Registry

/-- A function under the name of its service. -/
structure Entry where
  group : List CChar
  name : List CChar
  handler : RpcHandler

/-- The functions of a service as the server knows them. -/
def functions (serviceName : List CChar) : List Registration → List Entry
  | [] => []
  | .serviceName name :: registrations => functions name registrations
  | .function name handler :: registrations =>
      ⟨serviceName, name, handler⟩ :: functions serviceName registrations

/-- The last entry under a key. -/
def lastUnder (key : List CChar × List CChar) (entries : List Entry) : Option RpcHandler :=
  ((entries.filter fun e => (e.group, e.name) = key).getLast?).map (·.handler)

/-- The handlers after some more entries. -/
def addEntries (handlers : Handlers) (entries : List Entry) : Handlers :=
  entries.foldl (fun handlers e => addHandler handlers e.group e.name e.handler) handlers

theorem setup_eq (serviceName : List CChar) (handlers : Handlers)
    (registrations : List Registration) : setup serviceName handlers registrations =
      addEntries handlers (functions serviceName registrations) := by
  induction registrations generalizing serviceName handlers with
  | nil => rfl
  | cons registration registrations ih =>
      cases registration with
      | serviceName name => exact ih name handlers
      | function name handler => exact ih serviceName _

theorem lastUnder_concat (key : List CChar × List CChar) (entries : List Entry) (e : Entry) :
    lastUnder key (entries ++ [e]) =
      if (e.group, e.name) = key then some e.handler else lastUnder key entries := by
  unfold lastUnder
  split
  · rename_i hkey
    simp [List.filter_append, hkey]
  · rename_i hkey
    simp [List.filter_append, hkey]

theorem addEntries_apply (entries : List Entry) (key : List CChar × List CChar) :
    addEntries (fun _ => none) entries key = lastUnder key entries := by
  induction entries using List.reverseRecOn with
  | nil => rfl
  | append_singleton entries e ih =>
      have hlast : addEntries (fun _ => none) (entries ++ [e]) =
          addHandler (addEntries (fun _ => none) entries) e.group e.name e.handler :=
        List.foldl_concat ..
      rw [hlast, lastUnder_concat, ← ih, addHandler, Function.update_apply]
      split
      · rename_i hkey
        rw [if_pos hkey.symm]
      · rename_i hkey
        rw [if_neg fun h => hkey h.symm]

/-- The last registration of a function is the one that is called. -/
theorem registerServices_apply (services : List (List Registration))
    (key : List CChar × List CChar) :
    registerServices services key = lastUnder key (services.flatMap (functions [])) := by
  have hfold : ∀ handlers : Handlers,
      services.foldl (fun h service => setup [] h service) handlers =
      addEntries handlers (services.flatMap (functions [])) := by
    induction services with
    | nil => exact fun _ => rfl
    | cons service services ih =>
        intro handlers
        rw [List.foldl_cons, ih, setup_eq, List.flatMap_cons, addEntries, addEntries, addEntries,
          List.foldl_append]
  rw [registerServices, hfold, addEntries_apply]

end Registry

section Calls

variable {A R : Type*}

/-- How a call of the client ends when the bytes of the answer are parsed as a message. -/
inductive Returned (R : Type*) where
  | response (ret : R)
  | decodeError
  | rpcError (code : UInt8)
  | timeoutError
  | connectionError
  deriving DecidableEq, Repr

/-- `ParseFromString` at the end of `call`. -/
def Outcome.decode (parse : List UInt8 → Option R) : Outcome → Returned R
  | .body bytes =>
      match parse bytes with
      | some ret => .response ret
      | none => .decodeError
  | .rpcError code => .rpcError code
  | .timeoutError => .timeoutError
  | .connectionError => .connectionError

/-- What a call of a method is to return. -/
def methodResult (func : ℕ → A → Except Thrown R) (serialize : R → Option (List CChar)) (n : ℕ)
    (req : A) : Returned R :=
  match func n req with
  | .error .badParam => .rpcError 101
  | .error .badResponse => .rpcError 102
  | .error .other => .rpcError 3
  | .ok ret => if (serialize ret).isSome then .response ret else .rpcError 102

/-- What a call with these params is to return. -/
def callResult (parse : List CChar → Option A) (func : ℕ → A → Except Thrown R)
    (serialize : R → Option (List CChar)) (n : ℕ) (params : List CChar) : Returned R :=
  match parse params with
  | none => .rpcError 101
  | some req => methodResult func serialize n req

/-- From the params of a request to the message that the client returns. -/
theorem decode_answer {handlers : Handlers} {r : Request} {parse : List CChar → Option A}
    {func : ℕ → A → Except Thrown R} {serialize : R → Option (List CChar)}
    {pyParse : List UInt8 → Option R}
    (hhandler : handlers (toChars r.serviceName, toChars r.funcName) =
      some (methodHandler parse func serialize))
    (hret : ∀ ret out, serialize ret = some out → pyParse (out.map u8) = some ret) (n : ℕ) :
    (answer handlers n r).outcome.decode pyParse =
      callResult parse func serialize n (toChars r.params) := by
  simp only [answer, hhandler, methodHandler, callResult, methodResult]
  cases parse (toChars r.params) with
  | none => rfl
  | some req =>
      simp only
      cases func n req with
      | error e => cases e <;> rfl
      | ok ret =>
          simp only
          cases hout : serialize ret with
          | none => rfl
          | some out =>
              simp only [Frame.outcome, Outcome.decode, RequestType.response, RequestType.reqError]
              simp [hret ret out hout]

/-- For any services, in every run in which no id is used twice and no send fails in the middle: a
call of a registered method that gets its frame returns the result of the method for the message
that was passed, or the error that it ended with, which may be that the params are no message; and
a call of a function that is not registered is told so. -/
theorem typed_calls_answered (services : List (List Registration))
    (hshort : ShortResults (registerServices services)) {s : Session}
    (h : Reachable (Session.step (registerServices services)) {} s) (hwhole : s.torn = false)
    (hdistinct : s.Distinct) {n : ℕ} {r : Request} {o : Outcome} (hr : s.requests[n]? = some r)
    (ho : s.outcomes[n]? = some o) (hgot : ¬ o.Lost) :
    match lastUnder (toChars r.serviceName, toChars r.funcName)
        (services.flatMap (functions [])) with
    | none => o = .rpcError 100
    | some handler => ∀ (parse : List CChar → Option A) (func : ℕ → A → Except Thrown R)
        (serialize : R → Option (List CChar)) (pyParse : List UInt8 → Option R),
        handler = methodHandler parse func serialize →
          (∀ ret out, serialize ret = some out → pyParse (out.map u8) = some ret) →
            o.decode pyParse = callResult parse func serialize n (toChars r.params) := by
  have hsound := Session.sound_of_reachable hshort h hwhole
  obtain ⟨rfl, -⟩ := ((hsound.account hdistinct).settled n r o hr ho).resolve_left hgot
  have hlookup := registerServices_apply services (toChars r.serviceName, toChars r.funcName)
  split
  · rename_i hnone
    rw [hnone] at hlookup
    simp only [answer, hlookup]
    rfl
  · rename_i handler hsome
    rw [hsome] at hlookup
    rintro parse func serialize pyParse rfl hret
    exact decode_answer hlookup hret n

end Calls

namespace Hello

/-- The bytes of "hello". -/
def helloWord : List UInt8 := [104, 101, 108, 108, 111]

/-- The bytes of "world". -/
def worldWord : List UInt8 := [119, 111, 114, 108, 100]

/-- The bytes of "HelloService". -/
def serviceName : List UInt8 := [72, 101, 108, 108, 111, 83, 101, 114, 118, 105, 99, 101]

/-- `Hello::hello`, with a message for its only field. -/
def hello (_ : ℕ) (msg : List CChar) : Except Thrown (List CChar) :=
  .ok (if msg = toChars helloWord then toChars worldWord else msg)

/-- `Hello::setup`. -/
def setup (req resp : MessageClass (List CChar)) : List Registration :=
  [.serviceName (toChars serviceName),
    .function (toChars helloWord) (retArgHandler req resp hello)]

/-- A message with one string field, which has the number 1, for fewer than 128 bytes. -/
def message : MessageClass (List CChar) where
  parse
    | [] => some []
    | [_] => none
    | tag :: len :: text => if tag = 0x0a ∧ len.toInt = text.length then some text else none
  serialize text :=
    if text = [] then some []
    else if text.length < 128 then some (0x0a :: Int8.ofNat text.length :: text)
    else none

/-- The same message in Python. -/
def pyParse (bytes : List UInt8) : Option (List CChar) := message.parse (toChars bytes)

theorem parse_serialize {text out : List CChar} (h : message.serialize text = some out) :
    message.parse out = some text := by
  unfold message at h ⊢
  simp only at h ⊢
  split at h
  · rename_i hempty
    cases h
    rw [hempty]
  · split at h
    · rename_i hshort
      cases h
      have hlen : (Int8.ofNat text.length).toInt = text.length := by
        rw [Int8.toInt_ofNat_of_lt (by simpa using hshort)]
      simp [hlen]
    · cases h

theorem length_serialize {text out : List CChar} (h : message.serialize text = some out) :
    out.length < 130 := by
  unfold message at h
  simp only at h
  split at h
  · cases h
    decide
  · split at h
    · cases h
      simp only [List.length_cons]
      omega
    · cases h

theorem shortResults : ShortResults (registerServices [setup message message]) := by
  intro key handler hkey n params res hres
  rw [registerServices_apply] at hkey
  obtain ⟨e, he, rfl⟩ := Option.map_eq_some_iff.mp hkey
  have hmem := List.mem_of_mem_filter (List.mem_of_getLast? he)
  have hentry : e = ⟨toChars serviceName, toChars helloWord,
      retArgHandler message message hello⟩ := by
    simpa [setup, functions] using hmem
  subst hentry
  have hmethod : methodHandler message.parse hello message.serialize n params = .returned res :=
    hres
  obtain ⟨ret, hret⟩ := serialize_of_returned hmethod
  have hlt := length_serialize hret
  omega

/-- `hello` of the test client. -/
def request : Request where
  requestId := 1
  serviceName := serviceName
  funcName := helloWord
  params := [0x0a, 5] ++ helloWord
  id_ne := by decide
  service_le := by decide
  func_le := by decide
  params_lt := by decide

end Hello

theorem typed_calls_answered_hello :
    ∃ s o, Reachable (Session.step (registerServices [Hello.setup Hello.message Hello.message])) {}
        s ∧ s.outcomes = [o] ∧
      o.decode Hello.pyParse = .response (toChars Hello.worldWord) := by
  have hcall : ({} : Session).step (registerServices [Hello.setup Hello.message Hello.message])
      (.call none Hello.serviceName Hello.helloWord ([0x0a, 5] ++ Hello.helloWord)) =
      some (({} : Session).send Hello.request 2) :=
    Session.step_call rfl (Session.nextRequestId_small (by decide) (by decide)) rfl rfl rfl
  have hsound := Session.sound_initial.step Hello.shortResults hcall rfl
  have hdistinct : (({} : Session).send Hello.request 2).Distinct := by
    unfold Session.Distinct
    decide
  obtain ⟨acts, s, hrun, hwhole, hrequests, -, houtcomes⟩ :=
    hsound.exists_outcome Hello.shortResults hdistinct rfl rfl rfl
  have hreach : Reachable (Session.step
      (registerServices [Hello.setup Hello.message Hello.message])) {} s :=
    ⟨_ :: acts, (run_cons hcall).trans hrun⟩
  have hdistinct' : s.Distinct := by
    rw [Session.Distinct, hrequests]
    exact hdistinct
  have hr : s.requests[0]? = some Hello.request := by
    rw [hrequests]
    rfl
  have ho : s.outcomes[0]? = some (answer (registerServices
      [Hello.setup Hello.message Hello.message]) 0 Hello.request).outcome := by
    rw [houtcomes]
    rfl
  have htyped := typed_calls_answered (A := List CChar) (R := List CChar)
    [Hello.setup Hello.message Hello.message] Hello.shortResults hreach hwhole hdistinct' hr ho
    (Frame.not_lost_outcome _)
  have hlast : lastUnder (toChars Hello.request.serviceName, toChars Hello.request.funcName)
      ([Hello.setup Hello.message Hello.message].flatMap (functions [])) =
      some (retArgHandler Hello.message Hello.message Hello.hello) := rfl
  rw [hlast] at htyped
  refine ⟨s, _, hreach, houtcomes, ?_⟩
  refine (htyped _ _ _ Hello.pyParse rfl ?_).trans rfl
  intro ret out hout
  rw [Hello.pyParse, toChars_map_u8]
  exact Hello.parse_serialize hout

end SimpleRedis.Rpc
