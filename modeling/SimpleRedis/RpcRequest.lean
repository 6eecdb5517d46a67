import SimpleRedis.RpcReadLoop

/-!
# Requests and their layout on the wire

`Request` is what a client may send, with the bounds that `build_packet` asserts
as fields. A frame is read field by field; each field lemma says that the loop
of `parse` takes exactly the bytes of its field off the window.
-/
namespace SimpleRedis.Rpc

open BigEndian

/-- The arguments of `build_packet` that pass its assertions. -/
structure Request where
  requestId : UInt64
  serviceName : List UInt8
  funcName : List UInt8
  params : List UInt8
  id_ne : requestId ≠ 0
  service_le : serviceName.length ≤ 255
  func_le : funcName.length ≤ 255
  params_lt : params.length < 2 ^ 32

namespace Request

/-- `build_packet`: the layout of the comment at the head of `RpcServer.cpp`. -/
def buildPacket (r : Request) : List UInt8 :=
  [kMagic0, kMagic1] ++ [RequestType.request] ++ digits 8 r.requestId.toNat ++ [0] ++
    [UInt8.ofNat r.serviceName.length] ++ r.serviceName ++
    [UInt8.ofNat r.funcName.length] ++ r.funcName ++
    digits 4 r.params.length ++ r.params ++ [kMagic1, kMagic2]

/-- The context that the server dispatches for a request. -/
def completed (r : Request) : RpcContext where
  status := .soa
  result := .complete
  requestId := r.requestId
  serviceName := toChars r.serviceName
  funcName := toChars r.funcName
  params := toChars r.params
  buffer := []

end Request

section Fields

variable {ctx : RpcContext} {rest : List CChar}

/-- A field that is complete in the window is taken off it whole. -/
theorem readFixed_field {need : ℕ} {buffer field : List CChar}
    (h : buffer.length + field.length = need) (rest : List CChar) :
    readFixed need buffer (field ++ rest) = (buffer ++ field, rest) := by
  have hk : need - buffer.length = field.length := by omega
  rw [readFixed_eq, hk, List.take_left, List.drop_left]

theorem fixedField_field {need : ℕ} {use : List CChar → List CChar → Turn} {field : List CChar}
    (h : ctx.buffer.length + field.length = need) :
    fixedField need ctx (field ++ rest) use = use (ctx.buffer ++ field) rest := by
  have hlen : ¬ (ctx.buffer ++ field).length < need := by rw [List.length_append]; omega
  simp only [fixedField, readFixed_field h, hlen, if_false]

theorem varField_field {len : ℕ} {out field : List CChar} {store : List CChar → RpcContext}
    {follow : ParserStatus} (h : out.length + field.length = len) :
    varField ctx len out store follow (field ++ rest) =
      .next { store (out ++ field) with buffer := [], status := follow } rest := by
  have hlong : ¬ len < out.length := by omega
  have hlen : ¬ (out ++ field).length < len := by rw [List.length_append]; omega
  simp only [varField, readVar_eq, hlong, if_false, readFixed_field h, hlen]

theorem parseLoop_soa_magic (hs : ctx.status = .soa) (rest : List CChar) :
    parseLoop ctx (kMagic0.toInt8 :: rest) = parseLoop { ctx with status := .sob } rest :=
  parseLoop_next (by simp only [turn, hs]; rfl)

theorem parseLoop_sob_magic (hs : ctx.status = .sob) (rest : List CChar) :
    parseLoop ctx (kMagic1.toInt8 :: rest) =
      parseLoop { ctx.resetMessage with status := .type } rest :=
  parseLoop_next (by simp only [turn, hs]; rfl)

theorem parseLoop_type_request (hs : ctx.status = .type) (rest : List CChar) :
    parseLoop ctx (RequestType.request.toInt8 :: rest) =
      parseLoop { ctx with status := .requestId } rest :=
  parseLoop_next (by simp only [turn, hs]; rfl)

/-- A pass over a window that is not given by its first byte. -/
theorem parseLoop_next_window {ctx' : RpcContext} {window : List CChar} (hne : window ≠ [])
    (h : ∀ c tail, window = c :: tail → turn ctx c tail = .next ctx' rest) :
    parseLoop ctx window = parseLoop ctx' rest := by
  obtain ⟨c, tail, rfl⟩ := List.exists_cons_of_ne_nil hne
  exact parseLoop_next (h c tail rfl)

theorem parseLoop_requestId_digits (hs : ctx.status = .requestId) (hb : ctx.buffer = [])
    {id : UInt64} (hid : id ≠ 0) (rest : List CChar) :
    parseLoop ctx (toChars (digits 8 id.toNat) ++ rest) =
      parseLoop { ctx with requestId := id, buffer := [], status := .errorCode } rest := by
  have hlen : (toChars (digits 8 id.toNat)).length = 8 := by simp
  have hread : readU64Be (toChars (digits 8 id.toNat)) = id :=
    UInt64.toNat_inj.mp (readU64Be_digits id.toNat_lt)
  refine parseLoop_next_window (by simp [← List.length_pos_iff]) fun c tail hwin => ?_
  simp only [turn, hs]
  rw [← hwin, fixedField_field (by rw [hb, hlen]; rfl)]
  simp only [hb, List.nil_append, hread, hid, if_false]

theorem parseLoop_errorCode_zero (hs : ctx.status = .errorCode) (rest : List CChar) :
    parseLoop ctx ((0 : UInt8).toInt8 :: rest) =
      parseLoop { ctx with status := .serviceLen } rest :=
  parseLoop_next (by simp only [turn, hs]; rfl)

theorem parseLoop_serviceLen (hs : ctx.status = .serviceLen) (c : CChar) (rest : List CChar) :
    parseLoop ctx (c :: rest) =
      parseLoop { ctx with serviceName := [], buffer := [c], status := .serviceName } rest :=
  parseLoop_next (by simp only [turn, hs])

theorem parseLoop_funcLen (hs : ctx.status = .funcLen) (c : CChar) (rest : List CChar) :
    parseLoop ctx (c :: rest) =
      parseLoop { ctx with funcName := [], buffer := [c], status := .funcName } rest :=
  parseLoop_next (by simp only [turn, hs])

theorem nameField_field {store : List CChar → RpcContext} {follow : ParserStatus} {l : CChar}
    (hb : ctx.buffer = [l]) {name : List CChar} (hl : (u8 l).toNat = name.length) :
    nameField ctx [] store follow (name ++ rest) =
      .next { store name with buffer := [], status := follow } rest := by
  simp only [nameField, hb]
  rw [varField_field (by rw [hl]; simp), List.nil_append]

theorem parseLoop_serviceName (hs : ctx.status = .serviceName) {l : CChar} (hb : ctx.buffer = [l])
    (hout : ctx.serviceName = []) {name : List CChar} (hl : (u8 l).toNat = name.length)
    (hrest : rest ≠ []) :
    parseLoop ctx (name ++ rest) =
      parseLoop { ctx with serviceName := name, buffer := [], status := .funcLen } rest := by
  refine parseLoop_next_window (by simp [hrest]) fun c tail hwin => ?_
  simp only [turn, hs, hout]
  rw [← hwin, nameField_field hb hl]

theorem parseLoop_funcName (hs : ctx.status = .funcName) {l : CChar} (hb : ctx.buffer = [l])
    (hout : ctx.funcName = []) {name : List CChar} (hl : (u8 l).toNat = name.length)
    (hrest : rest ≠ []) :
    parseLoop ctx (name ++ rest) =
      parseLoop { ctx with funcName := name, buffer := [], status := .paramLen } rest := by
  refine parseLoop_next_window (by simp [hrest]) fun c tail hwin => ?_
  simp only [turn, hs, hout]
  rw [← hwin, nameField_field hb hl]

theorem parseLoop_paramLen (hs : ctx.status = .paramLen) (hb : ctx.buffer = []) {len : List CChar}
    (hlen : len.length = 4) (rest : List CChar) :
    parseLoop ctx (len ++ rest) =
      parseLoop { ctx with params := [], buffer := len, status := .paramString } rest := by
  refine parseLoop_next_window (by simp [← List.length_pos_iff, hlen]) fun c tail hwin => ?_
  simp only [turn, hs]
  rw [← hwin, fixedField_field (by simp [hb, hlen]), hb, List.nil_append]

theorem parseLoop_paramString (hs : ctx.status = .paramString) (hb : ctx.buffer.length = 4)
    (hout : ctx.params = []) {params : List CChar}
    (hl : (readU32Be ctx.buffer).toNat = params.length) (hrest : rest ≠ []) :
    parseLoop ctx (params ++ rest) =
      parseLoop { ctx with params := params, buffer := [], status := .eob } rest := by
  refine parseLoop_next_window (by simp [hrest]) fun c tail hwin => ?_
  simp only [turn, hs, hb, Nat.lt_irrefl, if_false]
  rw [← hwin, varField_field (by simp [hout, hl]), hout, List.nil_append]

theorem parseLoop_eob_magic (hs : ctx.status = .eob) (rest : List CChar) :
    parseLoop ctx (kMagic1.toInt8 :: rest) = parseLoop { ctx with status := .eoc } rest :=
  parseLoop_next (by simp only [turn, hs]; rfl)

theorem parseLoop_eoc_magic (hs : ctx.status = .eoc) (rest : List CChar) :
    parseLoop ctx (kMagic2.toInt8 :: rest) =
      ({ ctx with status := .soa, result := .complete }, rest) :=
  parseLoop_done (by simp only [turn, hs]; rfl)

end Fields

section Frames

variable (r : Request)

theorem toChars_buildPacket (rest : List CChar) :
    toChars r.buildPacket ++ rest =
      kMagic0.toInt8 :: kMagic1.toInt8 :: RequestType.request.toInt8 ::
        (toChars (digits 8 r.requestId.toNat) ++ (0 : UInt8).toInt8 ::
          (UInt8.ofNat r.serviceName.length).toInt8 :: (toChars r.serviceName ++
            (UInt8.ofNat r.funcName.length).toInt8 :: (toChars r.funcName ++
              (toChars (digits 4 r.params.length) ++ (toChars r.params ++
                kMagic1.toInt8 :: kMagic2.toInt8 :: rest))))) := by
  simp [Request.buildPacket]

private theorem u8_length {n : ℕ} (h : n ≤ 255) : (u8 (UInt8.ofNat n).toInt8).toNat = n := by
  rw [u8_toInt8, UInt8.toNat_ofNat']
  omega

/-- A frame at the front of the window is taken off it and nothing else. -/
theorem parseLoop_buildPacket (rest : List CChar) :
    parseLoop {} (toChars r.buildPacket ++ rest) = (r.completed, rest) := by
  rw [toChars_buildPacket, parseLoop_soa_magic rfl, parseLoop_sob_magic rfl,
    parseLoop_type_request rfl, parseLoop_requestId_digits rfl rfl r.id_ne,
    parseLoop_errorCode_zero rfl, parseLoop_serviceLen rfl,
    parseLoop_serviceName rfl rfl rfl (by simpa using u8_length r.service_le) (by simp),
    parseLoop_funcLen rfl,
    parseLoop_funcName rfl rfl rfl (by simpa using u8_length r.func_le) (by simp),
    parseLoop_paramLen rfl rfl (by simp),
    parseLoop_paramString rfl (by simp) rfl (by simpa using readU32Be_digits r.params_lt)
      (by simp),
    parseLoop_eob_magic rfl, parseLoop_eoc_magic rfl]
  rfl

/-- The bytes that a client sends for a list of requests. -/
def frames (requests : List Request) : List UInt8 := (requests.map Request.buildPacket).flatten

theorem readWindow_frames (pos : ℕ) (requests : List Request) :
    (readWindow pos {} (toChars (frames requests))).1 = {} ∧
      (readWindow pos {} (toChars (frames requests))).2.map (·.context) =
        requests.map Request.completed := by
  induction requests generalizing pos with
  | nil => simp [frames]
  | cons r requests ih =>
      have hparse := parseLoop_buildPacket r (toChars (frames requests))
      have hwin : toChars (frames (r :: requests)) =
          toChars r.buildPacket ++ toChars (frames requests) := by
        simp [frames]
      rw [← hwin] at hparse
      have hstop : (parseLoop {} (toChars (frames (r :: requests)))).1.result ≠ .waiting := by
        rw [hparse]
        simp [Request.completed]
      rw [readWindow_stop pos hstop]
      simp only [List.map_cons, hparse]
      exact ⟨(ih _).1, congrArg _ (ih _).2⟩

/-- Every request of a client is dispatched once, in order and with its own
fields, however the frames are cut, and the connection is ready for the next. -/
theorem readAll_frames (requests : List Request) (chunks : List Chunk)
    (h : stream chunks = toChars (frames requests)) :
    (({} : Client).readAll chunks).2.map (·.context) = requests.map Request.completed ∧
      (({} : Client).readAll chunks).1.context = {} := by
  rw [Client.readAll_eq_feed, h]
  exact ⟨(readWindow_frames 0 requests).2, (readWindow_frames 0 requests).1⟩

/-- A request whose fields contain both markers. -/
def markerRequest : Request where
  requestId := 0x0a0b
  serviceName := [0x0a, 0x0b]
  funcName := [0x0b, 0x0c]
  params := [0x0b, 0x0c, 0x0a]
  id_ne := by decide
  service_le := by decide
  func_le := by decide
  params_lt := by decide

theorem readAll_frames_markers :
    (({} : Client).readAll
        [.exact (toChars (markerRequest.buildPacket ++ [0x0a])) (by decide),
          .exact (toChars (markerRequest.buildPacket.drop 1)) (by decide)]).2.map (·.context) =
        [markerRequest.completed, markerRequest.completed] ∧
      (({} : Client).readAll
        [.exact (toChars (markerRequest.buildPacket ++ [0x0a])) (by decide),
          .exact (toChars (markerRequest.buildPacket.drop 1)) (by decide)]).1.context = {} :=
  readAll_frames [markerRequest, markerRequest] _ (by decide)

end Frames

end SimpleRedis.Rpc
