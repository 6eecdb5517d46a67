import SimpleRedis.RpcContext

/-!
# Response frames

The two encoders of the server, and the layout they share: start marker, type,
request id, error code, length, body, end marker. The layout is stated on bytes, as
they come out of the socket; `Frame` is what a client makes of it.
-/
namespace SimpleRedis.Rpc

open BigEndian

/-- `RequestType::RESPONSE`. -/
def RequestType.response : UInt8 := 2

/-- `RequestType::REQ_ERROR`. -/
def RequestType.reqError : UInt8 := 3

/-- `append_u64_be`: one `push_back` for each shift. -/
def appendU64Be (out : List CChar) (v : UInt64) : List CChar :=
  ([56, 48, 40, 32, 24, 16, 8, 0] : List UInt64).foldl
    (fun out shift => out ++ [((v >>> shift) &&& 0xff).toUInt8.toInt8]) out

/-- `append_u32_be`. -/
def appendU32Be (out : List CChar) (v : UInt32) : List CChar :=
  out ++ [((v >>> 24) &&& 0xff).toUInt8.toInt8] ++ [((v >>> 16) &&& 0xff).toUInt8.toInt8] ++
    [((v >>> 8) &&& 0xff).toUInt8.toInt8] ++ [(v &&& 0xff).toUInt8.toInt8]

def appendMagicBegin (out : List CChar) : List CChar :=
  out ++ [kMagic0.toInt8] ++ [kMagic1.toInt8]

def appendMagicEnd (out : List CChar) : List CChar :=
  out ++ [kMagic1.toInt8] ++ [kMagic2.toInt8]

def buildErrorResponse (requestId : UInt64) (errorCode : CChar) : List CChar :=
  let res := appendMagicBegin []
  let res := res ++ [RequestType.reqError.toInt8]
  let res := appendU64Be res requestId
  let res := res ++ [errorCode]
  let res := appendU32Be res 0
  appendMagicEnd res

def buildResponse (body : List CChar) (requestId : UInt64) : List CChar :=
  let res := appendMagicBegin []
  let res := res ++ [RequestType.response.toInt8]
  let res := appendU64Be res requestId
  let res := res ++ [0]
  let res := appendU32Be res (UInt32.ofNat body.length)
  let res := res ++ body
  appendMagicEnd res

/-- The named tuple of a client for a frame; `extra` holds the error code. -/
structure Frame where
  type : UInt8
  requestId : ℕ
  body : List UInt8
  extra : UInt8
  deriving DecidableEq, Repr

namespace Frame

/-- What stands before the body: 16 bytes. -/
def header (f : Frame) : List UInt8 :=
  [kMagic0, kMagic1] ++ [f.type] ++ digits 8 f.requestId ++ [f.extra] ++ digits 4 f.body.length

/-- The whole frame. -/
def bytes (f : Frame) : List UInt8 := f.header ++ f.body ++ [kMagic1, kMagic2]

/-- The numbers fit their fields, and the type is one that a server sends. -/
structure WellFormed (f : Frame) : Prop where
  type_eq : f.type = RequestType.response ∨ f.type = RequestType.reqError
  id_lt : f.requestId < 2 ^ 64
  body_lt : f.body.length < 2 ^ 32

@[simp] theorem length_header (f : Frame) : f.header.length = 16 := by
  simp [header]

@[simp] theorem length_bytes (f : Frame) : f.bytes.length = 18 + f.body.length := by
  simp only [bytes, List.length_append, length_header, List.length_cons, List.length_nil]
  omega

end Frame

section Encoders

theorem appendU64Be_eq (out : List CChar) (v : UInt64) :
    appendU64Be out v = out ++ toChars (digits 8 v.toNat) := by
  have hshifts : ([56, 48, 40, 32, 24, 16, 8, 0] : List UInt64) =
      (List.range 8).reverse.map fun i => UInt64.ofNat (8 * i) := rfl
  rw [appendU64Be, List.foldl_append_eq_append, ← List.flatMap_def, ← List.map_eq_flatMap, hshifts,
    digits_eq_shifts, toChars, List.map_map, List.map_map]
  apply congrArg
  apply List.map_congr_left
  intro i hi
  rw [List.mem_reverse, List.mem_range] at hi
  exact congrArg UInt8.toInt8 (u64_byte v (by omega))

theorem appendU32Be_eq (out : List CChar) (v : UInt32) :
    appendU32Be out v = out ++ toChars (digits 4 v.toNat) := by
  have hlast : (v &&& 0xff).toUInt8 = UInt8.ofNat (v.toNat >>> 0) := by
    simpa using u32_byte v (by decide : 0 < 32)
  rw [digits_eq_shifts, appendU32Be, hlast, List.append_assoc, List.append_assoc, List.append_assoc]
  apply congrArg
  exact congrArg₂ List.cons (congrArg _ (u32_byte v (by decide : 24 < 32)))
    (congrArg₂ List.cons (congrArg _ (u32_byte v (by decide : 16 < 32)))
      (congrArg₂ List.cons (congrArg _ (u32_byte v (by decide : 8 < 32))) rfl))

theorem buildErrorResponse_eq (requestId : UInt64) (errorCode : CChar) :
    (buildErrorResponse requestId errorCode).map u8 =
      Frame.bytes ⟨RequestType.reqError, requestId.toNat, [], u8 errorCode⟩ := by
  simp [buildErrorResponse, appendMagicBegin, appendMagicEnd, appendU64Be_eq, appendU32Be_eq,
    Frame.bytes, Frame.header]

theorem buildResponse_eq {body : List CChar} (h : body.length < 2 ^ 32) (requestId : UInt64) :
    (buildResponse body requestId).map u8 =
      Frame.bytes ⟨RequestType.response, requestId.toNat, body.map u8, 0⟩ := by
  have hlen : (UInt32.ofNat body.length).toNat = body.length := by
    rw [UInt32.toNat_ofNat', Nat.mod_eq_of_lt h]
  have hzero : u8 0 = 0 := rfl
  simp [buildResponse, appendMagicBegin, appendMagicEnd, appendU64Be_eq, appendU32Be_eq, hlen,
    hzero, Frame.bytes, Frame.header]

end Encoders

end SimpleRedis.Rpc
