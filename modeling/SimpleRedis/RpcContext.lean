import SimpleRedis.BigEndian

/-!
# Characters, integers and the parse context of the RPC server

`RpcServer.cpp` keeps received bytes in `std::string`s and in a
`std::vector<char>`, and `char` is signed on the targets of the build. The
model keeps that type, so every place where the code casts to `unsigned char`
shows as a call of `u8`.
-/
namespace SimpleRedis

/-- A signed eight-bit `char`. -/
abbrev CChar := Int8

/-- The bytes of a socket as `read` stores them in a `char` buffer. -/
def toChars (bytes : List UInt8) : List CChar := bytes.map UInt8.toInt8

/-- `static_cast<unsigned char>`. -/
def u8 (c : CChar) : UInt8 := c.toUInt8

@[simp] theorem u8_toInt8 (b : UInt8) : u8 b.toInt8 = b := by simp [u8]

theorem u8_injective {c d : CChar} (h : u8 c = u8 d) : c = d := by
  have := congrArg UInt8.toInt8 h
  simpa [u8] using this

@[simp] theorem map_u8_toChars (bytes : List UInt8) : (toChars bytes).map u8 = bytes := by
  simp [toChars, Function.comp_def]

theorem toChars_map_u8 (cs : List CChar) : toChars (cs.map u8) = cs := by
  simp [toChars, u8, Function.comp_def]

@[simp] theorem length_toChars (bytes : List UInt8) : (toChars bytes).length = bytes.length := by
  simp [toChars]

@[simp] theorem toChars_nil : toChars [] = [] := rfl

@[simp] theorem toChars_cons (b : UInt8) (bytes : List UInt8) :
    toChars (b :: bytes) = b.toInt8 :: toChars bytes := rfl

@[simp] theorem toChars_append (bytes more : List UInt8) :
    toChars (bytes ++ more) = toChars bytes ++ toChars more := by
  simp [toChars]

namespace Rpc

open BigEndian

def kMagic0 : UInt8 := 0x0a
def kMagic1 : UInt8 := 0x0b
def kMagic2 : UInt8 := 0x0c

/-- The state of the resumable parser: the field it reads next. -/
inductive ParserStatus where
  | soa | sob | type | requestId | errorCode | serviceLen | serviceName
  | funcLen | funcName | paramLen | paramString | eob | eoc
  deriving DecidableEq, Repr

inductive ParserResult where
  | complete | waiting | error
  deriving DecidableEq, Repr

/-- `RequestType::REQUEST`, the only type a server accepts. -/
def RequestType.request : UInt8 := 1

/-- The members of `RpcContext` with the values its constructor gives them. -/
structure RpcContext where
  status : ParserStatus := .soa
  result : ParserResult := .waiting
  requestId : UInt64 := 0
  serviceName : List CChar := []
  funcName : List CChar := []
  params : List CChar := []
  buffer : List CChar := []
  deriving DecidableEq, Repr

namespace RpcContext

def resetMessage (ctx : RpcContext) : RpcContext :=
  { ctx with requestId := 0, serviceName := [], funcName := [], params := [], buffer := [] }

@[simp] theorem resetMessage_status (ctx : RpcContext) : ctx.resetMessage.status = ctx.status := rfl

@[simp] theorem resetMessage_result (ctx : RpcContext) : ctx.resetMessage.result = ctx.result := rfl

end RpcContext

/-- `read_u64_be`: eight chars, each widened through `unsigned char`. -/
def readU64Be (p : List CChar) : UInt64 :=
  (p.take 8).foldl (fun v c => v <<< 8 ||| (u8 c).toUInt64) 0

/-- `read_u32_be`. -/
def readU32Be (p : List CChar) : UInt32 :=
  (p.take 4).foldl (fun v c => v <<< 8 ||| (u8 c).toUInt32) 0

theorem readU64Be_toNat {p : List CChar} (h : p.length = 8) :
    (readU64Be p).toNat = value (p.map u8) := by
  have hlt := value_lt (p.map u8)
  rw [List.length_map, h] at hlt
  have hfold := foldl_toNat UInt64.toNat (fun v b => v <<< 8 ||| b.toUInt64) (2 ^ 64)
    u64_step (p.map u8) 0 (by simpa using hlt)
  rw [List.foldl_map] at hfold
  simpa [readU64Be, List.take_of_length_le h.le] using hfold

theorem readU32Be_toNat {p : List CChar} (h : p.length = 4) :
    (readU32Be p).toNat = value (p.map u8) := by
  have hlt := value_lt (p.map u8)
  rw [List.length_map, h] at hlt
  have hfold := foldl_toNat UInt32.toNat (fun v b => v <<< 8 ||| b.toUInt32) (2 ^ 32)
    u32_step (p.map u8) 0 (by simpa using hlt)
  rw [List.foldl_map] at hfold
  simpa [readU32Be, List.take_of_length_le h.le] using hfold

/-- Eight stored bytes are the big-endian form of the integer read from them. -/
theorem toChars_digits_readU64Be {p : List CChar} (h : p.length = 8) :
    toChars (digits 8 (readU64Be p).toNat) = p := by
  have hd := digits_value (p.map u8)
  rw [List.length_map, h] at hd
  rw [readU64Be_toNat h, hd, toChars_map_u8]

theorem toChars_digits_readU32Be {p : List CChar} (h : p.length = 4) :
    toChars (digits 4 (readU32Be p).toNat) = p := by
  have hd := digits_value (p.map u8)
  rw [List.length_map, h] at hd
  rw [readU32Be_toNat h, hd, toChars_map_u8]

theorem readU64Be_digits {n : ℕ} (h : n < 2 ^ 64) :
    (readU64Be (toChars (digits 8 n))).toNat = n := by
  rw [readU64Be_toNat (by simp), map_u8_toChars]
  exact value_digits_of_lt (by simpa using h)

theorem readU32Be_digits {n : ℕ} (h : n < 2 ^ 32) :
    (readU32Be (toChars (digits 4 n))).toNat = n := by
  rw [readU32Be_toNat (by simp), map_u8_toChars]
  exact value_digits_of_lt (by simpa using h)

end Rpc

end SimpleRedis
