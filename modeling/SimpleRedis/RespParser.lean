import SimpleRedis.RespValue
import Mathlib.Data.List.TakeWhile

/-!
# The recursive parser of replies

`RESP_Parser` works on a string and a position in it. What it throws is an
`Except` error; the position it leaves is part of the result, since its callers
go back to where they started when it throws.
-/
namespace SimpleRedis.Resp

/-- What `parse` throws. `stackOverflow` stands for a recursion without end. -/
inductive ParseError where
  | incomplete
  | unknownType (type : CChar)
  | invalidArgument
  | outOfRange
  | lengthError
  | badAlloc
  | stackOverflow
  deriving DecidableEq, Repr

abbrev Parse (α : Type) := Except ParseError α

/-- `std::isspace` in the C locale. -/
def isSpace (c : CChar) : Bool := c.toInt = 32 || (9 ≤ c.toInt && c.toInt ≤ 13)

def isDigit (c : CChar) : Bool := 48 ≤ c.toInt && c.toInt < 58

/-- The sign that `strtoll` accepts in front of the digits. -/
def takeSign : List CChar → Bool × List CChar
  | [] => (false, [])
  | c :: rest =>
      if c = ch '-' then (true, rest) else if c = ch '+' then (false, rest) else (false, c :: rest)

/-- `std::stoll`: white space, a sign and as many digits as there are. -/
def stoll (s : List CChar) : Parse Int64 :=
  let signed := takeSign (s.dropWhile isSpace)
  let digits := signed.2.takeWhile isDigit
  if digits = [] then .error .invalidArgument
  else
    let magnitude : ℤ := Numeral.value 10 (digits.map fun c => (c.toInt - 48).toNat)
    let value := if signed.1 then -magnitude else magnitude
    if value < -2 ^ 63 ∨ 2 ^ 63 ≤ value then .error .outOfRange else .ok (Int64.ofInt value)

/-- `read_line`. -/
def readLine (data : List CChar) (pos : ℕ) : Parse (List CChar × ℕ) :=
  match findCrlf (data.drop pos) with
  | none => .error .incomplete
  | some n => .ok ((data.drop pos).take n, pos + n + 2)

/-- `pos + len` in `size_t`. A sum below zero wraps to a number that is larger
than the size of any string. -/
def sizeAdd (pos : ℕ) (len : Int64) : Option ℕ :=
  if pos + len.toInt < 0 then none else some (pos + len.toInt).toNat

/-- `data.substr(pos, len)`; a negative `len` is a count beyond every string. -/
def substr (data : List CChar) (pos : ℕ) (len : Int64) : List CChar :=
  if len.toInt < 0 then data.drop pos else (data.drop pos).take len.toInt.toNat

def parseSimpleString (data : List CChar) (pos : ℕ) : Parse (RESPValue × ℕ) := do
  let (line, pos) ← readLine data pos
  return (.simpleString line, pos)

def parseError (data : List CChar) (pos : ℕ) : Parse (RESPValue × ℕ) := do
  let (line, pos) ← readLine data pos
  return (.error line, pos)

def parseInteger (data : List CChar) (pos : ℕ) : Parse (RESPValue × ℕ) := do
  let (line, pos) ← readLine data pos
  let n ← stoll line
  return (.integer n, pos)

def parseBulkString (data : List CChar) (pos : ℕ) : Parse (RESPValue × ℕ) := do
  let (lenStr, pos) ← readLine data pos
  let len ← stoll lenStr
  if len = -1 then return (.null, pos)
  match sizeAdd pos len with
  | none => throw .incomplete
  | some stop =>
      if data.length < stop then throw .incomplete
      if data.length < stop + 2 ∨ data[stop]? ≠ some cr ∨ data[stop + 1]? ≠ some lf then
        throw .incomplete
      return (.bulkString (substr data pos len), stop + 2)

/-- The loop of `parse_array`, with the parser for one element. -/
def parseElements (parse : ℕ → Parse (RESPValue × ℕ)) : ℕ → ℕ → Parse (List RESPValue × ℕ)
  | 0, pos => return ([], pos)
  | n + 1, pos => do
      let (v, pos) ← parse pos
      let (vs, pos) ← parseElements parse n pos
      return (v :: vs, pos)

/-- `elements.reserve(len)`; a negative `len` is a count beyond every vector. -/
def reserve (memory : Memory) (len : Int64) : Parse Unit :=
  if len.toInt < 0 ∨ (maxElements : ℤ) < len.toInt then .error .lengthError
  else if (memory.elements : ℤ) < len.toInt then .error .badAlloc
  else .ok ()

def parseArray (memory : Memory) (parse : ℕ → Parse (RESPValue × ℕ)) (data : List CChar)
    (pos : ℕ) : Parse (RESPValue × ℕ) := do
  let (lenStr, pos) ← readLine data pos
  let len ← stoll lenStr
  if len = -1 then return (.array [], pos)
  reserve memory len
  let (elements, pos) ← parseElements parse len.toInt.toNat pos
  return (.array elements, pos)

/-- `parse_value`, with a bound on the depth of the recursion. -/
def parseValue (memory : Memory) (data : List CChar) : ℕ → ℕ → Parse (RESPValue × ℕ)
  | 0, _ => throw .stackOverflow
  | depth + 1, pos =>
      match data[pos]? with
      | none => throw .incomplete
      | some type =>
          if type = ch '+' then parseSimpleString data (pos + 1)
          else if type = ch '-' then parseError data (pos + 1)
          else if type = ch ':' then parseInteger data (pos + 1)
          else if type = ch '$' then parseBulkString data (pos + 1)
          else if type = ch '*' then parseArray memory (parseValue memory data depth) data (pos + 1)
          else throw (.unknownType type)

/-- `RESP_Parser::parse`. A chain of calls longer than the string has come back
to a position where one of them started, so it has no end. -/
def parse (memory : Memory) (data : List CChar) (pos : ℕ) : Parse (RESPValue × ℕ) :=
  parseValue memory data (data.length + 1) pos

section Types

variable {memory : Memory} {data : List CChar} {depth pos : ℕ}

theorem parseValue_simpleString (htype : data[pos]? = some (ch '+')) :
    parseValue memory data (depth + 1) pos = parseSimpleString data (pos + 1) := by
  simp only [parseValue, htype, if_true]

theorem parseValue_error (htype : data[pos]? = some (ch '-')) :
    parseValue memory data (depth + 1) pos = parseError data (pos + 1) := by
  have hplus : ch '-' ≠ ch '+' := by decide
  simp only [parseValue, htype, if_neg hplus, if_true]

theorem parseValue_integer (htype : data[pos]? = some (ch ':')) :
    parseValue memory data (depth + 1) pos = parseInteger data (pos + 1) := by
  have hplus : ch ':' ≠ ch '+' := by decide
  have hminus : ch ':' ≠ ch '-' := by decide
  simp only [parseValue, htype, if_neg hplus, if_neg hminus, if_true]

theorem parseValue_bulkString (htype : data[pos]? = some (ch '$')) :
    parseValue memory data (depth + 1) pos = parseBulkString data (pos + 1) := by
  have hplus : ch '$' ≠ ch '+' := by decide
  have hminus : ch '$' ≠ ch '-' := by decide
  have hcolon : ch '$' ≠ ch ':' := by decide
  simp only [parseValue, htype, if_neg hplus, if_neg hminus, if_neg hcolon, if_true]

theorem parseValue_array (htype : data[pos]? = some (ch '*')) :
    parseValue memory data (depth + 1) pos =
      parseArray memory (parseValue memory data depth) data (pos + 1) := by
  have hplus : ch '*' ≠ ch '+' := by decide
  have hminus : ch '*' ≠ ch '-' := by decide
  have hcolon : ch '*' ≠ ch ':' := by decide
  have hdollar : ch '*' ≠ ch '$' := by decide
  simp only [parseValue, htype, if_neg hplus, if_neg hminus, if_neg hcolon, if_neg hdollar,
    if_true]

end Types

section Numbers

variable {n : ℕ}

theorem isDigit_of_mem_decimal {c : CChar} (h : c ∈ decimal n) : isDigit c = true := by
  have := mem_decimal_toInt h
  simpa [isDigit] using this

theorem value_decimal (n : ℕ) :
    Numeral.value 10 ((decimal n).map fun c => (c.toInt - 48).toNat) = n := by
  have hmap : (decimal n).map (fun c => (c.toInt - 48).toNat) = Numeral.numeral 10 n := by
    rw [decimal, List.map_map]
    refine (List.map_congr_left fun d hd => ?_).trans (List.map_id _)
    have hlt := Numeral.lt_of_mem_numeral (by decide) hd
    simp only [Function.comp_apply, digitChar_toInt d hlt, id]
    omega
  rw [hmap, Numeral.value_numeral]

/-- Neither white space nor a sign is a digit. -/
theorem takeSign_dropWhile_decimal (n : ℕ) :
    takeSign ((decimal n).dropWhile isSpace) = (false, decimal n) := by
  have hdigit : ∀ c ∈ decimal n, 48 ≤ c.toInt := fun c hc => (mem_decimal_toInt hc).1
  cases hd : decimal n with
  | nil => exact absurd hd (decimal_ne_nil n)
  | cons c rest =>
      have hc : 48 ≤ c.toInt := hdigit c (by rw [hd]; exact List.mem_cons_self)
      have hspace : isSpace c = false := by
        simp only [isSpace, Bool.or_eq_false_iff, decide_eq_false_iff_not, Bool.and_eq_false_iff]
        omega
      have hminus : c ≠ ch '-' := by
        rintro rfl
        simp [ch] at hc
      have hplus : c ≠ ch '+' := by
        rintro rfl
        simp [ch] at hc
      rw [List.dropWhile_cons_of_neg (by simp [hspace]), takeSign, if_neg hminus, if_neg hplus]

theorem stoll_of_takeSign {s : List CChar} {neg : Bool}
    (h : takeSign (s.dropWhile isSpace) = (neg, decimal n)) :
    stoll s =
      let value : ℤ := if neg then -n else n
      if value < -2 ^ 63 ∨ 2 ^ 63 ≤ value then .error .outOfRange else .ok (Int64.ofInt value) := by
  have hall : (decimal n).takeWhile isDigit = decimal n :=
    List.takeWhile_eq_self_iff.mpr fun c hc => isDigit_of_mem_decimal hc
  simp only [stoll, h, hall, decimal_ne_nil, if_false, value_decimal]

theorem stoll_decimal (hn : n < 2 ^ 63) : stoll (decimal n) = .ok (Int64.ofInt n) := by
  have hrange : ¬ ((n : ℤ) < -2 ^ 63 ∨ 2 ^ 63 ≤ (n : ℤ)) := by omega
  rw [stoll_of_takeSign (takeSign_dropWhile_decimal n)]
  simp only [Bool.false_eq_true, if_false, hrange]

theorem stoll_signedDecimal (n : Int64) : stoll (signedDecimal n) = .ok n := by
  have hle := n.le_toInt
  have hlt := n.toInt_lt
  have hofInt : Int64.ofInt n.toInt = n := Int64.ofInt_toInt n
  unfold signedDecimal
  split
  · rename_i hneg
    have hsign : takeSign ((ch '-' :: decimal n.toInt.natAbs).dropWhile isSpace) =
        (true, decimal n.toInt.natAbs) := by
      rw [List.dropWhile_cons_of_neg (by decide)]
      rfl
    have habs : -(n.toInt.natAbs : ℤ) = n.toInt := by omega
    have hrange : ¬ (n.toInt < -2 ^ 63 ∨ 2 ^ 63 ≤ n.toInt) := by omega
    rw [stoll_of_takeSign hsign]
    simp only [if_true, habs, hrange, if_false, hofInt]
  · rename_i hpos
    have habs : (n.toInt.natAbs : ℤ) = n.toInt := by omega
    have hrange : ¬ (n.toInt < -2 ^ 63 ∨ 2 ^ 63 ≤ n.toInt) := by omega
    rw [stoll_of_takeSign (takeSign_dropWhile_decimal _)]
    simp only [Bool.false_eq_true, if_false, habs, hrange, hofInt]

end Numbers

section Lines

variable {data s p q rest : List CChar} {pos : ℕ}

theorem readLine_line (hs : findCrlf s = none) (h : data.drop pos = s ++ (crlf ++ rest)) :
    readLine data pos = .ok (s, pos + s.length + 2) := by
  simp only [readLine, h, findCrlf_line hs, List.take_left]

/-- A line that is cut is incomplete, with zeros behind it or nothing. -/
theorem readLine_cut (hs : findCrlf s = none) (hcut : s ++ crlf = p ++ q) (hq : q ≠ []) {n : ℕ}
    (h : data.drop pos = p ++ List.replicate n 0) : readLine data pos = .error .incomplete := by
  simp only [readLine, h, findCrlf_cut_line hs hcut hq]

end Lines

end SimpleRedis.Resp
