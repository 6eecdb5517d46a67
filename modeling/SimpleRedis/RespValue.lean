import SimpleRedis.Numeral
import SimpleRedis.RpcContext

/-!
# Values of the Redis protocol and their encoding

`RESPValue` keeps a type tag and a variant; the model has one constructor for
each tag, with the alternative of the variant that the parser fills in.
-/
namespace SimpleRedis.Resp

/-- An ASCII character of the protocol. -/
def ch (c : Char) : CChar := Int8.ofNat c.toNat

def cr : CChar := 13
def lf : CChar := 10
def crlf : List CChar := [cr, lf]

inductive RESPValue where
  | simpleString (data : List CChar)
  | error (data : List CChar)
  | integer (data : Int64)
  | bulkString (data : List CChar)
  | array (data : List RESPValue)
  | null
  deriving Repr

/-- The character of a decimal digit. -/
def digitChar (d : ℕ) : CChar := Int8.ofNat (48 + d)

/-- `std::to_string` of an unsigned number. -/
def decimal (n : ℕ) : List CChar := (Numeral.numeral 10 n).map digitChar

/-- `std::to_string` of a `long long`. -/
def signedDecimal (n : Int64) : List CChar :=
  if n.toInt < 0 then ch '-' :: decimal n.toInt.natAbs else decimal n.toInt.natAbs

mutual

/-- The bytes of a value on the wire. -/
def RESPValue.enc : RESPValue → List CChar
  | .simpleString s => ch '+' :: (s ++ crlf)
  | .error s => ch '-' :: (s ++ crlf)
  | .integer n => ch ':' :: (signedDecimal n ++ crlf)
  | .bulkString s => ch '$' :: (decimal s.length ++ crlf ++ (s ++ crlf))
  | .array vs => ch '*' :: (decimal vs.length ++ crlf ++ encAll vs)
  | .null => ch '$' :: (ch '-' :: decimal 1 ++ crlf)

/-- The encodings of a list of values one after the other. -/
def encAll : List RESPValue → List CChar
  | [] => []
  | v :: vs => v.enc ++ encAll vs

end

/-- `std::vector<RESPValue>::max_size()`: an element has 48 bytes. -/
def maxElements : ℕ := (2 ^ 63 - 1) / 48

/-- The longest vector that `reserve` finds memory for. -/
structure Memory where
  elements : ℕ
  elements_le : elements ≤ maxElements

/-- Memory for every vector that the library allows. -/
def Memory.unbounded : Memory := ⟨maxElements, Nat.le_refl _⟩

mutual

/-- The values that have an encoding: a line holds no line end, no string is longer than the
library's types allow, and there is memory for every vector. -/
def RESPValue.WellFormed (memory : Memory) : RESPValue → Prop
  | .simpleString s => ¬ crlf <:+: s
  | .error s => ¬ crlf <:+: s
  | .integer _ => True
  | .bulkString s => s.length < 2 ^ 63
  | .array vs => vs.length ≤ memory.elements ∧ AllWellFormed memory vs
  | .null => True

def AllWellFormed (memory : Memory) : List RESPValue → Prop
  | [] => True
  | v :: vs => v.WellFormed memory ∧ AllWellFormed memory vs

end

mutual

/-- With more memory there are more values. -/
theorem RESPValue.WellFormed.mono {memory memory' : Memory}
    (hle : memory.elements ≤ memory'.elements) :
    {v : RESPValue} → v.WellFormed memory → v.WellFormed memory'
  | .simpleString _, h => h
  | .error _, h => h
  | .integer _, h => h
  | .bulkString _, h => h
  | .array _, h => ⟨h.1.trans hle, AllWellFormed.mono hle h.2⟩
  | .null, h => h

theorem AllWellFormed.mono {memory memory' : Memory} (hle : memory.elements ≤ memory'.elements) :
    {vs : List RESPValue} → AllWellFormed memory vs → AllWellFormed memory' vs
  | [], _ => trivial
  | _ :: _, h => ⟨h.1.mono hle, AllWellFormed.mono hle h.2⟩

end

theorem encAll_append (vs ws : List RESPValue) : encAll (vs ++ ws) = encAll vs ++ encAll ws := by
  induction vs with
  | nil => rfl
  | cons v vs ih => rw [List.cons_append, encAll, encAll, ih, List.append_assoc]

theorem allWellFormed_append {memory : Memory} {vs ws : List RESPValue} :
    AllWellFormed memory (vs ++ ws) ↔ AllWellFormed memory vs ∧ AllWellFormed memory ws := by
  induction vs with
  | nil => simp [AllWellFormed]
  | cons v vs ih => simp only [List.cons_append, AllWellFormed, ih, and_assoc]

/-- `data.find("\r\n")` in what is left of a string. -/
def findCrlf : List CChar → Option ℕ
  | [] => none
  | c :: rest => if c = cr ∧ rest.head? = some lf then some 0 else (findCrlf rest).map (· + 1)

section Lines

variable {s xs ys : List CChar}

theorem findCrlf_cons_eq_none {c : CChar} :
    findCrlf (c :: xs) = none ↔ ¬ (c = cr ∧ xs.head? = some lf) ∧ findCrlf xs = none := by
  rw [findCrlf]
  split
  · rename_i h
    simp [h]
  · rename_i h
    simp [h]

theorem findCrlf_eq_none_iff : findCrlf s = none ↔ ¬ crlf <:+: s := by
  induction s with
  | nil => simp [findCrlf, crlf]
  | cons c rest ih =>
      have hcons : crlf <:+: c :: rest ↔ (c = cr ∧ rest.head? = some lf) ∨ crlf <:+: rest := by
        rw [List.infix_cons_iff]
        refine or_congr ?_ Iff.rfl
        cases rest with
        | nil => simp [crlf]
        | cons d rest => simp [crlf, eq_comm]
      rw [hcons, findCrlf_cons_eq_none, ih, not_or]

/-- A line end is looked for behind a part that holds none, unless the part
ends inside a line end. -/
theorem findCrlf_append (h : findCrlf xs = none) (hy : ys.head? ≠ some lf) :
    findCrlf (xs ++ ys) = (findCrlf ys).map (xs.length + ·) := by
  induction xs with
  | nil => simp
  | cons c xs ih =>
      obtain ⟨hhead, hxs⟩ := findCrlf_cons_eq_none.mp h
      have happ : ¬ (c = cr ∧ (xs ++ ys).head? = some lf) := by
        cases xs with
        | nil => exact fun hlf => hy hlf.2
        | cons d xs => exact hhead
      rw [List.cons_append, findCrlf, if_neg happ, ih hxs, Option.map_map]
      congr 1
      funext n
      simp only [Function.comp_apply, List.length_cons]
      omega

theorem findCrlf_of_not_mem (h : cr ∉ s) : findCrlf s = none := by
  induction s with
  | nil => rfl
  | cons c s ih =>
      rw [List.mem_cons, not_or] at h
      exact findCrlf_cons_eq_none.mpr ⟨fun hc => h.1 hc.1.symm, ih h.2⟩

theorem findCrlf_line (h : findCrlf s = none) (rest : List CChar) :
    findCrlf (s ++ (crlf ++ rest)) = some s.length := by
  rw [findCrlf_append h (by simp [crlf, cr, lf])]
  simp [findCrlf, crlf]

theorem findCrlf_replicate_zero (n : ℕ) : findCrlf (List.replicate n 0) = none :=
  findCrlf_of_not_mem (by simp [List.mem_replicate, cr])

theorem head_replicate_zero (n : ℕ) : (List.replicate n (0 : CChar)).head? ≠ some lf := by
  cases n <;> simp [List.replicate_succ, lf]

/-- A line that is cut before its end has no line end, and the zeros behind the
valid bytes of a buffer do not give it one. -/
theorem findCrlf_cut_line (h : findCrlf s = none) {p q : List CChar} (hp : s ++ crlf = p ++ q)
    (hq : q ≠ []) (n : ℕ) : findCrlf (p ++ List.replicate n 0) = none := by
  have hline : findCrlf (s ++ [cr]) = none := by
    rw [findCrlf_append h (by simp [cr, lf])]
    rfl
  have hpart : p <+: s ++ crlf := ⟨q, hp.symm⟩
  have hcut : p <+: s ++ [cr] := by
    refine List.prefix_of_prefix_length_le hpart ⟨[lf], by simp [crlf]⟩ ?_
    have hlen := congrArg List.length hp
    have hpos := List.length_pos_iff.mpr hq
    simp only [List.length_append, crlf, List.length_cons, List.length_nil] at hlen ⊢
    omega
  have hpre : findCrlf p = none := by
    rw [findCrlf_eq_none_iff] at hline ⊢
    exact fun hin => hline (hin.trans hcut.isInfix)
  rw [findCrlf_append hpre (head_replicate_zero n), findCrlf_replicate_zero]
  rfl

end Lines

section Decimals

theorem digitChar_toInt : ∀ d < 10, (digitChar d).toInt = 48 + d := by decide

theorem decimal_ne_nil (n : ℕ) : decimal n ≠ [] := by
  simpa [decimal] using Numeral.numeral_ne_nil 10 n

/-- Every character of a decimal is a digit. -/
theorem mem_decimal {n : ℕ} {c : CChar} (h : c ∈ decimal n) : ∃ d < 10, c = digitChar d := by
  obtain ⟨d, hd, rfl⟩ := List.mem_map.mp h
  exact ⟨d, Numeral.lt_of_mem_numeral (by decide) hd, rfl⟩

theorem mem_decimal_toInt {n : ℕ} {c : CChar} (h : c ∈ decimal n) :
    48 ≤ c.toInt ∧ c.toInt < 58 := by
  obtain ⟨d, hd, rfl⟩ := mem_decimal h
  rw [digitChar_toInt d hd]
  omega

theorem findCrlf_decimal (n : ℕ) : findCrlf (decimal n) = none := by
  refine findCrlf_of_not_mem fun h => ?_
  have := (mem_decimal_toInt h).1
  simp [cr] at this

theorem findCrlf_signedDecimal (n : Int64) : findCrlf (signedDecimal n) = none := by
  unfold signedDecimal
  split
  · exact findCrlf_cons_eq_none.mpr ⟨by simp [ch, cr], findCrlf_decimal _⟩
  · exact findCrlf_decimal _

end Decimals

end SimpleRedis.Resp
