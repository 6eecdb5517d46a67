import SimpleRedis.RespParser

/-!
# Parsing encodings, whole and cut

The parser reads back every encoding, whatever stands before and behind it. An
encoding that is cut short is followed in the connection's buffer by zeros or by
the end of the buffer: the parser calls it incomplete, except where a value is
due at the cut and it takes a zero for the type of that value.
-/
namespace SimpleRedis.Resp

/-- The bytes of an array in front of its elements. -/
def arrayHeader (n : ℕ) : List CChar := ch '*' :: (decimal n ++ crlf)

mutual

/-- A value is due behind the first `n` bytes of the encoding. -/
def RESPValue.dueAt : RESPValue → ℕ → Bool
  | .array vs, n =>
      n == 0 || ((arrayHeader vs.length).length ≤ n &&
        dueIn vs (n - (arrayHeader vs.length).length))
  | _, n => n == 0

def dueIn : List RESPValue → ℕ → Bool
  | [], _ => false
  | v :: vs, n => if n < v.enc.length then v.dueAt n else dueIn vs (n - v.enc.length)

end

mutual

/-- There is memory for every array whose header is complete in the first `n` bytes of the
encoding. -/
def RESPValue.fitsTo (memory : Memory) : RESPValue → ℕ → Bool
  | .array vs, n =>
      n < (arrayHeader vs.length).length ||
        (vs.length ≤ memory.elements && fitsIn memory vs (n - (arrayHeader vs.length).length))
  | _, _ => true

def fitsIn (memory : Memory) : List RESPValue → ℕ → Bool
  | [], _ => true
  | v :: vs, n => v.fitsTo memory n && fitsIn memory vs (n - v.enc.length)

end

section Whole

variable {memory : Memory} {data rest : List CChar} {pos : ℕ}

theorem getElem?_of_drop {c : CChar} {tail : List CChar} (h : data.drop pos = c :: tail) :
    data[pos]? = some c ∧ data.drop (pos + 1) = tail := by
  constructor
  · have := congrArg List.head? h
    rwa [List.head?_drop] at this
  · rw [← List.drop_drop, h]
    rfl

theorem drop_field {field : List CChar} (h : data.drop pos = field ++ rest) :
    data.drop (pos + field.length) = rest := by
  rw [← List.drop_drop, h, List.drop_left]

theorem drop_line {line : List CChar} (h : data.drop pos = line ++ (crlf ++ rest)) :
    data.drop (pos + line.length + 2) = rest := by
  have hline : data.drop (pos + line.length) = crlf ++ rest := drop_field h
  exact drop_field hline

theorem length_of_drop_eq {tail : List CChar} (h : data.drop pos = tail) (hne : tail ≠ []) :
    data.length = pos + tail.length := by
  have hlen := congrArg List.length h
  have hpos := List.length_pos_iff.mpr hne
  rw [List.length_drop] at hlen
  omega

theorem parseBulkString_whole {s : List CChar} (hs : s.length < 2 ^ 63)
    (h : data.drop pos = decimal s.length ++ (crlf ++ (s ++ (crlf ++ rest)))) :
    parseBulkString data pos =
      .ok (.bulkString s, pos + (decimal s.length).length + 2 + s.length + 2) := by
  have hline := readLine_line (findCrlf_decimal s.length) h
  have hlen : (Int64.ofInt s.length).toInt = s.length :=
    Int64.toInt_ofInt_of_le (by omega) (by omega)
  have hne : Int64.ofInt s.length ≠ -1 := by
    intro heq
    rw [heq] at hlen
    have : (-1 : Int64).toInt = -1 := rfl
    omega
  have hbody := drop_line h
  have hend := drop_field hbody
  set start := pos + (decimal s.length).length + 2 with hstart
  have hsize := length_of_drop_eq hend (by simp [crlf])
  rw [List.length_append] at hsize
  have hend' : data.drop (start + s.length) = cr :: lf :: rest := hend
  obtain ⟨hcr, htail⟩ := getElem?_of_drop hend'
  obtain ⟨hlf, -⟩ := getElem?_of_drop htail
  have hadd : sizeAdd start (Int64.ofInt s.length) = some (start + s.length) := by
    rw [sizeAdd, hlen, if_neg (by omega)]
    congr 1
  have hsub : substr data start (Int64.ofInt s.length) = s := by
    rw [substr, hlen, if_neg (by omega), hbody, Int.toNat_natCast, List.take_left]
  have hroom : ¬ (data.length < start + s.length + 2) := by
    simp only [crlf, List.length_cons, List.length_nil] at hsize
    omega
  have hroom' : ¬ (data.length < start + s.length) := by omega
  simp only [parseBulkString, hline, stoll_decimal hs, bind, Except.bind, hne, if_false, hadd,
    hroom, hroom', hcr, hlf, hsub, ne_eq, not_true_eq_false, or_self]
  rfl

theorem toInt_ofInt_of_le_maxElements {n : ℕ} (hn : n ≤ maxElements) :
    (Int64.ofInt n).toInt = n := by
  have hmax : maxElements < 2 ^ 63 := by decide
  exact Int64.toInt_ofInt_of_le (by omega) (by omega)

theorem reserve_ofInt {n : ℕ} (hn : n ≤ maxElements) :
    reserve memory (Int64.ofInt n) = if n ≤ memory.elements then .ok () else .error .badAlloc := by
  have hrange : ¬ ((n : ℤ) < 0 ∨ (maxElements : ℤ) < n) := by omega
  rw [reserve, toInt_ofInt_of_le_maxElements hn, if_neg hrange]
  by_cases hroom : n ≤ memory.elements
  · rw [if_pos hroom, if_neg (by omega)]
  · rw [if_neg hroom, if_pos (by omega)]

/-- An array of known length is parsed by the loop over its elements, if there is memory
for them. -/
theorem parseArray_header {parse : ℕ → Parse (RESPValue × ℕ)} {n : ℕ} (hn : n ≤ maxElements)
    (h : data.drop pos = decimal n ++ (crlf ++ rest)) :
    parseArray memory parse data pos =
      if n ≤ memory.elements then
        (parseElements parse n (pos + (decimal n).length + 2)).map fun out =>
          (.array out.1, out.2)
      else .error .badAlloc := by
  have hline := readLine_line (findCrlf_decimal n) h
  have hmax : maxElements < 2 ^ 63 := by decide
  have hlen := toInt_ofInt_of_le_maxElements hn
  have hne : Int64.ofInt n ≠ -1 := by
    intro heq
    rw [heq] at hlen
    have : (-1 : Int64).toInt = -1 := rfl
    omega
  simp only [parseArray, hline, stoll_decimal (n := n) (by omega), bind, Except.bind, hne,
    if_false, reserve_ofInt hn, hlen, Int.toNat_natCast]
  by_cases hroom : n ≤ memory.elements
  · simp only [hroom, if_true]
    cases parseElements parse n (pos + (decimal n).length + 2) <;> rfl
  · simp only [hroom, if_false]

theorem parseValue_type {c : CChar} {tail : List CChar} {depth : ℕ}
    (h : data.drop pos = c :: tail) :
    parseValue memory data (depth + 1) pos =
      if c = ch '+' then parseSimpleString data (pos + 1)
      else if c = ch '-' then parseError data (pos + 1)
      else if c = ch ':' then parseInteger data (pos + 1)
      else if c = ch '$' then parseBulkString data (pos + 1)
      else if c = ch '*' then parseArray memory (parseValue memory data depth) data (pos + 1)
      else throw (.unknownType c) := by
  simp only [parseValue, (getElem?_of_drop h).1]

theorem RESPValue.enc_length_pos (v : RESPValue) : 0 < v.enc.length := by
  cases v <;> simp [enc]

mutual

/-- Every encoding is read back, with the position behind it. -/
theorem parseValue_enc : (v : RESPValue) → v.WellFormed memory →
    ∀ (depth pos : ℕ) (rest : List CChar), v.enc.length ≤ depth → data.drop pos = v.enc ++ rest →
    parseValue memory data depth pos = .ok (v, pos + v.enc.length)
  | v, hv, 0, pos, rest, hdepth, h => absurd v.enc_length_pos (by omega)
  | .simpleString s, hv, depth + 1, pos, rest, hdepth, h => by
      have h' : data.drop pos = ch '+' :: (s ++ (crlf ++ rest)) := by simpa [RESPValue.enc] using h
      obtain ⟨htype, htail⟩ := getElem?_of_drop h'
      have hline := readLine_line (findCrlf_eq_none_iff.mpr hv) htail
      rw [parseValue_simpleString htype, parseSimpleString, hline]
      simp only [RESPValue.enc, crlf, List.length_cons, List.length_append, List.length_nil]
      exact congrArg (fun n => Except.ok (RESPValue.simpleString s, n)) (by omega)
  | .error s, hv, depth + 1, pos, rest, hdepth, h => by
      have h' : data.drop pos = ch '-' :: (s ++ (crlf ++ rest)) := by simpa [RESPValue.enc] using h
      obtain ⟨htype, htail⟩ := getElem?_of_drop h'
      have hline := readLine_line (findCrlf_eq_none_iff.mpr hv) htail
      rw [parseValue_error htype, parseError, hline]
      simp only [RESPValue.enc, crlf, List.length_cons, List.length_append, List.length_nil]
      exact congrArg (fun n => Except.ok (RESPValue.error s, n)) (by omega)
  | .integer n, hv, depth + 1, pos, rest, hdepth, h => by
      have h' : data.drop pos = ch ':' :: (signedDecimal n ++ (crlf ++ rest)) := by
        simpa [RESPValue.enc] using h
      obtain ⟨htype, htail⟩ := getElem?_of_drop h'
      have hline := readLine_line (findCrlf_signedDecimal n) htail
      rw [parseValue_integer htype, parseInteger, hline]
      simp only [bind, Except.bind, stoll_signedDecimal]
      simp only [RESPValue.enc, crlf, List.length_cons, List.length_append, List.length_nil]
      exact congrArg (fun m => Except.ok (RESPValue.integer n, m)) (by omega)
  | .bulkString s, hv, depth + 1, pos, rest, hdepth, h => by
      have h' : data.drop pos =
          ch '$' :: (decimal s.length ++ (crlf ++ (s ++ (crlf ++ rest)))) := by
        simpa [RESPValue.enc] using h
      obtain ⟨htype, htail⟩ := getElem?_of_drop h'
      rw [parseValue_bulkString htype, parseBulkString_whole hv htail]
      simp only [RESPValue.enc, crlf, List.length_cons, List.length_append, List.length_nil]
      exact congrArg (fun n => Except.ok (RESPValue.bulkString s, n)) (by omega)
  | .array vs, hv, depth + 1, pos, rest, hdepth, h => by
      have h' : data.drop pos =
          ch '*' :: (decimal vs.length ++ (crlf ++ (encAll vs ++ rest))) := by
        simpa [RESPValue.enc] using h
      obtain ⟨htype, htail⟩ := getElem?_of_drop h'
      have henc : (RESPValue.array vs).enc.length =
          1 + (decimal vs.length).length + 2 + (encAll vs).length := by
        simp only [RESPValue.enc, crlf, List.length_cons, List.length_append, List.length_nil]
        omega
      rw [parseValue_array htype, parseArray_header (hv.1.trans memory.elements_le) htail,
        if_pos hv.1, parseElements_encAll vs hv.2 depth _ rest (by omega) (drop_line htail), henc]
      exact congrArg (fun n => Except.ok (RESPValue.array vs, n)) (by omega)
  | .null, hv, depth + 1, pos, rest, hdepth, h => by
      have h' : data.drop pos = ch '$' :: (ch '-' :: decimal 1 ++ (crlf ++ rest)) := by
        simpa [RESPValue.enc] using h
      obtain ⟨htype, htail⟩ := getElem?_of_drop h'
      have hline := readLine_line (s := ch '-' :: decimal 1) (by decide) htail
      have hlen : stoll (ch '-' :: decimal 1) = .ok (-1) := by decide
      rw [parseValue_bulkString htype, parseBulkString, hline]
      simp only [bind, Except.bind, hlen, if_true]
      simp only [RESPValue.enc, crlf, List.length_cons, List.length_append, List.length_nil]
      exact congrArg (fun n => Except.ok (RESPValue.null, n)) (by omega)

theorem parseElements_encAll : (vs : List RESPValue) → AllWellFormed memory vs →
    ∀ (depth pos : ℕ) (rest : List CChar), (encAll vs).length ≤ depth →
    data.drop pos = encAll vs ++ rest →
    parseElements (parseValue memory data depth) vs.length pos = .ok (vs, pos + (encAll vs).length)
  | [], _, depth, pos, rest, _, _ => rfl
  | v :: vs, hvs, depth, pos, rest, hdepth, h => by
      have h' : data.drop pos = v.enc ++ (encAll vs ++ rest) := by simpa [encAll] using h
      rw [encAll, List.length_append] at hdepth ⊢
      have hfirst := parseValue_enc v hvs.1 depth pos _ (by omega) h'
      have hothers := parseElements_encAll vs hvs.2 depth _ rest (by omega) (drop_field h')
      rw [List.length_cons, parseElements, hfirst]
      simp only [bind, Except.bind, hothers]
      rw [Nat.add_assoc]
      rfl

end

end Whole

section Fits

variable {memory : Memory}

mutual

theorem fitsTo_of_wellFormed :
    (v : RESPValue) → v.WellFormed memory → ∀ n : ℕ, v.fitsTo memory n = true
  | .simpleString _, _, _ => rfl
  | .error _, _, _ => rfl
  | .integer _, _, _ => rfl
  | .bulkString _, _, _ => rfl
  | .array vs, hv, n => by
      rw [RESPValue.fitsTo, decide_eq_true hv.1, fitsIn_of_allWellFormed vs hv.2, Bool.and_self,
        Bool.or_true]
  | .null, _, _ => rfl

theorem fitsIn_of_allWellFormed :
    (vs : List RESPValue) → AllWellFormed memory vs → ∀ n : ℕ, fitsIn memory vs n = true
  | [], _, _ => rfl
  | v :: vs, hvs, n => by
      rw [fitsIn, fitsTo_of_wellFormed v hvs.1, fitsIn_of_allWellFormed vs hvs.2, Bool.and_self]

end

mutual

/-- A value all of whose headers fit is one that memory holds. -/
theorem wellFormed_of_fitsTo : (v : RESPValue) → v.WellFormed .unbounded →
    ∀ n : ℕ, v.enc.length ≤ n → v.fitsTo memory n = true → v.WellFormed memory
  | .simpleString _, hv, _, _, _ => hv
  | .error _, hv, _, _, _ => hv
  | .integer _, hv, _, _, _ => hv
  | .bulkString _, hv, _, _, _ => hv
  | .array vs, hv, n, hn, hfits => by
      have hlen : (RESPValue.array vs).enc.length =
          (arrayHeader vs.length).length + (encAll vs).length := by
        simp only [RESPValue.enc, arrayHeader, List.length_cons, List.length_append]
        omega
      rw [RESPValue.fitsTo, decide_eq_false (by omega), Bool.false_or, Bool.and_eq_true,
        decide_eq_true_eq] at hfits
      exact ⟨hfits.1, allWellFormed_of_fitsIn vs hv.2 _ (by omega) hfits.2⟩
  | .null, hv, _, _, _ => hv

theorem allWellFormed_of_fitsIn : (vs : List RESPValue) → AllWellFormed .unbounded vs →
    ∀ n : ℕ, (encAll vs).length ≤ n → fitsIn memory vs n = true → AllWellFormed memory vs
  | [], _, _, _, _ => trivial
  | v :: vs, hvs, n, hn, hfits => by
      rw [encAll, List.length_append] at hn
      rw [fitsIn, Bool.and_eq_true] at hfits
      exact ⟨wellFormed_of_fitsTo v hvs.1 n (by omega) hfits.1,
        allWellFormed_of_fitsIn vs hvs.2 _ (by omega) hfits.2⟩

end

theorem fitsTo_zero (v : RESPValue) : v.fitsTo memory 0 = true := by
  cases v with
  | array vs => simp [RESPValue.fitsTo, arrayHeader]
  | _ => rfl

theorem fitsIn_zero (vs : List RESPValue) : fitsIn memory vs 0 = true := by
  induction vs with
  | nil => rfl
  | cons v vs ih => rw [fitsIn, fitsTo_zero, Nat.zero_sub, ih, Bool.and_self]

theorem fitsTo_array (vs : List RESPValue) (n : ℕ) :
    (RESPValue.array vs).fitsTo memory ((arrayHeader vs.length).length + n) =
      (decide (vs.length ≤ memory.elements) && fitsIn memory vs n) := by
  rw [RESPValue.fitsTo, decide_eq_false (by omega), Bool.false_or, Nat.add_sub_cancel_left]

end Fits

section Cut

variable {memory : Memory} {data p q : List CChar} {pos : ℕ}

/-- What the parser throws at a cut with `zeros` zero bytes behind it. -/
def cutError (due : Bool) (zeros : ℕ) : ParseError :=
  if due ∧ zeros ≠ 0 then .unknownType 0 else .incomplete

theorem cutError_false (zeros : ℕ) : cutError false zeros = .incomplete := by simp [cutError]

/-- A cut falls inside the first part or behind it. -/
theorem cut_append {first second : List CChar} (h : first ++ second = p ++ q) :
    (∃ r, r ≠ [] ∧ first = p ++ r) ∨ ∃ p', p = first ++ p' ∧ second = p' ++ q := by
  rcases List.append_eq_append_iff.mp h with ⟨p', hp, hsecond⟩ | ⟨r, hfirst, hq⟩
  · exact Or.inr ⟨p', hp, hsecond⟩
  · cases r with
    | nil => exact Or.inr ⟨[], by simpa using hfirst.symm, by simpa using hq.symm⟩
    | cons c r => exact Or.inl ⟨c :: r, by simp, hfirst⟩

theorem parseBulkString_cut {s : List CChar} (hs : s.length < 2 ^ 63) (hcut : s ++ crlf = p ++ q)
    (hq : q ≠ []) {zeros : ℕ}
    (h : data.drop pos = decimal s.length ++ (crlf ++ (p ++ List.replicate zeros 0))) :
    parseBulkString data pos = .error .incomplete := by
  have hline := readLine_line (findCrlf_decimal s.length) h
  have hlen : (Int64.ofInt s.length).toInt = s.length :=
    Int64.toInt_ofInt_of_le (by omega) (by omega)
  have hne : Int64.ofInt s.length ≠ -1 := by
    intro heq
    rw [heq] at hlen
    have : (-1 : Int64).toInt = -1 := rfl
    omega
  have hbody := drop_line h
  set start := pos + (decimal s.length).length + 2 with hstart
  have hadd : sizeAdd start (Int64.ofInt s.length) = some (start + s.length) := by
    rw [sizeAdd, hlen, if_neg (by omega)]
    congr 1
  -- the line feed of the encoding lies behind the cut, where there are only zeros
  have hlf : data[start + s.length + 1]? ≠ some lf := by
    have hget : data[start + s.length + 1]? = (data.drop start)[s.length + 1]? := by
      rw [List.getElem?_drop, Nat.add_assoc]
    have hlen := congrArg List.length hcut
    have hpos := List.length_pos_iff.mpr hq
    simp only [List.length_append, crlf, List.length_cons, List.length_nil] at hlen
    rw [hget, hbody, List.getElem?_append_right (by omega), List.getElem?_replicate]
    split <;> simp [lf]
  simp only [parseBulkString, hline, stoll_decimal hs, bind, Except.bind, hne, if_false, hadd]
  by_cases hshort : data.length < start + s.length
  · simp only [hshort, if_true]
    rfl
  · simp only [hshort, if_false, hlf, ne_eq, not_false_eq_true, or_true, if_true]
    rfl

theorem parseValue_zeros {depth zeros : ℕ} (h : data.drop pos = List.replicate zeros 0) :
    parseValue memory data (depth + 1) pos = .error (cutError true zeros) := by
  cases zeros with
  | zero =>
      have hget : data[pos]? = none := by
        rw [← List.head?_drop, h]
        rfl
      simp only [parseValue, hget]
      rfl
  | succ zeros =>
      rw [List.replicate_succ] at h
      rw [parseValue_type h]
      rfl

/-- The cut of a value that is one line behind its type. -/
theorem dueAt_succ_eq_false {v : RESPValue} (h : ∀ vs, v ≠ .array vs) (n : ℕ) :
    v.dueAt (n + 1) = false := by
  cases v with
  | array vs => exact absurd rfl (h vs)
  | _ => rfl

theorem dueAt_zero (v : RESPValue) : v.dueAt 0 = true := by
  cases v <;> simp [RESPValue.dueAt]

theorem dueAt_array (vs : List RESPValue) (n : ℕ) :
    (RESPValue.array vs).dueAt ((arrayHeader vs.length).length + n) = dueIn vs n := by
  have hne : ((arrayHeader vs.length).length + n == 0) = false := by simp [arrayHeader]
  rw [RESPValue.dueAt, hne, Nat.add_sub_cancel_left]
  simp

mutual

/-- An encoding that is cut is incomplete, unless a value is due at the cut and
a zero byte stands in its place. -/
theorem parseValue_cut : (v : RESPValue) → v.WellFormed .unbounded →
    ∀ (depth pos : ℕ) (p q : List CChar) (zeros : ℕ), v.fitsTo memory p.length = true →
    v.enc = p ++ q → q ≠ [] → p.length < depth → data.drop pos = p ++ List.replicate zeros 0 →
    parseValue memory data depth pos = .error (cutError (v.dueAt p.length) zeros)
  | v, hv, depth + 1, pos, [], q, zeros, hfits, hcut, hq, hdepth, h => by
      rw [parseValue_zeros h, List.length_nil, dueAt_zero]
  | .simpleString s, hv, depth + 1, pos, c :: p, q, zeros, hfits, hcut, hq, hdepth, h => by
      obtain ⟨rfl, hbody⟩ := List.cons_eq_cons.mp hcut
      obtain ⟨htype, htail⟩ := getElem?_of_drop h
      have hline := readLine_cut (findCrlf_eq_none_iff.mpr hv) hbody hq htail
      rw [parseValue_simpleString htype, parseSimpleString, hline, List.length_cons,
        dueAt_succ_eq_false (by simp), cutError_false]
      rfl
  | .error s, hv, depth + 1, pos, c :: p, q, zeros, hfits, hcut, hq, hdepth, h => by
      obtain ⟨rfl, hbody⟩ := List.cons_eq_cons.mp hcut
      obtain ⟨htype, htail⟩ := getElem?_of_drop h
      have hline := readLine_cut (findCrlf_eq_none_iff.mpr hv) hbody hq htail
      rw [parseValue_error htype, parseError, hline, List.length_cons,
        dueAt_succ_eq_false (by simp), cutError_false]
      rfl
  | .integer n, hv, depth + 1, pos, c :: p, q, zeros, hfits, hcut, hq, hdepth, h => by
      obtain ⟨rfl, hbody⟩ := List.cons_eq_cons.mp hcut
      obtain ⟨htype, htail⟩ := getElem?_of_drop h
      have hline := readLine_cut (findCrlf_signedDecimal n) hbody hq htail
      rw [parseValue_integer htype, parseInteger, hline, List.length_cons,
        dueAt_succ_eq_false (by simp), cutError_false]
      rfl
  | .bulkString s, hv, depth + 1, pos, c :: p, q, zeros, hfits, hcut, hq, hdepth, h => by
      obtain ⟨rfl, hbody⟩ := List.cons_eq_cons.mp hcut
      obtain ⟨htype, htail⟩ := getElem?_of_drop h
      rw [parseValue_bulkString htype, List.length_cons, dueAt_succ_eq_false (by simp),
        cutError_false]
      rcases cut_append hbody with ⟨r, hr, hheader⟩ | ⟨p', rfl, hcontent⟩
      · rw [parseBulkString, readLine_cut (findCrlf_decimal _) hheader hr htail]
        rfl
      · exact parseBulkString_cut hv hcontent hq (by simpa using htail)
  | .array vs, hv, depth + 1, pos, c :: p, q, zeros, hfits, hcut, hq, hdepth, h => by
      obtain ⟨rfl, hbody⟩ := List.cons_eq_cons.mp hcut
      obtain ⟨htype, htail⟩ := getElem?_of_drop h
      have hheader : (arrayHeader vs.length).length = (decimal vs.length ++ crlf).length + 1 := rfl
      rw [parseValue_array htype]
      rcases cut_append hbody with ⟨r, hr, hfirst⟩ | ⟨p', rfl, helements⟩
      · have hdue : (RESPValue.array vs).dueAt (ch '*' :: p).length = false := by
          have hpos := List.length_pos_iff.mpr hr
          have hlt : ¬ (arrayHeader vs.length).length ≤ p.length + 1 := by
            rw [hheader, hfirst, List.length_append]
            omega
          simp [RESPValue.dueAt, hlt]
        rw [parseArray, readLine_cut (findCrlf_decimal _) hfirst hr htail, hdue, cutError_false]
        rfl
      · have hlen : (ch '*' :: (decimal vs.length ++ crlf ++ p')).length =
            (arrayHeader vs.length).length + p'.length := by
          rw [hheader, List.length_cons, List.length_append]
          omega
        rw [hlen, fitsTo_array, Bool.and_eq_true, decide_eq_true_eq] at hfits
        have htail' : data.drop (pos + 1) =
            decimal vs.length ++ (crlf ++ (p' ++ List.replicate zeros 0)) := by simpa using htail
        simp only [List.length_cons, List.length_append] at hdepth
        rw [parseArray_header hv.1 htail', if_pos hfits.1, parseElements_cut vs hv.2 depth _ p' q
          zeros hfits.2 helements hq (by omega) (drop_line htail'), hlen, dueAt_array]
        rfl
  | .null, hv, depth + 1, pos, c :: p, q, zeros, hfits, hcut, hq, hdepth, h => by
      obtain ⟨rfl, hbody⟩ := List.cons_eq_cons.mp hcut
      obtain ⟨htype, htail⟩ := getElem?_of_drop h
      have hline := readLine_cut (s := ch '-' :: decimal 1) (by decide) hbody hq htail
      rw [parseValue_bulkString htype, parseBulkString, hline, List.length_cons,
        dueAt_succ_eq_false (by simp), cutError_false]
      rfl

theorem parseElements_cut : (vs : List RESPValue) → AllWellFormed .unbounded vs →
    ∀ (depth pos : ℕ) (p q : List CChar) (zeros : ℕ), fitsIn memory vs p.length = true →
    encAll vs = p ++ q → q ≠ [] → p.length < depth →
    data.drop pos = p ++ List.replicate zeros 0 →
    parseElements (parseValue memory data depth) vs.length pos =
      .error (cutError (dueIn vs p.length) zeros)
  | [], _, depth, pos, p, q, zeros, hfits, hcut, hq, hdepth, h => by
      simp [encAll, hq] at hcut
  | v :: vs, hvs, depth, pos, p, q, zeros, hfits, hcut, hq, hdepth, h => by
      rw [encAll] at hcut
      rw [fitsIn, Bool.and_eq_true] at hfits
      rw [List.length_cons, parseElements]
      rcases cut_append hcut with ⟨r, hr, hfirst⟩ | ⟨p', rfl, hothers⟩
      · have hlt : p.length < v.enc.length := by
          have hpos := List.length_pos_iff.mpr hr
          rw [hfirst, List.length_append]
          omega
        rw [parseValue_cut v hvs.1 depth pos p r zeros hfits.1 hfirst hr hdepth h, dueIn,
          if_pos hlt]
        rfl
      · rw [List.append_assoc] at h
        have hge : ¬ (v.enc ++ p').length < v.enc.length := by
          rw [List.length_append]
          omega
        rw [List.length_append, Nat.add_sub_cancel_left] at hfits
        rw [List.length_append] at hdepth
        have hfirst := wellFormed_of_fitsTo v hvs.1 _ (Nat.le_add_right _ _) hfits.1
        rw [parseValue_enc v hfirst depth pos _ (by omega) h, dueIn, if_neg hge,
          List.length_append, Nat.add_sub_cancel_left]
        simp only [bind, Except.bind]
        rw [parseElements_cut vs hvs.2 depth _ p' q zeros hfits.2 hothers hq (by omega)
          (drop_field h)]

end

mutual

/-- A complete header without memory for its elements ends the parse. -/
theorem parseValue_badAlloc : (v : RESPValue) → v.WellFormed .unbounded →
    ∀ (depth pos : ℕ) (p q rest : List CChar), v.fitsTo memory p.length = false →
    v.enc = p ++ q → p.length ≤ depth → data.drop pos = p ++ rest →
    parseValue memory data depth pos = .error .badAlloc
  | .simpleString _, _, _, _, _, _, _, hfits, _, _, _ => nomatch hfits
  | .error _, _, _, _, _, _, _, hfits, _, _, _ => nomatch hfits
  | .integer _, _, _, _, _, _, _, hfits, _, _, _ => nomatch hfits
  | .bulkString _, _, _, _, _, _, _, hfits, _, _, _ => nomatch hfits
  | .null, _, _, _, _, _, _, hfits, _, _, _ => nomatch hfits
  | .array vs, hv, depth, pos, p, q, rest, hfits, hcut, hdepth, h => by
      have hlong : (arrayHeader vs.length).length ≤ p.length := by
        rw [RESPValue.fitsTo, Bool.or_eq_false_iff, decide_eq_false_iff_not] at hfits
        exact Nat.le_of_not_lt hfits.1
      have henc : (RESPValue.array vs).enc = arrayHeader vs.length ++ encAll vs := by
        rw [RESPValue.enc, arrayHeader, List.cons_append, List.append_assoc]
      obtain ⟨p', rfl, helements⟩ :
          ∃ p', p = arrayHeader vs.length ++ p' ∧ encAll vs = p' ++ q := by
        rcases cut_append (henc.symm.trans hcut) with ⟨r, hr, hheader⟩ | hbehind
        · have hpos := List.length_pos_iff.mpr hr
          rw [hheader, List.length_append] at hlong
          omega
        · exact hbehind
      rw [List.length_append, fitsTo_array] at hfits
      rw [List.length_append] at hdepth
      have htail : data.drop pos = ch '*' :: (decimal vs.length ++ (crlf ++ (p' ++ rest))) := by
        simpa [arrayHeader] using h
      obtain ⟨depth, rfl⟩ : ∃ n, depth = n + 1 := by
        refine Nat.exists_eq_add_one.mpr ?_
        rw [arrayHeader, List.length_cons] at hdepth
        omega
      obtain ⟨htype, hbody⟩ := getElem?_of_drop htail
      rw [parseValue_array htype, parseArray_header hv.1 hbody]
      split
      · rename_i hroom
        rw [decide_eq_true hroom, Bool.true_and] at hfits
        simp only [arrayHeader, List.length_cons] at hdepth
        rw [parseElements_badAlloc vs hv.2 depth _ p' q rest hfits helements (by omega)
          (drop_line hbody)]
        rfl
      · rfl

theorem parseElements_badAlloc : (vs : List RESPValue) → AllWellFormed .unbounded vs →
    ∀ (depth pos : ℕ) (p q rest : List CChar), fitsIn memory vs p.length = false →
    encAll vs = p ++ q → p.length ≤ depth → data.drop pos = p ++ rest →
    parseElements (parseValue memory data depth) vs.length pos = .error .badAlloc
  | [], _, _, _, _, _, _, hfits, _, _, _ => nomatch hfits
  | v :: vs, hvs, depth, pos, p, q, rest, hfits, hcut, hdepth, h => by
      rw [encAll] at hcut
      rw [fitsIn, Bool.and_eq_false_iff] at hfits
      rw [List.length_cons, parseElements]
      rcases cut_append hcut with ⟨r, hr, hfirst⟩ | ⟨p', rfl, hothers⟩
      · -- the cut lies in the first element, and the others fit
        have hle : p.length ≤ v.enc.length := by
          rw [hfirst, List.length_append]
          exact Nat.le_add_right _ _
        rw [Nat.sub_eq_zero_of_le hle, fitsIn_zero, Bool.true_eq_false, or_false] at hfits
        rw [parseValue_badAlloc v hvs.1 depth pos p r rest hfits hfirst hdepth h]
        rfl
      · rw [List.append_assoc] at h
        rw [List.length_append, Nat.add_sub_cancel_left] at hfits
        rw [List.length_append] at hdepth
        cases hwhole : v.fitsTo memory v.enc.length with
        | false =>
            rw [parseValue_badAlloc v hvs.1 depth pos v.enc [] _ hwhole (List.append_nil _).symm
              (by omega) h]
            rfl
        | true =>
            have hv := wellFormed_of_fitsTo v hvs.1 _ (Nat.le_refl _) hwhole
            rw [fitsTo_of_wellFormed v hv, Bool.true_eq_false, false_or] at hfits
            rw [parseValue_enc v hv depth pos _ (by omega) h]
            simp only [bind, Except.bind]
            rw [parseElements_badAlloc vs hvs.2 depth _ p' q rest hfits hothers (by omega)
              (drop_field h)]

end

end Cut

section Parse

variable {memory : Memory} {v : RESPValue} {pre p rest : List CChar}

theorem drop_between (pre field rest : List CChar) :
    (pre ++ field ++ rest).drop pre.length = field ++ rest := by
  rw [List.append_assoc, List.drop_left]

/-- An encoding is read back wherever it stands. -/
theorem parse_enc (hv : v.WellFormed memory) (pre rest : List CChar) :
    parse memory (pre ++ v.enc ++ rest) pre.length = .ok (v, pre.length + v.enc.length) := by
  refine parseValue_enc v hv _ _ rest ?_ (drop_between pre v.enc rest)
  simp only [List.length_append]
  omega

/-- A proper prefix of an encoding is recognised as incomplete if and only if there is memory for
the arrays that it announces. -/
theorem parse_prefix_iff (hv : v.WellFormed .unbounded) (hp : p <+: v.enc) (hne : p ≠ v.enc) :
    parse memory p 0 = .error .incomplete ↔ v.fitsTo memory p.length = true := by
  obtain ⟨q, hq⟩ := hp
  have hrest : q ≠ [] := by
    rintro rfl
    exact hne (by rw [← hq, List.append_nil])
  cases hfits : v.fitsTo memory p.length with
  | true =>
      have hzeros : p.drop 0 = p ++ List.replicate 0 0 := (List.append_nil p).symm
      have hcut := parseValue_cut v hv (p.length + 1) 0 p q 0 hfits hq.symm hrest
        (Nat.lt_succ_self _) hzeros
      rw [parse, hcut]
      simp [cutError]
  | false =>
      rw [parse, parseValue_badAlloc v hv (p.length + 1) 0 p q [] hfits hq.symm
        (Nat.le_succ _) (List.append_nil p).symm]
      simp

/-- An array of a bulk string and a null, cut between its elements. -/
theorem parse_prefix_iff_array :
    parse ⟨2, by decide⟩ ((RESPValue.array [.bulkString [13, 10], .null]).enc.take 12) 0 =
        .error .incomplete ↔
      (RESPValue.array [.bulkString [13, 10], .null]).fitsTo ⟨2, by decide⟩ 12 = true :=
  parse_prefix_iff (by simp [RESPValue.WellFormed, AllWellFormed, Memory.unbounded, maxElements])
    (List.take_prefix _ _) (by decide)

/-- An array of a million times a million nulls. -/
def longArray : RESPValue := .array (List.replicate (10 ^ 12) .null)

theorem allWellFormed_replicate (n : ℕ) : AllWellFormed memory (List.replicate n .null) := by
  induction n with
  | zero => trivial
  | succ n ih => exact ⟨trivial, ih⟩

theorem enc_longArray :
    longArray.enc = arrayHeader (10 ^ 12) ++ encAll (List.replicate (10 ^ 12) .null) := by
  rw [longArray, RESPValue.enc, List.length_replicate, arrayHeader, List.cons_append,
    List.append_assoc]

/-- With memory for a tenth of them, the header alone is not called incomplete. -/
theorem parse_header_longArray :
    longArray.WellFormed .unbounded ∧ arrayHeader (10 ^ 12) <+: longArray.enc ∧
      arrayHeader (10 ^ 12) ≠ longArray.enc ∧
      parse ⟨10 ^ 11, by decide⟩ (arrayHeader (10 ^ 12)) 0 = .error .badAlloc := by
  have hlen : (List.replicate (10 ^ 12) RESPValue.null).length = 10 ^ 12 := List.length_replicate
  have hwf : longArray.WellFormed .unbounded := by
    refine ⟨?_, allWellFormed_replicate _⟩
    rw [hlen]
    decide
  have hfits : longArray.fitsTo ⟨10 ^ 11, by decide⟩ (arrayHeader (10 ^ 12)).length = false := by
    have hfits := @fitsTo_array ⟨10 ^ 11, by decide⟩ (List.replicate (10 ^ 12) .null) 0
    rw [hlen, Nat.add_zero] at hfits
    rw [longArray, hfits, decide_eq_false (by decide), Bool.false_and]
  refine ⟨hwf, ?_, ?_, ?_⟩
  · rw [enc_longArray]
    exact List.prefix_append _ _
  · rw [enc_longArray]
    intro heq
    have hnil := List.append_cancel_left ((List.append_nil _).trans heq)
    cases hnulls : List.replicate (10 ^ 12) RESPValue.null with
    | nil =>
        rw [hnulls] at hlen
        cases hlen
    | cons v vs =>
        rw [hnulls, encAll] at hnil
        exact v.enc_length_pos.ne' (congrArg List.length (List.append_eq_nil_iff.mp hnil.symm).1)
  · exact parseValue_badAlloc longArray hwf _ 0 _ _ [] hfits enc_longArray (Nat.le_succ _)
      (List.append_nil _).symm

end Parse

end SimpleRedis.Resp
