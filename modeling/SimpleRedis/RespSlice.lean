import SimpleRedis.RespStream

/-!
# What a parse depends on

A parse that succeeds consumes a non-empty slice of the string and depends on this
slice only, unless it reads a bulk string with a length below `-1`. Such a length
moves the position back, and `substr` takes it for a count that reaches the end of
the string, whatever stands there.
-/
namespace SimpleRedis.Resp

/-- The length in a header line, with the position behind it. -/
def headerLength (data : List CChar) (pos : ℕ) : Parse (Int64 × ℕ) := do
  let (line, pos) ← readLine data pos
  let len ← stoll line
  return (len, pos)

/-- The lengths of bulk strings that the loop of `parse_array` comes across. -/
def elementLengths (parse : ℕ → Parse (RESPValue × ℕ)) (lengths : ℕ → List Int64) :
    ℕ → ℕ → List Int64
  | 0, _ => []
  | n + 1, pos =>
      lengths pos ++
        match parse pos with
        | .ok (_, pos) => elementLengths parse lengths n pos
        | .error _ => []

/-- The lengths of the bulk strings that `parse_value` comes across. -/
def bulkLengths (memory : Memory) (data : List CChar) : ℕ → ℕ → List Int64
  | 0, _ => []
  | depth + 1, pos =>
      if data[pos]? = some (ch '$') then
        match headerLength data (pos + 1) with
        | .ok (len, _) => [len]
        | .error _ => []
      else if data[pos]? = some (ch '*') then
        match headerLength data (pos + 1) with
        | .ok (len, pos) =>
            elementLengths (parseValue memory data depth) (bulkLengths memory data depth)
              len.toInt.toNat pos
        | .error _ => []
      else []

/-- The parse comes across no bulk string whose length is below `-1`. -/
def NoNegativeLength (memory : Memory) (data : List CChar) (start : ℕ) : Prop :=
  ∀ len ∈ bulkLengths memory data (data.length + 1) start, -1 ≤ len.toInt

/-- The value and its end depend on the bytes before the end only. -/
structure Delimited (memory : Memory) (data : List CChar) (start : ℕ) (v : RESPValue)
    (stop : ℕ) : Prop where
  nonempty : start < stop
  inside : stop ≤ data.length
  slice : ∀ data', data'.take stop = data.take stop → parse memory data' start = .ok (v, stop)

section Lines

variable {data data' line s : List CChar} {pos stop : ℕ}

theorem findCrlf_eq_some {n : ℕ} (h : findCrlf s = some n) :
    findCrlf (s.take n) = none ∧ ∃ rest, s = s.take n ++ (crlf ++ rest) := by
  induction s generalizing n with
  | nil => cases h
  | cons c s ih =>
      rw [findCrlf] at h
      split at h
      · rename_i hend
        obtain ⟨rfl, hlf⟩ := hend
        cases h
        refine ⟨rfl, s.tail, ?_⟩
        cases s with
        | nil => cases hlf
        | cons d s =>
            cases hlf
            rfl
      · rename_i hend
        obtain ⟨m, hm, rfl⟩ := Option.map_eq_some_iff.mp h
        obtain ⟨hnone, rest, hrest⟩ := ih hm
        refine ⟨findCrlf_cons_eq_none.mpr ⟨fun hnext => hend ⟨hnext.1, ?_⟩, hnone⟩, rest, ?_⟩
        · have hlf := hnext.2
          cases s with
          | nil => simp at hlf
          | cons d s =>
              cases m with
              | zero => simp at hlf
              | succ m => exact hlf
        · rw [List.take_succ_cons, List.cons_append, ← hrest]

/-- What `read_line` has read. -/
theorem readLine_spec (h : readLine data pos = .ok (line, stop)) :
    findCrlf line = none ∧ stop = pos + line.length + 2 ∧
      ∃ rest, data.drop pos = line ++ (crlf ++ rest) := by
  unfold readLine at h
  split at h
  · cases h
  · rename_i n hn
    obtain ⟨hnone, rest, hrest⟩ := findCrlf_eq_some hn
    cases h
    have hlen := congrArg List.length hrest
    simp only [List.length_append, List.length_take, crlf, List.length_cons,
      List.length_nil] at hlen
    refine ⟨hnone, ?_, rest, hrest⟩
    rw [List.length_take]
    omega

theorem readLine_bounds (h : readLine data pos = .ok (line, stop)) :
    pos + 2 ≤ stop ∧ stop ≤ data.length := by
  obtain ⟨-, rfl, rest, hrest⟩ := readLine_spec h
  have hlen := congrArg List.length hrest
  simp only [List.length_drop, List.length_append, crlf, List.length_cons, List.length_nil] at hlen
  omega

theorem take_of_take {n m : ℕ} (h : data'.take m = data.take m) (hle : n ≤ m) :
    data'.take n = data.take n := by
  have htake := congrArg (List.take n) h
  rwa [List.take_take, List.take_take, Nat.min_eq_left hle] at htake

theorem length_of_take {m : ℕ} (h : data'.take m = data.take m) (hle : m ≤ data.length) :
    m ≤ data'.length := by
  have hlen := congrArg List.length h
  rw [List.length_take, List.length_take] at hlen
  omega

theorem getElem?_of_take {m i : ℕ} (h : data'.take m = data.take m) (hlt : i < m) :
    data'[i]? = data[i]? := by
  have hget := congrArg (·[i]?) h
  simpa only [List.getElem?_take, if_pos hlt] using hget

/-- A line is read again in every string that agrees up to its end. -/
theorem readLine_of_take (h : readLine data pos = .ok (line, stop))
    (hagree : data'.take stop = data.take stop) : readLine data' pos = .ok (line, stop) := by
  obtain ⟨hnone, rfl, rest, hrest⟩ := readLine_spec h
  have hfield : (data.drop pos).take (line.length + 2) = line ++ crlf := by
    rw [hrest, ← List.append_assoc]
    exact List.take_left' (by simp [crlf])
  have hfield' : (data'.drop pos).take (line.length + 2) = line ++ crlf := by
    rw [List.take_drop, ← hfield, List.take_drop]
    exact congrArg (List.drop pos) hagree
  have hdrop : data'.drop pos = line ++ (crlf ++ (data'.drop pos).drop (line.length + 2)) := by
    rw [← List.append_assoc, ← hfield', List.take_append_drop]
  exact readLine_line hnone hdrop

end Lines

/-- The ways in which `parse_value` succeeds; `parse` is the parser of the elements. -/
inductive Parsed (memory : Memory) (data : List CChar) (parse : ℕ → Parse (RESPValue × ℕ))
    (pos : ℕ) :
    RESPValue → ℕ → Prop where
  | simpleString {line : List CChar} {stop : ℕ} (htype : data[pos]? = some (ch '+'))
      (hline : readLine data (pos + 1) = .ok (line, stop)) :
      Parsed memory data parse pos (.simpleString line) stop
  | error {line : List CChar} {stop : ℕ} (htype : data[pos]? = some (ch '-'))
      (hline : readLine data (pos + 1) = .ok (line, stop)) :
      Parsed memory data parse pos (.error line) stop
  | integer {line : List CChar} {stop : ℕ} {n : Int64} (htype : data[pos]? = some (ch ':'))
      (hline : readLine data (pos + 1) = .ok (line, stop)) (hn : stoll line = .ok n) :
      Parsed memory data parse pos (.integer n) stop
  | null {stop : ℕ} (htype : data[pos]? = some (ch '$'))
      (hlen : headerLength data (pos + 1) = .ok (-1, stop)) :
      Parsed memory data parse pos .null stop
  | bulkString {start stop : ℕ} {len : Int64} (htype : data[pos]? = some (ch '$'))
      (hlen : headerLength data (pos + 1) = .ok (len, start)) (hne : len ≠ -1)
      (hstop : sizeAdd start len = some stop) (hcr : data[stop]? = some cr)
      (hlf : data[stop + 1]? = some lf) :
      Parsed memory data parse pos (.bulkString (substr data start len)) (stop + 2)
  | nullArray {stop : ℕ} (htype : data[pos]? = some (ch '*'))
      (hlen : headerLength data (pos + 1) = .ok (-1, stop)) :
      Parsed memory data parse pos (.array []) stop
  | array {start stop : ℕ} {len : Int64} {vs : List RESPValue}
      (htype : data[pos]? = some (ch '*'))
      (hlen : headerLength data (pos + 1) = .ok (len, start)) (hne : len ≠ -1)
      (hroom : reserve memory len = .ok ())
      (helements : parseElements parse len.toInt.toNat start = .ok (vs, stop)) :
      Parsed memory data parse pos (.array vs) stop

section Parsed

variable {memory : Memory} {data : List CChar} {parse : ℕ → Parse (RESPValue × ℕ)}
  {depth pos stop : ℕ}
  {v : RESPValue}

theorem bind_eq_ok {α β : Type} {x : Parse α} {f : α → Parse β} {b : β}
    (h : (x >>= f) = .ok b) : ∃ a, x = .ok a ∧ f a = .ok b := by
  cases x with
  | error e => cases h
  | ok a => exact ⟨a, rfl, h⟩

theorem headerLength_of {line : List CChar} {len : Int64}
    (hline : readLine data pos = .ok (line, stop)) (hlen : stoll line = .ok len) :
    headerLength data pos = .ok (len, stop) := by
  simp only [headerLength, hline, bind, Except.bind, hlen]
  rfl

theorem headerLength_spec {len : Int64} (h : headerLength data pos = .ok (len, stop)) :
    ∃ line, readLine data pos = .ok (line, stop) ∧ stoll line = .ok len := by
  obtain ⟨⟨line, pos'⟩, hline, h⟩ := bind_eq_ok h
  obtain ⟨len', hlen, h⟩ := bind_eq_ok h
  cases h
  exact ⟨line, hline, hlen⟩

theorem getElem?_lt {i : ℕ} {c : CChar} (h : data[i]? = some c) : i < data.length :=
  (List.getElem?_eq_some_iff.mp h).1

theorem parsed_of_bulkString (htype : data[pos]? = some (ch '$'))
    (h : parseBulkString data (pos + 1) = .ok (v, stop)) :
    Parsed memory data parse pos v stop := by
  obtain ⟨⟨line, start⟩, hline, h⟩ := bind_eq_ok h
  obtain ⟨len, hlen, h⟩ := bind_eq_ok h
  have hheader := headerLength_of hline hlen
  split at h
  · rename_i hnull
    subst hnull
    cases h
    exact .null htype hheader
  · rename_i hne
    cases hstop : sizeAdd start len with
    | none =>
        simp only [hstop] at h
        cases h
    | some stop' =>
        simp only [hstop] at h
        split at h
        · cases h
        · split at h
          · cases h
          · rename_i hend
            simp only [not_or, Decidable.not_not] at hend
            cases h
            exact .bulkString htype hheader hne hstop hend.2.1 hend.2.2

theorem parsed_of_array (htype : data[pos]? = some (ch '*'))
    (h : parseArray memory parse data (pos + 1) = .ok (v, stop)) :
    Parsed memory data parse pos v stop := by
  obtain ⟨⟨line, start⟩, hline, h⟩ := bind_eq_ok h
  obtain ⟨len, hlen, h⟩ := bind_eq_ok h
  have hheader := headerLength_of hline hlen
  split at h
  · rename_i hnull
    subst hnull
    cases h
    exact .nullArray htype hheader
  · rename_i hne
    obtain ⟨_, hroom, h⟩ := bind_eq_ok h
    obtain ⟨⟨vs, stop'⟩, helements, h⟩ := bind_eq_ok h
    cases h
    exact .array htype hheader hne hroom helements

theorem parsed_of_ok (h : parseValue memory data (depth + 1) pos = .ok (v, stop)) :
    Parsed memory data (parseValue memory data depth) pos v stop := by
  rw [parseValue] at h
  split at h
  · cases h
  · rename_i type htype
    split at h
    · rename_i hc
      subst hc
      obtain ⟨⟨line, stop'⟩, hline, h⟩ := bind_eq_ok h
      cases h
      exact .simpleString htype hline
    · split at h
      · rename_i hc
        subst hc
        obtain ⟨⟨line, stop'⟩, hline, h⟩ := bind_eq_ok h
        cases h
        exact .error htype hline
      · split at h
        · rename_i hc
          subst hc
          obtain ⟨⟨line, stop'⟩, hline, h⟩ := bind_eq_ok h
          obtain ⟨n, hn, h⟩ := bind_eq_ok h
          cases h
          exact .integer htype hline hn
        · split at h
          · rename_i hc
            subst hc
            exact parsed_of_bulkString htype h
          · split at h
            · rename_i hc
              subst hc
              exact parsed_of_array htype h
            · cases h

theorem Parsed.ok (h : Parsed memory data (parseValue memory data depth) pos v stop) :
    parseValue memory data (depth + 1) pos = .ok (v, stop) := by
  cases h with
  | simpleString htype hline =>
      simp only [parseValue_simpleString htype, parseSimpleString, hline, bind, Except.bind]
      rfl
  | error htype hline =>
      simp only [parseValue_error htype, parseError, hline, bind, Except.bind]
      rfl
  | integer htype hline hn =>
      simp only [parseValue_integer htype, parseInteger, hline, bind, Except.bind, hn]
      rfl
  | null htype hlen =>
      obtain ⟨line, hline, hlen⟩ := headerLength_spec hlen
      simp only [parseValue_bulkString htype, parseBulkString, hline, hlen, bind, Except.bind,
        if_true]
      rfl
  | @bulkString start stop len htype hlen hne hstop hcr hlf =>
      obtain ⟨line, hline, hlen⟩ := headerLength_spec hlen
      have hsize := getElem?_lt hlf
      have hinside : ¬ data.length < stop := by omega
      have hend : ¬ (data.length < stop + 2 ∨ data[stop]? ≠ some cr ∨
          data[stop + 1]? ≠ some lf) := by
        simp only [hcr, hlf, ne_eq, not_true, or_false]
        omega
      simp only [parseValue_bulkString htype, parseBulkString, hline, hlen, bind, Except.bind,
        if_neg hne, hstop, if_neg hinside, if_neg hend]
      rfl
  | nullArray htype hlen =>
      obtain ⟨line, hline, hlen⟩ := headerLength_spec hlen
      simp only [parseValue_array htype, parseArray, hline, hlen, bind, Except.bind, if_true]
      rfl
  | array htype hlen hne hroom helements =>
      obtain ⟨line, hline, hlen⟩ := headerLength_spec hlen
      simp only [parseValue_array htype, parseArray, hline, hlen, bind, Except.bind, if_neg hne,
        hroom, helements]
      rfl

theorem headerLength_bounds {len : Int64} (h : headerLength data pos = .ok (len, stop)) :
    pos + 2 ≤ stop ∧ stop ≤ data.length := by
  obtain ⟨line, hline, -⟩ := headerLength_spec h
  exact readLine_bounds hline

theorem headerLength_of_take {data' : List CChar} {len : Int64}
    (h : headerLength data pos = .ok (len, stop)) (hagree : data'.take stop = data.take stop) :
    headerLength data' pos = .ok (len, stop) := by
  obtain ⟨line, hline, hlen⟩ := headerLength_spec h
  exact headerLength_of (readLine_of_take hline hagree) hlen

end Parsed

/-- A value that is parsed from the slice between two positions: any string with the
same slice will do, and a depth of the slice's length. -/
structure Sliced (memory : Memory) (data : List CChar) (pos : ℕ) (v : RESPValue)
    (stop : ℕ) : Prop where
  nonempty : pos < stop
  inside : stop ≤ data.length
  slice : ∀ (data' : List CChar) (depth : ℕ), data'.take stop = data.take stop →
    stop ≤ pos + depth → parseValue memory data' depth pos = .ok (v, stop)

section Slice

variable {memory : Memory} {data : List CChar} {depth pos stop : ℕ} {v : RESPValue}

theorem toInt_nonneg {len : Int64} (hle : -1 ≤ len.toInt) (hne : len ≠ -1) : 0 ≤ len.toInt := by
  have hint : len.toInt ≠ -1 := fun h => hne (Int64.toInt_inj.mp h)
  omega

theorem sizeAdd_eq {len : Int64} (hpos : 0 ≤ len.toInt) (h : sizeAdd pos len = some stop) :
    stop = pos + len.toInt.toNat := by
  rw [sizeAdd, if_neg (by omega)] at h
  cases h
  omega

/-- The content of a bulk string lies within the slice. -/
theorem substr_of_take {data' : List CChar} {len : Int64} (hpos : 0 ≤ len.toInt)
    (hagree : data'.take (pos + len.toInt.toNat) = data.take (pos + len.toInt.toNat)) :
    substr data' pos len = substr data pos len := by
  rw [substr, substr, if_neg (by omega), if_neg (by omega), List.take_drop, List.take_drop, hagree]

theorem sliced_of_parsed (hnonempty : pos < stop) (hinside : stop ≤ data.length)
    (hslice : ∀ (data' : List CChar) (depth : ℕ), data'.take stop = data.take stop →
      stop ≤ pos + (depth + 1) → Parsed memory data' (parseValue memory data' depth) pos v stop) :
    Sliced memory data pos v stop := by
  refine ⟨hnonempty, hinside, fun data' depth hagree hdepth => ?_⟩
  obtain ⟨depth, rfl⟩ : ∃ d, depth = d + 1 := ⟨depth - 1, by omega⟩
  exact (hslice data' depth hagree hdepth).ok

/-- The elements of an array stand one behind the other. -/
theorem parseElements_slice {parse : ℕ → Parse (RESPValue × ℕ)} {lengths : ℕ → List Int64}
    (hparse : ∀ pos v stop, parse pos = .ok (v, stop) →
      (∀ len ∈ lengths pos, -1 ≤ len.toInt) → Sliced memory data pos v stop)
    {n : ℕ} {vs : List RESPValue} (hpos : pos ≤ data.length)
    (h : parseElements parse n pos = .ok (vs, stop))
    (hlengths : ∀ len ∈ elementLengths parse lengths n pos, -1 ≤ len.toInt) :
    pos ≤ stop ∧ stop ≤ data.length ∧
      ∀ (data' : List CChar) (depth : ℕ), data'.take stop = data.take stop →
        stop ≤ pos + depth →
          parseElements (parseValue memory data' depth) n pos = .ok (vs, stop) := by
  induction n generalizing pos vs with
  | zero =>
      cases h
      exact ⟨Nat.le_refl _, hpos, fun _ _ _ _ => rfl⟩
  | succ n ih =>
      obtain ⟨⟨v, next⟩, hfirst, h⟩ := bind_eq_ok h
      obtain ⟨⟨vs', stop'⟩, hothers, h⟩ := bind_eq_ok h
      cases h
      simp only [elementLengths, hfirst, List.forall_mem_append] at hlengths
      obtain ⟨hlt, hnext, hslice⟩ := hparse pos v next hfirst hlengths.1
      obtain ⟨hle, hinside, hslices⟩ := ih hnext hothers hlengths.2
      refine ⟨by omega, hinside, fun data' depth hagree hdepth => ?_⟩
      have hv := hslice data' depth (take_of_take hagree hle) (by omega)
      have hvs := hslices data' depth hagree (by omega)
      simp only [parseElements, hv, hvs, bind, Except.bind]
      rfl

/-- A parse that comes across no negative length is that of a slice. -/
theorem parseValue_slice (h : parseValue memory data depth pos = .ok (v, stop))
    (hlengths : ∀ len ∈ bulkLengths memory data depth pos, -1 ≤ len.toInt) :
    Sliced memory data pos v stop := by
  induction depth generalizing pos v stop with
  | zero => cases h
  | succ depth ih =>
      cases parsed_of_ok h with
      | simpleString htype hline =>
          obtain ⟨hlt, hinside⟩ := readLine_bounds hline
          refine sliced_of_parsed (by omega) hinside fun data' _ hagree _ => ?_
          exact .simpleString ((getElem?_of_take hagree (by omega)).trans htype)
            (readLine_of_take hline hagree)
      | error htype hline =>
          obtain ⟨hlt, hinside⟩ := readLine_bounds hline
          refine sliced_of_parsed (by omega) hinside fun data' _ hagree _ => ?_
          exact .error ((getElem?_of_take hagree (by omega)).trans htype)
            (readLine_of_take hline hagree)
      | integer htype hline hn =>
          obtain ⟨hlt, hinside⟩ := readLine_bounds hline
          refine sliced_of_parsed (by omega) hinside fun data' _ hagree _ => ?_
          exact .integer ((getElem?_of_take hagree (by omega)).trans htype)
            (readLine_of_take hline hagree) hn
      | null htype hlen =>
          obtain ⟨hlt, hinside⟩ := headerLength_bounds hlen
          refine sliced_of_parsed (by omega) hinside fun data' _ hagree _ => ?_
          exact .null ((getElem?_of_take hagree (by omega)).trans htype)
            (headerLength_of_take hlen hagree)
      | nullArray htype hlen =>
          obtain ⟨hlt, hinside⟩ := headerLength_bounds hlen
          refine sliced_of_parsed (by omega) hinside fun data' _ hagree _ => ?_
          exact .nullArray ((getElem?_of_take hagree (by omega)).trans htype)
            (headerLength_of_take hlen hagree)
      | @bulkString start stop len htype hlen hne hstop hcr hlf =>
          obtain ⟨hlt, hinside⟩ := headerLength_bounds hlen
          have hsize := getElem?_lt hlf
          simp only [bulkLengths, htype, if_true, hlen, List.mem_singleton, forall_eq] at hlengths
          have hpos := toInt_nonneg hlengths hne
          obtain rfl := sizeAdd_eq hpos hstop
          refine sliced_of_parsed (by omega) (by omega) fun data' _ hagree _ => ?_
          rw [← substr_of_take hpos (take_of_take hagree (by omega))]
          exact .bulkString ((getElem?_of_take hagree (by omega)).trans htype)
            (headerLength_of_take hlen (take_of_take hagree (by omega))) hne hstop
            ((getElem?_of_take hagree (by omega)).trans hcr)
            ((getElem?_of_take hagree (by omega)).trans hlf)
      | @array start stop len vs htype hlen hne hroom helements =>
          obtain ⟨hlt, hinside⟩ := headerLength_bounds hlen
          have hdollar : ch '*' ≠ ch '$' := by decide
          simp only [bulkLengths, htype, Option.some.injEq, if_neg hdollar, if_true,
            hlen] at hlengths
          obtain ⟨hle, hend, hslices⟩ :=
            parseElements_slice (fun pos v stop => ih) hinside helements hlengths
          refine sliced_of_parsed (by omega) hend fun data' depth' hagree hdepth => ?_
          exact .array ((getElem?_of_take hagree (by omega)).trans htype)
            (headerLength_of_take hlen (take_of_take hagree hle)) hne hroom
            (hslices data' depth' hagree (by omega))

end Slice

section Extend

variable {memory : Memory} {data : List CChar} {depth pos stop : ℕ} {v : RESPValue}

theorem take_extend {n : ℕ} (h : n ≤ data.length) : (data ++ [0]).take n = data.take n :=
  List.take_append_of_le_length h

theorem getElem?_extend {i : ℕ} {c : CChar} (h : data[i]? = some c) :
    (data ++ [0])[i]? = some c :=
  (getElem?_of_take (take_extend (Nat.le_refl _)) (getElem?_lt h)).trans h

theorem headerLength_extend {len : Int64} (h : headerLength data pos = .ok (len, stop)) :
    headerLength (data ++ [0]) pos = .ok (len, stop) :=
  headerLength_of_take h (take_extend (headerLength_bounds h).2)

theorem readLine_extend {line : List CChar} (h : readLine data pos = .ok (line, stop)) :
    readLine (data ++ [0]) pos = .ok (line, stop) :=
  readLine_of_take h (take_extend (readLine_bounds h).2)

/-- With a negative length the content reaches to the end of the string. -/
theorem substr_extend_ne {len : Int64} (hpos : pos ≤ data.length) (hneg : len.toInt < -1) :
    substr (data ++ [0]) pos len ≠ substr data pos len := by
  have hlt : len.toInt < 0 := by omega
  intro h
  have hlen := congrArg List.length h
  rw [substr, substr, if_pos hlt, if_pos hlt, List.length_drop, List.length_drop,
    List.length_append, List.length_singleton] at hlen
  omega

/-- Elements that are parsed one by one in the longer string; one that differs makes
the lists differ. -/
theorem parseElements_extend {parse parse' : ℕ → Parse (RESPValue × ℕ)}
    {lengths : ℕ → List Int64}
    (hparse : ∀ pos v stop, parse pos = .ok (v, stop) → ∃ v', parse' pos = .ok (v', stop) ∧
      ((∃ len ∈ lengths pos, len.toInt < -1) → v' ≠ v))
    {n : ℕ} {vs : List RESPValue} (h : parseElements parse n pos = .ok (vs, stop)) :
    ∃ vs', parseElements parse' n pos = .ok (vs', stop) ∧
      ((∃ len ∈ elementLengths parse lengths n pos, len.toInt < -1) → vs' ≠ vs) := by
  induction n generalizing pos vs with
  | zero =>
      cases h
      exact ⟨[], rfl, fun ⟨_, hmem, _⟩ => nomatch hmem⟩
  | succ n ih =>
      obtain ⟨⟨v, next⟩, hfirst, h⟩ := bind_eq_ok h
      obtain ⟨⟨vs₁, stop'⟩, hothers, h⟩ := bind_eq_ok h
      cases h
      obtain ⟨v', hv', hne⟩ := hparse pos v next hfirst
      obtain ⟨vs', hvs', hnes⟩ := ih hothers
      refine ⟨v' :: vs', ?_, ?_⟩
      · simp only [parseElements, hv', hvs', bind, Except.bind]
        rfl
      · rintro ⟨len, hmem, hneg⟩ heq
        obtain ⟨rfl, rfl⟩ := List.cons_eq_cons.mp heq
        simp only [elementLengths, hfirst, List.mem_append] at hmem
        rcases hmem with hmem | hmem
        · exact hne ⟨len, hmem, hneg⟩ rfl
        · exact hnes ⟨len, hmem, hneg⟩ rfl

/-- A parse that succeeds does so with a zero behind the string, and gives another value
if it comes across a negative length. -/
theorem parseValue_extend (h : parseValue memory data depth pos = .ok (v, stop)) :
    ∃ v', parseValue memory (data ++ [0]) (depth + 1) pos = .ok (v', stop) ∧
      ((∃ len ∈ bulkLengths memory data depth pos, len.toInt < -1) → v' ≠ v) := by
  induction depth generalizing pos v stop with
  | zero => cases h
  | succ depth ih =>
      cases parsed_of_ok h with
      | simpleString htype hline =>
          refine ⟨_, (Parsed.simpleString (getElem?_extend htype) (readLine_extend hline)).ok, ?_⟩
          rintro ⟨len, hmem, -⟩
          simp [bulkLengths, htype, ch] at hmem
      | error htype hline =>
          refine ⟨_, (Parsed.error (getElem?_extend htype) (readLine_extend hline)).ok, ?_⟩
          rintro ⟨len, hmem, -⟩
          simp [bulkLengths, htype, ch] at hmem
      | integer htype hline hn =>
          refine ⟨_, (Parsed.integer (getElem?_extend htype) (readLine_extend hline) hn).ok, ?_⟩
          rintro ⟨len, hmem, -⟩
          simp [bulkLengths, htype, ch] at hmem
      | null htype hlen =>
          refine ⟨_, (Parsed.null (getElem?_extend htype) (headerLength_extend hlen)).ok, ?_⟩
          rintro ⟨len, hmem, hneg⟩
          simp only [bulkLengths, htype, if_true, hlen, List.mem_singleton] at hmem
          subst hmem
          exact absurd hneg (by decide)
      | nullArray htype hlen =>
          refine ⟨_, (Parsed.nullArray (getElem?_extend htype) (headerLength_extend hlen)).ok, ?_⟩
          rintro ⟨len, hmem, hneg⟩
          simp [bulkLengths, htype, ch, hlen, elementLengths] at hmem
      | @bulkString start stop len htype hlen hne hstop hcr hlf =>
          refine ⟨_, (Parsed.bulkString (getElem?_extend htype) (headerLength_extend hlen) hne
            hstop (getElem?_extend hcr) (getElem?_extend hlf)).ok, ?_⟩
          rintro ⟨len', hmem, hneg⟩ heq
          simp only [bulkLengths, htype, if_true, hlen, List.mem_singleton] at hmem
          subst hmem
          exact substr_extend_ne (headerLength_bounds hlen).2 hneg (RESPValue.bulkString.inj heq)
      | @array start stop len vs htype hlen hne hroom helements =>
          obtain ⟨vs', hvs', hnes⟩ := parseElements_extend (fun pos v stop => ih) helements
          refine ⟨_, (Parsed.array (getElem?_extend htype) (headerLength_extend hlen) hne hroom
            hvs').ok, ?_⟩
          rintro ⟨len', hmem, hneg⟩ heq
          have hdollar : ch '*' ≠ ch '$' := by decide
          simp only [bulkLengths, htype, Option.some.injEq, if_neg hdollar, if_true,
            hlen] at hmem
          exact hnes ⟨len', hmem, hneg⟩ (RESPValue.array.inj heq)

end Extend

/-- A parse that succeeds consumes a non-empty slice of the string and depends on it
only, if and only if it comes across no length below `-1`. -/
theorem delimited_iff_noNegativeLength {data : List CChar} {start stop : ℕ} {v : RESPValue}
    (h : parse memory data start = .ok (v, stop)) :
    Delimited memory data start v stop ↔ NoNegativeLength memory data start := by
  constructor
  · intro hdelimited len hmem
    by_contra hneg
    obtain ⟨v', hv', hne⟩ := parseValue_extend h
    have hsame := hdelimited.slice (data ++ [0]) (take_extend hdelimited.inside)
    rw [parse, List.length_append, List.length_singleton, hv'] at hsame
    cases hsame
    exact hne ⟨len, hmem, by omega⟩ rfl
  · intro hlengths
    obtain ⟨hlt, hinside, hslice⟩ := parseValue_slice h hlengths
    refine ⟨hlt, hinside, fun data' hagree => hslice data' _ hagree ?_⟩
    have hlength := length_of_take hagree hinside
    omega

/-- The bulk string `a`, with more behind it. -/
theorem delimited_iff_bulkString :
    Delimited .unbounded [36, 49, 13, 10, 97, 13, 10, 43] 0 (.bulkString [97]) 7 ↔
      NoNegativeLength .unbounded [36, 49, 13, 10, 97, 13, 10, 43] 0 :=
  delimited_iff_noNegativeLength rfl

/-- A bulk string of length `-2`: its line end is that of the header, and its content
what stands behind. -/
theorem not_delimited_negativeLength :
    parse .unbounded [36, 45, 50, 13, 10] 0 = .ok (.bulkString [], 5) ∧
      ¬ Delimited .unbounded [36, 45, 50, 13, 10] 0 (.bulkString []) 5 := by
  refine ⟨rfl, fun h => ?_⟩
  have hlonger : parse .unbounded [36, 45, 50, 13, 10, 97] 0 = .ok (.bulkString [97], 5) := rfl
  cases (h.slice [36, 45, 50, 13, 10, 97] rfl).symm.trans hlonger

end SimpleRedis.Resp
