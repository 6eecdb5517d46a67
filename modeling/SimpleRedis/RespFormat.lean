import SimpleRedis.RespParser

/-!
# Printed replies

`formatResponse` prints a reply in lines. A value has a line of its own; the elements of an array
follow below, each with its index and two columns further to the right. As long as no string of a
reply holds a line feed itself, the lines tell which reply it is, and where the next one begins.
-/
namespace SimpleRedis.Resp

/-- The characters of a literal. -/
def text (s : String) : List CChar := s.toList.map ch

/-- `std::string prefix(indent, ' ')`. -/
def spaces (indent : ℕ) : List CChar := List.replicate indent (ch ' ')

mutual

def formatResponse (indent : ℕ) : RESPValue → List CChar
  | .simpleString s => spaces indent ++ text "(string) " ++ s ++ text "\n"
  | .error s => spaces indent ++ text "(error) " ++ s ++ text "\n"
  | .integer n => spaces indent ++ text "(integer) " ++ signedDecimal n ++ text "\n"
  | .bulkString s =>
      if s.isEmpty then spaces indent ++ text "(nil)\n"
      else spaces indent ++ text "(bulk) " ++ s ++ text "\n"
  | .array vs =>
      if vs.isEmpty then spaces indent ++ text "(empty array)\n"
      else
        spaces indent ++ text "(array) size=" ++ decimal vs.length ++ text "\n" ++
          formatElements indent 0 vs
  | .null => spaces indent ++ text "(null)\n"

/-- The loop of `formatResponse` over an array, from the `i`-th element on. -/
def formatElements (indent i : ℕ) : List RESPValue → List CChar
  | [] => []
  | v :: vs =>
      spaces indent ++ text "  " ++ decimal i ++ text ") " ++ formatResponse (indent + 2) v ++
        formatElements indent (i + 1) vs

end

mutual

/-- No string of the value holds a line feed. -/
def RESPValue.OneLine : RESPValue → Prop
  | .simpleString s | .error s | .bulkString s => lf ∉ s
  | .integer _ | .null => True
  | .array vs => AllOneLine vs

def AllOneLine : List RESPValue → Prop
  | [] => True
  | v :: vs => v.OneLine ∧ AllOneLine vs

end

/-- What the line of a value says of it. -/
def RESPValue.heading : RESPValue → List CChar
  | .simpleString s => text "(string) " ++ s
  | .error s => text "(error) " ++ s
  | .integer n => text "(integer) " ++ signedDecimal n
  | .bulkString s => if s.isEmpty then text "(nil)" else text "(bulk) " ++ s
  | .array vs =>
      if vs.isEmpty then text "(empty array)" else text "(array) size=" ++ decimal vs.length
  | .null => text "(null)"

/-- What is below the line of a value. -/
def RESPValue.elementLines (indent : ℕ) : RESPValue → List CChar
  | .array vs => formatElements indent 0 vs
  | _ => []

theorem formatResponse_eq (indent : ℕ) (v : RESPValue) :
    formatResponse indent v = spaces indent ++ (v.heading ++ lf :: v.elementLines indent) := by
  have hend : text "\n" = [lf] := by decide
  cases v with
  | simpleString | error | integer =>
      simp [formatResponse, RESPValue.heading, RESPValue.elementLines, hend]
  | bulkString s =>
      cases s with
      | nil => rfl
      | cons c s => simp [formatResponse, RESPValue.heading, RESPValue.elementLines, hend]
  | array vs =>
      cases vs with
      | nil => rfl
      | cons v vs => simp [formatResponse, RESPValue.heading, RESPValue.elementLines, hend]
  | null => rfl

theorem decimal_injective : Function.Injective decimal := by
  intro m n h
  rw [← value_decimal m, h, value_decimal n]

theorem signedDecimal_injective : Function.Injective signedDecimal := by
  intro m n h
  have hparse : stoll (signedDecimal m) = stoll (signedDecimal n) := congrArg stoll h
  rw [stoll_signedDecimal, stoll_signedDecimal] at hparse
  exact Except.ok.inj hparse

/-- The line of a value tells the value, or that it is an array and how long it is. -/
theorem heading_inj {a b : RESPValue} (h : a.heading = b.heading) :
    a = b ∨ ∃ vs ws, a = .array vs ∧ b = .array ws ∧ vs.length = ws.length := by
  -- the labels of two kinds differ in one of their first letters
  cases a <;> cases b <;> simp only [RESPValue.heading] at h <;> (repeat' split at h) <;>
    simp [text, ch] at h ⊢
  case simpleString.simpleString => exact h
  case error.error => exact h
  case integer.integer => exact signedDecimal_injective h
  case bulkString.bulkString.isTrue.isTrue hs ht =>
    rw [List.isEmpty_iff.mp hs, List.isEmpty_iff.mp ht]
  case bulkString.bulkString.isFalse.isFalse => exact h
  case array.array.isTrue.isTrue hs ht =>
    rw [List.isEmpty_iff.mp hs, List.isEmpty_iff.mp ht]
    exact Or.inl rfl
  case array.array.isFalse.isFalse => exact Or.inr (decimal_injective h)

theorem lf_not_mem_decimal (n : ℕ) : lf ∉ decimal n := by
  intro hmem
  have := (mem_decimal_toInt hmem).1
  simp [lf] at this

theorem lf_not_mem_signedDecimal (n : Int64) : lf ∉ signedDecimal n := by
  unfold signedDecimal
  split
  · exact List.not_mem_cons_of_ne_of_not_mem (by decide) (lf_not_mem_decimal _)
  · exact lf_not_mem_decimal _

/-- A label in front of a part without line feeds. -/
theorem lf_not_mem_append {label s : List CChar} (hlabel : lf ∉ label) (hs : lf ∉ s) :
    lf ∉ label ++ s := fun h => (List.mem_append.mp h).elim hlabel hs

theorem lf_not_mem_heading {v : RESPValue} (hv : v.OneLine) : lf ∉ v.heading := by
  cases v with
  | simpleString s | error s => exact lf_not_mem_append (by decide) hv
  | integer n => exact lf_not_mem_append (by decide) (lf_not_mem_signedDecimal n)
  | bulkString s =>
      rw [RESPValue.heading]
      split
      · decide
      · exact lf_not_mem_append (by decide) hv
  | array vs =>
      rw [RESPValue.heading]
      split
      · decide
      · exact lf_not_mem_append (by decide) (lf_not_mem_decimal _)
  | null => decide

/-- The first line feed ends a line. -/
theorem line_inj {line line' rest rest' : List CChar} (hline : lf ∉ line) (hline' : lf ∉ line')
    (h : line ++ lf :: rest = line' ++ lf :: rest') : line = line' ∧ rest = rest' := by
  rcases List.append_eq_append_iff.mp h with ⟨more, rfl, hmore⟩ | ⟨more, rfl, hmore⟩
  · cases more with
    | nil => exact ⟨(List.append_nil _).symm, (List.cons.inj hmore).2⟩
    | cons c more =>
        cases hmore
        exact absurd (List.mem_append_right _ List.mem_cons_self) hline'
  · cases more with
    | nil => exact ⟨List.append_nil _, (List.cons.inj hmore).2.symm⟩
    | cons c more =>
        cases hmore
        exact absurd (List.mem_append_right _ List.mem_cons_self) hline

section Inj

variable {indent : ℕ} {rest rest' : List CChar}

/-- Two values that print the same are the same, if this holds of the elements of arrays. -/
theorem formatResponse_inj_of_elements {a b : RESPValue} (ha : a.OneLine) (hb : b.OneLine)
    (helements : ∀ vs ws, a = .array vs → AllOneLine ws → vs.length = ws.length →
      formatElements indent 0 vs ++ rest = formatElements indent 0 ws ++ rest' →
      vs = ws ∧ rest = rest')
    (h : formatResponse indent a ++ rest = formatResponse indent b ++ rest') :
    a = b ∧ rest = rest' := by
  rw [formatResponse_eq, formatResponse_eq, List.append_assoc, List.append_assoc,
    List.append_assoc, List.append_assoc] at h
  have hlines : a.heading ++ lf :: (a.elementLines indent ++ rest) =
      b.heading ++ lf :: (b.elementLines indent ++ rest') := List.append_cancel_left h
  obtain ⟨hheading, hbelow⟩ := line_inj (lf_not_mem_heading ha) (lf_not_mem_heading hb) hlines
  rcases heading_inj hheading with rfl | ⟨vs, ws, rfl, rfl, hlength⟩
  · exact ⟨rfl, List.append_cancel_left hbelow⟩
  · obtain ⟨rfl, hrest⟩ := helements vs ws rfl hb hlength hbelow
    exact ⟨rfl, hrest⟩

end Inj

mutual

/-- The lines of a value tell the value and where they end. -/
theorem formatResponse_inj : (a : RESPValue) → a.OneLine → ∀ (b : RESPValue) (indent : ℕ)
    (rest rest' : List CChar), b.OneLine →
    formatResponse indent a ++ rest = formatResponse indent b ++ rest' → a = b ∧ rest = rest'
  | .array vs, ha, b, indent, rest, rest', hb, h => by
      refine formatResponse_inj_of_elements ha hb (fun vs' ws hvs hws hlength helements => ?_) h
      cases hvs
      exact formatElements_inj vs ha ws indent 0 rest rest' hws hlength helements
  | .simpleString _, ha, b, indent, rest, rest', hb, h
  | .error _, ha, b, indent, rest, rest', hb, h
  | .integer _, ha, b, indent, rest, rest', hb, h
  | .bulkString _, ha, b, indent, rest, rest', hb, h
  | .null, ha, b, indent, rest, rest', hb, h =>
      formatResponse_inj_of_elements ha hb (fun _ _ hvs => nomatch hvs) h

theorem formatElements_inj : (vs : List RESPValue) → AllOneLine vs → ∀ (ws : List RESPValue)
    (indent i : ℕ) (rest rest' : List CChar), AllOneLine ws → vs.length = ws.length →
    formatElements indent i vs ++ rest = formatElements indent i ws ++ rest' →
    vs = ws ∧ rest = rest'
  | [], _, [], _, _, rest, rest', _, _, h => ⟨rfl, h⟩
  | [], _, _ :: _, _, _, _, _, _, hlength, _ => nomatch hlength
  | _ :: _, _, [], _, _, _, _, _, hlength, _ => nomatch hlength
  | v :: vs, hvs, w :: ws, indent, i, rest, rest', hws, hlength, h => by
      simp only [formatElements, List.append_assoc, List.append_cancel_left_eq] at h
      obtain ⟨rfl, hrest⟩ := formatResponse_inj v hvs.1 w (indent + 2) _ _ hws.1 h
      obtain ⟨rfl, hend⟩ := formatElements_inj vs hvs.2 ws indent (i + 1) rest rest' hws.2
        (Nat.succ.inj hlength) hrest
      exact ⟨rfl, hend⟩

end

/-- What is printed for a reply tells the reply and where the next one begins, as long as no string
holds a line feed. -/
theorem formatResponse_eq_iff {a b : RESPValue} (ha : a.OneLine) (hb : b.OneLine) (indent : ℕ)
    (rest rest' : List CChar) :
    formatResponse indent a ++ rest = formatResponse indent b ++ rest' ↔ a = b ∧ rest = rest' := by
  constructor
  · exact formatResponse_inj a ha b indent rest rest' hb
  · rintro ⟨rfl, rfl⟩
    rfl

theorem formatResponse_eq_iff_nested :
    formatResponse 0 (.array [.null, .array [.bulkString []]]) ++ [1] =
        formatResponse 0 (.array [.array [.null], .bulkString []]) ++ [1] ↔
      RESPValue.array [.null, .array [.bulkString []]] = .array [.array [.null], .bulkString []] ∧
        [1] = [(1 : CChar)] :=
  formatResponse_eq_iff (by simp [RESPValue.OneLine, AllOneLine])
    (by simp [RESPValue.OneLine, AllOneLine]) 0 [1] [1]

/-- A line feed can make one string look like two elements. -/
example :
    let inner := text "b\n  1)   (bulk) c"
    formatResponse 0 (.array [.bulkString (text "a\n  1)   (bulk) b"), .bulkString (text "c")]) =
      formatResponse 0 (.array [.bulkString (text "a"), .bulkString inner]) := by
  decide +kernel

end SimpleRedis.Resp
