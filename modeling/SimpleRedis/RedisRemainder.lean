import SimpleRedis.RedisReader
import SimpleRedis.RespSlice

/-!
# What a read leaves in the buffer

`ClientImpl::read` stops at a reply that is not complete, and behind one byte that
begins no reply. The parser has seen the whole buffer and not only its valid bytes, so
what it says about a position is compared here with what it would say about the valid
bytes behind that position by themselves: a reply that is complete in the part is
complete in the whole.
-/
namespace SimpleRedis.Resp

section Shift

variable {memory : Memory} {data whole more line : List CChar} {k pos stop depth : ℕ}
  {v : RESPValue}

theorem drop_shift (hin : whole.drop k = data ++ more) (hpos : pos ≤ data.length) :
    whole.drop (k + pos) = data.drop pos ++ more := by
  rw [← List.drop_drop, hin, List.drop_append_of_le_length hpos]

theorem getElem?_shift {i : ℕ} {c : CChar} (hin : whole.drop k = data ++ more)
    (h : data[i]? = some c) : whole[k + i]? = some c := by
  rw [← List.getElem?_drop, hin, List.getElem?_append_left (getElem?_lt h), h]

/-- A line of the part is a line of the whole. -/
theorem readLine_shift (hin : whole.drop k = data ++ more)
    (h : readLine data pos = .ok (line, stop)) :
    readLine whole (k + pos) = .ok (line, k + stop) := by
  have hbounds := readLine_bounds h
  obtain ⟨hnone, rfl, rest, hrest⟩ := readLine_spec h
  have hdrop : whole.drop (k + pos) = line ++ (crlf ++ (rest ++ more)) := by
    rw [drop_shift hin (by omega), hrest, List.append_assoc, List.append_assoc]
  rw [readLine_line hnone hdrop, Nat.add_assoc, Nat.add_assoc, Nat.add_assoc]

theorem headerLength_shift {len : Int64} (hin : whole.drop k = data ++ more)
    (h : headerLength data pos = .ok (len, stop)) :
    headerLength whole (k + pos) = .ok (len, k + stop) := by
  obtain ⟨line, hline, hlen⟩ := headerLength_spec h
  exact headerLength_of (readLine_shift hin hline) hlen

theorem sizeAdd_shift {len : Int64} (h : sizeAdd pos len = some stop) :
    sizeAdd (k + pos) len = some (k + stop) := by
  unfold sizeAdd at h ⊢
  split at h
  · cases h
  · cases h
    rw [if_neg (by omega)]
    congr 1
    omega

theorem parseElements_shift {parse parse' : ℕ → Parse (RESPValue × ℕ)}
    (hparse : ∀ pos v stop, parse pos = .ok (v, stop) →
      ∃ v', parse' (k + pos) = .ok (v', k + stop))
    {n : ℕ} {vs : List RESPValue} (h : parseElements parse n pos = .ok (vs, stop)) :
    ∃ vs', parseElements parse' n (k + pos) = .ok (vs', k + stop) := by
  induction n generalizing pos vs with
  | zero =>
      cases h
      exact ⟨[], rfl⟩
  | succ n ih =>
      obtain ⟨⟨v, next⟩, hfirst, h⟩ := bind_eq_ok h
      obtain ⟨⟨vs₁, stop'⟩, hothers, h⟩ := bind_eq_ok h
      cases h
      obtain ⟨v', hv'⟩ := hparse pos v next hfirst
      obtain ⟨vs', hvs'⟩ := ih hothers
      refine ⟨v' :: vs', ?_⟩
      simp only [parseElements, hv', hvs', bind, Except.bind]
      rfl

/-- A reply that is complete in the part is complete in the whole and ends at the same
place. Its value may be another one: a bulk string of a negative length reaches to the
end of the string. -/
theorem parseValue_shift (hin : whole.drop k = data ++ more)
    (h : parseValue memory data depth pos = .ok (v, stop)) {depth' : ℕ} (hdepth : depth ≤ depth') :
    ∃ v', parseValue memory whole depth' (k + pos) = .ok (v', k + stop) := by
  induction depth generalizing pos v stop depth' with
  | zero => cases h
  | succ depth ih =>
      obtain ⟨depth', rfl⟩ : ∃ n, depth' = n + 1 := ⟨depth' - 1, by omega⟩
      cases parsed_of_ok h with
      | simpleString htype hline =>
          have htype' := getElem?_shift hin htype
          have hline' := readLine_shift hin hline
          exact ⟨_, (Parsed.simpleString htype' hline').ok⟩
      | error htype hline =>
          have htype' := getElem?_shift hin htype
          have hline' := readLine_shift hin hline
          exact ⟨_, (Parsed.error htype' hline').ok⟩
      | integer htype hline hn =>
          have htype' := getElem?_shift hin htype
          have hline' := readLine_shift hin hline
          exact ⟨_, (Parsed.integer htype' hline' hn).ok⟩
      | null htype hlen =>
          have htype' := getElem?_shift hin htype
          have hlen' := headerLength_shift hin hlen
          exact ⟨_, (Parsed.null htype' hlen').ok⟩
      | nullArray htype hlen =>
          have htype' := getElem?_shift hin htype
          have hlen' := headerLength_shift hin hlen
          exact ⟨_, (Parsed.nullArray htype' hlen').ok⟩
      | bulkString htype hlen hne hstop hcr hlf =>
          have htype' := getElem?_shift hin htype
          have hlen' := headerLength_shift hin hlen
          have hcr' := getElem?_shift hin hcr
          have hlf' := getElem?_shift hin hlf
          exact ⟨_, (Parsed.bulkString htype' hlen' hne (sizeAdd_shift hstop) hcr' hlf').ok⟩
      | array htype hlen hne hroom helements =>
          have htype' := getElem?_shift hin htype
          have hlen' := headerLength_shift hin hlen
          obtain ⟨vs', hvs'⟩ := parseElements_shift
            (fun pos v stop h => ih h (Nat.le_of_succ_le_succ hdepth)) helements
          exact ⟨_, (Parsed.array htype' hlen' hne hroom hvs').ok⟩

/-- The part from `pos` to `size`, parsed by itself. -/
theorem parse_of_part {buf : List CChar} {size pos stop : ℕ} {v : RESPValue}
    (h : parse memory ((buf.take size).drop pos) 0 = .ok (v, stop)) :
    ∃ v', parse memory buf pos = .ok (v', pos + stop) := by
  have hin : buf.drop pos = (buf.take size).drop pos ++ (buf.drop pos).drop (size - pos) := by
    rw [List.drop_take, List.take_append_drop]
  exact parseValue_shift hin h (by simp)

end Shift

end SimpleRedis.Resp

namespace SimpleRedis.Redis

open Resp

variable {P : Type*}

/-- The first `n` replies of the buffer begin at 0, each where the one before ends, and
the last of them ends at `pos`. -/
inductive Takes (memory : Memory) (buf : List CChar) (size : ℕ) : ℕ → ℕ → Prop where
  | none : Takes memory buf size 0 0
  | next {n pos stop : ℕ} {v : RESPValue} (h : Takes memory buf size n pos) (hlt : pos < size)
      (hparse : parse memory buf pos = .ok (v, stop)) : Takes memory buf size (n + 1) stop

/-- The valid bytes from `pos` on begin with a complete reply. -/
def ReplyAt (memory : Memory) (buf : List CChar) (size pos : ℕ) : Prop :=
  ∃ v stop, parse memory ((buf.take size).drop pos) 0 = .ok (v, stop)

/-- What `read` catches as `std::exception`: the byte begins no reply, or one that there is no
memory for. -/
def Malformed (memory : Memory) (buf : List CChar) (pos : ℕ) : Prop :=
  ∃ e, parse memory buf pos = .error e ∧ e ≠ .incomplete ∧ e ≠ .stackOverflow

/-- Behind the replies at the front comes one byte that is malformed, and then a reply. -/
def StrayInFront (memory : Memory) (buf : List CChar) (size : ℕ) : Prop :=
  ∃ n pos, Takes memory buf size n pos ∧ pos < size ∧ Malformed memory buf pos ∧
    ReplyAt memory buf size (pos + 1)

section Remainder

variable {memory : Memory} {buf : List CChar} {size n pos : ℕ} {promises : List P}

theorem readLoop_malformed (hlt : pos < size) (h : Malformed memory buf pos) :
    readLoop memory buf size promises pos = some ⟨pos + 1, promises, [], false⟩ := by
  obtain ⟨e, hparse, hincomplete, hoverflow⟩ := h
  rw [readLoop, if_pos hlt, hparse]
  cases e <;> simp_all

/-- The loop gets through the replies that have promises. -/
theorem readLoop_of_takes (h : Takes memory buf size n pos) (hpromises : n ≤ promises.length) :
    (readLoop memory buf size promises 0).map (·.returned) =
      (readLoop memory buf size (promises.drop n) pos).map (·.returned) := by
  induction h with
  | none => rfl
  | @next n pos stop v h hlt hparse ih =>
      have hdrop : promises.drop n = promises[n] :: promises.drop (n + 1) :=
        List.drop_eq_getElem_cons hpromises
      rw [ih (by omega), readLoop, if_pos hlt, hparse, hdrop]
      simp only [Option.map_map]
      rfl

/-- A round of a loop that stops short of the valid bytes. -/
theorem readLoop_round {r : ReadResult P} (hread : readLoop memory buf size promises pos = some r)
    (hlt : r.returned < size) :
    pos < size ∧ ((parse memory buf pos = .error .incomplete ∧ r.returned = pos ∨
      Malformed memory buf pos ∧ r.returned = pos + 1) ∨
      ∃ v stop, parse memory buf pos = .ok (v, stop) ∧ (promises = [] ∨
        ∃ promise others r', promises = promise :: others ∧
          readLoop memory buf size others stop = some r' ∧ r'.returned = r.returned)) := by
  rw [readLoop] at hread
  split at hread
  · rename_i hpos
    refine ⟨hpos, ?_⟩
    split at hread
    · rename_i hparse
      cases hread
      exact Or.inl (Or.inl ⟨hparse, rfl⟩)
    · cases hread
    · rename_i e hincomplete hoverflow hparse
      cases hread
      exact Or.inl (Or.inr ⟨⟨e, hparse, hincomplete, hoverflow⟩, rfl⟩)
    · rename_i v stop hparse
      refine Or.inr ⟨v, stop, hparse, ?_⟩
      split at hread
      · exact Or.inl rfl
      · rename_i promise others
        obtain ⟨r', hr', rfl⟩ := Option.map_eq_some_iff.mp hread
        exact Or.inr ⟨promise, others, r', rfl, hr', rfl⟩
  · cases hread
    exact absurd hlt ‹_›

/-- Where the loop stops short of the valid bytes, if there are promises enough: in front
of a reply that is not complete, or behind a malformed byte. -/
theorem readLoop_exit (h : Takes memory buf size n pos)
    (hpromises : ∀ m stop, Takes memory buf size m stop → m ≤ n + promises.length)
    {r : ReadResult P} (hread : readLoop memory buf size promises pos = some r)
    (hlt : r.returned < size) :
    ∃ m stop, Takes memory buf size m stop ∧ stop < size ∧
      (parse memory buf stop = .error .incomplete ∧ r.returned = stop ∨
        Malformed memory buf stop ∧ r.returned = stop + 1) := by
  induction promises generalizing n pos r with
  | nil =>
      obtain ⟨hpos, hstop | ⟨v, stop, hparse, -⟩⟩ := readLoop_round hread hlt
      · exact ⟨n, pos, h, hpos, hstop⟩
      · have hcount := hpromises _ _ (h.next hpos hparse)
        rw [List.length_nil] at hcount
        omega
  | cons promise promises ih =>
      obtain ⟨hpos, hstop | ⟨v, stop, hparse, hnil | ⟨_, _, r', hcons, hr', hreturned⟩⟩⟩ :=
        readLoop_round hread hlt
      · exact ⟨n, pos, h, hpos, hstop⟩
      · cases hnil
      · cases hcons
        rw [← hreturned] at hlt ⊢
        refine ih (h.next hpos hparse) (fun m stop hm => ?_) hr' hlt
        have hcount := hpromises m stop hm
        rw [List.length_cons] at hcount
        omega

/-- A read with a promise for every reply leaves no complete reply at the front of the
buffer, unless it has stopped behind a malformed byte that stands in front of one: it
skips the byte and does not look at what follows. -/
theorem nothing_left_iff (hpromises : ∀ m stop, Takes memory buf size m stop → m ≤ promises.length)
    {r : ReadResult P} (hread : read memory promises buf size = some r) (hlt : r.returned < size) :
    ¬ ReplyAt memory buf size r.returned ↔ ¬ StrayInFront memory buf size := by
  rw [not_iff_not]
  constructor
  · intro hreply
    obtain ⟨m, stop, htakes, hstop, ⟨hincomplete, hreturned⟩ | ⟨hmalformed, hreturned⟩⟩ :=
      readLoop_exit .none (fun m stop hm => by simpa using hpromises m stop hm) hread hlt
    · obtain ⟨v, stop', hpart⟩ := hreply
      obtain ⟨v', hwhole⟩ := parse_of_part hpart
      rw [hreturned, hincomplete] at hwhole
      cases hwhole
    · exact ⟨m, stop, htakes, hstop, hmalformed, hreturned ▸ hreply⟩
  · rintro ⟨m, stop, htakes, hstop, hmalformed, hreply⟩
    have hreturned := readLoop_of_takes htakes (hpromises m stop htakes)
    rw [readLoop_malformed hstop hmalformed] at hreturned
    rw [read] at hread
    rw [hread, Option.map_some, Option.map_some, Option.some.injEq] at hreturned
    rw [hreturned]
    exact hreply

/-- A stray byte in front of the reply `+OK`. -/
def strayBuffer : List CChar := [120, 43, 79, 75, 13, 10]

theorem read_strayBuffer : read .unbounded [0] strayBuffer 6 = some ⟨1, [0], [], false⟩ := rfl

theorem takes_strayBuffer {m stop : ℕ} (h : Takes .unbounded strayBuffer 6 m stop) :
    m ≤ 0 ∧ stop = 0 := by
  induction h with
  | none => exact ⟨Nat.le_refl 0, rfl⟩
  | next h hlt hparse ih =>
      have hstray : parse .unbounded strayBuffer 0 = .error (.unknownType 120) := rfl
      rw [ih.2, hstray] at hparse
      cases hparse

theorem nothing_left_iff_stray :
    ¬ ReplyAt .unbounded strayBuffer 6 1 ↔ ¬ StrayInFront .unbounded strayBuffer 6 :=
  nothing_left_iff (fun _ _ h => (takes_strayBuffer h).1.trans (Nat.zero_le _)) read_strayBuffer
    (by decide)

/-- The stray byte is skipped and the reply behind it stays in the buffer. -/
theorem not_nothing_left_stray :
    ¬ ∀ (promises : List ℕ) (buf : List CChar) (size : ℕ) (r : ReadResult ℕ),
      size ≤ buf.length → (∀ m stop, Takes .unbounded buf size m stop → m ≤ promises.length) →
      read .unbounded promises buf size = some r → r.returned < size →
        ¬ ReplyAt .unbounded buf size r.returned := by
  intro h
  have hpromises : ∀ m stop, Takes .unbounded strayBuffer 6 m stop → m ≤ [0].length :=
    fun _ _ htakes => (takes_strayBuffer htakes).1.trans (Nat.zero_le _)
  exact h [0] strayBuffer 6 _ (by decide) hpromises read_strayBuffer (by decide)
    ⟨.simpleString [79, 75], 5, rfl⟩

end Remainder

end SimpleRedis.Redis
