import SimpleRedis.RespStream
import SimpleRedis.ReadBuffer

/-!
# Replies of a Redis connection

`ClientImpl::read` takes replies off the front of the connection's buffer and
gives each to the promise at the head of the queue. The parser gets the whole
buffer, zeros included, and not only its valid bytes. Where a read ends inside
an array exactly where an element is due, the parser takes the zero behind it for
a malformed reply, and the connection drops the `*` of the array. The replies come
out right if and only if no read ends so while the buffer has room.
-/
namespace SimpleRedis.Redis

open Resp

variable {P : Type*}

/-- What one call of `ClientImpl::read` does. `starved` is set by the branch that
finds no promise for a reply. -/
structure ReadResult (P : Type*) where
  returned : ℕ
  promises : List P
  resolved : List (P × RESPValue)
  starved : Bool

/-- The `while` loop of `ClientImpl::read`. The result is `none` when the parser
recurses without end and takes the process down. -/
def readLoop (memory : Memory) (buf : List CChar) (size : ℕ) (promises : List P) (pos : ℕ) :
    Option (ReadResult P) :=
  if pos < size then
    match parse memory buf pos with
    | .error .incomplete => some ⟨pos, promises, [], false⟩
    | .error .stackOverflow => none
    | .error _ => some ⟨pos + 1, promises, [], false⟩
    | .ok (result, pos) =>
        match promises with
        | [] => some ⟨pos, [], [], true⟩
        | promise :: promises =>
            (readLoop memory buf size promises pos).map fun r =>
              { r with resolved := (promise, result) :: r.resolved }
  else some ⟨pos, promises, [], false⟩

/-- `ClientImpl::read`. -/
def read (memory : Memory) (promises : List P) (buf : List CChar) (size : ℕ) :
    Option (ReadResult P) :=
  readLoop memory buf size promises 0

/-- A connection of the client with the promises it has resolved so far. -/
structure RedisConnection (P : Type*) where
  readBuffer : SimpleBuffer
  promises : List P
  resolved : List (P × RESPValue)

namespace RedisConnection

/-- `Connection::DEFAULT_BUFFER_SIZE`. -/
def defaultBufferSize : ℕ := 4096

def fresh (promises : List P) : RedisConnection P :=
  { readBuffer := .ofSize defaultBufferSize, promises := promises, resolved := [] }

theorem fresh_size (promises : List P) : (fresh promises).readBuffer.size = defaultBufferSize :=
  SimpleBuffer.size_ofSize _

theorem fresh_free (promises : List P) :
    (fresh promises).readBuffer.free = defaultBufferSize := by
  rw [SimpleBuffer.free, fresh_size]
  exact Nat.sub_zero _

/-- `handleRead` when `socket->read` has given the bytes of `chunk`. -/
def handleRead (memory : Memory) (conn : RedisConnection P) (chunk : List CChar) :
    Option (RedisConnection P) :=
  let filled := conn.readBuffer.fill chunk
  (read memory conn.promises filled.buffer filled.dataSize).map fun r =>
    { readBuffer := filled.consume r.returned
      promises := r.promises
      resolved := conn.resolved ++ r.resolved }

/-- One `handleRead` for each socket read. -/
def handleReads (memory : Memory) (conn : RedisConnection P) :
    List (List CChar) → Option (RedisConnection P)
  | [] => some conn
  | chunk :: chunks =>
      (conn.handleRead memory chunk).bind fun conn => conn.handleReads memory chunks

/-- The reads are not empty and none is longer than the free space it finds. -/
def Fits (memory : Memory) (conn : RedisConnection P) : List (List CChar) → Prop
  | [] => True
  | chunk :: chunks =>
      chunk ≠ [] ∧ chunk.length ≤ conn.readBuffer.free ∧
        ∀ conn', conn.handleRead memory chunk = some conn' → conn'.Fits memory chunks

end RedisConnection

/-- How far a number of bytes reaches into the encodings of some replies. -/
structure Reach where
  whole : List RESPValue
  rest : List RESPValue
  pending : ℕ

def reach : List RESPValue → ℕ → Reach
  | [], n => ⟨[], [], n⟩
  | r :: rs, n =>
      if r.enc.length ≤ n then
        let others := reach rs (n - r.enc.length)
        { others with whole := r :: others.whole }
      else ⟨[], r :: rs, n⟩

/-- The bytes end inside an array where an element of it is due. -/
def Reach.elementDue (s : Reach) : Bool :=
  match s.rest with
  | [] => false
  | r :: _ => s.pending ≠ 0 && r.dueAt s.pending

/-- No read ends where an element is due, unless it fills the buffer. `pending`
counts the bytes that earlier reads have left of the first reply. -/
def cleanCuts (capacity : ℕ) : List RESPValue → ℕ → List ℕ → Bool
  | _, _, [] => true
  | replies, pending, n :: ns =>
      let s := reach replies (pending + n)
      !(pending + n < capacity && s.elementDue) && cleanCuts capacity s.rest s.pending ns

section Reach

theorem reach_append (replies : List RESPValue) (n : ℕ) :
    (reach replies n).whole ++ (reach replies n).rest = replies := by
  induction replies generalizing n with
  | nil => rfl
  | cons r rs ih =>
      rw [reach]
      split
      · exact congrArg (r :: ·) (ih _)
      · rfl

theorem reach_length (replies : List RESPValue) (n : ℕ) :
    (encAll (reach replies n).whole).length + (reach replies n).pending = n := by
  induction replies generalizing n with
  | nil => simp [reach, encAll]
  | cons r rs ih =>
      rw [reach]
      split
      · have := ih (n - r.enc.length)
        simp only [encAll, List.length_append]
        omega
      · simp [encAll]

theorem reach_pending_lt {replies rs : List RESPValue} {r : RESPValue} {n : ℕ}
    (h : (reach replies n).rest = r :: rs) : (reach replies n).pending < r.enc.length := by
  induction replies generalizing n with
  | nil => simp [reach] at h
  | cons r' replies ih =>
      rw [reach] at h ⊢
      split
      · rename_i hle
        rw [if_pos hle] at h
        exact ih h
      · rename_i hlt
        rw [if_neg hlt] at h
        obtain ⟨rfl, -⟩ := List.cons_eq_cons.mp h
        exact Nat.lt_of_not_le hlt

/-- Received bytes are the replies that are whole and a proper part of the next. -/
theorem reach_window {replies : List RESPValue} {window future : List CChar}
    (h : window ++ future = encAll replies) :
    let s := reach replies window.length
    ∃ part, window = encAll s.whole ++ part ∧ part.length = s.pending ∧
      part ++ future = encAll s.rest := by
  have happ := reach_append replies window.length
  have hlen := reach_length replies window.length
  have hwindow : window ++ future =
      encAll (reach replies window.length).whole ++ encAll (reach replies window.length).rest := by
    rw [← encAll_append, happ, h]
  have hwhole : encAll (reach replies window.length).whole <+: window :=
    List.prefix_of_prefix_length_le ⟨_, hwindow.symm⟩ ⟨future, rfl⟩ (by omega)
  obtain ⟨part, hpart⟩ := hwhole
  refine ⟨part, hpart.symm, ?_, ?_⟩
  · have := congrArg List.length hpart
    rw [List.length_append] at this
    omega
  · rw [← hpart, List.append_assoc, hpart] at hwindow
    exact List.append_cancel_left hwindow

end Reach

/-- The characters that `parse_value` accepts as a type. -/
def isType (c : CChar) : Prop := c = ch '+' ∨ c = ch '-' ∨ c = ch ':' ∨ c = ch '$' ∨ c = ch '*'

section ReadLoop

variable {memory : Memory} {buf : List CChar} {size pos : ℕ} {promises : List P}

/-- Replies that are whole go to the promises at the head of the queue. -/
theorem readLoop_whole {replies : List RESPValue} {tail : List CChar}
    (hwf : AllWellFormed memory replies) (h : buf.drop pos = encAll replies ++ tail)
    (hsize : pos + (encAll replies).length ≤ size) (hp : replies.length ≤ promises.length) :
    readLoop memory buf size promises pos =
      (readLoop memory buf size (promises.drop replies.length) (pos + (encAll replies).length)).map
        fun r => { r with resolved := promises.zip replies ++ r.resolved } := by
  induction replies generalizing pos promises with
  | nil =>
      cases hr : readLoop memory buf size promises pos <;> simp [encAll, hr]
  | cons r replies ih =>
      cases promises with
      | nil => simp at hp
      | cons promise promises =>
          have hpos := r.enc_length_pos
          have h' : buf.drop pos = r.enc ++ (encAll replies ++ tail) := by simpa [encAll] using h
          have hbuf := length_of_drop_eq h' (by
            rw [← List.length_pos_iff, List.length_append]
            omega)
          rw [List.length_append] at hbuf
          have hparse : parse memory buf pos = .ok (r, pos + r.enc.length) :=
            parseValue_enc r hwf.1 _ pos _ (by omega) h'
          rw [encAll, List.length_append] at hsize
          have hlt : pos < size := by omega
          rw [readLoop, if_pos hlt, hparse]
          simp only [List.length_cons, List.drop_succ_cons, List.zip_cons_cons, encAll,
            List.length_append]
          rw [ih hwf.2 (drop_field h') (by omega) (by simpa using hp), Option.map_map,
            Nat.add_assoc]
          rfl

/-- A part of a reply stays in the buffer, but for its first byte where an
element is due and a zero stands in its place. -/
theorem readLoop_cut (promises : List P) {r : RESPValue} (hwf : r.WellFormed memory)
    {part q : List CChar} {zeros : ℕ}
    (hcut : r.enc = part ++ q) (hq : q ≠ []) (hne : part ≠ [])
    (h : buf.drop pos = part ++ List.replicate zeros 0) :
    readLoop memory buf (pos + part.length) promises pos =
      some ⟨pos + if r.dueAt part.length ∧ zeros ≠ 0 then 1 else 0, promises, [], false⟩ := by
  have hpos := List.length_pos_iff.mpr hne
  have hbuf := length_of_drop_eq h (by simp [hne])
  rw [List.length_append] at hbuf
  have hparse : parse memory buf pos = .error (cutError (r.dueAt part.length) zeros) :=
    parseValue_cut r (hwf.mono memory.elements_le) _ pos part q zeros
      (fitsTo_of_wellFormed r hwf _) hcut hq (by omega) h
  rw [readLoop, if_pos (by omega), hparse, cutError]
  by_cases hdue : r.dueAt part.length = true ∧ zeros ≠ 0
  · simp only [if_pos hdue]
  · simp only [if_neg hdue, Nat.add_zero]

/-- Behind the whole replies: nothing, or a part of the next one. -/
theorem readLoop_part (promises : List P) {s : Reach} (hwf : AllWellFormed memory s.rest)
    (hlt : ∀ rs r, s.rest = r :: rs → s.pending < r.enc.length) {part future : List CChar}
    {zeros : ℕ} (hpending : part.length = s.pending) (hrest : part ++ future = encAll s.rest)
    (h : buf.drop pos = part ++ List.replicate zeros 0) :
    readLoop memory buf (pos + part.length) promises pos =
      some ⟨pos + if s.elementDue ∧ zeros ≠ 0 then 1 else 0, promises, [], false⟩ := by
  cases part with
  | nil =>
      have hdue : s.elementDue = false := by
        unfold Reach.elementDue
        split
        · rfl
        · simp [← hpending]
      rw [readLoop, List.length_nil, Nat.add_zero, if_neg (Nat.lt_irrefl pos), hdue]
      simp
  | cons c part =>
      unfold Reach.elementDue
      cases hr : s.rest with
      | nil => simp [hr, encAll] at hrest
      | cons r rs =>
          have hpart := hlt rs r hr
          rw [hr] at hwf hrest
          rw [← hpending] at hpart
          obtain ⟨q, hq⟩ : c :: part <+: r.enc :=
            List.prefix_of_prefix_length_le ⟨future, hrest⟩ ⟨encAll rs, rfl⟩ (Nat.le_of_lt hpart)
          have hne : q ≠ [] := by
            rintro rfl
            rw [← hq, List.append_nil] at hpart
            exact Nat.lt_irrefl _ hpart
          rw [readLoop_cut promises hwf.1 hq.symm hne (by simp) h, hpending]
          simp [← hpending]

theorem parse_of_not_isType {c : CChar} {tail : List CChar} (h : buf.drop pos = c :: tail)
    (hc : ¬ isType c) : parse memory buf pos = .error (.unknownType c) := by
  simp only [isType, not_or] at hc
  rw [parse, parseValue_type h, if_neg hc.1, if_neg hc.2.1, if_neg hc.2.2.1, if_neg hc.2.2.2.1,
    if_neg hc.2.2.2.2]
  rfl

/-- A byte that is no type is skipped, and the call returns. -/
theorem readLoop_junk {c : CChar} {tail : List CChar} (hsize : pos < size)
    (h : buf.drop pos = c :: tail) (hc : ¬ isType c) :
    readLoop memory buf size promises pos = some ⟨pos + 1, promises, [], false⟩ := by
  rw [readLoop, if_pos hsize, parse_of_not_isType h hc]

end ReadLoop

section Filled

variable {memory : Memory} {b : SimpleBuffer} {chunk : List CChar}

/-- The callback sees the valid bytes at the front of the buffer and zeros behind. -/
theorem filled_drop (hfree : chunk.length ≤ b.free) :
    (b.fill chunk).buffer.drop 0 =
      (b.valid ++ chunk) ++ List.replicate (b.free - chunk.length) 0 := by
  have hroom : (b.fill chunk).free = b.free - chunk.length := by
    rw [SimpleBuffer.free, SimpleBuffer.size_fill, ← SimpleBuffer.length_valid,
      SimpleBuffer.valid_fill _ hfree, List.length_append, SimpleBuffer.length_valid,
      SimpleBuffer.free, Nat.sub_sub]
  rw [List.drop_zero, SimpleBuffer.buffer_eq, SimpleBuffer.valid_fill _ hfree, hroom]

theorem filled_dataSize (hfree : chunk.length ≤ b.free) :
    (b.fill chunk).dataSize = (b.valid ++ chunk).length := by
  rw [← SimpleBuffer.length_valid, SimpleBuffer.valid_fill _ hfree]

/-- A read of bytes that start with a reply: the replies that are whole go to
their promises, and what is received of the next one stays, but for its first
byte where the read ends inside an array at an element and leaves room. -/
theorem read_replies {promises : List P} {replies : List RESPValue} {future : List CChar}
    {s : Reach} (hs : reach replies (b.dataSize + chunk.length) = s)
    (hwf : AllWellFormed memory replies) (hfree : chunk.length ≤ b.free)
    (hstream : (b.valid ++ chunk) ++ future = encAll replies)
    (hp : replies.length ≤ promises.length) :
    ∃ part returned, part.length = s.pending ∧ part ++ future = encAll s.rest ∧
      read memory promises (b.fill chunk).buffer (b.fill chunk).dataSize =
        some ⟨returned, promises.drop s.whole.length, promises.zip s.whole, false⟩ ∧
      ((b.fill chunk).consume returned).valid =
        part.drop (if s.elementDue ∧ chunk.length < b.free then 1 else 0) := by
  have hlen : (b.valid ++ chunk).length = b.dataSize + chunk.length := by simp
  obtain ⟨part, hpart, hpending, hrest⟩ := reach_window hstream
  have happ := reach_append replies (b.valid ++ chunk).length
  have hlt : ∀ rs r, s.rest = r :: rs → s.pending < r.enc.length := by
    rintro rs r hr
    rw [← hs] at hr ⊢
    exact reach_pending_lt hr
  rw [hlen, hs] at hpart hpending hrest happ
  rw [← happ, allWellFormed_append] at hwf
  rw [← happ, List.length_append] at hp
  have hdrop := filled_drop hfree
  have hsize := filled_dataSize hfree
  rw [hpart, List.append_assoc] at hdrop
  rw [hpart, List.length_append] at hsize
  have hle : 0 + (encAll s.whole).length ≤ (b.fill chunk).dataSize := by omega
  have hloop := readLoop_whole hwf.1 hdrop hle (Nat.le_of_add_right_le hp)
  have hcut := readLoop_part (promises.drop s.whole.length) hwf.2 hlt hpending hrest
    (drop_field hdrop)
  have hroom : b.free - chunk.length ≠ 0 ↔ chunk.length < b.free := by omega
  rw [Nat.zero_add] at hcut
  rw [hsize, Nat.zero_add, hcut, Option.map_some, List.append_nil] at hloop
  refine ⟨part, _, hpending, hrest, by rw [read, hsize]; exact hloop, ?_⟩
  simp only [hroom]
  rw [SimpleBuffer.valid_consume, SimpleBuffer.valid_fill _ hfree, hpart, ← List.drop_drop,
    List.drop_left]

end Filled

namespace RedisConnection

theorem zip_append_drop {α β : Type*} (as : List α) (bs cs : List β) :
    as.zip (bs ++ cs) = as.zip bs ++ (as.drop bs.length).zip cs := by
  induction bs generalizing as with
  | nil => simp
  | cons b bs ih =>
      cases as with
      | nil => simp
      | cons a as => simp [ih]

section HandleRead

variable {memory : Memory} {conn : RedisConnection P} {chunk : List CChar}

/-- What `read_replies` says of one `handleRead`. -/
theorem handleRead_replies {replies : List RESPValue} {future : List CChar} {s : Reach}
    (hs : reach replies (conn.readBuffer.dataSize + chunk.length) = s)
    (hwf : AllWellFormed memory replies) (hfree : chunk.length ≤ conn.readBuffer.free)
    (hstream : (conn.readBuffer.valid ++ chunk) ++ future = encAll replies)
    (hp : replies.length ≤ conn.promises.length) :
    ∃ conn' part, conn.handleRead memory chunk = some conn' ∧
      part.length = s.pending ∧ part ++ future = encAll s.rest ∧
      conn'.readBuffer.valid =
        part.drop (if s.elementDue ∧ chunk.length < conn.readBuffer.free then 1 else 0) ∧
      conn'.readBuffer.size = conn.readBuffer.size ∧
      conn'.promises = conn.promises.drop s.whole.length ∧
      conn'.resolved = conn.resolved ++ conn.promises.zip s.whole := by
  obtain ⟨part, returned, hpending, hrest, hread, hvalid⟩ := read_replies hs hwf hfree hstream hp
  refine ⟨_, part, by rw [handleRead, hread]; rfl, hpending, hrest, hvalid, ?_, rfl, rfl⟩
  rw [SimpleBuffer.size_consume, SimpleBuffer.size_fill]

/-- Reads that end cleanly resolve the replies in order and leave nothing. -/
theorem handleReads_of_cleanCuts (conn : RedisConnection P) {replies : List RESPValue}
    (hwf : AllWellFormed memory replies) {chunks : List (List CChar)}
    (hfits : conn.Fits memory chunks)
    (hstream : conn.readBuffer.valid ++ chunks.flatten = encAll replies)
    (hp : replies.length ≤ conn.promises.length)
    (hclean : cleanCuts conn.readBuffer.size replies conn.readBuffer.dataSize
      (chunks.map List.length) = true)
    (hlt : ∀ r rs, replies = r :: rs → conn.readBuffer.dataSize < r.enc.length) :
    ∃ conn', conn.handleReads memory chunks = some conn' ∧
      conn'.resolved = conn.resolved ++ conn.promises.zip replies ∧
      conn'.readBuffer.dataSize = 0 := by
  induction chunks generalizing conn replies with
  | nil =>
      rw [List.flatten_nil, List.append_nil] at hstream
      cases replies with
      | nil =>
          have hlen := congrArg List.length hstream
          exact ⟨conn, rfl, by simp, by simpa [encAll] using hlen⟩
      | cons r rs =>
          have hlen := congrArg List.length hstream
          have := hlt r rs rfl
          rw [SimpleBuffer.length_valid, encAll, List.length_append] at hlen
          omega
  | cons chunk chunks ih =>
      obtain ⟨-, hfree, hnext⟩ := hfits
      rw [List.flatten_cons, ← List.append_assoc] at hstream
      obtain ⟨hdue, hrestClean⟩ : _ ∧ _ := by
        simpa only [List.map_cons, cleanCuts, Bool.and_eq_true] using hclean
      set s := reach replies (conn.readBuffer.dataSize + chunk.length) with hs
      obtain ⟨conn', part, hread, hpending, hrest, hvalid, hsize, hpromises, hresolved⟩ :=
        handleRead_replies hs.symm hwf hfree hstream hp
      have happ : s.whole ++ s.rest = replies := reach_append _ _
      have hkept : ¬ (s.elementDue = true ∧ chunk.length < conn.readBuffer.free) := by
        have := conn.readBuffer.free_add_dataSize
        rintro ⟨hd, hroom⟩
        have hlt : conn.readBuffer.dataSize + chunk.length < conn.readBuffer.size := by omega
        simp [hd, hlt] at hdue
      rw [if_neg hkept, List.drop_zero] at hvalid
      have hdata : conn'.readBuffer.dataSize = s.pending := by
        rw [← SimpleBuffer.length_valid, hvalid, hpending]
      rw [← happ, allWellFormed_append] at hwf
      rw [← happ, List.length_append] at hp
      obtain ⟨final, hreads, hfinal, hempty⟩ := ih conn' hwf.2
        (hnext conn' hread) (by rw [hvalid, hrest])
        (by rw [hpromises, List.length_drop]; omega) (by rw [hsize, hdata]; exact hrestClean)
        (fun r rs hr => by rw [hdata]; exact reach_pending_lt hr)
      refine ⟨final, by rw [handleReads, hread]; exact hreads, ?_, hempty⟩
      rw [hfinal, hresolved, hpromises, List.append_assoc, ← zip_append_drop, happ]

end HandleRead

/-- Reads that fit together fit one by one, since no read leaves more in the
buffer than it has found and brought. -/
theorem fits_of_length_le (conn : RedisConnection P) {chunks : List (List CChar)}
    (hne : ∀ chunk ∈ chunks, chunk ≠ []) (h : chunks.flatten.length ≤ conn.readBuffer.free) :
    conn.Fits memory chunks := by
  induction chunks generalizing conn with
  | nil => trivial
  | cons chunk chunks ih =>
      rw [List.flatten_cons, List.length_append] at h
      have hfree : chunk.length ≤ conn.readBuffer.free := by omega
      refine ⟨hne chunk List.mem_cons_self, hfree, fun conn' hread => ?_⟩
      obtain ⟨r, -, rfl⟩ := Option.map_eq_some_iff.mp hread
      refine ih _ (fun c hc => hne c (List.mem_cons_of_mem _ hc)) ?_
      have hsize := conn.readBuffer.free_add_dataSize
      have hdata := ((conn.readBuffer.fill chunk).consume r.returned).length_valid
      rw [SimpleBuffer.valid_consume, SimpleBuffer.valid_fill _ hfree, List.length_drop,
        List.length_append, SimpleBuffer.length_valid] at hdata
      simp only [SimpleBuffer.free, SimpleBuffer.size_consume, SimpleBuffer.size_fill]
      omega

section Derailed

variable {memory : Memory} {conn conn' : RedisConnection P} {expected : List (P × RESPValue)}
  {chunk future : List CChar}

/-- The connection has lost the start of a reply that its next promise expects.
What comes next, behind bytes that are no type, is a value of a shorter encoding. -/
def Lost (memory : Memory) (expected : List (P × RESPValue)) (conn : RedisConnection P)
    (future : List CChar) : Prop :=
  ∃ promise promises r others junk v tail,
    expected = conn.resolved ++ (promise, r) :: others ∧ conn.promises = promise :: promises ∧
      conn.readBuffer.valid ++ future = junk ++ (RESPValue.enc v ++ tail) ∧
      (∀ c ∈ junk, ¬ isType c) ∧ v.WellFormed memory ∧ v.enc.length < r.enc.length

/-- A promise has got a value that is not the reply it expects. -/
def Wrong (expected : List (P × RESPValue)) (conn : RedisConnection P) : Prop :=
  ∃ good promise r others promise' v more,
    expected = good ++ (promise, r) :: others ∧ conn.resolved = good ++ (promise', v) :: more ∧
      v ≠ r

theorem Lost.resolved_ne (h : Lost memory expected conn future) : conn.resolved ≠ expected := by
  obtain ⟨promise, promises, r, others, junk, v, tail, hexp, -⟩ := h
  intro heq
  have := congrArg List.length (heq.trans hexp)
  rw [List.length_append, List.length_cons] at this
  omega

theorem Wrong.resolved_ne (h : Wrong expected conn) : conn.resolved ≠ expected := by
  obtain ⟨good, promise, r, others, promise', v, more, hexp, hres, hne⟩ := h
  rw [hexp, hres]
  intro heq
  have := List.append_cancel_left heq
  simp only [List.cons.injEq, Prod.mk.injEq] at this
  exact hne this.1.2

theorem handleRead_resolved (h : conn.handleRead memory chunk = some conn') :
    ∃ more, conn'.resolved = conn.resolved ++ more := by
  obtain ⟨r, -, rfl⟩ := Option.map_eq_some_iff.mp h
  exact ⟨r.resolved, rfl⟩

theorem Wrong.step (h : Wrong expected conn) (hread : conn.handleRead memory chunk = some conn') :
    Wrong expected conn' := by
  obtain ⟨good, promise, r, others, promise', v, more, hexp, hres, hne⟩ := h
  obtain ⟨later, hlater⟩ := handleRead_resolved hread
  exact ⟨good, promise, r, others, promise', v, more ++ later, hexp, by simp [hlater, hres], hne⟩

/-- Only inside an array is an element due. -/
theorem array_of_dueAt {r : RESPValue} {n : ℕ} (hdue : r.dueAt n = true) (hn : n ≠ 0) :
    ∃ v vs, r = .array (v :: vs) := by
  cases r with
  | array vs =>
      cases vs with
      | nil => simp [RESPValue.dueAt, dueIn, hn] at hdue
      | cons v vs => exact ⟨v, vs, rfl⟩
  | _ => simp [RESPValue.dueAt, hn] at hdue

theorem not_isType_header {n : ℕ} {c : CChar} (h : c ∈ decimal n ++ crlf) : ¬ isType c := by
  rcases List.mem_append.mp h with h | h
  · have := mem_decimal_toInt h
    rintro (rfl | rfl | rfl | rfl | rfl) <;> simp [ch] at this
  · simp only [crlf, List.mem_cons, List.not_mem_nil, or_false] at h
    rcases h with rfl | rfl <;> simp [isType, ch, cr, lf]

/-- Dropping the first byte of an array loses its start. -/
theorem lost_of_dropped {promise : P} {promises : List P} {r v : RESPValue} {vs : List RESPValue}
    {others : List (P × RESPValue)} {part tail : List CChar} (hpart : part ≠ [])
    (hexp : expected = conn.resolved ++ (promise, r) :: others)
    (hpromises : conn.promises = promise :: promises)
    (hwf : (RESPValue.array (v :: vs)).WellFormed memory)
    (hlen : (RESPValue.array (v :: vs)).enc.length ≤ r.enc.length)
    (hvalid : conn.readBuffer.valid = part.drop 1)
    (hstream : part ++ future = (RESPValue.array (v :: vs)).enc ++ tail) :
    Lost memory expected conn future := by
  refine ⟨promise, promises, r, others, decimal (v :: vs).length ++ crlf, v, encAll vs ++ tail,
    hexp, hpromises, ?_, fun c hc => not_isType_header hc, hwf.2.1, ?_⟩
  · obtain ⟨c, part, rfl⟩ := List.exists_cons_of_ne_nil hpart
    rw [RESPValue.enc, encAll, List.cons_append, List.cons_append] at hstream
    have htail := (List.cons_eq_cons.mp hstream).2
    rw [hvalid, List.drop_succ_cons, List.drop_zero, htail]
    simp
  · simp only [RESPValue.enc, encAll, List.length_cons, List.length_append] at hlen
    omega

/-- A connection that has lost the start of a reply never finds it again. -/
theorem Lost.step (h : Lost memory expected conn (chunk ++ future)) (hne : chunk ≠ [])
    (hfree : chunk.length ≤ conn.readBuffer.free)
    (hread : conn.handleRead memory chunk = some conn') :
    Lost memory expected conn' future ∨ Wrong expected conn' := by
  obtain ⟨promise, promises, r, others, junk, v, tail, hexp, hpromises, hstream, hjunk, hwf,
    hlen⟩ := h
  rw [← List.append_assoc] at hstream
  have hdrop := filled_drop hfree
  have hsize := filled_dataSize hfree
  have hvalid := SimpleBuffer.valid_fill _ hfree
  set window := conn.readBuffer.valid ++ chunk with hwindow
  have hwne : window ≠ [] := by simp [hwindow, hne]
  rw [handleRead, read, hsize] at hread
  cases junk with
  | cons c junk =>
      -- the parser skips one byte that is no type
      obtain ⟨d, window', hwin⟩ := List.exists_cons_of_ne_nil hwne
      rw [hwin, List.cons_append, List.cons_append] at hstream
      obtain ⟨rfl, htail⟩ := List.cons_eq_cons.mp hstream
      rw [hwin, List.cons_append] at hdrop
      rw [hwin, readLoop_junk (by simp) hdrop (hjunk d List.mem_cons_self)] at hread
      cases hread
      refine Or.inl ⟨promise, promises, r, others, junk, v, tail, by simpa using hexp, hpromises,
        ?_, fun c hc => hjunk c (List.mem_cons_of_mem d hc), hwf, hlen⟩
      rw [SimpleBuffer.valid_consume, hvalid, hwin]
      exact htail
  | nil =>
      rw [List.nil_append] at hstream
      by_cases hwhole : v.enc.length ≤ window.length
      · -- the value is whole and goes to a promise that expects another one
        obtain ⟨rest, hrest⟩ : v.enc <+: window :=
          List.prefix_of_prefix_length_le ⟨tail, hstream.symm⟩ ⟨future, rfl⟩ hwhole
        have hone : encAll [v] = v.enc := List.append_nil _
        have hfirst : (conn.readBuffer.fill chunk).buffer.drop 0 =
            encAll [v] ++ (rest ++ List.replicate (conn.readBuffer.free - chunk.length) 0) := by
          rw [hdrop, hone, ← List.append_assoc, hrest]
        have hone' : AllWellFormed memory [v] := ⟨hwf, trivial⟩
        rw [readLoop_whole hone' hfirst (by rw [hone, Nat.zero_add]; exact hwhole)
          (by simp [hpromises]), Option.map_map] at hread
        obtain ⟨result, -, rfl⟩ := Option.map_eq_some_iff.mp hread
        refine Or.inr ⟨conn.resolved, promise, r, others, promise, v, result.resolved, hexp, ?_, ?_⟩
        · simp [hpromises]
        · rintro rfl
          exact Nat.lt_irrefl _ hlen
      · obtain ⟨q, hq⟩ : window <+: v.enc :=
          List.prefix_of_prefix_length_le ⟨future, rfl⟩ ⟨tail, hstream.symm⟩ (by omega)
        have hqne : q ≠ [] := by
          rintro rfl
          rw [List.append_nil] at hq
          exact hwhole (by rw [hq])
        have hcut := readLoop_cut conn.promises hwf hq.symm hqne hwne hdrop
        rw [Nat.zero_add] at hcut
        rw [hcut] at hread
        cases hread
        by_cases hdue : v.dueAt window.length = true ∧ conn.readBuffer.free - chunk.length ≠ 0
        · obtain ⟨w, ws, rfl⟩ := array_of_dueAt hdue.1 (by simpa using hwne)
          refine Or.inl (lost_of_dropped hwne (by simpa using hexp) hpromises hwf
            (Nat.le_of_lt hlen) ?_ hstream)
          rw [SimpleBuffer.valid_consume, hvalid]
          simp only [if_pos hdue, Nat.zero_add]
        · refine Or.inl ⟨promise, promises, r, others, [], v, tail, by simpa using hexp, hpromises,
            ?_, by simp, hwf, hlen⟩
          rw [SimpleBuffer.valid_consume, hvalid]
          simp only [if_neg hdue]
          exact hstream

theorem resolved_ne_of_derailed {final : RedisConnection P} {chunks : List (List CChar)}
    (h : Lost memory expected conn chunks.flatten ∨ Wrong expected conn)
    (hfits : conn.Fits memory chunks)
    (hreads : conn.handleReads memory chunks = some final) : final.resolved ≠ expected := by
  induction chunks generalizing conn with
  | nil =>
      cases hreads
      exact h.elim Lost.resolved_ne Wrong.resolved_ne
  | cons chunk chunks ih =>
      obtain ⟨hne, hfree, hnext⟩ := hfits
      obtain ⟨conn', hread, hrest⟩ := Option.bind_eq_some_iff.mp hreads
      refine ih ?_ (hnext conn' hread) hrest
      rcases h with hlost | hwrong
      · exact hlost.step hne hfree hread
      · exact Or.inr (hwrong.step hread)

/-- One read that does not end cleanly spoils the replies. -/
theorem resolved_ne_of_not_cleanCuts (conn : RedisConnection P) {final : RedisConnection P}
    {replies : List RESPValue} (hwf : AllWellFormed memory replies) {chunks : List (List CChar)}
    (hfits : conn.Fits memory chunks)
    (hstream : conn.readBuffer.valid ++ chunks.flatten = encAll replies)
    (hp : replies.length ≤ conn.promises.length)
    (hcuts : cleanCuts conn.readBuffer.size replies conn.readBuffer.dataSize
      (chunks.map List.length) = false)
    (hreads : conn.handleReads memory chunks = some final) :
    final.resolved ≠ conn.resolved ++ conn.promises.zip replies := by
  induction chunks generalizing conn replies with
  | nil => simp [cleanCuts] at hcuts
  | cons chunk chunks ih =>
      obtain ⟨hne, hfree, hnext⟩ := hfits
      rw [List.flatten_cons, ← List.append_assoc] at hstream
      rw [List.map_cons, cleanCuts] at hcuts
      set s := reach replies (conn.readBuffer.dataSize + chunk.length) with hs
      obtain ⟨conn', part, hread, hpending, hrest, hvalid, hsize, hpromises, hresolved⟩ :=
        handleRead_replies hs.symm hwf hfree hstream hp
      obtain ⟨conn'', hread', hreads⟩ := Option.bind_eq_some_iff.mp hreads
      cases hread.symm.trans hread'
      have happ : s.whole ++ s.rest = replies := reach_append _ _
      have hexp : conn.resolved ++ conn.promises.zip replies =
          conn'.resolved ++ conn'.promises.zip s.rest := by
        rw [hresolved, hpromises, List.append_assoc, ← zip_append_drop, happ]
      rw [← happ, allWellFormed_append] at hwf
      rw [← happ, List.length_append] at hp
      have hp' : s.rest.length ≤ conn'.promises.length := by
        rw [hpromises, List.length_drop]
        omega
      have hfull := conn.readBuffer.free_add_dataSize
      by_cases hdue : s.elementDue = true ∧ chunk.length < conn.readBuffer.free
      · -- this read ends where an element is due, with a zero behind it
        rw [if_pos hdue] at hvalid
        refine resolved_ne_of_derailed (Or.inl ?_) (hnext conn' hread) hreads
        obtain ⟨helement, -⟩ := hdue
        unfold Reach.elementDue at helement
        cases hr : s.rest with
        | nil => simp [hr] at helement
        | cons r rs =>
            simp only [hr, Bool.and_eq_true, decide_eq_true_eq] at helement
            obtain ⟨v, vs, rfl⟩ := array_of_dueAt helement.2 helement.1
            rw [hr] at hwf hrest hexp hp'
            obtain ⟨promise, promises, hcons⟩ :=
              List.exists_cons_of_length_pos (l := conn'.promises) (by simp at hp'; omega)
            rw [hcons, List.zip_cons_cons] at hexp
            refine lost_of_dropped ?_ hexp hcons hwf.2.1 (Nat.le_refl _) hvalid hrest
            rw [← List.length_pos_iff, hpending]
            omega
      · rw [if_neg hdue, List.drop_zero] at hvalid
        have hdata : conn'.readBuffer.dataSize = s.pending := by
          rw [← SimpleBuffer.length_valid, hvalid, hpending]
        have hkept : (!(decide (conn.readBuffer.dataSize + chunk.length < conn.readBuffer.size) &&
            s.elementDue)) = true := by
          by_cases hroom : conn.readBuffer.dataSize + chunk.length < conn.readBuffer.size
          · have helement : s.elementDue ≠ true := fun h => hdue ⟨h, by omega⟩
            simp [helement]
          · simp [hroom]
        rw [hkept, Bool.true_and] at hcuts
        rw [hexp]
        exact ih conn' hwf.2 (hnext conn' hread) (by rw [hvalid, hrest]) hp'
          (by rw [hsize, hdata]; exact hcuts) hreads

end Derailed

/-- The replies come out, each at the promise that was queued for it, and nothing
is left in the buffer, if and only if no read ends where an element of an array is
due while the buffer still has room. -/
theorem handleReads_replies_iff {replies : List RESPValue} (hwf : AllWellFormed memory replies)
    {promises : List P} (hp : replies.length ≤ promises.length) {chunks : List (List CChar)}
    (hstream : chunks.flatten = encAll replies) (hfits : (fresh promises).Fits memory chunks) :
    (∃ conn, (fresh promises).handleReads memory chunks = some conn ∧
        conn.resolved = promises.zip replies ∧ conn.readBuffer.dataSize = 0) ↔
      cleanCuts defaultBufferSize replies 0 (chunks.map List.length) = true := by
  constructor
  · rintro ⟨conn, hreads, hresolved, -⟩
    by_contra hcuts
    rw [Bool.not_eq_true] at hcuts
    exact resolved_ne_of_not_cleanCuts (fresh promises) hwf hfits hstream hp
      (by rw [fresh_size]; exact hcuts) hreads hresolved
  · intro hclean
    exact handleReads_of_cleanCuts (fresh promises) hwf hfits hstream hp
      (by rw [fresh_size]; exact hclean) (fun r _ _ => r.enc_length_pos)

/-- The reply `[1, 2]`, which has 12 bytes. -/
def pairReply : RESPValue := .array [.integer 1, .integer 2]

theorem pairReply_wellFormed : AllWellFormed .unbounded [pairReply] := by
  simp [AllWellFormed, pairReply, RESPValue.WellFormed, Memory.unbounded, maxElements]

/-- Cut behind its first element's type, the pair arrives. -/
theorem handleReads_replies_iff_pair :
    (∃ conn, (fresh [()]).handleReads .unbounded
          [pairReply.enc.take 5, pairReply.enc.drop 5] = some conn ∧
        conn.resolved = [()].zip [pairReply] ∧ conn.readBuffer.dataSize = 0) ↔
      cleanCuts defaultBufferSize [pairReply] 0
        ([pairReply.enc.take 5, pairReply.enc.drop 5].map List.length) = true :=
  handleReads_replies_iff pairReply_wellFormed (by decide) (by decide)
    (fits_of_length_le _ (by decide) (by rw [fresh_free]; decide))

/-- Cut in front of its first element, the pair does not arrive. -/
theorem handleReads_pair_cut_before_element :
    AllWellFormed .unbounded [pairReply] ∧ pairReply.enc.length ≤ defaultBufferSize ∧
      [pairReply.enc.take 4, pairReply.enc.drop 4].flatten = encAll [pairReply] ∧
      (fresh [()]).Fits .unbounded [pairReply.enc.take 4, pairReply.enc.drop 4] ∧
      ¬ ∃ conn, (fresh [()]).handleReads .unbounded
          [pairReply.enc.take 4, pairReply.enc.drop 4] = some conn ∧
        conn.resolved = [()].zip [pairReply] ∧ conn.readBuffer.dataSize = 0 := by
  have hfits : (fresh [()]).Fits .unbounded [pairReply.enc.take 4, pairReply.enc.drop 4] :=
    fits_of_length_le _ (by decide) (by rw [fresh_free]; decide)
  refine ⟨pairReply_wellFormed, by decide, by decide, hfits, ?_⟩
  rintro ⟨conn, hreads, hresolved, -⟩
  exact resolved_ne_of_not_cleanCuts (fresh [()]) pairReply_wellFormed hfits (by decide)
    (Nat.le_refl 1) (by rw [fresh_size]; decide) hreads hresolved

end RedisConnection

end SimpleRedis.Redis
