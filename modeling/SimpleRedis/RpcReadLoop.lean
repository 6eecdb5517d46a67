import SimpleRedis.RpcParser
import SimpleRedis.StreamConsumer

/-!
# The read callback of an accepted client

`acceptClient` keeps one `RpcContext` for the life of a connection and calls
`parse` until the received bytes are used up. A message that is complete or in
error is moved out, the context starts afresh, and the loop goes on where `parse`
stopped. The last section shows that the callback cannot see how the stream was
cut: it is an incremental consumer.
-/
namespace SimpleRedis.Rpc

open StreamConsumer

section Progress

variable {ctx : RpcContext}

/-- What a pass leaves unread. -/
def Turn.rest : Turn → List CChar
  | .next _ rest => rest
  | .done _ rest => rest

private theorem readFixed_suffix (need : ℕ) (buffer xs : List CChar) :
    (readFixed need buffer xs).2 <:+ xs := by
  rw [readFixed_eq]
  exact List.drop_suffix _ _

private theorem fixedField_suffix {need : ℕ} {use : List CChar → List CChar → Turn}
    (huse : ∀ buffer rest, (use buffer rest).rest = rest) (xs : List CChar) :
    (fixedField need ctx xs use).rest <:+ xs := by
  unfold fixedField
  by_cases hf : (readFixed need ctx.buffer xs).1.length < need
  · simp only [hf, if_true]
    exact readFixed_suffix _ _ _
  · simp only [hf, if_false, huse]
    exact readFixed_suffix _ _ _

private theorem varField_suffix (len : ℕ) (out : List CChar) (store : List CChar → RpcContext)
    (follow : ParserStatus) (xs : List CChar) :
    (varField ctx len out store follow xs).rest <:+ xs := by
  unfold varField
  by_cases hlong : len < out.length
  · simp only [readVar_eq, hlong, if_true]
    exact List.suffix_rfl
  by_cases hf : (readFixed len out xs).1.length < len
  · simp only [readVar_eq, hlong, if_false, hf, if_true]
    exact readFixed_suffix _ _ _
  · simp only [readVar_eq, hlong, if_false, hf]
    exact readFixed_suffix _ _ _

/-- A pass drops bytes from the front of the window only. -/
theorem turn_rest_suffix (ctx : RpcContext) (c : CChar) (tail : List CChar) :
    (turn ctx c tail).rest <:+ c :: tail := by
  unfold turn
  cases ctx.status <;> simp only
  case soa =>
    split
    · exact List.nil_suffix
    · exact List.drop_suffix _ _
  case requestId => exact fixedField_suffix (fun buffer rest => by split <;> rfl) _
  case paramLen => exact fixedField_suffix (fun buffer rest => rfl) _
  case serviceName | funcName =>
    unfold nameField
    split
    · exact List.suffix_rfl
    · exact varField_suffix _ _ _ _ _
  case paramString =>
    split
    · exact List.suffix_rfl
    · exact varField_suffix _ _ _ _ _
  case serviceLen | funcLen => exact List.suffix_cons _ _
  all_goals
    split
    · first | exact List.suffix_rfl | exact List.suffix_cons _ _
    · exact List.suffix_cons _ _

theorem parseLoop_suffix (ctx : RpcContext) (window : List CChar) :
    (parseLoop ctx window).2 <:+ window := by
  refine parseLoop_induction (P := fun _ rest => rest <:+ window)
    (Q := fun _ rest => rest <:+ window) (fun _ h => h) ?_ ?_ ctx window List.suffix_rfl
  · intro ctx c tail ctx' rest hP ht
    have := turn_rest_suffix ctx c tail
    rw [ht] at this
    exact this.trans hP
  · intro ctx c tail ctx' rest hP ht
    have := turn_rest_suffix ctx c tail
    rw [ht] at this
    exact this.trans hP

theorem parseLoop_length_le (ctx : RpcContext) (window : List CChar) :
    (parseLoop ctx window).2.length ≤ window.length :=
  (parseLoop_suffix ctx window).length_le

/-- Whoever looks for the start of a message and finds it has used up a byte. -/
theorem parseLoop_soa_length_lt (hs : ctx.status = .soa) {window : List CChar}
    (h : (parseLoop ctx window).1.result ≠ .waiting) :
    (parseLoop ctx window).2.length < window.length := by
  cases window with
  | nil => exact absurd (by rw [parseLoop]) h
  | cons c tail =>
      cases hm : memchr (c :: tail) kMagic0 with
      | none =>
          have ht : turn ctx c tail = setWaiting ctx [] := by simp only [turn, hs, hm]
          rw [parseLoop_done ht] at h
          exact absurd rfl h
      | some p =>
          have ht : turn ctx c tail =
              .next { ctx with status := .sob } ((c :: tail).drop (p + 1)) := by
            simp only [turn, hs, hm]
          have hle := parseLoop_length_le { ctx with status := .sob } ((c :: tail).drop (p + 1))
          rw [parseLoop_next ht]
          rw [List.length_drop] at hle
          simp only [List.length_cons] at hle ⊢
          omega

end Progress

/-- A message handed to the thread pool, with the offset that `parse` had reached. -/
structure Dispatch where
  offset : ℕ
  context : RpcContext
  deriving DecidableEq, Repr

/-- What the `while` loop of the read callback leaves: its return value, the
context of the connection and the messages it has dispatched. -/
structure ReadOutcome where
  offset : ℕ
  context : RpcContext
  dispatched : List Dispatch
  deriving DecidableEq, Repr

/-- The rounds that are still possible: one for every unread byte, and one for
an error that leaves its byte unread. -/
def rounds (unread : ℕ) (ctx : RpcContext) : ℕ :=
  2 * unread + if ctx.status = .soa then 0 else 1

theorem rounds_decrease (ctx : RpcContext) {window : List CChar}
    (hstop : (parseLoop ctx window).1.result ≠ .waiting) :
    rounds (parseLoop ctx window).2.length {} < rounds window.length ctx := by
  have hle := parseLoop_length_le ctx window
  unfold rounds
  by_cases hs : ctx.status = .soa
  · have hlt := parseLoop_soa_length_lt hs hstop
    simp only [hs, if_true]
    omega
  · simp only [hs, if_false, if_true]
    omega

theorem parse_window (buffer : List CChar) {start stop : ℕ} (h : start < stop)
    (ctx : RpcContext) :
    parse buffer start stop ctx =
      (((buffer.take stop).drop start).length - (parseLoop { ctx with result := .waiting }
          ((buffer.take stop).drop start)).2.length,
        (parseLoop { ctx with result := .waiting } ((buffer.take stop).drop start)).1) := by
  simp only [parse, Nat.not_le.mpr h, if_false]

/-- What `parse` leaves unread is the window of the next round. -/
theorem parse_rest (buffer : List CChar) {start stop : ℕ} (h : start < stop)
    (ctx : RpcContext) :
    (buffer.take stop).drop (start + (parse buffer start stop ctx).1) =
      (parseLoop { ctx with result := .waiting } ((buffer.take stop).drop start)).2 := by
  have hsuffix := parseLoop_suffix { ctx with result := .waiting } ((buffer.take stop).drop start)
  rw [parse_window buffer h, ← List.drop_drop]
  exact (List.suffix_iff_eq_drop.mp hsuffix).symm

/-- The `while` loop of the read callback, from its head. -/
def readLoop (buffer : List CChar) (size offset : ℕ) (ctx : RpcContext) : ReadOutcome :=
  if _h : offset < size then
    let parsed := parse buffer offset size ctx
    if _hstop : parsed.2.result = .complete ∨ parsed.2.result = .error then
      let others := readLoop buffer size (offset + parsed.1) {}
      { others with dispatched := ⟨offset + parsed.1, parsed.2⟩ :: others.dispatched }
    else { offset := offset + parsed.1, context := parsed.2, dispatched := [] }
  else { offset := offset, context := ctx, dispatched := [] }
termination_by rounds ((buffer.take size).drop offset).length ctx
decreasing_by
  have hne : parsed.2.result ≠ .waiting := by rcases _hstop with h | h <;> rw [h] <;> decide
  rw [parse_rest buffer _h]
  exact rounds_decrease { ctx with result := .waiting }
    (by simpa only [parsed, parse_window buffer _h] using hne)

/-- What one call of the read callback does. -/
structure Callback where
  returned : ℕ
  context : RpcContext
  dispatched : List Dispatch
  closes : Bool
  deriving DecidableEq, Repr

/-- The lambda that `acceptClient` passes to `asyncRead`. -/
def readCallback (buffer : List CChar) (size : ℕ) (ctx : RpcContext) : Callback :=
  if size = 0 then { returned := size, context := ctx, dispatched := [], closes := true }
  else
    let out := readLoop buffer size 0 ctx
    { returned := out.offset, context := out.context, dispatched := out.dispatched,
      closes := false }

section Window

/-- The loop on its unread bytes alone; `pos` is what was read before them. -/
def readWindow (pos : ℕ) (ctx : RpcContext) (window : List CChar) : RpcContext × List Dispatch :=
  if window = [] then (ctx, [])
  else
    let out := parseLoop { ctx with result := .waiting } window
    if _hstop : out.1.result = .waiting then (out.1, [])
    else
      let pos := pos + (window.length - out.2.length)
      let others := readWindow pos {} out.2
      (others.1, ⟨pos, out.1⟩ :: others.2)
termination_by rounds window.length ctx
decreasing_by exact rounds_decrease { ctx with result := .waiting } _hstop

@[simp] theorem readWindow_nil (pos : ℕ) (ctx : RpcContext) :
    readWindow pos ctx [] = (ctx, []) := by
  rw [readWindow, if_pos rfl]

theorem readWindow_waiting {ctx : RpcContext} {window : List CChar} (pos : ℕ) (hne : window ≠ [])
    (h : (parseLoop { ctx with result := .waiting } window).1.result = .waiting) :
    readWindow pos ctx window = ((parseLoop { ctx with result := .waiting } window).1, []) := by
  rw [readWindow, if_neg hne]
  simp only [h, dif_pos]

/-- A window that only makes the parser wait dispatches nothing. -/
theorem readWindow_of_waiting {ctx : RpcContext} {window : List CChar} (pos : ℕ)
    (h : (parseLoop { ctx with result := .waiting } window).1.result = .waiting) :
    (readWindow pos ctx window).2 = [] := by
  by_cases hne : window = []
  · rw [hne, readWindow_nil]
  · rw [readWindow_waiting pos hne h]

theorem readWindow_stop {ctx : RpcContext} {window : List CChar} (pos : ℕ)
    (h : (parseLoop { ctx with result := .waiting } window).1.result ≠ .waiting) :
    readWindow pos ctx window =
      let out := parseLoop { ctx with result := .waiting } window
      let pos := pos + (window.length - out.2.length)
      ((readWindow pos {} out.2).1, ⟨pos, out.1⟩ :: (readWindow pos {} out.2).2) := by
  have hne : window ≠ [] := by
    rintro rfl
    exact h (by rw [parseLoop])
  rw [readWindow, if_neg hne]
  simp only [h, dif_neg, not_false_eq_true]

/-- Every message that is dispatched comes out of a call of `parse`. -/
theorem mem_readWindow {pos : ℕ} {ctx : RpcContext} {window : List CChar} {d : Dispatch}
    (hd : d ∈ (readWindow pos ctx window).2) :
    ∃ before unread, d.context = (parseLoop before unread).1 := by
  induction pos, ctx, window using readWindow.induct with
  | case1 pos ctx =>
      rw [readWindow_nil] at hd
      cases hd
  | case2 pos ctx window hne out hwait =>
      rw [readWindow_waiting pos hne hwait] at hd
      cases hd
  | case3 pos ctx window hne out hstop pos' ih =>
      rw [readWindow_stop pos hstop] at hd
      rcases List.mem_cons.mp hd with rfl | hd
      · exact ⟨_, window, rfl⟩
      · exact ih hd

/-- The loop with its offsets is the loop on the unread bytes, and it returns
only when it has used them up. -/
theorem readLoop_eq_window (buffer : List CChar) (size offset : ℕ) (ctx : RpcContext)
    (hoff : offset ≤ size) (hsize : size ≤ buffer.length) :
    readLoop buffer size offset ctx =
      let out := readWindow offset ctx ((buffer.take size).drop offset)
      { offset := size, context := out.1, dispatched := out.2 } := by
  have hlen : ∀ n, ((buffer.take size).drop n).length = size - n := fun n => by
    rw [List.length_drop, List.length_take, Nat.min_eq_left hsize]
  induction offset, ctx using readLoop.induct buffer size with
  | case1 offset ctx hlt parsed hstop ih =>
      have hne : parsed.2.result ≠ .waiting := by rcases hstop with h | h <;> rw [h] <;> decide
      have hle : offset + parsed.1 ≤ size := by
        simp only [parsed, parse_window buffer hlt, hlen]
        omega
      rw [readLoop, dif_pos hlt]
      simp only [parsed] at hstop ih hne hle
      simp only [hstop, dif_pos, ih hle, parse_rest buffer hlt]
      simp only [parse_window buffer hlt] at hne ⊢
      rw [readWindow_stop offset hne]
  | case2 offset ctx hlt parsed hstop =>
      have hwait : parsed.2.result = .waiting := by
        cases hr : parsed.2.result <;> simp_all
      rw [readLoop, dif_pos hlt]
      simp only [parsed] at hstop hwait
      simp only [hstop, dif_neg, not_false_eq_true]
      simp only [parse_window buffer hlt] at hwait ⊢
      have hne : (buffer.take size).drop offset ≠ [] := by
        rw [← List.length_pos_iff, hlen]
        omega
      have hrest := (parseLoop_append { ctx with result := .waiting } rfl
        ((buffer.take size).drop offset) []).1 hwait |>.1
      rw [readWindow_waiting offset hne hwait, hrest, hlen]
      simp only [List.length_nil]
      congr 1
      omega
  | case3 offset ctx hge =>
      have hempty : (buffer.take size).drop offset = [] := by
        apply List.drop_of_length_le
        rw [List.length_take]
        omega
      rw [readLoop, dif_neg hge]
      simp only [hempty, readWindow_nil]
      congr 1
      omega

private theorem with_waiting {ctx : RpcContext} (h : ctx.result = .waiting) :
    { ctx with result := .waiting } = ctx := by
  cases ctx
  cases h
  rfl

/-- Reading two pieces one after the other is reading both at once. -/
theorem readWindow_append (pos : ℕ) (ctx : RpcContext) (xs ys : List CChar) :
    readWindow pos ctx (xs ++ ys) =
      ((readWindow (pos + xs.length) (readWindow pos ctx xs).1 ys).1,
        (readWindow pos ctx xs).2 ++
          (readWindow (pos + xs.length) (readWindow pos ctx xs).1 ys).2) := by
  induction pos, ctx, xs using readWindow.induct with
  | case1 pos ctx => simp
  | case2 pos ctx xs hne out hwait =>
      have happ : parseLoop { ctx with result := .waiting } (xs ++ ys) = parseLoop out.1 ys :=
        ((parseLoop_append { ctx with result := .waiting } rfl xs ys).1 hwait).2
      rw [readWindow_waiting pos hne hwait]
      cases ys with
      | nil => simp [readWindow_waiting pos hne hwait]
      | cons d ys =>
          have hctx := with_waiting hwait
          have hle := parseLoop_length_le out.1 (d :: ys)
          by_cases hy : (parseLoop out.1 (d :: ys)).1.result = .waiting
          · rw [readWindow_waiting pos (by simp) (by rw [happ]; exact hy), happ,
              readWindow_waiting _ (by simp) (by rw [hctx]; exact hy), hctx]
            rfl
          · rw [readWindow_stop pos (by rw [happ]; exact hy), happ,
              readWindow_stop _ (by rw [hctx]; exact hy), hctx]
            have hpos : pos + ((xs ++ d :: ys).length - (parseLoop out.1 (d :: ys)).2.length) =
                pos + xs.length + ((d :: ys).length - (parseLoop out.1 (d :: ys)).2.length) := by
              rw [List.length_append]
              omega
            simp only [hpos, List.nil_append]
  | case3 pos ctx xs hne out hstop pos' ih =>
      have happ := (parseLoop_append { ctx with result := .waiting } rfl xs ys).2 hstop
      have hle := parseLoop_length_le { ctx with result := .waiting } xs
      have hpos : pos + ((xs ++ ys).length - (out.2 ++ ys).length) = pos' := by
        simp only [pos', out, List.length_append]
        omega
      have hnext : pos' + out.2.length = pos + xs.length := by
        simp only [pos', out]
        omega
      rw [readWindow_stop pos (by rw [happ]; exact hstop), happ, readWindow_stop pos hstop]
      simp only [out] at hpos
      simp only [hpos]
      rw [ih, hnext]
      simp only [List.cons_append]
      rfl

/-- Where the count starts only moves the offsets of the messages. -/
theorem readWindow_add (n pos : ℕ) (ctx : RpcContext) (window : List CChar) :
    readWindow (n + pos) ctx window =
      ((readWindow pos ctx window).1,
        (readWindow pos ctx window).2.map fun d => { d with offset := n + d.offset }) := by
  induction pos, ctx, window using readWindow.induct with
  | case1 pos ctx => simp
  | case2 pos ctx window hne out hwait =>
      rw [readWindow_waiting _ hne hwait, readWindow_waiting _ hne hwait]
      rfl
  | case3 pos ctx window hne out hstop pos' ih =>
      rw [readWindow_stop _ hstop, readWindow_stop _ hstop]
      simp only [Nat.add_assoc, List.map_cons]
      rw [ih]

theorem readCallback_eq_window {buffer : List CChar} {size : ℕ} (hpos : 0 < size)
    (hsize : size ≤ buffer.length) (ctx : RpcContext) :
    readCallback buffer size ctx =
      let out := readWindow 0 ctx (buffer.take size)
      { returned := size, context := out.1, dispatched := out.2, closes := false } := by
  rw [readCallback, if_neg (Nat.pos_iff_ne_zero.mp hpos),
    readLoop_eq_window buffer size 0 ctx (Nat.zero_le _) hsize]
  rfl

end Window

/-- The arguments of a read callback while the peer has not closed: the buffer
of the connection and the number of valid bytes at its front. -/
structure Chunk where
  buffer : List CChar
  size : ℕ
  size_pos : 0 < size
  size_le : size ≤ buffer.length

def Chunk.bytes (chunk : Chunk) : List CChar := chunk.buffer.take chunk.size

@[simp] theorem Chunk.length_bytes (chunk : Chunk) : chunk.bytes.length = chunk.size := by
  rw [bytes, List.length_take, Nat.min_eq_left chunk.size_le]

/-- A buffer that holds nothing behind the valid bytes. -/
def Chunk.exact (bytes : List CChar) (h : bytes ≠ []) : Chunk where
  buffer := bytes
  size := bytes.length
  size_pos := List.length_pos_iff.mpr h
  size_le := Nat.le_refl _

@[simp] theorem Chunk.bytes_exact (bytes : List CChar) (h : bytes ≠ []) :
    (Chunk.exact bytes h).bytes = bytes := List.take_length

/-- The stream of bytes that a list of chunks cuts. -/
def stream (chunks : List Chunk) : List CChar := (chunks.map Chunk.bytes).flatten

/-- The reading side of an accepted client; `received` counts the bytes of all
the calls so far. -/
structure Client where
  context : RpcContext := {}
  received : ℕ := 0
  deriving DecidableEq, Repr

/-- One call of the read callback; the messages carry their offset in the stream. -/
def Client.read (client : Client) (chunk : Chunk) : Client × List Dispatch :=
  let out := readCallback chunk.buffer chunk.size client.context
  ({ context := out.context, received := client.received + out.returned },
    out.dispatched.map fun d => { d with offset := client.received + d.offset })

def Client.readAll (client : Client) : List Chunk → Client × List Dispatch
  | [] => (client, [])
  | chunk :: chunks =>
      let first := client.read chunk
      let others := first.1.readAll chunks
      (others.1, first.2 ++ others.2)

/-- The reading side as a consumer of the byte stream. -/
def clientConsumer : Consumer Client CChar Dispatch where
  feed client bytes :=
    let out := readWindow client.received client.context bytes
    ({ context := out.1, received := client.received + bytes.length }, out.2)
  feed_nil client := by simp
  feed_append client xs ys := by
    simp only [readWindow_append, List.length_append, Nat.add_assoc]

theorem Client.read_eq_feed (client : Client) (chunk : Chunk) :
    client.read chunk = clientConsumer.feed client chunk.bytes := by
  have hshift := readWindow_add client.received 0 client.context chunk.bytes
  rw [Nat.add_zero] at hshift
  simp only [Client.read, readCallback_eq_window chunk.size_pos chunk.size_le, clientConsumer,
    hshift, Chunk.length_bytes]
  rfl

theorem Client.readAll_eq_feedAll (client : Client) (chunks : List Chunk) :
    client.readAll chunks = clientConsumer.feedAll client (chunks.map Chunk.bytes) := by
  induction chunks generalizing client with
  | nil => rfl
  | cons chunk chunks ih =>
      simp only [readAll, List.map_cons, Consumer.feedAll, ih, read_eq_feed]

theorem Client.readAll_eq_feed (client : Client) (chunks : List Chunk) :
    client.readAll chunks = clientConsumer.feed client (stream chunks) := by
  rw [readAll_eq_feedAll, Consumer.feedAll_eq_feed_flatten, stream]

/-- However the stream is cut, the same messages are dispatched at the same
places and the same context is left. -/
theorem readAll_eq_of_stream_eq (client : Client) (bytes : List CChar) (chunks others : List Chunk)
    (hchunks : stream chunks = bytes) (hothers : stream others = bytes) :
    client.readAll chunks = client.readAll others := by
  rw [Client.readAll_eq_feed, Client.readAll_eq_feed, hchunks, hothers]

/-- One request, whole and cut inside its id, a name and its end marker. -/
theorem readAll_eq_of_stream_eq_request :
    ({} : Client).readAll
        [.exact (toChars [10, 11, 1, 0, 0, 0, 0, 0, 0, 0, 7, 0, 1, 115, 1, 102, 0, 0, 0, 0, 11, 12])
          (by decide)] =
      ({} : Client).readAll
        [.exact (toChars [10, 11, 1, 0, 0, 0, 0, 0]) (by decide),
          .exact (toChars [0, 0, 7, 0, 1]) (by decide),
          .exact (toChars [115, 1, 102, 0, 0, 0, 0, 11]) (by decide),
          .exact (toChars [12]) (by decide)] :=
  readAll_eq_of_stream_eq {} _ _ _ rfl (by decide)

end SimpleRedis.Rpc
