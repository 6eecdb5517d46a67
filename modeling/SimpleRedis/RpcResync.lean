import SimpleRedis.RpcDispatch
import SimpleRedis.RpcGrammar

/-!
# Frames behind an error

A byte that does not belong in a frame ends it with `ERROR`, and the context starts
afresh with the byte after it or, where the check looks at the byte before it takes it,
with the byte itself. Only the second kind of check finds a frame that begins with the
offending byte: `resumes_iff` says for every state of the parser which kind it is. The
last section is about the answer that a rejected frame gets.
-/
namespace SimpleRedis.Rpc

open BigEndian RpcContext

section Contexts

variable {ctx : RpcContext}

/-- A call of `parse` that waits keeps what it has read in its place. -/
theorem parseLoop_wellFormed (h : ctx.WellFormed) (window : List CChar)
    (hwait : (parseLoop ctx window).1.result = .waiting) :
    (parseLoop ctx window).1.WellFormed := by
  have hended := parseLoop_induction (P := Covers (ctx.image ++ window))
    (Q := Ended (ctx.image ++ window)) (fun _ h => h)
    (fun _ _ _ _ _ h ht => turn_next_covers h ht) (fun _ _ _ _ _ h ht => turn_done_ended h ht)
    ctx window ⟨h, [], by simp, rfl⟩
  simp only [Ended, hwait] at hended
  exact hended.1

/-- What the reading side keeps between two calls is well formed. -/
theorem readWindow_wellFormed (pos : ℕ) (h : ctx.WellFormed) (window : List CChar) :
    (readWindow pos ctx window).1.WellFormed := by
  induction pos, ctx, window using readWindow.induct with
  | case1 pos ctx => rw [readWindow_nil]; exact h
  | case2 pos ctx window hne out hwait =>
      rw [readWindow_waiting pos hne hwait]
      have hwf : ({ ctx with result := .waiting } : RpcContext).WellFormed := h
      exact parseLoop_wellFormed hwf window hwait
  | case3 pos ctx window hne out hstop pos' ih =>
      rw [readWindow_stop pos hstop]
      exact ih trivial

theorem readAll_wellFormed (chunks : List Chunk) :
    (({} : Client).readAll chunks).1.context.WellFormed := by
  have hinitial : ({} : RpcContext).WellFormed := trivial
  rw [Client.readAll_eq_feed]
  exact readWindow_wellFormed 0 hinitial _

end Contexts

/-- The parser answers a start byte, given to it alone, with `ERROR`. -/
def RejectsStart (ctx : RpcContext) : Prop :=
  (parse [kMagic0.toInt8] 0 1 ctx).2.result = .error

/-- The message dispatched last is the request, complete and with its own fields. -/
def Delivers (dispatched : List Dispatch) (r : Request) : Prop :=
  ∃ ctx, (dispatched.map (·.context)).getLast? = some ctx ∧ ctx.result = .complete ∧
    ctx.requestId = r.requestId ∧ ctx.serviceName = toChars r.serviceName ∧
    ctx.funcName = toChars r.funcName ∧ ctx.params = toChars r.params

section StartByte

variable {ctx : RpcContext}

/-- The start byte by itself. -/
abbrev startByte : List CChar := [kMagic0.toInt8]

theorem rejectsStart_iff :
    RejectsStart ctx ↔ (parseLoop { ctx with result := .waiting } startByte).1.result = .error :=
  Iff.rfl

/-- An id that ends in a start byte is not zero. -/
theorem readU64Be_ne_zero {buffer : List CChar} (h : (buffer ++ startByte).length = 8) :
    readU64Be (buffer ++ startByte) ≠ 0 := by
  intro hzero
  have hvalue := readU64Be_toNat h
  rw [hzero, List.map_append, List.map_singleton, value_concat, u8_toInt8] at hvalue
  have hmagic : kMagic0.toNat = 10 := rfl
  rw [hmagic, UInt64.toNat_zero] at hvalue
  omega

/-- The states whose check has already taken the byte that it rejects. -/
def TakesFirst (ctx : RpcContext) : Prop := ctx.status = .type ∨ ctx.status = .errorCode

/-- A pass over the start byte either takes it or gives it back to a state that
will not take it to reject it. -/
def Turn.KeepsStart : Turn → Prop
  | .next ctx rest => rest = [] ∨ rest = startByte ∧ ¬ TakesFirst ctx
  | .done ctx rest => ctx.result = .error → rest = startByte

/-- Two lists that end in the same byte, where the second has only that byte left. -/
theorem rest_of_append {buffer buffer' rest : List CChar}
    (hkeep : buffer ++ startByte = buffer' ++ rest) (hle : buffer.length ≤ buffer'.length) :
    rest = [] ∨ rest = startByte := by
  have hlen := congrArg List.length hkeep
  simp only [List.length_append, List.length_singleton] at hlen
  obtain ⟨used, hused⟩ := List.prefix_of_prefix_length_le (List.prefix_append buffer startByte)
    (hkeep ▸ List.prefix_append buffer' rest) hle
  rw [← hused, List.append_assoc, List.append_cancel_left_eq] at hkeep
  cases used with
  | nil => exact Or.inr hkeep.symm
  | cons x used =>
      refine Or.inl (List.eq_nil_of_length_eq_zero ?_)
      rw [← hused] at hlen
      simp only [List.length_append, List.length_cons] at hlen
      omega

/-- A fixed field that the start byte completes has taken it. -/
theorem fixedField_keepsStart {need : ℕ} {use : List CChar → List CChar → Turn}
    (hshort : ctx.buffer.length < need)
    (huse : (ctx.buffer ++ startByte).length = need →
      (use (ctx.buffer ++ startByte) []).KeepsStart) :
    (fixedField need ctx startByte use).KeepsStart := by
  rcases fixedField_cases ctx startByte need use with
    ⟨-, heq⟩ | ⟨buffer, rest, hkeep, -, hlen, heq⟩
  · rw [heq]
    intro herror
    cases herror
  · have hfull := hlen (Nat.le_of_lt hshort)
    have hcount := congrArg List.length hkeep
    simp only [List.length_append, List.length_singleton] at hcount
    have hrest : rest = [] := List.eq_nil_of_length_eq_zero (by omega)
    rw [hrest, List.append_nil] at hkeep
    rw [heq, hrest, ← hkeep]
    exact huse (hkeep ▸ hfull)

theorem varField_keepsStart {len : ℕ} {out : List CChar} {store : List CChar → RpcContext}
    {follow : ParserStatus} (hle : out.length ≤ len) (hfollow : follow ≠ .type)
    (hfollow' : follow ≠ .errorCode) :
    (varField ctx len out store follow startByte).KeepsStart := by
  rcases varField_cases ctx startByte len out store follow with
    ⟨hlong, -⟩ | ⟨-, heq⟩ | ⟨out', rest, hkeep, hlen, heq⟩
  · omega
  · rw [heq]
    intro herror
    cases herror
  · rw [heq]
    refine (rest_of_append hkeep (hlen ▸ hle)).imp_right fun hrest => ⟨hrest, ?_⟩
    exact not_or.mpr ⟨hfollow, hfollow'⟩

theorem turn_keepsStart (hwf : ctx.WellFormed) (htakes : ¬ TakesFirst ctx) :
    (turn ctx kMagic0.toInt8 []).KeepsStart := by
  obtain ⟨status, result, id, service, func, params, buffer⟩ := ctx
  cases status <;> simp only [turn]
  case soa => exact Or.inl rfl
  case type => exact absurd (Or.inl rfl) htakes
  case errorCode => exact absurd (Or.inr rfl) htakes
  case sob | eob | eoc => exact fun _ => rfl
  case serviceLen | funcLen => exact Or.inl rfl
  case requestId =>
    refine fixedField_keepsStart hwf fun hlen => ?_
    rw [if_neg (readU64Be_ne_zero hlen)]
    exact Or.inl rfl
  case serviceName =>
    obtain ⟨-, l, hbuffer, hle⟩ := hwf
    change buffer = [l] at hbuffer
    subst hbuffer
    exact varField_keepsStart hle (by decide) (by decide)
  case funcName =>
    obtain ⟨-, -, l, hbuffer, hle⟩ := hwf
    change buffer = [l] at hbuffer
    subst hbuffer
    exact varField_keepsStart hle (by decide) (by decide)
  case paramLen =>
    obtain ⟨-, -, -, hshort⟩ := hwf
    exact fixedField_keepsStart hshort fun _ => Or.inl rfl
  case paramString =>
    obtain ⟨-, -, -, hlen, hle⟩ := hwf
    change buffer.length = 4 at hlen
    simp only [hlen, Nat.lt_irrefl, if_false]
    exact varField_keepsStart hle (by decide) (by decide)

/-- A state whose check does not take the byte leaves it for the next message. -/
theorem parseLoop_intact (hwf : ctx.WellFormed) (htakes : ¬ TakesFirst ctx)
    (hrejects : RejectsStart ctx) :
    (parseLoop { ctx with result := .waiting } startByte).2 = startByte := by
  refine parseLoop_induction
    (P := fun ctx rest => rest = [] ∨ rest = startByte ∧ ctx.WellFormed ∧ ¬ TakesFirst ctx)
    (Q := fun ctx rest => ctx.result = .error → rest = startByte) ?_ ?_ ?_ _ startByte
    (Or.inr ⟨rfl, hwf, htakes⟩) (rejectsStart_iff.mp hrejects)
  · intro ctx _ herror
    cases herror
  · rintro ctx c tail ctx' rest (hnil | ⟨hstart, hwf, htakes⟩) ht
    · cases hnil
    · cases hstart
      have hkeep := turn_keepsStart hwf htakes
      have hcovers := turn_next_covers ⟨hwf, [], by simp, rfl⟩ ht
      rw [ht] at hkeep
      exact hkeep.imp_right fun h => ⟨h.1, hcovers.1, h.2⟩
  · rintro ctx c tail ctx' rest (hnil | ⟨hstart, hwf, htakes⟩) ht
    · cases hnil
    · cases hstart
      have hkeep := turn_keepsStart hwf htakes
      rw [ht] at hkeep
      exact hkeep

/-- A state whose check takes the byte rejects it and has dropped it. -/
theorem parseLoop_taken (htakes : TakesFirst ctx) :
    RejectsStart ctx ∧ (parseLoop { ctx with result := .waiting } startByte).2 = [] := by
  have ht : turn { ctx with result := .waiting } kMagic0.toInt8 [] =
      setError { ctx with result := .waiting } [] := by
    rcases htakes with hs | hs <;> simp only [turn, hs] <;> rfl
  rw [rejectsStart_iff, parseLoop_done ht]
  exact ⟨rfl, rfl⟩

end StartByte

section NextFrame

variable {ctx : RpcContext} (r : Request)

/-- Whoever looks for the start of a message reads the frame, whatever is left in the
other members of the context. -/
theorem parseLoop_frame (hs : ctx.status = .soa) (hw : ctx.result = .waiting)
    (rest : List CChar) :
    parseLoop ctx (toChars r.buildPacket ++ rest) = (r.completed, rest) := by
  obtain ⟨status, result, id, service, func, params, buffer⟩ := ctx
  cases hs
  cases hw
  have hfresh := parseLoop_buildPacket r rest
  rw [toChars_buildPacket, parseLoop_soa_magic rfl, parseLoop_sob_magic rfl] at hfresh ⊢
  exact hfresh

theorem readWindow_frame (hs : ctx.status = .soa) (pos : ℕ) :
    (readWindow pos ctx (toChars r.buildPacket)).2.map (·.context) = [r.completed] := by
  have hsoa : ({ ctx with result := .waiting } : RpcContext).status = .soa := hs
  have hparse := parseLoop_frame r hsoa rfl []
  rw [List.append_nil] at hparse
  have hstop : (parseLoop { ctx with result := .waiting } (toChars r.buildPacket)).1.result ≠
      .waiting := by
    rw [hparse]
    simp [Request.completed]
  rw [readWindow_stop pos hstop]
  simp only [hparse, readWindow_nil, List.map_cons, List.map_nil]

/-- A start byte that is rejected ends one message; the next begins with what the
check has left of it. -/
theorem readWindow_rejected (hrejects : RejectsStart ctx) (tail : List CChar) (pos : ℕ) :
    ∃ pos', (readWindow pos ctx (startByte ++ tail)).2.map (·.context) =
      (parseLoop { ctx with result := .waiting } startByte).1 ::
        (readWindow pos' {}
          ((parseLoop { ctx with result := .waiting } startByte).2 ++ tail)).2.map
            (·.context) := by
  rw [rejectsStart_iff] at hrejects
  have hne : (parseLoop { ctx with result := .waiting } startByte).1.result ≠ .waiting := by
    rw [hrejects]
    decide
  have happ := (parseLoop_append { ctx with result := .waiting } rfl startByte tail).2 hne
  rw [readWindow_stop pos (by rw [happ]; exact hne), happ]
  exact ⟨_, rfl⟩

theorem length_buildPacket : r.buildPacket.length =
    20 + r.serviceName.length + r.funcName.length + r.params.length := by
  simp only [Request.buildPacket, List.length_append, List.length_cons, List.length_nil,
    length_digits]
  omega

/-- The frame is its start byte and a rest that is shorter than any frame of its fields. -/
theorem toChars_buildPacket_start :
    ∃ tail, toChars r.buildPacket = startByte ++ tail ∧ tail.length < r.buildPacket.length :=
  ⟨toChars r.buildPacket.tail, by simp [Request.buildPacket], by simp [Request.buildPacket]⟩

theorem Sliced.length_le_of_complete {bytes : List CChar} {pos : ℕ} {ds : List Dispatch}
    (h : Sliced bytes pos ds) {d : Dispatch} (hd : d ∈ ds)
    (hcomplete : d.context.result = .complete) :
    ∃ r : Request, d.context = r.completed ∧ r.buildPacket.length ≤ bytes.length := by
  induction ds generalizing pos with
  | nil => cases hd
  | cons first ds ih =>
      obtain ⟨hlt, hle, hslice, hrest⟩ := h
      rcases List.mem_cons.mp hd with rfl | hd
      · obtain ⟨noise, r, -, hbytes, hctx⟩ := hslice.accepted hcomplete
        refine ⟨r, hctx, ?_⟩
        have hlen := congrArg List.length hbytes
        rw [List.length_append, length_toChars, List.length_drop, List.length_take] at hlen
        omega
      · exact ih hrest hd

/-- Bytes that are fewer than those of a frame do not make up its request. -/
theorem ne_fields_of_short {bytes : List CChar} (hshort : bytes.length < r.buildPacket.length)
    {pos : ℕ} {ctx : RpcContext}
    (hctx : ctx ∈ (readWindow pos {} bytes).2.map (·.context))
    (hcomplete : ctx.result = .complete) :
    ¬ (ctx.serviceName = toChars r.serviceName ∧ ctx.funcName = toChars r.funcName ∧
      ctx.params = toChars r.params) := by
  rintro ⟨hservice, hfunc, hparams⟩
  have hshift := readWindow_add pos 0 {} bytes
  rw [Nat.add_zero] at hshift
  rw [hshift, List.map_map] at hctx
  obtain ⟨d, hd, rfl⟩ := List.mem_map.mp hctx
  have hsliced := readWindow_sliced bytes 0 (Nat.zero_le _)
  rw [List.drop_zero] at hsliced
  obtain ⟨other, hother, hle⟩ := hsliced.length_le_of_complete hd hcomplete
  simp only [Function.comp_apply, hother, Request.completed] at hservice hfunc hparams
  have hs := congrArg List.length hservice
  have hf := congrArg List.length hfunc
  have hp := congrArg List.length hparams
  rw [length_toChars, length_toChars] at hs hf hp
  rw [length_buildPacket] at hle hshort
  omega

end NextFrame

section Resume

variable {before chunks : List Chunk} {r : Request}

/-- The messages of the frame come behind those of the bytes before it. -/
theorem readAll_append_frame (hstream : stream chunks = stream before ++ toChars r.buildPacket) :
    (({} : Client).readAll chunks).2 = (({} : Client).readAll before).2 ++
      (readWindow (({} : Client).readAll before).1.received
        (({} : Client).readAll before).1.context (toChars r.buildPacket)).2 := by
  rw [Client.readAll_eq_feed, Client.readAll_eq_feed, hstream, clientConsumer.feed_append]
  rfl

theorem delivers_of_last {ds : List Dispatch} {others : List RpcContext}
    (h : ds.map (·.context) = others ++ [r.completed]) : Delivers ds r :=
  ⟨r.completed, by rw [h, List.getLast?_concat], rfl, rfl, rfl, rfl, rfl⟩

/-- A parser that hunts for a start byte, or gives the start byte back, finds the frame. -/
theorem delivers_of_not_takes
    (hboundary : (({} : Client).readAll before).1.context.status = .soa ∨
      RejectsStart (({} : Client).readAll before).1.context)
    (hstream : stream chunks = stream before ++ toChars r.buildPacket)
    (htakes : ¬ TakesFirst (({} : Client).readAll before).1.context) :
    Delivers (({} : Client).readAll chunks).2 r := by
  have hwf := readAll_wellFormed before
  have hall := congrArg (List.map (·.context)) (readAll_append_frame hstream)
  rw [List.map_append] at hall
  rcases hboundary with hs | hrejects
  · rw [readWindow_frame r hs] at hall
    exact delivers_of_last hall
  · obtain ⟨tail, hframe, -⟩ := toChars_buildPacket_start r
    obtain ⟨pos, hwin⟩ := readWindow_rejected hrejects tail
      (({} : Client).readAll before).1.received
    rw [hframe, hwin, parseLoop_intact hwf htakes hrejects, ← hframe,
      readWindow_frame r rfl, List.append_cons] at hall
    exact delivers_of_last hall

/-- A parser that takes the start byte to reject it has lost the frame. -/
theorem not_delivers_of_takes
    (hstream : stream chunks = stream before ++ toChars r.buildPacket)
    (htakes : TakesFirst (({} : Client).readAll before).1.context) :
    ¬ Delivers (({} : Client).readAll chunks).2 r := by
  rintro ⟨ctx, hlast, hcomplete, -, hfields⟩
  obtain ⟨tail, hframe, hshort⟩ := toChars_buildPacket_start r
  obtain ⟨hrejects, hrest⟩ := parseLoop_taken htakes
  obtain ⟨pos, hwin⟩ := readWindow_rejected hrejects tail
    (({} : Client).readAll before).1.received
  rw [hrest, List.nil_append] at hwin
  rw [readAll_append_frame hstream, List.map_append, hframe, hwin,
    List.getLast?_append_of_ne_nil _ (List.cons_ne_nil _ _), List.getLast?_cons,
    Option.some.injEq] at hlast
  cases hrestLast : ((readWindow pos {} tail).2.map (·.context)).getLast? with
  | none =>
      rw [hrestLast, Option.getD_none] at hlast
      rw [← hlast, rejectsStart_iff.mp hrejects] at hcomplete
      cases hcomplete
  | some last =>
      rw [hrestLast, Option.getD_some] at hlast
      subst hlast
      exact ne_fields_of_short r hshort (List.mem_of_getLast? hrestLast) hcomplete hfields

/-- The frame behind any bytes is found unless they end in front of a type byte or of an
error code: these two checks take the byte that they reject. -/
theorem resumes_iff
    (hboundary : (({} : Client).readAll before).1.context.status = .soa ∨
      RejectsStart (({} : Client).readAll before).1.context)
    (hstream : stream chunks = stream before ++ toChars r.buildPacket) :
    Delivers (({} : Client).readAll chunks).2 r ↔
      (({} : Client).readAll before).1.context.status ≠ .type ∧
        (({} : Client).readAll before).1.context.status ≠ .errorCode := by
  rw [← not_or]
  exact ⟨fun h htakes => not_delivers_of_takes hstream htakes h,
    delivers_of_not_takes hboundary hstream⟩

/-- What one chunk leaves that only makes the parser wait. -/
theorem readAll_waiting {bytes : List CChar} (hne : bytes ≠ []) {ctx : RpcContext}
    (hparse : parseLoop {} bytes = (ctx, [])) (hwait : ctx.result = .waiting) :
    (({} : Client).readAll [.exact bytes hne]).1.context = ctx := by
  have hbytes : stream [.exact bytes hne] = bytes := by simp [stream]
  have hwaiting : (parseLoop { ({} : RpcContext) with result := .waiting } bytes).1.result =
      .waiting := by
    rw [hparse]
    exact hwait
  rw [Client.readAll_eq_feed, hbytes]
  simp only [clientConsumer, readWindow_waiting 0 hne hwaiting, hparse]

/-- A frame cut behind its first byte. -/
def cutChunk : Chunk := .exact (toChars [kMagic0]) (by decide)

theorem readAll_cutChunk : (({} : Client).readAll [cutChunk]).1.context = { status := .sob } :=
  readAll_waiting _ (by rw [toChars_cons, parseLoop_soa_magic rfl, toChars_nil, parseLoop_nil rfl])
    rfl

/-- A frame cut behind its start marker. -/
def cutMarkerChunk : Chunk := .exact (toChars [kMagic0, kMagic1]) (by decide)

theorem readAll_cutMarkerChunk :
    (({} : Client).readAll [cutMarkerChunk]).1.context = { status := .type } :=
  readAll_waiting _ (by
    rw [toChars_cons, parseLoop_soa_magic rfl, toChars_cons, parseLoop_sob_magic rfl, toChars_nil,
      parseLoop_nil rfl]
    rfl) rfl

/-- The frame behind one that was cut. -/
def markerFrame : Chunk := .exact (toChars markerRequest.buildPacket) (by decide)

theorem stream_markerFrame (chunk : Chunk) :
    stream [chunk, markerFrame] = stream [chunk] ++ toChars markerRequest.buildPacket := by
  simp [stream, markerFrame]

theorem resumes_iff_cut :
    Delivers (({} : Client).readAll [cutChunk, markerFrame]).2 markerRequest := by
  have hcontext := readAll_cutChunk
  have hrejects : RejectsStart { status := .sob } := by
    have ht : turn { status := .sob } kMagic0.toInt8 [] =
        setError { status := .sob } [kMagic0.toInt8] := rfl
    rw [rejectsStart_iff, parseLoop_done ht]
    rfl
  exact (resumes_iff (Or.inr (hcontext ▸ hrejects)) (stream_markerFrame cutChunk)).mpr
    (by rw [hcontext]; decide)

/-- A frame behind the start marker of another one is lost. -/
theorem not_resumes_cutMarker :
    ¬ ∀ (before chunks : List Chunk) (r : Request),
      (({} : Client).readAll before).1.context.status = .soa ∨
        RejectsStart (({} : Client).readAll before).1.context →
      stream chunks = stream before ++ toChars r.buildPacket →
      Delivers (({} : Client).readAll chunks).2 r := by
  intro h
  have htakes : TakesFirst (({} : Client).readAll [cutMarkerChunk]).1.context := by
    rw [readAll_cutMarkerChunk]
    exact Or.inl rfl
  have hstream := stream_markerFrame cutMarkerChunk
  exact not_delivers_of_takes hstream htakes
    (h [cutMarkerChunk] _ markerRequest (Or.inr (parseLoop_taken htakes).1) hstream)

end Resume

section Rejected

/-- The bytes of the stream that a message was made of: those behind the message before. -/
def Dispatch.slice (bytes : List CChar) (before : List Dispatch) (d : Dispatch) : List CChar :=
  (bytes.take d.offset).drop ((before.getLast?.map (·.offset)).getD 0)

/-- A message in error has read the id of its frame: behind the first start byte come the
rest of the marker, the type and the eight bytes of an id that is not zero. -/
structure RejectedWithId (bytes : List CChar) (before : List Dispatch) (d : Dispatch)
    (id : UInt64) : Prop where
  error : d.context.result = .error
  id_ne : id ≠ 0
  read : ∃ noise more, (∀ c ∈ noise, u8 c ≠ kMagic0) ∧
    d.slice bytes before = noise ++ idImage id ++ more

/-- An error has cleared the id. -/
theorem parseLoop_error_requestId (ctx : RpcContext) (window : List CChar)
    (herror : (parseLoop ctx window).1.result = .error) :
    (parseLoop ctx window).1.requestId = 0 := by
  revert herror
  refine parseLoop_induction (P := fun _ _ => True)
    (Q := fun ctx _ => ctx.result = .error → ctx.requestId = 0) ?_ (fun _ _ _ _ _ _ _ => trivial)
    ?_ ctx window trivial
  · intro ctx _ herror
    cases herror
  · exact fun _ _ _ _ _ _ ht => (turn_done ht).2

theorem readWindow_error_requestId {pos : ℕ} {ctx : RpcContext} {window : List CChar}
    {d : Dispatch} (hd : d ∈ (readWindow pos ctx window).2) (herror : d.context.result = .error) :
    d.context.requestId = 0 := by
  obtain ⟨before, unread, hparse⟩ := mem_readWindow hd
  rw [hparse] at herror ⊢
  exact parseLoop_error_requestId before unread herror

/-- The id can be read off an error frame. -/
theorem readU64Be_buildErrorResponse (id : UInt64) (code : CChar) :
    readU64Be ((buildErrorResponse id code).drop 3) = id := by
  have hid : readU64Be (toChars (digits 8 id.toNat)) = id :=
    UInt64.toNat_inj.mp (readU64Be_digits id.toNat_lt)
  have htake : (toChars (digits 8 id.toNat)).take 8 = toChars (digits 8 id.toNat) :=
    List.take_of_length_le (by simp)
  refine Eq.trans ?_ hid
  simp [readU64Be, buildErrorResponse, appendMagicBegin, appendMagicEnd, appendU64Be_eq,
    appendU32Be_eq, htake]

/-- Whatever a frame is rejected for after its id has been read, the answer names the id
0 and not the id of the frame. -/
theorem badRequest_unnamed (handlers : Handlers) (n : ℕ) (chunks : List Chunk)
    {before after : List Dispatch} {d : Dispatch} {id : UInt64}
    (hmessages : (({} : Client).readAll chunks).2 = before ++ d :: after)
    (h : RejectedWithId (stream chunks) before d id) :
    dispatch handlers n d.context = buildErrorResponse 0 errBadRequest ∧
      dispatch handlers n d.context ≠ buildErrorResponse id errBadRequest := by
  have hd : d ∈ (({} : Client).readAll chunks).2 := by
    rw [hmessages]
    exact List.mem_append_right _ List.mem_cons_self
  rw [Client.readAll_eq_feed] at hd
  have hzero := readWindow_error_requestId hd h.error
  have hdispatch : dispatch handlers n d.context = buildErrorResponse 0 errBadRequest := by
    simp only [dispatch, h.error, hzero]
  refine ⟨hdispatch, fun heq => h.id_ne ?_⟩
  rw [← readU64Be_buildErrorResponse id errBadRequest, ← heq, hdispatch,
    readU64Be_buildErrorResponse]

/-- An error code in a request ends its frame. -/
theorem parseLoop_badCode {id : UInt64} (hid : id ≠ 0) {c : CChar} (hc : u8 c ≠ 0)
    (rest : List CChar) :
    parseLoop {} (idImage id ++ c :: rest) = ({ result := .error }, rest) := by
  have hwindow : idImage id ++ c :: rest =
      kMagic0.toInt8 :: kMagic1.toInt8 :: RequestType.request.toInt8 ::
        (toChars (digits 8 id.toNat) ++ c :: rest) := by
    simp [idImage, startImage]
  rw [hwindow, parseLoop_soa_magic rfl, parseLoop_sob_magic rfl, parseLoop_type_request rfl,
    parseLoop_requestId_digits rfl rfl hid,
    parseLoop_done (by simp only [turn]; rw [if_pos hc]; rfl)]
  rfl

/-- A frame with the id 7 and an error code. -/
def badCodeChunk : Chunk := .exact (idImage 7 ++ [1]) (by decide)

theorem readAll_badCodeChunk :
    (({} : Client).readAll [badCodeChunk]).2 = [⟨12, { result := .error }⟩] := by
  have hparse : parseLoop {} (idImage 7 ++ [1]) = ({ result := .error }, []) :=
    parseLoop_badCode (by decide) (by decide) []
  have hstop : (parseLoop { ({} : RpcContext) with result := .waiting }
      (idImage 7 ++ [1])).1.result ≠ .waiting := by
    rw [hparse]
    decide
  have hbytes : stream [badCodeChunk] = idImage 7 ++ [1] := by simp [stream, badCodeChunk]
  rw [Client.readAll_eq_feed, hbytes]
  simp only [clientConsumer, readWindow_stop 0 hstop, hparse, readWindow_nil]
  rfl

theorem rejectedWithId_badCode :
    RejectedWithId (stream [badCodeChunk]) [] ⟨12, { result := .error }⟩ 7 where
  error := rfl
  id_ne := by decide
  read := ⟨[], [1], by simp, by decide⟩

theorem badRequest_unnamed_badCode :
    dispatch (fun _ => none) 0 { result := .error } = buildErrorResponse 0 errBadRequest ∧
      dispatch (fun _ => none) 0 { result := .error } ≠ buildErrorResponse 7 errBadRequest :=
  badRequest_unnamed (fun _ => none) 0 [badCodeChunk] readAll_badCodeChunk rejectedWithId_badCode

/-- The answer to a frame with an error code does not name its request. -/
theorem not_badRequest_named :
    ¬ ∀ (handlers : Handlers) (n : ℕ) (chunks : List Chunk) (before after : List Dispatch)
        (d : Dispatch) (id : UInt64), (({} : Client).readAll chunks).2 = before ++ d :: after →
        RejectedWithId (stream chunks) before d id →
        dispatch handlers n d.context = buildErrorResponse id errBadRequest := by
  intro h
  have hnamed := h (fun _ => none) 0 [badCodeChunk] [] [] _ 7 readAll_badCodeChunk
    rejectedWithId_badCode
  have hzero : dispatch (fun _ => none) 0 { result := .error } =
    buildErrorResponse 0 errBadRequest := rfl
  have hid := readU64Be_buildErrorResponse 7 errBadRequest
  rw [← hnamed, hzero, readU64Be_buildErrorResponse] at hid
  exact absurd hid (by decide)

end Rejected

end SimpleRedis.Rpc
