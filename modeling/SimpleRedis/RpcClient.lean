import SimpleRedis.RpcResponse

/-!
# The receive buffer of the Python client

`_try_parse_frame` looks for a start marker, drops what stands before it, and takes a
whole frame off the buffer once all its bytes are there. The server sends whole frames
one after the other, so a marker is always at the front, and a marker inside an id or a
body is never looked at.
-/
namespace SimpleRedis.Rpc

open BigEndian

/-- `START`. -/
def startMarker : List UInt8 := [0x0a, 0x0b]

/-- `END`. -/
def endMarker : List UInt8 := [0x0b, 0x0c]

/-- `bytearray.find` for a pattern that is not empty. -/
def find (pattern : List UInt8) : List UInt8 → Option ℕ
  | [] => none
  | b :: buf => if pattern <+: b :: buf then some 0 else (find pattern buf).map (· + 1)

/-- `buf[from:to]`. -/
def slice (buf : List UInt8) (first stop : ℕ) : List UInt8 := (buf.take stop).drop first

/-- `_try_parse_frame`: the frame it returns, if any, and the buffer it leaves.
`struct.unpack` is `value`. -/
def tryParseFrame (buf : List UInt8) : Option Frame × List UInt8 :=
  if buf.length < 2 then (none, buf)
  else
    match find startMarker buf with
    | none =>
        -- the last byte may be the first half of a start marker
        if buf.getLast? = some 0x0a then (none, buf.drop (buf.length - 1)) else (none, [])
    | some pos =>
        let buf := buf.drop pos
        if buf.length < 3 then (none, buf)
        else
          let frameType := buf.getD 2 0
          if ¬ (frameType = RequestType.response ∨ frameType = RequestType.reqError) then
            (none, buf.drop 1)
          else if buf.length < 16 then (none, buf)
          else
            let requestId := value (slice buf 3 11)
            let errorCode := buf.getD 11 0
            let paramLen := value (slice buf 12 16)
            let total := 18 + paramLen
            if buf.length < total then (none, buf)
            else
              let body := slice buf 16 (16 + paramLen)
              if slice buf (16 + paramLen) (18 + paramLen) ≠ endMarker then (none, buf.drop 2)
              else (some ⟨frameType, requestId, body, errorCode⟩, buf.drop total)

/-- A frame that is returned has been taken off the buffer. -/
theorem tryParseFrame_length_lt {buf rest : List UInt8} {f : Frame}
    (h : tryParseFrame buf = (some f, rest)) : rest.length < buf.length := by
  unfold tryParseFrame at h
  split at h
  · cases h
  · split at h
    · split at h <;> cases h
    · simp only at h
      repeat' split at h
      all_goals first | (cases h; done) | skip
      cases h
      rw [List.length_drop, List.length_drop]
      omega

/-- `_try_parse_frame` until it returns `None`. -/
def parseFrames (buf : List UInt8) : List Frame × List UInt8 :=
  match _h : tryParseFrame buf with
  | (none, rest) => ([], rest)
  | (some f, rest) =>
      let others := parseFrames rest
      (f :: others.1, others.2)
termination_by buf.length
decreasing_by exact tryParseFrame_length_lt _h

/-- The pieces of the stream are appended to the buffer one after the other. -/
def receive (buf : List UInt8) : List (List UInt8) → List Frame × List UInt8
  | [] => ([], buf)
  | piece :: pieces =>
      let first := parseFrames (buf ++ piece)
      let others := receive first.2 pieces
      (first.1 ++ others.1, others.2)

section Slices

theorem find_startMarker {buf : List UInt8} (h : startMarker <+: buf) :
    find startMarker buf = some 0 := by
  cases buf with
  | nil => exact absurd h (by decide)
  | cons b buf => exact if_pos h

theorem slice_append {before field : List UInt8} {first stop : ℕ} (hfirst : before.length = first)
    (hstop : first + field.length = stop) (rest : List UInt8) :
    slice (before ++ field ++ rest) first stop = field := by
  subst hfirst hstop
  rw [slice, List.take_left' List.length_append, List.drop_left]

theorem slice_length_add (before rest : List UInt8) (first stop : ℕ) :
    slice (before ++ rest) (before.length + first) (before.length + stop) =
      slice rest first stop := by
  rw [slice, List.take_length_add_append, List.drop_length_add_append, slice]

end Slices

section Frames

variable {f : Frame}

/-- A frame of which the header is not whole stays in the buffer. -/
theorem tryParseFrame_header_part (hf : f.WellFormed) {buf : List UInt8} (h : buf <+: f.header)
    (hlt : buf.length < 16) : tryParseFrame buf = (none, buf) := by
  unfold tryParseFrame
  by_cases h2 : buf.length < 2
  · rw [if_pos h2]
  have hstart : startMarker <+: buf := by
    have hheader : startMarker <+: f.header := ⟨_, rfl⟩
    exact List.prefix_of_prefix_length_le hheader h (Nat.le_of_not_lt h2)
  rw [if_neg h2, find_startMarker hstart]
  simp only [List.drop_zero]
  by_cases h3 : buf.length < 3
  · rw [if_pos h3]
  have htype : buf.getD 2 0 = f.type := by
    obtain ⟨rest, hrest⟩ := h
    rw [← List.getD_append buf rest 0 2 (by omega), hrest]
    rfl
  rw [if_neg h3, htype, if_neg (not_not_intro hf.type_eq), if_pos hlt]

/-- With a whole header, the length in it decides. -/
theorem tryParseFrame_header (hf : f.WellFormed) (rest : List UInt8) :
    tryParseFrame (f.header ++ rest) =
      if rest.length < 2 + f.body.length then (none, f.header ++ rest)
      else if slice rest f.body.length (2 + f.body.length) ≠ endMarker then
        (none, (f.header ++ rest).drop 2)
      else (some { f with body := rest.take f.body.length }, rest.drop (2 + f.body.length)) := by
  have hlen : (f.header ++ rest).length = 16 + rest.length := by
    rw [List.length_append, f.length_header]
  have hid : value (slice (f.header ++ rest) 3 11) = f.requestId := by
    have hslice : slice (f.header ++ rest) 3 11 = digits 8 f.requestId := by
      rw [Frame.header, List.append_assoc, List.append_assoc]
      exact slice_append (Eq.refl 3) (by rw [length_digits]) _
    rw [hslice, value_digits_of_lt (by simpa using hf.id_lt)]
  have hparam : value (slice (f.header ++ rest) 12 16) = f.body.length := by
    have hslice : slice (f.header ++ rest) 12 16 = digits 4 f.body.length := by
      refine slice_append ?_ (by rw [length_digits]) _
      simp
    rw [hslice, value_digits_of_lt (by simpa using hf.body_lt)]
  have herr : (f.header ++ rest).getD 11 0 = f.extra := by
    have hbefore : ([kMagic0, kMagic1] ++ [f.type] ++ digits 8 f.requestId).length = 11 := by
      rw [List.length_append, length_digits]
      rfl
    rw [Frame.header, List.append_assoc, List.append_assoc,
      List.getD_append_right _ _ _ _ (by omega), hbefore]
    rfl
  have hbody : slice (f.header ++ rest) 16 (16 + f.body.length) = rest.take f.body.length := by
    have hslice := slice_length_add f.header rest 0 f.body.length
    rw [f.length_header, Nat.add_zero] at hslice
    rw [hslice, slice, List.drop_zero]
  have htail : slice (f.header ++ rest) (16 + f.body.length) (18 + f.body.length) =
      slice rest f.body.length (2 + f.body.length) := by
    have hslice := slice_length_add f.header rest f.body.length (2 + f.body.length)
    rw [f.length_header, ← Nat.add_assoc] at hslice
    exact hslice
  have hdrop : (f.header ++ rest).drop (18 + f.body.length) = rest.drop (2 + f.body.length) := by
    have hdrop : (f.header ++ rest).drop (f.header.length + (2 + f.body.length)) =
        rest.drop (2 + f.body.length) := List.drop_length_add_append _
    rw [f.length_header, ← Nat.add_assoc] at hdrop
    exact hdrop
  have hfind : find startMarker (f.header ++ rest) = some 0 := find_startMarker ⟨_, rfl⟩
  have htype : (f.header ++ rest).getD 2 0 = f.type := rfl
  have hshort : (16 + rest.length < 18 + f.body.length) = (rest.length < 2 + f.body.length) :=
    propext (by omega)
  rw [tryParseFrame, hfind]
  simp only [List.drop_zero, hid, hparam, herr, hbody, htail, hdrop, htype, hlen, hshort]
  rw [if_neg (by omega), if_neg (by omega), if_neg (not_not_intro hf.type_eq), if_neg (by omega)]

/-- A frame of which the end is not there stays in the buffer. -/
theorem tryParseFrame_part (hf : f.WellFormed) {buf : List UInt8} (h : buf <+: f.bytes)
    (hlt : buf.length < f.bytes.length) : tryParseFrame buf = (none, buf) := by
  rw [f.length_bytes] at hlt
  rw [Frame.bytes, List.append_assoc] at h
  by_cases hheader : buf.length < 16
  · refine tryParseFrame_header_part hf ?_ hheader
    exact List.prefix_of_prefix_length_le h (List.prefix_append _ _)
      (by rw [f.length_header]; omega)
  · obtain ⟨rest, rfl⟩ : f.header <+: buf :=
      List.prefix_of_prefix_length_le (List.prefix_append _ _) h (by rw [f.length_header]; omega)
    rw [List.length_append, f.length_header] at hlt
    rw [tryParseFrame_header hf, if_pos (by omega)]

/-- A frame at the front of the buffer is taken off it and nothing else. -/
theorem tryParseFrame_bytes (hf : f.WellFormed) (rest : List UInt8) :
    tryParseFrame (f.bytes ++ rest) = (some f, rest) := by
  have htail : slice (f.body ++ endMarker ++ rest) f.body.length (2 + f.body.length) = endMarker :=
    slice_append rfl (Nat.add_comm _ _) rest
  have hbytes : f.bytes ++ rest = f.header ++ (f.body ++ endMarker ++ rest) := by
    rw [Frame.bytes, List.append_assoc, List.append_assoc, List.append_assoc]
    rfl
  have hbody : (f.body ++ endMarker ++ rest).take f.body.length = f.body := by
    rw [List.append_assoc, List.take_left]
  have hrest : (f.body ++ endMarker ++ rest).drop (2 + f.body.length) = rest :=
    List.drop_left' (by rw [List.length_append, Nat.add_comm]; rfl)
  have hlen : ¬ (f.body ++ endMarker ++ rest).length < 2 + f.body.length := by
    have hmarker : endMarker.length = 2 := rfl
    rw [List.length_append, List.length_append, hmarker]
    omega
  rw [hbytes, tryParseFrame_header hf, if_neg hlen, if_neg (not_not_intro htail), hbody, hrest]

end Frames

section Stream

/-- The bytes of a list of frames. -/
def frameStream (fs : List Frame) : List UInt8 := (fs.map Frame.bytes).flatten

/-- What is in the buffer does not reach the end of the next frame. -/
def Incomplete (buf : List UInt8) (todo : List Frame) : Prop :=
  ∀ f ∈ todo.head?, buf.length < f.bytes.length

theorem parseFrames_none {buf rest : List UInt8} (h : tryParseFrame buf = (none, rest)) :
    parseFrames buf = ([], rest) := by
  rw [parseFrames]
  split
  · rename_i heq
    rw [h] at heq
    cases heq
    rfl
  · rename_i heq
    rw [h] at heq
    cases heq

theorem parseFrames_some {buf rest : List UInt8} {f : Frame}
    (h : tryParseFrame buf = (some f, rest)) :
    parseFrames buf = (f :: (parseFrames rest).1, (parseFrames rest).2) := by
  rw [parseFrames]
  split
  · rename_i heq
    rw [h] at heq
    cases heq
  · rename_i heq
    rw [h] at heq
    cases heq
    rfl

/-- The frames that are whole in the buffer are taken off it, in order. -/
theorem parseFrames_stream {fs : List Frame} (hfs : ∀ f ∈ fs, f.WellFormed)
    {buf later : List UInt8} (h : buf ++ later = frameStream fs) :
    ∃ done todo, fs = done ++ todo ∧ (parseFrames buf).1 = done ∧
      (parseFrames buf).2 ++ later = frameStream todo ∧ Incomplete (parseFrames buf).2 todo := by
  induction fs generalizing buf with
  | nil =>
      obtain ⟨rfl, rfl⟩ := List.append_eq_nil_iff.mp h
      have hnone : parseFrames [] = ([], []) := parseFrames_none rfl
      rw [hnone]
      exact ⟨[], [], rfl, rfl, rfl, fun f hf => by cases hf⟩
  | cons f fs ih =>
      have hf := hfs f List.mem_cons_self
      have hstream : frameStream (f :: fs) = f.bytes ++ frameStream fs := List.flatten_cons
      rw [hstream] at h
      by_cases hlt : buf.length < f.bytes.length
      · have hpart : buf <+: f.bytes :=
          List.prefix_of_prefix_length_le ⟨later, h⟩ (List.prefix_append _ _) hlt.le
        rw [parseFrames_none (tryParseFrame_part hf hpart hlt)]
        refine ⟨[], f :: fs, rfl, rfl, h.trans hstream.symm, ?_⟩
        intro g hg
        cases hg
        exact hlt
      · obtain ⟨rest, rfl⟩ : f.bytes <+: buf :=
          List.prefix_of_prefix_length_le (List.prefix_append _ _) ⟨later, h⟩ (Nat.le_of_not_lt hlt)
        rw [List.append_assoc, List.append_cancel_left_eq] at h
        obtain ⟨done, todo, rfl, hdone, hrest, hshort⟩ :=
          ih (fun g hg => hfs g (List.mem_cons_of_mem _ hg)) h
        rw [parseFrames_some (tryParseFrame_bytes hf rest), hdone]
        exact ⟨f :: done, todo, rfl, rfl, hrest, hshort⟩

/-- However the stream is cut, all its frames come out, and nothing stays behind. -/
theorem receive_stream {fs : List Frame} (hfs : ∀ f ∈ fs, f.WellFormed)
    (pieces : List (List UInt8)) {buf : List UInt8} (h : buf ++ pieces.flatten = frameStream fs)
    (hshort : Incomplete buf fs) : receive buf pieces = (fs, []) := by
  induction pieces generalizing fs buf with
  | nil =>
      rw [List.flatten_nil, List.append_nil] at h
      cases fs with
      | nil => exact congrArg (Prod.mk []) h
      | cons f fs =>
          have hlt := hshort f rfl
          rw [h, frameStream, List.map_cons, List.flatten_cons, List.length_append] at hlt
          omega
  | cons piece pieces ih =>
      rw [List.flatten_cons, ← List.append_assoc] at h
      obtain ⟨done, todo, rfl, hdone, hrest, hincomplete⟩ := parseFrames_stream hfs h
      have hothers := ih (fun f hf => hfs f (List.mem_append_right _ hf)) hrest hincomplete
      simp only [receive, hdone, hothers]

end Stream

/-- An answer of the server, with the arguments of the encoder that builds it. -/
inductive Response where
  | success (body : List CChar) (requestId : UInt64) (body_lt : body.length < 2 ^ 32)
  | failure (requestId : UInt64) (errorCode : CChar)

namespace Response

/-- The chars handed to `asyncWriteOnce`. -/
def build : Response → List CChar
  | success body requestId _ => buildResponse body requestId
  | failure requestId errorCode => buildErrorResponse requestId errorCode

/-- What a client is to make of an answer. -/
def frame : Response → Frame
  | success body requestId _ => ⟨RequestType.response, requestId.toNat, body.map u8, 0⟩
  | failure requestId errorCode => ⟨RequestType.reqError, requestId.toNat, [], u8 errorCode⟩

theorem frame_wellFormed (r : Response) : r.frame.WellFormed := by
  cases r with
  | success body requestId body_lt =>
      exact ⟨Or.inl rfl, requestId.toNat_lt, by simpa [frame] using body_lt⟩
  | failure requestId errorCode =>
      exact ⟨Or.inr rfl, requestId.toNat_lt, by simp [frame]⟩

theorem build_bytes (r : Response) : r.build.map u8 = r.frame.bytes := by
  cases r with
  | success body requestId body_lt => exact buildResponse_eq body_lt requestId
  | failure requestId errorCode => exact buildErrorResponse_eq requestId errorCode

end Response

/-- The responses of the server decode back, in order and with an empty buffer at the
end, however the stream is cut. -/
theorem receive_responses (responses : List Response) (pieces : List (List UInt8))
    (h : pieces.flatten = ((responses.map Response.build).flatten).map u8) :
    receive [] pieces = (responses.map Response.frame, []) := by
  have hstream : ((responses.map Response.build).flatten).map u8 =
      frameStream (responses.map Response.frame) := by
    rw [List.map_flatten, frameStream, List.map_map, List.map_map]
    exact congrArg _ (List.map_congr_left fun r _ => r.build_bytes)
  refine receive_stream ?_ pieces (h.trans hstream) ?_
  · intro f hf
    obtain ⟨r, -, rfl⟩ := List.mem_map.mp hf
    exact r.frame_wellFormed
  · intro f _
    rw [Frame.length_bytes, List.length_nil]
    omega

/-- Markers in the id and in the body, and a cut inside the header and the trailer. -/
theorem receive_responses_markers :
    receive [] [[0x0a, 0x0b, 2, 0, 0, 0], [0, 0, 0, 0x0a, 0x0b, 0, 0, 0, 0, 2, 0x0b, 0x0c, 0x0b],
        [0x0c, 0x0a, 0x0b, 3, 0, 0, 0, 0, 0, 0, 0, 7, 100, 0, 0, 0, 0, 0x0b, 0x0c]] =
      ([⟨2, 0x0a0b, [0x0b, 0x0c], 0⟩, ⟨3, 7, [], 100⟩], []) :=
  receive_responses [.success [0x0b, 0x0c] 0x0a0b (by decide), .failure 7 100] _ (by decide)

end SimpleRedis.Rpc
