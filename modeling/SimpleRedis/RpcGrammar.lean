import SimpleRedis.RpcRequest

/-!
# The language the request parser accepts

A context in the middle of a frame determines the bytes of the frame that have
been read. `image` rebuilds them from the context, and a pass through the
`switch` moves bytes from the window into that image without changing the whole.
When the answer is `COMPLETE`, the image is the layout of a request.
-/
namespace SimpleRedis.Rpc

open BigEndian

namespace RpcContext

/-- A name behind its length byte. -/
def counted (name : List CChar) : List CChar := (UInt8.ofNat name.length).toInt8 :: name

def startImage : List CChar := toChars [kMagic0, kMagic1, RequestType.request]

def idImage (id : UInt64) : List CChar := startImage ++ toChars (digits 8 id.toNat)

def serviceImage (id : UInt64) (service : List CChar) : List CChar :=
  idImage id ++ toChars [0] ++ counted service

def funcImage (id : UInt64) (service func : List CChar) : List CChar :=
  serviceImage id service ++ counted func

def paramsImage (id : UInt64) (service func params : List CChar) : List CChar :=
  funcImage id service func ++ toChars (digits 4 params.length) ++ params

/-- The bytes of the current frame that have been read. -/
def image (ctx : RpcContext) : List CChar :=
  match ctx.status with
  | .soa => []
  | .sob => toChars [kMagic0]
  | .type => toChars [kMagic0, kMagic1]
  | .requestId => startImage ++ ctx.buffer
  | .errorCode => idImage ctx.requestId
  | .serviceLen => idImage ctx.requestId ++ toChars [0]
  | .serviceName => idImage ctx.requestId ++ toChars [0] ++ ctx.buffer ++ ctx.serviceName
  | .funcLen => serviceImage ctx.requestId ctx.serviceName
  | .funcName => serviceImage ctx.requestId ctx.serviceName ++ ctx.buffer ++ ctx.funcName
  | .paramLen => funcImage ctx.requestId ctx.serviceName ctx.funcName ++ ctx.buffer
  | .paramString =>
      funcImage ctx.requestId ctx.serviceName ctx.funcName ++ ctx.buffer ++ ctx.params
  | .eob => paramsImage ctx.requestId ctx.serviceName ctx.funcName ctx.params
  | .eoc =>
      paramsImage ctx.requestId ctx.serviceName ctx.funcName ctx.params ++ toChars [kMagic1]

/-- One length byte, and no more of the name than it announces. -/
def Announced (buffer name : List CChar) : Prop :=
  ∃ l, buffer = [l] ∧ name.length ≤ (u8 l).toNat

/-- The representation invariant of a context between two passes: what has been
read of the current field is in its place and no more than the field holds. -/
def WellFormed (ctx : RpcContext) : Prop :=
  match ctx.status with
  | .soa | .sob => True
  | .type => ctx.buffer = []
  | .requestId => ctx.buffer.length < 8
  | .errorCode | .serviceLen => ctx.requestId ≠ 0 ∧ ctx.buffer = []
  | .serviceName => ctx.requestId ≠ 0 ∧ Announced ctx.buffer ctx.serviceName
  | .funcLen => ctx.requestId ≠ 0 ∧ ctx.serviceName.length ≤ 255 ∧ ctx.buffer = []
  | .funcName =>
      ctx.requestId ≠ 0 ∧ ctx.serviceName.length ≤ 255 ∧ Announced ctx.buffer ctx.funcName
  | .paramLen =>
      ctx.requestId ≠ 0 ∧ ctx.serviceName.length ≤ 255 ∧ ctx.funcName.length ≤ 255 ∧
        ctx.buffer.length < 4
  | .paramString =>
      ctx.requestId ≠ 0 ∧ ctx.serviceName.length ≤ 255 ∧ ctx.funcName.length ≤ 255 ∧
        ctx.buffer.length = 4 ∧ ctx.params.length ≤ (readU32Be ctx.buffer).toNat
  | .eob | .eoc =>
      ctx.requestId ≠ 0 ∧ ctx.serviceName.length ≤ 255 ∧ ctx.funcName.length ≤ 255 ∧
        ctx.buffer = [] ∧ ctx.params.length < 2 ^ 32

end RpcContext

open RpcContext

/-- What a pass may do when the bytes read of the frame and the unread bytes are
`whole`: it keeps them together, or it completes a request, or it is in error. -/
def Turn.Sound (whole : List CChar) : Turn → Prop
  | .next ctx rest => ctx.WellFormed ∧ ctx.image ++ rest = whole
  | .done ctx rest =>
      match ctx.result with
      | .waiting => ctx.WellFormed ∧ ctx.image ++ rest = whole
      | .error => True
      | .complete => ∃ r : Request, ctx = r.completed ∧ toChars r.buildPacket ++ rest = whole

section Passes

variable {ctx : RpcContext} {window whole : List CChar}

theorem setError_sound (rest : List CChar) : (setError ctx rest).Sound whole := trivial

theorem setWaiting_sound (hwf : ctx.WellFormed) (himage : ctx.image = whole) :
    (setWaiting ctx []).Sound whole :=
  ⟨hwf, (List.append_nil _).trans himage⟩

/-- A fixed field extends the image by its bytes, whether it is complete or not. -/
theorem fixedField_sound {need : ℕ} (before : List CChar)
    {use : List CChar → List CChar → Turn} (hwhole : before ++ (ctx.buffer ++ window) = whole)
    (hneed : ctx.buffer.length ≤ need)
    (hwait : ∀ buffer, buffer.length < need →
      ({ ctx with buffer := buffer } : RpcContext).WellFormed ∧
        ({ ctx with buffer := buffer } : RpcContext).image = before ++ buffer)
    (huse : ∀ buffer rest, buffer.length = need → before ++ (buffer ++ rest) = whole →
      (use buffer rest).Sound whole) :
    (fixedField need ctx window use).Sound whole := by
  rcases fixedField_cases ctx window need use with
    ⟨hshort, heq⟩ | ⟨buffer, rest, hkeep, -, hlen, heq⟩
  · obtain ⟨hwf, himage⟩ := hwait _ hshort
    rw [heq]
    exact setWaiting_sound hwf (himage.trans hwhole)
  · rw [heq]
    exact huse buffer rest (hlen hneed) (by rw [← hkeep, hwhole])

theorem varField_sound {len : ℕ} (before : List CChar) {out : List CChar}
    {store : List CChar → RpcContext} {follow : ParserStatus}
    (hwhole : before ++ (out ++ window) = whole)
    (hwait : ∀ out', out'.length < len →
      (store out').WellFormed ∧ (store out').image = before ++ out')
    (hfull : ∀ out', out'.length = len →
      ({ store out' with buffer := [], status := follow } : RpcContext).WellFormed ∧
        ({ store out' with buffer := [], status := follow } : RpcContext).image =
          before ++ out') :
    (varField ctx len out store follow window).Sound whole := by
  rcases varField_cases ctx window len out store follow with
    ⟨-, heq⟩ | ⟨hshort, heq⟩ | ⟨out', rest, hkeep, hlen, heq⟩
  · rw [heq]
    exact setError_sound window
  · obtain ⟨hwf, himage⟩ := hwait _ hshort
    rw [heq]
    exact setWaiting_sound hwf (himage.trans hwhole)
  · obtain ⟨hwf, himage⟩ := hfull out' hlen
    rw [heq]
    exact ⟨hwf, by rw [himage, List.append_assoc, ← hkeep, hwhole]⟩

theorem counted_of_length {l : CChar} {name : List CChar} (h : name.length = (u8 l).toNat) :
    counted name = l :: name := by
  have hl : (UInt8.ofNat name.length) = u8 l := by
    rw [h]
    exact UInt8.ofNat_toNat
  rw [counted, hl]
  exact congrArg (· :: name) (u8_injective (u8_toInt8 _))

theorem length_le_of_byte {l : CChar} {name : List CChar} (h : name.length = (u8 l).toNat) :
    name.length ≤ 255 := by
  have := (u8 l).toNat_lt
  omega

theorem toInt8_of_u8_eq {c : CChar} {b : UInt8} (h : u8 c = b) : c = b.toInt8 :=
  u8_injective (h.trans (u8_toInt8 b).symm)

/-- No pass makes up, drops or changes a byte of the frame it is reading. -/
theorem turn_sound (hs : ctx.status ≠ .soa) (hwf : ctx.WellFormed) (c : CChar)
    (tail : List CChar) : (turn ctx c tail).Sound (ctx.image ++ c :: tail) := by
  obtain ⟨status, result, id, service, func, params, buffer⟩ := ctx
  cases status <;> simp only [turn]
  case soa => exact absurd rfl hs
  case sob =>
    split
    · exact setError_sound _
    · rename_i hc
      rw [ne_eq, not_not] at hc
      rw [toInt8_of_u8_eq hc]
      exact ⟨rfl, rfl⟩
  case type =>
    split
    · exact setError_sound _
    · rename_i hc
      rw [ne_eq, not_not] at hc
      rw [toInt8_of_u8_eq hc]
      change buffer = [] at hwf
      subst hwf
      exact ⟨by simp [WellFormed], rfl⟩
  case requestId =>
    refine fixedField_sound startImage (by simp [image]) (Nat.le_of_lt hwf)
      (fun buffer hlen => ⟨hlen, rfl⟩) fun buffer rest hlen hwhole => ?_
    split
    · exact setError_sound _
    · rename_i hid
      refine ⟨⟨hid, rfl⟩, ?_⟩
      simp only [image, idImage, toChars_digits_readU64Be hlen]
      rw [List.append_assoc, hwhole]
      rfl
  case errorCode =>
    split
    · exact setError_sound _
    · rename_i hc
      rw [ne_eq, not_not] at hc
      rw [toInt8_of_u8_eq hc]
      refine ⟨hwf, ?_⟩
      simp [image]
  case serviceLen =>
    refine ⟨⟨hwf.1, c, rfl, Nat.zero_le _⟩, ?_⟩
    simp [image]
  case serviceName =>
    obtain ⟨hid, l, hb, hlen⟩ := hwf
    change buffer = [l] at hb
    subst hb
    refine varField_sound (idImage id ++ toChars [0] ++ [l]) (by simp [image])
      (fun out' hout => ⟨⟨hid, l, rfl, Nat.le_of_lt hout⟩, rfl⟩) fun out' hout => ?_
    refine ⟨⟨hid, length_le_of_byte hout, rfl⟩, ?_⟩
    simp [image, serviceImage, counted_of_length hout]
  case funcLen =>
    refine ⟨⟨hwf.1, hwf.2.1, c, rfl, Nat.zero_le _⟩, ?_⟩
    simp [image]
  case funcName =>
    obtain ⟨hid, hservice, l, hb, hlen⟩ := hwf
    change buffer = [l] at hb
    subst hb
    refine varField_sound (serviceImage id service ++ [l]) (by simp [image])
      (fun out' hout => ⟨⟨hid, hservice, l, rfl, Nat.le_of_lt hout⟩, rfl⟩) fun out' hout => ?_
    refine ⟨⟨hid, hservice, length_le_of_byte hout, Nat.zero_lt_succ _⟩, ?_⟩
    simp [image, funcImage, counted_of_length hout]
  case paramLen =>
    obtain ⟨hid, hservice, hfunc, hlen⟩ := hwf
    refine fixedField_sound (funcImage id service func) (by simp [image]) (Nat.le_of_lt hlen)
      (fun buffer hlen => ⟨⟨hid, hservice, hfunc, hlen⟩, rfl⟩) fun buffer rest hlen hwhole => ?_
    refine ⟨⟨hid, hservice, hfunc, hlen, Nat.zero_le _⟩, ?_⟩
    simpa [image] using hwhole
  case paramString =>
    obtain ⟨hid, hservice, hfunc, hlen, hparams⟩ := hwf
    change buffer.length = 4 at hlen
    simp only [hlen, Nat.lt_irrefl, if_false]
    refine varField_sound (funcImage id service func ++ buffer) (by simp [image])
      (fun out' hout => ⟨⟨hid, hservice, hfunc, hlen, Nat.le_of_lt hout⟩, rfl⟩) fun out' hout => ?_
    refine ⟨⟨hid, hservice, hfunc, rfl, hout ▸ UInt32.toNat_lt _⟩, ?_⟩
    simp only [image, paramsImage, hout, toChars_digits_readU32Be hlen]
  case eob =>
    split
    · exact setError_sound _
    · rename_i hc
      rw [ne_eq, not_not] at hc
      rw [toInt8_of_u8_eq hc]
      refine ⟨hwf, ?_⟩
      simp [image]
  case eoc =>
    obtain ⟨hid, hservice, hfunc, hb, hparams⟩ := hwf
    change buffer = [] at hb
    subst hb
    split
    · exact setError_sound _
    · rename_i hc
      rw [ne_eq, not_not] at hc
      rw [toInt8_of_u8_eq hc]
      refine ⟨⟨id, service.map u8, func.map u8, params.map u8, hid, ?_, ?_, ?_⟩, ?_, ?_⟩
      · simpa using hservice
      · simpa using hfunc
      · simpa using hparams
      · simp [Request.completed, toChars_map_u8]
      · rw [toChars_buildPacket]
        simp [image, paramsImage, funcImage, serviceImage, idImage, startImage, counted,
          toChars_map_u8]

theorem image_magic (hs : ctx.status ≠ .soa) : kMagic0.toInt8 ∈ ctx.image := by
  obtain ⟨status, result, id, service, func, params, buffer⟩ := ctx
  cases status
  case soa => exact absurd rfl hs
  all_goals simp [image, paramsImage, funcImage, serviceImage, idImage, startImage]

end Passes

/-- A slice that a parser may answer with `COMPLETE`: noise without a start byte,
then one request in its layout. -/
def Accepted (slice : List CChar) (ctx : RpcContext) : Prop :=
  ∃ (noise : List CChar) (r : Request), (∀ c ∈ noise, u8 c ≠ kMagic0) ∧
    slice = noise ++ toChars r.buildPacket ∧ ctx = r.completed

section Calls

variable {whole : List CChar}

/-- The bytes of `whole` are some noise, the frame that is being read and the
unread rest. -/
def Covers (whole : List CChar) (ctx : RpcContext) (rest : List CChar) : Prop :=
  ctx.WellFormed ∧
    ∃ noise, (∀ c ∈ noise, u8 c ≠ kMagic0) ∧ noise ++ (ctx.image ++ rest) = whole

/-- How a call of `parse` that has read `whole` up to `rest` may end. -/
def Ended (whole : List CChar) (ctx : RpcContext) (rest : List CChar) : Prop :=
  match ctx.result with
  | .waiting => Covers whole ctx rest
  | .error => ∃ slice, kMagic0.toInt8 ∈ slice ∧ slice ++ rest = whole
  | .complete => ∃ slice, Accepted slice ctx ∧ slice ++ rest = whole

theorem memchr_none {xs : List CChar} {m : UInt8} (h : memchr xs m = none) :
    ∀ c ∈ xs, u8 c ≠ m := by
  simpa [memchr] using h

theorem memchr_split {xs : List CChar} {m : UInt8} {p : ℕ} (h : memchr xs m = some p) :
    (∀ c ∈ xs.take p, u8 c ≠ m) ∧ xs.take p ++ m.toInt8 :: xs.drop (p + 1) = xs := by
  obtain ⟨hlt, hp, hbefore⟩ := List.findIdx?_eq_some_iff_getElem.mp h
  constructor
  · intro c hc
    obtain ⟨i, hi, rfl⟩ := List.mem_iff_getElem.mp hc
    rw [List.length_take] at hi
    have := hbefore i (by omega)
    simpa using this
  · have hget : xs[p] = m.toInt8 := toInt8_of_u8_eq (by simpa using hp)
    rw [← hget, List.getElem_cons_drop, List.take_append_drop]

theorem turn_next_covers {ctx ctx' : RpcContext} {c : CChar} {tail rest : List CChar}
    (h : Covers whole ctx (c :: tail)) (ht : turn ctx c tail = .next ctx' rest) :
    Covers whole ctx' rest := by
  obtain ⟨hwf, noise, hnoise, hwhole⟩ := h
  by_cases hs : ctx.status = .soa
  · simp only [image, hs, List.nil_append] at hwhole
    simp only [turn, hs] at ht
    cases hm : memchr (c :: tail) kMagic0 with
    | none => simp [hm, setWaiting] at ht
    | some p =>
        obtain ⟨hclean, hsplit⟩ := memchr_split hm
        simp only [hm] at ht
        cases ht
        refine ⟨trivial, noise ++ (c :: tail).take p, ?_, ?_⟩
        · intro x hx
          exact (List.mem_append.mp hx).elim (hnoise x) (hclean x)
        · rw [List.append_assoc, ← hwhole]
          exact congrArg (noise ++ ·) hsplit
  · have hsound := turn_sound hs hwf c tail
    rw [ht] at hsound
    exact ⟨hsound.1, noise, hnoise, by rw [hsound.2, hwhole]⟩

theorem turn_done_ended {ctx ctx' : RpcContext} {c : CChar} {tail rest : List CChar}
    (h : Covers whole ctx (c :: tail)) (ht : turn ctx c tail = .done ctx' rest) :
    Ended whole ctx' rest := by
  obtain ⟨hwf, noise, hnoise, hwhole⟩ := h
  by_cases hs : ctx.status = .soa
  · simp only [image, hs, List.nil_append] at hwhole
    simp only [turn, hs] at ht
    cases hm : memchr (c :: tail) kMagic0 with
    | some p => simp [hm] at ht
    | none =>
        simp only [hm, setWaiting] at ht
        cases ht
        refine ⟨by simp [WellFormed, hs], noise ++ c :: tail, ?_, by simp [image, hs, ← hwhole]⟩
        intro x hx
        exact (List.mem_append.mp hx).elim (hnoise x) (memchr_none hm x)
  · have hsound := turn_sound hs hwf c tail
    obtain ⟨used, hused⟩ := turn_rest_suffix ctx c tail
    rw [ht] at hsound hused
    unfold Turn.Sound at hsound
    unfold Ended
    cases hr : ctx'.result <;> simp only [hr] at hsound ⊢
    case waiting => exact ⟨hsound.1, noise, hnoise, by rw [hsound.2, hwhole]⟩
    case error =>
      refine ⟨noise ++ ctx.image ++ used, ?_, ?_⟩
      · simp [image_magic hs]
      · rw [← hwhole, ← hused]
        simp [Turn.rest]
    case complete =>
      obtain ⟨r, hctx, hpacket⟩ := hsound
      refine ⟨noise ++ toChars r.buildPacket, ⟨noise, r, hnoise, rfl, hctx⟩, ?_⟩
      rw [List.append_assoc, hpacket, hwhole]

theorem parseLoop_ended (window : List CChar) :
    Ended window (parseLoop {} window).1 (parseLoop {} window).2 := by
  refine parseLoop_induction (P := Covers window) (Q := Ended window) (fun _ h => h)
    (fun _ _ _ _ _ h ht => turn_next_covers h ht) (fun _ _ _ _ _ h ht => turn_done_ended h ht)
    {} window ⟨trivial, [], by simp, rfl⟩

end Calls

/-- The stream between two dispatches, with the message dispatched at its end. -/
structure Slice (slice : List CChar) (ctx : RpcContext) : Prop where
  magic : kMagic0.toInt8 ∈ slice
  stopped : ctx.result ≠ .waiting
  accepted : ctx.result = .complete → Accepted slice ctx

/-- The stream is cut at the offsets of the messages, from `pos` on. -/
def Sliced (bytes : List CChar) : ℕ → List Dispatch → Prop
  | _, [] => True
  | pos, d :: ds =>
      pos < d.offset ∧ d.offset ≤ bytes.length ∧
        Slice ((bytes.take d.offset).drop pos) d.context ∧ Sliced bytes d.offset ds

theorem drop_split (bytes : List CChar) {pos stop : ℕ} (h : pos ≤ stop) :
    bytes.drop pos = (bytes.take stop).drop pos ++ bytes.drop stop := by
  conv_lhs => rw [← List.take_append_drop stop bytes, List.drop_append]
  rw [List.length_take]
  rcases Nat.le_total stop bytes.length with hle | hge
  · rw [Nat.min_eq_left hle, Nat.sub_eq_zero_of_le h, List.drop_zero]
  · rw [List.drop_of_length_le hge, List.drop_nil]

theorem Ended.slice {whole rest : List CChar} {ctx : RpcContext} (h : Ended whole ctx rest)
    (hstop : ctx.result ≠ .waiting) : ∃ slice, Slice slice ctx ∧ slice ++ rest = whole := by
  unfold Ended at h
  cases hr : ctx.result <;> simp only [hr] at h
  case waiting => exact absurd hr hstop
  case error =>
    obtain ⟨slice, hmagic, hwhole⟩ := h
    exact ⟨slice, ⟨hmagic, hstop, by simp [hr]⟩, hwhole⟩
  case complete =>
    obtain ⟨slice, hacc, hwhole⟩ := h
    obtain ⟨noise, r, hnoise, hslice, hctx⟩ := hacc
    refine ⟨slice, ⟨?_, hstop, fun _ => ⟨noise, r, hnoise, hslice, hctx⟩⟩, hwhole⟩
    simp [hslice, Request.buildPacket]

theorem readWindow_sliced (bytes : List CChar) (pos : ℕ) (hpos : pos ≤ bytes.length) :
    Sliced bytes pos (readWindow pos {} (bytes.drop pos)).2 := by
  induction hn : bytes.length - pos using Nat.strong_induction_on generalizing pos with
  | _ n ih =>
      have hended := parseLoop_ended (bytes.drop pos)
      by_cases hstop : (parseLoop {} (bytes.drop pos)).1.result = .waiting
      · rw [readWindow_of_waiting pos hstop]
        trivial
      · obtain ⟨slice, hslice, hwhole⟩ := hended.slice hstop
        rw [readWindow_stop pos hstop]
        have hlen := congrArg List.length hwhole
        rw [List.length_append, List.length_drop] at hlen
        have hne := List.length_pos_of_mem hslice.magic
        have hoff : pos + ((bytes.drop pos).length -
            (parseLoop {} (bytes.drop pos)).2.length) = pos + slice.length := by
          rw [List.length_drop]
          omega
        have hrest : bytes.drop (pos + slice.length) = (parseLoop {} (bytes.drop pos)).2 := by
          rw [← List.drop_drop]
          exact (congrArg (List.drop slice.length) hwhole).symm.trans List.drop_left
        simp only [Sliced, hoff]
        refine ⟨by omega, by omega, ?_, ?_⟩
        · have htake : (bytes.drop pos).take slice.length = slice := by
            rw [← hwhole, List.take_left]
          rw [List.drop_take, Nat.add_sub_cancel_left, htake]
          exact hslice
        · have := ih _ (by omega) (pos + slice.length) (by omega) rfl
          rwa [hrest] at this

/-- Each message needs a start byte of its own. -/
theorem Sliced.length_le_count {bytes : List CChar} {pos : ℕ} {ds : List Dispatch}
    (h : Sliced bytes pos ds) : ds.length ≤ (bytes.drop pos).count kMagic0.toInt8 := by
  induction ds generalizing pos with
  | nil => exact Nat.zero_le _
  | cons d ds ih =>
      obtain ⟨hlt, hle, hslice, hrest⟩ := h
      have hsplit := drop_split bytes (Nat.le_of_lt hlt)
      have hone := List.count_pos_iff.mpr hslice.magic
      have := ih hrest
      rw [hsplit, List.count_append, List.length_cons]
      omega

/-- Whatever bytes a client sends, in whatever chunks: the dispatched messages
cut the stream into consecutive slices that are not empty, each with a start byte
in it, and a slice that was answered with `COMPLETE` is noise and one request. -/
theorem readAll_sliced (chunks : List Chunk) :
    Sliced (stream chunks) 0 (({} : Client).readAll chunks).2 ∧
      (({} : Client).readAll chunks).2.length ≤ (stream chunks).count kMagic0.toInt8 := by
  have h : Sliced (stream chunks) 0 (({} : Client).readAll chunks).2 := by
    rw [Client.readAll_eq_feed]
    exact readWindow_sliced (stream chunks) 0 (Nat.zero_le _)
  exact ⟨h, h.length_le_count⟩

end SimpleRedis.Rpc
