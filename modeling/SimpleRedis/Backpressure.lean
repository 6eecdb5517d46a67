import SimpleRedis.WriteDrain
import Mathlib.Algebra.GroupWithZero.Nat
import Mathlib.Data.List.Chain

/-!
# The byte counter and the water marks

The loop counts the bytes that wait on a connection beside the queue, in an `int`. A write
that lifts the counter over the high mark calls the high-water callback, unless it was
called already, and a write that the kernel has taken calls the low-water callback when the
counter is below the low mark again. While the bytes fit in an `int` and the callbacks stay,
the counter is the number of the unsent bytes, and the calls take turns.
-/
namespace SimpleRedis.Net

open TransitionRun Connection

variable {F : Type*}

/-- A call of a water-mark callback. -/
inductive Mark where
  | high
  | low
  deriving DecidableEq

/-- The calls of a connection, the last one at the end. -/
def observeMark (marks : List Mark) : Effect F → List Mark
  | .highLevel _ _ => marks ++ [.high]
  | .lowLevel _ _ => marks ++ [.low]
  | .closed _ => []
  | _ => marks

/-- The calls of the connection that a descriptor has now. -/
def marksOf (fd : Fd) (trace : List (Effect F)) : List Mark :=
  (trace.filter (·.fd = fd)).foldl observeMark []

/-- High and low take turns, and high is the first. -/
def Alternating (marks : List Mark) : Prop := (Mark.low :: marks).IsChain (· ≠ ·)

/-- What is promised about the connection of a descriptor. -/
structure Backpressure (fd : Fd) (e : Execution F) : Prop where
  counter : ∀ conn, e.loop.connections fd = some conn →
    conn.inQueueWriteBufferByteSize =
      ((conn.writeQueue.map fun m => m.buffer.length - m.offset).sum : ℕ)
  unclamped : ∀ conn n, e.loop.connections fd = some conn → n ≤ conn.iovs.flatten.length →
    0 ≤ toInt (conn.inQueueWriteBufferByteSize - toInt n)
  low : ∀ conn, e.loop.connections fd = some conn → conn.highLevelCallbackSet = true →
    defaultLowLevelSize ≤ conn.inQueueWriteBufferByteSize
  high : ∀ conn, e.loop.connections fd = some conn → conn.highLevelCallbackSet = false →
    conn.inQueueWriteBufferByteSize ≤ defaultHighLevelSize
  alternating : Alternating (marksOf fd e.trace)

/-- A write goes to a connection that has both callbacks, and the bytes fit in an `int`. -/
def WriteWatched (old : Option (Connection F)) (size : ℕ) : Prop :=
  ∃ conn, old = some conn ∧ conn.highLevelCallback.isSome ∧ conn.lowLevelCallback.isSome ∧
    (unsentOf conn.writeQueue).length + size < 2 ^ 31

/-- The callbacks are there when something is written, and the low-water one is not taken
away between a call of the other and its own. -/
def Op.Watched (old : Option (Connection F)) : Op F → Prop
  | .writeOnce _ _ _ buf => WriteWatched old buf.length
  | .writeBatch _ _ _ bufs => WriteWatched old bufs.flatten.length
  | .registerLowLevel _ callback =>
      callback = none → ∀ conn, old = some conn → conn.highLevelCallbackSet = false
  | _ => True

namespace Connection

/-- The entries of some submissions in the queue, and their bytes in the counter. -/
def submit (conn : Connection F) (submissions : List (Submission F)) : Connection F :=
  { conn with
    writeQueue := conn.writeQueue ++ submissions.map (·.entry)
    inQueueWriteBufferByteSize :=
      conn.inQueueWriteBufferByteSize + (bytesOf submissions).length }

/-- The counter is an `int` before and after some submissions. -/
def Fits (conn : Connection F) (submissions : List (Submission F)) : Prop :=
  -2 ^ 31 ≤ conn.inQueueWriteBufferByteSize ∧
    conn.inQueueWriteBufferByteSize + (bytesOf submissions).length < 2 ^ 31

end Connection

/-- A write task whose counter stays an `int`. -/
def stepSubmit (fd : Fd) (old : Option (Connection F)) (socket : Socket)
    (submissions : List (Submission F)) : Option (Connection F) × List (Effect F) :=
  stepWrite fd old socket fun conn =>
    (conn.submit submissions, submissions.map (Effect.ofSubmission fd))

section Submit

variable {fd : Fd} {conn : Connection F} {old : Option (Connection F)}

theorem toInt_of_range {n : ℤ} (hlow : -2 ^ 31 ≤ n) (hhigh : n < 2 ^ 31) : toInt n = n :=
  Int.bmod_eq_of_le (by omega) (by omega)

theorem bytesOf_cons (s : Submission F) (submissions : List (Submission F)) :
    bytesOf (s :: submissions) = s.buffer ++ bytesOf submissions := rfl

theorem bytesOf_batch (f : F) (i : ℕ) (bufs : List (List CChar)) :
    bytesOf (batch f i bufs) = bufs.flatten := by
  induction bufs generalizing i with
  | nil => rfl
  | cons buf bufs ih => exact congrArg (buf ++ ·) (ih (i + 1))

theorem submit_cons (conn : Connection F) (s : Submission F) (submissions : List (Submission F)) :
    (conn.submit [s]).submit submissions = conn.submit (s :: submissions) := by
  simp [submit, bytesOf, add_assoc]

/-- Where the bytes of some submissions fit, those of the first and of the rest do. -/
theorem fits_cons {s : Submission F} {submissions : List (Submission F)}
    (h : conn.Fits (s :: submissions)) : conn.Fits [s] ∧ (conn.submit [s]).Fits submissions := by
  obtain ⟨hlow, hhigh⟩ := h
  have hbytes : bytesOf [s] = s.buffer := List.append_nil s.buffer
  rw [bytesOf_cons, List.length_append] at hhigh
  simp only [Fits, submit, hbytes]
  omega

theorem enqueue_eq_submit {callback : Option (WriteCallback F)} {buf : List CChar}
    (h : conn.Fits [⟨buf, callback⟩]) :
    conn.enqueue fd callback buf = (conn.submit [⟨buf, callback⟩], [.queued fd buf callback]) := by
  have hbytes : bytesOf [(⟨buf, callback⟩ : Submission F)] = buf := List.append_nil buf
  obtain ⟨hlow, hhigh⟩ := h
  rw [hbytes] at hhigh
  have hcounter : toInt (conn.inQueueWriteBufferByteSize + toInt buf.length) =
      conn.inQueueWriteBufferByteSize + buf.length := by
    rw [toInt, toInt, Int.add_bmod_bmod]
    exact toInt_of_range (by omega) hhigh
  rw [enqueue, hcounter, submit, hbytes]
  rfl

/-- No buffer of the batch makes the `int` overflow. -/
theorem enqueueBatch_eq_submit {f : F} {i : ℕ} {bufs : List (List CChar)}
    (h : conn.Fits (batch f i bufs)) :
    conn.enqueueBatch fd f i bufs =
      (conn.submit (batch f i bufs), (batch f i bufs).map (Effect.ofSubmission fd)) := by
  induction bufs generalizing conn i with
  | nil => simp [enqueueBatch, batch, submit, bytesOf]
  | cons buf bufs ih =>
      obtain ⟨hfirst, hrest⟩ := fits_cons h
      simp only [enqueueBatch, enqueue_eq_submit hfirst]
      rw [ih hrest, submit_cons]
      rfl

theorem stepWrite_once (fd : Fd) {socket : Socket} {callback : Option F} {buf : List CChar}
    (h : (old.getD (writeOnly socket)).Fits [⟨buf, callback.map .once⟩]) :
    (stepWrite fd old socket fun conn => conn.enqueue fd (callback.map .once) buf) =
      stepSubmit fd old socket [⟨buf, callback.map .once⟩] := by
  simp only [stepSubmit, stepWrite, enqueue_eq_submit h]
  rfl

theorem stepWrite_batch (fd : Fd) {socket : Socket} {f : F} {i : ℕ} {bufs : List (List CChar)}
    (h : (old.getD (writeOnly socket)).Fits (batch f i bufs)) :
    (stepWrite fd old socket fun conn => conn.enqueueBatch fd f i bufs) =
      stepSubmit fd old socket (batch f i bufs) := by
  simp only [stepSubmit, stepWrite, enqueueBatch_eq_submit h]

theorem unsentOf_entries (submissions : List (Submission F)) :
    unsentOf (submissions.map (·.entry)) = bytesOf submissions := by
  rw [unsentOf, bytesOf, List.map_map]
  rfl

theorem unsentOf_submit (conn : Connection F) (submissions : List (Submission F)) :
    unsentOf (conn.submit submissions).writeQueue =
      unsentOf conn.writeQueue ++ bytesOf submissions := by
  rw [submit, unsentOf_append, unsentOf_entries]

end Submit

section Counter

variable {conn : Connection F} {k n : ℕ}

/-- What `writev` has accepted was counted, so the counter does not get negative. -/
theorem counter_sub (hcounter : conn.inQueueWriteBufferByteSize = k) (hfits : k < 2 ^ 31)
    (hn : n ≤ k) : toInt (conn.inQueueWriteBufferByteSize - toInt n) = (k - n : ℕ) := by
  rw [hcounter, toInt_of_range (n := n) (by omega) (by omega), ← Int.natCast_sub hn,
    toInt_of_range (by omega) (by omega)]

theorem countSent_eq (hcounter : conn.inQueueWriteBufferByteSize = k) (hfits : k < 2 ^ 31)
    (hn : n ≤ k) : conn.countSent n = (k - n : ℕ) := by
  have hsub := counter_sub hcounter hfits hn
  rw [countSent]
  simp only [hsub]
  exact if_neg (Int.not_lt.mpr (Int.natCast_nonneg _))

theorem length_unsentOf (queue : List (WriteMetaInfo F)) :
    (unsentOf queue).length = (queue.map fun m => m.buffer.length - m.offset).sum := by
  induction queue with
  | nil => rfl
  | cons m queue ih =>
      rw [unsentOf_cons, List.length_append, ih, List.map_cons, List.sum_cons,
        WriteMetaInfo.unsent, List.length_drop]

theorem length_iovs_le (conn : Connection F) :
    conn.iovs.flatten.length ≤ (unsentOf conn.writeQueue).length :=
  List.IsPrefix.length_le <| iovs_prefix conn

end Counter

/-- The counter of a connection fits its queue, and its flag the calls so far. -/
structure Counted (conn : Connection F) (marks : List Mark) : Prop where
  counter : conn.inQueueWriteBufferByteSize = (unsentOf conn.writeQueue).length
  fits : (unsentOf conn.writeQueue).length < 2 ^ 31
  alternating : Alternating marks
  last : (Mark.low :: marks).getLast? = some (if conn.highLevelCallbackSet then .high else .low)
  released : conn.highLevelCallbackSet = true → conn.lowLevelCallback.isSome

/-- The counter is where the flag says. -/
structure Balanced (conn : Connection F) (marks : List Mark) : Prop extends Counted conn marks where
  low : conn.highLevelCallbackSet = true → defaultLowLevelSize ≤ conn.inQueueWriteBufferByteSize
  high : conn.highLevelCallbackSet = false → conn.inQueueWriteBufferByteSize ≤ defaultHighLevelSize

/-- A descriptor without a connection has no calls. -/
def BalancedAt : Option (Connection F) → List Mark → Prop
  | none, marks => marks = []
  | some conn, marks => Balanced conn marks

namespace Connection

/-- The fields of a connection that `Balanced` speaks of. -/
def writeSide (conn : Connection F) : List (WriteMetaInfo F) × ℤ × Bool × Option F :=
  (conn.writeQueue, conn.inQueueWriteBufferByteSize, conn.highLevelCallbackSet,
    conn.lowLevelCallback)

theorem writeSide_receive (fd : Fd) (conn : Connection F) (chunk : List CChar) (consumed : ℕ) :
    (conn.receive fd chunk consumed).1.writeSide = conn.writeSide := by
  unfold receive
  cases conn.readCb <;> rfl

end Connection

section Marks

variable {fd : Fd} {conn conn' : Connection F} {marks : List Mark} {effects : List (Effect F)}

theorem Balanced.congr (h : Balanced conn marks) (hside : conn'.writeSide = conn.writeSide) :
    Balanced conn' marks := by
  simp only [writeSide, Prod.mk.injEq] at hside
  obtain ⟨hqueue, hcounter, hflag, hcallback⟩ := hside
  obtain ⟨⟨hcounted, hfits, halternating, hlast, hreleased⟩, hlow, hhigh⟩ := h
  rw [← hqueue, ← hcounter] at hcounted
  rw [← hqueue] at hfits
  rw [← hflag] at hlast
  rw [← hflag, ← hcallback] at hreleased
  rw [← hflag, ← hcounter] at hlow hhigh
  exact ⟨⟨hcounted, hfits, halternating, hlast, hreleased⟩, hlow, hhigh⟩

/-- A connection that has just been made for reading. -/
theorem balanced_readOnly (socket : Socket) (callback : Option F) :
    Balanced (readOnly socket callback) [] where
  counter := rfl
  fits := Nat.two_pow_pos 31
  alternating := List.IsChain.singleton _
  last := rfl
  released h := by cases h
  low h := by cases h
  high _ := show (0 : ℤ) ≤ defaultHighLevelSize by decide

/-- The next call is the one that did not come last. -/
theorem alternating_concat {last next : Mark} (h : Alternating marks)
    (hlast : (Mark.low :: marks).getLast? = some last) (hne : last ≠ next) :
    Alternating (marks ++ [next]) ∧ (Mark.low :: (marks ++ [next])).getLast? = some next := by
  constructor
  · refine List.IsChain.append h (List.IsChain.singleton _) fun x hx y hy => ?_
    rw [hlast] at hx
    cases hx
    cases hy
    exact hne
  · rw [← List.cons_append, List.getLast?_concat]

/-- The high-water check behind a write. -/
theorem Counted.checkHighLevel (h : Counted conn marks)
    (hhigh : conn.highLevelCallback.isSome) (hlow : conn.lowLevelCallback.isSome)
    (habove : conn.highLevelCallbackSet = true →
      defaultLowLevelSize ≤ conn.inQueueWriteBufferByteSize) :
    Balanced (conn.checkHighLevel fd).1 ((conn.checkHighLevel fd).2.foldl observeMark marks) := by
  obtain ⟨f, hf⟩ := Option.isSome_iff_exists.mp hhigh
  unfold Connection.checkHighLevel
  simp only [hf]
  split
  · rename_i hover
    split
    · rename_i hset
      refine ⟨h, habove, fun hunset => ?_⟩
      rw [hset] at hunset
      cases hunset
    · rename_i hunset
      rw [Bool.not_eq_true] at hunset
      have hlast := h.last
      rw [hunset, if_neg Bool.false_ne_true] at hlast
      obtain ⟨halternating, hlast'⟩ := alternating_concat h.alternating hlast
        (show Mark.low ≠ .high by decide)
      refine ⟨⟨h.counter, h.fits, halternating, hlast', fun _ => hlow⟩, fun _ => ?_,
        fun hset => (by cases hset)⟩
      have hmarks : defaultLowLevelSize ≤ defaultHighLevelSize := by decide
      exact hmarks.trans hover.le
  · rename_i hunder
    exact ⟨h, habove, fun _ => not_lt.mp hunder⟩

/-- The low-water check behind a write of the kernel. -/
theorem Counted.checkLowLevel (h : Counted conn marks)
    (hbelow : conn.highLevelCallbackSet = false →
      conn.inQueueWriteBufferByteSize ≤ defaultHighLevelSize) :
    Balanced (conn.checkLowLevel fd).1 ((conn.checkLowLevel fd).2.foldl observeMark marks) := by
  unfold Connection.checkLowLevel
  split
  · rename_i hunder
    obtain ⟨hset, hunder⟩ := hunder
    obtain ⟨f, hf⟩ := Option.isSome_iff_exists.mp (h.released hset)
    have hlast := h.last
    rw [hset, if_pos rfl] at hlast
    obtain ⟨halternating, hlast'⟩ := alternating_concat h.alternating hlast
      (show Mark.high ≠ .low by decide)
    simp only [hf]
    refine ⟨⟨h.counter, h.fits, halternating, hlast', fun hset => (by cases hset)⟩,
      fun hset => (by cases hset), fun _ => ?_⟩
    have hmarks : defaultLowLevelSize ≤ defaultHighLevelSize := by decide
    exact hunder.le.trans hmarks
  · rename_i hover
    exact ⟨h, fun hset => not_lt.mp fun hunder => hover ⟨hset, hunder⟩, hbelow⟩

end Marks

/-- The effect is a call of a water-mark callback or ends the connection. -/
def Effect.isMark : Effect F → Bool
  | .highLevel _ _ | .lowLevel _ _ | .closed _ => true
  | _ => false

section Step

variable {fd : Fd} {old : Option (Connection F)} {conn : Connection F} {marks : List Mark}
  {effects : List (Effect F)}

theorem foldl_unmarked (marks : List Mark) (h : ∀ effect ∈ effects, effect.isMark = false) :
    effects.foldl observeMark marks = marks := by
  induction effects with
  | nil => rfl
  | cons effect effects ih =>
      obtain ⟨hfirst, hrest⟩ := List.forall_mem_cons.mp h
      have hmarks : observeMark marks effect = marks := by
        cases effect <;> first | rfl | cases hfirst
      rw [List.foldl_cons, hmarks, ih hrest]

theorem unmarked_toList {e : F → Effect F} (he : ∀ f, (e f).isMark = false) (callback : Option F) :
    ∀ effect ∈ (callback.map e).toList, effect.isMark = false := by
  cases callback with
  | none => exact List.forall_mem_nil _
  | some f => exact List.forall_mem_singleton.mpr (he f)

theorem unmarked_map {α : Type*} {e : α → Effect F} (he : ∀ a, (e a).isMark = false)
    (as : List α) : ∀ effect ∈ as.map e, effect.isMark = false :=
  List.forall_mem_map.mpr fun a _ => he a

/-- A connection that ends takes its calls with it. -/
theorem foldl_closeEffects (fd : Fd) (conn : Connection F) :
    (conn.closeEffects fd).foldl observeMark marks = [] := by
  rw [closeEffects, List.foldl_append]
  rfl

theorem fits_of_watched {submissions : List (Submission F)} (socket : Socket)
    (hwatched : WriteWatched old (bytesOf submissions).length) (h : BalancedAt old marks) :
    (old.getD (writeOnly socket)).Fits submissions := by
  obtain ⟨conn, rfl, -, -, hfits⟩ := hwatched
  have hcounter := (show Balanced conn marks from h).counter
  simp only [Option.getD_some, Fits, hcounter]
  omega

/-- A write task that finds its callbacks. -/
theorem stepSubmit_balanced (socket : Socket) {submissions : List (Submission F)}
    (hwatched : WriteWatched old (bytesOf submissions).length) (h : BalancedAt old marks) :
    BalancedAt (stepSubmit fd old socket submissions).1
      ((stepSubmit fd old socket submissions).2.foldl observeMark marks) := by
  obtain ⟨conn, rfl, hhigh, hlow, hfits⟩ := hwatched
  obtain ⟨hold, habove, -⟩ : Balanced conn marks := h
  have hcount : (conn.submit submissions).inQueueWriteBufferByteSize =
      conn.inQueueWriteBufferByteSize + (bytesOf submissions).length := rfl
  have hcounted : Counted (conn.submit submissions) marks := by
    refine ⟨?_, ?_, hold.alternating, hold.last, hold.released⟩
    · rw [hcount, hold.counter, unsentOf_submit, List.length_append, Int.natCast_add]
    · rwa [unsentOf_submit, List.length_append]
  have hqueued : (stepSubmit fd (some conn) socket submissions).2.foldl observeMark marks =
      ((conn.submit submissions).checkHighLevel fd).2.foldl observeMark marks := by
    simp only [stepSubmit, stepWrite, Option.getD_some]
    rw [List.foldl_append, foldl_unmarked marks (unmarked_map (fun _ => rfl) submissions)]
  rw [hqueued]
  refine (hcounted.checkHighLevel hhigh hlow fun hset => ?_).congr rfl
  have hbefore := habove hset
  rw [hcount]
  omega

/-- The bytes that `writev` has accepted leave the queue and the counter. -/
theorem Balanced.sent (h : Balanced conn marks) {n : ℕ} (hn : n ≤ conn.iovs.flatten.length) :
    Counted (conn.sent n) marks ∧ ((conn.sent n).highLevelCallbackSet = false →
      (conn.sent n).inQueueWriteBufferByteSize ≤ defaultHighLevelSize) := by
  have hcount := countSent_eq h.counter h.fits (hn.trans (length_iovs_le conn))
  have hunsent : (unsentOf (conn.sent n).writeQueue).length =
      (unsentOf conn.writeQueue).length - n := by
    rw [Connection.sent, unsentOf_finish, List.length_drop]
  refine ⟨⟨?_, ?_, h.alternating, h.last, h.released⟩, fun hunset => ?_⟩
  · rw [hunsent]
    exact hcount
  · rw [hunsent]
    have := h.fits
    omega
  · have hbefore := h.high hunset
    rw [h.counter] at hbefore
    refine hcount.le.trans ?_
    omega

theorem handleWrite_balanced (outcome : WriteOutcome)
    (hpossible : ∀ n, outcome = .accepted n → n ≤ conn.iovs.flatten.length)
    (h : Balanced conn marks) :
    BalancedAt (stepConnection (some conn) (.handleWrite fd outcome)).1
      ((stepConnection (some conn) (.handleWrite fd outcome)).2.foldl observeMark marks) := by
  by_cases hiovs : conn.iovs = []
  · simp only [stepConnection, if_pos hiovs]
    exact h
  · simp only [stepConnection, if_neg hiovs]
    cases outcome with
    | again => exact h
    | error =>
        simp only [List.foldl_append]
        exact foldl_closeEffects fd _
    | accepted n =>
        obtain ⟨hcounted, hbelow⟩ := h.sent (hpossible n rfl)
        have hcalls := foldl_unmarked marks
          (unmarked_map (e := (Effect.wrote fd · true)) (fun _ => rfl) (finish n conn.writeQueue).2)
        rw [List.foldl_cons, List.foldl_append]
        exact hcalls.symm ▸ hcounted.checkLowLevel hbelow

/-- Every step keeps the counter and the calls of its connection, if the callbacks are
there when it needs them. -/
theorem stepConnection_balanced {op : Op F} (hwatched : op.Watched old)
    (hpossible : ∀ conn n, old = some conn → op = .handleWrite op.fd (.accepted n) →
      n ≤ conn.iovs.flatten.length) (h : BalancedAt old marks) :
    BalancedAt (stepConnection old op).1
      ((stepConnection old op).2.foldl observeMark marks) := by
  cases op with
  | registerRead fd socket callback =>
      cases old with
      | none => exact h ▸ balanced_readOnly socket callback
      | some conn => exact Balanced.congr h rfl
  | writeOnce fd socket callback buf =>
      have hbytes : bytesOf [(⟨buf, callback.map .once⟩ : Submission F)] = buf :=
        List.append_nil buf
      have hwatched' := hwatched
      rw [Op.Watched, ← hbytes] at hwatched'
      simp only [stepConnection, stepWrite_once fd (fits_of_watched socket hwatched' h)]
      exact stepSubmit_balanced socket hwatched' h
  | writeBatch fd socket callbacks bufs =>
      have hwatched' : WriteWatched old (bytesOf (batch callbacks 0 bufs)).length :=
        (bytesOf_batch callbacks 0 bufs).symm ▸ hwatched
      simp only [stepConnection, stepWrite_batch fd (fits_of_watched socket hwatched' h)]
      exact stepSubmit_balanced socket hwatched' h
  | registerHighLevel fd callback =>
      cases old with
      | none => exact h
      | some conn => exact Balanced.congr h rfl
  | registerLowLevel fd callback =>
      cases old with
      | none => exact h
      | some conn =>
          obtain ⟨⟨hcounter, hfits, halternating, hlast, -⟩, hlow, hhigh⟩ : Balanced conn marks := h
          refine ⟨⟨hcounter, hfits, halternating, hlast, fun hset => ?_⟩, hlow, hhigh⟩
          refine Option.isSome_iff_ne_none.mpr fun hnone => ?_
          have hunset := hwatched hnone conn rfl
          rw [show conn.highLevelCallbackSet = true from hset] at hunset
          cases hunset
  | registerClose fd callback =>
      cases old with
      | none => exact h
      | some conn => exact Balanced.congr h rfl
  | handleRead fd outcome consumed =>
      cases old with
      | none => exact h
      | some conn =>
          cases outcome with
          | bytes chunk =>
              have hread : (conn.receive fd chunk consumed).2.foldl observeMark marks = marks := by
                unfold receive
                cases conn.readCb <;> rfl
              exact hread.symm ▸ Balanced.congr h (writeSide_receive fd conn chunk consumed)
          | zero =>
              have htold := foldl_unmarked marks (unmarked_toList
                (e := (Effect.read fd · conn.readBuffer.buffer 0)) (fun _ => rfl) conn.readCb)
              exact htold.symm ▸ Balanced.congr h rfl
          | again => exact h
          | error => exact foldl_closeEffects fd conn
  | handleWrite fd outcome =>
      cases old with
      | none => exact h
      | some conn =>
          exact handleWrite_balanced outcome (fun n hn => hpossible conn n rfl (hn ▸ rfl)) h
  | close fd =>
      cases old with
      | none => exact h
      | some conn => exact foldl_closeEffects fd conn

end Step

section Trace

variable {fd : Fd} {trace effects : List (Effect F)}

theorem marksOf_append_self (h : ∀ effect ∈ effects, effect.fd = fd) :
    marksOf fd (trace ++ effects) = effects.foldl observeMark (marksOf fd trace) := by
  rw [marksOf, filter_fd_append_self h, List.foldl_append]
  rfl

theorem marksOf_append_other (h : ∀ effect ∈ effects, effect.fd ≠ fd) :
    marksOf fd (trace ++ effects) = marksOf fd trace := by
  rw [marksOf, filter_fd_append_other h]
  rfl

end Trace

/-- The invariant: a plain loop and the counter of one descriptor. -/
structure Levelled (fd : Fd) (e : Execution F) : Prop where
  plain : e.loop.Plain
  balanced : BalancedAt (e.loop.connections fd) (marksOf fd e.trace)

theorem levelled_fresh (fd : Fd) : Levelled fd (Execution.fresh : Execution F) :=
  ⟨EventLoopThread.plain_fresh, rfl⟩

theorem levelled_step {fd : Fd} {e e' : Execution F} {op : Op F} (h : Levelled fd e)
    (hwatched : op.fd = fd → op.Watched (e.loop.connections fd)) (hstep : e.step op = some e') :
    Levelled fd e' := by
  obtain ⟨hpossible, hloop, htrace⟩ := Execution.step_eq_some hstep
  obtain ⟨new, events, hput, hnew, hmove⟩ :=
    EventLoopThread.exec_move (h.plain.plainAt op.fd) hpossible
  have heffects := EventLoopThread.exec_effects op (h.plain.plainAt op.fd)
  rw [hput] at hloop
  refine ⟨hloop ▸ h.plain.put _ _ _, ?_⟩
  rw [hloop, htrace]
  by_cases hfd : fd = op.fd
  · subst hfd
    rw [EventLoopThread.connections_put, marksOf_append_self hmove.fd_eq, heffects, hnew]
    refine stepConnection_balanced (hwatched rfl) (fun conn n hconn hop => ?_) h.balanced
    rw [hop, EventLoopThread.possible_accepted_iff hconn] at hpossible
    exact hpossible.2
  · rw [EventLoopThread.connections_put_of_ne _ _ _ _ hfd, marksOf_append_other]
    · exact h.balanced
    · exact fun effect heffect heq => hfd (heq.symm.trans (hmove.fd_eq effect heffect))

theorem Levelled.backpressure {fd : Fd} {e : Execution F} (h : Levelled fd e) :
    Backpressure fd e := by
  have hlive : ∀ conn, e.loop.connections fd = some conn →
      Balanced conn (marksOf fd e.trace) := fun conn hconn => by
    have hbalanced := h.balanced
    rwa [hconn] at hbalanced
  refine ⟨fun conn hconn => ?_, fun conn n hconn hn => ?_, fun conn hconn => (hlive conn hconn).low,
    fun conn hconn => (hlive conn hconn).high, ?_⟩
  · rw [(hlive conn hconn).counter, length_unsentOf]
  · have hbalanced := hlive conn hconn
    rw [counter_sub hbalanced.counter hbalanced.fits (hn.trans (length_iovs_le conn))]
    exact Int.natCast_nonneg _
  · have hbalanced := h.balanced
    cases hconn : e.loop.connections fd with
    | none =>
        rw [hconn] at hbalanced
        rw [show marksOf fd e.trace = [] from hbalanced]
        exact List.IsChain.singleton _
    | some conn => exact (hlive conn hconn).alternating

/-- In every run in which the bytes that wait on a descriptor fit in an `int` and its
callbacks are there, the counter is exact and the calls take turns, after every step. -/
theorem backpressure_of_watched (fd : Fd) {ops : List (Op F)}
    (h : EachStep Execution.step (fun e op => op.fd = fd → op.Watched (e.loop.connections fd))
      Execution.fresh ops) :
    Always Execution.step (Backpressure fd) Execution.fresh ops :=
  always_of_eachStep (fun _ _ _ hlevel hwatched hstep => levelled_step hlevel hwatched hstep)
    (fun _ hlevel => hlevel.backpressure) (levelled_fresh fd) h

/-- A connection with both callbacks; the kernel takes all that is written at once. -/
def writeAll (buf : List CChar) : List (Op Unit) :=
  [.registerRead 3 0 none, .registerHighLevel 3 (some ()), .registerLowLevel 3 (some ()),
    .writeOnce 3 0 none buf, .handleWrite 3 (.accepted buf.length)]

section WriteAll

open EventLoopThread

/-- The write lifts the counter over the high mark and takes it back below the low one. -/
theorem marksOf_writeAll {buf : List CChar} (hlen : buf.length = 600000) :
    ∃ e, run Execution.step (Execution.fresh : Execution Unit) (writeAll buf) = some e ∧
      marksOf 3 e.trace = [.high, .low] := by
  have hne : buf ≠ [] := by
    rintro rfl
    cases hlen
  simp [writeAll, run, Execution.step, Execution.fresh, EventLoopThread.fresh, possible, exec,
    doRegisterRead, doRegisterHighLevelCallback, doRegisterLowLevelCallback, updateConnection,
    doAsyncWriteOnce, findOrCreate, Connection.fresh, Connection.enqueue, checkHighLevel,
    requestOutput, setConnection, addEpollEvents, modifyEpollEvents, handleWrite, written, drained,
    iovs, window, iovMax, finish, countSent, checkLowLevel, WriteMetaInfo.unsent,
    WriteMetaInfo.mk', toInt, defaultHighLevelSize, defaultLowLevelSize, marksOf, observeMark,
    Effect.fd, hlen, hne]

theorem watched_writeAll {buf : List CChar} (hlen : buf.length = 600000) :
    EachStep Execution.step (fun e op => op.fd = 3 → op.Watched (e.loop.connections 3))
      Execution.fresh (writeAll buf) := by
  refine eachStep_cons rfl (fun _ => trivial) (eachStep_cons rfl (fun _ => trivial) ?_)
  refine eachStep_cons rfl (fun _ hnone => nomatch hnone) fun _ _ => ⟨fun _ => ?_, ?_⟩
  · exact ⟨_, rfl, rfl, rfl, by simp [hlen, unsentOf, Connection.fresh]⟩
  · exact fun _ _ => ⟨fun _ => trivial, trivial⟩

end WriteAll

theorem backpressure_of_watched_two :
    ∃ e, run Execution.step Execution.fresh (writeAll (List.replicate 600000 65)) = some e ∧
      marksOf 3 e.trace = [.high, .low] ∧
      Always Execution.step (Backpressure 3) Execution.fresh
        (writeAll (List.replicate 600000 65)) := by
  obtain ⟨e, hrun, hmarks⟩ := marksOf_writeAll
    (List.length_replicate (n := 600000) (a := (65 : CChar)))
  exact ⟨e, hrun, hmarks, backpressure_of_watched 3 (watched_writeAll List.length_replicate)⟩

end SimpleRedis.Net
