import SimpleRedis.RingIndex
import SimpleRedis.TransitionRun

/-!
# The queue of one producer and one consumer

`LockFreeQueue` is a ring with a thread that pushes and a thread that pops. Each of them
moves its own index and only looks at the other's, so what it knows of the other is out of
date by the time it uses it; it errs on the safe side. A step below is one load, one store
or one access to a cell, and the two threads take their steps in any order.
-/
namespace SimpleRedis.SPSC

open TransitionRun RingIndex

variable {T : Type*}

/-- Where the producer is in `push`: outside, before the load of the tail, before the item
is stored, before the head is stored. -/
inductive Push (T : Type*) where
  | idle
  | loadTail (item : T) (head : ℕ)
  | write (item : T) (head : ℕ)
  | storeHead (item : T) (head : ℕ)

/-- Where the consumer is in `pop`: outside, before the load of the head, before the item
is moved out, before the tail is stored. -/
inductive Pop (T : Type*) where
  | idle
  | loadHead (tail : ℕ)
  | read (tail : ℕ)
  | storeTail (tail : ℕ) (item : Option T)

/-- The queue and its threads. A cell that holds no item, or from which it was moved out,
is `none`. The results of the calls are kept in their order; a `pop` that returns false has
the result `none`. -/
structure LockFreeQueue (T : Type*) where
  head : ℕ := 0
  tail : ℕ := 0
  data : ℕ → Option T := fun _ => none
  push : Push T := .idle
  pop : Pop T := .idle
  pushResults : List (T × Bool) := []
  popResults : List (Option (Option T)) := []

/-- Who takes the next step. A call begins with its first load. -/
inductive Act (T : Type*) where
  | call (item : T)
  | producer
  | consumer

namespace LockFreeQueue

/-- The items whose `push` has returned true. -/
def pushed (s : LockFreeQueue T) : List T := (s.pushResults.filter (·.2)).map (·.1)

/-- The items that `pop` has given out. -/
def popped (s : LockFreeQueue T) : List (Option T) := s.popResults.filterMap id

section Step

variable (cap : ℕ)

def stepProducer (s : LockFreeQueue T) : Option (LockFreeQueue T) :=
  match s.push with
  | .idle => none
  | .loadTail item head =>
      if (head + 1) % cap = s.tail then
        some { s with push := .idle, pushResults := s.pushResults ++ [(item, false)] }
      else some { s with push := .write item head }
  | .write item head =>
      some { s with data := Function.update s.data head (some item), push := .storeHead item head }
  | .storeHead item head =>
      some { s with
        head := (head + 1) % cap
        push := .idle
        pushResults := s.pushResults ++ [(item, true)] }

def stepConsumer (s : LockFreeQueue T) : LockFreeQueue T :=
  match s.pop with
  | .idle => { s with pop := .loadHead s.tail }
  | .loadHead tail =>
      if tail = s.head then { s with pop := .idle, popResults := s.popResults ++ [none] }
      else { s with pop := .read tail }
  | .read tail =>
      { s with data := Function.update s.data tail none, pop := .storeTail tail (s.data tail) }
  | .storeTail tail item =>
      { s with
        tail := (tail + 1) % cap
        pop := .idle
        popResults := s.popResults ++ [some item] }

def step (s : LockFreeQueue T) : Act T → Option (LockFreeQueue T)
  | .call item =>
      match s.push with
      | .idle => some { s with push := .loadTail item s.head }
      | _ => none
  | .producer => s.stepProducer cap
  | .consumer => some (s.stepConsumer cap)

end Step

end LockFreeQueue

/-- The queue is a bounded FIFO. The last two say what was so in the middle of a call that
is about to return false. -/
structure Fifo (cap : ℕ) (s : LockFreeQueue T) : Prop where
  ordered : s.popped <+: s.pushed.map some
  bounded : s.pushed.length ≤ s.popped.length + (cap - 1)
  writes : ∀ item head, s.push = .write item head →
    s.data head = none ∧
      ∀ k, s.popped.length ≤ k → k < s.pushed.length → k % cap ≠ head
  reads : ∀ tail, s.pop = .read tail → ∃ item, s.data tail = some item
  refused : ∀ item s', s.step cap .producer = some s' →
    s'.pushResults = s.pushResults ++ [(item, false)] →
    s.push ≠ .idle ∧ s.pushed.length = s.popped.length + (cap - 1)
  starved : ∀ s', s.step cap .consumer = some s' → s'.popResults = s.popResults ++ [none] →
    s.pop ≠ .idle ∧ s.pushed.length = s.popped.length

/-- The item that is in its cell while the head has not moved. -/
def Push.entering : Push T → List T
  | .storeHead item _ => [item]
  | _ => []

/-- The item that is out of its cell while the tail has not moved. -/
def Pop.leaving : Pop T → List (Option T)
  | .storeTail _ item => [item]
  | _ => []

section Invariant

/-- What the producer has found out so far. -/
def Writer (cap : ℕ) (s : LockFreeQueue T) : Prop :=
  match s.push with
  | .idle => True
  | .loadTail _ head | .storeHead _ head => head = s.head
  | .write _ head => head = s.head ∧ s.pushed.length + 1 < s.popped.length + cap

/-- What the consumer has found out so far. -/
def Reader (s : LockFreeQueue T) : Prop :=
  match s.pop with
  | .idle => True
  | .loadHead tail | .storeTail tail _ => tail = s.tail
  | .read tail => tail = s.tail ∧ s.popped.length < s.pushed.length

/-- The invariant of the queue: the indices count what has gone in and out, and the cells
hold what lies between, where an item has gone in when it is in its cell and has left when
it is out of it. -/
structure Ok (cap : ℕ) (s : LockFreeQueue T) : Prop where
  head : s.head = s.pushed.length % cap
  tail : s.tail = s.popped.length % cap
  room : s.pushed.length + s.push.entering.length < s.popped.length + cap
  left : s.popped.length + s.pop.leaving.length ≤ s.pushed.length
  ordered : s.popped ++ s.pop.leaving =
    (s.pushed.take (s.popped.length + s.pop.leaving.length)).map some
  window : Window cap s.data (s.pushed ++ s.push.entering)
    (s.popped.length + s.pop.leaving.length)
  writer : Writer cap s
  reader : Reader s

variable {cap : ℕ} {s s' : LockFreeQueue T}

theorem ok_fresh (hcap : 0 < cap) : Ok cap ({} : LockFreeQueue T) where
  head := (Nat.zero_mod cap).symm
  tail := (Nat.zero_mod cap).symm
  room := by simpa [LockFreeQueue.pushed, LockFreeQueue.popped, Push.entering] using hcap
  left := le_rfl
  ordered := rfl
  window := Window.empty cap
  writer := trivial
  reader := trivial

/-- Head and tail are compared in the cells of a window that is not full. -/
theorem Ok.lt (h : Ok cap s) : s.pushed.length < s.popped.length + cap := by
  have := h.room
  omega

theorem Ok.le (h : Ok cap s) : s.popped.length ≤ s.pushed.length := by
  have := h.left
  omega

theorem Ok.full_iff (h : Ok cap s) :
    (s.head + 1) % cap = s.tail ↔ s.pushed.length + 1 = s.popped.length + cap := by
  rw [h.head, h.tail, RingIndex.full_iff h.le h.lt]

theorem Ok.empty_iff (h : Ok cap s) : s.tail = s.head ↔ s.popped.length = s.pushed.length := by
  rw [h.head, h.tail, RingIndex.empty_iff h.le h.lt]

/-- A step of the producer that touches neither the ring nor the results. -/
theorem Ok.setPush (h : Ok cap s) {push : Push T} (hentering : push.entering = s.push.entering)
    (hwriter : Writer cap { s with push := push }) : Ok cap { s with push := push } where
  head := h.head
  tail := h.tail
  room := by rw [hentering]; exact h.room
  left := h.left
  ordered := h.ordered
  window := by rw [hentering]; exact h.window
  writer := hwriter
  reader := h.reader

/-- A step of the consumer that touches neither the ring nor the results. -/
theorem Ok.setPop (h : Ok cap s) {pop : Pop T} (hleaving : pop.leaving = s.pop.leaving)
    (hreader : Reader { s with pop := pop }) : Ok cap { s with pop := pop } where
  head := h.head
  tail := h.tail
  room := h.room
  left := by rw [hleaving]; exact h.left
  ordered := by rw [hleaving]; exact h.ordered
  window := by rw [hleaving]; exact h.window
  writer := h.writer
  reader := hreader

@[simp] theorem pushed_append (s : LockFreeQueue T) (push : Push T) (head : ℕ) (item : T)
    (success : Bool) :
    ({ s with head := head, push := push, pushResults := s.pushResults ++ [(item, success)] } :
      LockFreeQueue T).pushed = s.pushed ++ if success then [item] else [] := by
  cases success <;> simp [LockFreeQueue.pushed]

@[simp] theorem popped_append (s : LockFreeQueue T) (pop : Pop T) (tail : ℕ)
    (result : Option (Option T)) :
    ({ s with tail := tail, pop := pop, popResults := s.popResults ++ [result] } :
      LockFreeQueue T).popped = s.popped ++ result.toList := by
  cases result <;> simp [LockFreeQueue.popped]

/-- A `push` that returns false leaves the queue as it was. -/
theorem Ok.refuse (h : Ok cap s) (hentering : s.push.entering = []) (item : T) :
    Ok cap { s with push := .idle, pushResults := s.pushResults ++ [(item, false)] } := by
  have hpushed := pushed_append s .idle s.head item false
  simp only [Bool.false_eq_true, if_false, List.append_nil] at hpushed
  have hset : Ok cap { s with push := .idle } := h.setPush hentering.symm trivial
  exact {
    head := by rw [hpushed]; exact hset.head
    tail := hset.tail
    room := by rw [hpushed]; exact hset.room
    left := by rw [hpushed]; exact hset.left
    ordered := by rw [hpushed]; exact hset.ordered
    window := by rw [hpushed]; exact hset.window
    writer := trivial
    reader := by
      unfold Reader
      rw [hpushed]
      exact hset.reader }

/-- A `pop` that returns false leaves the queue as it was. -/
theorem Ok.starve (h : Ok cap s) (hleaving : s.pop.leaving = []) :
    Ok cap { s with pop := .idle, popResults := s.popResults ++ [none] } := by
  have hpopped := popped_append s .idle s.tail none
  simp only [Option.toList_none, List.append_nil] at hpopped
  have hset : Ok cap { s with pop := .idle } := h.setPop hleaving.symm trivial
  exact {
    head := hset.head
    tail := by rw [hpopped]; exact hset.tail
    room := by rw [hpopped]; exact hset.room
    left := by rw [hpopped]; exact hset.left
    ordered := by rw [hpopped]; exact hset.ordered
    window := by rw [hpopped]; exact hset.window
    writer := by
      unfold Writer
      rw [hpopped]
      exact hset.writer
    reader := trivial }

section Cells

variable {item : T} {head tail : ℕ} {out : Option T}

/-- The item goes into a cell that is empty. -/
theorem Ok.write (h : Ok cap s) (hpush : s.push = .write item head) :
    Ok cap { s with
      data := Function.update s.data head (some item), push := .storeHead item head } := by
  have hwriter := h.writer
  have hwindow := h.window
  have hleft := h.left
  simp only [Writer, hpush] at hwriter
  simp only [hpush, Push.entering, List.append_nil] at hwindow
  obtain ⟨rfl, hroom⟩ := hwriter
  have hput := hwindow.put (by omega) item
  rw [← h.head] at hput
  exact {
    head := h.head
    tail := h.tail
    room := hroom
    left := h.left
    ordered := h.ordered
    window := hput
    writer := rfl
    reader := h.reader }

/-- The head moves over the item that is in its cell. -/
theorem Ok.storeHead (h : Ok cap s) (hpush : s.push = .storeHead item head) :
    Ok cap { s with
      head := (head + 1) % cap, push := .idle,
      pushResults := s.pushResults ++ [(item, true)] } := by
  have hpushed := pushed_append s .idle ((head + 1) % cap) item true
  have hwriter := h.writer
  have hroom := h.room
  have hwindow := h.window
  simp only [if_true] at hpushed
  simp only [Writer, hpush] at hwriter
  simp only [hpush, Push.entering, List.length_singleton] at hroom hwindow
  have hlen : (s.pushed ++ [item]).length = s.pushed.length + 1 := List.length_append
  have hhead : (head + 1) % cap = (s.pushed.length + 1) % cap := by
    rw [hwriter, h.head, RingIndex.succ_mod]
  have hordered : s.popped ++ s.pop.leaving =
      ((s.pushed ++ [item]).take (s.popped.length + s.pop.leaving.length)).map some := by
    rw [List.take_append_of_le_length h.left]
    exact h.ordered
  rw [← List.append_nil (s.pushed ++ [item])] at hwindow
  exact {
    head := by rw [hpushed, hlen]; exact hhead
    tail := h.tail
    room := by rw [hpushed, hlen]; exact hroom
    left := by rw [hpushed, hlen]; exact Nat.le_succ_of_le h.left
    ordered := by rw [hpushed]; exact hordered
    window := by rw [hpushed]; exact hwindow
    writer := trivial
    reader := by
      have hreader := h.reader
      unfold Reader at hreader ⊢
      rw [hpushed, hlen]
      cases hpop : s.pop with
      | idle => trivial
      | loadHead tail | storeTail tail out =>
          rw [hpop] at hreader
          exact hreader
      | read tail =>
          rw [hpop] at hreader
          exact ⟨hreader.1, Nat.lt_succ_of_lt hreader.2⟩ }

/-- The next item in its cell, while the consumer is about to take it. -/
theorem Ok.front (h : Ok cap s) (hpop : s.pop = .read tail) :
    ∃ item, s.pushed[s.popped.length]? = some item ∧ s.data tail = some item := by
  have hreader := h.reader
  have hwindow := h.window
  simp only [Reader, hpop] at hreader
  simp only [hpop, Pop.leaving, List.length_nil, Nat.add_zero] at hwindow
  obtain ⟨htail, hlt⟩ := hreader
  have hitem := List.getElem?_eq_getElem hlt
  refine ⟨_, hitem, ?_⟩
  rw [htail, h.tail]
  exact hwindow.entry _ _ le_rfl (by rw [List.getElem?_append_left hlt, hitem])

/-- The item is moved out of its cell. -/
theorem Ok.read (h : Ok cap s) (hpop : s.pop = .read tail) :
    Ok cap { s with
      data := Function.update s.data tail none, pop := .storeTail tail (s.data tail) } := by
  obtain ⟨item, hitem, hdata⟩ := h.front hpop
  have hreader := h.reader
  have hordered := h.ordered
  have hwindow := h.window
  simp only [Reader, hpop] at hreader
  simp only [hpop, Pop.leaving, List.length_nil, Nat.add_zero, List.append_nil] at hordered hwindow
  have htake := hwindow.take (by rw [List.length_append]; omega)
  rw [← h.tail, ← hreader.1] at htake
  have hnext : s.popped ++ [s.data tail] = (s.pushed.take (s.popped.length + 1)).map some := by
    rw [List.take_add_one, hitem, hdata, List.map_append]
    exact congrArg (· ++ [some item]) hordered
  exact {
    head := h.head
    tail := h.tail
    room := h.room
    left := hreader.2
    ordered := hnext
    window := htake
    writer := h.writer
    reader := hreader.1 }

/-- The tail moves over the cell whose item is out. -/
theorem Ok.storeTail (h : Ok cap s) (hpop : s.pop = .storeTail tail out) :
    Ok cap { s with
      tail := (tail + 1) % cap, pop := .idle, popResults := s.popResults ++ [some out] } := by
  have hpopped := popped_append s .idle ((tail + 1) % cap) (some out)
  have hreader := h.reader
  have hleft := h.left
  have hordered := h.ordered
  have hwindow := h.window
  simp only [Option.toList_some] at hpopped
  simp only [Reader, hpop] at hreader
  simp only [hpop, Pop.leaving, List.length_singleton] at hleft hordered hwindow
  have hlen : (s.popped ++ [out]).length = s.popped.length + 1 := List.length_append
  have htail : (tail + 1) % cap = (s.popped.length + 1) % cap := by
    rw [hreader, h.tail, RingIndex.succ_mod]
  have hroom := h.room
  exact {
    head := h.head
    tail := by rw [hpopped, hlen]; exact htail
    room := by rw [hpopped, hlen]; exact hroom.trans (by omega)
    left := by rw [hpopped, hlen]; exact hleft
    ordered := by
      rw [hpopped, hlen]
      exact (List.append_nil _).trans hordered
    window := by rw [hpopped, hlen]; exact hwindow
    writer := by
      have hwriter := h.writer
      unfold Writer at hwriter ⊢
      rw [hpopped, hlen]
      cases hpush : s.push with
      | idle => trivial
      | loadTail item head | storeHead item head =>
          rw [hpush] at hwriter
          exact hwriter
      | write item head =>
          rw [hpush] at hwriter
          exact ⟨hwriter.1, hwriter.2.trans (by omega)⟩
    reader := trivial }

end Cells

theorem Ok.stepProducer (h : Ok cap s) (hstep : s.stepProducer cap = some s') : Ok cap s' := by
  unfold LockFreeQueue.stepProducer at hstep
  cases hpush : s.push with
  | idle =>
      rw [hpush] at hstep
      cases hstep
  | loadTail item head =>
      have hwriter := h.writer
      simp only [Writer, hpush] at hwriter
      simp only [hpush] at hstep
      split at hstep
      · cases hstep
        exact h.refuse (by rw [hpush]; rfl) item
      · rename_i hnext
        cases hstep
        refine h.setPush (by rw [hpush]; rfl) ⟨hwriter, ?_⟩
        rw [hwriter, h.full_iff] at hnext
        have := h.lt
        exact lt_of_le_of_ne this hnext
  | write item head =>
      rw [hpush] at hstep
      cases hstep
      exact h.write hpush
  | storeHead item head =>
      rw [hpush] at hstep
      cases hstep
      exact h.storeHead hpush

theorem Ok.stepConsumer (h : Ok cap s) : Ok cap (s.stepConsumer cap) := by
  unfold LockFreeQueue.stepConsumer
  cases hpop : s.pop with
  | idle => exact h.setPop (by rw [hpop]; rfl) rfl
  | loadHead tail =>
      have hreader := h.reader
      simp only [Reader, hpop] at hreader
      simp only
      split
      · exact h.starve (by rw [hpop]; rfl)
      · rename_i hne
        refine h.setPop (by rw [hpop]; rfl) ⟨hreader, ?_⟩
        rw [hreader, h.empty_iff] at hne
        exact lt_of_le_of_ne h.le hne
  | read tail => exact h.read hpop
  | storeTail tail out => exact h.storeTail hpop

theorem Ok.step (h : Ok cap s) {a : Act T} (hstep : s.step cap a = some s') : Ok cap s' := by
  cases a with
  | call item =>
      simp only [LockFreeQueue.step] at hstep
      split at hstep
      · rename_i hpush
        cases hstep
        exact h.setPush (by rw [hpush]; rfl) rfl
      · cases hstep
  | producer => exact h.stepProducer hstep
  | consumer =>
      cases hstep
      exact h.stepConsumer

theorem ok_of_reachable (hcap : 0 < cap) (h : Reachable (LockFreeQueue.step cap) {} s) :
    Ok cap s :=
  h.invariant (fun _ _ _ hok hstep => hok.step hstep) (ok_fresh hcap)

end Invariant

section Fifo

variable {cap : ℕ} {s : LockFreeQueue T}

/-- The cell that the producer is about to fill is none of those in use. -/
theorem Ok.writes (h : Ok cap s) {item : T} {head : ℕ} (hpush : s.push = .write item head) :
    s.data head = none ∧ ∀ k, s.popped.length ≤ k → k < s.pushed.length → k % cap ≠ head := by
  have hwriter := h.writer
  have hwindow := h.window
  simp only [Writer, hpush] at hwriter
  simp only [hpush, Push.entering, List.append_nil] at hwindow
  obtain ⟨hhead, hroom⟩ := hwriter
  rw [hhead, h.head]
  refine ⟨hwindow.free _ le_rfl (by omega), fun k hk hlt heq => ?_⟩
  have := RingIndex.eq_of_mod_eq hk (by omega) h.le h.lt heq
  omega

/-- A `push` that is about to return false has looked at a full ring. -/
theorem Ok.refused (h : Ok cap s) {item : T} {s' : LockFreeQueue T}
    (hstep : s.step cap .producer = some s')
    (hresult : s'.pushResults = s.pushResults ++ [(item, false)]) :
    s.push ≠ .idle ∧ s.pushed.length = s.popped.length + (cap - 1) := by
  simp only [LockFreeQueue.step, LockFreeQueue.stepProducer] at hstep
  cases hpush : s.push with
  | idle =>
      rw [hpush] at hstep
      cases hstep
  | loadTail item' head =>
      have hwriter := h.writer
      simp only [Writer, hpush] at hwriter
      simp only [hpush] at hstep
      split at hstep
      · rename_i hnext
        rw [hwriter, h.full_iff] at hnext
        have hle := h.le
        exact ⟨by simp, by omega⟩
      · cases hstep
        simp at hresult
  | write item' head =>
      rw [hpush] at hstep
      cases hstep
      simp at hresult
  | storeHead item' head =>
      rw [hpush] at hstep
      cases hstep
      simp at hresult

/-- A `pop` that is about to return false has looked at an empty ring. -/
theorem Ok.starved (h : Ok cap s) {s' : LockFreeQueue T} (hstep : s.step cap .consumer = some s')
    (hresult : s'.popResults = s.popResults ++ [none]) :
    s.pop ≠ .idle ∧ s.pushed.length = s.popped.length := by
  simp only [LockFreeQueue.step, LockFreeQueue.stepConsumer, Option.some.injEq] at hstep
  cases hpop : s.pop with
  | idle | read tail =>
      rw [hpop] at hstep
      subst hstep
      simp at hresult
  | storeTail tail out =>
      rw [hpop] at hstep
      subst hstep
      simp at hresult
  | loadHead tail =>
      have hreader := h.reader
      simp only [Reader, hpop] at hreader
      simp only [hpop] at hstep
      split at hstep
      · rename_i heq
        rw [hreader, h.empty_iff] at heq
        exact ⟨by simp, heq.symm⟩
      · subst hstep
        simp at hresult

/-- One producer and one consumer: in every state that some interleaving of their steps
leads to, the queue is a bounded FIFO. -/
theorem fifo_of_reachable {cap : ℕ} (hcap : 2 ≤ cap) {s : LockFreeQueue T}
    (h : Reachable (LockFreeQueue.step cap) {} s) : Fifo cap s := by
  have hok := ok_of_reachable (by omega) h
  refine ⟨?_, ?_, fun _ _ => hok.writes, fun tail hpop => ?_, fun _ _ => hok.refused,
    fun _ => hok.starved⟩
  · refine (List.prefix_append s.popped s.pop.leaving).trans ?_
    rw [hok.ordered]
    exact (List.take_prefix _ _).map some
  · have := hok.lt
    omega
  · obtain ⟨item, -, hdata⟩ := hok.front hpop
    exact ⟨item, hdata⟩

/-- A ring of two cells: a push, a pop and a push that meets a full ring. -/
theorem fifo_of_reachable_two :
    ∃ s : LockFreeQueue ℕ, Reachable (LockFreeQueue.step 2) {} s ∧ Fifo 2 s ∧
      s.pushResults = [(5, true), (6, true), (7, false)] ∧ s.popResults = [some (some 5)] := by
  have hrun : run (LockFreeQueue.step 2) ({} : LockFreeQueue ℕ)
      [.call 5, .producer, .producer, .producer, .consumer, .consumer, .consumer, .consumer,
        .call 6, .producer, .producer, .producer, .call 7, .producer] =
      some { head := 0, tail := 1, data := _, pushResults := [(5, true), (6, true), (7, false)],
             popResults := [some (some 5)] } := rfl
  exact ⟨_, ⟨_, hrun⟩, fifo_of_reachable (by decide) ⟨_, hrun⟩, rfl, rfl⟩

end Fifo

end SimpleRedis.SPSC
