import SimpleRedis.RingIndex
import SimpleRedis.TransitionRun
import Mathlib.Data.List.Basic

/-!
# The queue of an event loop

`MPSCQueue` is a ring with any number of producers and one consumer. A producer
reserves a cell by moving the head with a compare-exchange; it has looked at the
tail before, but not in the same atomic step. The queue is a bounded FIFO in exactly
the runs in which the ring is not full when a compare-exchange succeeds.
-/
namespace SimpleRedis.MPSC

open TransitionRun

variable {P T : Type*}

/-- A cell of the ring. An item that was moved out is `none`. -/
structure Slot (T : Type*) where
  seq : ℕ
  item : Option T

/-- Where a producer is in `push`: outside, before the load of the tail, before the
compare-exchange, before the item is stored, before the number is stored. -/
inductive Push (T : Type*) where
  | idle
  | check (item : T) (head : ℕ)
  | cas (item : T) (head : ℕ)
  | write (item : T) (head : ℕ)
  | publish (item : T) (head : ℕ)

/-- Where the consumer is in `pop`. -/
inductive Pop (T : Type*) where
  | idle
  | loadHead (tail : ℕ)
  | loadSeq (tail : ℕ)
  | take (tail : ℕ)
  | clear (tail : ℕ) (item : Option T)
  | advance (tail : ℕ) (item : Option T)

/-- The queue and its threads. `won` has the items in the order of the successful
compare-exchanges, `popped` what `pop` has given out, and `results` what each
producer's calls have returned; the code has none of the three. -/
structure MPSCQueue (P T : Type*) where
  head : ℕ
  tail : ℕ
  data : ℕ → Slot T
  push : P → Push T
  pop : Pop T
  won : List (P × T)
  popped : List (Option T)
  results : P → List (T × Bool)

/-- A thread's next atomic step. `weak` is a compare-exchange that fails without a
reason. -/
inductive Act (P T : Type*) where
  | call (p : P) (item : T)
  | producer (p : P) (weak : Bool)
  | consumer

/-- `INVALID_INDEX`. -/
def invalidIndex (cap : ℕ) : ℕ := cap + 1

namespace MPSCQueue

def fresh (cap : ℕ) : MPSCQueue P T where
  head := 0
  tail := 0
  data _ := { seq := invalidIndex cap, item := none }
  push _ := .idle
  pop := .idle
  won := []
  popped := []
  results _ := []

section Step

variable [DecidableEq P] (cap : ℕ)

def setPush (s : MPSCQueue P T) (p : P) (pc : Push T) : MPSCQueue P T :=
  { s with push := Function.update s.push p pc }

/-- The return of a `push`. -/
def returned (s : MPSCQueue P T) (p : P) (item : T) (success : Bool) : MPSCQueue P T :=
  { s with
    push := Function.update s.push p .idle
    results := Function.update s.results p (s.results p ++ [(item, success)]) }

def setSlot (s : MPSCQueue P T) (i : ℕ) (slot : Slot T) : MPSCQueue P T :=
  { s with data := Function.update s.data i slot }

/-- The compare-exchange has moved the head. -/
def win (s : MPSCQueue P T) (p : P) (item : T) : MPSCQueue P T :=
  { s with
    head := (s.head + 1) % cap
    won := s.won ++ [(p, item)]
    push := Function.update s.push p (.write item s.head) }

/-- The item is in its cell. -/
def store (s : MPSCQueue P T) (p : P) (item : T) (head : ℕ) : MPSCQueue P T :=
  (s.setSlot head { s.data head with item := some item }).setPush p (.publish item head)

/-- The cell has its number, and the call returns. -/
def publish (s : MPSCQueue P T) (p : P) (item : T) (head : ℕ) : MPSCQueue P T :=
  (s.setSlot head { s.data head with seq := head }).returned p item true

def stepProducer (s : MPSCQueue P T) (p : P) (weak : Bool) : Option (MPSCQueue P T) :=
  match s.push p with
  | .idle => none
  | .check item head =>
      if (head + 1) % cap = s.tail then some (s.returned p item false)
      else some (s.setPush p (.cas item head))
  | .cas item head =>
      if s.head = head ∧ weak = false then
        some (s.win cap p item)
      else some (s.setPush p (.check item s.head))
  | .write item head => some (s.store p item head)
  | .publish item head => some (s.publish p item head)

def stepConsumer (s : MPSCQueue P T) : MPSCQueue P T :=
  match s.pop with
  | .idle => { s with pop := .loadHead s.tail }
  | .loadHead tail => { s with pop := if tail = s.head then .idle else .loadSeq tail }
  | .loadSeq tail =>
      if (s.data tail).seq = invalidIndex cap then s else { s with pop := .take tail }
  | .take tail =>
      { s.setSlot tail { s.data tail with item := none } with
        pop := .clear tail (s.data tail).item }
  | .clear tail item =>
      { s.setSlot tail { s.data tail with seq := invalidIndex cap } with
        pop := .advance tail item }
  | .advance tail item =>
      { s with tail := (tail + 1) % cap, pop := .idle, popped := s.popped ++ [item] }

def step (s : MPSCQueue P T) : Act P T → Option (MPSCQueue P T)
  | .call p item =>
      match s.push p with
      | .idle => some (s.setPush p (.check item s.head))
      | _ => none
  | .producer p weak => s.stepProducer cap p weak
  | .consumer => some (s.stepConsumer cap)

end Step

end MPSCQueue

/-- The item and the cell of a producer that has won the compare-exchange and is not
done with the cell. -/
def Push.reserved : Push T → Option (T × ℕ)
  | .write item head | .publish item head => some (item, head)
  | .idle | .check _ _ | .cas _ _ => none

/-- The consumer has moved the item out of its cell but not yet moved the tail. -/
def Pop.taken : Pop T → Bool
  | .clear _ _ | .advance _ _ => true
  | _ => false

/-- The queue is a bounded FIFO. `bounded` and `ordered` speak of every moment, the
others of the calls that have returned. -/
structure Fifo [DecidableEq P] (cap : ℕ) (s : MPSCQueue P T) : Prop where
  bounded : s.won.length ≤ s.popped.length + (cap - 1)
  ordered : s.popped = (s.won.take s.popped.length).map (some ·.2)
  pushed : ∀ p, s.push p = .idle →
    (s.won.filter (·.1 = p)).map (·.2) = ((s.results p).filter (·.2)).map (·.1)
  empty : (∀ p, s.push p = .idle) → s.pop = .loadHead s.head → s.popped.length = s.won.length
  drains : (∀ p, s.push p = .idle) → s.pop = .idle →
    ∃ n s', run (MPSCQueue.step cap) s (List.replicate n .consumer) = some s' ∧
      s'.popped = s.won.map (some ·.2) ∧ s'.pop = .idle

/-- The ring is not full when a compare-exchange succeeds. -/
def ReservesWithRoom (cap : ℕ) (s : MPSCQueue P T) : Act P T → Prop
  | .producer p false =>
      ∀ item, s.push p = .cas item s.head → (s.head + 1) % cap ≠ s.tail
  | _ => True

/-- Two states that differ in nothing that another thread can see. -/
structure SameQueue (s s' : MPSCQueue P T) : Prop where
  head : s'.head = s.head
  tail : s'.tail = s.tail
  data : s'.data = s.data

section Invariant

variable (cap : ℕ)

/-- Head and tail count the items won and popped. -/
structure Indices (s : MPSCQueue P T) : Prop where
  le : s.popped.length ≤ s.won.length
  room : s.won.length < s.popped.length + cap
  head : s.head = s.won.length % cap
  tail : s.tail = s.popped.length % cap
  ordered : s.popped = (s.won.take s.popped.length).map (some ·.2)

/-- What a producer has won is what its calls have returned true for, and the item it
is storing. -/
def Ledger [DecidableEq P] (s : MPSCQueue P T) : Prop :=
  ∀ p, (s.won.filter (·.1 = p)).map (·.2) =
    ((s.results p).filter (·.2)).map (·.1) ++ ((s.push p).reserved.map Prod.fst).toList

/-- The cells from the tail on: those of the entries that are won and not popped are
owned by their producers or published, the others are free. -/
structure Cells (s : MPSCQueue P T) : Prop where
  owner : ∀ p item head, (s.push p).reserved = some (item, head) →
    ∃ k, s.popped.length ≤ k ∧ s.won[k]? = some (p, item) ∧ head = k % cap ∧
      (s.data head).seq = invalidIndex cap ∧ (s.pop.taken → k ≠ s.popped.length)
  stored : ∀ p item head, s.push p = .publish item head → (s.data head).item = some item
  entry : ∀ k p item, s.popped.length ≤ k → s.won[k]? = some (p, item) →
    (s.push p).reserved = some (item, k % cap) ∨ (s.pop.taken ∧ k = s.popped.length) ∨
      (s.data (k % cap)).seq ≠ invalidIndex cap ∧ (s.data (k % cap)).item = some item
  future : ∀ k, s.won.length ≤ k → k < s.popped.length + cap →
    (s.data (k % cap)).seq = invalidIndex cap

/-- What the consumer has found out so far. -/
def Reader (s : MPSCQueue P T) : Prop :=
  match s.pop with
  | .idle => True
  | .loadHead tail => tail = s.tail
  | .loadSeq tail => tail = s.tail ∧ s.popped.length < s.won.length
  | .take tail =>
      tail = s.tail ∧ s.popped.length < s.won.length ∧ (s.data tail).seq ≠ invalidIndex cap
  | .clear tail item =>
      tail = s.tail ∧ (s.won[s.popped.length]?).map (some ·.2) = some item ∧
        (s.data tail).seq ≠ invalidIndex cap
  | .advance tail item =>
      tail = s.tail ∧ (s.won[s.popped.length]?).map (some ·.2) = some item ∧
        (s.data tail).seq = invalidIndex cap

/-- The invariant of the queue. -/
structure Ok [DecidableEq P] (s : MPSCQueue P T) : Prop where
  indices : Indices cap s
  ledger : Ledger s
  cells : Cells cap s
  reader : Reader cap s

variable {cap} {s : MPSCQueue P T}

theorem lt_of_getElem?_eq_some {α : Type*} {xs : List α} {k : ℕ} {x : α} (h : xs[k]? = some x) :
    k < xs.length := (List.getElem?_eq_some_iff.mp h).1

theorem Reader.lt_of_taken (h : Reader cap s) (htaken : s.pop.taken = true) :
    s.popped.length < s.won.length := by
  unfold Reader at h
  cases hpop : s.pop with
  | idle | loadHead | loadSeq | take =>
      rw [hpop] at htaken
      cases htaken
  | clear tail item | advance tail item =>
      rw [hpop] at h
      obtain ⟨x, hx, -⟩ := Option.map_eq_some_iff.mp h.2.1
      exact lt_of_getElem?_eq_some hx

variable [DecidableEq P]

theorem ok_fresh (hcap : 0 < cap) : Ok cap (MPSCQueue.fresh cap : MPSCQueue P T) where
  indices := ⟨le_rfl, by simpa [MPSCQueue.fresh] using hcap, (Nat.zero_mod cap).symm,
    (Nat.zero_mod cap).symm, rfl⟩
  ledger _ := rfl
  cells := ⟨fun _ _ _ h => (nomatch h), fun _ _ _ h => (nomatch h), fun _ _ _ _ h => by
    simp [MPSCQueue.fresh] at h, fun _ _ _ => rfl⟩
  reader := trivial

/-- Two producers own different cells. -/
theorem Ok.cell_ne (h : Ok cap s) {p q : P} {item item' : T} {head head' : ℕ} (hne : p ≠ q)
    (hp : (s.push p).reserved = some (item, head))
    (hq : (s.push q).reserved = some (item', head')) : head ≠ head' := by
  obtain ⟨k, hk, hwon, rfl, -, -⟩ := h.cells.owner p item head hp
  obtain ⟨k', hk', hwon', rfl, -, -⟩ := h.cells.owner q item' head' hq
  intro heq
  have hlt := lt_of_getElem?_eq_some hwon
  have hlt' := lt_of_getElem?_eq_some hwon'
  have hroom := h.indices.room
  cases RingIndex.eq_of_mod_eq hk (by omega) hk' (by omega) heq
  rw [hwon] at hwon'
  exact hne (Prod.mk.inj (Option.some.inj hwon')).1

/-- A step of a producer that owns no cell before or after it. -/
theorem Ok.setPush (h : Ok cap s) {p : P} (pc : Push T) (hold : (s.push p).reserved = none)
    (hpc : pc.reserved = none) : Ok cap (s.setPush p pc) := by
  have hsame : ∀ q, (Function.update s.push p pc q).reserved = (s.push q).reserved := by
    intro q
    by_cases hq : q = p
    · subst hq
      rw [Function.update_self, hpc, hold]
    · rw [Function.update_of_ne hq]
  refine ⟨⟨h.indices.le, h.indices.room, h.indices.head, h.indices.tail, h.indices.ordered⟩,
    fun q => ?_, ⟨?_, ?_, ?_, h.cells.future⟩, h.reader⟩
  · simp only [MPSCQueue.setPush, hsame]
    exact h.ledger q
  · simp only [MPSCQueue.setPush, hsame]
    exact h.cells.owner
  · intro q item head hq
    refine h.cells.stored q item head ?_
    by_cases hqp : q = p
    · subst hqp
      have hpublish : pc = .publish item head := by simpa [MPSCQueue.setPush] using hq
      rw [hpublish] at hpc
      cases hpc
    · rw [← hq]
      exact (Function.update_of_ne hqp _ _).symm
  · simp only [MPSCQueue.setPush, hsame]
    exact h.cells.entry

/-- A refused push changes the results of its producer only. -/
theorem Ok.refuse (h : Ok cap s) {p : P} (item : T) (hold : (s.push p).reserved = none) :
    Ok cap (s.returned p item false) := by
  obtain ⟨hindices, hledger, hcells, hreader⟩ := h.setPush .idle hold rfl
  refine ⟨⟨hindices.le, hindices.room, hindices.head, hindices.tail, hindices.ordered⟩,
    fun q => ?_, ⟨hcells.owner, hcells.stored, hcells.entry, hcells.future⟩, hreader⟩
  refine (hledger q).trans ?_
  by_cases hq : q = p
  · subst hq
    simp [MPSCQueue.returned, MPSCQueue.setPush]
  · simp [MPSCQueue.returned, MPSCQueue.setPush, hq]

theorem filter_won_append (s : MPSCQueue P T) (p q : P) (item : T) :
    ((s.won ++ [(p, item)]).filter (·.1 = q)).map (·.2) =
      (s.won.filter (·.1 = q)).map (·.2) ++ if q = p then [item] else [] := by
  rw [List.filter_append, List.map_append]
  by_cases hq : q = p
  · simp [hq]
  · simp [hq, Ne.symm hq]

section Win

variable {p : P} {item : T}

theorem getElem?_win {k : ℕ} {x : P × T} (hk : s.won[k]? = some x) :
    (s.win cap p item).won[k]? = some x := by
  rw [MPSCQueue.win, List.getElem?_append_left (lt_of_getElem?_eq_some hk), hk]

theorem length_win : (s.win cap p item).won.length = s.won.length + 1 :=
  List.length_append

theorem Indices.win (h : Indices cap s) (hroom : (s.head + 1) % cap ≠ s.tail) :
    Indices cap (s.win cap p item) := by
  obtain ⟨hle, hlt, hhead, htail, hordered⟩ := h
  rw [hhead, htail, ne_eq, RingIndex.full_iff hle hlt] at hroom
  refine ⟨?_, ?_, ?_, htail, ?_⟩
  · rw [length_win]
    exact Nat.le_succ_of_le hle
  · rw [length_win]
    simp only [MPSCQueue.win]
    omega
  · rw [length_win, ← RingIndex.succ_mod, ← hhead]
    rfl
  · simp only [MPSCQueue.win, List.take_append_of_le_length hle]
    exact hordered

theorem Ledger.win (h : Ledger s) (hnone : (s.push p).reserved = none) :
    Ledger (s.win cap p item) := by
  intro q
  have hq := h q
  simp only [MPSCQueue.win, filter_won_append]
  by_cases hqp : q = p
  · subst hqp
    rw [hnone] at hq
    rw [hq, Function.update_self]
    simp [Push.reserved]
  · rw [Function.update_of_ne hqp, if_neg hqp, List.append_nil]
    exact hq

/-- The cell that a producer wins is the first free one. -/
theorem Ok.cells_win (h : Ok cap s) (hnone : (s.push p).reserved = none) :
    Cells cap (s.win cap p item) := by
  obtain ⟨⟨hle, hlt, hhead, -, -⟩, -, ⟨howner, hstored, hentry, hfuture⟩, hreader⟩ := h
  refine ⟨fun q item' head hq => ?_, fun q item' head hq => ?_, fun k q item' hk hwon => ?_,
    fun k hk => ?_⟩
  · by_cases hqp : q = p
    · subst hqp
      simp only [MPSCQueue.win, Function.update_self, Push.reserved, Option.some.injEq,
        Prod.mk.injEq] at hq
      obtain ⟨rfl, rfl⟩ := hq
      refine ⟨s.won.length, hle, List.getElem?_concat_length, hhead, ?_, fun htaken => ?_⟩
      · simp only [MPSCQueue.win, hhead]
        exact hfuture _ le_rfl hlt
      · exact (hreader.lt_of_taken htaken).ne'
    · simp only [MPSCQueue.win, Function.update_of_ne hqp] at hq
      obtain ⟨k, hk, hwon, hrest⟩ := howner q item' head hq
      exact ⟨k, hk, getElem?_win hwon, hrest⟩
  · by_cases hqp : q = p
    · subst hqp
      simp [MPSCQueue.win] at hq
    · simp only [MPSCQueue.win, Function.update_of_ne hqp] at hq
      exact hstored q item' head hq
  · by_cases hlast : k < s.won.length
    · rw [MPSCQueue.win, List.getElem?_append_left hlast] at hwon
      rcases hentry k q item' hk hwon with howned | hother
      · have hqp : q ≠ p := by
          rintro rfl
          rw [hnone] at howned
          cases howned
        exact Or.inl (by simp only [MPSCQueue.win, Function.update_of_ne hqp, howned])
      · exact Or.inr hother
    · have hlt' := lt_of_getElem?_eq_some hwon
      rw [length_win] at hlt'
      obtain rfl : k = s.won.length := by omega
      rw [MPSCQueue.win, List.getElem?_concat_length] at hwon
      obtain ⟨rfl, rfl⟩ := Prod.mk.inj (Option.some.inj hwon)
      exact Or.inl (by simp only [MPSCQueue.win, Function.update_self, Push.reserved, hhead])
  · rw [length_win] at hk
    exact hfuture k (Nat.le_of_succ_le hk)

theorem Reader.win (h : Reader cap s) : Reader cap (s.win cap p item) := by
  unfold Reader at h ⊢
  rw [length_win]
  simp only [show (s.win cap p item).pop = s.pop from rfl]
  cases hpop : s.pop with
  | idle => trivial
  | loadHead tail =>
      rw [hpop] at h
      exact h
  | loadSeq tail =>
      rw [hpop] at h
      exact ⟨h.1, Nat.lt_succ_of_lt h.2⟩
  | take tail =>
      rw [hpop] at h
      exact ⟨h.1, Nat.lt_succ_of_lt h.2.1, h.2.2⟩
  | clear tail x | advance tail x =>
      rw [hpop] at h
      obtain ⟨y, hy, hxy⟩ := Option.map_eq_some_iff.mp h.2.1
      exact ⟨h.1, by rw [← hxy, ← Option.map_some]; exact congrArg _ (getElem?_win hy), h.2.2⟩

/-- A compare-exchange that succeeds while there is room keeps the invariant. -/
theorem Ok.win (h : Ok cap s) (hnone : (s.push p).reserved = none)
    (hroom : (s.head + 1) % cap ≠ s.tail) : Ok cap (s.win cap p item) :=
  ⟨h.indices.win hroom, h.ledger.win hnone, h.cells_win hnone, h.reader.win⟩

end Win

section Own

variable {p : P} {item : T} {head : ℕ}

theorem reserved_store (hpush : s.push p = .write item head) (q : P) :
    ((s.store p item head).push q).reserved = (s.push q).reserved := by
  by_cases hq : q = p
  · subst hq
    simp [MPSCQueue.store, MPSCQueue.setPush, hpush, Push.reserved]
  · simp [MPSCQueue.store, MPSCQueue.setPush, MPSCQueue.setSlot, hq]

theorem seq_store (i : ℕ) : ((s.store p item head).data i).seq = (s.data i).seq := by
  by_cases hi : i = head
  · subst hi
    simp [MPSCQueue.store, MPSCQueue.setPush, MPSCQueue.setSlot]
  · simp [MPSCQueue.store, MPSCQueue.setPush, MPSCQueue.setSlot, hi]

theorem item_store_of_ne {i : ℕ} (hi : i ≠ head) :
    ((s.store p item head).data i).item = (s.data i).item := by
  simp [MPSCQueue.store, MPSCQueue.setPush, MPSCQueue.setSlot, hi]

theorem Ok.cells_store (h : Ok cap s) (hpush : s.push p = .write item head) :
    Cells cap (s.store p item head) := by
  have hown : (s.push p).reserved = some (item, head) := by rw [hpush]; rfl
  obtain ⟨-, -, -, -, hinvalid, -⟩ := h.cells.owner p item head hown
  refine ⟨fun q item' head' hq => ?_, fun q item' head' hq => ?_,
    fun k q item' hk hwon => ?_, fun k hk hk' => ?_⟩
  · rw [reserved_store hpush] at hq
    rw [seq_store]
    exact h.cells.owner q item' head' hq
  · by_cases hqp : q = p
    · subst hqp
      simp only [MPSCQueue.store, MPSCQueue.setPush, Function.update_self, Push.publish.injEq] at hq
      obtain ⟨rfl, rfl⟩ := hq
      simp [MPSCQueue.store, MPSCQueue.setPush, MPSCQueue.setSlot]
    · have hq' : s.push q = .publish item' head' := by
        rw [← hq]
        simp [MPSCQueue.store, MPSCQueue.setPush, MPSCQueue.setSlot, hqp]
      have hne := h.cell_ne hqp (by rw [hq']; rfl) hown
      rw [item_store_of_ne hne]
      exact h.cells.stored q item' head' hq'
  · rw [reserved_store hpush, seq_store]
    rcases h.cells.entry k q item' hk hwon with howned | htaken | ⟨hseq, hitem⟩
    · exact Or.inl howned
    · exact Or.inr (Or.inl htaken)
    · have hne : k % cap ≠ head := by
        rintro rfl
        exact hseq hinvalid
      exact Or.inr (Or.inr ⟨hseq, by rw [item_store_of_ne hne, hitem]⟩)
  · rw [seq_store]
    exact h.cells.future k hk hk'

theorem Ok.store (h : Ok cap s) (hpush : s.push p = .write item head) :
    Ok cap (s.store p item head) := by
  refine ⟨⟨h.indices.le, h.indices.room, h.indices.head, h.indices.tail, h.indices.ordered⟩,
    fun q => ?_, h.cells_store hpush, ?_⟩
  · rw [reserved_store hpush]
    exact h.ledger q
  · have hreader := h.reader
    unfold Reader at hreader ⊢
    simp only [seq_store]
    exact hreader

theorem publish_push_of_ne {q : P} (hq : q ≠ p) :
    (s.publish p item head).push q = s.push q := by
  simp [MPSCQueue.publish, MPSCQueue.returned, MPSCQueue.setSlot, hq]

theorem publish_push_self : (s.publish p item head).push p = .idle := by
  simp [MPSCQueue.publish, MPSCQueue.returned]

theorem item_publish (i : ℕ) : ((s.publish p item head).data i).item = (s.data i).item := by
  by_cases hi : i = head
  · subst hi
    simp [MPSCQueue.publish, MPSCQueue.returned, MPSCQueue.setSlot]
  · simp [MPSCQueue.publish, MPSCQueue.returned, MPSCQueue.setSlot, hi]

theorem seq_publish_of_ne {i : ℕ} (hi : i ≠ head) :
    ((s.publish p item head).data i).seq = (s.data i).seq := by
  simp [MPSCQueue.publish, MPSCQueue.returned, MPSCQueue.setSlot, hi]

theorem seq_publish_self : ((s.publish p item head).data head).seq = head := by
  simp [MPSCQueue.publish, MPSCQueue.returned, MPSCQueue.setSlot]

theorem Ok.ledger_publish (h : Ok cap s) (hpush : s.push p = .publish item head) :
    Ledger (s.publish p item head) := by
  intro q
  have hq := h.ledger q
  by_cases hqp : q = p
  · subst hqp
    rw [publish_push_self]
    rw [hpush] at hq
    refine hq.trans ?_
    simp [MPSCQueue.publish, MPSCQueue.returned, MPSCQueue.setSlot, Push.reserved]
  · rw [publish_push_of_ne hqp]
    refine hq.trans ?_
    simp [MPSCQueue.publish, MPSCQueue.returned, MPSCQueue.setSlot, hqp]

/-- A number is no larger than the capacity, so it is not `INVALID_INDEX`. -/
theorem Ok.head_lt (h : Ok cap s) (hown : (s.push p).reserved = some (item, head)) :
    head < cap := by
  obtain ⟨k, hk, hwon, rfl, -, -⟩ := h.cells.owner p item head hown
  have hlt := lt_of_getElem?_eq_some hwon
  have hroom := h.indices.room
  exact Nat.mod_lt _ (by omega)

theorem Ok.seq_publish_ne (h : Ok cap s) (hown : (s.push p).reserved = some (item, head)) {i : ℕ}
    (hseq : i ≠ head → (s.data i).seq ≠ invalidIndex cap) :
    ((s.publish p item head).data i).seq ≠ invalidIndex cap := by
  by_cases hi : i = head
  · rw [hi, seq_publish_self]
    have := h.head_lt hown
    rw [invalidIndex]
    omega
  · rw [seq_publish_of_ne hi]
    exact hseq hi

theorem Ok.cells_publish (h : Ok cap s) (hpush : s.push p = .publish item head) :
    Cells cap (s.publish p item head) := by
  have hown : (s.push p).reserved = some (item, head) := by rw [hpush]; rfl
  obtain ⟨k₀, hk₀, hwon₀, hhead₀, -, -⟩ := h.cells.owner p item head hown
  have hlt₀ := lt_of_getElem?_eq_some hwon₀
  have hroom := h.indices.room
  have hidle : ∀ {q : P} {x : T × ℕ}, ((s.publish p item head).push q).reserved = some x →
      q ≠ p ∧ (s.push q).reserved = some x := by
    intro q x hq
    have hqp : q ≠ p := by
      rintro rfl
      rw [publish_push_self] at hq
      cases hq
    rw [publish_push_of_ne hqp] at hq
    exact ⟨hqp, hq⟩
  refine ⟨fun q item' head' hq => ?_, fun q item' head' hq => ?_,
    fun k q item' hk hwon => ?_, fun k hk hk' => ?_⟩
  · obtain ⟨hqp, hq'⟩ := hidle hq
    rw [seq_publish_of_ne (h.cell_ne hqp hq' hown)]
    exact h.cells.owner q item' head' hq'
  · have hqp : q ≠ p := by
      rintro rfl
      rw [publish_push_self] at hq
      cases hq
    rw [publish_push_of_ne hqp] at hq
    rw [item_publish]
    exact h.cells.stored q item' head' hq
  · rw [item_publish]
    rcases h.cells.entry k q item' hk hwon with howned | htaken | ⟨hseq, hitem⟩
    · by_cases hqp : q = p
      · subst hqp
        obtain ⟨rfl, rfl⟩ := Prod.mk.inj (Option.some.inj (hown.symm.trans howned))
        exact Or.inr (Or.inr ⟨h.seq_publish_ne hown fun hne => absurd rfl hne,
          h.cells.stored q _ _ hpush⟩)
      · rw [publish_push_of_ne hqp]
        exact Or.inl howned
    · exact Or.inr (Or.inl htaken)
    · exact Or.inr (Or.inr ⟨h.seq_publish_ne hown fun _ => hseq, hitem⟩)
  · have hne : k % cap ≠ head := by
      intro heq
      rw [hhead₀] at heq
      have hkeq := RingIndex.eq_of_mod_eq (h.indices.le.trans hk) hk' hk₀ (by omega) heq
      have hk'' : s.won.length ≤ k := hk
      omega
    rw [seq_publish_of_ne hne]
    exact h.cells.future k hk hk'

theorem Ok.reader_publish (h : Ok cap s) (hpush : s.push p = .publish item head) :
    Reader cap (s.publish p item head) := by
  have hown : (s.push p).reserved = some (item, head) := by rw [hpush]; rfl
  have hreader := h.reader
  unfold Reader at hreader ⊢
  simp only [show (s.publish p item head).pop = s.pop from rfl]
  cases hpop : s.pop with
  | idle => trivial
  | loadHead tail | loadSeq tail =>
      rw [hpop] at hreader
      exact hreader
  | take tail =>
      rw [hpop] at hreader
      exact ⟨hreader.1, hreader.2.1, h.seq_publish_ne hown fun _ => hreader.2.2⟩
  | clear tail x =>
      rw [hpop] at hreader
      exact ⟨hreader.1, hreader.2.1, h.seq_publish_ne hown fun _ => hreader.2.2⟩
  | advance tail x =>
      rw [hpop] at hreader
      obtain ⟨htail, hx, hseq⟩ := hreader
      have hne : tail ≠ head := by
        obtain ⟨k, hk, hwon, hhead, -, hnot⟩ := h.cells.owner p item head hown
        have hlt := lt_of_getElem?_eq_some hwon
        have hroom := h.indices.room
        intro heq
        rw [htail, h.indices.tail, hhead] at heq
        refine hnot (by rw [hpop]; rfl) ?_
        exact (RingIndex.eq_of_mod_eq le_rfl (by omega) hk (by omega) heq).symm
      exact ⟨htail, hx, by rw [seq_publish_of_ne hne]; exact hseq⟩

theorem Ok.publish (h : Ok cap s) (hpush : s.push p = .publish item head) :
    Ok cap (s.publish p item head) :=
  ⟨⟨h.indices.le, h.indices.room, h.indices.head, h.indices.tail, h.indices.ordered⟩,
    h.ledger_publish hpush, h.cells_publish hpush, h.reader_publish hpush⟩

end Own

section Consume

variable {tail : ℕ}

/-- An entry behind the next one is not in the cell of the tail. -/
theorem Ok.cell_ne_tail (h : Ok cap s) {k : ℕ} {x : P × T} (hk : s.popped.length ≤ k)
    (hwon : s.won[k]? = some x) (hne : k ≠ s.popped.length) : k % cap ≠ s.tail := by
  have hlt := lt_of_getElem?_eq_some hwon
  have hroom := h.indices.room
  rw [h.indices.tail]
  intro heq
  exact hne (RingIndex.eq_of_mod_eq hk (by omega) le_rfl (by omega) heq)

/-- A step of the consumer that reads only. -/
theorem Ok.setPop (h : Ok cap s) {pop : Pop T} (htaken : pop.taken = s.pop.taken)
    (hreader : Reader cap { s with pop := pop }) : Ok cap { s with pop := pop } := by
  refine ⟨⟨h.indices.le, h.indices.room, h.indices.head, h.indices.tail, h.indices.ordered⟩,
    h.ledger, ⟨?_, h.cells.stored, ?_, h.cells.future⟩, hreader⟩
  · simp only [htaken]
    exact h.cells.owner
  · simp only [htaken]
    exact h.cells.entry

/-- A published cell at the tail holds the next item, and no producer owns it. -/
theorem Ok.front (h : Ok cap s) (hlt : s.popped.length < s.won.length)
    (htaken : s.pop.taken = false)
    (hseq : (s.data (s.popped.length % cap)).seq ≠ invalidIndex cap) :
    (s.won[s.popped.length]?).map (some ·.2) =
      some (s.data (s.popped.length % cap)).item := by
  have hwon : s.won[s.popped.length]? = some s.won[s.popped.length] :=
    List.getElem?_eq_getElem hlt
  rw [hwon, Option.map_some]
  rcases h.cells.entry _ _ _ le_rfl hwon with howned | ⟨htrue, -⟩ | ⟨-, hitem⟩
  · obtain ⟨-, -, -, -, hinvalid, -⟩ := h.cells.owner _ _ _ howned
    exact absurd hinvalid hseq
  · rw [htaken] at htrue
    cases htrue
  · rw [hitem]
    rfl

theorem Ok.take (h : Ok cap s) (hpop : s.pop = .take tail) :
    Ok cap { s.setSlot tail { s.data tail with item := none } with
      pop := .clear tail (s.data tail).item } := by
  have hreader := h.reader
  unfold Reader at hreader
  rw [hpop] at hreader
  obtain ⟨htail, hlt, hseq⟩ := hreader
  have hcell : tail = s.popped.length % cap := htail.trans h.indices.tail
  have hkeep : ∀ i, (Function.update s.data tail { s.data tail with item := none } i).seq =
      (s.data i).seq := by
    intro i
    by_cases hi : i = tail
    · rw [hi, Function.update_self]
    · rw [Function.update_of_ne hi]
  refine ⟨⟨h.indices.le, h.indices.room, h.indices.head, h.indices.tail, h.indices.ordered⟩,
    h.ledger, ⟨fun q item' head' hq => ?_, fun q item' head' hq => ?_,
    fun k q item' hk hwon => ?_, fun k hk hk' => (hkeep _).trans (h.cells.future k hk hk')⟩, ?_⟩
  · obtain ⟨k, hk, hwon, hhead, hinvalid, -⟩ := h.cells.owner q item' head' hq
    refine ⟨k, hk, hwon, hhead, (hkeep _).trans hinvalid, fun _ heq => hseq ?_⟩
    rw [hcell, ← show k = s.popped.length from heq, ← hhead]
    exact hinvalid
  · have hown : (s.push q).reserved = some (item', head') := by
      rw [show s.push q = _ from hq]
      rfl
    obtain ⟨-, -, -, -, hinvalid, -⟩ := h.cells.owner q item' head' hown
    have hne : head' ≠ tail := by
      rintro rfl
      exact hseq hinvalid
    simp only [MPSCQueue.setSlot, Function.update_of_ne hne]
    exact h.cells.stored q item' head' hq
  · by_cases hfront : k = s.popped.length
    · exact Or.inr (Or.inl ⟨rfl, hfront⟩)
    · rcases h.cells.entry k q item' hk hwon with howned | ⟨-, heq⟩ | ⟨hpublished, hitem⟩
      · exact Or.inl howned
      · exact absurd heq hfront
      · have hlt' := lt_of_getElem?_eq_some hwon
        have hne : k % cap ≠ tail := htail ▸ h.cell_ne_tail hk hwon hfront
        simp only [MPSCQueue.setSlot, Function.update_of_ne hne]
        exact Or.inr (Or.inr ⟨hpublished, hitem⟩)
  · unfold Reader
    refine ⟨htail, ?_, ?_⟩
    · have hfront := h.front hlt (by rw [hpop]; rfl) (hcell ▸ hseq)
      rw [← hcell] at hfront
      exact hfront
    · exact (hkeep tail).symm ▸ hseq

theorem Ok.clear (h : Ok cap s) {item : Option T} (hpop : s.pop = .clear tail item) :
    Ok cap { s.setSlot tail { s.data tail with seq := invalidIndex cap } with
      pop := .advance tail item } := by
  have hreader := h.reader
  unfold Reader at hreader
  rw [hpop] at hreader
  obtain ⟨htail, hx, -⟩ := hreader
  have htaken : s.pop.taken = true := by rw [hpop]; rfl
  have hinvalid : ∀ i, (s.data i).seq = invalidIndex cap →
      (Function.update s.data tail { s.data tail with seq := invalidIndex cap } i).seq =
        invalidIndex cap := by
    intro i hi
    by_cases heq : i = tail
    · rw [heq, Function.update_self]
    · rw [Function.update_of_ne heq, hi]
  have hitem : ∀ i,
      (Function.update s.data tail { s.data tail with seq := invalidIndex cap } i).item =
        (s.data i).item := by
    intro i
    by_cases heq : i = tail
    · rw [heq, Function.update_self]
    · rw [Function.update_of_ne heq]
  refine ⟨⟨h.indices.le, h.indices.room, h.indices.head, h.indices.tail, h.indices.ordered⟩,
    h.ledger, ⟨fun q item' head' hq => ?_, fun q item' head' hq => ?_,
    fun k q item' hk hwon => ?_, fun k hk hk' => hinvalid _ (h.cells.future k hk hk')⟩, ?_⟩
  · obtain ⟨k, hk, hwon, hhead, hinv, hne⟩ := h.cells.owner q item' head' hq
    exact ⟨k, hk, hwon, hhead, hinvalid _ hinv, fun _ => hne htaken⟩
  · exact (hitem _).trans (h.cells.stored q item' head' hq)
  · by_cases hfront : k = s.popped.length
    · exact Or.inr (Or.inl ⟨rfl, hfront⟩)
    · rcases h.cells.entry k q item' hk hwon with howned | ⟨-, heq⟩ | ⟨hpublished, hstored⟩
      · exact Or.inl howned
      · exact absurd heq hfront
      · have hlt' := lt_of_getElem?_eq_some hwon
        have hne : k % cap ≠ tail := htail ▸ h.cell_ne_tail hk hwon hfront
        simp only [MPSCQueue.setSlot, Function.update_of_ne hne]
        exact Or.inr (Or.inr ⟨hpublished, hstored⟩)
  · unfold Reader
    exact ⟨htail, hx, by simp [MPSCQueue.setSlot]⟩

theorem Ok.advance (h : Ok cap s) {item : Option T} (hpop : s.pop = .advance tail item) :
    Ok cap { s with tail := (tail + 1) % cap, pop := .idle, popped := s.popped ++ [item] } := by
  have hreader := h.reader
  unfold Reader at hreader
  rw [hpop] at hreader
  obtain ⟨htail, hx, hinvalid⟩ := hreader
  obtain ⟨hle, hroom, hhead, htail', hordered⟩ := h.indices
  have htaken : s.pop.taken = true := by rw [hpop]; rfl
  have hlt := h.reader.lt_of_taken htaken
  obtain ⟨x, hwon, rfl⟩ := Option.map_eq_some_iff.mp hx
  have hlen : (s.popped ++ [some x.2]).length = s.popped.length + 1 := List.length_append
  refine ⟨⟨?_, ?_, hhead, ?_, ?_⟩, h.ledger, ⟨fun q item' head' hq => ?_, h.cells.stored,
    fun k q item' hk hk' => ?_, fun k hk hk' => ?_⟩, ?_⟩
  · rw [hlen]
    exact hlt
  · rw [hlen]
    show s.won.length < _
    omega
  · show (tail + 1) % cap = _
    rw [hlen, htail, htail', RingIndex.succ_mod]
  · rw [hlen, List.take_add_one, hwon, List.map_append, ← hordered]
    rfl
  · obtain ⟨k, hk, hwon', hrest, hseq, hne⟩ := h.cells.owner q item' head' hq
    refine ⟨k, ?_, hwon', hrest, hseq, fun hfalse => (nomatch hfalse)⟩
    rw [hlen]
    exact Nat.lt_of_le_of_ne hk (hne htaken).symm
  · rw [hlen] at hk
    rcases h.cells.entry k q item' (Nat.le_of_succ_le hk) hk' with howned | ⟨-, heq⟩ | hpublished
    · exact Or.inl howned
    · omega
    · exact Or.inr (Or.inr hpublished)
  · rw [hlen] at hk'
    by_cases hlast : k < s.popped.length + cap
    · exact h.cells.future k hk hlast
    · obtain rfl : k = s.popped.length + cap := by omega
      rw [Nat.add_mod_right, ← htail', ← htail]
      exact hinvalid
  · unfold Reader
    trivial

theorem Ok.stepConsumer (h : Ok cap s) : Ok cap (s.stepConsumer cap) := by
  unfold MPSCQueue.stepConsumer
  have hreader := h.reader
  unfold Reader at hreader
  cases hpop : s.pop with
  | idle =>
      refine h.setPop (by rw [hpop]; rfl) ?_
      unfold Reader
      rfl
  | loadHead tail =>
      rw [hpop] at hreader
      by_cases hempty : tail = s.head
      · simp only [if_pos hempty]
        refine h.setPop (by rw [hpop]; rfl) ?_
        unfold Reader
        trivial
      · simp only [if_neg hempty]
        refine h.setPop (by rw [hpop]; rfl) ?_
        unfold Reader
        refine ⟨hreader, Nat.lt_of_le_of_ne h.indices.le fun heq => hempty ?_⟩
        have htail : tail = s.tail := hreader
        rw [htail, h.indices.tail, h.indices.head, heq]
  | loadSeq tail =>
      rw [hpop] at hreader
      by_cases hseq : (s.data tail).seq = invalidIndex cap
      · simp only [if_pos hseq]
        exact h
      · simp only [if_neg hseq]
        refine h.setPop (by rw [hpop]; rfl) ?_
        unfold Reader
        exact ⟨hreader.1, hreader.2, hseq⟩
  | take tail => exact h.take hpop
  | clear tail item => exact h.clear hpop
  | advance tail item => exact h.advance hpop

end Consume

/-- Every step with room for what it reserves keeps the invariant. -/
theorem Ok.step (h : Ok cap s) {a : Act P T} {s' : MPSCQueue P T}
    (hroom : ReservesWithRoom cap s a) (hstep : s.step cap a = some s') : Ok cap s' := by
  cases a with
  | call p item =>
      simp only [MPSCQueue.step] at hstep
      split at hstep
      · rename_i hidle
        cases hstep
        exact h.setPush _ (by rw [hidle]; rfl) rfl
      · cases hstep
  | producer p weak =>
      simp only [MPSCQueue.step, MPSCQueue.stepProducer] at hstep
      split at hstep
      · cases hstep
      · rename_i item head hcheck
        have hnone : (s.push p).reserved = none := by rw [hcheck]; rfl
        split at hstep
        · cases hstep
          exact h.refuse item hnone
        · cases hstep
          exact h.setPush _ hnone rfl
      · rename_i item head hcas
        have hnone : (s.push p).reserved = none := by rw [hcas]; rfl
        split at hstep
        · rename_i hwin
          obtain ⟨rfl, rfl⟩ := hwin
          cases hstep
          exact h.win hnone (hroom item hcas)
        · cases hstep
          exact h.setPush _ hnone rfl
      · rename_i item head hwrite
        cases hstep
        exact h.store hwrite
      · rename_i item head hpublish
        cases hstep
        exact h.publish hpublish
  | consumer =>
      cases hstep
      exact h.stepConsumer

section Drain

/-- With no push under way the next entry is published. -/
theorem Ok.published (h : Ok cap s) (hidle : ∀ p, s.push p = .idle) (hpop : s.pop.taken = false)
    (hlt : s.popped.length < s.won.length) : (s.data s.tail).seq ≠ invalidIndex cap := by
  rw [h.indices.tail]
  rcases h.cells.entry _ _ _ le_rfl (List.getElem?_eq_getElem hlt) with howned | ⟨htrue, -⟩ | hseq
  · rw [hidle] at howned
    cases howned
  · rw [hpop] at htrue
    cases htrue
  · exact hseq.1

theorem run_consumer (s : MPSCQueue P T) (n : ℕ) :
    run (MPSCQueue.step cap) s (List.replicate n .consumer) =
      some ((MPSCQueue.stepConsumer cap)^[n] s) := by
  induction n generalizing s with
  | zero => rfl
  | succ n ih =>
      rw [List.replicate_succ, Function.iterate_succ_apply]
      exact ih _

theorem Ok.iterate (h : Ok cap s) (n : ℕ) : Ok cap ((MPSCQueue.stepConsumer cap)^[n] s) := by
  induction n generalizing s with
  | zero => exact h
  | succ n ih => exact ih h.stepConsumer

/-- A whole `pop` takes one item, if there is one and no push is under way. -/
theorem Ok.pop_once (h : Ok cap s) (hidle : ∀ p, s.push p = .idle) (hpop : s.pop = .idle)
    (hlt : s.popped.length < s.won.length) :
    let s' := (MPSCQueue.stepConsumer cap)^[6] s
    s'.push = s.push ∧ s'.pop = .idle ∧ s'.won = s.won ∧
      s'.popped.length = s.popped.length + 1 := by
  have hseq := h.published hidle (by rw [hpop]; rfl) hlt
  have hne : s.tail ≠ s.head := by
    rw [h.indices.tail, h.indices.head, ne_eq, RingIndex.empty_iff h.indices.le h.indices.room]
    exact hlt.ne
  simp [MPSCQueue.stepConsumer, MPSCQueue.setSlot, hpop, hne, hseq]

/-- Popping goes on until every item that was won is popped. -/
theorem Ok.drains (h : Ok cap s) (hidle : ∀ p, s.push p = .idle) (hpop : s.pop = .idle) :
    ∃ n, let s' := (MPSCQueue.stepConsumer cap)^[n] s
      s'.popped = s.won.map (some ·.2) ∧ s'.pop = .idle := by
  induction hleft : s.won.length - s.popped.length generalizing s with
  | zero =>
      have hall : s.popped.length = s.won.length := by
        have := h.indices.le
        omega
      refine ⟨0, ?_, hpop⟩
      have hordered := h.indices.ordered
      rw [hall, List.take_length] at hordered
      exact hordered
  | succ left ih =>
      obtain ⟨hpush, hpop', hwon, hlen⟩ := h.pop_once hidle hpop (by omega)
      obtain ⟨n, hn, hn'⟩ := ih (h.iterate 6) (fun p => by rw [hpush, hidle]) hpop' (by
        rw [hwon, hlen]
        omega)
      refine ⟨n + 6, ?_, ?_⟩
      · rw [Function.iterate_add_apply, hn, hwon]
      · rw [Function.iterate_add_apply, hn']

end Drain

theorem Ok.fifo (h : Ok cap s) : Fifo cap s where
  bounded := by
    have := h.indices.room
    omega
  ordered := h.indices.ordered
  pushed p hp := by
    have hledger := h.ledger p
    rw [hp] at hledger
    simpa [Push.reserved] using hledger
  empty _ hpop := by
    have hreader := h.reader
    unfold Reader at hreader
    rw [hpop] at hreader
    have htail : s.tail = s.head := Eq.symm hreader
    rw [h.indices.tail, h.indices.head, RingIndex.empty_iff h.indices.le h.indices.room] at htail
    exact htail
  drains hidle hpop := by
    obtain ⟨n, hpopped, hpop'⟩ := h.drains hidle hpop
    exact ⟨n, _, run_consumer s n, hpopped, hpop'⟩

/-- A compare-exchange that succeeds on a full ring reserves one cell too many. -/
theorem Ok.reservesWithRoom (h : Ok cap s) (hcap : 0 < cap) {a : Act P T} {s' : MPSCQueue P T}
    (hstep : s.step cap a = some s') (hfifo : Fifo cap s') : ReservesWithRoom cap s a := by
  cases a with
  | call | consumer => trivial
  | producer p weak =>
      cases weak with
      | true => trivial
      | false =>
          intro item hcas hfull
          rw [h.indices.head, h.indices.tail,
            RingIndex.full_iff h.indices.le h.indices.room] at hfull
          simp only [MPSCQueue.step, MPSCQueue.stepProducer, hcas, and_self, if_true,
            Option.some.injEq] at hstep
          have hbounded := hfifo.bounded
          rw [← hstep, length_win] at hbounded
          simp only [MPSCQueue.win] at hbounded
          omega

/-- A step of a push that has not won a cell, as are all steps of a push that returns
false, changes nothing that others can see. -/
theorem sameQueue_of_unreserved {p : P} {weak : Bool} {s' : MPSCQueue P T}
    (hstep : s.step cap (.producer p weak) = some s') (hbefore : (s.push p).reserved = none)
    (hafter : (s'.push p).reserved = none) : SameQueue s s' := by
  simp only [MPSCQueue.step, MPSCQueue.stepProducer] at hstep
  split at hstep
  · cases hstep
  · split at hstep <;> cases hstep <;> exact ⟨rfl, rfl, rfl⟩
  · split at hstep
    · cases hstep
      simp [MPSCQueue.win, Push.reserved] at hafter
    · cases hstep
      exact ⟨rfl, rfl, rfl⟩
  · rename_i hwrite
    rw [hwrite] at hbefore
    cases hbefore
  · rename_i hpublish
    rw [hpublish] at hbefore
    cases hbefore

end Invariant

variable [DecidableEq P] {cap : ℕ}

/-- The queue is a bounded FIFO in exactly the runs in which every compare-exchange
succeeds with room in the ring, and a push that returns false has no effect. -/
theorem fifo_iff_reservesWithRoom (hcap : 2 ≤ cap) (acts : List (Act P T)) :
    (Always (MPSCQueue.step cap) (Fifo cap) (MPSCQueue.fresh cap) acts ↔
      EachStep (MPSCQueue.step cap) (ReservesWithRoom cap) (MPSCQueue.fresh cap) acts) ∧
    ∀ (s s' : MPSCQueue P T) p weak, s.step cap (.producer p weak) = some s' →
      (s.push p).reserved = none → (s'.push p).reserved = none → SameQueue s s' := by
  have hpos : 0 < cap := Nat.lt_of_lt_of_le Nat.zero_lt_two hcap
  exact ⟨always_iff_eachStep (I := Ok cap) (fun _ _ _ h hroom => h.step hroom)
    (fun _ h => h.fifo) (fun _ _ _ h => h.reservesWithRoom hpos) (ok_fresh hpos) acts,
    fun _ _ _ _ => sameQueue_of_unreserved⟩

/-- Two cells. One producer stops before its compare-exchange; another pushes, its
item is popped, and it reserves again, so that the head has come round. -/
def lapRun : List (Act Bool ℕ) :=
  [.call true 1, .producer true false, .call false 2, .producer false false,
    .producer false false, .producer false false, .producer false false, .consumer, .consumer,
    .consumer, .consumer, .consumer, .consumer, .call false 3, .producer false false,
    .producer false false, .producer true false]

theorem not_fifo_lapRun :
    ¬ Always (MPSCQueue.step 2) (Fifo 2) (MPSCQueue.fresh 2) lapRun := by
  intro h
  have hview : (run (MPSCQueue.step 2) (MPSCQueue.fresh 2) lapRun).map
      (fun s => (s.won.length, s.popped.length)) = some (3, 1) := by decide
  obtain ⟨s, hrun, hlengths⟩ := Option.map_eq_some_iff.mp hview
  obtain ⟨hwon, hpopped⟩ := Prod.mk.inj hlengths
  have hbounded := (h.last hrun).bounded
  rw [hwon, hpopped] at hbounded
  exact absurd hbounded (by decide)

/-- Two producers push one after the other on two cells, and each item is popped before the
next one is pushed. -/
theorem fifo_pushPop :
    Always (MPSCQueue.step 2) (Fifo 2) (MPSCQueue.fresh 2 : MPSCQueue Bool ℕ)
      (.call true 1 :: List.replicate 4 (.producer true false) ++ List.replicate 6 .consumer ++
        .call false 2 :: List.replicate 4 (.producer false false) ++
        List.replicate 6 .consumer) := by
  refine ((fifo_iff_reservesWithRoom le_rfl _).1).mpr ?_
  repeat' refine eachStep_cons rfl ?_ ?_
  all_goals first | trivial | (rintro item hcas; cases hcas <;> decide)

end SimpleRedis.MPSC
