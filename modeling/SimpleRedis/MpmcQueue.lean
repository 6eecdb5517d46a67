import SimpleRedis.MpscQueue
import SimpleRedis.TicketCounter
import Mathlib.Data.Fintype.Basic

/-!
# The queue of many producers and many consumers

`MPMCQueue` reserves positions at both ends with a compare-exchange; a push then waits
until the cell of its position is free, and a pop until its cell is filled. The word that
they wait for holds the number of the cell and not the lap, so two pushes that are a lap
apart can wait for the same cell, and the later one can get it first. Items are delivered
exactly once in the runs in which every wait ends in turn.
-/
namespace SimpleRedis.MPMC

open TransitionRun TicketCounter

open MPSC (Slot invalidIndex)

variable {P C T : Type*}

/-- Where a producer is in `push`: outside, before the load of the tail, before the
compare-exchange, before the loads of the cell's number, before the item is stored, before
the number is stored. `pos` counts the positions reserved; the code has only its cell. -/
inductive Push (T : Type*) where
  | idle
  | check (item : T) (head : ℕ)
  | cas (item : T) (head : ℕ)
  | wait (item : T) (head pos : ℕ)
  | write (item : T) (head pos : ℕ)
  | publish (item : T) (head pos : ℕ)
  deriving DecidableEq

/-- Where a consumer is in `pop`. -/
inductive Pop (T : Type*) where
  | idle
  | loadHead (tail : ℕ)
  | cas (tail : ℕ)
  | wait (tail pos : ℕ)
  | read (tail pos : ℕ)
  | clear (tail pos : ℕ) (item : Option T)
  deriving DecidableEq

/-- The queue and its threads. `reserved` has the items in the order of the successful
compare-exchanges of `push`, `popReserved` counts those of `pop`, and `pushed` and `popped`
have what was returned by the calls that have returned true, with their positions; the code
has none of the four. -/
structure MPMCQueue (P C T : Type*) where
  head : ℕ
  tail : ℕ
  data : ℕ → Slot T
  push : P → Push T
  pop : C → Pop T
  reserved : List T
  popReserved : ℕ
  pushed : List (ℕ × T)
  popped : List (ℕ × Option T)

/-- A thread's next atomic step. `weak` is a compare-exchange that fails without a
reason. -/
inductive Act (P C T : Type*) where
  | call (p : P) (item : T)
  | producer (p : P) (weak : Bool)
  | consumer (c : C) (weak : Bool)

namespace MPMCQueue

def fresh (cap : ℕ) : MPMCQueue P C T where
  head := 0
  tail := 0
  data _ := { seq := invalidIndex cap, item := none }
  push _ := .idle
  pop _ := .idle
  reserved := []
  popReserved := 0
  pushed := []
  popped := []

section Step

variable [DecidableEq P] [DecidableEq C] (cap : ℕ)

def setPush (s : MPMCQueue P C T) (p : P) (pc : Push T) : MPMCQueue P C T :=
  { s with push := Function.update s.push p pc }

def setPop (s : MPMCQueue P C T) (c : C) (pc : Pop T) : MPMCQueue P C T :=
  { s with pop := Function.update s.pop c pc }

def setSlot (s : MPMCQueue P C T) (i : ℕ) (slot : Slot T) : MPMCQueue P C T :=
  { s with data := Function.update s.data i slot }

/-- The compare-exchange of a push has moved the head. -/
def winPush (s : MPMCQueue P C T) (p : P) (item : T) : MPMCQueue P C T :=
  { s with
    head := (s.head + 1) % cap
    reserved := s.reserved ++ [item]
    push := Function.update s.push p (.wait item s.head s.reserved.length) }

/-- The item is in its cell. -/
def store (s : MPMCQueue P C T) (p : P) (item : T) (head pos : ℕ) : MPMCQueue P C T :=
  (s.setSlot head { s.data head with item := some item }).setPush p (.publish item head pos)

/-- The cell has its number, and the call returns. -/
def publish (s : MPMCQueue P C T) (p : P) (item : T) (head pos : ℕ) : MPMCQueue P C T :=
  { (s.setSlot head { s.data head with seq := head }).setPush p .idle with
    pushed := s.pushed ++ [(pos, item)] }

def stepProducer (s : MPMCQueue P C T) (p : P) (weak : Bool) : Option (MPMCQueue P C T) :=
  match s.push p with
  | .idle => none
  | .check item head =>
      if (head + 1) % cap = s.tail then some (s.setPush p .idle)
      else some (s.setPush p (.cas item head))
  | .cas item head =>
      if s.head = head ∧ weak = false then some (s.winPush cap p item)
      else some (s.setPush p (.check item s.head))
  | .wait item head pos =>
      if (s.data head).seq ≠ invalidIndex cap then some s
      else some (s.setPush p (.write item head pos))
  | .write item head pos => some (s.store p item head pos)
  | .publish item head pos => some (s.publish p item head pos)

/-- The compare-exchange of a pop has moved the tail. -/
def winPop (s : MPMCQueue P C T) (c : C) : MPMCQueue P C T :=
  { s with
    tail := (s.tail + 1) % cap
    popReserved := s.popReserved + 1
    pop := Function.update s.pop c (.wait s.tail s.popReserved) }

/-- The item is moved out of its cell. -/
def take (s : MPMCQueue P C T) (c : C) (tail pos : ℕ) : MPMCQueue P C T :=
  (s.setSlot tail { s.data tail with item := none }).setPop c
    (.clear tail pos (s.data tail).item)

/-- The cell is free, and the call returns. -/
def clear (s : MPMCQueue P C T) (c : C) (tail pos : ℕ) (item : Option T) : MPMCQueue P C T :=
  { (s.setSlot tail { s.data tail with seq := invalidIndex cap }).setPop c .idle with
    popped := s.popped ++ [(pos, item)] }

def stepConsumer (s : MPMCQueue P C T) (c : C) (weak : Bool) : MPMCQueue P C T :=
  match s.pop c with
  | .idle => s.setPop c (.loadHead s.tail)
  | .loadHead tail => s.setPop c (if tail = s.head then .idle else .cas tail)
  | .cas tail =>
      if s.tail = tail ∧ weak = false then s.winPop cap c else s.setPop c (.loadHead s.tail)
  | .wait tail pos => if (s.data tail).seq ≠ tail then s else s.setPop c (.read tail pos)
  | .read tail pos => s.take c tail pos
  | .clear tail pos item => s.clear cap c tail pos item

def step (s : MPMCQueue P C T) : Act P C T → Option (MPMCQueue P C T)
  | .call p item =>
      match s.push p with
      | .idle => some (s.setPush p (.check item s.head))
      | _ => none
  | .producer p weak => s.stepProducer cap p weak
  | .consumer c weak => some (s.stepConsumer cap c weak)

end Step

/-- What lies in the cells from the tail to the head, as the indices have it. -/
def contents (cap : ℕ) (s : MPMCQueue P C T) : List (Option T) :=
  (List.range ((s.head + cap - s.tail) % cap)).map fun i => (s.data ((s.tail + i) % cap)).item

end MPMCQueue

/-- The position that a producer has reserved and is not done with. -/
def Push.position : Push T → Option ℕ
  | .wait _ _ pos | .write _ _ pos | .publish _ _ pos => some pos
  | .idle | .check _ _ | .cas _ _ => none

/-- The position that a consumer has reserved and is not done with. -/
def Pop.position : Pop T → Option ℕ
  | .wait _ pos | .read _ pos | .clear _ pos _ => some pos
  | .idle | .loadHead _ | .cas _ => none

/-- Each item is delivered exactly once. `writes` speaks of a producer that is about to
store its item, the next two of the calls that have returned, and `remains` of the moments
when all calls have. -/
structure ExactlyOnce (cap : ℕ) (s : MPMCQueue P C T) : Prop where
  writes : ∀ p item head pos, s.push p = .write item head pos →
    (∀ k x, (k, x) ∈ s.pushed → k % cap = head → ∃ y, (k, y) ∈ s.popped) ∧
      ∀ q x k, s.push q ≠ .publish x head k
  once : (s.pushed.map (·.1)).Nodup ∧ (s.popped.map (·.1)).Nodup
  positions : ∀ k x, (k, x) ∈ s.pushed → s.reserved[k]? = some x
  matched : ∀ k y, (k, y) ∈ s.popped → ∃ x, (k, x) ∈ s.pushed ∧ y = some x
  remains : (∀ p, s.push p = .idle) → (∀ c, s.pop c = .idle) →
    (s.pushed.map (some ·.2)).Perm (s.popped.map (·.2) ++ s.contents cap)

/-- A wait for a cell ends while no thread on the same side waits for it or uses it for an
earlier lap, and a push reserves a position only while fewer than `cap - 1` positions are
reserved by pushes and not by pops. -/
structure InTurn (cap : ℕ) (s : MPMCQueue P C T) (a : Act P C T) : Prop where
  push : ∀ p weak item head pos, a = .producer p weak → s.push p = .wait item head pos →
    (s.data head).seq = invalidIndex cap →
    ∀ q k, (s.push q).position = some k → k % cap = pos % cap → pos ≤ k
  pop : ∀ c weak tail pos, a = .consumer c weak → s.pop c = .wait tail pos →
    (s.data tail).seq = tail →
    ∀ d k, (s.pop d).position = some k → k % cap = pos % cap → pos ≤ k
  room : ∀ p item, a = .producer p false → s.push p = .cas item s.head →
    s.reserved.length + 1 < s.popReserved + cap

section Invariant

/-- The positions whose push has returned. -/
def MPMCQueue.filled (s : MPMCQueue P C T) : List ℕ := s.pushed.map (·.1)

/-- The positions whose pop has returned. -/
def MPMCQueue.emptied (s : MPMCQueue P C T) : List ℕ := s.popped.map (·.1)

/-- The cell of a position was emptied in all the laps before. -/
def Free (cap : ℕ) (s : MPMCQueue P C T) (pos : ℕ) : Prop :=
  ∀ j < pos, j % cap = pos % cap → j ∈ s.emptied

/-- What a producer knows of its position. -/
def Writer (cap : ℕ) (s : MPMCQueue P C T) : Push T → Prop
  | .idle | .check _ _ | .cas _ _ => True
  | .wait item head pos => head = pos % cap ∧ s.reserved[pos]? = some item
  | .write item head pos => head = pos % cap ∧ s.reserved[pos]? = some item ∧ Free cap s pos
  | .publish item head pos =>
      head = pos % cap ∧ s.reserved[pos]? = some item ∧ Free cap s pos ∧
        (s.data head).item = some item

/-- What a consumer knows of its position. -/
def Reader (cap : ℕ) (s : MPMCQueue P C T) : Pop T → Prop
  | .idle | .loadHead _ | .cas _ => True
  | .wait tail pos => tail = pos % cap
  | .read tail pos => tail = pos % cap ∧ pos ∈ s.filled
  | .clear tail pos item =>
      tail = pos % cap ∧ pos ∈ s.filled ∧ (s.reserved[pos]?).map some = some item

/-- The number of a cell tells whether it is filled, and a filled cell holds the item of its
position until a consumer has taken it out. -/
structure Cells (cap : ℕ) (s : MPMCQueue P C T) : Prop where
  full : ∀ k ∈ s.filled, k ∉ s.emptied → (s.data (k % cap)).seq = k % cap
  seq : ∀ i < cap, (s.data i).seq = i → ∃ k ∈ s.filled, k ∉ s.emptied ∧ k % cap = i
  item : ∀ k ∈ s.filled, k ∉ s.emptied → (∀ c tail y, s.pop c ≠ .clear tail k y) →
    (s.data (k % cap)).item = s.reserved[k]?

/-- The invariant of the queue. -/
structure Ok (cap : ℕ) (s : MPMCQueue P C T) : Prop where
  cap_pos : 0 < cap
  head : s.head = s.reserved.length % cap
  tail : s.tail = s.popReserved % cap
  room : s.reserved.length < s.popReserved + cap
  pushes : Tickets (Push.position ∘ s.push) s.reserved.length s.filled
  pops : Tickets (Pop.position ∘ s.pop) s.popReserved s.emptied
  turns : Turns cap s.filled s.emptied
  pushed : ∀ k x, (k, x) ∈ s.pushed → s.reserved[k]? = some x
  popped : ∀ k y, (k, y) ∈ s.popped → (s.reserved[k]?).map some = some y
  writer : ∀ p, Writer cap s (s.push p)
  reader : ∀ c, Reader cap s (s.pop c)
  cells : Cells cap s

variable {cap : ℕ} {s s' : MPMCQueue P C T}

theorem ok_fresh (hcap : 0 < cap) : Ok cap (MPMCQueue.fresh cap : MPMCQueue P C T) where
  cap_pos := hcap
  head := (Nat.zero_mod cap).symm
  tail := (Nat.zero_mod cap).symm
  room := by simpa [MPMCQueue.fresh] using hcap
  pushes := Tickets.fresh
  pops := Tickets.fresh
  turns := Turns.fresh
  pushed _ _ h := by cases h
  popped _ _ h := by cases h
  writer _ := trivial
  reader _ := trivial
  cells := ⟨fun _ h => (by cases h), fun i hi hseq => by
    simp only [MPMCQueue.fresh, invalidIndex] at hseq
    omega, fun _ h => (by cases h)⟩

section Alone

variable {p : P} {pos : ℕ}

/-- A position that a producer holds is not filled yet. -/
theorem Ok.not_filled (h : Ok cap s) (hp : (s.push p).position = some pos) : pos ∉ s.filled :=
  (h.pushes.held p pos hp).2

theorem Ok.not_emptied {c : C} (h : Ok cap s) (hc : (s.pop c).position = some pos) :
    pos ∉ s.emptied :=
  (h.pops.held c pos hc).2

/-- The cell of a producer whose turn it is holds no other item. -/
theorem Ok.cell_ne_full (h : Ok cap s) (hp : (s.push p).position = some pos)
    (hfree : Free cap s pos) {k : ℕ} (hk : k ∈ s.filled) (hk' : k ∉ s.emptied) :
    k % cap ≠ pos % cap := by
  intro hcell
  rcases Nat.lt_trichotomy k pos with hlt | heq | hlt
  · exact hk' (hfree k hlt hcell)
  · exact h.not_filled hp (heq ▸ hk)
  · exact h.not_filled hp (h.turns.sub pos (h.turns.order k hk pos hlt hcell.symm))

/-- Two producers whose turn it is have different cells. -/
theorem Ok.cell_ne (h : Ok cap s) {q : P} {k : ℕ} (hne : q ≠ p)
    (hp : (s.push p).position = some pos) (hfree : Free cap s pos)
    (hq : (s.push q).position = some k) (hfree' : Free cap s k) : k % cap ≠ pos % cap := by
  intro hcell
  rcases Nat.lt_trichotomy k pos with hlt | heq | hlt
  · exact h.not_filled hq (h.turns.sub k (hfree k hlt hcell))
  · exact hne (h.pushes.unique q p k hq (heq ▸ hp))
  · exact h.not_filled hp (h.turns.sub pos (hfree' pos hlt hcell.symm))

/-- A position that waits for a cell whose number is invalid, with no earlier one on the
same side, is the next to be filled there. -/
theorem Ok.free_of_inTurn (h : Ok cap s) (hp : (s.push p).position = some pos)
    (hseq : (s.data (pos % cap)).seq = invalidIndex cap)
    (hturn : ∀ q k, (s.push q).position = some k → k % cap = pos % cap → pos ≤ k) :
    Free cap s pos := by
  intro j hj hcell
  by_contra hj'
  have hlt := (h.pushes.held p pos hp).1
  rcases h.pushes.total j (by omega) with hfilled | ⟨q, hq⟩
  · have hfull := h.cells.full j hfilled hj'
    rw [hcell, hseq, invalidIndex] at hfull
    have := Nat.mod_lt pos h.cap_pos
    omega
  · have := hturn q j hq hcell
    omega

/-- A position that waits for a cell with its number, with no earlier one on the same
side, is the one that is filled there. -/
theorem Ok.filled_of_inTurn {c : C} (h : Ok cap s) (hc : (s.pop c).position = some pos)
    (hseq : (s.data (pos % cap)).seq = pos % cap)
    (hturn : ∀ d k, (s.pop d).position = some k → k % cap = pos % cap → pos ≤ k) :
    pos ∈ s.filled := by
  obtain ⟨k, hk, hk', hcell⟩ := h.cells.seq (pos % cap) (Nat.mod_lt pos h.cap_pos) hseq
  have hlt := (h.pops.held c pos hc).1
  rcases Nat.lt_trichotomy k pos with hbefore | heq | hafter
  · rcases h.pops.total k (by omega) with hemptied | ⟨d, hd⟩
    · exact absurd hemptied hk'
    · have := hturn d k hd hcell
      omega
  · exact heq ▸ hk
  · exact absurd (h.turns.order k hk pos hafter hcell.symm) (h.not_emptied hc)

end Alone

theorem Writer.mono {pc : Push T} (h : Writer cap s pc)
    (hreserved : ∀ (k : ℕ) (x : T), s.reserved[k]? = some x → s'.reserved[k]? = some x)
    (hemptied : ∀ k ∈ s.emptied, k ∈ s'.emptied)
    (hitem : ∀ item head pos, pc = .publish item head pos →
      (s'.data head).item = (s.data head).item) : Writer cap s' pc := by
  cases pc with
  | idle | check | cas => trivial
  | wait item head pos => exact ⟨h.1, hreserved pos item h.2⟩
  | write item head pos =>
      exact ⟨h.1, hreserved pos item h.2.1, fun j hj hcell => hemptied j (h.2.2 j hj hcell)⟩
  | publish item head pos =>
      exact ⟨h.1, hreserved pos item h.2.1, fun j hj hcell => hemptied j (h.2.2.1 j hj hcell),
        (hitem item head pos rfl).trans h.2.2.2⟩

theorem Reader.mono {pc : Pop T} (h : Reader cap s pc)
    (hreserved : ∀ (k : ℕ) (x : T), s.reserved[k]? = some x → s'.reserved[k]? = some x)
    (hfilled : ∀ k ∈ s.filled, k ∈ s'.filled) : Reader cap s' pc := by
  cases pc with
  | idle | loadHead | cas => trivial
  | wait tail pos => exact h
  | read tail pos => exact ⟨h.1, hfilled pos h.2⟩
  | clear tail pos item =>
      obtain ⟨x, hx, hitem⟩ := Option.map_eq_some_iff.mp h.2.2
      exact ⟨h.1, hfilled pos h.2.1, by rw [hreserved pos x hx, Option.map_some, hitem]⟩

section Producer

variable [DecidableEq P] {p : P} {item : T} {head pos : ℕ}

theorem position_setPush (pc : Push T) :
    Push.position ∘ Function.update s.push p pc =
      Function.update (Push.position ∘ s.push) p pc.position := Function.comp_update _ _ _ _

theorem position_setPush_same {pc : Push T} (hsame : pc.position = (s.push p).position) :
    Push.position ∘ Function.update s.push p pc = Push.position ∘ s.push := by
  rw [position_setPush, hsame]
  exact Function.update_eq_self p _

theorem update_of_forall {α β : Type*} [DecidableEq α] {f : α → β} {a : α} {b : β}
    {Q : β → Prop} (hb : Q b) (hf : ∀ c, c ≠ a → Q (f c)) (c : α) :
    Q (Function.update f a b c) := by
  by_cases hc : c = a
  · rw [hc, Function.update_self]
    exact hb
  · rw [Function.update_of_ne hc]
    exact hf c hc

/-- A step of a producer that changes nothing but what it knows. -/
theorem Ok.setPush (h : Ok cap s) {pc : Push T} (hposition : pc.position = (s.push p).position)
    (hwriter : Writer cap s pc) : Ok cap (s.setPush p pc) := by
  have hpushes := h.pushes
  rw [← position_setPush_same hposition] at hpushes
  exact { h with
    pushes := hpushes
    writer := update_of_forall hwriter fun q _ => h.writer q
    cells := ⟨h.cells.full, h.cells.seq, h.cells.item⟩ }

/-- A push reserves the next position. -/
theorem Ok.winPush (h : Ok cap s) (hnone : (s.push p).position = none)
    (hroom : s.reserved.length + 1 < s.popReserved + cap) : Ok cap (s.winPush cap p item) := by
  have hlen : (s.reserved ++ [item]).length = s.reserved.length + 1 := List.length_append
  have hreserved : ∀ (k : ℕ) (x : T), s.reserved[k]? = some x →
      (s.reserved ++ [item])[k]? = some x := by
    intro k x hk
    rw [List.getElem?_append_left (List.getElem?_eq_some_iff.mp hk).1, hk]
  have hpushes := h.pushes.take hnone
  rw [← hlen] at hpushes
  exact {
    cap_pos := h.cap_pos
    head := by
      show (s.head + 1) % cap = (s.reserved ++ [item]).length % cap
      rw [hlen, h.head, RingIndex.succ_mod]
    tail := h.tail
    room := by
      show (s.reserved ++ [item]).length < s.popReserved + cap
      rw [hlen]
      exact hroom
    pushes := by
      simp only [MPMCQueue.winPush]
      rw [position_setPush]
      exact hpushes
    pops := h.pops
    turns := h.turns
    pushed := fun k x hk => hreserved k x (h.pushed k x hk)
    popped := fun k y hk => by
      obtain ⟨x, hx, hy⟩ := Option.map_eq_some_iff.mp (h.popped k y hk)
      show ((s.reserved ++ [item])[k]?).map some = some y
      rw [hreserved k x hx, Option.map_some, hy]
    writer := update_of_forall ⟨h.head, List.getElem?_concat_length⟩ fun q _ =>
      (h.writer q).mono hreserved (fun _ hk => hk) fun _ _ _ _ => rfl
    reader := fun c => (h.reader c).mono hreserved fun _ hk => hk
    cells := ⟨h.cells.full, h.cells.seq, fun k hk hk' hclear => by
      show (s.data (k % cap)).item = (s.reserved ++ [item])[k]?
      rw [List.getElem?_append_left (h.pushes.lt k hk)]
      exact h.cells.item k hk hk' hclear⟩ }

theorem seq_update_item (data : ℕ → Slot T) (head i : ℕ) (item : Option T) :
    (Function.update data head { data head with item := item } i).seq = (data i).seq := by
  by_cases hi : i = head
  · rw [hi, Function.update_self]
  · rw [Function.update_of_ne hi]

theorem item_update_seq (data : ℕ → Slot T) (head i seq : ℕ) :
    (Function.update data head { data head with seq := seq } i).item = (data i).item := by
  by_cases hi : i = head
  · rw [hi, Function.update_self]
  · rw [Function.update_of_ne hi]

/-- The producer whose turn it is stores its item. -/
theorem Ok.store (h : Ok cap s) (hpush : s.push p = .write item head pos) :
    Ok cap (s.store p item head pos) := by
  have hposition : (s.push p).position = some pos := by rw [hpush]; rfl
  have hwriter := h.writer p
  rw [hpush] at hwriter
  obtain ⟨rfl, hreserved, hfree⟩ := hwriter
  have hpushes := h.pushes
  have hpublish : (Push.publish item (pos % cap) pos).position = (s.push p).position :=
    hposition.symm
  rw [← position_setPush_same hpublish] at hpushes
  exact { h with
    pushes := hpushes
    writer := by
      refine update_of_forall ⟨rfl, hreserved, hfree, ?_⟩ fun q hq => ?_
      · simp only [MPMCQueue.store, MPMCQueue.setPush, MPMCQueue.setSlot, Function.update_self]
      · refine (h.writer q).mono (fun _ _ hk => hk) (fun _ hk => hk) fun x head k hpublish => ?_
        have hq' := h.writer q
        rw [hpublish] at hq'
        have hne := h.cell_ne hq hposition hfree (by rw [hpublish]; rfl) hq'.2.2.1
        rw [← hq'.1] at hne
        simp only [MPMCQueue.store, MPMCQueue.setPush, MPMCQueue.setSlot,
          Function.update_of_ne hne]
    cells := by
      refine ⟨fun k hk hk' => ?_, fun i hi hseq => ?_, fun k hk hk' hclear => ?_⟩
      · exact (seq_update_item _ _ _ _).trans (h.cells.full k hk hk')
      · exact h.cells.seq i hi ((seq_update_item _ _ _ _).symm.trans hseq)
      · have hne := h.cell_ne_full hposition hfree hk hk'
        simp only [MPMCQueue.store, MPMCQueue.setPush, MPMCQueue.setSlot,
          Function.update_of_ne hne]
        exact h.cells.item k hk hk' hclear }

/-- The cell of the position is filled. -/
theorem Ok.publish (h : Ok cap s) (hpush : s.push p = .publish item head pos) :
    Ok cap (s.publish p item head pos) := by
  have hposition : (s.push p).position = some pos := by rw [hpush]; rfl
  have hwriter := h.writer p
  rw [hpush] at hwriter
  obtain ⟨rfl, hreserved, hfree, hitem⟩ := hwriter
  have hfilled : (s.publish p item (pos % cap) pos).filled = s.filled ++ [pos] := List.map_append
  have hpos : pos ∉ s.emptied := fun hmem => h.not_filled hposition (h.turns.sub pos hmem)
  have hpushes := h.pushes.finish hposition
  have hidle : (Push.idle : Push T).position = none := rfl
  rw [← hidle, ← position_setPush, ← hfilled] at hpushes
  exact { h with
    pushes := hpushes
    turns := by
      rw [hfilled]
      exact h.turns.fill hfree
    pushed := fun k x hk => by
      rcases List.mem_append.mp hk with hk | hlast
      · exact h.pushed k x hk
      · obtain ⟨rfl, rfl⟩ := Prod.mk.inj (List.mem_singleton.mp hlast)
        exact hreserved
    writer := update_of_forall trivial fun q _ =>
      (h.writer q).mono (fun _ _ hk => hk) (fun _ hk => hk) fun _ _ _ _ =>
        item_update_seq _ _ _ _
    reader := fun c => (h.reader c).mono (fun _ _ hk => hk) fun k hk => by
      rw [hfilled]
      exact List.mem_append_left _ hk
    cells := by
      refine ⟨fun k hk hk' => ?_, fun i hi hseq => ?_, fun k hk hk' hclear => ?_⟩
      · rw [hfilled] at hk
        rcases List.mem_append.mp hk with hk | hlast
        · have hne := h.cell_ne_full hposition hfree hk hk'
          simp only [MPMCQueue.publish, MPMCQueue.setPush, MPMCQueue.setSlot,
            Function.update_of_ne hne]
          exact h.cells.full k hk hk'
        · rw [List.mem_singleton] at hlast
          simp only [hlast, MPMCQueue.publish, MPMCQueue.setPush, MPMCQueue.setSlot,
            Function.update_self]
      · rw [hfilled]
        by_cases hcell : i = pos % cap
        · exact ⟨pos, by simp, hpos, hcell.symm⟩
        · simp only [MPMCQueue.publish, MPMCQueue.setPush, MPMCQueue.setSlot,
            Function.update_of_ne hcell] at hseq
          obtain ⟨k, hk, hk', hki⟩ := h.cells.seq i hi hseq
          exact ⟨k, List.mem_append_left _ hk, hk', hki⟩
      · rw [hfilled] at hk
        refine (item_update_seq _ _ _ _).trans ?_
        rcases List.mem_append.mp hk with hk | hlast
        · exact h.cells.item k hk hk' hclear
        · rw [List.mem_singleton] at hlast
          rw [hlast, hitem]
          exact hreserved.symm }

theorem Ok.stepProducer (h : Ok cap s) {weak : Bool}
    (hturn : InTurn cap s (.producer p weak)) (hstep : s.stepProducer cap p weak = some s') :
    Ok cap s' := by
  unfold MPMCQueue.stepProducer at hstep
  cases hpush : s.push p with
  | idle =>
      rw [hpush] at hstep
      cases hstep
  | check item head =>
      simp only [hpush] at hstep
      split at hstep
      · cases hstep
        exact h.setPush (by rw [hpush]; rfl) trivial
      · cases hstep
        exact h.setPush (by rw [hpush]; rfl) trivial
  | cas item head =>
      simp only [hpush] at hstep
      split at hstep
      · rename_i hwin
        obtain ⟨rfl, rfl⟩ := hwin
        cases hstep
        exact h.winPush (by rw [hpush]; rfl) (hturn.room p item rfl hpush)
      · cases hstep
        exact h.setPush (by rw [hpush]; rfl) trivial
  | wait item head pos =>
      simp only [hpush] at hstep
      split at hstep
      · cases hstep
        exact h
      · rename_i hseq
        rw [not_not] at hseq
        cases hstep
        have hwriter := h.writer p
        rw [hpush] at hwriter
        refine h.setPush (by rw [hpush]; rfl) ⟨hwriter.1, hwriter.2, ?_⟩
        exact h.free_of_inTurn (by rw [hpush]; rfl) (hwriter.1 ▸ hseq)
          (hturn.push p weak item head pos rfl hpush hseq)
  | write item head pos =>
      rw [hpush] at hstep
      cases hstep
      exact h.store hpush
  | publish item head pos =>
      rw [hpush] at hstep
      cases hstep
      exact h.publish hpush

end Producer

section Consumer

variable {c : C} {tail pos : ℕ} {item : Option T}

/-- The consumer whose turn it is finds the item of its position. -/
theorem Ok.item_eq (h : Ok cap s) (hpop : s.pop c = .read tail pos) :
    (s.reserved[pos]?).map some = some (s.data tail).item := by
  have hposition : (s.pop c).position = some pos := by rw [hpop]; rfl
  have hreader := h.reader c
  rw [hpop] at hreader
  have hnone : ∀ d tail y, s.pop d ≠ .clear tail pos y := by
    intro d tail' y hd
    have hsame := h.pops.unique d c pos (congrArg Pop.position hd) hposition
    rw [hsame, hpop] at hd
    cases hd
  have hitem := h.cells.item pos hreader.2 (h.not_emptied hposition) hnone
  rw [← hreader.1, List.getElem?_eq_getElem (h.pushes.lt pos hreader.2)] at hitem
  rw [hitem, List.getElem?_eq_getElem (h.pushes.lt pos hreader.2), Option.map_some]

variable [DecidableEq C]

theorem position_setPop (pc : Pop T) :
    Pop.position ∘ Function.update s.pop c pc =
      Function.update (Pop.position ∘ s.pop) c pc.position := Function.comp_update _ _ _ _

theorem position_setPop_same {pc : Pop T} (hsame : pc.position = (s.pop c).position) :
    Pop.position ∘ Function.update s.pop c pc = Pop.position ∘ s.pop := by
  rw [position_setPop, hsame]
  exact Function.update_eq_self c _

/-- Nobody but the consumer itself is between the two steps that empty the cell. -/
theorem no_clear_of_update {pc : Pop T} {k : ℕ} (hold : ∀ tail y, s.pop c ≠ .clear tail k y)
    (hclear : ∀ d tail y, Function.update s.pop c pc d ≠ .clear tail k y) (d : C) (tail : ℕ)
    (y : Option T) : s.pop d ≠ .clear tail k y := by
  by_cases hd : d = c
  · rw [hd]
    exact hold tail y
  · have := hclear d tail y
    rwa [Function.update_of_ne hd] at this

/-- A step of a consumer that changes nothing but what it knows. -/
theorem Ok.setPop (h : Ok cap s) {pc : Pop T} (hposition : pc.position = (s.pop c).position)
    (hold : ∀ tail k y, s.pop c ≠ .clear tail k y) (hreader : Reader cap s pc) :
    Ok cap (s.setPop c pc) := by
  have hpops := h.pops
  rw [← position_setPop_same hposition] at hpops
  exact { h with
    pops := hpops
    reader := update_of_forall hreader fun d _ => h.reader d
    cells := ⟨h.cells.full, h.cells.seq, fun k hk hk' hclear =>
      h.cells.item k hk hk' (no_clear_of_update (fun tail => hold tail k) hclear)⟩ }

/-- A pop reserves the next position. -/
theorem Ok.winPop (h : Ok cap s) (hnone : (s.pop c).position = none)
    (hold : ∀ tail k y, s.pop c ≠ .clear tail k y) : Ok cap (s.winPop cap c) := by
  have hpops := h.pops.take hnone
  have hroom := h.room
  have hwait : (Pop.wait s.tail s.popReserved : Pop T).position = some s.popReserved := rfl
  rw [← hwait, ← position_setPop] at hpops
  exact { h with
    tail := by
      show (s.tail + 1) % cap = (s.popReserved + 1) % cap
      rw [h.tail, RingIndex.succ_mod]
    room := by
      show s.reserved.length < s.popReserved + 1 + cap
      omega
    pops := hpops
    reader := update_of_forall h.tail fun d _ => h.reader d
    cells := ⟨h.cells.full, h.cells.seq, fun k hk hk' hclear =>
      h.cells.item k hk hk' (no_clear_of_update (fun tail => hold tail k) hclear)⟩ }

/-- The item is moved out of its cell. -/
theorem Ok.take (h : Ok cap s) (hpop : s.pop c = .read tail pos) :
    Ok cap (s.take c tail pos) := by
  have hposition : (s.pop c).position = some pos := by rw [hpop]; rfl
  have hitem := h.item_eq hpop
  have hreader := h.reader c
  rw [hpop] at hreader
  obtain ⟨rfl, hfilled⟩ := hreader
  have hpos := h.not_emptied hposition
  have hpops := h.pops
  have hclear : (Pop.clear (pos % cap) pos (s.data (pos % cap)).item).position =
      (s.pop c).position := hposition.symm
  rw [← position_setPop_same hclear] at hpops
  exact { h with
    pops := hpops
    writer := fun q => (h.writer q).mono (fun _ _ hk => hk) (fun _ hk => hk)
      fun x head k hpublish => by
        have hq := h.writer q
        rw [hpublish] at hq
        have hne := h.cell_ne_full (by rw [hpublish]; rfl) hq.2.2.1 hfilled hpos
        rw [← hq.1] at hne
        simp only [MPMCQueue.take, MPMCQueue.setPop, MPMCQueue.setSlot,
          Function.update_of_ne hne.symm]
    reader := update_of_forall ⟨rfl, hfilled, hitem⟩ fun d _ => h.reader d
    cells := by
      refine ⟨fun k hk hk' => ?_, fun i hi hseq => ?_, fun k hk hk' hclear => ?_⟩
      · exact (seq_update_item _ _ _ _).trans (h.cells.full k hk hk')
      · exact h.cells.seq i hi ((seq_update_item _ _ _ _).symm.trans hseq)
      · have hkpos : k ≠ pos := by
          rintro rfl
          exact hclear c (k % cap) _ (Function.update_self _ _ _)
        have hne : k % cap ≠ pos % cap := fun hcell =>
          hkpos (h.turns.eq_of_full hk hk' hfilled hpos hcell)
        simp only [MPMCQueue.take, MPMCQueue.setPop, MPMCQueue.setSlot,
          Function.update_of_ne hne]
        refine h.cells.item k hk hk' (no_clear_of_update (fun tail y => ?_) hclear)
        rw [hpop]
        exact fun heq => by cases heq }

/-- The cell of the position is empty. -/
theorem Ok.clear (h : Ok cap s) (hpop : s.pop c = .clear tail pos item) :
    Ok cap (s.clear cap c tail pos item) := by
  have hposition : (s.pop c).position = some pos := by rw [hpop]; rfl
  have hreader := h.reader c
  rw [hpop] at hreader
  obtain ⟨rfl, hfilled, hitem⟩ := hreader
  have hemptied : (s.clear cap c (pos % cap) pos item).emptied = s.emptied ++ [pos] :=
    List.map_append
  have hpos := h.not_emptied hposition
  have hpops := h.pops.finish hposition
  have hidle : (Pop.idle : Pop T).position = none := rfl
  rw [← hidle, ← position_setPop, ← hemptied] at hpops
  exact { h with
    pops := hpops
    turns := by
      rw [hemptied]
      exact h.turns.empty hfilled
    popped := fun k y hk => by
      rcases List.mem_append.mp hk with hk | hlast
      · exact h.popped k y hk
      · obtain ⟨rfl, rfl⟩ := Prod.mk.inj (List.mem_singleton.mp hlast)
        exact hitem
    writer := fun q => (h.writer q).mono (fun _ _ hk => hk) (fun k hk => by
      rw [hemptied]
      exact List.mem_append_left _ hk) fun _ _ _ _ => item_update_seq _ _ _ _
    reader := update_of_forall trivial fun d _ => h.reader d
    cells := by
      refine ⟨fun k hk hk' => ?_, fun i hi hseq => ?_, fun k hk hk' hclear => ?_⟩
      · rw [hemptied, List.mem_append, List.mem_singleton, not_or] at hk'
        have hne : k % cap ≠ pos % cap := fun hcell =>
          hk'.2 (h.turns.eq_of_full hk hk'.1 hfilled hpos hcell)
        simp only [MPMCQueue.clear, MPMCQueue.setPop, MPMCQueue.setSlot,
          Function.update_of_ne hne]
        exact h.cells.full k hk hk'.1
      · by_cases hcell : i = pos % cap
        · simp only [hcell, MPMCQueue.clear, MPMCQueue.setPop, MPMCQueue.setSlot,
            Function.update_self, invalidIndex] at hseq
          omega
        · simp only [MPMCQueue.clear, MPMCQueue.setPop, MPMCQueue.setSlot,
            Function.update_of_ne hcell] at hseq
          obtain ⟨k, hk, hk', hki⟩ := h.cells.seq i hi hseq
          refine ⟨k, hk, ?_, hki⟩
          rw [hemptied, List.mem_append, List.mem_singleton, not_or]
          exact ⟨hk', fun heq => hcell (by rw [← hki, heq])⟩
      · rw [hemptied, List.mem_append, List.mem_singleton, not_or] at hk'
        refine (item_update_seq _ _ _ _).trans (h.cells.item k hk hk'.1
          (no_clear_of_update (fun tail y => ?_) hclear))
        rw [hpop]
        exact fun heq => by cases heq; exact hk'.2 rfl }

theorem Ok.stepConsumer (h : Ok cap s) {weak : Bool}
    (hturn : InTurn cap s (.consumer c weak)) : Ok cap (s.stepConsumer cap c weak) := by
  unfold MPMCQueue.stepConsumer
  cases hpop : s.pop c with
  | idle => exact h.setPop (by rw [hpop]; rfl) (by simp [hpop]) trivial
  | loadHead tail =>
      simp only
      split
      · exact h.setPop (by rw [hpop]; rfl) (by simp [hpop]) trivial
      · exact h.setPop (by rw [hpop]; rfl) (by simp [hpop]) trivial
  | cas tail =>
      simp only
      split
      · exact h.winPop (by rw [hpop]; rfl) (by simp [hpop])
      · exact h.setPop (by rw [hpop]; rfl) (by simp [hpop]) trivial
  | wait tail pos =>
      simp only
      split
      · exact h
      · rename_i hseq
        rw [not_not] at hseq
        have hreader := h.reader c
        rw [hpop] at hreader
        refine h.setPop (by rw [hpop]; rfl) (by simp [hpop]) ⟨hreader, ?_⟩
        refine h.filled_of_inTurn (by rw [hpop]; rfl) ?_
          (hturn.pop c weak tail pos rfl hpop hseq)
        rw [← show tail = pos % cap from hreader, hseq]
  | read tail pos => exact h.take hpop
  | clear tail pos item => exact h.clear hpop

end Consumer

theorem Ok.step [DecidableEq P] [DecidableEq C] (h : Ok cap s) {a : Act P C T}
    (hturn : InTurn cap s a) (hstep : s.step cap a = some s') : Ok cap s' := by
  cases a with
  | call p item =>
      simp only [MPMCQueue.step] at hstep
      split at hstep
      · rename_i hpush
        cases hstep
        exact h.setPush (by rw [hpush]; rfl) trivial
      · cases hstep
  | producer p weak => exact h.stepProducer hturn hstep
  | consumer c weak =>
      cases hstep
      exact h.stepConsumer hturn

end Invariant

section ExactlyOnce

variable {cap : ℕ} {s : MPMCQueue P C T}

/-- No unfinished item is in the cell that a producer is about to fill. -/
theorem Ok.writes (h : Ok cap s) {p : P} {item : T} {head pos : ℕ}
    (hpush : s.push p = .write item head pos) :
    (∀ k x, (k, x) ∈ s.pushed → k % cap = head → ∃ y, (k, y) ∈ s.popped) ∧
      ∀ q x k, s.push q ≠ .publish x head k := by
  have hposition : (s.push p).position = some pos := by rw [hpush]; rfl
  have hwriter := h.writer p
  rw [hpush] at hwriter
  obtain ⟨rfl, -, hfree⟩ := hwriter
  refine ⟨fun k x hk hcell => ?_, fun q x k hpublish => ?_⟩
  · have hemptied : k ∈ s.emptied := by
      by_contra hk'
      exact h.cell_ne_full hposition hfree (List.mem_map_of_mem hk) hk' hcell
    obtain ⟨⟨_, y⟩, hy, rfl⟩ := List.mem_map.mp hemptied
    exact ⟨y, hy⟩
  · have hq := h.writer q
    rw [hpublish] at hq
    have hne : q ≠ p := by
      rintro rfl
      rw [hpush] at hpublish
      cases hpublish
    exact h.cell_ne hne hposition hfree (by rw [hpublish]; rfl) hq.2.2.1 hq.1.symm

/-- A pop that has returned has the item of the push with its position. -/
theorem Ok.matched (h : Ok cap s) {k : ℕ} {y : Option T} (hk : (k, y) ∈ s.popped) :
    ∃ x, (k, x) ∈ s.pushed ∧ y = some x := by
  have hfilled : k ∈ s.filled := h.turns.sub k (List.mem_map_of_mem hk)
  obtain ⟨⟨_, x⟩, hx, rfl⟩ := List.mem_map.mp hfilled
  have hitem := h.popped _ y hk
  rw [h.pushed _ x hx] at hitem
  exact ⟨x, hx, (Option.some.inj hitem).symm⟩

/-- What the calls of `push` that have returned have pushed. -/
theorem Ok.pushed_map (h : Ok cap s) :
    s.pushed.map (fun e => some e.2) = s.filled.map (s.reserved[·]?) := by
  rw [MPMCQueue.filled, List.map_map]
  exact List.map_congr_left fun ⟨k, x⟩ hk => (h.pushed k x hk).symm

theorem Ok.popped_map (h : Ok cap s) :
    s.popped.map (fun e => e.2) = s.emptied.map (s.reserved[·]?) := by
  rw [MPMCQueue.emptied, List.map_map]
  refine List.map_congr_left fun ⟨k, y⟩ hk => ?_
  obtain ⟨x, hx, rfl⟩ := h.matched hk
  exact (h.pushed k x hx).symm

section Rest

variable (hpush : ∀ p, s.push p = .idle) (hpop : ∀ c, s.pop c = .idle)

include hpush in
theorem Ok.filled_perm (h : Ok cap s) : s.filled.Perm (List.range s.reserved.length) :=
  h.pushes.perm_range fun p => by rw [Function.comp_apply, hpush]; rfl

include hpop in
theorem Ok.emptied_perm (h : Ok cap s) : s.emptied.Perm (List.range s.popReserved) :=
  h.pops.perm_range fun c => by rw [Function.comp_apply, hpop]; rfl

include hpop in
theorem Ok.popReserved_le (h : Ok cap s) : s.popReserved ≤ s.reserved.length := by
  by_contra hlt
  have hmem : s.reserved.length ∈ s.emptied :=
    (h.emptied_perm hpop).mem_iff.mpr (List.mem_range.mpr (by omega))
  exact Nat.lt_irrefl _ (h.pushes.lt _ (h.turns.sub _ hmem))

include hpush hpop

/-- When all calls have returned, the cells from the tail to the head hold the items of
the positions that are reserved by pushes and not by pops. -/
theorem Ok.contents_eq (h : Ok cap s) :
    s.contents cap = (List.range (s.reserved.length - s.popReserved)).map
      fun i => s.reserved[s.popReserved + i]? := by
  have hle := h.popReserved_le hpop
  have hroom := h.room
  rw [MPMCQueue.contents, h.head, h.tail, RingIndex.distance_mod hle hroom]
  refine List.map_congr_left fun i hi => ?_
  rw [List.mem_range] at hi
  rw [Nat.mod_add_mod]
  refine h.cells.item _ ?_ ?_ fun c => ?_
  · rw [(h.filled_perm hpush).mem_iff, List.mem_range]
    omega
  · rw [(h.emptied_perm hpop).mem_iff, List.mem_range]
    omega
  · simp [hpop c]

theorem Ok.remains (h : Ok cap s) :
    (s.pushed.map (fun e => some e.2)).Perm (s.popped.map (fun e => e.2) ++ s.contents cap) := by
  have hle := h.popReserved_le hpop
  have hall : List.range s.reserved.length = List.range s.popReserved ++
      (List.range (s.reserved.length - s.popReserved)).map (s.popReserved + ·) := by
    rw [← List.range_add, Nat.add_sub_cancel' hle]
  rw [h.pushed_map, h.popped_map, h.contents_eq hpush hpop]
  refine ((h.filled_perm hpush).map _).trans ?_
  rw [hall, List.map_append, List.map_map]
  exact ((h.emptied_perm hpop).symm.map _).append_right _

end Rest

theorem Ok.exactlyOnce (h : Ok cap s) : ExactlyOnce cap s where
  writes _ _ _ _ := h.writes
  once := ⟨h.pushes.nodup, h.pops.nodup⟩
  positions := h.pushed
  matched _ _ := h.matched
  remains := h.remains

/-- Each item is delivered exactly once in the runs in which the waits end in turn and a
reservation finds room. -/
theorem exactlyOnce_of_inTurn [DecidableEq P] [DecidableEq C] {cap : ℕ} (hcap : 2 ≤ cap)
    (acts : List (Act P C T))
    (h : EachStep (MPMCQueue.step cap) (InTurn cap) (MPMCQueue.fresh cap) acts) :
    Always (MPMCQueue.step cap) (ExactlyOnce cap) (MPMCQueue.fresh cap) acts :=
  always_of_eachStep (fun _ _ _ hok hturn hstep => hok.step hturn hstep)
    (fun _ hok => hok.exactlyOnce) (ok_fresh (by omega)) h

/-- `InTurn` as a test for finitely many threads. -/
def takesTurn [Fintype P] [Fintype C] (cap : ℕ) (s : MPMCQueue P C T) : Act P C T → Bool
  | .call _ _ => true
  | .producer p weak =>
      match s.push p with
      | .cas _ head =>
          weak = false → head = s.head → s.reserved.length + 1 < s.popReserved + cap
      | .wait _ head pos => (s.data head).seq = invalidIndex cap →
          ∀ q, ∀ k ∈ (s.push q).position, k % cap = pos % cap → pos ≤ k
      | _ => true
  | .consumer c _ =>
      match s.pop c with
      | .wait tail pos => (s.data tail).seq = tail →
          ∀ d, ∀ k ∈ (s.pop d).position, k % cap = pos % cap → pos ≤ k
      | _ => true

theorem inTurn_of_takesTurn [Fintype P] [Fintype C] {a : Act P C T}
    (h : takesTurn cap s a = true) : InTurn cap s a where
  push := by
    rintro p weak item head pos rfl hpush hfree q k hk hcell
    simp only [takesTurn, hpush, decide_eq_true_eq] at h
    exact h hfree q k hk hcell
  pop := by
    rintro c weak tail pos rfl hpop hfilled d k hk hcell
    simp only [takesTurn, hpop, decide_eq_true_eq] at h
    exact h hfilled d k hk hcell
  room := by
    rintro p item rfl hpush
    simpa only [takesTurn, hpush, decide_eq_true_eq, forall_const] using h

/-- Producer `true` reserves cell 0 and stalls while 6 goes through cell 1; producer `false` then
reserves cell 0 for the next lap and waits until 5 has been stored and popped. -/
def twoLaps : List (Act Bool Bool ℕ) :=
  let push (p : Bool) (n : ℕ) : List (Act Bool Bool ℕ) := List.replicate n (.producer p false)
  let pop (c : Bool) (n : ℕ) : List (Act Bool Bool ℕ) := List.replicate n (.consumer c false)
  .call true 5 :: push true 2 ++ pop true 3 ++ .call false 6 :: push false 5 ++ pop false 6 ++
    .call false 7 :: push false 2 ++ push true 3 ++ push false 1 ++ pop true 3 ++
    push false 3 ++ pop false 6

theorem exactlyOnce_of_inTurn_two :
    (run (MPMCQueue.step 2) (MPMCQueue.fresh 2) twoLaps).map (·.popped) =
        some [(1, some 6), (0, some 5), (2, some 7)] ∧
      Always (MPMCQueue.step 2) (ExactlyOnce 2) (MPMCQueue.fresh 2) twoLaps := by
  refine ⟨by decide, exactlyOnce_of_inTurn (by decide) _ ?_⟩
  refine EachStep.mono (fun _ _ => inTurn_of_takesTurn) ?_
  decide

/-- Producer 1 reserves cell 0 and stalls. Consumer 1 waits for it, 6 goes through cell 1,
and producer 3 reserves cell 0 for the next lap; then both producers find it free. -/
def overtakenRun : List (Act ℕ ℕ ℕ) :=
  [.call 1 5, .producer 1 false, .producer 1 false, .consumer 1 false, .consumer 1 false,
    .consumer 1 false, .call 2 6, .producer 2 false, .producer 2 false, .producer 2 false,
    .producer 2 false, .producer 2 false, .consumer 2 false, .consumer 2 false,
    .consumer 2 false, .consumer 2 false, .consumer 2 false, .consumer 2 false, .call 3 7,
    .producer 3 false, .producer 3 false, .producer 3 false, .producer 1 false,
    .producer 1 false, .producer 1 false]

/-- The item of producer 3 will be stored over that of producer 1, which nobody has
popped. -/
theorem not_exactlyOnce_of_overtaken :
    ¬ ∀ acts : List (Act ℕ ℕ ℕ),
      Always (MPMCQueue.step 2) (ExactlyOnce 2) (MPMCQueue.fresh 2) acts := by
  intro h
  have hview : (run (MPMCQueue.step 2) (MPMCQueue.fresh 2) overtakenRun).map
      (fun s => (s.push 3, s.pushed, s.popped)) =
        some (.write 7 0 2, [(1, 6), (0, 5)], [(1, some 6)]) := by decide +kernel
  obtain ⟨s, hs, hview⟩ := Option.map_eq_some_iff.mp hview
  simp only [Prod.mk.injEq] at hview
  obtain ⟨hpush, hpushed, hpopped⟩ := hview
  obtain ⟨y, hy⟩ := (((h _).last hs).writes 3 7 0 2 hpush).1 0 5 (by simp [hpushed]) rfl
  simp [hpopped] at hy

end ExactlyOnce

end SimpleRedis.MPMC
