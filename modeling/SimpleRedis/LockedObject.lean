import SimpleRedis.TransitionRun
import Mathlib.Data.Nat.Notation
import Mathlib.Logic.Function.Basic

/-!
# Objects behind a lock

A method takes the lock, accesses the data step by step, and releases the lock; if it has found
nothing to return it goes round once more. Any number of threads call methods, and the steps of
the lock and the accesses to the data interleave in any way. Only one thread is ever between its
lock and its unlock, and the calls and returns are those of an object whose methods take effect
in one step.
-/
namespace SimpleRedis.LockedObject

open TransitionRun

variable {T M σ L R φ π : Type*}

/-- The code of a lock with the shared state `φ`: a thread that wants it goes from `enter` through
the points `π` until `holds`. -/
structure Lock (φ π : Type*) where
  initial : φ
  free : φ → Bool
  enter : π
  attempt : φ → π → φ × π
  holds : π → Bool
  release : φ → φ
  /-- The steps that a thread needs at most while the lock is free. -/
  rank : π → ℕ
  free_initial : free initial = true
  holds_enter : holds enter = false
  free_release : ∀ f, free (release f) = true
  attempt_holds : ∀ f p, holds p = false → holds (attempt f p).2 = true →
    free f = true ∧ free (attempt f p).1 = false
  attempt_waits : ∀ f p, holds (attempt f p).2 = false → free (attempt f p).1 = free f
  attempt_rank : ∀ f p, free f = true → holds p = false → holds (attempt f p).2 = false →
    rank (attempt f p).2 < rank p

/-- The code of the methods between lock and unlock: at a point `L` one access to the data is
made, which leads to the next point or to the end of the body. An access without an outcome is
undefined. A body that ends without a result is gone through once more. -/
structure Object (M σ L R : Type*) where
  start : M → L
  access : L → σ → Option (σ × (L ⊕ Option R))

/-- What the rest of a body does if nobody else touches the data. -/
inductive Object.Body (obj : Object M σ L R) : L → σ → σ → Option R → Prop
  | last {l : L} {d d' : σ} {r : Option R} (h : obj.access l d = some (d', .inr r)) :
      Body obj l d d' r
  | next {l l' : L} {d d' d'' : σ} {r : Option R} (h : obj.access l d = some (d', .inl l'))
      (hrest : Body obj l' d' d'' r) : Body obj l d d'' r

/-- Each method does in one step what its body does; where the method waits, the body changes
nothing and goes round. -/
def Object.Implements (obj : Object M σ L R) (method : M → σ → Option (σ × R)) : Prop :=
  ∀ m d, match method m d with
    | some (d', r) => obj.Body (obj.start m) d d' (some r)
    | none => obj.Body (obj.start m) d d none

/-- A call of a method, or its return. -/
inductive Event (T M R : Type*) where
  | call (t : T) (m : M)
  | ret (t : T) (m : M) (r : R)
  deriving DecidableEq, Repr

/-- Where a thread is. -/
inductive Spot (M L R π : Type*) where
  | outside
  | locking (m : M) (p : π)
  | inside (m : M) (l : L)
  | unlocking (m : M) (r : Option R)

/-- The thread is between its lock and its unlock. -/
def Spot.Holds : Spot M L R π → Prop
  | .inside _ _ | .unlocking _ _ => True
  | _ => False

inductive Act (T M : Type*) where
  | call (t : T) (m : M)
  | go (t : T)

/-- The lock, the data behind it, the threads, and the calls and returns so far. -/
structure Shared (T M σ L R φ π : Type*) where
  lock : φ
  data : σ
  spots : T → Spot M L R π
  log : List (Event T M R)

namespace Shared

def fresh (lk : Lock φ π) (data : σ) : Shared T M σ L R φ π where
  lock := lk.initial
  data := data
  spots _ := .outside
  log := []

def record (s : Shared T M σ L R φ π) (event : Event T M R) : Shared T M σ L R φ π :=
  { s with log := s.log ++ [event] }

variable [DecidableEq T]

def goTo (s : Shared T M σ L R φ π) (t : T) (spot : Spot M L R π) : Shared T M σ L R φ π :=
  { s with spots := Function.update s.spots t spot }

/-- The unlock, behind which the method returns or goes round. -/
def unlock (lk : Lock φ π) (s : Shared T M σ L R φ π) (t : T) (m : M) :
    Option R → Shared T M σ L R φ π
  | none => { s with lock := lk.release s.lock }.goTo t (.locking m lk.enter)
  | some r => ({ s with lock := lk.release s.lock }.goTo t .outside).record (.ret t m r)

/-- The next step of a thread that has called a method. -/
def stepThread (lk : Lock φ π) (obj : Object M σ L R) (s : Shared T M σ L R φ π) (t : T) :
    Option (Shared T M σ L R φ π) :=
  match s.spots t with
  | .outside => none
  | .locking m p =>
      let out := lk.attempt s.lock p
      some ({ s with lock := out.1 }.goTo t
        (if lk.holds out.2 then .inside m (obj.start m) else .locking m out.2))
  | .inside m l =>
      (obj.access l s.data).map fun
        | (data, .inl l) => { s with data := data }.goTo t (.inside m l)
        | (data, .inr r) => { s with data := data }.goTo t (.unlocking m r)
  | .unlocking m r => some (s.unlock lk t m r)

def step (lk : Lock φ π) (obj : Object M σ L R) (s : Shared T M σ L R φ π) :
    Act T M → Option (Shared T M σ L R φ π)
  | .call t m =>
      match s.spots t with
      | .outside => some ((s.goTo t (.locking m lk.enter)).record (.call t m))
      | _ => none
  | .go t => s.stepThread lk obj t

end Shared

/-- Where a thread is with a method that takes effect in one step. -/
inductive Op (M R : Type*) where
  | idle
  | pending (m : M)
  | done (m : M) (r : R)
  deriving DecidableEq, Repr

inductive AtomicAct (T M : Type*) where
  | call (t : T) (m : M)
  | take (t : T)
  | ret (t : T)

/-- The object with methods that take effect in one step. -/
structure Atomic (T M σ R : Type*) where
  data : σ
  ops : T → Op M R
  log : List (Event T M R)

namespace Atomic

def fresh (data : σ) : Atomic T M σ R where
  data := data
  ops _ := .idle
  log := []

variable [DecidableEq T]

def step (method : M → σ → Option (σ × R)) (s : Atomic T M σ R) :
    AtomicAct T M → Option (Atomic T M σ R)
  | .call t m =>
      match s.ops t with
      | .idle => some { s with
          ops := Function.update s.ops t (.pending m), log := s.log ++ [.call t m] }
      | _ => none
  | .take t =>
      match s.ops t with
      | .pending m => (method m s.data).map fun out =>
          { s with data := out.1, ops := Function.update s.ops t (.done m out.2) }
      | _ => none
  | .ret t =>
      match s.ops t with
      | .done m r => some { s with
          ops := Function.update s.ops t .idle, log := s.log ++ [.ret t m r] }
      | _ => none

end Atomic

section Bodies

variable {obj : Object M σ L R} {method : M → σ → Option (σ × R)} {m : M} {l l' : L} {d d' : σ}
  {r : Option R}

/-- The body that is left behind an access. -/
theorem Object.Body.rest (h : obj.Body l d d' r) {d₁ : σ}
    (haccess : obj.access l d = some (d₁, .inl l')) : obj.Body l' d₁ d' r := by
  cases h with
  | last hlast => cases haccess.symm.trans hlast
  | next hnext hrest =>
      cases haccess.symm.trans hnext
      exact hrest

theorem Object.Body.ends (h : obj.Body l d d' r) {d₁ : σ} {r₁ : Option R}
    (haccess : obj.access l d = some (d₁, .inr r₁)) : d₁ = d' ∧ r₁ = r := by
  cases h with
  | last hlast =>
      cases haccess.symm.trans hlast
      exact ⟨rfl, rfl⟩
  | next hnext hrest => cases haccess.symm.trans hnext

theorem Object.Body.unique (h : obj.Body l d d' r) {d'' : σ} {r' : Option R}
    (h' : obj.Body l d d'' r') : d' = d'' ∧ r = r' := by
  induction h with
  | last hlast => exact h'.ends hlast
  | next hnext hrest ih => exact ih (h'.rest hnext)

/-- An access of a body is defined. -/
theorem Object.Body.isSome (h : obj.Body l d d' r) : (obj.access l d).isSome = true := by
  cases h with
  | last hlast => rw [hlast]; rfl
  | next hnext hrest => rw [hnext]; rfl

theorem Object.Implements.total (h : obj.Implements method) (m : M) (d : σ) :
    ∃ d' r, obj.Body (obj.start m) d d' r := by
  have hm := h m d
  split at hm
  · exact ⟨_, _, hm⟩
  · exact ⟨_, _, hm⟩

theorem Object.Implements.eq_some (h : obj.Implements method) {r : R}
    (hbody : obj.Body (obj.start m) d d' (some r)) : method m d = some (d', r) := by
  have hm := h m d
  split at hm
  · rename_i hmethod
    obtain ⟨rfl, heq⟩ := hm.unique hbody
    cases heq
    exact hmethod
  · cases (hm.unique hbody).2

theorem Object.Implements.eq_none (h : obj.Implements method)
    (hbody : obj.Body (obj.start m) d d' none) : method m d = none ∧ d' = d := by
  have hm := h m d
  split at hm
  · cases (hm.unique hbody).2
  · rename_i hmethod
    exact ⟨hmethod, (hbody.unique hm).1⟩

end Bodies

section Steps

variable [DecidableEq T] {lk : Lock φ π} {obj : Object M σ L R} {s s' : Shared T M σ L R φ π}

/-- What a step does, with what it needs. -/
inductive Stepped (lk : Lock φ π) (obj : Object M σ L R) (s : Shared T M σ L R φ π) :
    Act T M → Shared T M σ L R φ π → Prop
  | call {t : T} {m : M} (hspot : s.spots t = .outside) :
      Stepped lk obj s (.call t m) ((s.goTo t (.locking m lk.enter)).record (.call t m))
  | wait {t : T} {m : M} {p : π} (hspot : s.spots t = .locking m p)
      (hholds : lk.holds (lk.attempt s.lock p).2 = false) :
      Stepped lk obj s (.go t)
        ({ s with lock := (lk.attempt s.lock p).1 }.goTo t (.locking m (lk.attempt s.lock p).2))
  | acquire {t : T} {m : M} {p : π} (hspot : s.spots t = .locking m p)
      (hholds : lk.holds (lk.attempt s.lock p).2 = true) :
      Stepped lk obj s (.go t)
        ({ s with lock := (lk.attempt s.lock p).1 }.goTo t (.inside m (obj.start m)))
  | access {t : T} {m : M} {l l' : L} {d : σ} (hspot : s.spots t = .inside m l)
      (haccess : obj.access l s.data = some (d, .inl l')) :
      Stepped lk obj s (.go t) ({ s with data := d }.goTo t (.inside m l'))
  | finish {t : T} {m : M} {l : L} {r : Option R} {d : σ} (hspot : s.spots t = .inside m l)
      (haccess : obj.access l s.data = some (d, .inr r)) :
      Stepped lk obj s (.go t) ({ s with data := d }.goTo t (.unlocking m r))
  | again {t : T} {m : M} (hspot : s.spots t = .unlocking m none) :
      Stepped lk obj s (.go t)
        ({ s with lock := lk.release s.lock }.goTo t (.locking m lk.enter))
  | ret {t : T} {m : M} {r : R} (hspot : s.spots t = .unlocking m (some r)) :
      Stepped lk obj s (.go t)
        (({ s with lock := lk.release s.lock }.goTo t .outside).record (.ret t m r))

theorem stepped_of_step {a : Act T M} (h : s.step lk obj a = some s') : Stepped lk obj s a s' := by
  cases a with
  | call t m =>
      simp only [Shared.step] at h
      split at h
      · rename_i hspot
        cases h
        exact .call hspot
      · cases h
  | go t =>
      simp only [Shared.step, Shared.stepThread] at h
      split at h
      · cases h
      · rename_i m p hspot
        cases h
        split
        · rename_i hholds
          exact .acquire hspot hholds
        · rename_i hholds
          exact .wait hspot (Bool.eq_false_iff.mpr hholds)
      · rename_i m l hspot
        obtain ⟨⟨d, out⟩, haccess, rfl⟩ := Option.map_eq_some_iff.mp h
        cases out with
        | inl l' => exact .access hspot haccess
        | inr r => exact .finish hspot haccess
      · rename_i m r hspot
        cases h
        cases r with
        | none => exact .again hspot
        | some r => exact .ret hspot

end Steps

section Exclusion

variable {lk : Lock φ π} {obj : Object M σ L R} {s s' : Shared T M σ L R φ π}

/-- One thread at most holds the lock, and the lock is free if none does. -/
structure Exclusive (lk : Lock φ π) (s : Shared T M σ L R φ π) : Prop where
  unique : ∀ i j, (s.spots i).Holds → (s.spots j).Holds → i = j
  free : (∀ i, ¬ (s.spots i).Holds) → lk.free s.lock = true
  taken : ∀ i, (s.spots i).Holds → lk.free s.lock = false
  waits : ∀ i m p, s.spots i = .locking m p → lk.holds p = false

theorem exclusive_fresh (lk : Lock φ π) (data : σ) :
    Exclusive lk (Shared.fresh lk data : Shared T M σ L R φ π) where
  unique _ _ h := h.elim
  free _ := lk.free_initial
  taken _ h := h.elim
  waits i m p h := by cases h

theorem Exclusive.not_holds (h : Exclusive lk s) (hfree : lk.free s.lock = true) (i : T) :
    ¬ (s.spots i).Holds := by
  intro hi
  rw [h.taken i hi] at hfree
  cases hfree

theorem Exclusive.record (h : Exclusive lk s) (event : Event T M R) :
    Exclusive lk (s.record event) :=
  ⟨h.unique, h.free, h.taken, h.waits⟩

/-- The thread between lock and unlock is the only one. -/
theorem Exclusive.only_inside (h : Exclusive lk s) {i : T} {m : M} {l : L}
    (hspot : s.spots i = .inside m l) (j : T) (m' : M) (l' : L)
    (hj : s.spots j = .inside m' l') : j = i :=
  h.unique j i (by rw [hj]; trivial) (by rw [hspot]; trivial)

variable [DecidableEq T] {t : T} {m : M} {f : φ} {spot : Spot M L R π}

/-- A thread stays inside, or outside. -/
theorem Exclusive.goTo (h : Exclusive lk s) (data : σ) (hfree : lk.free f = lk.free s.lock)
    (hholds : spot.Holds ↔ (s.spots t).Holds)
    (hwaits : ∀ m p, spot = .locking m p → lk.holds p = false) :
    Exclusive lk ({ s with lock := f, data := data }.goTo t spot) := by
  have hsame : ∀ i, (Function.update s.spots t spot i).Holds ↔ (s.spots i).Holds := by
    intro i
    by_cases hi : i = t
    · subst hi
      rw [Function.update_self, hholds]
    · rw [Function.update_of_ne hi]
  constructor
  · exact fun i j hi hj => h.unique i j ((hsame i).mp hi) ((hsame j).mp hj)
  · exact fun hnone => hfree.trans (h.free fun i hi => hnone i ((hsame i).mpr hi))
  · exact fun i hi => hfree.trans (h.taken i ((hsame i).mp hi))
  · intro i m p hi
    by_cases hit : i = t
    · subst hit
      exact hwaits m p (by simpa [Shared.goTo] using hi)
    · exact h.waits i m p (by simpa [Shared.goTo, hit] using hi)

/-- A thread that waits gets the lock. -/
theorem Exclusive.acquire (h : Exclusive lk s) {l : L} (hfree : lk.free s.lock = true)
    (htaken : lk.free f = false) :
    Exclusive lk ({ s with lock := f }.goTo t (.inside m l)) := by
  have hholds : ∀ i, (Function.update s.spots t (.inside m l : Spot M L R π) i).Holds → i = t := by
    intro i hi
    by_contra hne
    rw [Function.update_of_ne hne] at hi
    exact h.not_holds hfree i hi
  constructor
  · exact fun i j hi hj => (hholds i hi).trans (hholds j hj).symm
  · intro hall
    refine absurd ?_ (hall t)
    simp only [Shared.goTo, Function.update_self]
    trivial
  · exact fun _ _ => htaken
  · intro i m' p hi
    by_cases hit : i = t
    · subst hit
      simp [Shared.goTo] at hi
    · exact h.waits i m' p (by simpa [Shared.goTo, hit] using hi)

/-- The thread that holds the lock gives it back. -/
theorem Exclusive.unlock (h : Exclusive lk s) (hheld : (s.spots t).Holds) (hspot : ¬ spot.Holds)
    (hwaits : ∀ m p, spot = .locking m p → lk.holds p = false) :
    Exclusive lk ({ s with lock := lk.release s.lock }.goTo t spot) := by
  have hnone : ∀ i, ¬ (Function.update s.spots t spot i).Holds := by
    intro i hi
    by_cases hit : i = t
    · subst hit
      rw [Function.update_self] at hi
      exact hspot hi
    · rw [Function.update_of_ne hit] at hi
      exact hit (h.unique i t hi hheld)
  constructor
  · exact fun i _ hi => absurd hi (hnone i)
  · exact fun _ => lk.free_release _
  · exact fun i hi => absurd hi (hnone i)
  · intro i m p hi
    by_cases hit : i = t
    · subst hit
      exact hwaits m p (by simpa [Shared.goTo] using hi)
    · exact h.waits i m p (by simpa [Shared.goTo, hit] using hi)

theorem Exclusive.step (h : Exclusive lk s) {a : Act T M} (hstep : s.step lk obj a = some s') :
    Exclusive lk s' := by
  cases stepped_of_step hstep with
  | call hspot =>
      refine (h.goTo s.data rfl ?_ ?_).record _
      · rw [hspot]
        exact Iff.rfl
      · rintro m p ⟨⟩
        exact lk.holds_enter
  | wait hspot hholds =>
      refine h.goTo s.data (lk.attempt_waits _ _ hholds) ?_ ?_
      · rw [hspot]
        exact Iff.rfl
      · rintro m p ⟨⟩
        exact hholds
  | acquire hspot hholds =>
      obtain ⟨hfree, htaken⟩ := lk.attempt_holds _ _ (h.waits _ _ _ hspot) hholds
      exact h.acquire hfree htaken
  | access hspot haccess =>
      refine h.goTo _ rfl ?_ (by rintro m p ⟨⟩)
      rw [hspot]
      exact Iff.rfl
  | finish hspot haccess =>
      refine h.goTo _ rfl ?_ (by rintro m p ⟨⟩)
      rw [hspot]
      exact Iff.rfl
  | again hspot =>
      refine h.unlock (by rw [hspot]; trivial) id ?_
      rintro m p ⟨⟩
      exact lk.holds_enter
  | ret hspot => exact (h.unlock (by rw [hspot]; trivial) id (by rintro m p ⟨⟩)).record _

end Exclusion

section Linking

/-- What a thread has come to if methods take effect in one step: it has done so once its body
has ended with a result. -/
def Spot.op : Spot M L R π → Op M R
  | .outside => .idle
  | .locking m _ | .inside m _ | .unlocking m none => .pending m
  | .unlocking m (some r) => .done m r

/-- The data behind the lock are those of the atomic object, or the body that is under way makes
the one out of the other. -/
structure Linked (obj : Object M σ L R) (s : Shared T M σ L R φ π) (t : Atomic T M σ R) :
    Prop where
  log : t.log = s.log
  ops : ∀ i, t.ops i = (s.spots i).op
  data : (∀ i m l, s.spots i ≠ .inside m l) → t.data = s.data
  body : ∀ i m l, s.spots i = .inside m l →
    ∃ d r, obj.Body l s.data d r ∧ obj.Body (obj.start m) t.data d r

theorem linked_fresh (lk : Lock φ π) (obj : Object M σ L R) (data : σ) :
    Linked obj (Shared.fresh lk data : Shared T M σ L R φ π) (Atomic.fresh data) where
  log := rfl
  ops _ := rfl
  data _ := rfl
  body i m l h := by cases h

variable [DecidableEq T] {lk : Lock φ π} {obj : Object M σ L R}
  {method : M → σ → Option (σ × R)} {s s' : Shared T M σ L R φ π} {t : Atomic T M σ R} {i : T}
  {m : M} {l : L} {d : σ}

/-- A thread goes on outside its lock, and in the same operation. -/
theorem Linked.outside (h : Linked obj s t) (f : φ) {spot : Spot M L R π}
    (hfrom : ∀ m l, s.spots i ≠ .inside m l) (hto : ∀ m l, spot ≠ .inside m l) {t' : Atomic T M σ R}
    {log : List (Event T M R)} (hlog : t'.log = log) (hdata : t'.data = t.data)
    (hops : t'.ops = Function.update t.ops i spot.op) :
    Linked obj { s.goTo i spot with lock := f, log := log } t' := by
  have hinside : ∀ j m l, (s.goTo i spot).spots j = .inside m l ↔ s.spots j = .inside m l := by
    intro j m l
    by_cases hji : j = i
    · subst hji
      simp [Shared.goTo, hfrom m l, hto m l]
    · simp [Shared.goTo, hji]
  constructor
  · exact hlog
  · intro j
    rw [hops]
    by_cases hji : j = i
    · subst hji
      simp [Shared.goTo]
    · simp [Shared.goTo, hji, h.ops j]
  · intro hnone
    rw [hdata]
    exact h.data fun j m l hj => hnone j m l ((hinside j m l).mpr hj)
  · intro j m l hj
    rw [hdata]
    exact h.body j m l ((hinside j m l).mp hj)

/-- The only thread that can be inside goes on. -/
theorem Linked.inside (h : Linked obj s t) (f : φ) {spot : Spot M L R π} {t' : Atomic T M σ R}
    (honly : ∀ j m l, s.spots j = .inside m l → j = i) (hlog : t'.log = t.log)
    (hops : t'.ops = Function.update t.ops i spot.op)
    (hdata : (∀ m l, spot ≠ .inside m l) → t'.data = d)
    (hbody : ∀ m l, spot = .inside m l →
      ∃ d' r, obj.Body l d d' r ∧ obj.Body (obj.start m) t'.data d' r) :
    Linked obj ({ s with lock := f, data := d }.goTo i spot) t' := by
  constructor
  · exact hlog.trans h.log
  · intro j
    rw [hops]
    by_cases hji : j = i
    · subst hji
      simp [Shared.goTo]
    · simp [Shared.goTo, hji, h.ops j]
  · intro hnone
    refine hdata fun m l hspot => hnone i m l ?_
    simp [Shared.goTo, hspot]
  · intro j m l hj
    by_cases hji : j = i
    · subst hji
      exact hbody m l (by simpa [Shared.goTo] using hj)
    · exact absurd (honly j m l (by simpa [Shared.goTo, hji] using hj)) hji

/-- An operation that stays what it is. -/
theorem Linked.update_ops (h : Linked obj s t) {spot : Spot M L R π}
    (hop : spot.op = (s.spots i).op) : t.ops = Function.update t.ops i spot.op := by
  rw [hop, ← h.ops, Function.update_eq_self]

/-- Every step is none or one of the atomic object. -/
theorem Linked.step (himp : obj.Implements method) (hex : Exclusive lk s) (h : Linked obj s t)
    {a : Act T M} (hstep : s.step lk obj a = some s') :
    ∃ acts t', run (Atomic.step method) t acts = some t' ∧ Linked obj s' t' := by
  cases stepped_of_step hstep with
  | @call i m hspot =>
      have hop : t.ops i = .idle := by rw [h.ops, hspot]; rfl
      refine ⟨[.call i m], _, by simp only [run, Atomic.step, hop]; rfl, ?_⟩
      exact h.outside s.lock (by simp [hspot]) (by simp) (congrArg (· ++ _) h.log) rfl rfl
  | @wait i m p hspot hholds =>
      exact ⟨[], t, rfl, h.outside _ (by simp [hspot]) (by simp) h.log rfl
        (h.update_ops (by rw [hspot]; rfl))⟩
  | @acquire i m p hspot hholds =>
      obtain ⟨hfree, -⟩ := lk.attempt_holds _ _ (hex.waits i m p hspot) hholds
      have hnone : ∀ j m l, s.spots j ≠ .inside m l := by
        intro j m l hj
        exact hex.not_holds hfree j (by rw [hj]; trivial)
      refine ⟨[], t, rfl, h.inside _ (fun j m l hj => absurd hj (hnone j m l)) rfl
        (h.update_ops (by rw [hspot]; rfl)) (fun hspot => absurd rfl (hspot _ _)) ?_⟩
      rintro _ _ ⟨⟩
      obtain ⟨d, r, hbody⟩ := himp.total m s.data
      exact ⟨d, r, hbody, (h.data hnone).symm ▸ hbody⟩
  | @access i m l l' d hspot haccess =>
      refine ⟨[], t, rfl, h.inside _ (hex.only_inside hspot) rfl
        (h.update_ops (by rw [hspot]; rfl)) (fun hspot => absurd rfl (hspot _ _)) ?_⟩
      rintro _ _ ⟨⟩
      obtain ⟨d', r, hrest, hbody⟩ := h.body i m l hspot
      exact ⟨d', r, hrest.rest haccess, hbody⟩
  | @finish i m l r d hspot haccess =>
      obtain ⟨d', r', hrest, hbody⟩ := h.body i m l hspot
      obtain ⟨rfl, rfl⟩ := hrest.ends haccess
      have hop : t.ops i = .pending m := by rw [h.ops, hspot]; rfl
      cases r with
      | none =>
          exact ⟨[], t, rfl, h.inside _ (hex.only_inside hspot) rfl
            (h.update_ops (by rw [hspot]; rfl)) (fun _ => (himp.eq_none hbody).2.symm)
            (by rintro _ _ ⟨⟩)⟩
      | some r =>
          refine ⟨[.take i], _, by simp only [run, Atomic.step, hop, himp.eq_some hbody]; rfl, ?_⟩
          exact h.inside _ (hex.only_inside hspot) rfl rfl (fun _ => rfl) (by rintro _ _ ⟨⟩)
  | @again i m hspot =>
      exact ⟨[], t, rfl, h.outside _ (by simp [hspot]) (by simp) h.log rfl
        (h.update_ops (by rw [hspot]; rfl))⟩
  | @ret i m r hspot =>
      have hop : t.ops i = .done m r := by rw [h.ops, hspot]; rfl
      refine ⟨[.ret i], _, by simp only [run, Atomic.step, hop]; rfl, ?_⟩
      exact h.outside _ (by simp [hspot]) (by simp) (congrArg (· ++ _) h.log) rfl rfl

/-- With any number of threads, and however their steps interleave, the calls and the returns are
those of a run of the object whose methods take effect in one step. -/
theorem linked_of_reachable (himp : obj.Implements method) {data : σ}
    (h : Reachable (Shared.step lk obj) (.fresh lk data) s) :
    ∃ t, Reachable (Atomic.step method) (.fresh data) t ∧ Exclusive lk s ∧ Linked obj s t := by
  refine h.simulation (R := fun s t => Exclusive lk s ∧ Linked obj s t) ?_
    ⟨exclusive_fresh lk data, linked_fresh lk obj data⟩
  rintro s a s' t ⟨hex, hlink⟩ hstep
  obtain ⟨acts, t', hrun, hlink'⟩ := hlink.step himp hex hstep
  exact ⟨acts, t', hrun, hex.step hstep, hlink'⟩

end Linking

section Progress

variable [DecidableEq T] {lk : Lock φ π} {obj : Object M σ L R}
  {method : M → σ → Option (σ × R)} {s : Shared T M σ L R φ π} {t : Atomic T M σ R} {i : T} {m : M}

theorem goTo_goTo (s : Shared T M σ L R φ π) (i : T) (spot spot' : Spot M L R π) :
    (s.goTo i spot).goTo i spot' = s.goTo i spot' := by
  simp only [Shared.goTo, Function.update_idem]

/-- A free lock is taken by a thread that goes on alone. -/
theorem run_locking (obj : Object M σ L R) {p : π} (hspot : s.spots i = .locking m p)
    (hfree : lk.free s.lock = true) (hholds : lk.holds p = false) :
    ∃ acts f, run (Shared.step lk obj) s acts =
      some ({ s with lock := f }.goTo i (.inside m (obj.start m))) := by
  induction hrank : lk.rank p using Nat.strongRecOn generalizing s p with
  | ind n ih =>
      cases hattempt : lk.holds (lk.attempt s.lock p).2 with
      | true =>
          refine ⟨[.go i], (lk.attempt s.lock p).1, ?_⟩
          simp only [run, Shared.step, Shared.stepThread, hspot, hattempt, if_true]
          rfl
      | false =>
          have hstep : s.step lk obj (.go i) = some
              ({ s with lock := (lk.attempt s.lock p).1 }.goTo i
                (.locking m (lk.attempt s.lock p).2)) := by
            simp [Shared.step, Shared.stepThread, hspot, hattempt]
          obtain ⟨acts, f, hrun⟩ := ih _ (hrank ▸ lk.attempt_rank _ _ hfree hholds hattempt)
            (s := { s with lock := (lk.attempt s.lock p).1 }.goTo i
              (.locking m (lk.attempt s.lock p).2))
            (by simp [Shared.goTo]) ((lk.attempt_waits _ _ hattempt).trans hfree) hattempt rfl
          refine ⟨.go i :: acts, f, (run_cons hstep).trans (hrun.trans ?_)⟩
          exact congrArg some (goTo_goTo { s with lock := f } i _ _)

/-- A body comes to its end if its thread goes on alone. -/
theorem run_body (lk : Lock φ π) {l : L} {d d' : σ} {r : Option R} (h : obj.Body l d d' r)
    (hdata : s.data = d) (hspot : s.spots i = .inside m l) :
    ∃ acts, run (Shared.step lk obj) s acts =
      some ({ s with data := d' }.goTo i (.unlocking m r)) := by
  induction h generalizing s with
  | last haccess =>
      subst hdata
      refine ⟨[.go i], ?_⟩
      simp only [run, Shared.step, Shared.stepThread, hspot, haccess]
      rfl
  | @next l l' d d₁ d' r haccess hrest ih =>
      subst hdata
      have hstep : s.step lk obj (.go i) = some ({ s with data := d₁ }.goTo i (.inside m l')) := by
        simp only [Shared.step, Shared.stepThread, hspot, haccess]
        rfl
      obtain ⟨acts, hrun⟩ := ih (s := { s with data := d₁ }.goTo i (.inside m l')) rfl
        (by simp [Shared.goTo])
      refine ⟨.go i :: acts, (run_cons hstep).trans (hrun.trans ?_)⟩
      exact congrArg some (goTo_goTo { s with data := d' } i _ _)

theorem free_unlock (s : Shared T M σ L R φ π) (i : T) (m : M) (r : Option R) :
    lk.free (s.unlock lk i m r).lock = true := by
  cases r with
  | none => exact lk.free_release _
  | some r => exact lk.free_release _

/-- A thread with the lock goes through its body and unlocks if it goes on alone. -/
theorem run_inside (lk : Lock φ π) {l : L} {d : σ} {r : Option R} (h : obj.Body l s.data d r)
    (hspot : s.spots i = .inside m l) :
    ∃ acts, run (Shared.step lk obj) s acts =
      some ((({ s with data := d } : Shared T M σ L R φ π).goTo i (.unlocking m r)).unlock
        lk i m r) := by
  obtain ⟨acts, hrun⟩ := run_body lk h rfl hspot
  refine ⟨acts ++ [.go i], run_trans hrun ?_⟩
  simp [run, Shared.step, Shared.stepThread, Shared.goTo]

/-- Whoever holds the lock can give it back without the others. -/
theorem run_unlock (hex : Exclusive lk s) (h : Linked obj s t) :
    ∃ acts s', run (Shared.step lk obj) s acts = some s' ∧ lk.free s'.lock = true := by
  by_cases hheld : ∃ j, (s.spots j).Holds
  · obtain ⟨j, hj⟩ := hheld
    cases hspot : s.spots j with
    | outside => rw [hspot] at hj; exact hj.elim
    | locking m p => rw [hspot] at hj; exact hj.elim
    | inside m l =>
        obtain ⟨d, r, hbody, -⟩ := h.body j m l hspot
        obtain ⟨acts, hrun⟩ := run_inside lk hbody hspot
        exact ⟨acts, _, hrun, free_unlock _ j m r⟩
    | unlocking m r =>
        refine ⟨[.go j], s.unlock lk j m r, ?_, free_unlock s j m r⟩
        simp [run, Shared.step, Shared.stepThread, hspot]
  · exact ⟨[], s, rfl, hex.free fun j hj => hheld ⟨j, hj⟩⟩

/-- Every call can be brought to its end, or it waits, with the lock free, for data that another
call must bring. -/
theorem exists_return (himp : obj.Implements method) (hex : Exclusive lk s) (h : Linked obj s t)
    (i : T) : ∃ acts s', run (Shared.step lk obj) s acts = some s' ∧
      (s'.spots i = .outside ∨ ∃ m p, s'.spots i = .locking m p ∧ lk.free s'.lock = true ∧
        method m s'.data = none) := by
  obtain ⟨acts, s₁, hrun, hfree⟩ := run_unlock hex h
  have hex₁ : Exclusive lk s₁ := run_invariant (fun _ _ _ hex hstep => hex.step hstep) hex hrun
  cases hspot : s₁.spots i with
  | outside => exact ⟨acts, s₁, hrun, Or.inl hspot⟩
  | inside m l => exact absurd (by rw [hspot]; trivial) (hex₁.not_holds hfree i)
  | unlocking m r => exact absurd (by rw [hspot]; trivial) (hex₁.not_holds hfree i)
  | locking m p =>
      obtain ⟨acts₁, f, hrun₁⟩ := run_locking obj hspot hfree (hex₁.waits i m p hspot)
      obtain ⟨d, r, hbody⟩ := himp.total m s₁.data
      obtain ⟨acts₂, hrun₂⟩ := run_inside lk (i := i) (m := m)
        (s := { s₁ with lock := f }.goTo i (.inside m (obj.start m))) hbody
        (by simp [Shared.goTo])
      refine ⟨_, _, run_trans hrun (run_trans hrun₁ hrun₂), ?_⟩
      cases r with
      | some r => exact Or.inl (Function.update_self ..)
      | none =>
          obtain ⟨hnone, rfl⟩ := himp.eq_none hbody
          exact Or.inr ⟨m, lk.enter, Function.update_self .., lk.free_release _, hnone⟩

end Progress

end SimpleRedis.LockedObject
