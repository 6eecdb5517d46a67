import SimpleRedis.TransitionRun
import Mathlib.Logic.Function.Basic
import Mathlib.Data.List.Basic

/-!
# States that are known key by key

What a state knows of a key is its `view` of the key. A step is local to a key if it depends on
the view of that key and changes no other view. A run of such steps can be looked at one key at
a time, as if the steps of the other keys had never been; and a state can be divided into shards,
each with its own keys, that together do what the whole state does.
-/
namespace SimpleRedis.KeyedState

open TransitionRun

variable {σ κ ν ω ε ι : Type*}

/-- A step that is about one key. -/
structure Local (view : σ → κ → ν) (key : κ) (f : σ → σ × List ε) : Prop where
  effects : ∀ {s s'}, view s key = view s' key → (f s).2 = (f s').2
  view_key : ∀ {s s'}, view s key = view s' key → view (f s).1 key = view (f s').1 key
  frame : ∀ s k, k ≠ key → view (f s).1 k = view s k

section Combinators

variable {view : σ → κ → ν} {key : κ} {f g : σ → σ × List ε}

theorem local_id (effects : List ε) : Local view key fun s => (s, effects) :=
  ⟨fun _ => rfl, fun h => h, fun _ _ _ => rfl⟩

/-- What is done may depend on what is known of the key. -/
theorem Local.of_ask {γ : Type*} {ask : σ → γ} {f : γ → σ → σ × List ε}
    (hask : ∀ {s s'}, view s key = view s' key → ask s = ask s') (hf : ∀ c, Local view key (f c)) :
    Local view key fun s => f (ask s) s where
  effects {s s'} h := by
    simp only [hask h]
    exact (hf _).effects h
  view_key {s s'} h := by
    simp only [hask h]
    exact (hf _).view_key h
  frame s k hne := (hf _).frame s k hne

/-- One step behind another, whose effects are dropped. -/
theorem Local.andThen (hf : Local view key f) (hg : Local view key g) :
    Local view key fun s => g (f s).1 where
  effects h := hg.effects (hf.view_key h)
  view_key h := hg.view_key (hf.view_key h)
  frame s k hne := (hg.frame _ k hne).trans (hf.frame s k hne)

theorem Local.emit (hf : Local view key f) (before : List ε) :
    Local view key fun s => ((f s).1, before ++ (f s).2) where
  effects h := by rw [hf.effects h]
  view_key h := hf.view_key h
  frame s k hne := hf.frame s k hne

theorem Local.map {δ : Type*} (hf : Local view key f) (label : ε → δ) :
    Local view key fun s => ((f s).1, (f s).2.map label) where
  effects h := by rw [hf.effects h]
  view_key h := hf.view_key h
  frame s k hne := hf.frame s k hne

/-- A branch on a question about the key. -/
theorem Local.ite {ask : σ → Bool}
    (hask : ∀ {s s'}, view s key = view s' key → ask s = ask s') (hf : Local view key f)
    (hg : Local view key g) : Local view key fun s => if ask s then f s else g s := by
  refine Local.of_ask (f := fun b s => if b then f s else g s) hask fun b => ?_
  cases b
  · exact hg
  · exact hf

/-- A branch on an entry of the key. -/
theorem Local.option {γ : Type*} {ask : σ → Option γ} {h : σ → σ × List ε}
    {g : γ → σ → σ × List ε} (hask : ∀ {s s'}, view s key = view s' key → ask s = ask s')
    (hf : Local view key f) (hg : ∀ c, Local view key (g c)) (hnone : ∀ s, ask s = none → h s = f s)
    (hsome : ∀ s c, ask s = some c → h s = g c s) : Local view key h := by
  have hbranch : Local view key fun s => (ask s).elim f g s := by
    refine Local.of_ask (f := fun c s => c.elim f g s) hask fun c => ?_
    cases c
    · exact hf
    · exact hg _
  have heq : h = fun s => (ask s).elim f g s := by
    funext s
    cases hs : ask s with
    | none => exact hnone s hs
    | some c => exact hsome s c hs
  rw [heq]
  exact hbranch

end Combinators

/-- A state with everything that was done so far. -/
structure Traced (σ ε : Type*) where
  state : σ
  trace : List ε

/-- What can be done in a state, and what doing it does. -/
structure Machine (σ ω ε : Type*) where
  possible : σ → ω → Bool
  exec : σ → ω → σ × List ε

namespace Machine

variable (m : Machine σ ω ε)

def start (s : σ) : Traced σ ε := ⟨s, []⟩

def step (t : Traced σ ε) (w : ω) : Option (Traced σ ε) :=
  if m.possible t.state w then
    some ⟨(m.exec t.state w).1, t.trace ++ (m.exec t.state w).2⟩
  else none

/-- Every step is local to the key of its work, and so is the question if it is possible. `tag`
is the key that an effect belongs to. -/
structure Keyed (view : σ → κ → ν) (keyOf : ω → κ) (tag : ε → κ) : Prop where
  isLocal : ∀ w, Local view (keyOf w) (m.exec · w)
  possible_congr : ∀ {s s'} (w), view s (keyOf w) = view s' (keyOf w) →
    m.possible s w = m.possible s' w
  tag_eq : ∀ s w, ∀ e ∈ (m.exec s w).2, tag e = keyOf w

end Machine

section Isolation

variable {m : Machine σ ω ε} {view : σ → κ → ν} {keyOf : ω → κ} {tag : ε → κ}

theorem step_of_possible {t : Traced σ ε} {w : ω} (h : m.possible t.state w = true) :
    m.step t w = some ⟨(m.exec t.state w).1, t.trace ++ (m.exec t.state w).2⟩ := if_pos h

variable [DecidableEq κ]

/-- The second state has done the work of one key that the first has done among other work. -/
structure Isolated (view : σ → κ → ν) (tag : ε → κ) (k : κ) (t u : Traced σ ε) : Prop where
  view_eq : view t.state k = view u.state k
  trace_eq : t.trace.filter (tag · = k) = u.trace

theorem isolated_start {k : κ} {s : σ} :
    Isolated view tag k (Machine.start s) (Machine.start s) := ⟨rfl, rfl⟩

/-- Work of the key is done on both sides, and work of another key is not noticed. -/
theorem Isolated.step (hkeyed : m.Keyed view keyOf tag) {k : κ} {t t' u : Traced σ ε} {w : ω}
    (h : Isolated view tag k t u) (hstep : m.step t w = some t') :
    ∃ u', run m.step u ([w].filter (keyOf · = k)) = some u' ∧ Isolated view tag k t' u' := by
  obtain ⟨hpossible, ht'⟩ := Option.ite_none_right_eq_some.mp hstep
  cases ht'
  by_cases hk : keyOf w = k
  · subst hk
    have hpossible' : m.possible u.state w = true :=
      (hkeyed.possible_congr w h.view_eq).symm.trans hpossible
    have htags : (m.exec t.state w).2.filter (tag · = keyOf w) = (m.exec t.state w).2 :=
      List.filter_eq_self.mpr fun e he => decide_eq_true (hkeyed.tag_eq t.state w e he)
    refine ⟨⟨(m.exec u.state w).1, u.trace ++ (m.exec u.state w).2⟩, ?_, ?_, ?_⟩
    · rw [List.filter_singleton, decide_eq_true rfl, cond_true,
        run_cons (step_of_possible hpossible')]
      rfl
    · exact (hkeyed.isLocal w).view_key h.view_eq
    · rw [List.filter_append, h.trace_eq, htags, (hkeyed.isLocal w).effects h.view_eq]
  · have htags : (m.exec t.state w).2.filter (tag · = k) = [] := by
      refine List.filter_eq_nil_iff.mpr fun e he => ?_
      rw [hkeyed.tag_eq t.state w e he, decide_eq_true_eq]
      exact hk
    refine ⟨u, ?_, ?_, ?_⟩
    · rw [List.filter_singleton, decide_eq_false hk]
      rfl
    · exact ((hkeyed.isLocal w).frame t.state k (Ne.symm hk)).trans h.view_eq
    · rw [List.filter_append, h.trace_eq, htags, List.append_nil]

/-- The steps of the other keys can be left out of a run. -/
theorem Isolated.run (hkeyed : m.Keyed view keyOf tag) {k : κ} {t t' u : Traced σ ε}
    {works : List ω} (h : Isolated view tag k t u) (hrun : run m.step t works = some t') :
    ∃ u', run m.step u (works.filter (keyOf · = k)) = some u' ∧ Isolated view tag k t' u' := by
  induction works generalizing t u with
  | nil =>
      cases hrun
      exact ⟨u, rfl, h⟩
  | cons w works ih =>
      obtain ⟨t₁, hstep, hrest⟩ := Option.bind_eq_some_iff.mp hrun
      obtain ⟨u₁, hfirst, h₁⟩ := h.step hkeyed hstep
      obtain ⟨u', hlast, h'⟩ := ih h₁ hrest
      refine ⟨u', ?_, h'⟩
      rw [← List.singleton_append, List.filter_append]
      exact run_trans hfirst hlast

end Isolation

section Shards

variable {view : σ → κ → ν} {shardOf : κ → ι} {init whole : σ} {shards : ι → σ}

/-- A key is known to its own shard as it is to the whole state, and to no other. -/
structure Sharded (view : σ → κ → ν) (shardOf : κ → ι) (init : σ) (shards : ι → σ) (whole : σ) :
    Prop where
  own : ∀ k, view (shards (shardOf k)) k = view whole k
  foreign : ∀ i k, shardOf k ≠ i → view (shards i) k = view init k

theorem sharded_init : Sharded view shardOf init (fun _ => init) init :=
  ⟨fun _ => rfl, fun _ _ _ => rfl⟩

/-- A shard does a step on a key of its own as the whole state does it. -/
theorem Sharded.exec [DecidableEq ι] (h : Sharded view shardOf init shards whole) {key : κ}
    {f : σ → σ × List ε} (hf : Local view key f) :
    Sharded view shardOf init
      (Function.update shards (shardOf key) (f (shards (shardOf key))).1) (f whole).1 where
  own k := by
    by_cases hk : k = key
    · rw [hk, Function.update_self]
      exact hf.view_key (h.own key)
    · rw [hf.frame whole k hk, ← h.own k]
      by_cases hi : shardOf k = shardOf key
      · rw [hi, Function.update_self]
        exact hf.frame _ k hk
      · rw [Function.update_of_ne hi]
  foreign i k hne := by
    by_cases hi : i = shardOf key
    · have hk : k ≠ key := fun heq => hne (hi ▸ heq ▸ rfl)
      rw [hi, Function.update_self, hf.frame _ k hk]
      exact h.foreign _ k (hi ▸ hne)
    · rw [Function.update_of_ne hi]
      exact h.foreign i k hne

end Shards

end SimpleRedis.KeyedState
