import Mathlib.Data.List.Nodup
import Mathlib.Data.List.Perm.Basic
import Mathlib.Data.Nat.Notation

/-!
# Tokens that change hands

Tokens are issued one after the other, each to an owner; a token is then held in one
place of its owner until it is settled, and it is settled once. A step of a system
issues a token, moves tokens within what their owner holds, or settles some of them.
-/
namespace SimpleRedis.Custody

variable {κ : Type*}

/-- The owners hold different tokens, each its own, the settled tokens are settled once,
and a token is with its owner or settled. The token `q` belongs to the `q`-th of the
owners. -/
structure Once (held : κ → List ℕ) (owners : List κ) (settled : List ℕ) : Prop where
  nodup : ∀ k, (held k).Nodup
  own : ∀ k, ∀ q ∈ held k, owners[q]? = some k
  unsettled : ∀ k, ∀ q ∈ held k, q ∉ settled
  once : settled.Nodup
  issued : ∀ q ∈ settled, q < owners.length
  covered : ∀ q k, owners[q]? = some k → q ∈ held k ∨ q ∈ settled

section Rules

variable {held held' : κ → List ℕ} {owners : List κ} {settled : List ℕ} {k : κ}

/-- The owner of a token is one of the old ones or the new one. -/
theorem getElem?_concat {owners : List κ} {k k' : κ} {q : ℕ}
    (h : (owners ++ [k])[q]? = some k') : owners[q]? = some k' ∨ q = owners.length ∧ k' = k := by
  rcases Nat.lt_trichotomy q owners.length with hlt | rfl | hgt
  · rw [List.getElem?_append_left hlt] at h
    exact Or.inl h
  · rw [List.getElem?_concat_length] at h
    exact Or.inr ⟨rfl, (Option.some.inj h).symm⟩
  · rw [List.getElem?_eq_none (by rw [List.length_append]; exact hgt)] at h
    cases h

theorem Once.init : Once (fun _ : κ => []) [] [] where
  nodup _ := List.nodup_nil
  own _ _ h := nomatch h
  unsettled _ _ h := nomatch h
  once := List.nodup_nil
  issued _ h := nomatch h
  covered _ _ h := nomatch h

theorem Once.lt_of_held (h : Once held owners settled) {q : ℕ} (hq : q ∈ held k) :
    q < owners.length := (List.getElem?_eq_some_iff.mp (h.own k q hq)).1

/-- Some tokens of one owner are settled; what it holds is moved at will. -/
theorem Once.settle (h : Once held owners settled) {out : List ℕ}
    (hk : (held k).Perm (out ++ held' k)) (hother : ∀ k', k' ≠ k → held' k' = held k') :
    Once held' owners (settled ++ out) := by
  have hnodup : (out ++ held' k).Nodup := hk.nodup_iff.mp (h.nodup k)
  have hmem : ∀ q ∈ out ++ held' k, q ∈ held k := fun q hq => hk.mem_iff.mpr hq
  obtain ⟨hout, hheld, hdisjoint⟩ := List.nodup_append.mp hnodup
  refine ⟨fun k' => ?_, fun k' q hq => ?_, fun k' q hq => ?_, ?_, fun q hq => ?_,
    fun q k' howner => ?_⟩
  · by_cases hk' : k' = k
    · rw [hk']
      exact hheld
    · rw [hother k' hk']
      exact h.nodup k'
  · by_cases hk' : k' = k
    · subst hk'
      exact h.own k' q (hmem q (List.mem_append_right out hq))
    · rw [hother k' hk'] at hq
      exact h.own k' q hq
  · rw [List.mem_append, not_or]
    by_cases hk' : k' = k
    · subst hk'
      exact ⟨h.unsettled k' q (hmem q (List.mem_append_right out hq)),
        fun hgone => hdisjoint q hgone q hq rfl⟩
    · rw [hother k' hk'] at hq
      refine ⟨h.unsettled k' q hq, fun hgone => hk' ?_⟩
      have howner := h.own k q (hmem q (List.mem_append_left _ hgone))
      exact Option.some.inj ((h.own k' q hq).symm.trans howner)
  · refine List.nodup_append.mpr ⟨h.once, hout, fun q hq q' hq' heq => ?_⟩
    subst heq
    exact h.unsettled k q (hmem q (List.mem_append_left _ hq')) hq
  · rcases List.mem_append.mp hq with hq | hq
    · exact h.issued q hq
    · exact h.lt_of_held (hmem q (List.mem_append_left _ hq))
  · rw [List.mem_append]
    rcases h.covered q k' howner with hq | hq
    · by_cases hk' : k' = k
      · subst hk'
        rcases List.mem_append.mp (hk.mem_iff.mp hq) with hgone | hleft
        · exact Or.inr (Or.inr hgone)
        · exact Or.inl hleft
      · rw [hother k' hk']
        exact Or.inl hq
    · exact Or.inr (Or.inl hq)

/-- What an owner holds is moved, and nothing is settled. -/
theorem Once.move (h : Once held owners settled) (hsame : ∀ k, held' k = held k) :
    Once held' owners settled := by
  have heq : held' = held := funext hsame
  rwa [heq]

/-- A token is issued to an owner who holds it. -/
theorem Once.issue (h : Once held owners settled) (hk : held' k = held k ++ [owners.length])
    (hother : ∀ k', k' ≠ k → held' k' = held k') : Once held' (owners ++ [k]) settled := by
  have hnew : ∀ k' q, q ∈ held' k' → q ∈ held k' ∨ q = owners.length ∧ k' = k := by
    intro k' q hq
    by_cases hk' : k' = k
    · subst hk'
      rw [hk, List.mem_append, List.mem_singleton] at hq
      exact hq.imp_right (⟨·, rfl⟩)
    · rw [hother k' hk'] at hq
      exact Or.inl hq
  have hkeep : ∀ k' q, q ∈ held k' → q ∈ held' k' := by
    intro k' q hq
    by_cases hk' : k' = k
    · rw [hk', hk]
      exact List.mem_append_left _ (hk' ▸ hq)
    · rwa [hother k' hk']
  refine ⟨fun k' => ?_, fun k' q hq => ?_, fun k' q hq => ?_, h.once, fun q hq => ?_,
    fun q k' howner => ?_⟩
  · by_cases hk' : k' = k
    · rw [hk', hk]
      refine List.nodup_append.mpr ⟨h.nodup k, List.nodup_singleton _, fun q hq q' hq' heq => ?_⟩
      rw [List.mem_singleton.mp hq'] at heq
      exact Nat.ne_of_lt (h.lt_of_held hq) heq
    · rw [hother k' hk']
      exact h.nodup k'
  · rcases hnew k' q hq with hold | ⟨rfl, rfl⟩
    · rw [List.getElem?_append_left (h.lt_of_held hold)]
      exact h.own k' q hold
    · exact List.getElem?_concat_length
  · rcases hnew k' q hq with hold | ⟨rfl, rfl⟩
    · exact h.unsettled k' q hold
    · exact fun hgone => Nat.lt_irrefl _ (h.issued _ hgone)
  · rw [List.length_append]
    exact Nat.lt_add_right 1 (h.issued q hq)
  · rcases getElem?_concat howner with hold | ⟨rfl, rfl⟩
    · exact (h.covered q k' hold).imp_left (hkeep k' q)
    · rw [hk]
      exact Or.inl (List.mem_append_right _ (List.mem_singleton_self _))

/-- A token is issued and settled at once. -/
theorem Once.issue_settled (h : Once held owners settled) (k : κ) :
    Once held (owners ++ [k]) (settled ++ [owners.length]) := by
  refine ⟨h.nodup, fun k' q hq => ?_, fun k' q hq => ?_, ?_, fun q hq => ?_,
    fun q k' howner => ?_⟩
  · rw [List.getElem?_append_left (h.lt_of_held hq)]
    exact h.own k' q hq
  · rw [List.mem_append, List.mem_singleton, not_or]
    exact ⟨h.unsettled k' q hq, Nat.ne_of_lt (h.lt_of_held hq)⟩
  · refine List.nodup_append.mpr ⟨h.once, List.nodup_singleton _, fun q hq q' hq' heq => ?_⟩
    rw [List.mem_singleton.mp hq'] at heq
    exact Nat.ne_of_lt (h.issued q hq) heq
  · rw [List.length_append]
    rcases List.mem_append.mp hq with hq | hq
    · exact Nat.lt_add_right 1 (h.issued q hq)
    · rw [List.mem_singleton.mp hq]
      exact Nat.lt_succ_self _
  · rw [List.mem_append, List.mem_singleton]
    rcases getElem?_concat howner with hold | ⟨rfl, rfl⟩
    · exact (h.covered q k' hold).imp_right Or.inl
    · exact Or.inr (Or.inr rfl)

/-- A token is settled if and only if its owner does not hold it. -/
theorem Once.settled_iff (h : Once held owners settled) {q : ℕ} (howner : owners[q]? = some k) :
    q ∈ settled ↔ q ∉ held k := by
  constructor
  · exact fun hsettled hheld => h.unsettled k q hheld hsettled
  · exact fun hfree => (h.covered q k howner).resolve_left hfree

/-- All tokens of an owner are settled if and only if it holds none. -/
theorem Once.all_settled_iff (h : Once held owners settled) :
    (∀ q, owners[q]? = some k → q ∈ settled) ↔ held k = [] := by
  constructor
  · intro hall
    refine List.eq_nil_iff_forall_not_mem.mpr fun q hq => ?_
    exact h.unsettled k q hq (hall q (h.own k q hq))
  · intro hnone q howner
    rw [h.settled_iff howner, hnone]
    exact List.not_mem_nil

end Rules

end SimpleRedis.Custody
