import Mathlib.Data.List.Perm.Basic
import Mathlib.Data.List.Range
import Mathlib.Data.List.Nodup
import Mathlib.Logic.Function.Basic

/-!
# Tickets of a counter

Agents take numbers from a counter, one after the other, and give them back in any order.
At every time a number below the counter is either back or with one agent. `Turns` is about
the cells of a ring in which the numbers are used: a number is used in a cell only when the
numbers of the earlier rounds are done with it.
-/
namespace SimpleRedis.TicketCounter

variable {A : Type*}

/-- `holds` says which ticket an agent has, `count` of them were given out, and `done` are
back. -/
structure Tickets (holds : A → Option ℕ) (count : ℕ) (done : List ℕ) : Prop where
  held : ∀ a k, holds a = some k → k < count ∧ k ∉ done
  unique : ∀ a b k, holds a = some k → holds b = some k → a = b
  lt : ∀ k ∈ done, k < count
  nodup : done.Nodup
  total : ∀ k < count, k ∈ done ∨ ∃ a, holds a = some k

namespace Tickets

variable {holds : A → Option ℕ} {count k : ℕ} {done : List ℕ} {a : A}

theorem fresh : Tickets (fun _ : A => none) 0 [] where
  held _ _ h := by cases h
  unique _ _ _ h := by cases h
  lt _ h := by cases h
  nodup := List.nodup_nil
  total _ h := by omega

/-- When no agent has a ticket, all of them are back. -/
theorem perm_range (h : Tickets holds count done) (hidle : ∀ a, holds a = none) :
    done.Perm (List.range count) := by
  refine (List.perm_ext_iff_of_nodup h.nodup List.nodup_range).mpr fun k => ?_
  rw [List.mem_range]
  refine ⟨h.lt k, fun hk => (h.total k hk).resolve_right ?_⟩
  rintro ⟨a, ha⟩
  rw [hidle a] at ha
  cases ha

variable [DecidableEq A]

/-- An agent without a ticket takes the next one. -/
theorem take (h : Tickets holds count done) (ha : holds a = none) :
    Tickets (Function.update holds a (some count)) (count + 1) done where
  held b k hb := by
    by_cases hba : b = a
    · rw [hba, Function.update_self, Option.some.injEq] at hb
      refine ⟨by omega, fun hdone => ?_⟩
      have := h.lt k hdone
      omega
    · rw [Function.update_of_ne hba] at hb
      have hheld := h.held b k hb
      exact ⟨Nat.lt_succ_of_lt hheld.1, hheld.2⟩
  unique b c k hb hc := by
    have hfresh : ∀ d, d ≠ a → holds d ≠ some count := fun d _ hd =>
      Nat.lt_irrefl _ (h.held d count hd).1
    by_cases hba : b = a <;> by_cases hca : c = a
    · rw [hba, hca]
    · rw [hba, Function.update_self, Option.some.injEq] at hb
      rw [Function.update_of_ne hca, ← hb] at hc
      exact absurd hc (hfresh c hca)
    · rw [hca, Function.update_self, Option.some.injEq] at hc
      rw [Function.update_of_ne hba, ← hc] at hb
      exact absurd hb (hfresh b hba)
    · rw [Function.update_of_ne hba] at hb
      rw [Function.update_of_ne hca] at hc
      exact h.unique b c k hb hc
  lt k hk := Nat.lt_succ_of_lt (h.lt k hk)
  nodup := h.nodup
  total k hk := by
    by_cases hlast : k = count
    · exact Or.inr ⟨a, by rw [hlast, Function.update_self]⟩
    · rcases h.total k (by omega) with hdone | ⟨b, hb⟩
      · exact Or.inl hdone
      · have hba : b ≠ a := by
          rintro rfl
          rw [ha] at hb
          cases hb
        exact Or.inr ⟨b, by rw [Function.update_of_ne hba, hb]⟩

/-- An agent gives its ticket back. -/
theorem finish (h : Tickets holds count done) (ha : holds a = some k) :
    Tickets (Function.update holds a none) count (done ++ [k]) where
  held b j hb := by
    have hba : b ≠ a := by
      rintro rfl
      rw [Function.update_self] at hb
      cases hb
    rw [Function.update_of_ne hba] at hb
    have hheld := h.held b j hb
    refine ⟨hheld.1, fun hdone => ?_⟩
    rcases List.mem_append.mp hdone with hdone | hlast
    · exact hheld.2 hdone
    · rw [List.mem_singleton] at hlast
      exact hba (h.unique b a j hb (hlast ▸ ha))
  unique b c j hb hc := by
    have hne : ∀ d, Function.update holds a none d = some j → d ≠ a := by
      rintro d hd rfl
      rw [Function.update_self] at hd
      cases hd
    have hba := hne b hb
    have hca := hne c hc
    rw [Function.update_of_ne hba] at hb
    rw [Function.update_of_ne hca] at hc
    exact h.unique b c j hb hc
  lt j hj := by
    rcases List.mem_append.mp hj with hdone | hlast
    · exact h.lt j hdone
    · rw [List.mem_singleton] at hlast
      exact hlast ▸ (h.held a k ha).1
  nodup := List.nodup_append.mpr ⟨h.nodup, List.nodup_singleton k, by
    rintro j hj _ hk rfl
    rw [List.mem_singleton] at hk
    exact (h.held a k ha).2 (hk ▸ hj)⟩
  total j hj := by
    rcases h.total j hj with hdone | ⟨b, hb⟩
    · exact Or.inl (List.mem_append_left _ hdone)
    · by_cases hba : b = a
      · rw [hba, ha, Option.some.injEq] at hb
        exact Or.inl (by simp [hb])
      · exact Or.inr ⟨b, by rw [Function.update_of_ne hba, hb]⟩

end Tickets

/-- `filled` and `emptied` are the numbers whose cell was filled and emptied again; a cell
is filled only when it was emptied of all the numbers before. -/
structure Turns (cap : ℕ) (filled emptied : List ℕ) : Prop where
  order : ∀ k ∈ filled, ∀ j < k, j % cap = k % cap → j ∈ emptied
  sub : ∀ k ∈ emptied, k ∈ filled

namespace Turns

variable {cap k : ℕ} {filled emptied : List ℕ}

theorem fresh : Turns cap [] [] where
  order _ h := by cases h
  sub _ h := by cases h

theorem fill (h : Turns cap filled emptied) (hk : ∀ j < k, j % cap = k % cap → j ∈ emptied) :
    Turns cap (filled ++ [k]) emptied where
  order i hi j hj hcell := by
    rcases List.mem_append.mp hi with hi | hlast
    · exact h.order i hi j hj hcell
    · rw [List.mem_singleton] at hlast
      subst hlast
      exact hk j hj hcell
  sub i hi := List.mem_append_left _ (h.sub i hi)

theorem empty (h : Turns cap filled emptied) (hk : k ∈ filled) :
    Turns cap filled (emptied ++ [k]) where
  order i hi j hj hcell := List.mem_append_left _ (h.order i hi j hj hcell)
  sub i hi := by
    rcases List.mem_append.mp hi with hi | hlast
    · exact h.sub i hi
    · rw [List.mem_singleton] at hlast
      exact hlast ▸ hk

/-- At most one number is in a cell. -/
theorem eq_of_full (h : Turns cap filled emptied) {j : ℕ} (hj : j ∈ filled) (hj' : j ∉ emptied)
    (hk : k ∈ filled) (hk' : k ∉ emptied) (hcell : j % cap = k % cap) : j = k := by
  rcases Nat.lt_trichotomy j k with hlt | heq | hlt
  · exact absurd (h.order k hk j hlt hcell) hj'
  · exact heq
  · exact absurd (h.order j hj k hlt hcell.symm) hk'

end Turns

end SimpleRedis.TicketCounter
