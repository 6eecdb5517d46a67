import Mathlib.Data.List.Basic

/-!
# Incremental consumers of a stream

A consumer reads its input piece by piece, keeps a state between the pieces and
emits a list of results for each piece. It is incremental when reading two
pieces one after the other is reading their concatenation. Such a consumer
cannot tell how its input was cut.
-/
namespace SimpleRedis.StreamConsumer

variable {σ α β : Type*}

/-- The proofs that make a reader incremental travel with it. -/
structure Consumer (σ α β : Type*) where
  feed : σ → List α → σ × List β
  feed_nil : ∀ s, feed s [] = (s, [])
  feed_append : ∀ s xs ys, feed s (xs ++ ys) =
    ((feed (feed s xs).1 ys).1, (feed s xs).2 ++ (feed (feed s xs).1 ys).2)

namespace Consumer

/-- The pieces are read one after the other and the results are collected. -/
def feedAll (c : Consumer σ α β) (s : σ) : List (List α) → σ × List β
  | [] => (s, [])
  | xs :: xss =>
      let first := c.feed s xs
      let others := c.feedAll first.1 xss
      (others.1, first.2 ++ others.2)

theorem feedAll_eq_feed_flatten (c : Consumer σ α β) (s : σ) (xss : List (List α)) :
    c.feedAll s xss = c.feed s xss.flatten := by
  induction xss generalizing s with
  | nil => exact (c.feed_nil s).symm
  | cons xs xss ih => simp only [feedAll, List.flatten_cons, ih, c.feed_append]

end Consumer

end SimpleRedis.StreamConsumer
