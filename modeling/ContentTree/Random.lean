/-!
Sources of random numbers. What a source draws is up to it, but for two promises: a number below
`n` is below `n`, and a shuffle visits every index once.
-/

namespace ContentTree

class RandomSource (ρ : Type) where
  below : Nat → ρ → Nat × ρ
  shuffle : Nat → ρ → List Nat × ρ
  below_lt : ∀ (n : Nat) (r : ρ), 0 < n → (below n r).1 < n
  shuffle_perm : ∀ (n : Nat) (r : ρ), (shuffle n r).1.Perm (List.range n)

/-- A draw below `bound`. Nothing is drawn for a bound that leaves no choice of sign or size. -/
def drawBelow {ρ : Type} [RandomSource ρ] (bound : Int) (r : ρ) : Int × ρ :=
  if bound ≤ 0 then (0, r)
  else
    let (v, r) := RandomSource.below bound.toNat r
    (v, r)

end ContentTree
