/-! Where random choices come from. What is made of them is written for any source, and relies on
nothing but the laws of one. -/
namespace DpllSat
namespace Random

/-- Random choices, each made in a state and leaving another. A number below a bound and the
indices of a sample are in range by their types. -/
structure Source (σ : Type) where
  ofSeed : UInt64 → σ
  bool : σ → Bool × σ
  below : {n : Nat} → 0 < n → σ → Fin n × σ
  sample : {n k : Nat} → 0 < k → k ≤ n → σ → List (Fin n) × σ

/-- In every state a sample of `k` indices below `n` is of that size, and all different. -/
structure Source.Lawful {σ : Type} (src : Source σ) (n k : Nat) : Prop where
  length : ∀ (hk : 0 < k) (hn : k ≤ n) (s : σ), (src.sample hk hn s).1.length = k
  nodup : ∀ (hk : 0 < k) (hn : k ≤ n) (s : σ), (src.sample hk hn s).1.Nodup

end Random
end DpllSat
