/-! Repeating a step until it changes nothing, for a bounded number of rounds. -/

namespace CanonicalLR

/-- Applies `step` until a round changes nothing, at most `rounds` times. -/
def saturate {α : Type} [DecidableEq α] (step : α → α) : Nat → α → α
  | 0, x => x
  | rounds + 1, x =>
    let y := step x
    if y = x then x else saturate step rounds y

end CanonicalLR
