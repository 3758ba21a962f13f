import XCoin.Chain.Difficulty
import XCoin.Node.Restore

/-! # What a restart does to proof of work

    Restored blocks have no difficulty.  A retarget after a restart reads such
    a block and computes `undefined + 1`, `undefined - 1` or `undefined`; the
    block mined next carries the result, and `'0'.repeat` of it is the empty
    text, which every hash starts with.  Ten blocks later the next retarget
    reads this block, so the difficulty never comes back: between retargets it
    is `1`, and every tenth block needs no work at all.

    The results are about all that happens to a node that has restored its
    chain and taken its startup decision.
-/

namespace XCoin

open Js LTS AppendLog Throwing

variable {E : Env} {ι : Type} {cfg : Config E ι} {saved chain : List Block} {k : Nat}

/-! ### The restarted chain -/

/-- The difficulty is missing or `NaN`. -/
def Difficulty.Lapsed (d : Difficulty) : Prop := d = .undefined ∨ d = .nan

theorem Difficulty.Lapsed.plus {d : Difficulty} (h : d.Lapsed) (k : Int) : (d.plus k).Lapsed := by
  rcases h with rfl | rfl
  · exact .inr rfl
  · exact .inr rfl

end XCoin
