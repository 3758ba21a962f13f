import XCoin.Chain.Balance
import XCoin.Node.Coinbase

/-! # Amounts that are texts

    The node reads request bodies with two parsers: the one for JSON can
    deliver an amount as a number, the one for forms delivers texts only.
    Nothing on the way into the chain looks at the type of an amount.

    `getBalanceOfAddress` takes amounts off with `-=`, which turns a text into
    a number, and adds them with `+=`, which turns the balance into a text.
    One text that an address receives is therefore enough: right after it the
    balance is no number.  A later `-=` makes a number of it again, and that
    number can be the right one by accident (`0 + "5" - 2` is 3), so the exact
    condition is about all points at which the chain can end.

    All of this is about addresses at which no more than `2 ^ 53` coins are
    moved.  Beyond that sums of numbers are rounded, and so are texts.
-/

namespace XCoin

open Js LTS Ledger Throwing

variable {E : Env} {ι : Type}

/-! ### What the node admits -/

/-- What `/transactionRequest` makes for an amount that is an integer or the
    decimal text of one, if `addTransaction` takes it, and coinbases. -/
inductive IsAdmitted (E : Env) (ι : Type) : Val → Prop where
  | requested {cfg : Config E ι} {receiver amount : Val} {tx : Transaction} {bc : Blockchain E} :
      (numericAmount amount).isSome = true →
      Node.requestedTransaction cfg receiver amount = .ok tx →
      (bc.addTransaction tx.toValue).1 = .ok () → IsAdmitted E ι tx.toValue
  | coinBase {bc : Blockchain E} {address : Val} {coinBase : Transaction} :
      bc.coinBaseTransaction address = .ok coinBase → IsAdmitted E ι coinBase.toValue

theorem IsAdmitted.hasAmount {tx : Val} (h : IsAdmitted E ι tx) : HasAmount tx := by
  cases h with
  | requested hamount hrequested _ =>
    obtain ⟨n, hn⟩ := Option.isSome_iff_exists.mp hamount
    obtain ⟨_, _, _, _, _, _, _, _, hfield, _⟩ := requestedTransaction_fields hrequested
    exact ⟨_, n, congrArg Except.ok hfield, hn⟩
  | coinBase hcoin => exact (hasInteger_coinBase hcoin).hasAmount

end XCoin
