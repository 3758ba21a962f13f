import XCoin.Chain.History
import XCoin.Network.Finality

/-! # The history of a node that has decided

    From its startup decision on, a node does nothing to its blockchain object
    but call the methods of `Blockchain.js`: a request or a trigger pushes a
    transaction, and mining moves what is pending into a block.  So the
    transactions of its chain followed by its pending list are a log, to which
    every event appends what it pushes, in the order in which the events are
    handled, and whether or not mining succeeds.

    Before the decision nothing of the kind holds: the decision replaces the
    chain, and what was mined into it is gone.
-/

namespace XCoin

open Js LTS

variable {E : Env} {ι : Type} {cfg : Config E ι} {cfgs : ι → Config E ι}

/-! ### What an event pushes -/

/-- What is pushed when a node creates `tx` and mines. -/
def Node.pushedByMining (cfg : Config E ι) (n : Node E) (tx : Val) (date : Int) (fuel : Nat) :
    List Entry :=
  (Op.createTransaction tx).pushed n.xCoin ++
    (Op.minePendingTransactions cfg.myWalletAddress date fuel).pushed
      (n.xCoin.createTransaction tx)

/-- Everything an event pushes to the pending list of a node. -/
def Event.pushed (cfg : Config E ι) (n : Node E) : Event ι → List Entry
  | .triggerMineBlock date fuel =>
      n.pushedByMining cfg Node.triggerTransaction.toValue date fuel
  | .transactionRequest receiver amount =>
      match Node.requestedTransaction cfg receiver amount with
      | .ok tx   => (Op.addTransaction tx.toValue).pushed n.xCoin
      | .error _ => []
  | .transaction body date fuel => n.pushedByMining cfg body date fuel
  | _ => []

/-- The transactions an event submits: that of a trigger, that of a request
    if it is accepted, and the body of `/transaction`. -/
def Event.submits (cfg : Config E ι) (n : Node E) : Event ι → List Val
  | .triggerMineBlock _ _ => [Node.triggerTransaction.toValue]
  | .transactionRequest receiver amount =>
      match Node.requestedTransaction cfg receiver amount with
      | .ok tx   => (Op.addTransaction tx.toValue).accepted n.xCoin
      | .error _ => []
  | .transaction body _ _ => [body]
  | _ => []

theorem Node.withoutCoinBases_mining (n : Node E) (tx : Val) (date : Int) (fuel : Nat) :
    withoutCoinBases (n.pushedByMining cfg tx date fuel) = [tx] := by
  rw [Node.pushedByMining, withoutCoinBases_append, Op.withoutCoinBases_pushed,
    Op.withoutCoinBases_pushed]
  rfl

/-- Without its coinbase, an event pushes what it submits. -/
theorem Event.withoutCoinBases_pushed (n : Node E) (ev : Event ι) :
    withoutCoinBases (ev.pushed cfg n) = ev.submits cfg n := by
  cases ev with
  | triggerMineBlock date fuel => exact n.withoutCoinBases_mining _ date fuel
  | transactionRequest receiver amount =>
    simp only [Event.pushed, Event.submits]
    split
    · exact Op.withoutCoinBases_pushed _ _
    · rfl
  | transaction body date fuel => exact n.withoutCoinBases_mining body date fuel
  | _ => rfl

/-! ### What an event does to the history -/

section network

variable [DecidableEq ι] {names : List ι} {s s' : Network E ι}

/-- The event of an action, if it happens at `p`. -/
def Action.eventAt (p : ι) (a : Action ι) : Option (Event ι) :=
  match a.event with
  | some (q, ev) => if q = p then some ev else none
  | none         => none

end network

section network

variable [DecidableEq ι] {names : List ι} {s s' : Network E ι}

end network

end XCoin
