import Mathlib.Order.Bounds.Defs
import XCoin.Node.Handlers

/-! # The longest-chain rule of `/inv`

    A node that receives a chain is meant to keep the longer of the two:
    "If longer than mine, use theirs".  `longestChain` is that rule.  The
    handler compares the length received with its chain instead of its
    chain's length, so it never adopts anything; it follows the rule exactly
    when there was nothing to adopt.
-/

namespace XCoin

open Js LTS

variable {E : Env} {ι : Type} {cfg : Config E ι} {n : Node E}

/-! ### The rule and the handler -/

/-- The rule: the received chain if it is longer, the node's own otherwise. -/
def longestChain (own received : List Block) : List Block :=
  if own.length < received.length then received else own

/-- The node after a sequence of `/inv` messages. -/
def Node.afterInvs (n : Node E) (bodies : List (List Block)) : Node E :=
  bodies.foldl (fun n body => (n.postInv body).node) n

/-- Any number of `/inv` messages leaves the node as it was. -/
theorem Node.afterInvs_eq (hne : n.chain ≠ []) (bodies : List (List Block)) :
    n.afterInvs bodies = n := by
  induction bodies with
  | nil => rfl
  | cons body bodies ih =>
    show (n.postInv body).node.afterInvs bodies = n
    rw [Node.postInv_eq hne]
    exact ih

/-- **The rule of `/inv` holds exactly for chains that are not longer.** In
    every reachable state of a node, a message leads to the chain the rule
    demands if and only if the received chain is not longer than the node's;
    and after a sequence of messages the length of the chain is the greatest
    of its length before and the lengths received if and only if none of
    these was longer. -/
theorem inv_longestChain_iff {s : NodeState E ι} (h : Reachable (nodeSystem cfg) s) :
    (∀ body : List Block,
      (s.node.postInv body).node.chain = longestChain s.node.chain body ↔
        body.length ≤ s.node.chain.length) ∧
    ∀ bodies : List (List Block),
      IsGreatest {k | k = s.node.chain.length ∨ ∃ body ∈ bodies, k = body.length}
          (s.node.afterInvs bodies).chain.length ↔
        ∀ body ∈ bodies, body.length ≤ s.node.chain.length := by
  have hne := chain_ne_nil_of_reachable h
  constructor
  · -- the handler keeps the chain, so it is right unless the rule changes it
    intro body
    rw [Node.postInv_eq hne]
    unfold longestChain
    constructor
    · intro heq
      by_contra hlonger
      rw [if_pos (by omega)] at heq
      have hlen := congrArg List.length heq
      dsimp only at hlen
      omega
    · intro hle
      rw [if_neg (by omega)]
  · intro bodies
    -- the length before the first message is the length after the last
    rw [Node.afterInvs_eq hne]
    constructor
    · intro hgreatest body hbody
      exact hgreatest.2 (.inr ⟨body, hbody, rfl⟩)
    · intro hle
      refine ⟨.inl rfl, ?_⟩
      rintro k (rfl | ⟨body, hbody, rfl⟩)
      · exact Nat.le_refl _
      · exact hle body hbody

/-- The equivalence for a node with a chain of two blocks. -/
theorem inv_longestChain_iff_mined :
    ∃ s : NodeState demoEnv Bool, Reachable (nodeSystem (demoConfig false)) s ∧
      s.node.chain.length = 2 ∧
      ∀ body : List Block,
        (s.node.postInv body).node.chain = longestChain s.node.chain body ↔
          body.length ≤ s.node.chain.length := by
  obtain ⟨s, _, hreach, hlen, _⟩ := demo_mined
  exact ⟨s, hreach, hlen, (inv_longestChain_iff hreach).1⟩

/-- **A longer chain is not adopted.** A node with the genesis block only
    receives the chain of two blocks of its neighbour and keeps its own. -/
theorem inv_keeps_shorter_chain :
    ∃ (s sender : NodeState demoEnv Bool) (body : List Block),
      Reachable (nodeSystem (demoConfig true)) s ∧
      Reachable (nodeSystem (demoConfig false)) sender ∧
      transportChain sender.node.chain = .ok body ∧
      s.node.chain.length = 1 ∧ body.length = 2 ∧
      (s.node.postInv body).node.chain ≠ longestChain s.node.chain body ∧
      (s.node.afterInvs [body]).chain.length = 1 := by
  obtain ⟨sender, body, hreach, hlen, htransport⟩ := demo_mined
  have hbody : body.length = 2 := by
    rw [(transportChain_ok htransport).1, hlen]
  let s : NodeState demoEnv Bool := ⟨.new (demoConfig true), [false]⟩
  have hs : Reachable (nodeSystem (demoConfig true)) s := .init rfl
  have hne := chain_ne_nil_of_reachable hs
  refine ⟨s, sender, body, hs, hreach, htransport, rfl, hbody, ?_, ?_⟩
  · rw [Node.postInv_eq hne]
    intro heq
    have hkept := congrArg List.length heq
    unfold longestChain at hkept
    rw [if_pos (show s.node.chain.length < body.length by rw [hbody]; decide), hbody] at hkept
    cases hkept
  · rw [Node.afterInvs_eq hne]
    rfl

end XCoin
