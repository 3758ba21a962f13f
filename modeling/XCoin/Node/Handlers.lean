import XCoin.Chain.Mining
import XCoin.Model.FullNode

/-! # What the handlers of a node do

    One inversion lemma, `Node.handle_outcome`, says everything an event can
    do to a node whose chain is not empty, and `Event.Outcome.change` what of
    this happens to the chain.  Two facts about every event follow: the chain
    never gets shorter, and so it is never empty.

    The handler of `/inv` appears in the inversion only as an event that is
    ignored: its guard compares a number with an array of objects, which is
    no number.
-/

namespace XCoin

open Js LTS

variable {E : Env} {ι : Type} {cfg : Config E ι} {n n' : Node E}

/-! ### The guard of `/inv` -/

/-- **The guard never holds**: `req.body.length > xCoin.chain` is false for
    every chain with a block in it. -/
theorem Node.inv_guard (hne : n.chain ≠ []) (k : Int) :
    Value.isBelow (.arr (n.chain.map Block.toValue)) k = .ok false := by
  -- the chain is converted to the text of an array of objects
  have hobjects : n.chain.map Block.toValue =
      (n.chain.map Block.fields).map fun fs => .obj none fs := by
    rw [List.map_map]
    rfl
  rw [hobjects]
  apply Value.isBelow_objects
  · intro fs hfs
    obtain ⟨b, _, rfl⟩ := List.mem_map.mp hfs
    exact b.lookup_toString
  · simpa using hne

theorem Node.postInv_eq (hne : n.chain ≠ []) (body : List Block) :
    n.postInv body = { result := .ok (), node := n, effects := [] } := by
  unfold Node.postInv
  rw [Node.inv_guard hne]

/-! ### The inversion -/

/-- Everything an event can do to a node, and the effects it has. -/
inductive Event.Outcome (cfg : Config E ι) (n : Node E) :
    Event ι → Node E → List Effect → Prop where
  /-- A request throws: the transaction cannot be signed or is not valid. -/
  | refused (receiver amount : Val) : Outcome cfg n (.transactionRequest receiver amount) n []
  /-- An `/inv` message is ignored. -/
  | ignored (body : List Block) : Outcome cfg n (.inv body) n []
  /-- A requested transaction is signed, found valid and sent. -/
  | requested (receiver amount : Val) (tx : Transaction)
      (hsigned : Node.requestedTransaction cfg receiver amount = .ok tx)
      (hvalid : callIsValid E tx.toValue = .ok true) :
      Outcome cfg n (.transactionRequest receiver amount)
        { n with xCoin := n.xCoin.createTransaction tx.toValue } [.sendTransaction tx]
  /-- The pending list is mined after `triggerMineBlock` added to it. -/
  | triggered (date : Int) (fuel : Nat) (r : Result Unit) (xCoin : Blockchain E)
      (hmine : (Op.minePendingTransactions cfg.myWalletAddress date fuel).Outcome
        (n.xCoin.createTransaction Node.triggerTransaction.toValue) r xCoin) :
      Outcome cfg n (.triggerMineBlock date fuel) { n with xCoin } []
  /-- The pending list is mined after a received transaction was added. -/
  | received (body : Val) (date : Int) (fuel : Nat) (r : Result Unit) (xCoin : Blockchain E)
      (effects : List Effect)
      (hmine : (Op.minePendingTransactions cfg.myWalletAddress date fuel).Outcome
        (n.xCoin.createTransaction body) r xCoin)
      (heffects : effects = [] ∨ effects = [.sendInv xCoin.chain, .save xCoin.chain]) :
      Outcome cfg n (.transaction body date fuel) { n with xCoin } effects
  /-- A callback of `startup` that is not the last. -/
  | recorded (k : ι) (body : Option (List Block))
      (hearly : cfg.neighborNodeList.length ≠ n.i + 1) :
      Outcome cfg n (.getBlocks k body) (n.recordResponse body) []
  /-- The last callback keeps the node's chain and announces it. -/
  | announced (k : ι) (body : Option (List Block))
      (hlast : cfg.neighborNodeList.length = n.i + 1)
      (hlonger : (Node.maxNeighborNodeBodyList
        (n.recordResponse body).neighborNodeResponseList).length < n.chain.length) :
      Outcome cfg n (.getBlocks k body) (n.recordResponse body) [.sendInv n.chain]
  /-- The last callback adopts the longest chain received. -/
  | adopted (k : ι) (body : Option (List Block)) (longest : List Block)
      (hlast : cfg.neighborNodeList.length = n.i + 1)
      (hlongest : longest = Node.maxNeighborNodeBodyList
        (n.recordResponse body).neighborNodeResponseList)
      (hle : n.chain.length ≤ longest.length) :
      Outcome cfg n (.getBlocks k body) ((n.recordResponse body).setChain longest)
        [.save longest]
  | restored (result : List Block) :
      Outcome cfg n (.restore result) (n.setChain (n.chain ++ result.map Node.restoreBlock)) []

/-- **Step lemma**: every event has one of the outcomes. -/
theorem Node.handle_outcome {ev : Event ι} {r : Result Unit} {effects : List Effect}
    (hne : n.chain ≠ []) (h : n.handle cfg ev = some ⟨r, n', effects⟩) :
    ev.Outcome cfg n n' effects := by
  cases ev with
  | triggerMineBlock date fuel =>
    obtain ⟨⟨q, xCoin⟩, hmine, heq⟩ := Option.map_eq_some_iff.mp h
    cases heq
    exact .triggered date fuel _ xCoin (Op.exec_outcome (Op.exec_minePendingTransactions hmine))
  | transactionRequest receiver amount =>
    simp only [Node.handle, Node.postTransactionRequest, Option.some.injEq] at h
    split at h
    · -- signing threw
      cases h
      exact .refused receiver amount
    · next tx hsigned =>
      rcases n.xCoin.addTransaction_cases tx.toValue with ⟨e, hadd⟩ | ⟨hvalid, hadd⟩
      · -- `addTransaction` threw, and changed nothing
        simp only [hadd] at h
        cases h
        exact .refused receiver amount
      · simp only [hadd] at h
        cases h
        exact .requested receiver amount tx hsigned hvalid
  | transaction body date fuel =>
    obtain ⟨⟨q, xCoin⟩, hmine, heq⟩ := Option.map_eq_some_iff.mp h
    have hout := Op.exec_outcome (Op.exec_minePendingTransactions hmine)
    cases q with
    | error e =>
      cases heq
      exact .received body date fuel _ xCoin _ hout (.inl rfl)
    | ok b =>
      cases heq
      exact .received body date fuel _ xCoin _ hout (.inr rfl)
  | inv body =>
    -- the guard is false, for the chain is not empty
    simp only [Node.handle, Node.postInv_eq hne, Option.some.injEq] at h
    cases h
    exact .ignored _
  | getBlocks k body =>
    simp only [Node.handle, Node.getBlocksCallback, Option.some.injEq] at h
    split at h
    · next hlast =>
      split at h
      · next hlonger =>
        cases h
        exact .announced k body hlast hlonger
      · next hle =>
        cases h
        exact .adopted k body _ hlast rfl (Nat.not_lt.mp hle)
    · next hearly =>
      cases h
      exact .recorded k body hearly
  | restore result =>
    cases h
    exact .restored result

/-! ### Chains only grow -/

/-- No event makes the chain shorter. -/
theorem Event.Outcome.length_le {ev : Event ι} {effects : List Effect}
    (h : ev.Outcome cfg n n' effects) : n.chain.length ≤ n'.chain.length := by
  cases h with
  | triggered date fuel r xCoin hmine => exact hmine.prefix_chain.length_le
  | received body date fuel r xCoin effects hmine _ => exact hmine.prefix_chain.length_le
  | adopted k body longest _ _ hle => exact hle
  | restored result => simp
  | _ => exact Nat.le_refl _

theorem Event.Outcome.chain_ne_nil {ev : Event ι} {effects : List Effect}
    (h : ev.Outcome cfg n n' effects) (hne : n.chain ≠ []) : n'.chain ≠ [] := by
  have hle := h.length_le
  have hpos := List.length_pos_iff.mpr hne
  exact List.length_pos_iff.mp (by omega)

/-- The transaction an event puts in the pending list before it mines. -/
def Event.mines : Event ι → Option Val
  | .triggerMineBlock _ _  => some Node.triggerTransaction.toValue
  | .transaction body _ _  => some body
  | _                      => none

/-- What an event does to the chain: nothing, a block is mined on it, the last
    callback of `startup` replaces it, or saved blocks are appended. -/
inductive Event.Change (cfg : Config E ι) (n n' : Node E) : Event ι → Prop where
  | kept (ev : Event ι) (h : n'.chain = n.chain) : Change cfg n n' ev
  | mined (ev : Event ι) (b : Block) (hmines : ev.mines.isSome = true)
      (hmined : MinedOn E n.chain b) (h : n'.chain = n.chain ++ [b]) : Change cfg n n' ev
  | adopted (k : ι) (body : Option (List Block)) (hlast : cfg.neighborNodeList.length = n'.i)
      (hnext : n'.i = n.i + 1)
      (h : n'.chain = Node.maxNeighborNodeBodyList n'.neighborNodeResponseList)
      (hle : n.chain.length ≤ n'.chain.length) : Change cfg n n' (.getBlocks k body)
  | restored (result : List Block) (h : n'.chain = n.chain ++ result.map Node.restoreBlock) :
      Change cfg n n' (.restore result)

theorem Event.Outcome.change {ev : Event ι} {effects : List Effect}
    (h : ev.Outcome cfg n n' effects) : ev.Change cfg n n' := by
  have hmine {tx : Val} {date : Int} {fuel : Nat} {r : Result Unit} {xCoin : Blockchain E}
      (hmines : ev.mines.isSome = true)
      (hout : (Op.minePendingTransactions cfg.myWalletAddress date fuel).Outcome
        (n.xCoin.createTransaction tx) r xCoin) : ev.Change cfg n { n with xCoin } := by
    rcases hout.chain with heq | ⟨b, heq, hmined⟩
    · exact .kept ev heq
    · exact .mined ev b hmines hmined heq
  cases h with
  | triggered date fuel r xCoin hout => exact hmine rfl hout
  | received body date fuel r xCoin effects hout _ => exact hmine rfl hout
  | adopted k body longest hlast hlongest hle => exact .adopted k body hlast rfl hlongest hle
  | restored result => exact .restored result rfl
  | _ => exact .kept _ rfl

/-- **The chain of a node is never empty.** -/
theorem chain_ne_nil_of_reachable {s : NodeState E ι} (h : Reachable (nodeSystem cfg) s) :
    s.node.chain ≠ [] := by
  refine h.invariant_from (P := fun s => s.node.chain ≠ []) (fun _ hs => hs)
    (List.cons_ne_nil _ _) ?_
  intro s l s' hne hstep
  obtain ⟨⟨r, hhandle⟩, _⟩ := hstep
  exact (Node.handle_outcome hne hhandle).chain_ne_nil hne

/-- Every step out of a reachable state has one of the outcomes. -/
theorem nodeSystem_outcome {s s' : NodeState E ι} {l : Event ι × List Effect}
    (h : Reachable (nodeSystem cfg) s) (hstep : (nodeSystem cfg).step s l s') :
    l.1.Outcome cfg s.node s'.node l.2 ∧ l.1.settles s.waiting s'.waiting := by
  obtain ⟨⟨r, hhandle⟩, hsettles⟩ := hstep
  exact ⟨Node.handle_outcome (chain_ne_nil_of_reachable h) hhandle, hsettles⟩

/-- A node that has mined a block, and its chain as it arrives elsewhere. -/
theorem demo_mined :
    ∃ (s : NodeState demoEnv Bool) (body : List Block),
      Reachable (nodeSystem (demoConfig false)) s ∧ s.node.chain.length = 2 ∧
      transportChain s.node.chain = .ok body := by
  have hfinal : ((Node.new (demoConfig false)).triggerMineBlock (demoConfig false) 7 1).map
      (fun r => (r.node.chain.length, (transportChain r.node.chain).toBool)) = some (2, true) := by
    decide +kernel
  obtain ⟨⟨result, node, effects⟩, hmine, hfacts⟩ := Option.map_eq_some_iff.mp hfinal
  rw [Prod.mk.injEq] at hfacts
  have hreach : Reachable (nodeSystem (demoConfig false)) ⟨node, [true]⟩ :=
    .step (.triggerMineBlock 7 1, effects) (.init rfl) ⟨⟨result, hmine⟩, rfl⟩
  cases htransport : transportChain node.chain with
  | ok body => exact ⟨⟨node, [true]⟩, body, hreach, hfacts.1, htransport⟩
  | error e =>
    rw [htransport] at hfacts
    cases hfacts.2

end XCoin
