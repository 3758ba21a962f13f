import XCoin.Framework.Longest
import XCoin.Model.Network

/-! # Where transactions come from

    Two requests may create equal transactions, so the values in a chain do
    not tell which request they come from.  The traced network is the network
    of `Model/Network.lean` with records of the origins of all transactions:
    in the chains, the pending lists, the recorded responses and the messages
    on their way.  A request that is accepted gets the next number; whatever
    no request created has no origin.

    The records follow the nodes and never steer them.  Requests may hold any
    values here.
-/

namespace XCoin

open Js LTS

/-- The number of the request that created a transaction, if one did. -/
abbrev Origin : Type := Option Nat

/-- The origins of the transactions a node holds. -/
structure Origins where
  /-- Block by block, those of the chain. -/
  chain     : List (List Origin)
  pending   : List Origin
  /-- Those of the recorded responses. -/
  responses : List (List (List Origin))

/-- The origins of what a message carries. -/
structure Cargo where
  /-- That of a transaction. -/
  origin : Origin
  /-- Those of a response with a chain. -/
  blocks : Option (List (List Origin))

namespace Origins

/-- A fresh node holds the genesis block. -/
def new : Origins where
  chain     := [[]]
  pending   := []
  responses := []

variable {E : Env} {ι : Type}

/-- A transaction is pushed and the pending list is mined.  If the chain has
    grown, the new block holds the pending transactions and the coinbase;
    otherwise everything that was pushed is pending. -/
def mine (n n' : Node E) (o : Origins) (origin : Origin) : Origins :=
  if n.chain.length < n'.chain.length then
    { o with
      chain   := o.chain ++ [o.pending ++ [origin] ++ [none]]
      pending := [] }
  else
    { o with
      pending := o.pending ++ [origin] ++ List.replicate
        (n'.xCoin.pendingTransactions.length - (n.xCoin.pendingTransactions.length + 1)) none }

/-- A request is accepted if its transaction is pending afterwards. -/
def request (n n' : Node E) (o : Origins) (number : Nat) : Origins :=
  if n.xCoin.pendingTransactions.length < n'.xCoin.pendingTransactions.length then
    { o with pending := o.pending ++ [some number] }
  else o

/-- `Node.getBlocksCallback` on the records. -/
def getBlocksCallback (cfg : Config E ι) (n : Node E) (o : Origins)
    (blocks : Option (List (List Origin))) : Origins :=
  let responses := o.responses ++ blocks.toList
  if cfg.neighborNodeList.length = n.i + 1 then
    let longest := Longest.pick List.length [] responses
    if longest.length < o.chain.length then { o with responses }
    else { o with responses, chain := longest }
  else { o with responses }

/-- The records after an event that took the node from `n` to `n'`; `number`
    is the next request number. -/
def handle (cfg : Config E ι) (n n' : Node E) (o : Origins) (number : Nat) (cargo : Cargo) :
    Event ι → Origins
  | .triggerMineBlock _ _ => o.mine n n' none
  | .transactionRequest _ _ => o.request n n' number
  | .transaction _ _ _ => o.mine n n' cargo.origin
  | .getBlocks _ _ => o.getBlocksCallback cfg n cargo.blocks
  -- `/inv` is ignored, and there is nothing to restore
  | .inv _ => o
  | .restore _ => o

end Origins

/-- A network with records. -/
structure Traced (E : Env) (ι : Type) where
  nodes    : ι → Node E
  origins  : ι → Origins
  messages : List (ι × Message ι × Cargo)
  /-- The transactions the accepted requests have created. -/
  created  : List Transaction

/-- What can happen; messages are named by their position. -/
inductive TracedAction (ι : Type) where
  | triggerMineBlock (p : ι) (date : Int) (fuel : Nat)
  | transactionRequest (p : ι) (receiveWalletAddress amount : Val)
  | answer (k : Nat)
  | fail (k : Nat)
  | lose (k : Nat)
  | deliver (k : Nat) (date : Int) (fuel : Nat)

/-- The transaction an effect sends. -/
def Effect.created? : Effect → Option Transaction
  | .sendTransaction transaction => some transaction
  | _ => none

namespace Traced

variable {E : Env} {ι : Type}

/-- The network without the records. -/
def erase (s : Traced E ι) : Network E ι where
  nodes    := s.nodes
  messages := s.messages.map fun m => (m.1, m.2.1)

/-- The start. -/
def new (names : List ι) (cfgs : ι → Config E ι) : Traced E ι where
  nodes    := fun p => .new (cfgs p)
  origins  := fun _ => .new
  messages := (Network.new names cfgs).messages.map fun m => (m.1, m.2, ⟨none, none⟩)
  created  := []

variable [DecidableEq ι]

/-- The node `p` handles an event while the messages `rest` stay on their
    way.  Only the handler of a request sends transactions, and it sends the
    one it has created. -/
def react (cfgs : ι → Config E ι) (s : Traced E ι) (p : ι) (ev : Event ι) (cargo : Cargo)
    (rest : List (ι × Message ι × Cargo)) : Option (Traced E ι) :=
  ((s.nodes p).handle (cfgs p) ev).map fun reaction =>
    { nodes    := Function.update s.nodes p reaction.node
      origins  := Function.update s.origins p
        ((s.origins p).handle (cfgs p) (s.nodes p) reaction.node s.created.length cargo ev)
      messages := rest ++ (reaction.effects.flatMap
        (Effect.messages (cfgs p).neighborNodeList)).map fun m =>
          (m.1, m.2, ⟨some s.created.length, none⟩)
      created  := s.created ++ reaction.effects.filterMap Effect.created? }

end Traced

variable {E : Env} {ι : Type} [DecidableEq ι]

/-- The state after an action; `none` if it cannot happen. -/
def TracedAction.exec (cfgs : ι → Config E ι) (s : Traced E ι) :
    TracedAction ι → Option (Traced E ι)
  | .triggerMineBlock p date fuel =>
      s.react cfgs p (.triggerMineBlock date fuel) ⟨none, none⟩ s.messages
  | .transactionRequest p receiver amount =>
      s.react cfgs p (.transactionRequest receiver amount) ⟨none, none⟩ s.messages
  | .answer k =>
      match s.messages[k]? with
      | some (p, .getBlocks asker, _) =>
          match transportChain (s.nodes p).chain with
          | .ok body => some { s with
              messages := s.messages.eraseIdx k ++
                [(asker, .blocks p (some body), ⟨none, some (s.origins p).chain⟩)] }
          | .error _ => none
      | _ => none
  | .fail k =>
      match s.messages[k]? with
      | some (p, .getBlocks asker, _) => some { s with
          messages := s.messages.eraseIdx k ++ [(asker, .blocks p none, ⟨none, none⟩)] }
      | _ => none
  | .lose k =>
      match s.messages[k]? with
      | some (_, message, _) =>
          if message.isPost then some { s with messages := s.messages.eraseIdx k } else none
      | none => none
  | .deliver k date fuel =>
      match s.messages[k]? with
      | some (p, message, cargo) =>
          (message.event date fuel).bind fun ev =>
            s.react cfgs p ev cargo (s.messages.eraseIdx k)
      | none => none

/-! What the actions on messages do. -/

section messages

variable {cfgs : ι → Config E ι} {s s' : Traced E ι} {k : Nat}

theorem TracedAction.exec_answer (h : (TracedAction.answer k).exec cfgs s = some s') :
    ∃ p asker cargo body, s.messages[k]? = some (p, .getBlocks asker, cargo) ∧
      transportChain (s.nodes p).chain = .ok body ∧
      s' = { s with messages := s.messages.eraseIdx k ++
        [(asker, .blocks p (some body), ⟨none, some (s.origins p).chain⟩)] } := by
  simp only [exec] at h
  split at h
  · next p asker cargo hmessage =>
    split at h
    · next body hbody =>
      cases h
      exact ⟨p, asker, cargo, body, hmessage, hbody, rfl⟩
    · cases h
  · cases h

theorem TracedAction.exec_fail (h : (TracedAction.fail k).exec cfgs s = some s') :
    ∃ p asker cargo, s.messages[k]? = some (p, .getBlocks asker, cargo) ∧
      s' = { s with messages := s.messages.eraseIdx k ++
        [(asker, .blocks p none, ⟨none, none⟩)] } := by
  simp only [exec] at h
  split at h
  · next p asker cargo hmessage =>
    cases h
    exact ⟨p, asker, cargo, hmessage, rfl⟩
  · cases h

theorem TracedAction.exec_lose (h : (TracedAction.lose k).exec cfgs s = some s') :
    ∃ p message cargo, s.messages[k]? = some (p, message, cargo) ∧ message.isPost = true ∧
      s' = { s with messages := s.messages.eraseIdx k } := by
  simp only [exec] at h
  split at h
  · next p message cargo hmessage =>
    split at h
    · next hpost =>
      cases h
      exact ⟨p, message, cargo, hmessage, hpost, rfl⟩
    · cases h
  · cases h

theorem TracedAction.exec_deliver {date : Int} {fuel : Nat}
    (h : (TracedAction.deliver k date fuel).exec cfgs s = some s') :
    ∃ p message cargo ev, s.messages[k]? = some (p, message, cargo) ∧
      message.event date fuel = some ev ∧
      s.react cfgs p ev cargo (s.messages.eraseIdx k) = some s' := by
  simp only [exec] at h
  split at h
  · next p message cargo hmessage =>
    obtain ⟨ev, hevent, hreact⟩ := Option.bind_eq_some_iff.mp h
    exact ⟨p, message, cargo, ev, hmessage, hevent, hreact⟩
  · cases h

end messages

/-- The traced network of the nodes `names`. -/
def tracedSystem (names : List ι) (cfgs : ι → Config E ι) :
    System (Traced E ι) (TracedAction ι) where
  init := fun s => s = .new names cfgs
  step := fun s a s' => a.exec cfgs s = some s'

/-- The state after a list of actions. -/
def execTraced (cfgs : ι → Config E ι) (s : Traced E ι) (as : List (TracedAction ι)) :
    Option (Traced E ι) :=
  execList (fun s a => a.exec cfgs s) s as

theorem run_of_execTraced (names : List ι) {cfgs : ι → Config E ι} {s s' : Traced E ι}
    {as : List (TracedAction ι)} (h : execTraced cfgs s as = some s') :
    ∃ tr, Run (tracedSystem names cfgs) s tr s' ∧ tr.map (·.label) = as :=
  Run.of_execList (fun _ _ _ hexec => hexec) h

end XCoin
