import Mathlib.Logic.Function.Basic
import XCoin.Model.FullNode

/-! # A network of full nodes

    Any number of nodes, all running `FullNode.js`, with messages on their
    way between them.  Users make requests at any time, for transfers of
    integer amounts to receivers that are not empty; messages arrive in any
    order, at most once.  A request of one node to another may fail: the
    sender of a `POST` logs the error and forgets it, the sender of
    `GET /getBlocks` goes on without the blocks.  What a node sends is turned
    into JSON when it is sent.

    The callbacks that restore saved blocks are left out here, as if none of
    them found any.  `Model/Cluster.lean` is the network with databases and
    restores, and `Network/Lifetimes.lean` says how the two are related.
-/

namespace XCoin

open Js LTS

/-- A message on its way. -/
inductive Message (ι : Type) where
  /-- The request `GET /getBlocks` of the node `asker`. -/
  | getBlocks (asker : ι)
  /-- The response to such a request; without body if the request failed. -/
  | blocks (neighborNode : ι) (body : Option (List Block))
  /-- The request `POST /transaction`. -/
  | transaction (body : Val)
  /-- The request `POST /inv`. -/
  | inv (body : List Block)

/-- Is the message a `POST` request, which its sender forgets if it fails? -/
def Message.isPost {ι : Type} : Message ι → Bool
  | .transaction _ => true
  | .inv _         => true
  | _              => false

/-- The nodes, and the messages with their destinations. -/
structure Network (E : Env) (ι : Type) where
  nodes    : ι → Node E
  messages : List (ι × Message ι)

/-- What can happen in a network. -/
inductive Action (ι : Type) where
  /-- A user requests `/triggerMineBlock`. -/
  | triggerMineBlock (p : ι) (date : Int) (fuel : Nat)
  /-- A user requests `/transactionRequest`; the receiver is not empty. -/
  | transactionRequest (p : ι) (receiveWalletAddress : String) (amount : Int)
  /-- The node `p` serves a `/getBlocks` request. -/
  | answer (p asker : ι)
  /-- A `/getBlocks` request to `p` fails. -/
  | fail (p asker : ι)
  /-- A `POST` request to `p` fails: it is not delivered, or refused for its
      size. -/
  | lose (p : ι) (message : Message ι)
  /-- Another message is delivered to `p`. -/
  | deliver (p : ι) (message : Message ι) (date : Int) (fuel : Nat)

variable {E : Env} {ι : Type}

/-- The messages an effect puts on their way.  The senders catch exceptions,
    so a value without a JSON text is not sent. -/
def Effect.messages (neighborNodeList : List ι) : Effect → List (ι × Message ι)
  | .sendInv chain =>
      match transportChain chain with
      | .ok body => neighborNodeList.map fun q => (q, .inv body)
      | .error _ => []
  | .sendTransaction transaction =>
      -- the class of the transaction is lost here
      match Json.transport transaction.toValue with
      | .ok (some body) => neighborNodeList.map fun q => (q, .transaction body)
      | _               => []
  | .save _ => []

/-- The event by which a node handles a message; `/getBlocks` is answered
    without one. -/
def Message.event (date : Int) (fuel : Nat) : Message ι → Option (Event ι)
  | .getBlocks _              => none
  | .blocks neighborNode body => some (.getBlocks neighborNode body)
  | .transaction body         => some (.transaction body date fuel)
  | .inv body                 => some (.inv body)

/-- The event of an action and the node it happens at; `/getBlocks` is served
    without one. -/
def Action.event : Action ι → Option (ι × Event ι)
  | .triggerMineBlock p date fuel => some (p, .triggerMineBlock date fuel)
  | .transactionRequest p receiver amount =>
      some (p, .transactionRequest (.str receiver) (.num amount))
  | .deliver p message date fuel => (message.event date fuel).map fun ev => (p, ev)
  | _ => none

variable [DecidableEq ι]

/-- The node `p` handles an event while the messages `rest` stay on their
    way. -/
def Network.Handles (cfgs : ι → Config E ι) (s : Network E ι) (p : ι) (ev : Event ι)
    (rest : List (ι × Message ι)) (s' : Network E ι) : Prop :=
  ∃ r n' effects, (s.nodes p).handle (cfgs p) ev = some ⟨r, n', effects⟩ ∧
    s' = { nodes    := Function.update s.nodes p n'
           messages := rest ++ effects.flatMap (Effect.messages (cfgs p).neighborNodeList) }

/-- One step of a network. -/
inductive Network.Step (cfgs : ι → Config E ι) (s : Network E ι) :
    Action ι → Network E ι → Prop where
  | triggerMineBlock (p : ι) (date : Int) (fuel : Nat) (s' : Network E ι)
      (h : s.Handles cfgs p (.triggerMineBlock date fuel) s.messages s') :
      Step cfgs s (.triggerMineBlock p date fuel) s'
  | transactionRequest (p : ι) (receiver : String) (amount : Int) (s' : Network E ι)
      (hreceiver : receiver ≠ "")
      (h : s.Handles cfgs p (.transactionRequest (.str receiver) (.num amount)) s.messages s') :
      Step cfgs s (.transactionRequest p receiver amount) s'
  | answer (p asker : ι) (body : List Block) (l₁ l₂ : List (ι × Message ι))
      (hmessage : s.messages = l₁ ++ (p, .getBlocks asker) :: l₂)
      (hbody : transportChain (s.nodes p).chain = .ok body) :
      Step cfgs s (.answer p asker)
        { s with messages := l₁ ++ l₂ ++ [(asker, .blocks p (some body))] }
  | fail (p asker : ι) (l₁ l₂ : List (ι × Message ι))
      (hmessage : s.messages = l₁ ++ (p, .getBlocks asker) :: l₂) :
      Step cfgs s (.fail p asker) { s with messages := l₁ ++ l₂ ++ [(asker, .blocks p none)] }
  | lose (p : ι) (message : Message ι) (l₁ l₂ : List (ι × Message ι))
      (hmessage : s.messages = l₁ ++ (p, message) :: l₂) (hpost : message.isPost = true) :
      Step cfgs s (.lose p message) { s with messages := l₁ ++ l₂ }
  | deliver (p : ι) (message : Message ι) (ev : Event ι) (date : Int) (fuel : Nat)
      (l₁ l₂ : List (ι × Message ι)) (s' : Network E ι)
      (hmessage : s.messages = l₁ ++ (p, message) :: l₂)
      (hevent : message.event date fuel = some ev) (h : s.Handles cfgs p ev (l₁ ++ l₂) s') :
      Step cfgs s (.deliver p message date fuel) s'

/-- The message belongs to the startup of `p`: it is one of its requests, or a
    response to one. -/
def startupOf (p : ι) : ι × Message ι → Bool
  | (_, .getBlocks asker) => decide (asker = p)
  | (q, .blocks _ _)      => decide (q = p)
  | _                     => false

/-- The start: fresh nodes, each of which has asked its neighbours for their
    blocks. -/
def Network.new (names : List ι) (cfgs : ι → Config E ι) : Network E ι where
  nodes    := fun p => .new (cfgs p)
  messages := names.flatMap fun p =>
    (cfgs p).neighborNodeList.map fun q => (q, .getBlocks p)

/-- The network of the nodes `names`. -/
def networkSystem (names : List ι) (cfgs : ι → Config E ι) :
    System (Network E ι) (Action ι) where
  init := fun s => s = .new names cfgs
  step := Network.Step cfgs

end XCoin
