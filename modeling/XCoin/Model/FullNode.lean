import XCoin.Js.Number
import XCoin.Model.Run
import XCoin.Model.Wire

/-! # A full node

    `FullNode.js`: one process with a blockchain object, HTTP handlers that
    other nodes and users call, the callbacks of the `getBlocks` requests it
    sends when it starts up, and the callback that restores the blocks saved
    by an earlier process.

    JavaScript runs one handler or callback at a time, so each is a function
    from the node's state to a `Reaction`.  Requests a handler sends and saves
    it starts are effects: they happen later, elsewhere.
-/

namespace XCoin

open Js LTS

/-- What a node is started with; `ι` are the names of nodes. -/
structure Config (E : Env) (ι : Type) where
  neighborNodeList : List ι
  myKey            : E.KeyPair

/-- The variables of the process that its handlers and callbacks share. -/
structure Node (E : Env) where
  xCoin : Blockchain E
  /-- How many callbacks of `startup` have run. -/
  i : Nat
  neighborNodeResponseList : List (List Block)

/-- What a handler asks others to do. -/
inductive Effect where
  /-- `sendInvToNeighbors(chain, neighborNodeList)`. -/
  | sendInv (chain : List Block)
  /-- `sendTransactionToNeighbors(transaction, neighborNodeList)`. -/
  | sendTransaction (transaction : Transaction)
  /-- `saveBlockchainToDisk(chain)`. -/
  | save (chain : List Block)

/-- How a handler ends, the state it leaves and what it has asked for. -/
structure Reaction (E : Env) where
  result  : Result Unit
  node    : Node E
  effects : List Effect

variable {E : Env} {ι : Type}

/-- The address that is paid for the blocks a node mines. -/
def Config.myWalletAddress (cfg : Config E ι) : Val := .str (E.getPublic cfg.myKey)

namespace Node

/-- The state before any callback or handler has run. -/
def new (cfg : Config E ι) : Node E where
  xCoin := .new E (some cfg.myKey)
  i := 0
  neighborNodeResponseList := []

/-- The chain the node holds. -/
def chain (n : Node E) : List Block := n.xCoin.chain

/-- Assignment to `xCoin.chain`. -/
def setChain (n : Node E) (chain : List Block) : Node E :=
  { n with xCoin := { n.xCoin with chain } }

@[simp] theorem setChain_chain (n : Node E) (c : List Block) : (n.setChain c).chain = c := rfl

/-! ### Handlers -/

/-- The transaction `triggerMineBlock` creates, from nobody to nobody. -/
def triggerTransaction : Transaction :=
  Transaction.new .null .null (.num 100) .undefined .undefined .undefined

/-- `GET /triggerMineBlock`: create a transaction and mine the pending list. -/
def triggerMineBlock (cfg : Config E ι) (n : Node E) (date : Int) (fuel : Nat) :
    Option (Reaction E) :=
  let xCoin := n.xCoin.createTransaction triggerTransaction.toValue
  (xCoin.minePendingTransactions cfg.myWalletAddress date fuel).map fun (r, xCoin) =>
    { result  := r.map fun _ => ()
      node    := { n with xCoin }
      effects := [] }

/-- The transaction that `POST /transactionRequest` makes and signs. -/
def requestedTransaction (cfg : Config E ι) (receiveWalletAddress amount : Val) :
    Result Transaction := do
  let transaction := Transaction.new cfg.myWalletAddress receiveWalletAddress amount .null
    (.arr []) (.arr [newTxOut receiveWalletAddress amount])
  let id ← transaction.getTransactionId E false ""
  Transaction.signTransaction E { transaction with id := .str id } cfg.myKey

/-- `POST /transactionRequest`: sign a transaction, add it to the pending
    list and tell the neighbours. -/
def postTransactionRequest (cfg : Config E ι) (n : Node E)
    (receiveWalletAddress amount : Val) : Reaction E :=
  match requestedTransaction cfg receiveWalletAddress amount with
  | .error e => { result := .error e, node := n, effects := [] }
  | .ok transaction =>
    match n.xCoin.addTransaction transaction.toValue with
    | (.error e, xCoin) => { result := .error e, node := { n with xCoin }, effects := [] }
    | (.ok (), xCoin)   =>
      { result  := .ok ()
        node    := { n with xCoin }
        effects := [.sendTransaction transaction] }

/-- `POST /transaction`: the body goes to the pending list as it is, and the
    pending list is mined. -/
def postTransaction (cfg : Config E ι) (n : Node E) (body : Val) (date : Int) (fuel : Nat) :
    Option (Reaction E) :=
  let xCoin := n.xCoin.createTransaction body
  (xCoin.minePendingTransactions cfg.myWalletAddress date fuel).map fun (r, xCoin) =>
    match r with
    -- the exception ends the handler before anything is sent or saved
    | .error e => { result := .error e, node := { n with xCoin }, effects := [] }
    | .ok _ =>
      { result  := .ok ()
        node    := { n with xCoin }
        effects := [.sendInv xCoin.chain, .save xCoin.chain] }

/-- `POST /inv` with an array of blocks, which is what nodes send.  The guard
    `req.body.length > xCoin.chain` compares a number with the array itself. -/
def postInv (n : Node E) (body : List Block) : Reaction E :=
  match Value.isBelow (.arr (n.chain.map Block.toValue)) body.length with
  | .error e  => { result := .error e, node := n, effects := [] }
  | .ok false => { result := .ok (), node := n, effects := [] }
  | .ok true  => { result := .ok (), node := n.setChain body, effects := [.save body] }

/-! ### Startup -/

/-- The loop that looks for the longest chain received. -/
def maxNeighborNodeBodyList (responses : List (List Block)) : List Block :=
  responses.foldl (fun longest response =>
    if longest.length < response.length then response else longest) []

/-- The response list and the counter after a callback. -/
def recordResponse (n : Node E) (body : Option (List Block)) : Node E :=
  { n with
    neighborNodeResponseList := n.neighborNodeResponseList ++ body.toList
    i := n.i + 1 }

/-- The callback of one `getBlocks` request; a request that failed has no
    body.  The callback that finds `i` at the last neighbour decides: it
    announces the node's own chain if that is longer than all received, and
    adopts the longest received chain otherwise. -/
def getBlocksCallback (cfg : Config E ι) (n : Node E) (body : Option (List Block)) :
    Reaction E :=
  let n' := n.recordResponse body
  -- the test reads `i` before the callback increments it
  if cfg.neighborNodeList.length = n.i + 1 then
    let longest := maxNeighborNodeBodyList n'.neighborNodeResponseList
    -- a received chain of the same length is adopted
    if longest.length < n.chain.length then
      { result := .ok (), node := n', effects := [.sendInv n.chain] }
    else
      { result := .ok (), node := n'.setChain longest, effects := [.save longest] }
  else
    { result := .ok (), node := n', effects := [] }

/-! ### Restore -/

/-- The block made from a document of the collection. -/
def restoreBlock (item : Block) : Block :=
  { Block.new item.timestamp item.transactions item.previousHash with
    hash  := item.hash
    nonce := item.nonce
    index := item.index }

/-- The callback of the query at startup: every document found is appended
    to the chain. -/
def restore (n : Node E) (result : List Block) : Reaction E :=
  { result  := .ok ()
    node    := n.setChain (n.chain ++ result.map restoreBlock)
    effects := [] }

end Node

/-! ### Events -/

/-- The requests a node handles and the callbacks it runs. -/
inductive Event (ι : Type) where
  | triggerMineBlock (date : Int) (fuel : Nat)
  | transactionRequest (receiveWalletAddress amount : Val)
  | transaction (body : Val) (date : Int) (fuel : Nat)
  | inv (body : List Block)
  | getBlocks (neighborNode : ι) (body : Option (List Block))
  | restore (result : List Block)

/-- The reaction of a node to an event; `none` while a search has not ended. -/
def Node.handle (cfg : Config E ι) (n : Node E) : Event ι → Option (Reaction E)
  | .triggerMineBlock date fuel => n.triggerMineBlock cfg date fuel
  | .transactionRequest receiver amount => some (n.postTransactionRequest cfg receiver amount)
  | .transaction body date fuel => n.postTransaction cfg body date fuel
  | .inv body => some (n.postInv body)
  | .getBlocks _ body => some (n.getBlocksCallback cfg body)
  | .restore result => some (n.restore result)

/-- A node and the neighbours whose `getBlocks` callback has not run yet. -/
structure NodeState (E : Env) (ι : Type) where
  node    : Node E
  waiting : List ι

/-- The neighbours still waited for: the callback of a request runs once. -/
def Event.settles (waiting : List ι) : Event ι → List ι → Prop
  | .getBlocks neighborNode _, waiting' =>
      ∃ l₁ l₂, waiting = l₁ ++ neighborNode :: l₂ ∧ waiting' = l₁ ++ l₂
  | _, waiting' => waiting' = waiting

/-- One node in an arbitrary environment: any event may come at any time,
    except that each neighbour's callback runs once.  Steps are labelled with
    the event and the effects it had. -/
def nodeSystem (cfg : Config E ι) : System (NodeState E ι) (Event ι × List Effect) where
  init := fun s => s = ⟨.new cfg, cfg.neighborNodeList⟩
  step := fun s l s' =>
    (∃ result, s.node.handle cfg l.1 = some ⟨result, s'.node, l.2⟩) ∧
      l.1.settles s.waiting s'.waiting

/-- Two nodes that are neighbours of each other. -/
def demoConfig (name : Bool) : Config demoEnv Bool where
  neighborNodeList := [!name]
  myKey            := ()

end XCoin
