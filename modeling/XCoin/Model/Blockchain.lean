import XCoin.Model.Block

/-! # The blockchain

    `Blockchain.js`.  Methods that change the object return the new object
    beside their result, also when they throw: JavaScript does not undo the
    assignments made before an exception.  The mining methods return `none`
    while a search has not ended.
-/

namespace XCoin

open Js

/-- How often the difficulty is adjusted, in blocks. -/
def DIFFICULTY_ADJUSTMENT_INTERVAL : Nat := 10

/-- How often a block should be found. -/
def BLOCK_GENERATION_INTERVAL : Nat := 10

/-- An instance of the class `Blockchain`. -/
structure Blockchain (E : Env) where
  chain               : List Block
  pendingTransactions : List Val
  miningReward        : Int
  keyPair             : Option E.KeyPair

/-- The first block of the blockchain. -/
def createGenesisBlock : Block :=
  Block.new (.str "1589453315955") (.arr []) ""

/-! ### Difficulty -/

/-- `chain[chain.length - 1]`; reading a field of a missing block throws. -/
def latestBlock (chain : List Block) : Result Block :=
  match chain.getLast? with
  | some b => .ok b
  | none   => .error .typeError

/-- The retarget: the time since the block nine below the latest one decides
    whether that block's difficulty goes up, goes down or stays. -/
def getAdjustedDifficulty (latest : Block) (blockchain : List Block) : Result Difficulty :=
  if blockchain.length < DIFFICULTY_ADJUSTMENT_INTERVAL then .error .typeError
  else match blockchain[blockchain.length - DIFFICULTY_ADJUSTMENT_INTERVAL]? with
    | none => .error .typeError
    | some prevAdjustmentBlock =>
      let timeExpected := BLOCK_GENERATION_INTERVAL * DIFFICULTY_ADJUSTMENT_INTERVAL
      let timeTaken := Number.sub .binary64 latest.timestamp.toNumber
        prevAdjustmentBlock.timestamp.toNumber
      if timeTaken.lt (.fin ((timeExpected : ℚ) / 2)) then
        .ok (prevAdjustmentBlock.difficulty.plus 1)
      else if Number.lt (.fin (timeExpected * 2)) timeTaken then
        .ok (prevAdjustmentBlock.difficulty.plus (-1))
      else
        .ok prevAdjustmentBlock.difficulty

/-- The difficulty the next block has to be mined at. -/
def getDifficulty (chain : List Block) : Result Difficulty := do
  let latest ← latestBlock chain
  if latest.index % DIFFICULTY_ADJUSTMENT_INTERVAL = 0 ∧ latest.index ≠ 0 ∧
      DIFFICULTY_ADJUSTMENT_INTERVAL < latest.index then
    getAdjustedDifficulty latest chain
  else if latest.difficulty.truthy then
    return latest.difficulty
  else
    return .int 1

namespace Blockchain

variable {E : Env}

/-! ### Construction and transactions -/

/-- The constructor. -/
def new (E : Env) (keyPair : Option E.KeyPair) : Blockchain E where
  chain               := [createGenesisBlock]
  pendingTransactions := []
  miningReward        := 100
  keyPair             := keyPair

/-- Put a transaction in the pending list, unchecked. -/
def createTransaction (bc : Blockchain E) (transaction : Val) : Blockchain E :=
  { bc with pendingTransactions := bc.pendingTransactions ++ [transaction] }

theorem forall_mem_createTransaction {bc : Blockchain E} {tx : Val} {P : Val → Prop} :
    (∀ t ∈ (bc.createTransaction tx).pendingTransactions, P t) ↔
      (∀ t ∈ bc.pendingTransactions, P t) ∧ P tx := by
  simp only [createTransaction, List.forall_mem_append, List.forall_mem_singleton]

/-- Put a transaction in the pending list if it is valid. -/
def addTransaction (bc : Blockchain E) (transaction : Val) : Result Unit × Blockchain E :=
  match transaction.get "fromAddress", transaction.get "toAddress" with
  | .error e, _ => (.error e, bc)
  | _, .error e => (.error e, bc)
  | .ok fromAddress, .ok toAddress =>
    if !fromAddress.truthy || !toAddress.truthy then
      (.error (.error "Transaction must include from, and to addresses"), bc)
    else
      -- a plain object has no method `isValid`: the call throws
      match callIsValid E transaction with
      | .error e  => (.error e, bc)
      | .ok false => (.error (.error "Cannot add invalid transaction to chain"), bc)
      | .ok true  => (.ok (), bc.createTransaction transaction)

/-! ### Blocks -/

/-- Link a block to the end of the chain, mine it and append it. -/
def addBlock (bc : Blockchain E) (newBlock : Block) (fuel : Nat) :
    Option (Result Block × Blockchain E) :=
  match latestBlock bc.chain, getDifficulty bc.chain with
  | .error e, _ => some (.error e, bc)
  | _, .error e => some (.error e, bc)
  | .ok latest, .ok difficulty =>
    if !newBlock.isBlock then some (.error .typeError, bc) else
    -- the index is read twice, as condition and as value
    let linked : Block := { newBlock with
      index        := (if latest.index ≠ 0 then latest.index else 0) + 1
      previousHash := latest.hash }
    match linked.mineBlock E difficulty fuel with
    | none            => none
    | some (.error e) => some (.error e, bc)
    | some (.ok b)    => some (.ok b, { bc with chain := bc.chain ++ [b] })

/-- The coinbase transaction of the next block, signed with the node's key. -/
def coinBaseTransaction (bc : Blockchain E) (miningRewardAddress : Val) :
    Result Transaction := do
  let coinBase := Transaction.new .null miningRewardAddress (.num bc.miningReward) .null
    (.arr []) (.arr [newTxOut miningRewardAddress (.num bc.miningReward)])
  -- the id is only logged; computing it may throw
  let _ ← coinBase.getTransactionId E true ""
  let msgHash ← coinBase.calculateHashV2 E
  match bc.keyPair with
  -- `undefined.sign`
  | none => .error .typeError
  | some keyPair =>
    let signature ← signHash E keyPair msgHash
    return { coinBase with signature := .str signature }

/-- The block of the pending transactions, mined a first time before
    `addBlock` links it. -/
def minePendingBlock (bc : Blockchain E) (date : Int) (fuel : Nat) :
    Option (Result Block) :=
  match latestBlock bc.chain, getDifficulty bc.chain with
  | .error e, _ => some (.error e)
  | _, .error e => some (.error e)
  | .ok latest, .ok difficulty =>
    (Block.new (.num date) (.arr bc.pendingTransactions) latest.hash).mineBlock E
      difficulty fuel

/-- Mine the pending transactions into a new block.  `date` is the value of
    `Date.now()`. -/
def minePendingTransactions (bc : Blockchain E) (miningRewardAddress : Val) (date : Int)
    (fuel : Nat) : Option (Result Block × Blockchain E) :=
  match bc.coinBaseTransaction miningRewardAddress with
  | .error e => some (.error e, bc)
  | .ok coinBase =>
    let bc₁ := bc.createTransaction coinBase.toValue
    match bc₁.minePendingBlock date fuel with
    | none            => none
    -- the coinbase stays in the pending list
    | some (.error e) => some (.error e, bc₁)
    | some (.ok block) =>
      match bc₁.addBlock block fuel with
      | none => none
      | some (.error e, bc₂) => some (.error e, bc₂)
      -- the pending transactions are now in the block
      | some (.ok b, bc₂) => some (.ok b, { bc₂ with pendingTransactions := [] })

/-! ### Balances -/

/-- What one transaction does to the balance of an address. -/
def balanceAfter (ρ : Number.Rounding) (address balance transaction : Val) : Result Val := do
  let fromAddress ← transaction.get "fromAddress"
  let toAddress ← transaction.get "toAddress"
  let amount ← transaction.get "amount"
  let balance ← if fromAddress.strictEquals address then balance.subWith ρ amount
    else .ok balance
  -- a sender may be its own receiver
  if toAddress.strictEquals address then balance.addWith ρ amount else .ok balance

/-- The inner loop of `getBalanceOfAddress`. -/
def balanceOverTransactions (ρ : Number.Rounding) (address balance : Val)
    (transactions : List Val) : Result Val :=
  transactions.foldlM (balanceAfter ρ address) balance

/-- The outer loop of `getBalanceOfAddress`. -/
def balanceOverBlocks (ρ : Number.Rounding) (address balance : Val) (chain : List Block) :
    Result Val :=
  chain.foldlM (fun balance block => do
    balanceOverTransactions ρ address balance (← block.transactions.iterate)) balance

/-- What an address has received, less what it has spent.  The code adds and
    subtracts numbers of the format `binary64`; with `exact` for `ρ` no sum is
    rounded. -/
def getBalanceOfAddress (ρ : Number.Rounding) (chain : List Block) (address : Val) :
    Result Val :=
  balanceOverBlocks ρ address (.num 0) chain

/-! ### Validation -/

/-- The loop of `isChainValid` from the block after `previousBlock` on. -/
def validFrom (E : Env) (previousBlock : Block) : List Block → Result Bool
  | [] => .ok true
  | currentBlock :: rest => do
    -- an object that is no instance of `Block` has no methods to call
    if !currentBlock.isBlock then .error .typeError
    else if !(← currentBlock.hasValidTransactions E) then return false
    else
      let hash ← currentBlock.ownHash E
      if currentBlock.hash ≠ hash ∨ currentBlock.previousHash ≠ previousBlock.hash then
        return false
      else validFrom E currentBlock rest

/-- Check the transactions, the hash and the link of every block. -/
def isChainValid (E : Env) : List Block → Result Bool
  | []              => .ok true
  | genesis :: rest => validFrom E genesis rest

end Blockchain

end XCoin
