import XCoin.Js.Number
import XCoin.Model.Transaction

/-! # Blocks

    `Block.js`.  A block that was built by the constructor has the methods of
    its class; one that arrived as JSON has the same fields and no methods,
    which `isBlock` records.

    The search loop of `mineBlock` runs until a nonce is found, so it takes
    the number of nonces to try as `fuel`: `none` means that the search has
    not ended yet.
-/

namespace XCoin

open Js

/-! ### Fields -/

/-- Timestamps: `Date.now()`, or the text the genesis block is made with. -/
inductive Timestamp where
  | num (n : Int)
  | str (s : String)
deriving DecidableEq, Repr

namespace Timestamp

/-- The timestamp as an operand of string concatenation. -/
def text : Timestamp → String
  | .num n => toString n
  | .str s => s

/-- The timestamp as an operand of `-`. -/
def toNumber : Timestamp → Number
  | .num n => .fin n
  | .str s => .stringToNumber .binary64 s

end Timestamp

/-- The property `difficulty`: absent until a block is mined, a number
    afterwards.  `NaN` travels as `null` in JSON. -/
inductive Difficulty where
  | undefined
  | null
  | nan
  | int (d : Int)
deriving DecidableEq, Repr

namespace Difficulty

/-- The condition of `if (difficulty)`. -/
def truthy : Difficulty → Bool
  | .int d => decide (d ≠ 0)
  | _      => false

/-- `difficulty + k`. -/
def plus (k : Int) : Difficulty → Difficulty
  | .int d => .int (d + k)
  | .null  => .int k
  | _      => .nan

/-- The count `'0'.repeat(difficulty)` uses; a negative one throws. -/
def repeatCount : Difficulty → Result Nat
  | .int d => if d < 0 then .error .rangeError else .ok d.toNat
  -- `undefined`, `null` and `NaN` are converted to the count `0`
  | _      => .ok 0

end Difficulty

/-- A block of the chain. -/
structure Block where
  index        : Nat
  hash         : String
  previousHash : String
  timestamp    : Timestamp
  transactions : Val
  nonce        : Nat
  difficulty   : Difficulty
  /-- Is this an instance of the class `Block`, with its methods? -/
  isBlock      : Bool

namespace Block

/-- The constructor. -/
def new (timestamp : Timestamp) (transactions : Val) (previousHash : String) : Block where
  index        := 0
  hash         := ""
  previousHash := previousHash
  timestamp    := timestamp
  transactions := transactions
  nonce        := 0
  difficulty   := .undefined
  isBlock      := true

/-! ### Hashing -/

/-- `index + previousHash + timestamp + JSON.stringify(transactions) + nonce`. -/
def hashText (index : Nat) (previousHash : String) (timestamp : Timestamp)
    (transactions : Val) (nonce : Nat) : Result String := do
  let json ← Json.stringify transactions
  return toString index ++ previousHash ++ timestamp.text ++ json.getD "undefined" ++
    toString nonce

/-- Hash of index, previousHash, timestamp, transactions, nonce. -/
def calculateHash (E : Env) (index : Nat) (previousHash : String) (timestamp : Timestamp)
    (transactions : Val) (nonce : Nat) : Result String := do
  let text ← hashText index previousHash timestamp transactions nonce
  return E.SHA256 (.str text)

/-- `calculateHash` of the block's own fields. -/
def ownHash (E : Env) (b : Block) : Result String :=
  calculateHash E b.index b.previousHash b.timestamp b.transactions b.nonce

/-- `hash.startsWith(prefix)`. -/
def startsWith (hash requiredPrefix : String) : Bool :=
  requiredPrefix.toList.isPrefixOf hash.toList

/-- Does the hash start with `difficulty` zeros? -/
def hashMatchesDifficulty (hash : String) (difficulty : Difficulty) : Result Bool := do
  let count ← difficulty.repeatCount
  return startsWith hash (String.ofList (List.replicate count '0'))

/-! ### Mining -/

/-- The loop of `mineBlock` from `nonce` on. -/
def mineLoop (E : Env) (b : Block) (difficulty : Difficulty) :
    (fuel nonce : Nat) → Option (Result Block)
  | 0, _ => none
  | fuel + 1, nonce =>
    match calculateHash E b.index b.previousHash b.timestamp b.transactions nonce with
    | .error e => some (.error e)
    | .ok hash =>
      match hashMatchesDifficulty hash difficulty with
      | .error e  => some (.error e)
      -- the block is written only when the search ends
      | .ok true  => some (.ok { b with difficulty, nonce, hash })
      | .ok false => mineLoop E b difficulty fuel (nonce + 1)

/-- Search for a nonce, starting at zero. -/
def mineBlock (E : Env) (b : Block) (difficulty : Difficulty) (fuel : Nat) :
    Option (Result Block) :=
  mineLoop E b difficulty fuel 0

/-! ### Validation -/

/-- The loop of `hasValidTransactions`. -/
def allValid (E : Env) : List Val → Result Bool
  | []        => .ok true
  | tx :: txs => do
      if !(← callIsValid E tx) then return false
      else allValid E txs

/-- Are all transactions of the block valid?  Arrays and strings can be
    iterated over, and a character has no method `isValid`. -/
def hasValidTransactions (E : Env) (b : Block) : Result Bool :=
  match b.transactions with
  | .arr txs => allValid E txs
  | .str s   => if s = "" then .ok true else .error .typeError
  | _        => .error .typeError

/-- The call `text(…)`: a string is no function. -/
def callText (_text : String) : Result String := .error .typeError

/-- `self.isValidNewBlock(newBlock, previousBlock)`.  The third test calls
    `this.hash`, the text that is stored in the block. -/
def isValidNewBlock (self newBlock previousBlock : Block) : Result Bool := do
  if previousBlock.index + 1 ≠ newBlock.index then return false
  else if previousBlock.hash ≠ newBlock.previousHash then return false
  else if (← callText self.hash) ≠ newBlock.hash then return false
  -- the last branch returns `false` like the others
  else return false

end Block

end XCoin
