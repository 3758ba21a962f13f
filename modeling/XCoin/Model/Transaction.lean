import XCoin.Js.Json

/-! # Transactions

    `Transaction.js`, `TxOut.js` and `SignatureUtils.js`.  The fields of a
    transaction hold arbitrary values: the constructor stores what it is
    given, and the HTTP handlers pass on what they receive.

    The packages behind the code, SHA-256 and secp256k1, are the parameters
    collected in `Env`.
-/

namespace XCoin

open Js

/-- The classes whose instances occur inside transaction lists. -/
inductive Class where
  | transaction
  | txOut
deriving DecidableEq, Repr

/-- The values the program handles. -/
abbrev Val : Type := Value Class

/-- What the program takes from `crypto-js` and `elliptic`. -/
structure Env where
  /-- Key pairs of the curve. -/
  KeyPair : Type
  /-- Signature objects, as `key.sign` returns them. -/
  Signature : Type
  /-- `SHA256(message).toString()`; the program hashes strings and, when
      no operand of a `+` is a string, numbers.  It throws on strings with
      unpaired surrogates, which are no strings here. -/
  SHA256 : Val → String
  /-- `key.getPublic('hex')`. -/
  getPublic : KeyPair → String
  /-- `key.sign(hash)`. -/
  sign : KeyPair → String → Result Signature
  /-- `signature.toDER('hex')`. -/
  toDER : Signature → String
  /-- `ec.keyFromPublic(publicKey, 'hex').verify(hash, signature)`. -/
  verify : Val → String → Val → Result Bool

/-! ### SignatureUtils.js -/

/-- `keyPair.sign(messageHash).toString().toLowerCase()`.  Signature objects
    inherit `Object.prototype.toString`. -/
def signHash (E : Env) (keyPair : E.KeyPair) (messageHash : String) : Result String := do
  let _ ← E.sign keyPair messageHash
  return "[object Object]".toLower

/-- `ec.keyFromPublic(publicKey, 'hex').verify(messageHash, signature)`. -/
def verifySignature (E : Env) (publicKey signature messageHash : String) : Result Bool :=
  E.verify (.str publicKey) messageHash (.str signature)

/-! ### TxOut.js -/

/-- `new TxOut(address, amount)`. -/
def newTxOut (address amount : Val) : Val :=
  .obj (some .txOut) [("address", address), ("amount", amount)]

/-! ### Transaction.js -/

/-- An instance of the class `Transaction`. -/
structure Transaction where
  id          : Val
  txIns       : Val
  txOuts      : Val
  fromAddress : Val
  toAddress   : Val
  amount      : Val
  signature   : Val

namespace Transaction

/-- The constructor; the transaction is signed later. -/
def new (fromAddress toAddress amount id txIns txOuts : Val) : Transaction where
  id          := id
  txIns       := txIns
  txOuts      := txOuts
  fromAddress := fromAddress
  toAddress   := toAddress
  amount      := amount
  signature   := .null

/-- The object itself, its properties in the order the constructor sets them. -/
def toValue (t : Transaction) : Val :=
  .obj (some .transaction)
    [("id", t.id), ("txIns", t.txIns), ("txOuts", t.txOuts),
     ("fromAddress", t.fromAddress), ("toAddress", t.toAddress),
     ("amount", t.amount), ("signature", t.signature)]

/-- The instance behind a value, if it is one of the class `Transaction`. -/
def ofValue? : Val → Option Transaction
  | .obj (some .transaction) fs => some
      { id          := Value.field fs "id"
        txIns       := Value.field fs "txIns"
        txOuts      := Value.field fs "txOuts"
        fromAddress := Value.field fs "fromAddress"
        toAddress   := Value.field fs "toAddress"
        amount      := Value.field fs "amount"
        signature   := Value.field fs "signature" }
  | _ => none

@[simp] theorem ofValue?_toValue (t : Transaction) : ofValue? t.toValue = some t := rfl

/-- `xs.map(x => x[k₁] + x[k₂])`. -/
def mapSum (k₁ k₂ : String) : List Val → Result (List Val)
  | []      => .ok []
  | x :: xs => do
      let a ← x.get k₁
      let b ← x.get k₂
      let s ← Value.add a b
      return s :: (← mapSum k₁ k₂ xs)

/-- `xs.reduce((a, b) => a + b, acc)`. -/
def reduceSum (acc : Val) : List Val → Result Val
  | []      => .ok acc
  | x :: xs => do reduceSum (← Value.add acc x) xs

/-- `v.map(x => x[k₁] + x[k₂]).reduce((a, b) => a + b, '')`; only arrays have
    the method `map`. -/
def content (k₁ k₂ : String) : Val → Result Val
  | .arr xs => do reduceSum (.str "") (← mapSum k₁ k₂ xs)
  | _       => .error .typeError

/-- Hash of the contents of the transaction, signatures left out. -/
def getTransactionId (E : Env) (t : Transaction) (isCoinbaseTransaction : Bool)
    (blockHeight : String) : Result String := do
  let txInContent ← content "txOutId" "txOutIndex" t.txIns
  let txOutContent ← content "address" "amount" t.txOuts
  let ins ← Value.add txInContent txOutContent
  let hashContent ← Value.add ins (.str (if isCoinbaseTransaction then blockHeight else ""))
  return E.SHA256 hashContent

/-- Hash of `fromAddress + toAddress + amount`. -/
def calculateHash (E : Env) (t : Transaction) : Result String := do
  let addresses ← Value.add t.fromAddress t.toAddress
  let text ← Value.add addresses t.amount
  return E.SHA256 text

/-- Hash of the JSON text of the transaction. -/
def calculateHashV2 (E : Env) (t : Transaction) : Result String := do
  match ← Json.stringify t.toValue with
  | some text => return E.SHA256 (.str text)
  | none      => return E.SHA256 .undefined

/-- `v === 'text'`. -/
def isText (v : Val) (text : String) : Bool :=
  match v with
  | .str s => decide (s = text)
  | _      => false

/-- Sign with the key of the sender. -/
def signTransaction (E : Env) (t : Transaction) (signingKey : E.KeyPair) :
    Result Transaction :=
  if !isText t.fromAddress (E.getPublic signingKey) then
    .error (.error "You cannot sign transactions for other wallets!")
  else do
    let hashTx ← t.calculateHash E
    let sig ← E.sign signingKey hashTx
    return { t with signature := .str (E.toDER sig) }

/-- `v === null`. -/
def isNull : Val → Bool
  | .null => true
  | _     => false

/-- `!v || v.length === 0`. -/
def isMissing (v : Val) : Bool :=
  !v.truthy || match v.get "length" with
    | .ok (.num n) => decide (n = 0)
    | _            => false

/-- A transaction without sender is valid; any other needs a signature that
    verifies.  The hash is computed first, for the log line. -/
def isValid (E : Env) (t : Transaction) : Result Bool := do
  let hash ← t.calculateHash E
  -- coinbases, and anything else without a sender
  if isNull t.fromAddress then return true
  else if isMissing t.signature then .error (.error "No signature in this transaction")
  else E.verify t.fromAddress hash t.signature

end Transaction

/-- The call `tx.isValid()`: a value of another class has no such method. -/
def callIsValid (E : Env) (tx : Val) : Result Bool :=
  match Transaction.ofValue? tx with
  | some t => t.isValid E
  | none   => .error .typeError

@[simp] theorem callIsValid_toValue (E : Env) (t : Transaction) :
    callIsValid E t.toValue = t.isValid E := rfl

/-- A transaction without sender is valid as soon as its hash is computed. -/
theorem Transaction.isValid_of_null {E : Env} {t : Transaction} {h : String}
    (hnull : t.fromAddress = .null) (hhash : t.calculateHash E = .ok h) :
    t.isValid E = .ok true := by
  unfold Transaction.isValid
  rw [hhash, hnull]
  rfl

end XCoin
