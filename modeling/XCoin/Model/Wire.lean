import XCoin.Model.Blockchain

/-! # Blocks and transactions on the wire

    Nodes exchange chains and transactions as JSON.  What arrives has the
    fields of what was sent, but it is a plain object: a block has none of
    the methods of `Block`, a transaction none of those of `Transaction`.

    `Block.transport` says this field by field, and `transport_toValue` that
    it is what `JSON.parse ∘ JSON.stringify` does to the block.
-/

namespace XCoin

open Js Throwing

/-! ### Blocks as values -/

/-- The timestamp as a value. -/
def Timestamp.toValue : Timestamp → Val
  | .num n => .num n
  | .str s => .str s

/-- The property `difficulty`, which a block has only after it was mined. -/
def Difficulty.fields : Difficulty → List (String × Val)
  | .undefined => []
  | .null      => [("difficulty", .null)]
  | .nan       => [("difficulty", .nan)]
  | .int d     => [("difficulty", .num d)]

/-- The own properties of a block, in the order they are set. -/
def Block.fields (b : Block) : List (String × Val) :=
  [("index", .num b.index), ("hash", .str b.hash), ("previousHash", .str b.previousHash),
   ("timestamp", b.timestamp.toValue), ("transactions", b.transactions),
   ("nonce", .num b.nonce)] ++ b.difficulty.fields

/-- The block as a value; neither JSON nor the conversion to a string looks
    at its class. -/
def Block.toValue (b : Block) : Val := .obj none b.fields

/-- No property of a block hides `toString`. -/
theorem Block.lookup_toString (b : Block) : b.fields.lookup "toString" = none := by
  unfold Block.fields
  cases b.difficulty <;> rfl

/-! ### Transport -/

/-- JSON has no `NaN`. -/
def Difficulty.transport : Difficulty → Difficulty
  | .nan => .null
  | d    => d

/-- The block that arrives when a block is sent. -/
def Block.transport (b : Block) : Result Block := do
  let transactions ← Json.transport b.transactions
  return { b with
    transactions := transactions.getD .undefined
    difficulty   := b.difficulty.transport
    isBlock      := false }

/-- The chain that arrives when a chain is sent. -/
def transportChain : List Block → Result (List Block)
  | []      => .ok []
  | b :: bs => do
      let b' ← b.transport
      return b' :: (← transportChain bs)

/-- **Transport is JSON**: the value of the block that arrives is the value
    JSON makes of the block that was sent. -/
theorem Block.transport_toValue {b : Block} {txs : List Val} (htxs : b.transactions = .arr txs) :
    Json.transport b.toValue = b.transport.map fun b' => some b'.toValue := by
  have htime : Json.transport b.timestamp.toValue = .ok (some b.timestamp.toValue) := by
    cases b.timestamp <;> rfl
  have hdiff : Json.transportFields b.difficulty.fields = .ok b.difficulty.transport.fields := by
    cases b.difficulty <;> rfl
  unfold Block.transport Block.toValue Block.fields
  rw [htxs]
  cases helems : Json.transportElems txs with
  | error e => simp [Json.transport, Json.transportFields, htime, helems, Except.map]
  | ok ws =>
    simp [Json.transport, Json.transportFields, htime, helems, hdiff, Except.map]

theorem Block.transport_isBlock {b b' : Block} (h : b.transport = .ok b') :
    b'.isBlock = false := by
  obtain ⟨_, _, h⟩ := bind_eq_ok.mp h
  cases h
  rfl

/-- A chain that arrives has the length of the chain that was sent, and its
    blocks are plain objects. -/
theorem transportChain_ok {c c' : List Block} (h : transportChain c = .ok c') :
    c'.length = c.length ∧ ∀ b ∈ c', b.isBlock = false := by
  induction c generalizing c' with
  | nil =>
    cases h
    exact ⟨rfl, by simp⟩
  | cons b c ih =>
    obtain ⟨b', hb', h⟩ := bind_eq_ok.mp h
    obtain ⟨bs, hbs, h⟩ := bind_eq_ok.mp h
    cases h
    obtain ⟨hlen, hplain⟩ := ih hbs
    refine ⟨by simp [hlen], ?_⟩
    intro x hx
    rcases List.mem_cons.mp hx with rfl | hx
    · exact Block.transport_isBlock hb'
    · exact hplain x hx

/-- What arrives is never an instance of `Transaction`. -/
theorem ofValue?_of_transport {v w : Val} (h : Json.transport v = .ok (some w)) :
    Transaction.ofValue? w = none := by
  cases v with
  | undefined => cases h
  | bigint n => cases h
  | arr xs =>
    obtain ⟨ws, _, h⟩ := bind_eq_ok.mp (by rwa [Json.transport] at h)
    cases h
    rfl
  | obj cls fs =>
    obtain ⟨ws, _, h⟩ := bind_eq_ok.mp (by rwa [Json.transport] at h)
    cases h
    rfl
  | _ =>
    cases h
    rfl

end XCoin
