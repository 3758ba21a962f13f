import XCoin.Framework.AppendLog
import XCoin.Model.Run

/-! # What mining does

    One inversion lemma per method: everything a call of `mineBlock`,
    `addBlock` or `minePendingTransactions` can have done when it ends.  The
    later modules never unfold these methods again.

    A call that appends a block appends one that is `MinedOn` the chain; so
    every chain a run reaches has grown from the genesis block by appending
    such blocks.
-/

namespace XCoin

open Js LTS AppendLog Throwing

variable {E : Env}

/-! ### The search loop -/

/-- The block with the outcome of a search written into it. -/
def Block.found (b : Block) (difficulty : Difficulty) (nonce : Nat) (hash : String) : Block :=
  { b with difficulty, nonce, hash }

/-- The test `mineBlock` makes for one nonce. -/
def Block.nonceMatches (E : Env) (b : Block) (difficulty : Difficulty) (nonce : Nat)
    (hash : String) (answer : Bool) : Prop :=
  Block.calculateHash E b.index b.previousHash b.timestamp b.transactions nonce = .ok hash ∧
    Block.hashMatchesDifficulty hash difficulty = .ok answer

/-- If the search returns, it stopped at the first nonce that matches: all
    nonces from its start up to there were tried and failed. -/
theorem Block.mineLoop_ok {b b' : Block} {difficulty : Difficulty} {fuel start : Nat}
    (h : b.mineLoop E difficulty fuel start = some (.ok b')) :
    ∃ nonce hash, start ≤ nonce ∧ b.nonceMatches E difficulty nonce hash true ∧
      b' = b.found difficulty nonce hash ∧
      ∀ m, start ≤ m → m < nonce → ∃ g, b.nonceMatches E difficulty m g false := by
  induction fuel generalizing start with
  | zero => cases h
  | succ fuel ih =>
    unfold Block.mineLoop at h
    cases hhash : Block.calculateHash E b.index b.previousHash b.timestamp
        b.transactions start with
    | error e => simp [hhash] at h
    | ok hash =>
      cases hmatch : Block.hashMatchesDifficulty hash difficulty with
      | error e => simp [hhash, hmatch] at h
      | ok answer =>
        cases answer with
        | true =>
          simp only [hhash, hmatch, Option.some.injEq, Except.ok.injEq] at h
          refine ⟨start, hash, Nat.le_refl _, ⟨hhash, hmatch⟩, h.symm, ?_⟩
          intro m hle hlt
          omega
        | false =>
          simp only [hhash, hmatch] at h
          obtain ⟨nonce, hash', hle, hfound, hb', hleast⟩ := ih h
          refine ⟨nonce, hash', by omega, hfound, hb', ?_⟩
          intro m hstart hlt
          rcases Nat.eq_or_lt_of_le hstart with rfl | hgt
          · exact ⟨hash, hhash, hmatch⟩
          · exact hleast m hgt hlt

/-- The search returns if the nonces below the first match fail without
    throwing and it may try that many. -/
theorem Block.mineLoop_complete {b : Block} {difficulty : Difficulty} {fuel start nonce : Nat}
    {hash : String} (hle : start ≤ nonce) (hfound : b.nonceMatches E difficulty nonce hash true)
    (hbelow : ∀ m, start ≤ m → m < nonce → ∃ g, b.nonceMatches E difficulty m g false)
    (hfuel : nonce < start + fuel) :
    b.mineLoop E difficulty fuel start = some (.ok (b.found difficulty nonce hash)) := by
  induction fuel generalizing start with
  | zero => omega
  | succ fuel ih =>
    unfold Block.mineLoop
    rcases Nat.eq_or_lt_of_le hle with rfl | hlt
    · -- the search starts at the nonce that matches
      simp only [hfound.1, hfound.2]
      rfl
    · obtain ⟨g, hhash, hmatch⟩ := hbelow start (Nat.le_refl _) hlt
      simp only [hhash, hmatch]
      apply ih hlt
      · intro m hm
        exact hbelow m (by omega)
      · omega

/-- The search throws only if the transactions have no JSON text or the
    difficulty is no count for `'0'.repeat`. -/
theorem Block.mineLoop_ne_error {b : Block} {difficulty : Difficulty} {count fuel start : Nat}
    (hjson : ∃ json, Json.stringify b.transactions = .ok json)
    (hcount : difficulty.repeatCount = .ok count) (e : JsError) :
    b.mineLoop E difficulty fuel start ≠ some (.error e) := by
  obtain ⟨json, hjson⟩ := hjson
  induction fuel generalizing start with
  | zero => simp [Block.mineLoop]
  | succ fuel ih =>
    unfold Block.mineLoop Block.calculateHash Block.hashText Block.hashMatchesDifficulty
    rw [hjson, hcount]
    simp only [ok_bind, pure_eq_ok]
    split
    · next h => cases h
    · simp
    · exact ih

/-- If every digest meets the difficulty, a block whose transactions have a
    JSON text is mined with the nonce `0`. -/
theorem Block.mineBlock_first {b : Block} {difficulty : Difficulty} {json : Option String}
    (hjson : Json.stringify b.transactions = .ok json)
    (hall : ∀ t, Block.hashMatchesDifficulty (E.SHA256 (.str t)) difficulty = .ok true)
    (fuel : Nat) :
    ∃ hash, b.mineBlock E difficulty (fuel + 1) = some (.ok (b.found difficulty 0 hash)) := by
  have hhash : ∃ t, Block.calculateHash E b.index b.previousHash b.timestamp b.transactions 0 =
      .ok (E.SHA256 (.str t)) := by
    unfold Block.calculateHash Block.hashText
    rw [hjson]
    exact ⟨_, rfl⟩
  obtain ⟨t, ht⟩ := hhash
  refine ⟨_, Block.mineLoop_complete (Nat.le_refl 0) ⟨ht, hall t⟩ ?_ (by omega)⟩
  intro m _ hm
  omega

/-! ### Blocks mined on a chain -/

/-- `b` is a block that `addBlock` can append to the chain `c`. -/
structure MinedOn (E : Env) (c : List Block) (b : Block) : Prop where
  /-- It was built by the constructor. -/
  isBlock : b.isBlock = true
  /-- It continues the index and the hash of the latest block. -/
  linked : ∃ latest, c.getLast? = some latest ∧ b.index = latest.index + 1 ∧
    b.previousHash = latest.hash
  /-- It was mined at the difficulty the chain demands. -/
  difficulty : getDifficulty c = .ok b.difficulty
  /-- Its hash is the hash of its own fields. -/
  hash : b.ownHash E = .ok b.hash
  /-- Its hash has the zeros its difficulty demands. -/
  work : Block.hashMatchesDifficulty b.hash b.difficulty = .ok true

/-- Nothing that mining `transactions` on the chain `c` calls throws: there is
    a difficulty, `'0'.repeat` accepts it, and the transactions have a JSON
    text. -/
def MiningReady (c : List Block) (transactions : Val) : Prop :=
  ∃ difficulty count json, getDifficulty c = .ok difficulty ∧
    difficulty.repeatCount = .ok count ∧ Json.stringify transactions = .ok json

/-- `minePendingTransactions` can be carried out: the coinbase can be signed,
    and mining it with the pending transactions does not throw. -/
def Blockchain.CanMine (bc : Blockchain E) (address : Val) : Prop :=
  ∃ coinBase, bc.coinBaseTransaction address = .ok coinBase ∧
    MiningReady bc.chain (.arr (bc.pendingTransactions ++ [coinBase.toValue]))

/-- What was mined could be mined. -/
theorem MinedOn.miningReady {c : List Block} {b : Block} (h : MinedOn E c b) :
    MiningReady c b.transactions := by
  obtain ⟨count, hcount, _⟩ := bind_eq_ok.mp h.work
  obtain ⟨text, htext, _⟩ := bind_eq_ok.mp h.hash
  obtain ⟨json, hjson, _⟩ := bind_eq_ok.mp htext
  exact ⟨b.difficulty, count, json, h.difficulty, hcount, hjson⟩

theorem latestBlock_eq_ok {c : List Block} {b : Block} :
    latestBlock c = .ok b ↔ c.getLast? = some b := by
  unfold latestBlock
  cases c.getLast? <;> simp

/-! ### The methods -/

/-- `addBlock` throws and changes nothing, or appends a mined block that
    keeps the timestamp and the transactions it was given. -/
theorem Blockchain.addBlock_cases {bc bc' : Blockchain E} {newBlock : Block} {fuel : Nat}
    {r : Result Block} (h : bc.addBlock newBlock fuel = some (r, bc')) :
    (∃ e, r = .error e ∧ bc' = bc) ∨
    ∃ b, r = .ok b ∧ bc' = { bc with chain := bc.chain ++ [b] } ∧ MinedOn E bc.chain b ∧
      b.timestamp = newBlock.timestamp ∧ b.transactions = newBlock.transactions := by
  unfold Blockchain.addBlock at h
  cases hlatest : latestBlock bc.chain with
  | error e =>
    simp only [hlatest, Option.some.injEq, Prod.mk.injEq] at h
    exact .inl ⟨e, h.1.symm, h.2.symm⟩
  | ok latest =>
    cases hdiff : getDifficulty bc.chain with
    | error e =>
      simp only [hlatest, hdiff, Option.some.injEq, Prod.mk.injEq] at h
      exact .inl ⟨e, h.1.symm, h.2.symm⟩
    | ok difficulty =>
      cases hblock : newBlock.isBlock with
      | false =>
        simp only [hlatest, hdiff, hblock, Bool.not_false, if_true, Option.some.injEq,
          Prod.mk.injEq] at h
        exact .inl ⟨_, h.1.symm, h.2.symm⟩
      | true =>
        simp only [hlatest, hdiff, hblock, Bool.not_true, Bool.false_eq_true, if_false] at h
        split at h
        · cases h
        · next e _ =>
          cases h
          exact .inl ⟨e, rfl, rfl⟩
        · next b hmine =>
          cases h
          obtain ⟨nonce, hash, _, hfound, rfl, _⟩ := Block.mineLoop_ok hmine
          refine .inr ⟨_, rfl, rfl, ?_, rfl, rfl⟩
          refine ⟨rfl, ⟨latest, latestBlock_eq_ok.mp hlatest, ?_, rfl⟩, hdiff,
            hfound.1, hfound.2⟩
          show (if latest.index ≠ 0 then latest.index else 0) + 1 = latest.index + 1
          split <;> omega

/-- `minePendingTransactions` fails before it touches the object, fails with
    the coinbase left in the pending list, or moves the pending list and the
    coinbase into a block mined on the chain. -/
theorem Blockchain.minePendingTransactions_cases {bc bc' : Blockchain E} {address : Val}
    {date : Int} {fuel : Nat} {r : Result Block}
    (h : bc.minePendingTransactions address date fuel = some (r, bc')) :
    (∃ e, bc.coinBaseTransaction address = .error e ∧ r = .error e ∧ bc' = bc) ∨
    ∃ coinBase, bc.coinBaseTransaction address = .ok coinBase ∧
      ((∃ e, r = .error e ∧ bc' = bc.createTransaction coinBase.toValue) ∨
       ∃ b, r = .ok b ∧ MinedOn E bc.chain b ∧ b.timestamp = .num date ∧
        b.transactions = .arr (bc.pendingTransactions ++ [coinBase.toValue]) ∧
        bc' = { bc with chain := bc.chain ++ [b], pendingTransactions := [] }) := by
  unfold Blockchain.minePendingTransactions at h
  cases hcoin : bc.coinBaseTransaction address with
  | error e =>
    simp only [hcoin, Option.some.injEq, Prod.mk.injEq] at h
    exact .inl ⟨e, rfl, h.1.symm, h.2.symm⟩
  | ok coinBase =>
    refine .inr ⟨coinBase, rfl, ?_⟩
    simp only [hcoin] at h
    split at h
    · cases h
    · next e _ =>
      cases h
      exact .inl ⟨e, rfl, rfl⟩
    · next block hfirst =>
      -- the first mining keeps timestamp and transactions
      have hfields : block.timestamp = .num date ∧
          block.transactions = .arr (bc.pendingTransactions ++ [coinBase.toValue]) := by
        unfold Blockchain.minePendingBlock at hfirst
        split at hfirst
        · cases hfirst
        · cases hfirst
        · obtain ⟨nonce, hash, _, _, rfl, _⟩ := Block.mineLoop_ok hfirst
          exact ⟨rfl, rfl⟩
      split at h
      · cases h
      · next e bc₂ hadd =>
        cases h
        rcases Blockchain.addBlock_cases hadd with ⟨e', hr, rfl⟩ | ⟨b, hr, _⟩
        · exact .inl ⟨e, rfl, rfl⟩
        · cases hr
      · next b bc₂ hadd =>
        cases h
        rcases Blockchain.addBlock_cases hadd with ⟨e, hr, _⟩ | ⟨b', hr, hbc₂, hmined, hts, htx⟩
        · cases hr
        · cases hr
          subst hbc₂
          exact .inr ⟨b, rfl, hmined, hts.trans hfields.1, htx.trans hfields.2, rfl⟩

/-- The coinbase is what the constructor makes of the reward and the address,
    with a signature. -/
theorem coinBase_eq {bc : Blockchain E} {address : Val} {coinBase : Transaction}
    (h : bc.coinBaseTransaction address = .ok coinBase) :
    ∃ signature, coinBase = { Transaction.new .null address (.num bc.miningReward) .null (.arr [])
      (.arr [newTxOut address (.num bc.miningReward)]) with signature := .str signature } := by
  unfold Blockchain.coinBaseTransaction at h
  obtain ⟨_, _, h⟩ := bind_eq_ok.mp h
  obtain ⟨_, _, h⟩ := bind_eq_ok.mp h
  split at h
  · cases h
  · obtain ⟨signature, _, h⟩ := bind_eq_ok.mp h
    simp only [pure_eq_ok, Except.ok.injEq] at h
    exact ⟨signature, h.symm⟩

/-- A coinbase has no sender and pays the reward to the given address. -/
theorem coinBase_fields {bc : Blockchain E} {address : Val} {coinBase : Transaction}
    (h : bc.coinBaseTransaction address = .ok coinBase) :
    coinBase.fromAddress = .null ∧ coinBase.toAddress = address ∧
      coinBase.amount = .num bc.miningReward := by
  obtain ⟨signature, rfl⟩ := coinBase_eq h
  exact ⟨rfl, rfl, rfl⟩

/-- The chain has a latest block if it has a difficulty. -/
theorem latestBlock_of_getDifficulty {c : List Block} {difficulty : Difficulty}
    (h : getDifficulty c = .ok difficulty) : ∃ latest, latestBlock c = .ok latest := by
  obtain ⟨latest, hlatest, _⟩ := bind_eq_ok.mp h
  exact ⟨latest, hlatest⟩

/-- `addBlock` does not throw if mining the block does not. -/
theorem Blockchain.addBlock_ne_error {bc bc' : Blockchain E} {newBlock : Block} {fuel : Nat}
    (hblock : newBlock.isBlock = true) (hready : MiningReady bc.chain newBlock.transactions)
    (e : JsError) : bc.addBlock newBlock fuel ≠ some (.error e, bc') := by
  obtain ⟨difficulty, count, json, hdiff, hcount, hjson⟩ := hready
  obtain ⟨latest, hlatest⟩ := latestBlock_of_getDifficulty hdiff
  intro h
  unfold Blockchain.addBlock at h
  simp only [hlatest, hdiff, hblock, Bool.not_true, Bool.false_eq_true, if_false] at h
  split at h
  · cases h
  · next e' hmine =>
    refine Block.mineLoop_ne_error ?_ hcount e' hmine
    exact ⟨json, hjson⟩
  · cases h

/-- **Mining throws only if it cannot be carried out.** -/
theorem Blockchain.minePendingTransactions_ne_error {bc bc' : Blockchain E} {address : Val}
    {date : Int} {fuel : Nat} (hcan : bc.CanMine address) (e : JsError) :
    bc.minePendingTransactions address date fuel ≠ some (.error e, bc') := by
  obtain ⟨coinBase, hcoin, hready⟩ := hcan
  obtain ⟨difficulty, count, json, hdiff, hcount, hjson⟩ := hready
  obtain ⟨latest, hlatest⟩ := latestBlock_of_getDifficulty hdiff
  intro h
  -- both minings see the same chain and the same transactions
  unfold Blockchain.minePendingTransactions at h
  simp only [hcoin, Blockchain.minePendingBlock, Blockchain.createTransaction, hlatest, hdiff] at h
  split at h
  · cases h
  · next e' hmine => exact Block.mineLoop_ne_error ⟨json, hjson⟩ hcount e' hmine
  · next block hmine =>
    -- the block mined first holds the same transactions
    obtain ⟨nonce, hash, _, _, rfl, _⟩ := Block.mineLoop_ok hmine
    split at h
    · cases h
    · next e' bc₂ hadd =>
      refine Blockchain.addBlock_ne_error ?_ ?_ e' hadd
      · rfl
      · exact ⟨difficulty, count, json, hdiff, hcount, hjson⟩
    · cases h

/-- If every digest meets the difficulty, `addBlock` succeeds. -/
theorem Blockchain.addBlock_first (bc : Blockchain E) {newBlock latest : Block}
    {difficulty : Difficulty} {json : Option String} (hblock : newBlock.isBlock = true)
    (hlatest : latestBlock bc.chain = .ok latest)
    (hdiff : getDifficulty bc.chain = .ok difficulty)
    (hjson : Json.stringify newBlock.transactions = .ok json)
    (hall : ∀ t, Block.hashMatchesDifficulty (E.SHA256 (.str t)) difficulty = .ok true)
    (fuel : Nat) : ∃ b bc', bc.addBlock newBlock (fuel + 1) = some (.ok b, bc') := by
  unfold Blockchain.addBlock
  simp only [hlatest, hdiff, hblock, Bool.not_true, Bool.false_eq_true, if_false]
  obtain ⟨hash, hmine⟩ := Block.mineBlock_first
    (b := { newBlock with
      index := (if latest.index ≠ 0 then latest.index else 0) + 1, previousHash := latest.hash })
    hjson hall fuel
  rw [hblock] at hmine
  rw [hmine]
  exact ⟨_, _, rfl⟩

/-- If every digest meets the difficulty, mining the pending transactions
    succeeds. -/
theorem Blockchain.minePendingTransactions_first {bc : Blockchain E} {address : Val}
    {coinBase : Transaction} {latest : Block} {difficulty : Difficulty} {json : Option String}
    (hcoin : bc.coinBaseTransaction address = .ok coinBase)
    (hlatest : latestBlock bc.chain = .ok latest)
    (hdiff : getDifficulty bc.chain = .ok difficulty)
    (hjson : Json.stringify (.arr (bc.pendingTransactions ++ [coinBase.toValue])) = .ok json)
    (hall : ∀ t, Block.hashMatchesDifficulty (E.SHA256 (.str t)) difficulty = .ok true)
    (date : Int) (fuel : Nat) :
    ∃ b bc', bc.minePendingTransactions address date (fuel + 1) = some (.ok b, bc') := by
  -- the first mining, of the block as it is
  have hfirst : ∃ block, (bc.createTransaction coinBase.toValue).minePendingBlock date (fuel + 1) =
      some (.ok block) ∧ block.isBlock = true ∧ Json.stringify block.transactions = .ok json := by
    unfold Blockchain.minePendingBlock Blockchain.createTransaction
    simp only [hlatest, hdiff]
    obtain ⟨hash, hmine⟩ := Block.mineBlock_first
      (b := .new (.num date) (.arr (bc.pendingTransactions ++ [coinBase.toValue])) latest.hash)
      hjson hall fuel
    exact ⟨_, hmine, rfl, hjson⟩
  obtain ⟨block, hpending, hblock, hjson'⟩ := hfirst
  -- the second mining, after `addBlock` has linked it
  obtain ⟨b, bc', hadd⟩ :=
    (bc.createTransaction coinBase.toValue).addBlock_first hblock hlatest hdiff hjson' hall fuel
  unfold Blockchain.minePendingTransactions
  simp only [hcoin, hpending, hadd]
  exact ⟨_, _, rfl⟩

/-- `addTransaction` throws and changes nothing, or appends a transaction
    whose `isValid` returned true. -/
theorem Blockchain.addTransaction_cases (bc : Blockchain E) (tx : Val) :
    (∃ e, bc.addTransaction tx = (.error e, bc)) ∨
    (callIsValid E tx = .ok true ∧ bc.addTransaction tx = (.ok (), bc.createTransaction tx)) := by
  unfold Blockchain.addTransaction
  split
  · exact .inl ⟨_, rfl⟩
  · exact .inl ⟨_, rfl⟩
  · split
    · exact .inl ⟨_, rfl⟩
    · split
      · exact .inl ⟨_, rfl⟩
      · exact .inl ⟨_, rfl⟩
      · next hvalid => exact .inr ⟨hvalid, rfl⟩

/-- A transaction that `addTransaction` accepts has a sender and a receiver. -/
theorem Blockchain.addTransaction_addresses {bc : Blockchain E} {tx : Val}
    (h : (bc.addTransaction tx).1 = .ok ()) :
    ∃ fromAddress toAddress, tx.get "fromAddress" = .ok fromAddress ∧
      tx.get "toAddress" = .ok toAddress ∧ fromAddress.truthy = true ∧
      toAddress.truthy = true := by
  unfold Blockchain.addTransaction at h
  split at h
  · cases h
  · cases h
  · next fromAddress toAddress hfrom hto =>
    split at h
    · cases h
    · next htruthy =>
      refine ⟨fromAddress, toAddress, hfrom, hto, ?_⟩
      simpa using htruthy

/-! ### Steps and runs -/

/-- Everything a call can have done to the object when it ends, with the
    result it ends with. -/
inductive Op.Outcome (bc : Blockchain E) : Op → Result Unit → Blockchain E → Prop where
  /-- It threw before it touched the object. -/
  | unchanged (op : Op) (e : JsError)
      (hthrows : ∀ address date fuel, op = .minePendingTransactions address date fuel →
        ¬ bc.CanMine address) :
      Outcome bc op (.error e) bc
  | created (tx : Val) :
      Outcome bc (.createTransaction tx) (.ok ()) (bc.createTransaction tx)
  /-- `addTransaction` accepts a valid transaction. -/
  | accepted (tx : Val) (hvalid : callIsValid E tx = .ok true) :
      Outcome bc (.addTransaction tx) (.ok ()) (bc.createTransaction tx)
  | appended (timestamp : Timestamp) (transactions : Val) (previousHash : String)
      (fuel : Nat) (b : Block) (hmined : MinedOn E bc.chain b)
      (htime : b.timestamp = timestamp) (htxs : b.transactions = transactions) :
      Outcome bc (.addBlock timestamp transactions previousHash fuel) (.ok ())
        { bc with chain := bc.chain ++ [b] }
  /-- Mining threw after the coinbase was put in the pending list. -/
  | stranded (address : Val) (date : Int) (fuel : Nat) (coinBase : Transaction) (e : JsError)
      (hcoin : bc.coinBaseTransaction address = .ok coinBase)
      (hthrows : ¬ bc.CanMine address) :
      Outcome bc (.minePendingTransactions address date fuel) (.error e)
        (bc.createTransaction coinBase.toValue)
  /-- Mining moved the pending list and the coinbase into a new block. -/
  | mined (address : Val) (date : Int) (fuel : Nat) (coinBase : Transaction) (b : Block)
      (hcoin : bc.coinBaseTransaction address = .ok coinBase) (hmined : MinedOn E bc.chain b)
      (htime : b.timestamp = .num date)
      (htxs : b.transactions = .arr (bc.pendingTransactions ++ [coinBase.toValue])) :
      Outcome bc (.minePendingTransactions address date fuel) (.ok ())
        { bc with chain := bc.chain ++ [b], pendingTransactions := [] }

/-- **Step lemma**: a call that ends has one of the outcomes. -/
theorem Op.exec_outcome {bc bc' : Blockchain E} {op : Op} {r : Result Unit}
    (h : op.exec bc = some (r, bc')) : op.Outcome bc r bc' := by
  cases op with
  | createTransaction tx =>
    cases h
    exact .created tx
  | addTransaction tx =>
    rcases bc.addTransaction_cases tx with ⟨e, he⟩ | ⟨hvalid, he⟩
    · simp only [Op.exec, he, Option.some.injEq, Prod.mk.injEq] at h
      obtain ⟨rfl, rfl⟩ := h
      exact .unchanged _ e fun _ _ _ hop => by cases hop
    · simp only [Op.exec, he, Option.some.injEq, Prod.mk.injEq] at h
      obtain ⟨rfl, rfl⟩ := h
      exact .accepted tx hvalid
  | addBlock timestamp transactions previousHash fuel =>
    simp only [Op.exec, Option.map_eq_some_iff] at h
    obtain ⟨⟨q, s⟩, hadd, heq⟩ := h
    cases heq
    rcases Blockchain.addBlock_cases hadd with
      ⟨e, rfl, rfl⟩ | ⟨b, rfl, rfl, hmined, htime, htxs⟩
    · exact .unchanged _ e fun _ _ _ hop => by cases hop
    · exact .appended timestamp transactions previousHash fuel b hmined htime htxs
  | minePendingTransactions address date fuel =>
    simp only [Op.exec, Option.map_eq_some_iff] at h
    obtain ⟨⟨q, s⟩, hmine, heq⟩ := h
    cases heq
    rcases Blockchain.minePendingTransactions_cases hmine with
      ⟨e, _, rfl, rfl⟩ | ⟨coinBase, hcoin, ⟨e, rfl, rfl⟩ | ⟨b, rfl, hmined, htime, htxs, rfl⟩⟩
    · refine .unchanged _ e ?_
      intro address' date' fuel' hop
      cases hop
      exact fun hcan => Blockchain.minePendingTransactions_ne_error hcan e hmine
    · refine .stranded address date fuel coinBase e hcoin ?_
      exact fun hcan => Blockchain.minePendingTransactions_ne_error hcan e hmine
    · exact .mined address date fuel coinBase b hcoin hmined htime htxs

/-- A call leaves the chain as it is or appends one block mined on it. -/
theorem Op.Outcome.chain {bc bc' : Blockchain E} {op : Op} {r : Result Unit}
    (h : op.Outcome bc r bc') :
    bc'.chain = bc.chain ∨ ∃ b, bc'.chain = bc.chain ++ [b] ∧ MinedOn E bc.chain b := by
  cases h with
  | unchanged e => exact .inl rfl
  | created tx => exact .inl rfl
  | accepted tx _ => exact .inl rfl
  | appended _ _ _ _ b hmined _ _ => exact .inr ⟨b, rfl, hmined⟩
  | stranded _ _ _ _ _ _ => exact .inl rfl
  | mined _ _ _ _ b _ hmined _ _ => exact .inr ⟨b, rfl, hmined⟩

/-- The chain before a call is a prefix of the chain after it. -/
theorem Op.Outcome.prefix_chain {bc bc' : Blockchain E} {op : Op} {r : Result Unit}
    (h : op.Outcome bc r bc') : bc.chain <+: bc'.chain := by
  rcases h.chain with heq | ⟨b, heq, _⟩
  · exact heq ▸ List.prefix_rfl
  · rw [heq]
    exact List.prefix_append _ _

/-- **Growth**: every chain a run reaches has grown from the genesis block by
    appending blocks mined on the chain at that time. -/
theorem grown_of_reachable {keyPair : Option E.KeyPair} {bc : Blockchain E}
    (h : Reachable (chainSystem E keyPair) bc) :
    Grown (MinedOn E) [createGenesisBlock] bc.chain := by
  refine h.invariant_from (P := fun bc => Grown (MinedOn E) [createGenesisBlock] bc.chain)
    (fun _ hs => hs) .base ?_
  intro s op s' hgrown hstep
  obtain ⟨r, hexec⟩ := hstep
  rcases (Op.exec_outcome hexec).chain with heq | ⟨b, heq, hmined⟩
  · rw [heq]
    exact hgrown
  · rw [heq]
    exact .append hgrown hmined

/-! ### Blocks with a clock value

    Without `addBlock` every block comes from `minePendingTransactions`: its
    timestamp is a clock value and its transactions are an array. -/

/-- A block that `minePendingTransactions` can append to the chain `c` when
    its clock shows a value in `clock`. -/
structure MinedByClock (E : Env) (clock : Int → Prop) (c : List Block) (b : Block) : Prop
    extends MinedOn E c b where
  time : ∃ date, clock date ∧ b.timestamp = .num date
  list : ∃ txs, b.transactions = .arr txs

/-- The calls other than `addBlock`, with clock values in `clock`. -/
def Op.byClock (clock : Int → Prop) : Op → Prop
  | .addBlock _ _ _ _ => False
  | .minePendingTransactions _ date _ => clock date
  | _ => True

theorem Op.isSubmitOrMine.byClock {op : Op} (h : op.isSubmitOrMine) :
    op.byClock fun _ => True := by
  cases op with
  | addBlock => exact h.elim
  | _ => trivial

theorem Op.isPendingOp.byClock {op : Op} (h : op.isPendingOp) :
    op.byClock fun date => 0 ≤ date := by
  cases op with
  | addBlock => exact h.elim
  | minePendingTransactions address date fuel => exact h
  | _ => trivial

/-- **Growth by the clock**: in runs without `addBlock` the chain grows by
    blocks with clock values. -/
theorem grown_byClock {keyPair : Option E.KeyPair} {ok : Blockchain E → Op → Prop}
    {clock : Int → Prop} {bc : Blockchain E} (hok : ∀ s op, ok s op → op.byClock clock)
    (h : Reachable ((chainSystem E keyPair).restrict ok) bc) :
    Grown (MinedByClock E clock) [createGenesisBlock] bc.chain := by
  refine h.invariant_from
    (P := fun bc => Grown (MinedByClock E clock) [createGenesisBlock] bc.chain)
    (fun _ hs => hs) .base ?_
  intro s op s' hgrown hstep
  obtain ⟨hop, r, hexec⟩ := hstep
  have hclock := hok s op hop
  cases Op.exec_outcome hexec with
  | appended => exact hclock.elim
  | mined address date fuel coinBase b hcoin hmined htime htxs =>
    exact .append hgrown ⟨hmined, ⟨date, hclock, htime⟩, ⟨_, htxs⟩⟩
  | _ => exact hgrown

theorem grown_minedOn {clock : Int → Prop} {c : List Block}
    (h : Grown (MinedByClock E clock) [createGenesisBlock] c) :
    Grown (MinedOn E) [createGenesisBlock] c :=
  h.mono fun _ _ _ hb => hb.toMinedOn

end XCoin
