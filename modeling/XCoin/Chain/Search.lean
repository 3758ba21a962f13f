import Mathlib.Order.Bounds.Basic
import XCoin.Chain.Invariant

/-! # The search for a nonce, made twice

    `minePendingTransactions` mines its block before it hands it to
    `addBlock`, which links the block to the chain and mines it again.  The
    search starts at the nonce `0` and reads four fields of the block, none of
    which it writes; so nothing of the first search is left after the second
    one, and the first may be dropped.

    `minePendingTransactionsOnce` is the method without the first search.
-/

namespace XCoin

open Js Throwing

variable {E : Env}

/-! ### What the search returns -/

/-- With this nonce the hash of the block starts with `d` zeros. -/
def Block.NonceFits (E : Env) (b : Block) (d nonce : Nat) : Prop :=
  ∃ hash, Block.calculateHash E b.index b.previousHash b.timestamp b.transactions nonce =
    .ok hash ∧ List.replicate d '0' <+: hash.toList

/-- The block `b'` is `b` with the outcome of a search at difficulty `d`. -/
structure Block.SearchResult (E : Env) (b : Block) (d : Nat) (b' : Block) : Prop where
  /-- The nonce is the first one that fits. -/
  nonce        : IsLeast {n | b.NonceFits E d n} b'.nonce
  hash         : Block.calculateHash E b.index b.previousHash b.timestamp b.transactions b'.nonce =
    .ok b'.hash
  difficulty   : b'.difficulty = .int d
  index        : b'.index = b.index
  previousHash : b'.previousHash = b.previousHash
  timestamp    : b'.timestamp = b.timestamp
  transactions : b'.transactions = b.transactions

/-- **What the search returns.** -/
theorem Block.mineBlock_searchResult {b b' : Block} {d fuel : Nat}
    (h : b.mineBlock E (.int d) fuel = some (.ok b')) : b.SearchResult E d b' := by
  obtain ⟨nonce, hash, _, ⟨hhash, hmatch⟩, rfl, hleast⟩ := Block.mineLoop_ok h
  refine ⟨⟨?_, ?_⟩, hhash, rfl, rfl, rfl, rfl, rfl⟩
  · exact ⟨hash, hhash, ((Block.match_iff_zeros hash d true).mp hmatch).mp rfl⟩
  · -- a smaller nonce was tried and did not fit
    intro m hm
    by_contra hlt
    obtain ⟨g, hg, hzeros⟩ := hm
    obtain ⟨g', hg', hfails⟩ := hleast m (Nat.zero_le m) (Nat.lt_of_not_le hlt)
    rw [hg, Except.ok.injEq] at hg'
    subst hg'
    exact Bool.false_ne_true (((Block.match_iff_zeros g d false).mp hfails).mpr hzeros)

/-! ### What the search reads -/

theorem Block.mineLoop_congr (b : Block) (nonce : Nat) (hash : String)
    (difficulty d : Difficulty) (fuel start : Nat) :
    Block.mineLoop E { b with nonce, hash, difficulty } d fuel start =
      b.mineLoop E d fuel start := by
  induction fuel generalizing start with
  | zero => rfl
  | succ fuel ih =>
    unfold Block.mineLoop
    rw [ih]

/-- The search does not read the nonce, the hash and the difficulty that the
    block has before. -/
theorem Block.mineBlock_congr (b : Block) (nonce : Nat) (hash : String)
    (difficulty d : Difficulty) (fuel : Nat) :
    Block.mineBlock E { b with nonce, hash, difficulty } d fuel = b.mineBlock E d fuel :=
  Block.mineLoop_congr b nonce hash difficulty d fuel 0

/-- Whether and what a search throws depends on the transactions and the
    difficulty alone. -/
theorem Block.mineBlock_error_congr {b b₂ : Block} {d : Difficulty} {fuel : Nat} {e : JsError}
    (htxs : b₂.transactions = b.transactions)
    (h : b.mineBlock E d fuel = some (.error e)) : b₂.mineBlock E d fuel = some (.error e) := by
  cases fuel with
  | zero => cases h
  | succ fuel =>
    cases hjson : Json.stringify b.transactions with
    | error e' =>
      simp [Block.mineBlock, Block.mineLoop, Block.calculateHash, Block.hashText, hjson] at h
      simp [Block.mineBlock, Block.mineLoop, Block.calculateHash, Block.hashText, htxs, hjson, h]
    | ok json =>
      cases hcount : d.repeatCount with
      | error e' =>
        simp [Block.mineBlock, Block.mineLoop, Block.calculateHash, Block.hashText,
          Block.hashMatchesDifficulty, hjson, hcount] at h
        simp [Block.mineBlock, Block.mineLoop, Block.calculateHash, Block.hashText,
          Block.hashMatchesDifficulty, htxs, hjson, hcount, h]
      | ok count =>
        -- nothing throws
        exact absurd h (Block.mineLoop_ne_error ⟨json, hjson⟩ hcount e)

/-! ### Mining once -/

/-- `minePendingTransactions` without its call of `mineBlock`: the block is
    only mined by `addBlock`. -/
def Blockchain.minePendingTransactionsOnce (bc : Blockchain E) (miningRewardAddress : Val)
    (date : Int) (fuel : Nat) : Option (Result Block × Blockchain E) :=
  match bc.coinBaseTransaction miningRewardAddress with
  | .error e => some (.error e, bc)
  | .ok coinBase =>
    let bc₁ := bc.createTransaction coinBase.toValue
    match latestBlock bc₁.chain with
    | .error e => some (.error e, bc₁)
    | .ok latest =>
      let block := Block.new (.num date) (.arr bc₁.pendingTransactions) latest.hash
      match bc₁.addBlock block fuel with
      | none => none
      | some (.error e, bc₂) => some (.error e, bc₂)
      | some (.ok b, bc₂) => some (.ok b, { bc₂ with pendingTransactions := [] })

/-- `addBlock` does not see whether the block was mined before. -/
theorem Blockchain.addBlock_congr (bc : Blockchain E) (b : Block) (nonce : Nat) (hash : String)
    (difficulty : Difficulty) (fuel : Nat) :
    bc.addBlock { b with nonce, hash, difficulty } fuel = bc.addBlock b fuel := by
  unfold Blockchain.addBlock
  simp only [← Block.mineBlock_congr { b with index := _, previousHash := _ } nonce hash
    difficulty]

/-- A throw of the first search is a throw of the second. -/
theorem Blockchain.addBlock_throws {bc : Blockchain E} {b latest : Block} {d : Difficulty}
    {fuel : Nat} {e : JsError} (hblock : b.isBlock = true)
    (hlatest : latestBlock bc.chain = .ok latest) (hdiff : getDifficulty bc.chain = .ok d)
    (h : b.mineBlock E d fuel = some (.error e)) :
    bc.addBlock b fuel = some (.error e, bc) := by
  have hlinked : Block.mineBlock E { b with
      index := (if latest.index ≠ 0 then latest.index else 0) + 1
      previousHash := latest.hash } d fuel = some (.error e) :=
    Block.mineBlock_error_congr (b := b) rfl h
  unfold Blockchain.addBlock
  simp only [hlatest, hdiff, hblock, Bool.not_true, Bool.false_eq_true, if_false]
  rw [hblock] at hlinked
  rw [hlinked]

/-- **The first search leaves no trace**: whenever `minePendingTransactions`
    ends, the method without the first search ends the same way, with the same
    block and the same object. -/
theorem Blockchain.minePendingTransactions_once {bc bc' : Blockchain E} {address : Val}
    {date : Int} {fuel : Nat} {r : Result Block}
    (h : bc.minePendingTransactions address date fuel = some (r, bc')) :
    bc.minePendingTransactionsOnce address date fuel = some (r, bc') := by
  unfold Blockchain.minePendingTransactions at h
  unfold Blockchain.minePendingTransactionsOnce
  cases hcoin : bc.coinBaseTransaction address with
  | error e =>
    simp only [hcoin] at h ⊢
    exact h
  | ok coinBase =>
    simp only [hcoin, Blockchain.minePendingBlock] at h ⊢
    cases hlatest : latestBlock (bc.createTransaction coinBase.toValue).chain with
    | error e =>
      simp only [hlatest] at h ⊢
      exact h
    | ok latest =>
      cases hdiff : getDifficulty (bc.createTransaction coinBase.toValue).chain with
      | error e =>
        -- `addBlock` asks for the same difficulty
        simp only [hlatest, hdiff] at h
        simp only [Blockchain.addBlock, hlatest, hdiff]
        exact h
      | ok d =>
        simp only [hlatest, hdiff] at h ⊢
        split at h
        · cases h
        · next e hmine =>
          rw [Blockchain.addBlock_throws rfl hlatest hdiff hmine]
          exact h
        · next block hmine =>
          -- the block that `addBlock` gets differs in what the search has written
          obtain ⟨nonce, hash, _, _, rfl, _⟩ := Block.mineLoop_ok hmine
          unfold Block.found at h
          rw [Blockchain.addBlock_congr] at h
          exact h

/-- **The search and the double mining.** For every hash function: what
    `mineBlock` returns is the block with the first nonce that fits; the
    search reads nothing but index, previous hash, timestamp, transactions and
    difficulty; and `minePendingTransactions` has the result it has without
    its first search. -/
theorem mining_search (E : Env) :
    (∀ (b b' : Block) (d fuel : Nat), b.mineBlock E (.int d) fuel = some (.ok b') →
      b.SearchResult E d b') ∧
    (∀ (b : Block) (nonce : Nat) (hash : String) (difficulty d : Difficulty) (fuel : Nat),
      Block.mineBlock E { b with nonce, hash, difficulty } d fuel = b.mineBlock E d fuel) ∧
    ∀ (bc bc' : Blockchain E) (address : Val) (date : Int) (fuel : Nat) (r : Result Block),
      bc.minePendingTransactions address date fuel = some (r, bc') →
        bc.minePendingTransactionsOnce address date fuel = some (r, bc') := by
  refine ⟨?_, Block.mineBlock_congr, ?_⟩
  · intro b b' d fuel h
    exact Block.mineBlock_searchResult h
  · intro bc bc' address date fuel r h
    exact Blockchain.minePendingTransactions_once h

/-- Packages whose hash starts with a zero only if the text has an even number
    of bytes. -/
def evenEnv : Env :=
  { demoEnv with
    SHA256 := fun v => match v with
      | .str t => if t.utf8ByteSize % 2 = 0 then "0" else "f"
      | _      => "f" }

/-- The search and the double mining where no nonce of one digit fits. -/
theorem mining_search_nonce_ten :
    (∃ b', createGenesisBlock.SearchResult evenEnv 1 b' ∧ b'.nonce = 10) ∧
    ∃ (b : Block) (bc' : Blockchain evenEnv),
      (Blockchain.new evenEnv (some ())).minePendingTransactionsOnce (.str "miner") 7 11 =
        some (.ok b, bc') ∧ b.nonce = 10 ∧ bc'.chain.length = 2 := by
  obtain ⟨hsearch, _, honce⟩ := mining_search evenEnv
  constructor
  · have hfinal : (createGenesisBlock.mineBlock evenEnv (.int 1) 11).map
        (fun r => r.toOption.map Block.nonce) = some (some 10) := by
      decide +kernel
    obtain ⟨r, hmine, hnonce⟩ := Option.map_eq_some_iff.mp hfinal
    obtain ⟨b', hr, hnonce⟩ := Option.map_eq_some_iff.mp hnonce
    rw [toOption_eq_some.mp hr] at hmine
    exact ⟨b', hsearch _ _ 1 11 hmine, hnonce⟩
  · have hfinal : ((Blockchain.new evenEnv (some ())).minePendingTransactions
        (.str "miner") 7 11).map (fun r => (r.1.toOption.map Block.nonce, r.2.chain.length)) =
          some (some 10, 2) := by
      decide +kernel
    obtain ⟨⟨r, bc'⟩, hmine, hfacts⟩ := Option.map_eq_some_iff.mp hfinal
    obtain ⟨hnonce, hlen⟩ := Prod.mk.inj hfacts
    obtain ⟨b, hr, hfits⟩ := Option.map_eq_some_iff.mp hnonce
    obtain rfl : r = .ok b := toOption_eq_some.mp hr
    exact ⟨b, bc', honce _ _ _ _ _ _ hmine, hfits, hlen⟩

end XCoin
