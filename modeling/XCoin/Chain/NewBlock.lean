import XCoin.Chain.Invariant

/-! # The validator for a single block

    `isValidNewBlock` is meant to check what the comment above it lists: the
    index continues that of the previous block, the previous hash is its hash,
    and the block's own hash is right.  Its three tests come in this order,
    but the third calls the hash of a block, which is a text, and the branch
    for a block that passes all tests returns `false` like the others.

    So it agrees with its specification only on the pairs that one of the
    first two tests refuses, and it throws on every pair of neighbours of a
    mined chain.
-/

namespace XCoin

open Js LTS Throwing

variable {E : Env}

/-! ### Pairs of blocks -/

/-- What the comment at `isValidNewBlock` demands of a block. -/
structure Continues (E : Env) (newBlock previousBlock : Block) : Prop where
  index        : newBlock.index = previousBlock.index + 1
  previousHash : newBlock.previousHash = previousBlock.hash
  hash         : newBlock.ownHash E = .ok newBlock.hash

/-- The validator returns, and its answer is right. -/
def AnswersRightly (E : Env) (self newBlock previousBlock : Block) : Prop :=
  ∃ answer, self.isValidNewBlock newBlock previousBlock = .ok answer ∧
    (answer = true ↔ Continues E newBlock previousBlock)

/-- Linked blocks make the validator throw. -/
theorem Block.isValidNewBlock_throws {self newBlock previousBlock : Block}
    (hindex : newBlock.index = previousBlock.index + 1)
    (hhash : newBlock.previousHash = previousBlock.hash) :
    self.isValidNewBlock newBlock previousBlock = .error .typeError := by
  unfold Block.isValidNewBlock
  rw [if_neg (by simp [hindex]), if_neg (by simp [hhash])]
  rfl

/-- Blocks that are not linked are refused. -/
theorem Block.isValidNewBlock_refuses {self newBlock previousBlock : Block}
    (h : newBlock.index ≠ previousBlock.index + 1 ∨ newBlock.previousHash ≠ previousBlock.hash) :
    self.isValidNewBlock newBlock previousBlock = .ok false := by
  unfold Block.isValidNewBlock
  by_cases hindex : previousBlock.index + 1 = newBlock.index
  · rw [if_neg (by simp [hindex])]
    have hhash : previousBlock.hash ≠ newBlock.previousHash := by
      intro heq
      rcases h with h | h
      · exact h hindex.symm
      · exact h heq.symm
    rw [if_pos hhash]
    rfl
  · rw [if_pos hindex]
    rfl

/-- The answer is right exactly for blocks that are not linked. -/
theorem answersRightly_iff (self newBlock previousBlock : Block) :
    AnswersRightly E self newBlock previousBlock ↔
      newBlock.index ≠ previousBlock.index + 1 ∨
        newBlock.previousHash ≠ previousBlock.hash := by
  constructor
  · intro h
    by_contra hlinked
    simp only [not_or, not_not] at hlinked
    obtain ⟨answer, hanswer, _⟩ := h
    rw [Block.isValidNewBlock_throws hlinked.1 hlinked.2] at hanswer
    cases hanswer
  · intro h
    refine ⟨false, Block.isValidNewBlock_refuses h, ?_⟩
    constructor
    · intro hfalse
      cases hfalse
    · intro hcontinues
      rcases h with h | h
      · exact absurd hcontinues.index h
      · exact absurd hcontinues.previousHash h

/-! ### Mined chains -/

/-- The validator accepts every block of the chain after the block before it. -/
def AcceptsPairs (chain : List Block) : Prop :=
  ∀ (self : Block) (i : Nat) (p b : Block), chain[i]? = some p → chain[i + 1]? = some b →
    self.isValidNewBlock b p = .ok true

/-- On a chain a run reaches, neighbours are linked, and the validator throws. -/
theorem isValidNewBlock_of_reachable {keyPair : Option E.KeyPair} {bc : Blockchain E}
    (h : Reachable (chainSystem E keyPair) bc) {i : Nat} {p b : Block}
    (hp : bc.chain[i]? = some p) (hb : bc.chain[i + 1]? = some b) (self : Block) :
    self.isValidNewBlock b p = .error .typeError := by
  have hgrown := grown_of_reachable h
  obtain ⟨hindex, hprevious, _⟩ := (chainInv_of_grown hgrown).mined i p b hp hb
  apply Block.isValidNewBlock_throws
  · rw [hindex, grown_index hgrown hp]
  · exact hprevious

/-- **Where the validator is right.** For every pair of blocks it returns the
    right answer if and only if the blocks are not linked by index and hash.
    A chain reached by a run has all its pairs accepted if and only if it has
    no block after the genesis block; its pairs all make the validator
    throw. -/
theorem isValidNewBlock_agrees_iff (E : Env) :
    (∀ self newBlock previousBlock, AnswersRightly E self newBlock previousBlock ↔
      newBlock.index ≠ previousBlock.index + 1 ∨
        newBlock.previousHash ≠ previousBlock.hash) ∧
    ∀ (keyPair : Option E.KeyPair) (bc : Blockchain E), Reachable (chainSystem E keyPair) bc →
      ((AcceptsPairs bc.chain ↔ bc.chain.length = 1) ∧
        ∀ (self : Block) (i : Nat) (p b : Block), bc.chain[i]? = some p →
          bc.chain[i + 1]? = some b → self.isValidNewBlock b p = .error .typeError) := by
  refine ⟨answersRightly_iff, ?_⟩
  intro keyPair bc hreach
  refine ⟨?_, fun self i p b hp hb => isValidNewBlock_of_reachable hreach hp hb self⟩
  have hpos : 1 ≤ bc.chain.length := (grown_of_reachable hreach).length_le
  constructor
  · intro haccepts
    by_contra hlong
    -- the first two blocks are a pair
    obtain ⟨p, hp⟩ : ∃ p, bc.chain[0]? = some p := ⟨_, List.getElem?_eq_getElem (by omega)⟩
    obtain ⟨b, hb⟩ : ∃ b, bc.chain[0 + 1]? = some b := ⟨_, List.getElem?_eq_getElem (by omega)⟩
    have hthrows := isValidNewBlock_of_reachable hreach hp hb p
    rw [haccepts p 0 p b hp hb] at hthrows
    cases hthrows
  · intro hone self i p b _ hb
    have hlt : i + 1 < bc.chain.length := (List.getElem?_eq_some_iff.mp hb).1
    omega

/-- A chain of two blocks. -/
theorem exists_mined_pair :
    ∃ (bc : Blockchain demoEnv) (b : Block), Reachable (chainSystem demoEnv (some ())) bc ∧
      bc.chain = [createGenesisBlock, b] := by
  have hmine : ∃ b bc, (Op.minePendingTransactions (.str "miner") 7 1).exec
      (Blockchain.new demoEnv (some ())) = some (.ok (), bc) ∧
      bc.chain = [createGenesisBlock, b] := ⟨_, _, rfl, rfl⟩
  obtain ⟨b, bc, hexec, hchain⟩ := hmine
  exact ⟨bc, b, .step _ (.init rfl) ⟨_, hexec⟩, hchain⟩

/-- The two parts on a chain of two blocks. -/
theorem isValidNewBlock_agrees_iff_two_blocks :
    ∃ bc : Blockchain demoEnv, Reachable (chainSystem demoEnv (some ())) bc ∧
      bc.chain.length = 2 ∧ (AcceptsPairs bc.chain ↔ bc.chain.length = 1) ∧
      AnswersRightly demoEnv createGenesisBlock createGenesisBlock createGenesisBlock := by
  obtain ⟨bc, b, hreach, hchain⟩ := exists_mined_pair
  obtain ⟨hpairs, hchains⟩ := isValidNewBlock_agrees_iff demoEnv
  refine ⟨bc, hreach, by rw [hchain]; rfl, (hchains (some ()) bc hreach).1, ?_⟩
  apply (hpairs _ _ _).mpr
  exact .inl (by decide)

/-- **A good block is not accepted.** The first mined block continues the
    genesis block, and the validator throws. -/
theorem isValidNewBlock_throws_first_block :
    ∃ (bc : Blockchain demoEnv) (b : Block), Reachable (chainSystem demoEnv (some ())) bc ∧
      bc.chain = [createGenesisBlock, b] ∧ Continues demoEnv b createGenesisBlock ∧
      b.isValidNewBlock b createGenesisBlock = .error .typeError := by
  obtain ⟨bc, b, hreach, hchain⟩ := exists_mined_pair
  have hp : bc.chain[0]? = some createGenesisBlock := by rw [hchain]; rfl
  have hb : bc.chain[0 + 1]? = some b := by rw [hchain]; rfl
  obtain ⟨hindex, hprevious, _, hhash, _⟩ :=
    (chainInv_of_grown (grown_of_reachable hreach)).mined 0 _ b hp hb
  exact ⟨bc, b, hreach, hchain, ⟨hindex, hprevious, hhash⟩,
    isValidNewBlock_of_reachable hreach hp hb b⟩

end XCoin
