import Mathlib.Data.List.Chain
import XCoin.Chain.Mining

/-! # Producer and validator agree

    `isChainValid` accepts a chain exactly if every block after the first is
    valid against the block before it.  Blocks that `minePendingTransactions`
    produces are: their hash is the one of the second mining, and their
    transactions either passed `isValid` when they were submitted or are
    coinbases, which have no sender.
-/

namespace XCoin

open Js LTS Throwing

variable {E : Env}

/-! ### The validator -/

/-- What `isChainValid` checks of a block and its predecessor. -/
structure BlockValid (E : Env) (previous b : Block) : Prop where
  isBlock      : b.isBlock = true
  transactions : b.hasValidTransactions E = .ok true
  hash         : b.ownHash E = .ok b.hash
  linked       : b.previousHash = previous.hash

theorem Blockchain.validFrom_cons_iff {previous b : Block} {rest : List Block} :
    Blockchain.validFrom E previous (b :: rest) = .ok true ↔
      BlockValid E previous b ∧ Blockchain.validFrom E b rest = .ok true := by
  rw [Blockchain.validFrom]
  constructor
  · intro h
    cases hblock : b.isBlock with
    | false => simp [hblock] at h
    | true =>
      simp only [hblock, Bool.not_true, Bool.false_eq_true, if_false] at h
      obtain ⟨valid, htxs, h⟩ := bind_eq_ok.mp h
      cases valid with
      | false => simp at h
      | true =>
        simp only [Bool.not_true, Bool.false_eq_true, if_false] at h
        obtain ⟨hash, hhash, h⟩ := bind_eq_ok.mp h
        split at h
        · cases h
        · next hok =>
          push Not at hok
          exact ⟨⟨hblock, htxs, by rw [hhash, hok.1], hok.2⟩, h⟩
  · rintro ⟨⟨hblock, htxs, hhash, hlink⟩, hrest⟩
    simp [hblock, htxs, hhash, hlink, hrest]

/-- **The validator's meaning**: it returns true exactly on the chains in
    which every block is valid against the one before it. -/
theorem isChainValid_iff {c : List Block} :
    Blockchain.isChainValid E c = .ok true ↔ c.IsChain (BlockValid E) := by
  cases c with
  | nil => simp [Blockchain.isChainValid]
  | cons genesis rest =>
    -- the genesis block itself is not checked
    rw [Blockchain.isChainValid]
    induction rest generalizing genesis with
    | nil => simp [Blockchain.validFrom]
    | cons b rest ih =>
      rw [Blockchain.validFrom_cons_iff, List.isChain_cons_cons, ih]

theorem Block.allValid_iff {txs : List Val} :
    Block.allValid E txs = .ok true ↔ ∀ tx ∈ txs, callIsValid E tx = .ok true := by
  induction txs with
  | nil => simp [Block.allValid]
  | cons tx txs ih =>
    rw [Block.allValid]
    cases hvalid : callIsValid E tx with
    | error e => simp [hvalid]
    | ok valid => cases valid <;> simp [hvalid, ih]

/-! ### The producer -/

/-- A coinbase is valid: computing its id showed that its hash can be
    computed, and it has no sender. -/
theorem coinBase_valid {bc : Blockchain E} {address : Val} {coinBase : Transaction}
    (h : bc.coinBaseTransaction address = .ok coinBase) :
    callIsValid E coinBase.toValue = .ok true := by
  have hfields := coinBase_fields h
  unfold Blockchain.coinBaseTransaction at h
  obtain ⟨id, hid, _⟩ := bind_eq_ok.mp h
  -- the id of the only output adds the address and the reward
  have hsum : ∃ r, Value.add address (.num bc.miningReward) = .ok r := by
    unfold Transaction.getTransactionId at hid
    obtain ⟨_, _, hid⟩ := bind_eq_ok.mp hid
    obtain ⟨outs, houts, _⟩ := bind_eq_ok.mp hid
    obtain ⟨sums, hsums, _⟩ := bind_eq_ok.mp houts
    obtain ⟨a, ha, hsums⟩ := bind_eq_ok.mp hsums
    obtain ⟨b, hb, hsums⟩ := bind_eq_ok.mp hsums
    obtain ⟨r, hr, _⟩ := bind_eq_ok.mp hsums
    cases ha
    cases hb
    exact ⟨r, hr⟩
  obtain ⟨r, hr⟩ := hsum
  -- so the hash, which adds `null` in front, does not throw either
  obtain ⟨s, t, hs, ht⟩ := Value.add_null_of_add hr
  rw [callIsValid_toValue]
  apply Transaction.isValid_of_null hfields.1 (h := E.SHA256 t)
  unfold Transaction.calculateHash
  rw [hfields.1, hfields.2.1, hfields.2.2, hs, ok_bind, ht]
  rfl

/-! ### Runs -/

/-- The pending list holds valid transactions and the chain is valid. -/
structure Sound (bc : Blockchain E) : Prop where
  pending : ∀ tx ∈ bc.pendingTransactions, callIsValid E tx = .ok true
  chain   : bc.chain.IsChain (BlockValid E)

theorem sound_new (keyPair : Option E.KeyPair) : Sound (Blockchain.new E keyPair) where
  pending := by
    intro tx htx
    cases htx
  chain := List.IsChain.singleton _

theorem Sound.createTransaction {bc : Blockchain E} {tx : Val} (h : Sound bc)
    (hvalid : callIsValid E tx = .ok true) : Sound (bc.createTransaction tx) where
  pending := Blockchain.forall_mem_createTransaction.mpr ⟨h.pending, hvalid⟩
  chain := h.chain

/-- A block mined from valid transactions is valid against the latest block. -/
theorem BlockValid.of_minedOn {c : List Block} {b p : Block} {txs : List Val}
    (hmined : MinedOn E c b) (hlast : c.getLast? = some p) (htxs : b.transactions = .arr txs)
    (hvalid : ∀ tx ∈ txs, callIsValid E tx = .ok true) : BlockValid E p b where
  isBlock := hmined.isBlock
  transactions := by
    unfold Block.hasValidTransactions
    rw [htxs]
    exact Block.allValid_iff.mpr hvalid
  hash := hmined.hash
  linked := by
    obtain ⟨latest, hlatest, _, hprev⟩ := hmined.linked
    rw [hlast, Option.some.injEq] at hlatest
    rw [hprev, hlatest]

/-- A valid chain stays valid when a block is mined on it exactly if the
    transactions of the block are valid. -/
theorem isChain_append_iff {c : List Block} {b : Block} {txs : List Val}
    (hc : c.IsChain (BlockValid E)) (hmined : MinedOn E c b) (htxs : b.transactions = .arr txs) :
    (c ++ [b]).IsChain (BlockValid E) ↔ ∀ tx ∈ txs, callIsValid E tx = .ok true := by
  rw [List.isChain_append]
  constructor
  · rintro ⟨_, _, hlink⟩
    obtain ⟨latest, hlast, _, _⟩ := hmined.linked
    have hvalid := (hlink latest hlast b rfl).transactions
    unfold Block.hasValidTransactions at hvalid
    rw [htxs] at hvalid
    exact Block.allValid_iff.mp hvalid
  · intro hvalid
    refine ⟨hc, List.IsChain.singleton _, ?_⟩
    intro p hp b' hb'
    cases hb'
    exact BlockValid.of_minedOn hmined hp htxs hvalid

/-- **Step lemma**: a call keeps the state sound, unless it is `addBlock` or
    puts an invalid transaction in the pending list unchecked. -/
theorem Op.Outcome.sound {bc bc' : Blockchain E} {op : Op} {r : Result Unit}
    (h : op.Outcome bc r bc') (hsound : Sound bc)
    (hcreate : ∀ tx, op = .createTransaction tx → callIsValid E tx = .ok true)
    (hadd : ∀ ts txs ph fuel, op ≠ .addBlock ts txs ph fuel) : Sound bc' := by
  cases h with
  | unchanged => exact hsound
  | created tx => exact hsound.createTransaction (hcreate tx rfl)
  | accepted tx hvalid => exact hsound.createTransaction hvalid
  | appended ts txs ph fuel b => exact absurd rfl (hadd ts txs ph fuel)
  | stranded address date fuel coinBase e hcoin =>
    exact hsound.createTransaction (coinBase_valid hcoin)
  | mined address date fuel coinBase b hcoin hmined htime htxs =>
    have hvalid := (hsound.createTransaction (coinBase_valid hcoin)).pending
    exact ⟨by simp, (isChain_append_iff hsound.chain hmined htxs).mpr hvalid⟩

/-- **Run lemma**: runs of `addTransaction` and `minePendingTransactions` stay
    sound. -/
theorem sound_of_reachable {keyPair : Option E.KeyPair} {bc : Blockchain E}
    (h : Reachable (submitSystem E keyPair) bc) : Sound bc := by
  refine h.invariant_from (fun _ hs => hs) (sound_new keyPair) ?_
  intro s op s' hs hstep
  obtain ⟨hop, r, hexec⟩ := hstep
  refine (Op.exec_outcome hexec).sound hs ?_ ?_
  · rintro tx rfl
    exact hop.elim
  · rintro ts txs ph fuel rfl
    exact hop.elim

/-- **Producer and validator agree.** After any run of `addTransaction` and
    `minePendingTransactions`, rejected transactions and failed minings
    included, `isChainValid` returns true. -/
theorem isChainValid_of_reachable {keyPair : Option E.KeyPair} {bc : Blockchain E}
    (h : Reachable (submitSystem E keyPair) bc) :
    Blockchain.isChainValid E bc.chain = .ok true := by
  exact isChainValid_iff.mpr (sound_of_reachable h).chain

/-- The agreement on a run that has a transaction accepted, mines it, and is
    refused another one. -/
theorem isChainValid_after_transfer :
    ∃ bc : Blockchain demoEnv, Reachable (submitSystem demoEnv (some ())) bc ∧
      bc.chain.length = 2 ∧ Blockchain.isChainValid demoEnv bc.chain = .ok true := by
  let transfer : Transaction :=
    { Transaction.new (.str "04aa") (.str "04bb") (.num 3) .undefined .undefined .undefined with
      signature := .str "3006" }
  let ops : List Op :=
    [.addTransaction transfer.toValue, .minePendingTransactions (.str "04aa") 7 1,
     .addTransaction .null]
  have hfinal : (execAll (Blockchain.new demoEnv (some ())) ops).map (fun bc => bc.chain.length)
      = some 2 := by
    decide +kernel
  obtain ⟨bc, hrun, hlen⟩ := Option.map_eq_some_iff.mp hfinal
  obtain ⟨tr, htr, _⟩ := run_of_execAll (some ()) (fun _ op => op.isSubmitOrMine)
    (by simp [ops, Op.isSubmitOrMine]) hrun
  have hreach : Reachable (submitSystem demoEnv (some ())) bc := htr.reachable (.init rfl)
  exact ⟨bc, hreach, hlen, isChainValid_of_reachable hreach⟩

/-! ### What the validator accepts

    Nothing is demanded of the first block or of the number of zeros a hash
    starts with. -/

/-- The blocks are numbered by their positions. -/
def Numbered (chain : List Block) : Prop :=
  ∀ (i : Nat) (b : Block), chain[i]? = some b → b.index = i

/-- Every block after the first has valid transactions, carries the hash of
    its own fields, and carries the hash of the block before it. -/
def Linked (E : Env) (chain : List Block) : Prop :=
  ∀ (i : Nat) (p b : Block), chain[i]? = some p → chain[i + 1]? = some b →
    b.hasValidTransactions E = .ok true ∧ b.ownHash E = .ok b.hash ∧ b.previousHash = p.hash

/-- **What the validator demands**: on a list of `Block` objects `isChainValid`
    returns true only if every block after the first has valid transactions,
    carries the hash of its own fields, and carries the hash of the block
    before it; on a list whose blocks are numbered by their positions it
    returns true then, whatever the first block is and however much work was
    done. -/
theorem isChainValid_linked {chain : List Block} (hblocks : ∀ b ∈ chain, b.isBlock = true) :
    (Blockchain.isChainValid E chain = .ok true → Linked E chain) ∧
    (Numbered chain → Linked E chain → Blockchain.isChainValid E chain = .ok true) := by
  rw [isChainValid_iff, List.isChain_iff_getElem]
  constructor
  · intro hvalid i p b hp hb
    obtain ⟨hi, rfl⟩ := List.getElem?_eq_some_iff.mp hb
    obtain ⟨_, rfl⟩ := List.getElem?_eq_some_iff.mp hp
    have hb := hvalid i hi
    exact ⟨hb.transactions, hb.hash, hb.linked⟩
  · intro _ hall i hi
    obtain ⟨htxs, hhash, hlink⟩ := hall i _ _ (List.getElem?_eq_getElem (by omega))
      (List.getElem?_eq_getElem hi)
    exact ⟨hblocks _ (List.getElem_mem hi), htxs, hhash, hlink⟩

/-- A first block that no blockchain object starts with, asking for a
    difficulty of two. -/
def strangeFirst : Block :=
  { Block.new (.str "another start") (.arr []) "" with difficulty := .int 2 }

/-- A second block whose hash has only one zero. -/
def strangeSecond : Block :=
  { Block.new (.num 1) (.arr []) "" with index := 1, hash := "0" }

theorem strange_isBlock : ∀ b ∈ [strangeFirst, strangeSecond], b.isBlock = true := by
  simp [strangeFirst, strangeSecond, Block.new]

theorem strange_numbered : Numbered [strangeFirst, strangeSecond] := by
  intro i b hb
  obtain ⟨hi, rfl⟩ := List.getElem?_eq_some_iff.mp hb
  obtain rfl | rfl : i = 0 ∨ i = 1 := by
    simp only [List.length_cons, List.length_nil] at hi
    omega
  · rfl
  · rfl

/-- **No genesis block, no work.** The validator accepts a chain that mining
    cannot produce in either respect, though its blocks are numbered rightly. -/
theorem isChainValid_accepts_strange :
    (∀ b ∈ [strangeFirst, strangeSecond], b.isBlock = true) ∧
    Numbered [strangeFirst, strangeSecond] ∧
    Blockchain.isChainValid demoEnv [strangeFirst, strangeSecond] = .ok true ∧
    strangeFirst ≠ createGenesisBlock ∧
    getDifficulty [strangeFirst] = .ok (.int 2) ∧
    Block.hashMatchesDifficulty strangeSecond.hash (.int 2) = .ok false := by
  refine ⟨strange_isBlock, strange_numbered, by decide +kernel, ?_, by decide +kernel,
    by decide +kernel⟩
  intro heq
  have htime := congrArg Block.timestamp heq
  revert htime
  decide

/-- Both directions on a chain that mining cannot produce. -/
theorem isChainValid_linked_strange :
    (∀ b ∈ [strangeFirst, strangeSecond], b.isBlock = true) ∧
    Numbered [strangeFirst, strangeSecond] ∧
    Blockchain.isChainValid demoEnv [strangeFirst, strangeSecond] = .ok true ∧
    Linked demoEnv [strangeFirst, strangeSecond] := by
  obtain ⟨hlinked, hvalid⟩ := isChainValid_linked (E := demoEnv) strange_isBlock
  have haccepted : Blockchain.isChainValid demoEnv [strangeFirst, strangeSecond] = .ok true := by
    decide +kernel
  exact ⟨strange_isBlock, strange_numbered, hvalid strange_numbered (hlinked haccepted),
    hlinked haccepted⟩

end XCoin
