import XCoin.Chain.Commitment
import XCoin.Chain.History
import XCoin.Js.RoundTrip
import XCoin.Model.Wire

/-! # Chains mean the same after transport

    A chain that was sent as JSON holds plain objects without methods, and
    fields that were `undefined` are gone.  Everything the node computes from
    a chain it adopted reads only what survives: the texts that are hashed,
    the operands of `+`, `-` and `===`, and the numbers of the blocks.

    The relation `Block.Carried` says what survives of a block.  Each function
    the node runs on the chain has a lemma that it does not tell the two
    sides of this relation apart.
-/

namespace XCoin

open Js LTS Throwing AppendLog

variable {E : Env}

/-! ### What survives of a block -/

/-- `b'` is what arrives of the block `b`. -/
structure Block.Carried (b b' : Block) : Prop extends Block.Agree b b' where
  list : ∃ txs txs', b.transactions = .arr txs ∧ b'.transactions = .arr txs' ∧
    List.Forall₂ Json.Sent txs txs'

/-- A block whose transactions JSON can carry arrives. -/
theorem Block.exists_carried {b : Block} {txs : List Val} (htxs : b.transactions = .arr txs)
    (hjson : Json.ElemsJson txs) (hdiff : b.difficulty ≠ .nan) :
    ∃ b', b.transport = .ok b' ∧ b.Carried b' := by
  obtain ⟨txs', htxs'⟩ := hjson.exists_transport
  have harr : Json.transport (.arr txs) = .ok (some (.arr txs')) :=
    Json.transport_arr_eq_ok.mpr ⟨txs', htxs', rfl⟩
  have htext : Json.stringify b.transactions = Json.stringify (.arr txs') := by
    rw [htxs, Json.stringify_transport _ _ harr, Option.elim_some]
  have hkept : b.difficulty.transport = b.difficulty := by
    cases hd : b.difficulty with
    | nan => exact absurd hd hdiff
    | _ => rfl
  refine ⟨{ b with transactions := .arr txs', isBlock := false }, ?_, ?_⟩
  · rw [Block.transport, htxs, harr, hkept]
    rfl
  · exact ⟨⟨rfl, rfl, rfl, rfl, rfl, rfl, htext⟩, txs, txs', htxs, rfl,
      Json.forall₂_sent hjson htxs'⟩

theorem exists_carried_chain {chain : List Block}
    (h : ∀ b ∈ chain, b.difficulty ≠ .nan ∧
      ∃ txs, b.transactions = .arr txs ∧ Json.ElemsJson txs) :
    ∃ chain', transportChain chain = .ok chain' ∧ List.Forall₂ Block.Carried chain chain' := by
  induction chain with
  | nil => exact ⟨[], rfl, .nil⟩
  | cons b chain ih =>
    obtain ⟨hdiff, txs, htxs, hjson⟩ := h b (by simp)
    obtain ⟨b', hb', hcarried⟩ := Block.exists_carried htxs hjson hdiff
    obtain ⟨chain', hchain', hrest⟩ := ih fun x hx => h x (by simp [hx])
    refine ⟨b' :: chain', ?_, .cons hcarried hrest⟩
    rw [transportChain, hb', ok_bind, hchain', ok_bind, pure_eq_ok]

/-! ### The functions of the node on what survives -/

/-- The fields of an object, whatever its class, as those of a transaction. -/
def Transaction.ofFields? : Val → Option Transaction
  | .obj _ fs => ofValue? (.obj (some .transaction) fs)
  | _         => none

/-- The two values have the same transaction hash, computed from their
    fields. -/
def SameTransactionHash (E : Env) (tx tx' : Val) : Prop :=
  ∀ t, Transaction.ofFields? tx = some t →
    ∃ t', Transaction.ofFields? tx' = some t' ∧ t'.calculateHash E = t.calculateHash E

/-- The fields of a transaction that was sent. -/
theorem Transaction.exists_ofFields? {tx tx' : Val} (h : Json.Sent tx tx') {t : Transaction}
    (ht : ofFields? tx = some t) :
    ∃ t', ofFields? tx' = some t' ∧ Json.Arrives t.fromAddress t'.fromAddress ∧
      Json.Arrives t.toAddress t'.toAddress ∧ Json.Arrives t.amount t'.amount ∧
      Json.Arrives t.signature t'.signature := by
  rcases h.cases with
    ⟨rfl, hprim⟩ | ⟨xs, ys, rfl, rfl, _⟩ | ⟨c, fs, gs, rfl, rfl, hnodup, hjson, hgs⟩
  · cases tx' with
    | obj c fs => exact hprim.elim
    | _ => cases ht
  · cases ht
  · cases ht
    have hfield := Json.arrives_field hnodup hjson hgs
    exact ⟨_, rfl, hfield _, hfield _, hfield _, hfield _⟩

theorem sameTransactionHash_of_sent {tx tx' : Val} (h : Json.Sent tx tx') :
    SameTransactionHash E tx tx' := by
  intro t ht
  obtain ⟨t', ht', hfrom, hto, hamount, _⟩ := Transaction.exists_ofFields? h ht
  refine ⟨t', ht', ?_⟩
  unfold Transaction.calculateHash
  simp only [Value.add, Json.Arrives.addWith_eq _ hfrom hto, Json.Arrives.addWith_right _ _ hamount]

/-- The hash of a block's own fields. -/
theorem Block.Agree.ownHash_eq {b b' : Block} (h : b.Agree b') :
    b'.ownHash E = b.ownHash E := by
  simp only [Block.ownHash, Block.calculateHash, Block.hashText, h.index, h.previousHash,
    h.timestamp, h.nonce, h.transactions]

theorem balanceAfter_of_sent (ρ : Number.Rounding) {tx tx' : Val} (h : Json.Sent tx tx')
    (address balance : Val) : Blockchain.balanceAfter ρ address balance tx' =
      Blockchain.balanceAfter ρ address balance tx := by
  unfold Blockchain.balanceAfter
  rcases h.get "fromAddress" with ⟨e, hfrom, hfrom'⟩ | ⟨a, a', hfrom, hfrom', ha⟩
  · simp only [hfrom, hfrom', error_bind]
  rcases h.get "toAddress" with ⟨e, hto, hto'⟩ | ⟨c, c', hto, hto', hc⟩
  · simp only [hfrom, hfrom', hto, hto', ok_bind, error_bind]
  rcases h.get "amount" with ⟨e, hamount, hamount'⟩ | ⟨n, n', hamount, hamount', hn⟩
  · simp only [hfrom, hfrom', hto, hto', hamount, hamount', ok_bind, error_bind]
  · simp only [hfrom, hfrom', hto, hto', hamount, hamount', ok_bind, ha.strictEquals_eq,
      hc.strictEquals_eq, hn.subWith_right, hn.addWith_right]

theorem balanceOverTransactions_of_sent (ρ : Number.Rounding) {txs txs' : List Val}
    (h : List.Forall₂ Json.Sent txs txs') (address balance : Val) :
    Blockchain.balanceOverTransactions ρ address balance txs' =
      Blockchain.balanceOverTransactions ρ address balance txs := by
  unfold Blockchain.balanceOverTransactions
  induction h generalizing balance with
  | nil => rfl
  | cons htx _ ih =>
    simp only [List.foldlM_cons, balanceAfter_of_sent ρ htx, ih]

theorem balanceOverBlocks_of_carried (ρ : Number.Rounding) {chain chain' : List Block}
    (h : List.Forall₂ Block.Carried chain chain') (address balance : Val) :
    Blockchain.balanceOverBlocks ρ address balance chain' =
      Blockchain.balanceOverBlocks ρ address balance chain := by
  unfold Blockchain.balanceOverBlocks
  induction h generalizing balance with
  | nil => rfl
  | cons hb _ ih =>
    obtain ⟨txs, txs', htxs, htxs', hsent⟩ := hb.list
    have hiterate (xs : List Val) : (Value.arr xs : Val).iterate = .ok xs := rfl
    simp only [List.foldlM_cons, htxs, htxs', hiterate, ok_bind,
      balanceOverTransactions_of_sent ρ hsent, ih]

theorem latestBlock_of_carried {chain chain' : List Block}
    (h : List.Forall₂ Block.Carried chain chain') :
    (∃ e, latestBlock chain = .error e ∧ latestBlock chain' = .error e) ∨
    ∃ b b', latestBlock chain = .ok b ∧ latestBlock chain' = .ok b' ∧ b.Agree b' := by
  have hagree : List.Forall₂ Block.Agree chain chain' := h.imp fun _ _ hb => hb.toAgree
  by_cases hnil : chain = []
  · subst hnil
    cases h
    exact .inl ⟨_, rfl, rfl⟩
  · obtain ⟨b, hb⟩ := Option.ne_none_iff_exists'.mp (mt List.getLast?_eq_none_iff.mp hnil)
    obtain ⟨b', hb', hbb'⟩ := agree_getElem? hagree (List.getLast?_eq_getElem? ▸ hb)
    rw [h.length_eq, ← List.getLast?_eq_getElem?] at hb'
    exact .inr ⟨b, b', latestBlock_eq_ok.mpr hb, latestBlock_eq_ok.mpr hb', hbb'⟩

theorem minePendingBlock_of_carried {bc bc' : Blockchain E}
    (h : List.Forall₂ Block.Carried bc.chain bc'.chain)
    (hpending : bc'.pendingTransactions = bc.pendingTransactions) (date : Int) (fuel : Nat) :
    bc'.minePendingBlock date fuel = bc.minePendingBlock date fuel := by
  have hdiff : getDifficulty bc.chain = getDifficulty bc'.chain :=
    getDifficulty_congr (h.imp fun _ _ hb => hb.toAgree)
  unfold Blockchain.minePendingBlock
  rcases latestBlock_of_carried h with ⟨e, hb, hb'⟩ | ⟨b, b', hb, hb', hagree⟩
  · simp only [hb, hb']
  · simp only [hb, hb', hdiff, hpending]
    cases getDifficulty bc'.chain with
    | error e => rfl
    | ok difficulty => simp only [hagree.hash]

theorem addBlock_of_carried {bc bc' : Blockchain E}
    (h : List.Forall₂ Block.Carried bc.chain bc'.chain) (newBlock : Block) (fuel : Nat) :
    (bc'.addBlock newBlock fuel).map Prod.fst = (bc.addBlock newBlock fuel).map Prod.fst := by
  have hdiff : getDifficulty bc.chain = getDifficulty bc'.chain :=
    getDifficulty_congr (h.imp fun _ _ hb => hb.toAgree)
  unfold Blockchain.addBlock
  rcases latestBlock_of_carried h with ⟨e, hb, hb'⟩ | ⟨b, b', hb, hb', hagree⟩
  · simp only [hb, hb', Option.map_some]
  · simp only [hb, hb', hdiff]
    cases getDifficulty bc'.chain with
    | error e => rfl
    | ok difficulty =>
      simp only [hagree.hash, hagree.index]
      split
      · rfl
      · split <;> rfl

/-- **The same next block**: mining reads index and hash of the latest block
    and the difficulty. -/
theorem minePendingTransactions_of_carried {bc bc' : Blockchain E}
    (h : List.Forall₂ Block.Carried bc.chain bc'.chain)
    (hbc : bc' = { bc with chain := bc'.chain }) (address : Val) (date : Int) (fuel : Nat) :
    (bc'.minePendingTransactions address date fuel).map Prod.fst =
      (bc.minePendingTransactions address date fuel).map Prod.fst := by
  have hcoin : bc'.coinBaseTransaction address = bc.coinBaseTransaction address := by
    rw [hbc]
    rfl
  have hpending : bc'.pendingTransactions = bc.pendingTransactions := by rw [hbc]
  unfold Blockchain.minePendingTransactions
  rw [hcoin]
  cases bc.coinBaseTransaction address with
  | error e => rfl
  | ok coinBase =>
    -- the coinbase is pushed on both sides, and the chains stay what they are
    have hpushed : List.Forall₂ Block.Carried (bc.createTransaction coinBase.toValue).chain
        (bc'.createTransaction coinBase.toValue).chain := h
    have hblock := minePendingBlock_of_carried hpushed
      (by simp only [Blockchain.createTransaction, hpending]) date fuel
    simp only [hblock]
    rcases (bc.createTransaction coinBase.toValue).minePendingBlock date fuel with
      _ | (e | block)
    · rfl
    · rfl
    · have hadd := addBlock_of_carried hpushed block fuel
      cases hr : (bc.createTransaction coinBase.toValue).addBlock block fuel with
      | none =>
        rw [hr, Option.map_none, Option.map_eq_none_iff] at hadd
        simp only [hr, hadd]
      | some result =>
        rw [hr, Option.map_some, Option.map_eq_some_iff] at hadd
        obtain ⟨result', hr', heq⟩ := hadd
        obtain ⟨r, bc₁⟩ := result
        obtain ⟨r', bc₂⟩ := result'
        obtain rfl : r' = r := heq
        simp only [hr, hr']
        cases r' <;> rfl

/-! ### Runs on JSON values -/

/-- The calls other than `addBlock`, with transactions and reward addresses
    that JSON can carry; an address may be missing. -/
def Op.isJsonOp : Op → Prop
  | .createTransaction tx => Json.IsJson tx
  | .addTransaction tx => Json.IsJson tx
  | .minePendingTransactions address _ _ => Json.IsJson address ∨ address = .undefined
  | .addBlock _ _ _ _ => False

/-- The runs of such calls. -/
def jsonSystem (E : Env) (keyPair : Option E.KeyPair) : System (Blockchain E) Op :=
  (chainSystem E keyPair).restrict fun _ op => op.isJsonOp

theorem Op.isJsonOp.byClock {op : Op} (h : op.isJsonOp) : op.byClock fun _ => True := by
  cases op with
  | addBlock => exact h.elim
  | _ => trivial

theorem Transaction.keys_inOrder : Value.InOrder
    ["id", "txIns", "txOuts", "fromAddress", "toAddress", "amount", "signature"] := by
  decide

theorem newTxOut_keys_inOrder : Value.InOrder ["address", "amount"] := by
  decide

/-- A coinbase is made of its address and of what JSON can carry. -/
theorem coinBase_isJson {bc : Blockchain E} {address : Val} {coinBase : Transaction}
    (haddress : Json.IsJson address ∨ address = .undefined)
    (h : bc.coinBaseTransaction address = .ok coinBase) : Json.IsJson coinBase.toValue := by
  obtain ⟨signature, rfl⟩ := coinBase_eq h
  simp [Transaction.toValue, Transaction.new, newTxOut, Json.IsJson, Json.ElemsJson,
    Json.FieldsJson, haddress, Transaction.keys_inOrder, newTxOut_keys_inOrder]

/-- All transactions of the object are values that JSON can carry. -/
structure JsonInv (bc : Blockchain E) : Prop where
  pending : ∀ tx ∈ bc.pendingTransactions, Json.IsJson tx
  blocks  : ∀ b ∈ bc.chain, ∃ txs, b.transactions = .arr txs ∧ Json.ElemsJson txs

/-- **Step lemma**. -/
theorem JsonInv.step {bc bc' : Blockchain E} {op : Op} {r : Result Unit} (h : JsonInv bc)
    (hop : op.isJsonOp) (hexec : op.exec bc = some (r, bc')) : JsonInv bc' := by
  cases Op.exec_outcome hexec with
  | unchanged => exact h
  | created tx => exact ⟨Blockchain.forall_mem_createTransaction.mpr ⟨h.pending, hop⟩, h.blocks⟩
  | accepted tx =>
    exact ⟨Blockchain.forall_mem_createTransaction.mpr ⟨h.pending, hop⟩, h.blocks⟩
  | appended => exact hop.elim
  | stranded address date fuel coinBase e hcoin =>
    have hjson := coinBase_isJson hop hcoin
    exact ⟨Blockchain.forall_mem_createTransaction.mpr ⟨h.pending, hjson⟩, h.blocks⟩
  | mined address date fuel coinBase b hcoin hmined htime htxs =>
    have hjson := coinBase_isJson hop hcoin
    refine ⟨by simp, List.forall_mem_append.mpr ⟨h.blocks, ?_⟩⟩
    refine List.forall_mem_singleton.mpr ⟨_, htxs, Json.elemsJson_iff.mpr ?_⟩
    exact List.forall_mem_append.mpr ⟨h.pending, List.forall_mem_singleton.mpr hjson⟩

theorem jsonInv_of_reachable {keyPair : Option E.KeyPair} {bc : Blockchain E}
    (h : Reachable (jsonSystem E keyPair) bc) : JsonInv bc := by
  refine h.invariant_from (fun _ hs => hs) ?_ ?_
  · refine ⟨by simp [Blockchain.new], ?_⟩
    simp [Blockchain.new, createGenesisBlock, Block.new, Json.ElemsJson]
  · intro s op s' hinv hstep
    obtain ⟨hop, r, hexec⟩ := hstep
    exact hinv.step hop hexec

/-- No block of a grown chain has the difficulty `NaN`, which JSON would turn
    into `null`. -/
theorem grown_difficulty_ne_nan {chain : List Block}
    (h : Grown (MinedOn E) [createGenesisBlock] chain) : ∀ b ∈ chain, b.difficulty ≠ .nan := by
  intro b hb
  obtain ⟨i, hi⟩ := List.mem_iff_getElem?.mp hb
  by_cases hpos : 1 ≤ i
  · obtain ⟨d, _, hd⟩ := (grown_difficulty h).1 i b hpos hi
    rw [hd]
    exact fun hnan => by cases hnan
  · obtain ⟨rest, rfl⟩ := h.prefix_base
    obtain rfl : i = 0 := by omega
    obtain rfl : createGenesisBlock = b := by simpa using hi
    exact fun hnan => by cases hnan

/-- The whole chain goes through JSON as its blocks do. -/
theorem transport_chain_toValue {chain chain' : List Block}
    (hlists : ∀ b ∈ chain, ∃ txs, b.transactions = .arr txs ∧ Json.ElemsJson txs)
    (h : transportChain chain = .ok chain') :
    Json.transport (.arr (chain.map Block.toValue)) =
      .ok (some (.arr (chain'.map Block.toValue))) := by
  refine Json.transport_arr_eq_ok.mpr ⟨_, ?_, rfl⟩
  induction chain generalizing chain' with
  | nil =>
    cases h
    rfl
  | cons b chain ih =>
    obtain ⟨b', hb', h⟩ := bind_eq_ok.mp h
    obtain ⟨rest, hrest, h⟩ := bind_eq_ok.mp h
    cases h
    obtain ⟨txs, htxs, _⟩ := hlists b (by simp)
    have hvalue := Block.transport_toValue htxs
    rw [hb'] at hvalue
    exact Json.transportElems_cons_eq_ok.mpr
      ⟨_, _, hvalue, ih (fun x hx => hlists x (by simp [hx])) hrest, rfl⟩

theorem Block.keys_inOrder (b : Block) : Value.InOrder (b.fields.map Prod.fst) := by
  have hall : Value.InOrder ["index", "hash", "previousHash", "timestamp", "transactions",
    "nonce", "difficulty"] := by decide
  unfold Block.fields
  cases b.difficulty with
  | undefined => exact hall.sublist (by simp [Difficulty.fields])
  | _ => exact hall

theorem Block.keysInOrder {b : Block} {txs : List Val} (htxs : b.transactions = .arr txs)
    (hjson : Json.ElemsJson txs) : Json.KeysInOrder b.toValue := by
  have htime : Json.KeysInOrder b.timestamp.toValue := by
    cases b.timestamp <;> simp [Timestamp.toValue, Json.KeysInOrder]
  have hdiff : Json.FieldsInOrder b.difficulty.fields := by
    cases b.difficulty <;> simp [Difficulty.fields, Json.FieldsInOrder, Json.KeysInOrder]
  rw [Block.toValue, Json.KeysInOrder]
  refine ⟨b.keys_inOrder, ?_⟩
  simp [Block.fields, Json.FieldsInOrder, Json.KeysInOrder, htxs, htime, hjson.elemsInOrder,
    hdiff]

/-- The text of a chain is read as the chain that arrives. -/
theorem parse_chain {chain chain' : List Block}
    (hlists : ∀ b ∈ chain, ∃ txs, b.transactions = .arr txs ∧ Json.ElemsJson txs)
    (h : transportChain chain = .ok chain') :
    ∃ text, Json.stringify (.arr (chain.map Block.toValue)) = .ok (some text) ∧
      Json.parse text = some (Value.arr (chain'.map Block.toValue) : Val) := by
  refine Json.parse_stringify ?_ (transport_chain_toValue hlists h)
  rw [Json.KeysInOrder, Json.elemsInOrder_iff]
  intro v hv
  obtain ⟨b, hb, rfl⟩ := List.mem_map.mp hv
  obtain ⟨txs, htxs, hjson⟩ := hlists b hb
  exact Block.keysInOrder htxs hjson

/-! ### The same meaning -/

/-- The two chains give the same hashes, difficulty, balances and next
    blocks. -/
structure SameMeaning (E : Env) (chain chain' : List Block) : Prop where
  /-- After the genesis block, the stored hash is the one that was sent, and
      it is the hash recomputed from the fields that arrived. -/
  blockHash : ∀ i b', 1 ≤ i → chain'[i]? = some b' →
    b'.ownHash E = .ok b'.hash ∧ ∃ b, chain[i]? = some b ∧ b.hash = b'.hash
  /-- So is the hash of every transaction. -/
  transactionHash : List.Forall₂ (fun b b' => ∃ txs txs', b.transactions = .arr txs ∧
    b'.transactions = .arr txs' ∧ List.Forall₂ (SameTransactionHash E) txs txs') chain chain'
  difficulty : getDifficulty chain' = getDifficulty chain
  balance : ∀ ρ address, Blockchain.getBalanceOfAddress ρ chain' address =
    Blockchain.getBalanceOfAddress ρ chain address
  /-- A node that has the one chain or the other, with the same pending
      transactions, key and reward, mines the same block or fails alike. -/
  nextBlock : ∀ bc bc' : Blockchain E, bc.chain = chain → bc' = { bc with chain := chain' } →
    ∀ address date fuel, (bc'.minePendingTransactions address date fuel).map Prod.fst =
      (bc.minePendingTransactions address date fuel).map Prod.fst

theorem sameMeaning_of_carried {chain chain' : List Block}
    (hgrown : Grown (MinedOn E) [createGenesisBlock] chain)
    (h : List.Forall₂ Block.Carried chain chain') : SameMeaning E chain chain' where
  blockHash := by
    intro i b' hi hb'
    have hlt : i < chain.length := by
      rw [h.length_eq]
      exact (List.getElem?_eq_some_iff.mp hb').1
    have hb : chain[i]? = some (chain.get ⟨i, hlt⟩) := by simp
    obtain ⟨x, hx, hagree⟩ := agree_getElem? (h.imp fun _ _ hb => hb.toAgree) hb
    obtain rfl : x = b' := Option.some.inj (hx.symm.trans hb')
    have hmined := hgrown.getElem hi hb
    exact ⟨by rw [hagree.ownHash_eq, hmined.hash, hagree.hash], _, hb, hagree.hash⟩
  transactionHash := by
    refine h.imp fun b b' hb => ?_
    obtain ⟨txs, txs', htxs, htxs', hsent⟩ := hb.list
    exact ⟨txs, txs', htxs, htxs', hsent.imp fun _ _ hs => sameTransactionHash_of_sent hs⟩
  difficulty := (getDifficulty_congr (h.imp fun _ _ hb => hb.toAgree)).symm
  balance := fun ρ address => balanceOverBlocks_of_carried ρ h address (.num 0)
  nextBlock := by
    rintro bc bc' rfl rfl address date fuel
    exact minePendingTransactions_of_carried h rfl address date fuel

/-- **Chains mean the same after transport.** A chain reached by
    `createTransaction`, `addTransaction` and `minePendingTransactions` on
    values that JSON can carry, fields left `undefined` by the constructor
    included, has a JSON text, and the chain that is read from this text has
    the same meaning. -/
theorem transport_sameMeaning {keyPair : Option E.KeyPair} {bc : Blockchain E}
    (h : Reachable (jsonSystem E keyPair) bc) :
    ∃ text chain', Json.stringify (.arr (bc.chain.map Block.toValue)) = .ok (some text) ∧
      Json.parse text = some (Value.arr (chain'.map Block.toValue) : Val) ∧
      transportChain bc.chain = .ok chain' ∧ SameMeaning E bc.chain chain' := by
  have hinv := jsonInv_of_reachable h
  have hgrown := grown_of_reachable h.of_restrict
  have hdiff := grown_difficulty_ne_nan hgrown
  obtain ⟨chain', hchain', hcarried⟩ :=
    exists_carried_chain fun b hb => ⟨hdiff b hb, hinv.blocks b hb⟩
  obtain ⟨text, htext, hparse⟩ := parse_chain hinv.blocks hchain'
  exact ⟨text, chain', htext, hparse, hchain', sameMeaning_of_carried hgrown hcarried⟩

/-- The calls of a node that was asked for a payment, mined it and was asked
    for another: the constructor leaves three fields `undefined`. -/
def jsonOps : List Op :=
  let tx := (Transaction.new (.str "alice") (.str "bob") (.num 5)
    .undefined .undefined .undefined).toValue
  [.createTransaction tx, .minePendingTransactions (.str "miner") 7 1, .createTransaction tx]

theorem transport_sameMeaning_one_block :
    ∃ bc, Reachable (jsonSystem demoEnv (some ())) bc ∧ bc.chain.length = 2 ∧
      ∃ text chain', Json.stringify (.arr (bc.chain.map Block.toValue)) = .ok (some text) ∧
        Json.parse text = some (Value.arr (chain'.map Block.toValue) : Val) ∧
        transportChain bc.chain = .ok chain' ∧ SameMeaning demoEnv bc.chain chain' := by
  have hfinal : (execAll (Blockchain.new demoEnv (some ())) jsonOps).map
      (fun bc => bc.chain.length) = some 2 := by
    decide +kernel
  obtain ⟨bc, hrun, hlength⟩ := Option.map_eq_some_iff.mp hfinal
  obtain ⟨tr, htr, _⟩ := run_of_execAll (some ()) (fun _ op => op.isJsonOp)
    (by simp [jsonOps, Op.isJsonOp, Transaction.toValue, Transaction.new, Json.IsJson,
      Json.FieldsJson, Transaction.keys_inOrder]) hrun
  have hreach : Reachable (jsonSystem demoEnv (some ())) bc := htr.reachable (.init rfl)
  exact ⟨bc, hreach, hlength, transport_sameMeaning hreach⟩

/-- The genesis block is never mined: it stores the empty string, and its
    fields have another hash, before transport and after it. -/
theorem genesis_hash_not_recomputed :
    ∃ bc chain' b', Reachable (jsonSystem demoEnv (some ())) bc ∧
      transportChain bc.chain = .ok chain' ∧ chain'[0]? = some b' ∧
      b'.ownHash demoEnv = .ok "0" ∧ b'.hash = "" := by
  exact ⟨.new demoEnv (some ()), _, _, .init rfl, rfl, rfl, by decide +kernel, rfl⟩

end XCoin
