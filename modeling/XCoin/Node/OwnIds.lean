import XCoin.Chain.Balance
import XCoin.Chain.Tamper
import XCoin.Node.Coinbase

/-! # Ids on transactions of the chain

    `/transactionRequest` computes the id of a transaction and stores it.
    `minePendingTransactions` computes the id of its coinbase too, but only
    prints it: the coinbase keeps the id `null` it was constructed with.

    The computed id would not tell coinbases apart either.  The parameter
    `blockHeight` is there to do that, and no caller passes it, so all
    coinbases for one address hash the same text.
-/

namespace XCoin

open Js LTS Throwing

variable {E : Env} {ι : Type}

/-! ### Own ids -/

/-- The transaction has an id, and it is the one `getTransactionId` computes;
    coinbases are the transactions without a sender. -/
def CarriesOwnId (E : Env) (tx : Val) : Prop :=
  ∃ t id, Transaction.ofValue? tx = some t ∧ t.id = .str id ∧
    t.getTransactionId E (Transaction.isNull t.fromAddress) "" = .ok id

/-- All transactions of a chain carry their own ids, and coinbases of
    different blocks carry different ones. -/
structure OwnIds (E : Env) (chain : List Block) : Prop where
  own      : ∀ b ∈ chain, ∀ tx ∈ b.transactionList, CarriesOwnId E tx
  distinct : ∀ (i j : Nat) (b b' : Block) (tx tx' : Val), i ≠ j → chain[i]? = some b →
    chain[j]? = some b' → tx ∈ b.transactionList → tx' ∈ b'.transactionList →
    isField "fromAddress" .null tx = true → isField "fromAddress" .null tx' = true →
    tx.get "id" ≠ tx'.get "id"

theorem ownIds_genesis : OwnIds E [createGenesisBlock] where
  own := by
    intro b hb tx htx
    rw [List.mem_singleton.mp hb] at htx
    cases htx
  distinct := by
    intro i j b b' tx tx' _ hi _ htx
    rw [List.mem_singleton.mp (List.mem_of_getElem? hi)] at htx
    cases htx

/-- A requested transaction carries its own id: sender and signature are not
    part of what the id hashes. -/
theorem carriesOwnId_requested {cfg : Config E ι} {receiver amount : Val} {tx : Transaction}
    (h : Node.requestedTransaction cfg receiver amount = .ok tx) : CarriesOwnId E tx.toValue := by
  obtain ⟨id, hid, h⟩ := bind_eq_ok.mp h
  obtain ⟨_, _, _, _, _, rfl⟩ := Transaction.signTransaction_cases h
  exact ⟨_, id, rfl, rfl, hid⟩

/-- A coinbase does not. -/
theorem not_carriesOwnId_coinBase {bc : Blockchain E} {address : Val} {coinBase : Transaction}
    (h : bc.coinBaseTransaction address = .ok coinBase) : ¬ CarriesOwnId E coinBase.toValue := by
  obtain ⟨signature, rfl⟩ := coinBase_eq h
  rintro ⟨t, id, ht, hid, _⟩
  cases ht
  cases hid

/-- Coinbases that pay the same to one address have the same computed id,
    whatever chain they are made for. -/
theorem coinBase_ids_agree {bc bc' : Blockchain E} {address : Val}
    {coinBase coinBase' : Transaction} (h : bc.coinBaseTransaction address = .ok coinBase)
    (h' : bc'.coinBaseTransaction address = .ok coinBase')
    (hreward : bc'.miningReward = bc.miningReward) :
    coinBase'.getTransactionId E true "" = coinBase.getTransactionId E true "" := by
  obtain ⟨signature, rfl⟩ := coinBase_eq h
  obtain ⟨signature', rfl⟩ := coinBase_eq h'
  rw [hreward]
  rfl

/-! ### Runs of requests and minings -/

/-- `addTransaction` of what some node made for a `/transactionRequest`, and
    `minePendingTransactions`. -/
def Op.isRequestOrMine (E : Env) (ι : Type) : Op → Prop
  | .addTransaction tx => ∃ (cfg : Config E ι) (receiver amount : Val) (t : Transaction),
      Node.requestedTransaction cfg receiver amount = .ok t ∧ tx = t.toValue
  | .minePendingTransactions _ _ _ => True
  | _ => False

/-- The runs of these calls. -/
def requestMineSystem (E : Env) (ι : Type) (keyPair : Option E.KeyPair) :
    System (Blockchain E) Op :=
  (chainSystem E keyPair).restrict fun _ op => op.isRequestOrMine E ι

theorem Op.isRequestOrMine.byClock {op : Op} (h : op.isRequestOrMine E ι) :
    op.byClock fun _ => True := by
  cases op with
  | createTransaction tx => exact h.elim
  | addBlock => exact h.elim
  | _ => trivial

/-- The call is no mining that can be carried out. -/
def Op.minesNothing (bc : Blockchain E) : Op → Prop
  | .minePendingTransactions address _ _ => ¬ bc.CanMine address
  | _ => True

/-- **Step lemma**: the ids stay in order exactly if nothing is mined. -/
theorem ownIds_step_iff {bc bc' : Blockchain E} {op : Op} {r : Result Unit}
    (hop : op.isRequestOrMine E ι) (hexec : op.exec bc = some (r, bc')) :
    OwnIds E bc'.chain ↔ OwnIds E bc.chain ∧ op.minesNothing bc := by
  cases Op.exec_outcome hexec with
  | unchanged op e hthrows =>
    refine (and_iff_left ?_).symm
    cases op with
    | minePendingTransactions address date fuel => exact hthrows address date fuel rfl
    | _ => trivial
  | created => exact hop.elim
  | accepted tx => exact (and_iff_left trivial).symm
  | appended => exact hop.elim
  | stranded address date fuel coinBase e hcoin hthrows => exact (and_iff_left hthrows).symm
  | mined address date fuel coinBase b hcoin hmined htime htxs =>
    -- the new block ends with a coinbase, which has no id
    refine iff_of_false ?_ ?_
    · intro hown
      refine not_carriesOwnId_coinBase hcoin (hown.own b ?_ _ ?_)
      · exact List.mem_append_right _ (List.mem_singleton_self b)
      · rw [Block.transactionList_of_arr htxs]
        exact List.mem_append_right _ (List.mem_singleton_self _)
    · intro hgood
      exact hgood.2 ⟨coinBase, hcoin, htxs ▸ hmined.miningReady⟩

/-- **Which runs keep ids.** After any run of requests and minings the
    transactions of the chain that have a sender carry their own ids.  All of
    them do, coinbases included and distinct, if and only if no call of
    `minePendingTransactions` could be carried out, so that nothing was
    mined. -/
theorem own_ids_iff {keyPair : Option E.KeyPair} {bc : Blockchain E}
    {tr : List (Transition (Blockchain E) Op)}
    (h : Run (requestMineSystem E ι keyPair) (.new E keyPair) tr bc) :
    (∀ b ∈ bc.chain, ∀ tx ∈ b.transactionList,
      isField "fromAddress" .null tx = false → CarriesOwnId E tx) ∧
    (OwnIds E bc.chain ↔ ∀ x ∈ tr, x.label.minesNothing x.pre) := by
  refine ⟨?_, ?_⟩
  · intro b hb tx htx hsender
    have hqueue : Run (queueSystem E keyPair) (.new E keyPair) tr bc :=
      h.restrict_mono fun _ _ hop => hop.byClock
    rcases mem_block_of_run hqueue hb htx with haccepted | ⟨_, _, _, hcoin, rfl⟩
    · obtain ⟨x, hx, haccepted⟩ := List.mem_flatMap.mp haccepted
      have hop := (h.transition_mem (.init rfl) hx).2.1
      rcases Op.mem_accepted haccepted with hlabel | ⟨hlabel, _⟩
      · rw [hlabel] at hop
        exact hop.elim
      · rw [hlabel] at hop
        obtain ⟨cfg, receiver, amount, t, hrequested, rfl⟩ := hop
        exact carriesOwnId_requested hrequested
    · -- a coinbase has no sender
      obtain ⟨signature, rfl⟩ := coinBase_eq hcoin
      cases hsender
  · induction h with
    | nil => exact iff_of_true ownIds_genesis (by simp)
    | snoc op hrun hstep ih =>
      obtain ⟨hop, r, hexec⟩ := hstep
      rw [ownIds_step_iff hop hexec, ih, List.forall_mem_append, List.forall_mem_singleton]

/-! ### Two blocks for one miner -/

/-- The equivalence on a run that requests a transaction and mines it. -/
theorem own_ids_iff_one_block :
    ∃ (tr : List (Transition (Blockchain demoEnv) Op)) (bc : Blockchain demoEnv),
      Run (requestMineSystem demoEnv Bool (some ())) (.new demoEnv (some ())) tr bc ∧
      bc.chain.map (·.transactionList.length) = [0, 2] ∧
      (∀ b ∈ bc.chain, ∀ tx ∈ b.transactionList,
        isField "fromAddress" .null tx = false → CarriesOwnId demoEnv tx) ∧
      (OwnIds demoEnv bc.chain ↔ ∀ x ∈ tr, x.label.minesNothing x.pre) := by
  have hfinal : ((Node.requestedTransaction (demoConfig false) (.str "bob") (.num 5)).toOption.bind
      fun tx => (execAll (Blockchain.new demoEnv (some ()))
        [.addTransaction tx.toValue, .minePendingTransactions (.str "miner") 7 1]).map fun bc =>
          bc.chain.map (·.transactionList.length)) = some [0, 2] := by
    decide +kernel
  obtain ⟨tx, htx, hfinal⟩ := Option.bind_eq_some_iff.mp hfinal
  obtain ⟨bc, hrun, hlengths⟩ := Option.map_eq_some_iff.mp hfinal
  have hallowed : ∀ op ∈ [Op.addTransaction tx.toValue,
      .minePendingTransactions (.str "miner") 7 1], op.isRequestOrMine demoEnv Bool := by
    simp only [List.forall_mem_cons, Op.isRequestOrMine]
    exact ⟨⟨_, _, _, tx, toOption_eq_some.mp htx, rfl⟩, trivial, by simp⟩
  obtain ⟨tr, htr, _⟩ := run_of_execAll (some ()) (fun _ op => op.isRequestOrMine demoEnv Bool)
    (fun _ => hallowed) hrun
  exact ⟨tr, bc, htr, hlengths, own_ids_iff htr⟩

/-- **Coinbases without ids.** Two calls of `minePendingTransactions` for one
    address, with hashes that do not collide: the coinbases of both blocks
    have the id `null`, and the ids computed for them are the same. -/
theorem coinBases_without_ids :
    Function.Injective (fun t : String => hexEnv.SHA256 (.str t)) ∧
    ∃ tr bc b b', ∃ coinBase coinBase' : Transaction,
      Run (requestMineSystem hexEnv Bool (some ())) (.new hexEnv (some ())) tr bc ∧
      tr.map (·.label) = [.minePendingTransactions (.str "miner") 7 1,
        .minePendingTransactions (.str "miner") 9 1] ∧
      bc.chain = [createGenesisBlock, b, b'] ∧
      b.transactions = .arr [coinBase.toValue] ∧ b'.transactions = .arr [coinBase'.toValue] ∧
      coinBase.id = .null ∧ coinBase'.id = .null ∧
      coinBase'.getTransactionId hexEnv true "" = coinBase.getTransactionId hexEnv true "" ∧
      ¬ OwnIds hexEnv bc.chain := by
  refine ⟨hexEnv_injective, ?_⟩
  let bc₀ : Blockchain hexEnv := .new hexEnv (some ())
  obtain ⟨coinBase, b, hcoin, hmined, _, htxs, hfirst⟩ :=
    hexEnv_mine_step bc₀ rfl rfl rfl getDifficulty_genesis 7
  let bc₁ : Blockchain hexEnv := { bc₀ with chain := bc₀.chain ++ [b], pendingTransactions := [] }
  -- the second block is no retarget, so the difficulty is still 1
  have hdiff : getDifficulty bc₁.chain = .ok (.int 1) := by
    have hone : b.difficulty = .int 1 :=
      Except.ok.inj (hmined.difficulty.symm.trans getDifficulty_genesis)
    have hreach : Reachable (chainSystem hexEnv (some ())) bc₁ := .step _ (.init rfl) ⟨_, hfirst⟩
    exact getDifficulty_append_keep (grown_of_reachable hreach) (by decide) hone
  obtain ⟨coinBase', b', hcoin', _, _, htxs', hsecond⟩ :=
    hexEnv_mine_step bc₁ rfl rfl rfl hdiff 9
  have hstep : (requestMineSystem hexEnv Bool (some ())).step bc₀
      (.minePendingTransactions (.str "miner") 7 1) bc₁ := ⟨trivial, _, hfirst⟩
  have hstep' : (requestMineSystem hexEnv Bool (some ())).step bc₁
      (.minePendingTransactions (.str "miner") 9 1) _ := ⟨trivial, _, hsecond⟩
  obtain ⟨_, hid⟩ := coinBase_eq hcoin
  obtain ⟨_, hid'⟩ := coinBase_eq hcoin'
  refine ⟨_, _, b, b', coinBase, coinBase', .cons hstep (.cons hstep' .nil), rfl, rfl, htxs, htxs',
    by rw [hid]; rfl, by rw [hid']; rfl, coinBase_ids_agree hcoin hcoin' rfl, ?_⟩
  intro hown
  refine not_carriesOwnId_coinBase hcoin (hown.own b ?_ _ ?_)
  · exact List.mem_append_left _ (List.mem_append_right _ (List.mem_singleton_self b))
  · rw [Block.transactionList_of_arr htxs]
    exact List.mem_singleton_self _

end XCoin
