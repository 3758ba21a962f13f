import XCoin.Chain.Mining

/-! # What was submitted is kept

    Every transaction that enters the pending list stays behind everything
    that entered before it, first in the pending list and later in a block.
    So the transaction lists of the mined blocks, followed by the pending
    list, are the record of all calls that pushed something: the accepted
    submissions, and between them the coinbases that `minePendingTransactions`
    pushed, whether or not the mining then succeeded.

    `Op.pushed` says what one call pushes, as a function of the object before
    the call; the step lemma is `history_step`.
-/

namespace XCoin

open Js LTS AppendLog

variable {E : Env}

/-! ### What a call pushes -/

/-- An entry of the pending list, with the call it came from: was it pushed
    as the coinbase of a mining call? -/
structure Entry where
  value      : Val
  isCoinBase : Bool

/-- The transactions a call accepts. -/
def Op.accepted (bc : Blockchain E) : Op → List Val
  | .createTransaction tx => [tx]
  | .addTransaction tx =>
      match (bc.addTransaction tx).1 with
      | .ok _    => [tx]
      | .error _ => []
  | _ => []

/-- The coinbase a call pushes. -/
def Op.coinBases (bc : Blockchain E) : Op → List Val
  | .minePendingTransactions address _ _ =>
      match bc.coinBaseTransaction address with
      | .ok coinBase => [coinBase.toValue]
      | .error _     => []
  | _ => []

/-- Everything a call pushes to the pending list. -/
def Op.pushed (bc : Blockchain E) (op : Op) : List Entry :=
  (op.accepted bc).map (⟨·, false⟩) ++ (op.coinBases bc).map (⟨·, true⟩)

/-- The transactions accepted along a run, in order. -/
def accepted (tr : List (Transition (Blockchain E) Op)) : List Val :=
  tr.flatMap fun x => x.label.accepted x.pre

/-- Everything pushed along a run, in order. -/
def pushed (tr : List (Transition (Blockchain E) Op)) : List Entry :=
  tr.flatMap fun x => x.label.pushed x.pre

/-- What is left of the entries when the coinbases are removed. -/
def withoutCoinBases (entries : List Entry) : List Val :=
  (entries.filter fun e => !e.isCoinBase).map Entry.value

@[simp] theorem withoutCoinBases_append (l₁ l₂ : List Entry) :
    withoutCoinBases (l₁ ++ l₂) = withoutCoinBases l₁ ++ withoutCoinBases l₂ := by
  simp [withoutCoinBases]

theorem Op.withoutCoinBases_pushed (bc : Blockchain E) (op : Op) :
    withoutCoinBases (op.pushed bc) = op.accepted bc := by
  simp [withoutCoinBases, Op.pushed, List.filter_map, Function.comp_def]

/-- The entries of a run that are not coinbases are the accepted ones. -/
theorem withoutCoinBases_pushed (tr : List (Transition (Blockchain E) Op)) :
    withoutCoinBases (pushed tr) = accepted tr := by
  induction tr with
  | nil => simp [pushed, accepted, withoutCoinBases]
  | cons x tr ih =>
    have hhead := Op.withoutCoinBases_pushed x.pre x.label
    simp only [pushed, accepted, List.flatMap_cons, withoutCoinBases_append] at ih ⊢
    rw [hhead, ih]

/-- Where an accepted transaction comes from. -/
theorem Op.mem_accepted {bc : Blockchain E} {op : Op} {tx : Val} (h : tx ∈ op.accepted bc) :
    op = .createTransaction tx ∨ op = .addTransaction tx ∧ (bc.addTransaction tx).1 = .ok () := by
  cases op with
  | createTransaction tx' =>
    rw [List.mem_singleton.mp h]
    exact .inl rfl
  | addTransaction tx' =>
    simp only [Op.accepted] at h
    split at h
    · next hok =>
      rw [List.mem_singleton.mp h]
      exact .inr ⟨rfl, hok⟩
    · cases h
  | _ => cases h

/-- The coinbases a call pushes come from `coinBaseTransaction`. -/
theorem Op.exists_coinBase {bc : Blockchain E} {op : Op} {tx : Val} (h : tx ∈ op.coinBases bc) :
    ∃ address coinBase, bc.coinBaseTransaction address = .ok coinBase ∧
      tx = coinBase.toValue := by
  cases op with
  | minePendingTransactions address date fuel =>
    simp only [Op.coinBases] at h
    split at h
    · next coinBase hcoin => exact ⟨address, coinBase, hcoin, List.mem_singleton.mp h⟩
    · cases h
  | _ => cases h

/-- The entries of a run that are coinbases are those its calls pushed. -/
theorem coinBase_mem_pushed {tr : List (Transition (Blockchain E) Op)} {tx : Val} :
    ⟨tx, true⟩ ∈ pushed tr ↔ ∃ x ∈ tr, tx ∈ x.label.coinBases x.pre := by
  simp [pushed, Op.pushed]

/-! ### Where it is kept -/

/-- The transactions of a block, if they are an array. -/
def Block.transactionList (b : Block) : List Val :=
  match b.transactions with
  | .arr txs => txs
  | _        => []

theorem Block.transactionList_of_arr {b : Block} {txs : List Val}
    (h : b.transactions = .arr txs) : b.transactionList = txs := by
  simp [Block.transactionList, h]

/-- The transaction lists of `chain[1]`, `chain[2]`, … followed by the pending
    list. -/
def history (bc : Blockchain E) : List Val :=
  bc.chain.tail.flatMap Block.transactionList ++ bc.pendingTransactions

/-- Pushing to the pending list appends to the history. -/
theorem history_createTransaction (bc : Blockchain E) (tx : Val) :
    history (bc.createTransaction tx) = history bc ++ [tx] := by
  simp [history, Blockchain.createTransaction]

/-- Moving the pending list into a block, with one more transaction at its
    end, appends that transaction. -/
theorem history_mined {bc : Blockchain E} {b : Block} {tx : Val} (hne : bc.chain ≠ [])
    (htxs : b.transactions = .arr (bc.pendingTransactions ++ [tx])) :
    history { bc with chain := bc.chain ++ [b], pendingTransactions := [] } =
      history bc ++ [tx] := by
  have htail : (bc.chain ++ [b]).tail = bc.chain.tail ++ [b] := List.tail_append_of_ne_nil hne
  simp [history, htail, Block.transactionList_of_arr htxs]

/-- **Step lemma**: a call other than `addBlock` appends what it pushes to the
    history, however it ends. -/
theorem history_step {bc bc' : Blockchain E} {op : Op} {r : Result Unit} (hne : bc.chain ≠ [])
    (hop : op.byClock fun _ => True) (h : op.exec bc = some (r, bc')) :
    history bc' = history bc ++ (op.pushed bc).map Entry.value := by
  cases op with
  | createTransaction tx =>
    cases h
    exact history_createTransaction bc tx
  | addTransaction tx =>
    rcases bc.addTransaction_cases tx with ⟨e, hadd⟩ | ⟨_, hadd⟩
    · -- the transaction was refused, and the object is as before
      simp only [Op.exec, hadd, Option.some.injEq, Prod.mk.injEq] at h
      simp [Op.pushed, Op.accepted, Op.coinBases, hadd, ← h.2]
    · simp only [Op.exec, hadd, Option.some.injEq, Prod.mk.injEq] at h
      simp [Op.pushed, Op.accepted, Op.coinBases, hadd, ← h.2, history_createTransaction]
  | addBlock timestamp transactions previousHash fuel => exact hop.elim
  | minePendingTransactions address date fuel =>
    simp only [Op.exec, Option.map_eq_some_iff] at h
    obtain ⟨⟨q, s⟩, hmine, heq⟩ := h
    obtain ⟨_, rfl⟩ := Prod.mk.inj heq
    rcases Blockchain.minePendingTransactions_cases hmine with
      ⟨e, hcoin, _, hs⟩ | ⟨coinBase, hcoin, ⟨e, _, hs⟩ | ⟨b, _, _, _, htxs, hs⟩⟩
    · -- there was no coinbase to push
      simp [Op.pushed, Op.accepted, Op.coinBases, hcoin, hs]
    · -- mining threw: the coinbase stays pending
      simp [Op.pushed, Op.accepted, Op.coinBases, hcoin, hs, history_createTransaction]
    · rw [hs, history_mined hne htxs]
      simp [Op.pushed, Op.accepted, Op.coinBases, hcoin]

/-! ### Runs -/

/-- The runs of `createTransaction`, `addTransaction` and
    `minePendingTransactions`, on any clock. -/
def queueSystem (E : Env) (keyPair : Option E.KeyPair) : System (Blockchain E) Op :=
  (chainSystem E keyPair).restrict fun _ op => op.byClock fun _ => True

theorem chain_ne_nil_of_queue {keyPair : Option E.KeyPair} {bc : Blockchain E}
    (h : Reachable (queueSystem E keyPair) bc) : bc.chain ≠ [] := by
  have hlen := (grown_of_reachable h.of_restrict).length_le
  intro hnil
  simp [hnil] at hlen

/-- **Run lemma**: the history is what the run has pushed. -/
theorem history_eq_pushed {keyPair : Option E.KeyPair} {bc : Blockchain E}
    {tr : List (Transition (Blockchain E) Op)}
    (h : Run (queueSystem E keyPair) (.new E keyPair) tr bc) :
    history bc = (pushed tr).map Entry.value := by
  have hinit : Reachable (queueSystem E keyPair) (.new E keyPair) := .init rfl
  induction h with
  | nil => simp [history, pushed, Blockchain.new]
  | snoc op hrun hstep ih =>
    obtain ⟨hop, r, hexec⟩ := hstep
    have hne := chain_ne_nil_of_queue (hrun.reachable hinit)
    rw [history_step hne hop hexec, ih]
    simp [pushed]

/-- What is in the history was accepted or pushed as a coinbase. -/
theorem mem_history_of_run {keyPair : Option E.KeyPair} {bc : Blockchain E}
    {tr : List (Transition (Blockchain E) Op)}
    (h : Run (queueSystem E keyPair) (.new E keyPair) tr bc) {tx : Val} (htx : tx ∈ history bc) :
    tx ∈ accepted tr ∨ ∃ x ∈ tr, tx ∈ x.label.coinBases x.pre := by
  rw [history_eq_pushed h] at htx
  obtain ⟨⟨value, isCoinBase⟩, hentry, rfl⟩ := List.mem_map.mp htx
  cases isCoinBase with
  | true => exact .inr (coinBase_mem_pushed.mp hentry)
  | false =>
    left
    rw [← withoutCoinBases_pushed]
    exact List.mem_map.mpr ⟨_, List.mem_filter.mpr ⟨hentry, rfl⟩, rfl⟩

/-- **No transaction is lost, duplicated or reordered.** After any run of
    `createTransaction`, `addTransaction` and `minePendingTransactions`, calls
    that threw included, the transaction lists of the blocks after the genesis
    block followed by the pending list hold what the run pushed, and without
    the coinbases of the mining calls that is the sequence of accepted
    transactions. -/
theorem history_without_coinBases {keyPair : Option E.KeyPair} {bc : Blockchain E}
    {tr : List (Transition (Blockchain E) Op)}
    (h : Run (queueSystem E keyPair) (.new E keyPair) tr bc) :
    history bc = (pushed tr).map Entry.value ∧
      withoutCoinBases (pushed tr) = accepted tr := by
  exact ⟨history_eq_pushed h, withoutCoinBases_pushed tr⟩

/-- The record of a run with an unchecked transaction, a refused one, a block,
    and a mining that throws because a pending value has no JSON text. -/
theorem history_without_coinBases_six_calls :
    ∃ (tr : List (Transition (Blockchain demoEnv) Op)) (bc : Blockchain demoEnv),
      Run (queueSystem demoEnv (some ())) (.new demoEnv (some ())) tr bc ∧
      bc.chain.length = 2 ∧ (history bc).length = 4 ∧
      history bc = (pushed tr).map Entry.value ∧
      withoutCoinBases (pushed tr) = accepted tr := by
  let ops : List Op :=
    [.createTransaction (.str "note"), .addTransaction .null,
     .minePendingTransactions (.str "miner") 7 1, .createTransaction (.bigint 1),
     .minePendingTransactions (.str "miner") 9 1, .addTransaction .undefined]
  have hfinal : (execAll (Blockchain.new demoEnv (some ())) ops).map
      (fun bc => (bc.chain.length, (history bc).length)) = some (2, 4) := by
    decide +kernel
  obtain ⟨bc, hrun, hlengths⟩ := Option.map_eq_some_iff.mp hfinal
  obtain ⟨hchain, hhistory⟩ := Prod.mk.inj hlengths
  obtain ⟨tr, htr, _⟩ := run_of_execAll (some ()) (fun _ op => op.byClock fun _ => True)
    (by simp [ops, Op.byClock]) hrun
  exact ⟨tr, bc, htr, hchain, hhistory, history_without_coinBases htr⟩

end XCoin
