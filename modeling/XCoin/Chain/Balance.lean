import XCoin.Framework.Ledger
import XCoin.Chain.Atomicity
import XCoin.Chain.History

/-! # Balances

    The nested loops of `getBalanceOfAddress` go through the transactions of
    the chain in order, whatever blocks they are in.  As long as the amounts
    the address receives are numbers, every transaction adds what it pays to
    the address and takes off what it pays from it (`change`), so the result
    is a sum, and sums do not depend on the order of their terms.

    Sums of numbers are rounded, and rounded sums do depend on the order.  No
    sum is rounded as long as what the transactions move at the address
    (`turnover`) stays within the bound up to which integers are exact.

    For two runs that accept the same transactions and pay the same rewards,
    it remains to show that the chains hold the same transactions, which is
    what `BatchInv` is for.
-/

namespace XCoin

open Js LTS Ledger Throwing

variable {E : Env}

/-! ### What a transaction is worth to an address -/

/-- The integer an amount stands for: itself, or the number a decimal text
    spells. -/
def numericAmount : Val → Option Int
  | .num n => some n
  | .str s => Number.decimal? s
  | _      => none

/-- The amount of a transaction as a number. -/
def amountOf (tx : Val) : Int :=
  ((tx.get "amount").toOption.bind numericAmount).getD 0

/-- The test `tx[key] === a` of the balance loop. -/
def isField (key : String) (a tx : Val) : Bool :=
  match tx.get key with
  | .ok v    => v.strictEquals a
  | .error _ => false

/-- The numeric amounts that `a` receives in a list of transactions. -/
def amountReceived (a : Val) (txs : List Val) : Int :=
  total (fun tx => if isField "toAddress" a tx then amountOf tx else 0) txs

/-- The numeric amounts that `a` sends in a list of transactions. -/
def amountSent (a : Val) (txs : List Val) : Int :=
  total (fun tx => if isField "fromAddress" a tx then amountOf tx else 0) txs

/-- What a transaction changes the balance of `a` by. -/
def change (a tx : Val) : Int :=
  (if isField "toAddress" a tx then amountOf tx else 0) -
    if isField "fromAddress" a tx then amountOf tx else 0

theorem total_change (a : Val) (txs : List Val) :
    total (change a) txs = amountReceived a txs - amountSent a txs :=
  total_sub _ _ txs

/-- What a transaction moves at `a`: its amount, without sign, for each side
    that `a` is on. -/
def moved (a tx : Val) : Int :=
  (if isField "toAddress" a tx then |amountOf tx| else 0) +
    if isField "fromAddress" a tx then |amountOf tx| else 0

/-- What a list of transactions moves at `a`. -/
def turnover (a : Val) (txs : List Val) : Int := total (moved a) txs

theorem moved_nonneg (a tx : Val) : 0 ≤ moved a tx := by
  have habs := abs_nonneg (amountOf tx)
  unfold moved
  split_ifs <;> omega

theorem abs_change_le (a tx : Val) : |change a tx| ≤ moved a tx := by
  have habs := abs_nonneg (amountOf tx)
  unfold change moved
  split_ifs <;> simp

theorem turnover_nonneg (a : Val) (txs : List Val) : 0 ≤ turnover a txs :=
  total_nonneg fun tx _ => moved_nonneg a tx

/-- The transaction has an amount that stands for an integer. -/
def HasAmount (tx : Val) : Prop :=
  ∃ v n, tx.get "amount" = .ok v ∧ numericAmount v = some n

/-- The transaction has an amount that is an integer. -/
def HasInteger (tx : Val) : Prop := ∃ n : Int, tx.get "amount" = .ok (.num n)

theorem HasInteger.hasAmount {tx : Val} (h : HasInteger tx) : HasAmount tx := by
  obtain ⟨n, hn⟩ := h
  exact ⟨.num n, n, hn, rfl⟩

/-- A value with one readable field has them all. -/
theorem exists_get {tx v : Val} {key : String} (h : tx.get key = .ok v) (key' : String) :
    ∃ v', tx.get key' = .ok v' := by
  cases tx with
  | undefined => cases h
  | null => cases h
  | _ => exact ⟨_, rfl⟩

/-! ### The loops -/

section Loops

variable {ρ : Number.Rounding} {bound : Int}

/-- The operator `-` takes numbers and decimal texts alike. -/
theorem subWith_amount (hρ : Number.ExactUpTo ρ bound) {v : Val} {m n : Int}
    (hn : numericAmount v = some n) (hle : |m| + |n| ≤ bound) :
    Value.subWith ρ (.num m) v = .ok (.num (m - n)) := by
  have hdiff : |m - n| ≤ bound := (abs_sub m n).trans hle
  cases v with
  | num n' =>
    obtain rfl := Option.some.inj hn
    exact Value.subWith_num hρ hdiff
  | str s =>
    have hnonneg := abs_nonneg m
    exact Value.subWith_decimal hρ hn (by omega) hdiff
  | _ => cases hn

/-- If the address receives numbers only, a transaction changes its balance
    by what it is worth, as long as nothing is rounded. -/
theorem balanceAfter_change (hρ : Number.ExactUpTo ρ bound) {a tx : Val} (h : HasAmount tx)
    (hreceives : isField "toAddress" a tx = true → HasInteger tx) {m : Int}
    (hm : |m| + moved a tx ≤ bound) :
    Blockchain.balanceAfter ρ a (.num m) tx = .ok (.num (m + change a tx)) := by
  obtain ⟨v, n, hv, hn⟩ := h
  obtain ⟨fromAddress, hfrom⟩ := exists_get hv "fromAddress"
  obtain ⟨toAddress, hto⟩ := exists_get hv "toAddress"
  have hamount : amountOf tx = n := by
    simp [amountOf, hv, Except.toOption, hn]
  have hadd (k : Int) (hr : toAddress.strictEquals a = true) (hle : |k| + |n| ≤ bound) :
      Value.addWith ρ (.num k) v = .ok (.num (k + n)) := by
    obtain ⟨n', hn'⟩ := hreceives (by simp [isField, hto, hr])
    rw [hv, Except.ok.injEq] at hn'
    subst hn'
    obtain rfl := Option.some.inj hn
    exact Value.addWith_num hρ ((abs_add_le k n').trans hle)
  simp only [moved, change, isField, hfrom, hto, hamount] at hm ⊢
  simp only [Blockchain.balanceAfter, hfrom, hto, hv, ok_bind]
  have hnonneg := abs_nonneg n
  by_cases hs : fromAddress.strictEquals a = true
  · simp only [hs, if_true] at hm ⊢
    by_cases hr : toAddress.strictEquals a = true
    · simp only [hr, if_true] at hm ⊢
      have hdiff := abs_sub m n
      rw [subWith_amount hρ hn (by omega), ok_bind, hadd (m - n) hr (by omega)]
      congr 2
      omega
    · simp only [hr, Bool.false_eq_true, if_false] at hm ⊢
      rw [subWith_amount hρ hn (by omega), ok_bind]
      congr 2
      omega
  · simp only [hs, Bool.false_eq_true, if_false] at hm ⊢
    by_cases hr : toAddress.strictEquals a = true
    · simp only [hr, if_true] at hm ⊢
      rw [hadd m hr (by omega)]
      congr 2
      omega
    · simp only [hr, Bool.false_eq_true, if_false]
      congr 2
      omega

/-- The inner loop goes on with the rest of a list where it stopped. -/
theorem balanceOverTransactions_append (ρ : Number.Rounding) (a balance : Val)
    (txs more : List Val) :
    Blockchain.balanceOverTransactions ρ a balance (txs ++ more) = (do
      let balance ← Blockchain.balanceOverTransactions ρ a balance txs
      Blockchain.balanceOverTransactions ρ a balance more) :=
  List.foldlM_append

/-- The transactions of a chain, block after block. -/
def allTransactions (chain : List Block) : List Val := chain.flatMap Block.transactionList

/-- Blocks whose transactions are arrays do not matter to the outer loop. -/
theorem getBalanceOfAddress_flatten {chain : List Block} {a : Val}
    (h : ∀ b ∈ chain, ∃ txs, b.transactions = .arr txs) :
    Blockchain.getBalanceOfAddress ρ chain a =
      Blockchain.balanceOverTransactions ρ a (.num 0) (allTransactions chain) := by
  unfold Blockchain.getBalanceOfAddress
  generalize (Value.num 0 : Val) = balance
  induction chain generalizing balance with
  | nil => rfl
  | cons b chain ih =>
    obtain ⟨⟨txs, htxs⟩, hrest⟩ := List.forall_mem_cons.mp h
    rw [allTransactions, List.flatMap_cons, Block.transactionList_of_arr htxs,
      balanceOverTransactions_append, Blockchain.balanceOverBlocks, List.foldlM_cons, htxs,
      Value.iterate, ok_bind]
    congr 1
    funext balance'
    exact ih hrest balance'

/-- The inner loop adds up what the transactions are worth to the address. -/
theorem balanceOverTransactions_change (hρ : Number.ExactUpTo ρ bound) {a : Val}
    {txs : List Val} (h : ∀ tx ∈ txs, HasAmount tx)
    (hreceives : ∀ tx ∈ txs, isField "toAddress" a tx = true → HasInteger tx) {m : Int}
    (hm : |m| + turnover a txs ≤ bound) :
    Blockchain.balanceOverTransactions ρ a (.num m) txs =
      .ok (.num (m + (amountReceived a txs - amountSent a txs))) := by
  rw [← total_change]
  induction txs generalizing m with
  | nil => simp [Blockchain.balanceOverTransactions, total]
  | cons tx txs ih =>
    obtain ⟨hamount, hamounts⟩ := List.forall_mem_cons.mp h
    obtain ⟨hreceive, hreceives⟩ := List.forall_mem_cons.mp hreceives
    have hturnover : turnover a (tx :: txs) = moved a tx + turnover a txs := rfl
    have hrest := turnover_nonneg a txs
    -- the balance after the transaction leaves enough room for the rest
    have hnext : |m + change a tx| ≤ |m| + moved a tx :=
      (abs_add_le _ _).trans (Int.add_le_add_left (abs_change_le a tx) _)
    have hfirst := balanceAfter_change hρ hamount hreceive (m := m) (by omega)
    rw [Blockchain.balanceOverTransactions, List.foldlM_cons, hfirst, ok_bind]
    refine (ih hamounts hreceives (by omega)).trans ?_
    rw [total, Int.add_assoc]

/-- **The balance is a sum** on chains of arrays, as long as nothing is
    rounded. -/
theorem getBalanceOfAddress_change (hρ : Number.ExactUpTo ρ bound) {chain : List Block} {a : Val}
    (harrays : ∀ b ∈ chain, ∃ txs, b.transactions = .arr txs)
    (h : ∀ tx ∈ allTransactions chain, HasAmount tx)
    (hreceives : ∀ tx ∈ allTransactions chain, isField "toAddress" a tx = true → HasInteger tx)
    (hbound : turnover a (allTransactions chain) ≤ bound) :
    Blockchain.getBalanceOfAddress ρ chain a =
      .ok (.num (total (change a) (allTransactions chain))) := by
  rw [getBalanceOfAddress_flatten harrays,
    balanceOverTransactions_change hρ h hreceives (by simpa using hbound), total_change,
    zero_add]

end Loops

/-! ### What a run accepts and pays -/

/-- The address that a call of `minePendingTransactions` rewards, if it
    returns. -/
def Op.rewarded (bc : Blockchain E) (op : Op) : List Val :=
  match op, op.exec bc with
  | .minePendingTransactions address _ _, some (.ok _, _) => [address]
  | _, _ => []

/-- The addresses rewarded along a run, in order. -/
def rewarded (tr : List (Transition (Blockchain E) Op)) : List Val :=
  tr.flatMap fun x => x.label.rewarded x.pre

/-- What a coinbase for `address` changes the balance of `a` by. -/
def rewardChange (a : Val) (reward : Int) (address : Val) : Int :=
  (if address.strictEquals a then reward else 0) -
    if (Value.null : Val).strictEquals a then reward else 0

/-- What it moves there. -/
def rewardMoved (a : Val) (reward : Int) (address : Val) : Int :=
  (if address.strictEquals a then |reward| else 0) +
    if (Value.null : Val).strictEquals a then |reward| else 0

/-- What transactions contribute to a sum, and what the coinbases for an
    address contribute. -/
structure Weight (E : Env) where
  tx       : Val → Int
  reward   : Val → Int
  coinBase : ∀ {bc : Blockchain E} {address : Val} {coinBase : Transaction},
    bc.miningReward = 100 → bc.coinBaseTransaction address = .ok coinBase →
      tx coinBase.toValue = reward address

/-- The sum that is the balance of `a`. -/
def Weight.change (E : Env) (a : Val) : Weight E where
  tx := XCoin.change a
  reward := rewardChange a 100
  coinBase := by
    intro bc address coinBase hreward hcoin
    obtain ⟨signature, rfl⟩ := coinBase_eq hcoin
    rw [← hreward]
    rfl

/-- The sum that bounds it. -/
def Weight.moved (E : Env) (a : Val) : Weight E where
  tx := XCoin.moved a
  reward := rewardMoved a 100
  coinBase := by
    intro bc address coinBase hreward hcoin
    obtain ⟨signature, rfl⟩ := coinBase_eq hcoin
    rw [← hreward]
    rfl

theorem hasInteger_coinBase {bc : Blockchain E} {address : Val} {coinBase : Transaction}
    (h : bc.coinBaseTransaction address = .ok coinBase) : HasInteger coinBase.toValue := by
  obtain ⟨signature, rfl⟩ := coinBase_eq h
  exact ⟨bc.miningReward, rfl⟩

/-- A call that throws accepts nothing and pays nothing. -/
theorem Op.accepted_of_error {bc bc' : Blockchain E} {op : Op} {e : JsError}
    (h : op.exec bc = some (.error e, bc')) : op.accepted bc = [] ∧ op.rewarded bc = [] := by
  refine ⟨?_, ?_⟩
  · cases op with
    | createTransaction tx => cases h
    | addTransaction tx =>
      have hthrows : (bc.addTransaction tx).1 = .error e :=
        congrArg Prod.fst (Option.some.inj h)
      simp only [Op.accepted, hthrows]
    | _ => rfl
  · simp only [Op.rewarded, h]

/-- A transaction that `addTransaction` takes is accepted. -/
theorem Op.accepted_of_ok {bc bc' : Blockchain E} {tx : Val}
    (h : (Op.addTransaction tx).exec bc = some (.ok (), bc')) :
    (Op.addTransaction tx).accepted bc = [tx] := by
  have hok : (bc.addTransaction tx).1 = .ok () := congrArg Prod.fst (Option.some.inj h)
  simp only [Op.accepted, hok]

/-! ### The chain holds what was accepted and paid -/

/-- What holds after a run `tr` that has reached `bc`. -/
structure BatchInv (w : Weight E) (tr : List (Transition (Blockchain E) Op))
    (bc : Blockchain E) : Prop where
  reward   : bc.miningReward = 100
  /-- The history is worth what was accepted and paid, unless a mining call
      has left a coinbase behind, and then the pending list is stuck. -/
  kept     : total w.tx (history bc) =
      total w.tx (accepted tr) + total w.reward (rewarded tr) ∨
    (bc.pendingTransactions ≠ [] ∧ ¬ MiningReady bc.chain (.arr bc.pendingTransactions))
  integers : (∀ tx ∈ accepted tr, HasInteger tx) → ∀ tx ∈ history bc, HasInteger tx

theorem batchInv_new (w : Weight E) (keyPair : Option E.KeyPair) :
    BatchInv w [] (Blockchain.new E keyPair) where
  reward := rfl
  kept := .inl rfl
  integers := by
    intro _ tx htx
    cases htx

/-- An accepted transaction keeps the invariant. -/
theorem BatchInv.createTransaction {w : Weight E} {tr : List (Transition (Blockchain E) Op)}
    {bc : Blockchain E} {op : Op} {tx : Val} (h : BatchInv w tr bc)
    (haccepted : op.accepted bc = [tx]) (hrewarded : op.rewarded bc = []) :
    BatchInv w (tr ++ [⟨bc, op, bc.createTransaction tx⟩]) (bc.createTransaction tx) where
  reward := h.reward
  kept := by
    rcases h.kept with hsum | ⟨_, hstuck⟩
    · left
      rw [history_createTransaction]
      simp only [accepted, rewarded, List.flatMap_append, List.flatMap_singleton, haccepted,
        hrewarded, List.append_nil, total_append] at hsum ⊢
      omega
    · right
      refine ⟨by simp [Blockchain.createTransaction], ?_⟩
      intro hready
      exact hstuck hready.of_append
  integers := by
    simp only [accepted, List.flatMap_append, List.flatMap_singleton, haccepted,
      history_createTransaction, List.forall_mem_append, List.forall_mem_singleton]
    intro hall
    exact ⟨h.integers hall.1, hall.2⟩

/-- A call that accepts and pays nothing and changes nothing keeps it. -/
theorem BatchInv.unchanged {w : Weight E} {tr : List (Transition (Blockchain E) Op)}
    {bc : Blockchain E} {op : Op} (h : BatchInv w tr bc)
    (hnothing : op.accepted bc = [] ∧ op.rewarded bc = []) :
    BatchInv w (tr ++ [⟨bc, op, bc⟩]) bc where
  reward := h.reward
  kept := by
    simp only [accepted, rewarded, List.flatMap_append, List.flatMap_singleton, hnothing.1,
      hnothing.2, List.append_nil]
    exact h.kept
  integers := by
    simp only [accepted, List.flatMap_append, List.flatMap_singleton, hnothing.1,
      List.append_nil]
    exact h.integers

/-- **Step lemma**: every call but `addBlock` keeps the invariant. -/
theorem BatchInv.step {w : Weight E} {tr : List (Transition (Blockchain E) Op)}
    {bc bc' : Blockchain E} {op : Op} {r : Result Unit} (h : BatchInv w tr bc)
    (hne : bc.chain ≠ []) (hop : op.byClock fun _ => True)
    (hexec : op.exec bc = some (r, bc')) : BatchInv w (tr ++ [⟨bc, op, bc'⟩]) bc' := by
  cases Op.exec_outcome hexec with
  | unchanged => exact h.unchanged (Op.accepted_of_error hexec)
  | created tx => exact h.createTransaction rfl rfl
  | accepted tx => exact h.createTransaction (Op.accepted_of_ok hexec) rfl
  | appended => exact hop.elim
  | stranded address date fuel coinBase e hcoin hthrows =>
    obtain ⟨haccepted, hrewarded⟩ := Op.accepted_of_error hexec
    refine ⟨h.reward, .inr ⟨by simp [Blockchain.createTransaction], ?_⟩, ?_⟩
    · intro hready
      exact hthrows ⟨coinBase, hcoin, hready⟩
    · simp only [accepted, List.flatMap_append, List.flatMap_singleton, haccepted,
        List.append_nil, history_createTransaction, List.forall_mem_append,
        List.forall_mem_singleton]
      intro hall
      exact ⟨h.integers hall, hasInteger_coinBase hcoin⟩
  | mined address date fuel coinBase b hcoin hmined htime htxs =>
    have hrewarded : (Op.minePendingTransactions address date fuel).rewarded bc = [address] := by
      simp only [Op.rewarded, hexec]
    have hready : MiningReady bc.chain (.arr bc.pendingTransactions) :=
      (htxs ▸ hmined.miningReady).of_append
    refine ⟨h.reward, .inl ?_, ?_⟩
    · have hsum := h.kept.resolve_right fun hstuck => hstuck.2 hready
      rw [history_mined hne htxs]
      simp only [accepted, rewarded, List.flatMap_append, List.flatMap_singleton, hrewarded,
        total_append, total, w.coinBase h.reward hcoin, Op.accepted] at hsum ⊢
      omega
    · rw [history_mined hne htxs]
      simp only [accepted, List.flatMap_append, List.flatMap_singleton, Op.accepted,
        List.append_nil, List.forall_mem_append, List.forall_mem_singleton]
      intro hall
      exact ⟨h.integers hall, hasInteger_coinBase hcoin⟩

/-- **Run lemma** for the invariant. -/
theorem batchInv_of_run {keyPair : Option E.KeyPair} {bc : Blockchain E}
    {tr : List (Transition (Blockchain E) Op)}
    (h : Run (queueSystem E keyPair) (.new E keyPair) tr bc) (w : Weight E) :
    BatchInv w tr bc := by
  have hinit : Reachable (queueSystem E keyPair) (.new E keyPair) := .init rfl
  induction h with
  | nil => exact batchInv_new w keyPair
  | snoc op hrun hstep ih =>
    obtain ⟨hop, r, hexec⟩ := hstep
    exact ih.step (chain_ne_nil_of_queue (hrun.reachable hinit)) hop hexec

/-! ### Order and batching -/

/-- In a run without `addBlock` all blocks hold arrays, and the transactions
    of the chain and the pending list are the history. -/
theorem arrays_of_run {keyPair : Option E.KeyPair} {bc : Blockchain E}
    (h : Reachable (queueSystem E keyPair) bc) :
    (∀ b ∈ bc.chain, ∃ txs, b.transactions = .arr txs) ∧
      history bc = allTransactions bc.chain ++ bc.pendingTransactions := by
  have hgrown : AppendLog.Grown (MinedByClock E fun _ => True) [createGenesisBlock] bc.chain :=
    grown_byClock (fun _ _ hop => hop) h
  obtain ⟨tail, htail⟩ := hgrown.prefix_base
  refine ⟨?_, ?_⟩
  · intro b hb
    obtain ⟨i, hi⟩ := List.mem_iff_getElem?.mp hb
    cases i with
    | zero =>
      rw [← htail] at hi
      cases hi
      exact ⟨[], rfl⟩
    | succ i => exact (hgrown.getElem (Nat.succ_pos i) hi).list
  · rw [history, ← htail]
    rfl

/-- What is in a block was accepted, or it is a coinbase. -/
theorem mem_block_of_run {keyPair : Option E.KeyPair} {bc : Blockchain E}
    {tr : List (Transition (Blockchain E) Op)}
    (h : Run (queueSystem E keyPair) (.new E keyPair) tr bc) {b : Block} (hb : b ∈ bc.chain)
    {tx : Val} (htx : tx ∈ b.transactionList) :
    tx ∈ accepted tr ∨ ∃ (bc' : Blockchain E) (address : Val) (coinBase : Transaction),
      bc'.coinBaseTransaction address = .ok coinBase ∧ tx = coinBase.toValue := by
  have hmem : tx ∈ history bc := by
    rw [(arrays_of_run (h.reachable (.init rfl))).2]
    exact List.mem_append_left _ (List.mem_flatMap.mpr ⟨b, hb, htx⟩)
  rcases mem_history_of_run h hmem with haccepted | ⟨x, _, hpushed⟩
  · exact .inl haccepted
  · obtain ⟨address, coinBase, hcoin, heq⟩ := Op.exists_coinBase hpushed
    exact .inr ⟨x.pre, address, coinBase, hcoin, heq⟩

/-- What a chain is worth after a run that has mined everything. -/
theorem total_of_run {keyPair : Option E.KeyPair} {bc : Blockchain E}
    {tr : List (Transition (Blockchain E) Op)}
    (h : Run (queueSystem E keyPair) (.new E keyPair) tr bc)
    (hempty : bc.pendingTransactions = []) (w : Weight E) :
    total w.tx (allTransactions bc.chain) =
      total w.tx (accepted tr) + total w.reward (rewarded tr) := by
  have hhistory := (arrays_of_run (h.reachable (.init rfl))).2
  rw [hempty, List.append_nil] at hhistory
  rw [← hhistory]
  exact (batchInv_of_run h w).kept.resolve_right fun hstuck => hstuck.1 hempty

/-- What the accepted transactions and the rewards of a run move at `a`. -/
def turnoverOf (a : Val) (tr : List (Transition (Blockchain E) Op)) : Int :=
  turnover a (accepted tr) + total (rewardMoved a 100) (rewarded tr)

/-- The balances after a run that has mined everything. -/
theorem getBalanceOfAddress_of_run {keyPair : Option E.KeyPair} {bc : Blockchain E}
    {tr : List (Transition (Blockchain E) Op)}
    (h : Run (queueSystem E keyPair) (.new E keyPair) tr bc)
    (hintegers : ∀ tx ∈ accepted tr, HasInteger tx) (hempty : bc.pendingTransactions = [])
    {a : Val} (hbound : turnoverOf a tr ≤ 2 ^ 53) :
    Blockchain.getBalanceOfAddress .binary64 bc.chain a = .ok (.num
      (total (change a) (accepted tr) + total (rewardChange a 100) (rewarded tr))) := by
  obtain ⟨harrays, hhistory⟩ := arrays_of_run (h.reachable (.init rfl))
  rw [hempty, List.append_nil] at hhistory
  have hall : ∀ tx ∈ allTransactions bc.chain, HasInteger tx :=
    hhistory ▸ (batchInv_of_run h (.change E a)).integers hintegers
  have hsum := total_of_run h hempty (.change E a)
  have hmoved := total_of_run h hempty (.moved E a)
  rw [getBalanceOfAddress_change Number.exactUpTo_binary64 harrays
    (fun tx htx => (hall tx htx).hasAmount) (fun tx htx _ => hall tx htx) (hmoved.trans_le hbound)]
  exact congrArg (fun n => Except.ok (Value.num n)) hsum

/-- **Balances do not depend on order or batching.** Two runs that accept the
    same transactions, with integer amounts, and reward the same addresses,
    both in any order, and end with nothing pending give an address the same
    balance, if what they move at the address is at most `2 ^ 53`. -/
theorem balance_order_independent {keyPair₁ keyPair₂ : Option E.KeyPair}
    {bc₁ bc₂ : Blockchain E} {tr₁ tr₂ : List (Transition (Blockchain E) Op)}
    (h₁ : Run (queueSystem E keyPair₁) (.new E keyPair₁) tr₁ bc₁)
    (h₂ : Run (queueSystem E keyPair₂) (.new E keyPair₂) tr₂ bc₂)
    (haccepted : (accepted tr₁).Perm (accepted tr₂))
    (hintegers : ∀ tx ∈ accepted tr₁, HasInteger tx)
    (hrewarded : (rewarded tr₁).Perm (rewarded tr₂))
    (hempty₁ : bc₁.pendingTransactions = []) (hempty₂ : bc₂.pendingTransactions = [])
    {a : Val} (hbound : turnoverOf a tr₁ ≤ 2 ^ 53) :
    ∃ balance : Int,
      Blockchain.getBalanceOfAddress .binary64 bc₁.chain a = .ok (.num balance) ∧
      Blockchain.getBalanceOfAddress .binary64 bc₂.chain a = .ok (.num balance) := by
  have hintegers₂ : ∀ tx ∈ accepted tr₂, HasInteger tx := by
    intro tx htx
    exact hintegers tx (haccepted.mem_iff.mpr htx)
  have hbound₂ : turnoverOf a tr₂ ≤ 2 ^ 53 := by
    rw [turnoverOf, turnover, ← total_perm _ haccepted, ← total_perm _ hrewarded]
    exact hbound
  refine ⟨_, getBalanceOfAddress_of_run h₁ hintegers hempty₁ hbound, ?_⟩
  rw [getBalanceOfAddress_of_run h₂ hintegers₂ hempty₂ hbound₂, total_perm _ haccepted,
    total_perm _ hrewarded]

/-! ### Two concrete runs -/

/-- The transactions and the reward addresses that a call names. -/
def Op.asked : Op → List Val × List Val
  | .createTransaction tx => ([tx], [])
  | .addTransaction tx => ([tx], [])
  | .minePendingTransactions address _ _ => ([], [address])
  | .addBlock _ _ _ _ => ([], [])

/-- A call accepts and rewards at most what it names. -/
theorem Op.accepted_sublist (bc : Blockchain E) (op : Op) :
    (op.accepted bc).Sublist op.asked.1 ∧ (op.rewarded bc).Sublist op.asked.2 := by
  cases op with
  | createTransaction tx => exact ⟨.refl _, .refl _⟩
  | addTransaction tx =>
    refine ⟨?_, .refl _⟩
    simp only [Op.accepted, Op.asked]
    split
    · exact .refl _
    · exact List.nil_sublist _
  | minePendingTransactions address date fuel =>
    refine ⟨.refl _, ?_⟩
    unfold Op.rewarded
    split
    · next heq _ =>
      cases heq
      exact .refl _
    · exact List.nil_sublist _
  | addBlock => exact ⟨.refl _, .refl _⟩

theorem accepted_sublist (tr : List (Transition (Blockchain E) Op)) :
    (accepted tr).Sublist ((tr.map (·.label)).flatMap (·.asked.1)) ∧
      (rewarded tr).Sublist ((tr.map (·.label)).flatMap (·.asked.2)) := by
  induction tr with
  | nil => exact ⟨.refl _, .refl _⟩
  | cons x tr ih =>
    obtain ⟨haccepted, hrewarded⟩ := Op.accepted_sublist x.pre x.label
    exact ⟨haccepted.append ih.1, hrewarded.append ih.2⟩

/-- A run in which nothing is refused accepts and rewards all its calls name. -/
theorem accepted_eq_asked {tr : List (Transition (Blockchain E) Op)} {ops : List Op}
    (hlabels : tr.map (·.label) = ops)
    (hlengths : (accepted tr).length = (ops.flatMap (·.asked.1)).length ∧
      (rewarded tr).length = (ops.flatMap (·.asked.2)).length) :
    accepted tr = ops.flatMap (·.asked.1) ∧ rewarded tr = ops.flatMap (·.asked.2) := by
  subst hlabels
  obtain ⟨haccepted, hrewarded⟩ := accepted_sublist tr
  exact ⟨haccepted.eq_of_length hlengths.1, hrewarded.eq_of_length hlengths.2⟩

/-- A transfer of `amount` coins that nobody has signed. -/
def unsignedTransfer (sender receiver : String) (amount : Int) : Val :=
  Transaction.toValue (.new (.str sender) (.str receiver) (.num amount) .undefined .undefined
    .undefined)

theorem hasInteger_unsignedTransfer (sender receiver : String) (amount : Int) :
    HasInteger (unsignedTransfer sender receiver amount) :=
  ⟨amount, rfl⟩

/-- The number or the text that a computation returns. -/
def numberOrText : Result Val → Option (Int ⊕ String)
  | .ok (.num n) => some (.inl n)
  | .ok (.str s) => some (.inr s)
  | _            => none

theorem numberOrText_eq_inl {r : Result Val} {n : Int} (h : numberOrText r = some (.inl n)) :
    r = .ok (.num n) := by
  unfold numberOrText at h
  split at h
  · cases h
    rfl
  · cases h
  · cases h

/-- A run that refuses nothing and leaves nothing pending. -/
theorem exists_asked_run {β : Type} (ops : List Op) (f : Blockchain demoEnv → β) {value : β}
    (hops : ∀ op ∈ ops, op.byClock fun _ => True)
    (hfinal : (execAll (Blockchain.new demoEnv (some ())) ops).map (fun bc =>
      (bc.pendingTransactions.length, f bc)) = some (0, value))
    (hlengths : (accepted (traceOf (Blockchain.new demoEnv (some ())) ops)).length =
        (ops.flatMap (·.asked.1)).length ∧
      (rewarded (traceOf (Blockchain.new demoEnv (some ())) ops)).length =
        (ops.flatMap (·.asked.2)).length) :
    ∃ (bc : Blockchain demoEnv) (tr : List (Transition (Blockchain demoEnv) Op)),
      Run (queueSystem demoEnv (some ())) (.new demoEnv (some ())) tr bc ∧
      accepted tr = ops.flatMap (·.asked.1) ∧ rewarded tr = ops.flatMap (·.asked.2) ∧
      bc.pendingTransactions = [] ∧ f bc = value := by
  obtain ⟨bc, hrun, hfacts⟩ := Option.map_eq_some_iff.mp hfinal
  obtain ⟨hempty, hvalue⟩ := Prod.mk.inj hfacts
  obtain ⟨htr, hlabels⟩ := run_traceOf (some ()) (fun _ op => op.byClock fun _ => True)
    (fun _ => hops) hrun
  obtain ⟨haccepted, hrewarded⟩ := accepted_eq_asked hlabels hlengths
  exact ⟨bc, _, htr, haccepted, hrewarded, List.length_eq_zero_iff.mp hempty, hvalue⟩

/-- Two transfers in two blocks, and in one block in the other order, with
    the rewards paid the other way round and another clock. -/
theorem balance_order_independent_two_runs :
    ∃ (bc₁ bc₂ : Blockchain demoEnv) (tr₁ tr₂ : List (Transition (Blockchain demoEnv) Op)),
      Run (queueSystem demoEnv (some ())) (.new demoEnv (some ())) tr₁ bc₁ ∧
      Run (queueSystem demoEnv (some ())) (.new demoEnv (some ())) tr₂ bc₂ ∧
      bc₁.chain.map (·.transactionList.length) = [0, 2, 2] ∧
      bc₂.chain.map (·.transactionList.length) = [0, 3, 1] ∧
      turnoverOf (.str "bob") tr₁ = 107 ∧
      ∃ balance : Int,
        Blockchain.getBalanceOfAddress .binary64 bc₁.chain (.str "bob") = .ok (.num balance) ∧
        Blockchain.getBalanceOfAddress .binary64 bc₂.chain (.str "bob") = .ok (.num balance) := by
  let ops₁ : List Op :=
    [.createTransaction (unsignedTransfer "alice" "bob" 5),
     .minePendingTransactions (.str "miner") 7 1,
     .createTransaction (unsignedTransfer "bob" "alice" 2),
     .minePendingTransactions (.str "bob") 9 1]
  let ops₂ : List Op :=
    [.createTransaction (unsignedTransfer "bob" "alice" 2),
     .createTransaction (unsignedTransfer "alice" "bob" 5),
     .minePendingTransactions (.str "bob") 3 1, .minePendingTransactions (.str "miner") 4 1]
  obtain ⟨bc₁, tr₁, htr₁, haccepted₁, hrewarded₁, hempty₁, hchain₁⟩ :=
    exists_asked_run ops₁ (fun bc => bc.chain.map (·.transactionList.length))
      (by simp [ops₁, Op.byClock]) (show _ = some (0, [0, 2, 2]) by decide +kernel)
      (by decide +kernel)
  obtain ⟨bc₂, tr₂, htr₂, haccepted₂, hrewarded₂, hempty₂, hchain₂⟩ :=
    exists_asked_run ops₂ (fun bc => bc.chain.map (·.transactionList.length))
      (by simp [ops₂, Op.byClock]) (show _ = some (0, [0, 3, 1]) by decide +kernel)
      (by decide +kernel)
  have hturnover : turnoverOf (.str "bob") tr₁ = 107 := by
    rw [turnoverOf, haccepted₁, hrewarded₁]
    decide +kernel
  refine ⟨bc₁, bc₂, tr₁, tr₂, htr₁, htr₂, hchain₁, hchain₂, hturnover,
    balance_order_independent htr₁ htr₂ ?_ ?_ ?_ hempty₁ hempty₂
      (hturnover.trans_le (by norm_num))⟩
  · rw [haccepted₁, haccepted₂]
    exact List.Perm.swap _ _ _
  · rw [haccepted₁]
    show ∀ tx ∈ [unsignedTransfer "alice" "bob" 5, unsignedTransfer "bob" "alice" 2], HasInteger tx
    rw [List.forall_mem_cons, List.forall_mem_singleton]
    exact ⟨hasInteger_unsignedTransfer _ _ _, hasInteger_unsignedTransfer _ _ _⟩
  · rw [hrewarded₁, hrewarded₂]
    exact List.Perm.swap _ _ _

/-- The calls that pay three amounts to `bob` in one block. -/
def paymentsToBob (l m n : Int) : List Op :=
  [.createTransaction (unsignedTransfer "alice" "bob" l),
   .createTransaction (unsignedTransfer "alice" "bob" m),
   .createTransaction (unsignedTransfer "alice" "bob" n),
   .minePendingTransactions (.str "miner") 7 1]

/-- **Rounded balances depend on the order.** `2 ^ 53`, 1 and 1 coins make
    `2 ^ 53` coins in this order, since `2 ^ 53 + 1` is rounded down, and
    `2 ^ 53 + 2` coins if the large amount comes last. -/
theorem balance_depends_on_order :
    ∃ (bc₁ bc₂ : Blockchain demoEnv) (tr₁ tr₂ : List (Transition (Blockchain demoEnv) Op)),
      Run (queueSystem demoEnv (some ())) (.new demoEnv (some ())) tr₁ bc₁ ∧
      Run (queueSystem demoEnv (some ())) (.new demoEnv (some ())) tr₂ bc₂ ∧
      (accepted tr₁).Perm (accepted tr₂) ∧ (∀ tx ∈ accepted tr₁, HasInteger tx) ∧
      (rewarded tr₁).Perm (rewarded tr₂) ∧
      bc₁.pendingTransactions = [] ∧ bc₂.pendingTransactions = [] ∧
      Blockchain.getBalanceOfAddress .binary64 bc₁.chain (.str "bob") =
        .ok (.num 9007199254740992) ∧
      Blockchain.getBalanceOfAddress .binary64 bc₂.chain (.str "bob") =
        .ok (.num 9007199254740994) := by
  let shown (bc : Blockchain demoEnv) : Option (Int ⊕ String) :=
    numberOrText (Blockchain.getBalanceOfAddress .binary64 bc.chain (.str "bob"))
  obtain ⟨bc₁, tr₁, htr₁, haccepted₁, hrewarded₁, hempty₁, hshown₁⟩ :=
    exists_asked_run (paymentsToBob 9007199254740992 1 1) shown
      (by simp [paymentsToBob, Op.byClock])
      (show _ = some (0, some (.inl 9007199254740992)) by decide +kernel) (by decide +kernel)
  obtain ⟨bc₂, tr₂, htr₂, haccepted₂, hrewarded₂, hempty₂, hshown₂⟩ :=
    exists_asked_run (paymentsToBob 1 1 9007199254740992) shown
      (by simp [paymentsToBob, Op.byClock])
      (show _ = some (0, some (.inl 9007199254740994)) by decide +kernel) (by decide +kernel)
  refine ⟨bc₁, bc₂, tr₁, tr₂, htr₁, htr₂, ?_, ?_, ?_, hempty₁, hempty₂,
    numberOrText_eq_inl hshown₁, numberOrText_eq_inl hshown₂⟩
  · rw [haccepted₁, haccepted₂]
    let large := unsignedTransfer "alice" "bob" 9007199254740992
    let small := unsignedTransfer "alice" "bob" 1
    show ([large] ++ [small, small]).Perm ([small, small] ++ [large])
    exact List.perm_append_comm
  · rw [haccepted₁]
    show ∀ tx ∈ [unsignedTransfer "alice" "bob" 9007199254740992, unsignedTransfer "alice" "bob" 1,
      unsignedTransfer "alice" "bob" 1], HasInteger tx
    rw [List.forall_mem_cons, List.forall_mem_cons, List.forall_mem_singleton]
    exact ⟨hasInteger_unsignedTransfer _ _ _, hasInteger_unsignedTransfer _ _ _,
      hasInteger_unsignedTransfer _ _ _⟩
  · rw [hrewarded₁, hrewarded₂]
    exact .refl _

end XCoin
