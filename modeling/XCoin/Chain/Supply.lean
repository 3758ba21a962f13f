import XCoin.Chain.Balance

/-! # The money supply

    Read as a ledger of payments, the chain makes money only in coinbases, and
    `getBalanceOfAddress` is what the ledger leaves an address with.  So the
    balances add up to one reward per mined block, provided that every block
    holds one coinbase.  Whether sums are rounded or not makes no difference to
    an address at which no more is moved than binary64 numbers hold.

    A call of `minePendingTransactions` that throws leaves its coinbase in the
    pending list.  It never gets into a block: what made the call throw is
    still there, so no later call succeeds either (`SupplyInv.pending`).
-/

namespace XCoin

open Js LTS Ledger

variable {E : Env}

/-! ### Transactions as payments -/

/-- The payment a transaction with an integer amount makes. -/
def payment? (tx : Val) : Option (Payment Val) :=
  match tx.get "fromAddress", tx.get "toAddress", tx.get "amount" with
  | .ok fromAddress, .ok toAddress, .ok (.num n) =>
      some ⟨if Transaction.isNull fromAddress then none else some fromAddress, toAddress, n⟩
  | _, _, _ => none

/-- The transaction pays an integer amount to somebody. -/
def IsPayment (tx : Val) : Prop := ∃ p, payment? tx = some p ∧ p.receiver ≠ .null

/-- The payments of a list of transactions. -/
def paymentsOf (txs : List Val) : List (Payment Val) := txs.filterMap payment?

/-- The payments of a chain. -/
def payments (chain : List Block) : List (Payment Val) :=
  chain.flatMap fun b => paymentsOf b.transactionList

/-- The values an address may be: not `null`, and comparable with `===`. -/
def IsAddress (a : Val) : Prop := a.strictEquals a = true ∧ a ≠ .null

theorem IsAddress.strictEquals_iff {a v : Val} (h : IsAddress a) :
    v.strictEquals a = true ↔ v = a := by
  constructor
  · exact Value.eq_of_strictEquals
  · rintro rfl
    exact h.1

theorem payment?_eq_some {tx : Val} {p : Payment Val} (h : payment? tx = some p) :
    ∃ fromAddress, tx.get "fromAddress" = .ok fromAddress ∧
      tx.get "toAddress" = .ok p.receiver ∧ tx.get "amount" = .ok (.num p.amount) ∧
      p.sender = if Transaction.isNull fromAddress then none else some fromAddress := by
  unfold payment? at h
  split at h
  · next fromAddress toAddress n hfrom hto hamount =>
    simp only [Option.some.injEq] at h
    subst h
    exact ⟨fromAddress, hfrom, hto, hamount, rfl⟩
  · cases h

/-- A coinbase is a payment without a sender. -/
theorem payment?_coinBase {bc : Blockchain E} {address : Val} {coinBase : Transaction}
    (h : bc.coinBaseTransaction address = .ok coinBase) :
    payment? coinBase.toValue = some ⟨none, address, bc.miningReward⟩ := by
  obtain ⟨hfrom, hto, hamount⟩ := coinBase_fields h
  have hget (key : String) (v : Val) (hv : Value.field
      [("id", coinBase.id), ("txIns", coinBase.txIns), ("txOuts", coinBase.txOuts),
       ("fromAddress", coinBase.fromAddress), ("toAddress", coinBase.toAddress),
       ("amount", coinBase.amount), ("signature", coinBase.signature)] key = v) :
      coinBase.toValue.get key = .ok v := congrArg Except.ok hv
  unfold payment?
  rw [hget "fromAddress" .null hfrom, hget "toAddress" address hto,
    hget "amount" (.num bc.miningReward) hamount]
  rfl

/-! ### What the loops compute -/

theorem IsPayment.hasInteger {tx : Val} (h : IsPayment tx) : HasInteger tx := by
  obtain ⟨p, hp, _⟩ := h
  obtain ⟨_, _, _, hamount, _⟩ := payment?_eq_some hp
  exact ⟨p.amount, hamount⟩

open Classical in
/-- A transaction is worth to an address what its payment is. -/
theorem change_payment {tx a : Val} {p : Payment Val} (h : payment? tx = some p)
    (ha : IsAddress a) : change a tx = p.change a := by
  obtain ⟨fromAddress, hfrom, hto, hamount, hsender⟩ := payment?_eq_some h
  -- the address is the sender exactly if the code finds it to be
  have hspends : fromAddress.strictEquals a = true ↔ p.sender = some a := by
    rw [ha.strictEquals_iff, hsender]
    by_cases hnull : Transaction.isNull fromAddress = true
    · simp only [hnull, if_true, reduceCtorEq, iff_false]
      rintro rfl
      exact ha.2 (by cases fromAddress <;> first | rfl | cases hnull)
    · simp [hnull]
  have hreceives := ha.strictEquals_iff (v := p.receiver)
  have hvalue : amountOf tx = p.amount := by
    simp [amountOf, hamount, Except.toOption, numericAmount]
  simp only [change, Payment.change, isField, hfrom, hto, hvalue, hspends, hreceives]

open Classical in
theorem total_change_payments {txs : List Val} {a : Val} (h : ∀ tx ∈ txs, IsPayment tx)
    (ha : IsAddress a) : total (change a) txs = balance a (paymentsOf txs) := by
  induction txs with
  | nil => rfl
  | cons tx txs ih =>
    obtain ⟨⟨p, hp, _⟩, hrest⟩ := List.forall_mem_cons.mp h
    have hsplit : paymentsOf (tx :: txs) = p :: paymentsOf txs := by
      simp [paymentsOf, hp]
    rw [hsplit, total, balance, ih hrest, change_payment hp ha]

/-- The transactions of the block are an array of payments. -/
def PaysOnly (b : Block) : Prop :=
  ∃ txs, b.transactions = .arr txs ∧ ∀ tx ∈ txs, IsPayment tx

/-- The payments of a chain are those of its transactions. -/
theorem payments_eq (chain : List Block) :
    payments chain = paymentsOf (allTransactions chain) := by
  unfold payments allTransactions paymentsOf
  rw [List.filterMap_flatMap]

open Classical in
/-- **The balance is the ledger's**: on a chain of payments
    `getBalanceOfAddress` returns what the payments leave the address with, as
    long as nothing is rounded. -/
theorem getBalanceOfAddress_payments {ρ : Number.Rounding} {bound : Int}
    (hρ : Number.ExactUpTo ρ bound) {chain : List Block} {a : Val}
    (h : ∀ b ∈ chain, PaysOnly b) (ha : IsAddress a)
    (hbound : turnover a (allTransactions chain) ≤ bound) :
    Blockchain.getBalanceOfAddress ρ chain a = .ok (.num (balance a (payments chain))) := by
  have harrays : ∀ b ∈ chain, ∃ txs, b.transactions = .arr txs := by
    intro b hb
    obtain ⟨txs, htxs, _⟩ := h b hb
    exact ⟨txs, htxs⟩
  have hall : ∀ tx ∈ allTransactions chain, IsPayment tx := by
    intro tx htx
    obtain ⟨b, hb, htx⟩ := List.mem_flatMap.mp htx
    obtain ⟨txs, htxs, hpay⟩ := h b hb
    exact hpay tx (Block.transactionList_of_arr htxs ▸ htx)
  rw [getBalanceOfAddress_change hρ harrays (fun tx htx => (hall tx htx).hasInteger.hasAmount)
      (fun tx htx _ => (hall tx htx).hasInteger) hbound,
    total_change_payments hall ha, payments_eq]

/-! ### Runs -/

/-- The calls the supply is about: `addTransaction` of transactions whose
    amount, if they have fields at all, is an integer, and
    `minePendingTransactions` for somebody. -/
def Op.isLedgerOp : Op → Prop
  | .addTransaction tx => ∀ a, tx.get "amount" = .ok a → ∃ n : Int, a = .num n
  | .minePendingTransactions address _ _ => address ≠ .null
  | _ => False

/-- The runs of these calls. -/
def ledgerSystem (E : Env) (keyPair : Option E.KeyPair) : System (Blockchain E) Op :=
  (chainSystem E keyPair).restrict fun _ op => op.isLedgerOp

/-- The transaction is a payment that makes no money. -/
def IsTransfer (tx : Val) : Prop :=
  ∃ p, payment? tx = some p ∧ p.receiver ≠ .null ∧ p.sender ≠ none

/-- What holds of a blockchain object in these runs. -/
structure SupplyInv (bc : Blockchain E) : Prop where
  blocks  : ∀ b ∈ bc.chain, PaysOnly b
  /-- One reward was paid for each block after the genesis block. -/
  minted  : minted (payments bc.chain) = bc.miningReward * (bc.chain.length - 1)
  /-- A coinbase is pending only when nothing can be mined any more. -/
  pending : (∀ tx ∈ bc.pendingTransactions, IsTransfer tx) ∨
    ¬ MiningReady bc.chain (.arr bc.pendingTransactions)

theorem supplyInv_new (keyPair : Option E.KeyPair) : SupplyInv (Blockchain.new E keyPair) where
  blocks := by
    intro b hb
    rw [List.mem_singleton.mp hb]
    exact ⟨[], rfl, by simp⟩
  minted := rfl
  pending := .inl (by simp [Blockchain.new])

/-- What `addTransaction` accepts is a transfer. -/
theorem IsTransfer.of_accepted {bc : Blockchain E} {tx : Val}
    (hint : ∀ a, tx.get "amount" = .ok a → ∃ n : Int, a = .num n)
    (h : (bc.addTransaction tx).1 = .ok ()) : IsTransfer tx := by
  obtain ⟨fromAddress, toAddress, hfrom, hto, hfrom', hto'⟩ :=
    Blockchain.addTransaction_addresses h
  obtain ⟨a, hamount⟩ : ∃ a, tx.get "amount" = .ok a := by
    cases tx <;> first | exact ⟨_, rfl⟩ | cases hfrom
  obtain ⟨n, rfl⟩ := hint a hamount
  have hnull : Transaction.isNull fromAddress = false := by
    cases fromAddress <;> first | rfl | cases hfrom'
  refine ⟨⟨some fromAddress, toAddress, n⟩, ?_, ?_, by simp⟩
  · simp [payment?, hfrom, hto, hamount, hnull]
  · rintro rfl
    cases hto'

/-- Transfers and one coinbase make one reward. -/
theorem minted_block {bc : Blockchain E} {address : Val} {coinBase : Transaction}
    {txs : List Val} (hcoin : bc.coinBaseTransaction address = .ok coinBase)
    (htxs : ∀ tx ∈ txs, IsTransfer tx) :
    Ledger.minted (paymentsOf (txs ++ [coinBase.toValue])) = bc.miningReward := by
  have hzero : Ledger.minted (paymentsOf txs) = 0 := by
    apply minted_eq_zero
    intro p hp
    obtain ⟨tx, htx, hpay⟩ := List.mem_filterMap.mp hp
    obtain ⟨q, hq, _, hsender⟩ := htxs tx htx
    rw [hpay, Option.some.injEq] at hq
    exact hq ▸ hsender
  have hsplit : paymentsOf (txs ++ [coinBase.toValue]) =
      paymentsOf txs ++ [⟨none, address, bc.miningReward⟩] := by
    simp [paymentsOf, payment?_coinBase hcoin]
  rw [hsplit, minted_append, hzero]
  simp [Ledger.minted, Payment.minted]

/-- Pushing to the pending list keeps the invariant if the list keeps its
    part of it. -/
theorem SupplyInv.createTransaction {bc : Blockchain E} {tx : Val} (h : SupplyInv bc)
    (htx : IsTransfer tx ∨ ¬ MiningReady bc.chain (.arr (bc.pendingTransactions ++ [tx]))) :
    SupplyInv (bc.createTransaction tx) where
  blocks := h.blocks
  minted := h.minted
  pending := by
    rcases htx with htx | hstuck
    · rcases h.pending with hall | hstuck
      · exact .inl (Blockchain.forall_mem_createTransaction.mpr ⟨hall, htx⟩)
      · -- what kept the list from being mined is still in it
        exact .inr fun hready => hstuck hready.of_append
    · exact .inr hstuck

/-- While mining is possible, nothing but transfers is pending. -/
theorem SupplyInv.transfers {bc : Blockchain E} {more : List Val} (h : SupplyInv bc)
    (hready : MiningReady bc.chain (.arr (bc.pendingTransactions ++ more))) :
    ∀ tx ∈ bc.pendingTransactions, IsTransfer tx :=
  h.pending.resolve_right fun hstuck => hstuck hready.of_append

/-- Mining a block keeps the invariant. -/
theorem SupplyInv.mined {bc : Blockchain E} {address : Val} {coinBase : Transaction} {b : Block}
    (h : SupplyInv bc) (haddress : address ≠ .null)
    (hcoin : bc.coinBaseTransaction address = .ok coinBase) (hmined : MinedOn E bc.chain b)
    (htxs : b.transactions = .arr (bc.pendingTransactions ++ [coinBase.toValue])) :
    SupplyInv { bc with chain := bc.chain ++ [b], pendingTransactions := [] } where
  blocks := by
    intro b' hb'
    rcases List.mem_append.mp hb' with hb' | hb'
    · exact h.blocks b' hb'
    · rw [List.mem_singleton.mp hb']
      refine ⟨_, htxs, ?_⟩
      intro tx htx
      rcases List.mem_append.mp htx with htx | htx
      · obtain ⟨p, hp, hreceiver, _⟩ := h.transfers (htxs ▸ hmined.miningReady) tx htx
        exact ⟨p, hp, hreceiver⟩
      · rw [List.mem_singleton.mp htx]
        exact ⟨_, payment?_coinBase hcoin, haddress⟩
  minted := by
    have hpending := h.transfers (htxs ▸ hmined.miningReady)
    have hsplit : payments (bc.chain ++ [b]) = payments bc.chain ++
        paymentsOf (bc.pendingTransactions ++ [coinBase.toValue]) := by
      simp [payments, Block.transactionList_of_arr htxs]
    show Ledger.minted (payments (bc.chain ++ [b])) =
      bc.miningReward * ((bc.chain ++ [b]).length - 1)
    rw [hsplit, minted_append, h.minted, minted_block hcoin hpending, List.length_append,
      List.length_singleton, Nat.cast_add, Nat.cast_one, add_sub_cancel_right, mul_sub, mul_one]
    omega
  pending := .inl (by simp)

/-- **Step lemma**: every call keeps the invariant. -/
theorem SupplyInv.step {bc bc' : Blockchain E} {op : Op} {r : Result Unit} (h : SupplyInv bc)
    (hop : op.isLedgerOp) (hexec : op.exec bc = some (r, bc')) : SupplyInv bc' := by
  cases Op.exec_outcome hexec with
  | unchanged => exact h
  | created => exact hop.elim
  | appended => exact hop.elim
  | accepted tx =>
    have hadd : (bc.addTransaction tx).1 = .ok () :=
      congrArg Prod.fst (Option.some.inj hexec)
    exact h.createTransaction (.inl (.of_accepted hop hadd))
  | stranded address date fuel coinBase e hcoin hthrows =>
    refine h.createTransaction (.inr ?_)
    intro hready
    exact hthrows ⟨coinBase, hcoin, hready⟩
  | mined address date fuel coinBase b hcoin hmined htime htxs =>
    exact h.mined hop hcoin hmined htxs

/-- **Run lemma** for the invariant. -/
theorem supplyInv_of_reachable {keyPair : Option E.KeyPair} {bc : Blockchain E}
    (h : Reachable (ledgerSystem E keyPair) bc) : SupplyInv bc := by
  refine h.invariant_from (fun _ hs => hs) (supplyInv_new keyPair) ?_
  intro s op s' hinv hstep
  obtain ⟨hop, r, hexec⟩ := hstep
  exact hinv.step hop hexec

/-- The addresses `S` contain every sender and every receiver of the chain. -/
def HoldsParties (S : Finset Val) (chain : List Block) : Prop :=
  ∀ b ∈ chain, ∀ tx ∈ b.transactionList, ∀ v,
    tx.get "fromAddress" = .ok v ∨ tx.get "toAddress" = .ok v → v ≠ .null → v ∈ S

/-- Payments between addresses of `S` are within `S`. -/
theorem HoldsParties.within {S : Finset Val} {chain : List Block} (hS : HoldsParties S chain)
    (hpay : ∀ b ∈ chain, PaysOnly b) : ∀ p ∈ payments chain, p.Within S := by
  intro p hp
  obtain ⟨b, hb, hp⟩ := List.mem_flatMap.mp hp
  obtain ⟨tx, htx, hp⟩ := List.mem_filterMap.mp hp
  obtain ⟨fromAddress, hfrom, hto, _, hsender⟩ := payment?_eq_some hp
  obtain ⟨txs, htxs, hall⟩ := hpay b hb
  refine ⟨?_, ?_⟩
  · obtain ⟨q, hq, hreceiver⟩ := hall tx (Block.transactionList_of_arr htxs ▸ htx)
    rw [hp, Option.some.injEq] at hq
    exact hS b hb tx htx p.receiver (.inr hto) (hq ▸ hreceiver)
  · intro a ha
    rw [hsender] at ha
    by_cases hnull : Transaction.isNull fromAddress = true
    · simp [hnull] at ha
    · simp only [hnull, Bool.false_eq_true, if_false, Option.some.injEq] at ha
      subst ha
      refine hS b hb tx htx fromAddress (.inl hfrom) ?_
      rintro rfl
      exact hnull rfl

/-- **The money supply.** After any run of `addTransaction` with integer
    amounts and `minePendingTransactions`, refused transactions and failed
    minings included, the balances of addresses that contain every sender and
    receiver of the chain add up to one mining reward for each block after
    the genesis block.  The balances are the exact ones, which the code
    computes wherever no more than `2 ^ 53` coins are moved at an address. -/
theorem money_supply {keyPair : Option E.KeyPair} {bc : Blockchain E}
    (h : Reachable (ledgerSystem E keyPair) bc) {S : Finset Val} (hS : ∀ a ∈ S, IsAddress a)
    (hparties : HoldsParties S bc.chain) :
    ∃ balance : Val → Int,
      (∀ a ∈ S, Blockchain.getBalanceOfAddress .exact bc.chain a = .ok (.num (balance a))) ∧
      ∑ a ∈ S, balance a = bc.miningReward * (bc.chain.length - 1) ∧
      ∀ a ∈ S, turnover a (allTransactions bc.chain) ≤ 2 ^ 53 →
        Blockchain.getBalanceOfAddress .binary64 bc.chain a = .ok (.num (balance a)) := by
  classical
  have hinv := supplyInv_of_reachable h
  refine ⟨fun a => balance a (payments bc.chain), ?_, ?_, ?_⟩
  · intro a ha
    exact getBalanceOfAddress_payments (Number.exactUpTo_exact _) hinv.blocks (hS a ha) le_rfl
  · rw [sum_balance (hparties.within hinv.blocks), hinv.minted]
  · intro a ha hbound
    exact getBalanceOfAddress_payments Number.exactUpTo_binary64 hinv.blocks (hS a ha) hbound

/-! ### A transfer between two addresses -/

/-- The addresses with the given texts. -/
def accounts (names : Finset String) : Finset Val :=
  names.map ⟨Value.str, fun _ _ h => Value.str.inj h⟩

theorem isAddress_accounts {names : Finset String} : ∀ a ∈ accounts names, IsAddress a := by
  intro a ha
  obtain ⟨s, _, rfl⟩ := Finset.mem_map.mp ha
  exact ⟨decide_eq_true rfl, by simp⟩

/-- Is the value of a field one of the addresses, or `null`? -/
def isParty (names : Finset String) : Result Val → Bool
  | .ok (.str s) => decide (s ∈ names)
  | .ok .null    => true
  | _            => false

/-- Are the addresses all senders and receivers of a chain? -/
def areParties (names : Finset String) (c : List Block) : Bool :=
  (allTransactions c).all fun tx =>
    isParty names (tx.get "fromAddress") && isParty names (tx.get "toAddress")

theorem holdsParties_accounts {names : Finset String} {c : List Block}
    (h : areParties names c = true) : HoldsParties (accounts names) c := by
  intro b hb tx htx v hv hnull
  have hchecked := List.all_eq_true.mp h tx (List.mem_flatMap.mpr ⟨b, hb, htx⟩)
  rw [Bool.and_eq_true] at hchecked
  have hparty : isParty names (.ok v) = true := by
    rcases hv with hv | hv
    · exact hv ▸ hchecked.1
    · exact hv ▸ hchecked.2
  cases v with
  | str s => exact Finset.mem_map.mpr ⟨s, of_decide_eq_true hparty, rfl⟩
  | null => exact absurd rfl hnull
  | _ => cases hparty

/-- Do the transactions of a chain move at most `2 ^ 53` coins at each of the
    addresses? -/
def movesExactly (names : List String) (c : List Block) : Bool :=
  names.all fun s => decide (turnover (.str s) (allTransactions c) ≤ 2 ^ 53)

theorem turnover_le_accounts {names : List String} {c : List Block}
    (h : movesExactly names c = true) :
    ∀ a ∈ accounts names.toFinset, turnover a (allTransactions c) ≤ 2 ^ 53 := by
  intro a ha
  obtain ⟨s, hs, rfl⟩ := Finset.mem_map.mp ha
  exact of_decide_eq_true (List.all_eq_true.mp h s (List.mem_toFinset.mp hs))

/-- A transfer of `amount` coins with a signature. -/
def signedTransfer (sender receiver : String) (amount : Int) : Val :=
  Transaction.toValue { Transaction.new (.str sender) (.str receiver) (.num amount) .undefined
    .undefined .undefined with signature := .str "3006" }

/-- The supply after a transfer from one address to another, a refused
    transaction and two blocks that reward the one and the other. -/
theorem money_supply_two_blocks :
    ∃ (bc : Blockchain demoEnv) (balance : Val → Int),
      Reachable (ledgerSystem demoEnv (some ())) bc ∧ bc.chain.length = 3 ∧
      HoldsParties (accounts {"04aa", "04bb"}) bc.chain ∧
      (∀ a ∈ accounts {"04aa", "04bb"},
        Blockchain.getBalanceOfAddress .exact bc.chain a = .ok (.num (balance a)) ∧
        Blockchain.getBalanceOfAddress .binary64 bc.chain a = .ok (.num (balance a))) ∧
      ∑ a ∈ accounts {"04aa", "04bb"}, balance a =
        bc.miningReward * (bc.chain.length - 1) := by
  let ops : List Op :=
    [.addTransaction (signedTransfer "04aa" "04bb" 30), .minePendingTransactions (.str "04aa") 7 1,
     .addTransaction .null, .minePendingTransactions (.str "04bb") 9 1]
  have hfinal : (execAll (Blockchain.new demoEnv (some ())) ops).map (fun bc =>
      (bc.chain.length, areParties {"04aa", "04bb"} bc.chain,
        movesExactly ["04aa", "04bb"] bc.chain)) = some (3, true, true) := by
    decide +kernel
  obtain ⟨bc, hrun, hfacts⟩ := Option.map_eq_some_iff.mp hfinal
  obtain ⟨hlen, hfacts⟩ := Prod.mk.inj hfacts
  obtain ⟨hparties, hmoves⟩ := Prod.mk.inj hfacts
  have hallowed : ∀ op ∈ ops, op.isLedgerOp := by
    simp only [ops, List.forall_mem_cons, Op.isLedgerOp]
    refine ⟨fun a ha => ⟨30, (Except.ok.inj ha).symm⟩, by simp, fun a ha => ?_, by simp, by simp⟩
    cases ha
  obtain ⟨tr, htr, _⟩ := run_of_execAll (some ()) (fun _ op => op.isLedgerOp)
    (fun _ => hallowed) hrun
  have hreach : Reachable (ledgerSystem demoEnv (some ())) bc := htr.reachable (.init rfl)
  have hbound := turnover_le_accounts hmoves
  obtain ⟨balance, hexact, hsum, hrounded⟩ :=
    money_supply hreach isAddress_accounts (holdsParties_accounts hparties)
  exact ⟨bc, balance, hreach, hlen, holdsParties_accounts hparties,
    fun a ha => ⟨hexact a ha, hrounded a ha (hbound a ha)⟩, hsum⟩

end XCoin
