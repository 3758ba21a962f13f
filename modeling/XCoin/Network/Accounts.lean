import XCoin.Chain.Supply
import XCoin.Network.Schedule

/-! # Who pays whom in a network

    Every transaction that is waiting or mined anywhere in a network is one of
    three: the transaction of `triggerMineBlock`, from nobody to nobody, the
    coinbase of a node, or what a node made when a user asked it for a
    transfer.  Nothing else gets into a chain, and nothing is changed on the
    way but what JSON changes.

    So the money of a chain comes from coinbases.  As long as nodes do not
    mine on a negative difficulty, there is one for each block, and all
    balances add up to one reward for each block.
-/

namespace XCoin

open Js LTS Ledger Throwing

variable {E : Env} {ι : Type} {cfg : Config E ι} {cfgs : ι → Config E ι}
  {asks : ι → String → Int → Prop}

/-! ### What a transaction can be -/

/-- The value is the transaction itself, or what arrives of it. -/
def Made (t : Transaction) (tx : Val) : Prop :=
  tx = t.toValue ∨ Json.transport t.toValue = .ok (some tx)

theorem Made.transport {t : Transaction} {tx body : Val} (h : Made t tx)
    (hsent : Json.transport tx = .ok (some body)) : Made t body := by
  rcases h with rfl | harrived
  · exact .inr hsent
  · -- what has arrived once arrives unchanged
    rw [Json.transport_idem _ _ harrived, Except.ok.injEq, Option.some.injEq] at hsent
    exact .inr (hsent ▸ harrived)

/-- What users and `triggerMineBlock` order: the transaction from nobody to
    nobody, or a transfer somebody asked a node for. -/
inductive Ordered (cfgs : ι → Config E ι) (asks : ι → String → Int → Prop) (tx : Val) : Prop where
  | trigger (h : Made Node.triggerTransaction tx)
  | transfer (p : ι) (receiver : String) (amount : Int) (t : Transaction)
      (hreceiver : receiver ≠ "") (hasks : asks p receiver amount)
      (ht : Node.requestedTransaction (cfgs p) (.str receiver) (.num amount) = .ok t)
      (h : Made t tx)

/-- The coinbase of a node. -/
def Rewards (cfgs : ι → Config E ι) (tx : Val) : Prop :=
  ∃ (p : ι) (bc : Blockchain E) (coinBase : Transaction), bc.SetUp (cfgs p) ∧
    bc.coinBaseTransaction (cfgs p).myWalletAddress = .ok coinBase ∧ Made coinBase tx

/-- The transaction is accounted for. -/
def Accounted (cfgs : ι → Config E ι) (asks : ι → String → Int → Prop) (tx : Val) : Prop :=
  Ordered cfgs asks tx ∨ Rewards cfgs tx

theorem Ordered.transport {tx body : Val} (h : Ordered cfgs asks tx)
    (hsent : Json.transport tx = .ok (some body)) : Ordered cfgs asks body := by
  cases h with
  | trigger h => exact .trigger (h.transport hsent)
  | transfer p receiver amount t hreceiver hasks ht h =>
    exact .transfer p receiver amount t hreceiver hasks ht (h.transport hsent)

theorem Rewards.transport {tx body : Val} (h : Rewards cfgs tx)
    (hsent : Json.transport tx = .ok (some body)) : Rewards cfgs body := by
  obtain ⟨p, bc, coinBase, hbc, hcoin, hmade⟩ := h
  exact ⟨p, bc, coinBase, hbc, hcoin, hmade.transport hsent⟩

theorem Accounted.transport {tx body : Val} (h : Accounted cfgs asks tx)
    (hsent : Json.transport tx = .ok (some body)) : Accounted cfgs asks body := by
  rcases h with h | h
  · exact .inl (h.transport hsent)
  · exact .inr (h.transport hsent)

/-! ### Everything is accounted for -/

/-- The transactions of a chain that arrives are those that were sent. -/
theorem IsCopy.sent_transactions {clock : Int → Prop} {c c' : List Block} (h : IsCopy E clock c)
    (hc' : transportChain c = .ok c') :
    List.Forall₂ Json.Sent (allTransactions c) (allTransactions c') := by
  have hcarried := h.carried hc'
  clear hc' h
  induction hcarried with
  | nil => exact .nil
  | cons hb _ ih =>
    obtain ⟨txs, txs', htxs, htxs', hsent⟩ := hb.list
    simp only [allTransactions, List.flatMap_cons, Block.transactionList_of_arr htxs,
      Block.transactionList_of_arr htxs']
    exact List.rel_append hsent ih

theorem allTransactions_append {c : List Block} {b : Block} {txs : List Val}
    (htxs : b.transactions = .arr txs) :
    allTransactions (c ++ [b]) = allTransactions c ++ txs := by
  simp [allTransactions, Block.transactionList_of_arr htxs]

/-- A chain whose transactions are accounted for. -/
def AccountedChain (cfgs : ι → Config E ι) (asks : ι → String → Int → Prop) (c : List Block) :
    Prop :=
  IsCopy E (fun _ => True) c ∧ ∀ tx ∈ allTransactions c, Accounted cfgs asks tx

/-- Nodes make, mine and pass on nothing else. -/
theorem preserved_accounted (cfgs : ι → Config E ι) (asks : ι → String → Int → Prop) :
    Preserved cfgs (fun _ _ => True) asks (AccountedChain cfgs asks)
      (fun tx => Json.IsJson tx ∧ Accounted cfgs asks tx) := by
  have hcopy := preserved_isCopy cfgs (fun _ => True) asks
  have hreward (p : ι) (bc : Blockchain E) (coinBase : Transaction) (hbc : bc.SetUp (cfgs p))
      (hcoin : bc.coinBaseTransaction (cfgs p).myWalletAddress = .ok coinBase) :
      Accounted cfgs asks coinBase.toValue := .inr ⟨p, bc, coinBase, hbc, hcoin, .inl rfl⟩
  constructor
  case genesis => exact ⟨hcopy.genesis, by simp [allTransactions, createGenesisBlock, Block.new,
    Block.transactionList]⟩
  case trigger => exact ⟨hcopy.trigger, .inl (.trigger (.inl rfl))⟩
  case requested =>
    intro p receiver amount tx hreceiver hasks ht hvalid
    exact ⟨hcopy.requested p receiver amount tx hreceiver hasks ht hvalid,
      .inl (.transfer p receiver amount tx hreceiver hasks ht (.inl rfl))⟩
  case stranded =>
    intro p bc coinBase date hbc hchain hpending hdate hcoin hthrows
    exact ⟨hcopy.stranded p bc coinBase date hbc hchain.1 (fun tx htx => (hpending tx htx).1)
      hdate hcoin hthrows, hreward p bc coinBase hbc hcoin⟩
  case mined =>
    intro p bc coinBase b date hbc hchain hpending hcoin hmined hdate htime htxs
    refine ⟨hcopy.mined p bc coinBase b date hbc hchain.1 (fun tx htx => (hpending tx htx).1)
      hcoin hmined hdate htime htxs, ?_⟩
    rw [allTransactions_append htxs]
    refine List.forall_mem_append.mpr ⟨hchain.2, List.forall_mem_append.mpr ⟨?_, ?_⟩⟩
    · exact fun tx htx => (hpending tx htx).2
    · exact List.forall_mem_singleton.mpr (hreward p bc coinBase hbc hcoin)
  case sentChain =>
    intro c c' hchain hsent
    refine ⟨hchain.1.transport hsent, ?_⟩
    intro tx' htx'
    obtain ⟨tx, htx, harrives⟩ := exists_mem_of_forall₂ (hchain.1.sent_transactions hsent) htx'
    exact (hchain.2 tx htx).transport harrives.2
  case sent =>
    intro tx body htx hsent
    exact ⟨hcopy.sent tx body htx.1 hsent, htx.2.transport hsent⟩

/-- The transfers that users ask for in a run. -/
def askedIn (tr : List (Transition (Network E ι) (Action ι))) (p : ι) (receiver : String)
    (amount : Int) : Prop :=
  ∃ x ∈ tr, x.label = .transactionRequest p receiver amount

/-- **Every transaction is accounted for.** In every run of a network, each
    transaction that waits to be mined anywhere, or is in any chain anywhere,
    is the transaction of `triggerMineBlock`, the coinbase of a node, or the
    transaction that a node made, with its own key, when it was asked in the
    run for that transfer: itself, or what arrives of it. -/
theorem transactions_accounted [DecidableEq ι] {names : List ι} {s : Network E ι}
    {tr : List (Transition (Network E ι) (Action ι))}
    (hrun : Run (networkSystem names cfgs) (.new names cfgs) tr s) :
    (∀ tx, s.HasTransaction tx → Accounted cfgs (askedIn tr) tx) ∧
    ∀ c, s.HasChain c → ∀ tx ∈ allTransactions c, Accounted cfgs (askedIn tr) tx := by
  have hinputs : Run (inputSystem names cfgs (fun _ _ => True) (askedIn tr))
      (.new names cfgs) tr s := by
    refine hrun.restrict ?_
    intro x hx
    constructor
    · exact Action.byClock_true x.pre x.label
    · cases hlabel : x.label with
      | transactionRequest p receiver amount => exact ⟨x, hx, hlabel⟩
      | _ => trivial
  have hholds := (preserved_accounted cfgs (askedIn tr)).of_inputs (hinputs.reachable (.init rfl))
  exact ⟨fun tx htx => (hholds.hasTransaction htx).2, fun c hc => (hholds.hasChain hc).2⟩

/-- A user asks a node for a transfer, the other node mines it, mines once
    more and serves its chain. -/
def transferActions : List (TracedAction Bool) :=
  [.transactionRequest false (.str "04bb") (.num 5), .deliver 2 7 1, .triggerMineBlock true 9 1,
   .answer 0]

/-- The transfer, the two coinbases and the transaction of `triggerMineBlock`
    are accounted for. -/
theorem transactions_accounted_transfer :
    ∃ (tr : List (Transition (Network demoEnv Bool) (Action Bool))) (s : Network demoEnv Bool),
      Run (networkSystem [false, true] demoConfig) (.new [false, true] demoConfig) tr s ∧
      (allTransactions (s.nodes true).chain).length = 4 ∧
      (∀ tx, s.HasTransaction tx → Accounted demoConfig (askedIn tr) tx) ∧
      ∀ c, s.HasChain c → ∀ tx ∈ allTransactions c, Accounted demoConfig (askedIn tr) tx := by
  have hfinal : (execPlain demoConfig (fun _ _ => true) (.new [false, true] demoConfig)
      transferActions).map (fun s => (allTransactions (s.nodes true).chain).length) = some 4 := by
    decide +kernel
  obtain ⟨s, hexec, hlen⟩ := Option.map_eq_some_iff.mp hfinal
  obtain ⟨tr, hrun⟩ := run_of_execPlain hexec
  exact ⟨tr, s.erase, hrun.of_restrict, hlen, transactions_accounted hrun.of_restrict⟩

/-! ### Payments -/

/-- A field that JSON does not change is as it was made. -/
theorem Made.get {t : Transaction} {tx v : Val} {key : String} (h : Made t tx)
    (hget : t.toValue.get key = .ok v) (hkept : Json.transport v = .ok (some v)) :
    tx.get key = .ok v := by
  rcases h with rfl | harrived
  · exact hget
  · exact Json.get_transport_kept hget hkept harrived

/-- The payment of a transaction between parties that are texts or `null`. -/
theorem Made.payment {t : Transaction} {tx : Val} {amount : Int} (h : Made t tx)
    (hfrom : Json.transport t.fromAddress = .ok (some t.fromAddress))
    (hto : Json.transport t.toAddress = .ok (some t.toAddress)) (hamount : t.amount = .num amount) :
    payment? tx = some ⟨if Transaction.isNull t.fromAddress then none else some t.fromAddress,
      t.toAddress, amount⟩ := by
  have hfrom' : tx.get "fromAddress" = .ok t.fromAddress := h.get rfl hfrom
  have hto' : tx.get "toAddress" = .ok t.toAddress := h.get rfl hto
  have hamount' : tx.get "amount" = .ok (.num amount) := h.get (by rw [← hamount]; rfl) rfl
  simp only [payment?, hfrom', hto', hamount']

/-- What is ordered moves money from nobody to nobody, or from somebody to
    somebody. -/
theorem Ordered.payment {tx : Val} (h : Ordered cfgs asks tx) :
    ∃ p, payment? tx = some p ∧
      (p.sender = none ∧ p.receiver = .null ∨ p.sender ≠ none ∧ p.receiver ≠ .null) := by
  cases h with
  | trigger h => exact ⟨_, h.payment rfl rfl rfl, .inl ⟨rfl, rfl⟩⟩
  | transfer p receiver amount t hreceiver hasks ht h =>
    obtain ⟨_, _, _, _, _, _, hfrom, hto, hamount, _⟩ := requestedTransaction_fields ht
    refine ⟨_, h.payment (by rw [hfrom]; rfl) (by rw [hto]; rfl) hamount, .inr ?_⟩
    simp [hfrom, hto, Config.myWalletAddress, Transaction.isNull]

/-- A coinbase pays the reward to the wallet of its node. -/
theorem Rewards.payment {tx : Val} (h : Rewards cfgs tx) :
    ∃ q, payment? tx = some ⟨none, (cfgs q).myWalletAddress, 100⟩ := by
  obtain ⟨q, bc, coinBase, hbc, hcoin, hmade⟩ := h
  obtain ⟨hfrom, hto, hamount⟩ := coinBase_fields hcoin
  rw [hbc.reward] at hamount
  refine ⟨q, ?_⟩
  rw [hmade.payment (by rw [hfrom]; rfl) (by rw [hto]; rfl) hamount, hfrom, hto]
  rfl

/-- The money a transaction makes for somebody. -/
def issued (tx : Val) : Int :=
  match payment? tx with
  | some p => if Transaction.isNull p.receiver then 0 else p.minted
  | none   => 0

theorem isNull_iff {v : Val} : Transaction.isNull v = true ↔ v = .null := by
  cases v <;> simp [Transaction.isNull]

theorem Ordered.issued {tx : Val} (h : Ordered cfgs asks tx) : issued tx = 0 := by
  obtain ⟨p, hp, ⟨_, hreceiver⟩ | ⟨hsender, _⟩⟩ := h.payment
  · simp only [XCoin.issued, hp, isNull_iff.mpr hreceiver, if_true]
  · obtain ⟨a, ha⟩ := Option.ne_none_iff_exists'.mp hsender
    simp [XCoin.issued, hp, Payment.minted, ha]

theorem Rewards.issued {tx : Val} (h : Rewards cfgs tx) : issued tx = 100 := by
  obtain ⟨q, hq⟩ := h.payment
  simp [XCoin.issued, hq, Payment.minted, Config.myWalletAddress, Transaction.isNull]

theorem Accounted.exists_payment {tx : Val} (h : Accounted cfgs asks tx) :
    ∃ p, payment? tx = some p ∧ (p.receiver = .null → p.sender = none) := by
  rcases h with h | h
  · obtain ⟨p, hp, ⟨hsender, _⟩ | ⟨_, hreceiver⟩⟩ := h.payment
    · exact ⟨p, hp, fun _ => hsender⟩
    · exact ⟨p, hp, fun hnull => absurd hnull hreceiver⟩
  · obtain ⟨q, hq⟩ := h.payment
    exact ⟨_, hq, fun _ => rfl⟩

/-! ### The money supply -/

/-- A chain whose transactions are accounted for, with one reward for each
    block after the genesis block. -/
def SoundChain (cfgs : ι → Config E ι) (c : List Block) : Prop :=
  AccountedChain cfgs (fun _ _ _ => True) c ∧
    total issued (allTransactions c) = 100 * (c.length - 1)

/-- Nodes that do not mine on a negative difficulty keep their chains sound. -/
theorem preserved_sound (hE : WorkingKeys E) (cfgs : ι → Config E ι) :
    Preserved cfgs (fun c _ => Mineable c) (fun _ _ _ => True) (SoundChain cfgs)
      (fun tx => Json.IsJson tx ∧ Ordered cfgs (fun _ _ _ => True) tx) := by
  have haccounted := preserved_accounted cfgs fun _ _ _ => True
  constructor
  case genesis => exact ⟨haccounted.genesis, rfl⟩
  case trigger => exact ⟨haccounted.trigger.1, .trigger (.inl rfl)⟩
  case requested =>
    intro p receiver amount tx hreceiver hasks ht hvalid
    exact ⟨(haccounted.requested p receiver amount tx hreceiver hasks ht hvalid).1,
      .transfer p receiver amount tx hreceiver hasks ht (.inl rfl)⟩
  case stranded =>
    -- mining does not throw
    rintro p bc coinBase date hbc hchain hpending ⟨d, hnonneg, hd, _⟩ hcoin hthrows
    have hcan := (hE.canMine_iff hbc (fun tx htx => (hpending tx htx).1) hd).mpr hnonneg
    exact absurd hcan hthrows
  case mined =>
    intro p bc coinBase b date hbc hchain hpending hcoin hmined hdate htime htxs
    have hpending' : ∀ tx ∈ bc.pendingTransactions,
        Json.IsJson tx ∧ Accounted cfgs (fun _ _ _ => True) tx :=
      fun tx htx => ⟨(hpending tx htx).1, .inl (hpending tx htx).2⟩
    refine ⟨haccounted.mined p bc coinBase b date hbc hchain.1 hpending' hcoin hmined trivial
      htime htxs, ?_⟩
    have hreward : Rewards cfgs coinBase.toValue := ⟨p, bc, coinBase, hbc, hcoin, .inl rfl⟩
    have hzero : total issued bc.pendingTransactions = 0 :=
      total_eq_zero fun tx htx => (hpending tx htx).2.issued
    have hone : total issued [coinBase.toValue] = 100 := by
      rw [total, total, hreward.issued, Int.add_zero]
    rw [allTransactions_append htxs, total_append, total_append, hchain.2, hzero, hone,
      List.length_append, List.length_singleton]
    push_cast
    omega
  case sentChain =>
    intro c c' hchain hsent
    refine ⟨haccounted.sentChain c c' hchain.1 hsent, ?_⟩
    rw [(transportChain_ok hsent).1, ← hchain.2]
    refine (total_forall₂ (hchain.1.1.sent_transactions hsent) ?_).symm
    intro tx htx tx' harrives
    rcases hchain.1.2 tx htx with hordered | hreward
    · rw [hordered.issued, (hordered.transport harrives.2).issued]
    · rw [hreward.issued, (hreward.transport harrives.2).issued]
  case sent =>
    intro tx body htx hsent
    exact ⟨htx.1.transport hsent, htx.2.transport hsent⟩

/-- Over addresses that contain its parties, a transaction changes the balances
    by the money it makes. -/
theorem Accounted.sum_change {S : Finset Val} {tx : Val} (h : Accounted cfgs asks tx)
    (hS : ∀ a ∈ S, IsAddress a)
    (hparties : ∀ v, tx.get "fromAddress" = .ok v ∨ tx.get "toAddress" = .ok v →
      v ≠ .null → v ∈ S) : ∑ a ∈ S, change a tx = issued tx := by
  classical
  obtain ⟨p, hp, hnobody⟩ := h.exists_payment
  obtain ⟨fromAddress, hfrom, hto, _, hsender⟩ := payment?_eq_some hp
  have hchange : ∑ a ∈ S, change a tx = ∑ a ∈ S, p.change a :=
    Finset.sum_congr rfl fun a ha => change_payment hp (hS a ha)
  rw [hchange]
  by_cases hnull : p.receiver = .null
  · -- nobody pays nobody
    have hzero : ∀ a ∈ S, p.change a = 0 := by
      intro a ha
      have hne : p.receiver ≠ a := by
        rw [hnull]
        exact (hS a ha).2.symm
      simp [Payment.change, hnobody hnull, hne]
    rw [Finset.sum_eq_zero hzero]
    simp only [issued, hp, isNull_iff.mpr hnull, if_true]
  · have hwithin : p.Within S := by
      refine ⟨hparties _ (.inr hto) hnull, ?_⟩
      intro a ha
      rw [hsender] at ha
      split at ha
      · cases ha
      · next hsome =>
        obtain rfl := Option.some.inj ha
        exact hparties _ (.inl hfrom) fun heq => hsome (isNull_iff.mpr heq)
    have hnotNull : ¬ Transaction.isNull p.receiver = true := fun h => hnull (isNull_iff.mp h)
    rw [Ledger.sum_change hwithin]
    simp only [issued, hp, if_neg hnotNull]

/-- **The money supply of a network.** If keys work and no node mines while its
    chain demands a negative difficulty, then for every chain anywhere in the
    network the balances of addresses that contain every sender and receiver
    of the chain add up to 100 coins for each block after the genesis block.
    The balances are the exact ones, which the code computes wherever no more
    than `2 ^ 53` coins are moved at an address. -/
theorem network_money_supply [DecidableEq ι] (hE : WorkingKeys E) {names : List ι}
    {s : Network E ι} (h : Reachable (clockSystem names cfgs fun c _ => Mineable c) s)
    {c : List Block} (hc : s.HasChain c) {S : Finset Val} (hS : ∀ a ∈ S, IsAddress a)
    (hparties : HoldsParties S c) :
    ∃ balance : Val → Int,
      (∀ a ∈ S, Blockchain.getBalanceOfAddress .exact c a = .ok (.num (balance a))) ∧
      ∑ a ∈ S, balance a = 100 * (c.length - 1) ∧
      ∀ a ∈ S, turnover a (allTransactions c) ≤ 2 ^ 53 →
        Blockchain.getBalanceOfAddress .binary64 c a = .ok (.num (balance a)) := by
  obtain ⟨⟨hcopy, haccounted⟩, hissued⟩ := ((preserved_sound hE cfgs).of_reachable h).hasChain hc
  have hintegers : ∀ tx ∈ allTransactions c, HasInteger tx := by
    intro tx htx
    obtain ⟨p, hp, _⟩ := (haccounted tx htx).exists_payment
    obtain ⟨_, _, _, hamount, _⟩ := payment?_eq_some hp
    exact ⟨p.amount, hamount⟩
  have harrays : ∀ b ∈ c, ∃ txs, b.transactions = .arr txs := by
    intro b hb
    obtain ⟨txs, htxs, _⟩ := hcopy.lists b hb
    exact ⟨txs, htxs⟩
  have hbalance {ρ : Number.Rounding} {bound : Int} (hρ : Number.ExactUpTo ρ bound) (a : Val)
      (hbound : turnover a (allTransactions c) ≤ bound) :
      Blockchain.getBalanceOfAddress ρ c a = .ok (.num (total (change a) (allTransactions c))) :=
    getBalanceOfAddress_change hρ harrays (fun tx htx => (hintegers tx htx).hasAmount)
      (fun tx htx _ => hintegers tx htx) hbound
  refine ⟨fun a => total (change a) (allTransactions c), ?_, ?_, ?_⟩
  · intro a _
    exact hbalance (Number.exactUpTo_exact _) a le_rfl
  · rw [sum_total, ← hissued]
    refine total_congr ?_
    intro tx htx
    obtain ⟨b, hb, htx'⟩ := List.mem_flatMap.mp htx
    exact (haccounted tx htx).sum_change hS (hparties b hb tx htx')
  · intro a _ hbound
    exact hbalance Number.exactUpTo_binary64 a hbound

/-- The supply after a transfer to another address and two blocks. -/
theorem network_money_supply_transfer :
    ∃ (s : Network demoEnv Bool) (balance : Val → Int),
      Reachable (clockSystem [false, true] demoConfig fun c _ => Mineable c) s ∧
      (s.nodes true).chain.length = 3 ∧
      HoldsParties (accounts {"04aa", "04bb"}) (s.nodes true).chain ∧
      (∀ a ∈ accounts {"04aa", "04bb"},
        Blockchain.getBalanceOfAddress .exact (s.nodes true).chain a = .ok (.num (balance a)) ∧
        Blockchain.getBalanceOfAddress .binary64 (s.nodes true).chain a =
          .ok (.num (balance a))) ∧
      ∑ a ∈ accounts {"04aa", "04bb"}, balance a = 100 * ((s.nodes true).chain.length - 1) := by
  let ok (s : Network demoEnv Bool) (a : Action Bool) : Bool :=
    decide (a.byClock (fun c _ => getDifficulty c = .ok (.int 1)) s)
  have hfinal : (execPlain demoConfig ok (.new [false, true] demoConfig) transferActions).map
      (fun s => ((s.nodes true).chain.length, areParties {"04aa", "04bb"} (s.nodes true).chain,
        movesExactly ["04aa", "04bb"] (s.nodes true).chain)) = some (3, true, true) := by
    decide +kernel
  obtain ⟨s, hexec, hfacts⟩ := Option.map_eq_some_iff.mp hfinal
  obtain ⟨hlen, hfacts⟩ := Prod.mk.inj hfacts
  obtain ⟨hparties, hmoves⟩ := Prod.mk.inj hfacts
  obtain ⟨tr, hrun⟩ := run_of_execPlain hexec
  have hmineable (s : Network demoEnv Bool) (a : Action Bool) (hok : ok s a = true) :
      a.byClock (fun c _ => Mineable c) s :=
    (of_decide_eq_true hok).mono fun _ _ hone => (mineable_iff hone).mpr (by decide)
  have hreach : Reachable (clockSystem [false, true] demoConfig fun c _ => Mineable c) s.erase :=
    (hrun.restrict_mono hmineable).reachable (.init rfl)
  have hbound := turnover_le_accounts hmoves
  obtain ⟨balance, hexact, hsum, hrounded⟩ := network_money_supply (workingKeys_demo _) hreach
    (.node true) isAddress_accounts (holdsParties_accounts hparties)
  exact ⟨s.erase, balance, hreach, hlen, holdsParties_accounts hparties,
    fun a ha => ⟨hexact a ha, hrounded a ha (hbound a ha)⟩, hsum⟩

end XCoin
