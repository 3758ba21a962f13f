import XCoin.Chain.Mining

/-! # Mining that fails

    `minePendingTransactions` pushes the coinbase before it takes the steps
    that can throw.  If the coinbase cannot be signed, the call fails with the
    object as it was; if a later step throws, the coinbase stays behind, and
    since neither the chain nor the offending value goes away, the next call
    fails the same way and leaves another one.
-/

namespace XCoin

open Js LTS Throwing

variable {E : Env}

/-! ### When mining throws -/

@[simp] theorem Blockchain.coinBaseTransaction_createTransaction (bc : Blockchain E)
    (tx address : Val) :
    (bc.createTransaction tx).coinBaseTransaction address = bc.coinBaseTransaction address :=
  rfl

/-- A coinbase that was signed has a JSON text: signing hashed the text of the
    unsigned coinbase. -/
theorem coinBase_stringify {bc : Blockchain E} {address : Val} {coinBase : Transaction}
    (h : bc.coinBaseTransaction address = .ok coinBase) :
    ∃ t, Json.stringify coinBase.toValue = .ok t := by
  unfold Blockchain.coinBaseTransaction at h
  obtain ⟨_, _, h⟩ := bind_eq_ok.mp h
  obtain ⟨_, hmsg, h⟩ := bind_eq_ok.mp h
  -- the only field that may lack a text is the address
  have haddress : ∃ t, Json.stringify address = .ok t := by
    cases htext : Json.stringify address with
    | ok t => exact ⟨t, rfl⟩
    | error e =>
      simp [Transaction.calculateHashV2, Transaction.toValue, Transaction.new, newTxOut,
        Json.stringify, Json.stringifyElems, Json.stringifyFields, htext] at hmsg
  obtain ⟨t, ht⟩ := haddress
  cases hkey : bc.keyPair with
  | none => simp [hkey] at h
  | some keyPair =>
    simp only [hkey] at h
    obtain ⟨signature, _, h⟩ := bind_eq_ok.mp h
    simp only [pure_eq_ok, Except.ok.injEq] at h
    subst h
    simp [Transaction.toValue, Transaction.new, newTxOut, Json.stringify, Json.stringifyElems,
      Json.stringifyFields, ht]

/-- What cannot be mined cannot be mined with more transactions either. -/
theorem MiningReady.of_append {c : List Block} {txs more : List Val}
    (h : MiningReady c (.arr (txs ++ more))) : MiningReady c (.arr txs) := by
  obtain ⟨difficulty, count, json, hdiff, hcount, hjson⟩ := h
  obtain ⟨json', hjson'⟩ := Json.stringify_arr_of_append hjson
  exact ⟨difficulty, count, json', hdiff, hcount, hjson'⟩

/-- A transaction with a JSON text never keeps the others from being mined. -/
theorem miningReady_append_iff {tx : Val} (htext : ∃ t, Json.stringify tx = .ok t)
    {c : List Block} {txs : List Val} :
    MiningReady c (.arr (txs ++ [tx])) ↔ MiningReady c (.arr txs) := by
  refine ⟨MiningReady.of_append, ?_⟩
  rintro ⟨difficulty, count, json, hdiff, hcount, hjson⟩
  obtain ⟨t, ht⟩ := htext
  rw [Json.stringify] at hjson
  obtain ⟨ts, hts, _⟩ := bind_eq_ok.mp hjson
  refine ⟨difficulty, count, some ("[" ++ ",".intercalate (ts ++ [t.getD "null"]) ++ "]"),
    hdiff, hcount, ?_⟩
  simp [Json.stringify, Json.stringifyElems_append, Json.stringifyElems, hts, ht]

/-- Mining can be carried out if the coinbase can be made and the pending list
    is ready. -/
theorem Blockchain.canMine_iff {bc : Blockchain E} {address : Val} :
    bc.CanMine address ↔ (∃ coinBase, bc.coinBaseTransaction address = .ok coinBase) ∧
      MiningReady bc.chain (.arr bc.pendingTransactions) := by
  constructor
  · rintro ⟨coinBase, hcoin, hready⟩
    exact ⟨⟨coinBase, hcoin⟩, hready.of_append⟩
  · rintro ⟨⟨coinBase, hcoin⟩, hready⟩
    exact ⟨coinBase, hcoin, (miningReady_append_iff (coinBase_stringify hcoin)).mpr hready⟩

/-- What keeps mining from being carried out is not undone by a push. -/
theorem Blockchain.CanMine.of_createTransaction {bc : Blockchain E} {tx address : Val}
    (h : (bc.createTransaction tx).CanMine address) : bc.CanMine address := by
  obtain ⟨hcoin, hready⟩ := Blockchain.canMine_iff.mp h
  exact Blockchain.canMine_iff.mpr ⟨hcoin, hready.of_append⟩

theorem Blockchain.canMine_createTransaction_iff (bc : Blockchain E) (address : Val) {tx : Val}
    (htext : ∃ t, Json.stringify tx = .ok t) :
    (bc.createTransaction tx).CanMine address ↔ bc.CanMine address := by
  refine ⟨CanMine.of_createTransaction, fun h => ?_⟩
  obtain ⟨hcoin, hready⟩ := Blockchain.canMine_iff.mp h
  exact Blockchain.canMine_iff.mpr ⟨hcoin, (miningReady_append_iff htext).mpr hready⟩

/-- The first nonce shows whether the search throws. -/
theorem Block.mineBlock_throws {b : Block} {difficulty : Difficulty}
    (h : ¬ ∃ count json, difficulty.repeatCount = .ok count ∧
      Json.stringify b.transactions = .ok json) (fuel : Nat) :
    ∃ e, b.mineBlock E difficulty (fuel + 1) = some (.error e) := by
  unfold Block.mineBlock Block.mineLoop Block.calculateHash Block.hashText
  cases hjson : Json.stringify b.transactions with
  | error e => simp
  | ok json =>
    cases hcount : difficulty.repeatCount with
    | error e => simp [Block.hashMatchesDifficulty, hcount]
    | ok count => exact absurd ⟨count, json, hcount, hjson⟩ h

/-- **A coinbase is left behind**: if the coinbase can be signed and mining is
    not ready, the call throws and the coinbase is pending afterwards. -/
theorem Blockchain.minePendingTransactions_throws {bc : Blockchain E} {address : Val}
    {coinBase : Transaction} (hcoin : bc.coinBaseTransaction address = .ok coinBase)
    (hready : ¬ MiningReady bc.chain (.arr bc.pendingTransactions))
    (date : Int) (fuel : Nat) :
    ∃ e, bc.minePendingTransactions address date (fuel + 1) =
      some (.error e, bc.createTransaction coinBase.toValue) := by
  have hpending : ∃ e, (bc.createTransaction coinBase.toValue).minePendingBlock date (fuel + 1) =
      some (.error e) := by
    unfold Blockchain.minePendingBlock Blockchain.createTransaction
    cases hlatest : latestBlock bc.chain with
    | error e => exact ⟨e, by simp⟩
    | ok latest =>
      cases hdiff : getDifficulty bc.chain with
      | error e => exact ⟨e, by simp⟩
      | ok difficulty =>
        apply Block.mineBlock_throws
        rintro ⟨count, json, hcount, hjson⟩
        exact hready (MiningReady.of_append ⟨difficulty, count, json, hdiff, hcount, hjson⟩)
  obtain ⟨e, he⟩ := hpending
  refine ⟨e, ?_⟩
  unfold Blockchain.minePendingTransactions
  simp only [hcoin, he]

/-! ### Repeated calls -/

/-- Calls of `minePendingTransactions(address)` that all throw, made one after
    the other at the given clock values, lead to the object `bc'`. -/
def FailingCalls (address : Val) : Blockchain E → List (Int × Nat) → Blockchain E → Prop
  | bc, [], bc' => bc' = bc
  | bc, (date, fuel) :: calls, bc' => ∃ e s,
      bc.minePendingTransactions address date fuel = some (.error e, s) ∧
        FailingCalls address s calls bc'

/-- Without a coinbase to push, failing calls change nothing. -/
theorem FailingCalls.unchanged {address : Val} {bc bc' : Blockchain E}
    {calls : List (Int × Nat)} {e : JsError} (hcoin : bc.coinBaseTransaction address = .error e)
    (h : FailingCalls address bc calls bc') : bc' = bc := by
  induction calls with
  | nil => exact h
  | cons call calls ih =>
    obtain ⟨e', s, hmine, hrest⟩ := h
    rcases Blockchain.minePendingTransactions_cases hmine with ⟨_, _, _, rfl⟩ | ⟨_, hok, _⟩
    · exact ih hrest
    · rw [hcoin] at hok
      cases hok

/-- Every failing call leaves its coinbase behind. -/
theorem FailingCalls.pending {address : Val} {bc bc' : Blockchain E} {calls : List (Int × Nat)}
    {coinBase : Transaction} (hcoin : bc.coinBaseTransaction address = .ok coinBase)
    (h : FailingCalls address bc calls bc') :
    bc'.chain = bc.chain ∧ bc'.pendingTransactions =
      bc.pendingTransactions ++ List.replicate calls.length coinBase.toValue := by
  induction calls generalizing bc with
  | nil => simp [show bc' = bc from h]
  | cons call calls ih =>
    obtain ⟨e, s, hmine, hrest⟩ := h
    rcases Blockchain.minePendingTransactions_cases hmine with
      ⟨_, herr, _⟩ | ⟨coinBase', hok, ⟨_, _, hs⟩ | ⟨_, hr, _⟩⟩
    · rw [hcoin] at herr
      cases herr
    · rw [hcoin, Except.ok.injEq] at hok
      subst hok hs
      obtain ⟨hchain, hpending⟩ := ih (by simpa using hcoin) hrest
      refine ⟨hchain, ?_⟩
      rw [hpending]
      simp [Blockchain.createTransaction, List.replicate_succ]
    · cases hr

/-- **Failed mining is atomic exactly if nothing throws after the push.** For
    every object and reward address, calls of `minePendingTransactions` that
    throw, any number of them, leave the chain and the pending list as they
    were if and only if the coinbase cannot be made, or the pending
    transactions have a JSON text and the chain a difficulty to mine them
    at. -/
theorem failed_mining_atomic_iff (bc : Blockchain E) (address : Val) :
    (∀ calls bc', FailingCalls address bc calls bc' →
      bc'.chain = bc.chain ∧ bc'.pendingTransactions = bc.pendingTransactions) ↔
    ((∃ coinBase, bc.coinBaseTransaction address = .ok coinBase) →
      MiningReady bc.chain (.arr bc.pendingTransactions)) := by
  constructor
  · rintro hatomic ⟨coinBase, hcoin⟩
    by_contra hready
    -- one call throws and leaves its coinbase
    obtain ⟨e, hthrows⟩ := Blockchain.minePendingTransactions_throws hcoin hready 0 0
    have hfails : FailingCalls address bc [(0, 1)] (bc.createTransaction coinBase.toValue) :=
      ⟨e, _, hthrows, rfl⟩
    have hsame := (hatomic _ _ hfails).2
    simp [Blockchain.createTransaction] at hsame
  · intro hready calls bc' hfails
    by_cases hcoin : ∃ coinBase, bc.coinBaseTransaction address = .ok coinBase
    · -- mining does not throw, so no call was made
      have hpending := hready hcoin
      have hcan : bc.CanMine address := Blockchain.canMine_iff.mpr ⟨hcoin, hpending⟩
      cases calls with
      | nil => simp [show bc' = bc from hfails]
      | cons call calls =>
        obtain ⟨e, s, hmine, _⟩ := hfails
        exact absurd hmine (Blockchain.minePendingTransactions_ne_error hcan e)
    · -- every call throws before it pushes
      cases herr : bc.coinBaseTransaction address with
      | ok coinBase => exact absurd ⟨coinBase, herr⟩ hcoin
      | error e => simp [FailingCalls.unchanged herr hfails]

/-- **Coinbases pile up.** With a value in the pending list that has no JSON
    text, every call throws, and after three of them three coinbases are
    pending. -/
theorem failed_mining_leaves_coinBases :
    ∃ bc bc' : Blockchain demoEnv,
      FailingCalls (.str "miner") bc [(7, 1), (8, 1), (9, 1)] bc' ∧
      bc.pendingTransactions.length = 1 ∧ bc'.pendingTransactions.length = 4 := by
  let stuck (more : List Val) : Blockchain demoEnv :=
    { Blockchain.new demoEnv (some ()) with pendingTransactions := .bigint 1 :: more }
  obtain ⟨coinBase, hcoin⟩ : ∃ coinBase,
      (Blockchain.new demoEnv (some ())).coinBaseTransaction (.str "miner") = .ok coinBase :=
    ⟨_, rfl⟩
  -- whatever follows it, the value keeps the list from being written
  have hcall (more : List Val) (date : Int) : ∃ e,
      (stuck more).minePendingTransactions (.str "miner") date 1 =
        some (.error e, stuck (more ++ [coinBase.toValue])) := by
    have hstuck : ¬ MiningReady (stuck more).chain (.arr (stuck more).pendingTransactions) := by
      intro hready
      have hbigint : MiningReady (stuck more).chain (.arr [.bigint 1]) := hready.of_append
      obtain ⟨_, _, json, _, _, hjson⟩ := hbigint
      cases hjson
    have hcoin' : (stuck more).coinBaseTransaction (.str "miner") = .ok coinBase := hcoin
    exact Blockchain.minePendingTransactions_throws hcoin' hstuck date 0
  obtain ⟨e₁, h₁⟩ := hcall [] 7
  obtain ⟨e₂, h₂⟩ := hcall [coinBase.toValue] 8
  obtain ⟨e₃, h₃⟩ := hcall [coinBase.toValue, coinBase.toValue] 9
  exact ⟨stuck [], _, ⟨e₁, _, h₁, e₂, _, h₂, e₃, _, h₃, rfl⟩, rfl, rfl⟩

end XCoin
