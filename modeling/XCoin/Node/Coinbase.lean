import XCoin.Chain.Atomicity
import XCoin.Chain.Signing
import XCoin.Chain.Transport
import XCoin.Node.Handlers

/-! # Coinbases of a node's blocks

    A block that a node mines should hold one transaction without a sender,
    the coinbase at its end, and only signed transactions before it.

    Transactions get into the pending list through `/transactionRequest`,
    which checks them, through `/transaction`, which does not, through
    `triggerMineBlock`, which makes one without a sender, and as coinbases of
    minings that then throw.  The last kind never gets into a block: what made
    the mining throw is still there for the next one (`PendingInv`).

    What `/transaction` receives was signed before it was written as JSON.  An
    amount that JSON has no text for, such as the infinity that the numeral
    `1e400` is read as, arrives as `null`, and the signature is then one for
    another hash (`KeepsHash`).
-/

namespace XCoin

open Js LTS Throwing

variable {E : Env} {ι : Type} {cfg : Config E ι}

/-! ### Signed transactions -/

/-- The value has a sender and a signature that verifies under it. -/
def IsSigned (E : Env) (tx : Val) : Prop :=
  ∃ t hash, Transaction.ofFields? tx = some t ∧ t.fromAddress ≠ .null ∧
    t.calculateHash E = .ok hash ∧ E.verify t.fromAddress hash t.signature = .ok true

/-- A value that JSON can carry; a field may be missing. -/
def IsRequestValue (v : Val) : Prop := Json.IsJson v ∨ v = .undefined

/-- The body is the JSON of the transaction, which some node made for a
    `/transactionRequest`. -/
def IsCreatedFrom (E : Env) (ι : Type) (tx : Transaction) (body : Val) : Prop :=
  ∃ (cfg : Config E ι) (receiver amount : Val),
    Node.requestedTransaction cfg receiver amount = .ok tx ∧
    Json.transport tx.toValue = .ok (some body)

/-- The body is the JSON of a transaction that some node made for a
    `/transactionRequest`. -/
def IsCreated (E : Env) (ι : Type) (body : Val) : Prop :=
  ∃ tx, IsCreatedFrom E ι tx body

/-- The body is the JSON of a transaction that has the same hash before and
    after. -/
def KeepsHash (E : Env) (ι : Type) (body : Val) : Prop :=
  ∃ tx t, IsCreatedFrom E ι tx body ∧ Transaction.ofFields? body = some t ∧
    t.calculateHash E = tx.calculateHash E

/-- What `/transactionRequest` makes: the sender is the node, and the
    signature is the one of the transaction's hash. -/
theorem requestedTransaction_fields {receiver amount : Val} {tx : Transaction}
    (h : Node.requestedTransaction cfg receiver amount = .ok tx) :
    ∃ id hash sig, tx.id = .str id ∧ tx.txIns = .arr [] ∧
      tx.txOuts = .arr [newTxOut receiver amount] ∧ tx.fromAddress = cfg.myWalletAddress ∧
      tx.toAddress = receiver ∧ tx.amount = amount ∧ tx.signature = .str (E.toDER sig) ∧
      tx.calculateHash E = .ok hash ∧ E.sign cfg.myKey hash = .ok sig := by
  obtain ⟨id, _, h⟩ := bind_eq_ok.mp h
  obtain ⟨_, hash, sig, hhash, hsig, rfl⟩ := Transaction.signTransaction_cases h
  exact ⟨id, hash, sig, rfl, rfl, rfl, rfl, rfl, rfl, rfl, hhash, hsig⟩

/-- A node whose key signs every hash makes every transaction between a text
    and a number that it is asked for. -/
theorem exists_requestedTransaction (hsigns : ∀ hash, ∃ sig, E.sign cfg.myKey hash = .ok sig)
    (receiver : String) (amount : Int) :
    ∃ tx, Node.requestedTransaction cfg (.str receiver) (.num amount) = .ok tx := by
  let unsigned := Transaction.new cfg.myWalletAddress (.str receiver) (.num amount) .null
    (.arr []) (.arr [newTxOut (.str receiver) (.num amount)])
  obtain ⟨id, hid⟩ : ∃ id, unsigned.getTransactionId E false "" = .ok id := ⟨_, rfl⟩
  obtain ⟨hash, hhash⟩ : ∃ hash, unsigned.calculateHash E = .ok hash := ⟨_, rfl⟩
  obtain ⟨sig, hsig⟩ := hsigns hash
  have hhash' : Transaction.calculateHash E { unsigned with id := .str id } = .ok hash := hhash
  refine ⟨{ unsigned with id := .str id, signature := .str (E.toDER sig) }, ?_⟩
  show unsigned.getTransactionId E false "" >>= _ = _
  rw [hid, ok_bind]
  exact Transaction.signTransaction_own rfl hhash' hsig

/-- A transaction that passed `isValid` and has a sender is signed. -/
theorem isSigned_of_valid {tx : Transaction} (hfrom : tx.fromAddress ≠ .null)
    (h : callIsValid E tx.toValue = .ok true) : IsSigned E tx.toValue := by
  rw [callIsValid_toValue] at h
  obtain ⟨hash, hhash, h⟩ := bind_eq_ok.mp h
  have hnull : Transaction.isNull tx.fromAddress = false := by
    cases hv : tx.fromAddress with
    | null => exact absurd hv hfrom
    | _ => rfl
  simp only [hnull, Bool.false_eq_true, if_false] at h
  split at h
  · cases h
  · exact ⟨tx, hash, rfl, hfrom, hhash, h⟩

/-- What JSON carries of a request, it carries of the transaction. -/
theorem requestedTransaction_isJson {receiver amount : Val} {tx : Transaction}
    (hreceiver : IsRequestValue receiver) (hamount : IsRequestValue amount)
    (h : Node.requestedTransaction cfg receiver amount = .ok tx) : Json.IsJson tx.toValue := by
  obtain ⟨id, hash, sig, hid, hins, houts, hfrom, hto, hamount', hsignature, _⟩ :=
    requestedTransaction_fields h
  simp only [IsRequestValue] at hreceiver hamount
  simp [Transaction.toValue, newTxOut, Config.myWalletAddress, Json.IsJson, Json.ElemsJson,
    Json.FieldsJson, hid, hins, houts, hfrom, hto, hamount', hsignature, hreceiver, hamount,
    Transaction.keys_inOrder, newTxOut_keys_inOrder]

/-- A request of values that JSON can carry keeps its hash. -/
theorem keepsHash_of_isRequestValue {receiver amount body : Val} {tx : Transaction}
    (hreceiver : IsRequestValue receiver) (hamount : IsRequestValue amount)
    (h : Node.requestedTransaction cfg receiver amount = .ok tx)
    (hbody : Json.transport tx.toValue = .ok (some body)) : KeepsHash E ι body := by
  have hsent : Json.Sent tx.toValue body :=
    ⟨requestedTransaction_isJson hreceiver hamount h, hbody⟩
  obtain ⟨t, ht, hhash⟩ := sameTransactionHash_of_sent (E := E) hsent tx rfl
  exact ⟨tx, t, ⟨cfg, receiver, amount, h, hbody⟩, ht, hhash⟩

theorem Transaction.calculateHash_eq_ok {t : Transaction} {hash : String}
    (h : t.calculateHash E = .ok hash) : ∃ v, hash = E.SHA256 v := by
  obtain ⟨_, _, h⟩ := bind_eq_ok.mp h
  obtain ⟨v, _, h⟩ := bind_eq_ok.mp h
  exact ⟨v, (Except.ok.inj h).symm⟩

/-- The fields of a transaction on the other side, as far as JSON has a text
    for them. -/
theorem Transaction.ofFields?_transport {tx : Transaction} {body : Val}
    (h : Json.transport tx.toValue = .ok (some body)) :
    ∃ t, Transaction.ofFields? body = some t ∧
      (∀ w, Json.transport tx.fromAddress = .ok (some w) → t.fromAddress = w) ∧
      (∀ w, Json.transport tx.toAddress = .ok (some w) → t.toAddress = w) ∧
      (∀ w, Json.transport tx.amount = .ok (some w) → t.amount = w) ∧
      ∀ w, Json.transport tx.signature = .ok (some w) → t.signature = w := by
  obtain ⟨gs, hgs, heq⟩ := Json.transport_obj_eq_ok.mp h
  obtain rfl := Option.some.inj heq
  exact ⟨_, rfl, fun _ => Json.field_transportFields hgs rfl,
    fun _ => Json.field_transportFields hgs rfl, fun _ => Json.field_transportFields hgs rfl,
    fun _ => Json.field_transportFields hgs rfl⟩

/-- Sender and signature are strings, which arrive as they are. -/
theorem IsCreatedFrom.fields {tx : Transaction} {body : Val} (h : IsCreatedFrom E ι tx body) :
    ∃ t key v sig, Transaction.ofFields? body = some t ∧
      t.fromAddress = .str (E.getPublic key) ∧ t.signature = .str (E.toDER sig) ∧
      tx.calculateHash E = .ok (E.SHA256 v) ∧ E.sign key (E.SHA256 v) = .ok sig := by
  obtain ⟨cfg, receiver, amount, hrequested, hbody⟩ := h
  obtain ⟨id, hash, sig, _, _, _, hfrom, _, _, hsignature, hhash, hsig⟩ :=
    requestedTransaction_fields hrequested
  obtain ⟨v, rfl⟩ := Transaction.calculateHash_eq_ok hhash
  obtain ⟨t, ht, hfrom', _, _, hsignature'⟩ := Transaction.ofFields?_transport hbody
  exact ⟨t, cfg.myKey, v, sig, ht, hfrom' _ (by rw [hfrom]; rfl),
    hsignature' _ (by rw [hsignature]; rfl), hhash, hsig⟩

/-- A signature that verifies on the other side was made for the hash there. -/
theorem IsCreatedFrom.hash_eq_of_isSigned (hE : SignaturesCorrect E) {tx : Transaction}
    {body : Val} (h : IsCreatedFrom E ι tx body) (hsigned : IsSigned E body) :
    ∃ t, Transaction.ofFields? body = some t ∧ t.calculateHash E = tx.calculateHash E := by
  obtain ⟨t', hash, ht', _, hhash', hverified⟩ := hsigned
  obtain ⟨t, key, v, sig, ht, hfrom, hsignature, hhash, hsig⟩ := h.fields
  obtain rfl := Option.some.inj (ht.symm.trans ht')
  obtain ⟨v', rfl⟩ := Transaction.calculateHash_eq_ok hhash'
  rw [hfrom, hsignature, hE key v sig hsig] at hverified
  exact ⟨t, ht, by rw [hhash', hhash, hverified]⟩

/-- **What arrives signed**: a created transaction carries a signature that
    verifies exactly if its hash has survived JSON. -/
theorem IsCreated.isSigned_iff (hE : SignaturesCorrect E) {body : Val}
    (h : IsCreated E ι body) : IsSigned E body ↔ KeepsHash E ι body := by
  constructor
  · intro hsigned
    obtain ⟨tx, hcreated⟩ := h
    obtain ⟨t, ht, hsame⟩ := hcreated.hash_eq_of_isSigned hE hsigned
    exact ⟨tx, t, hcreated, ht, hsame⟩
  · rintro ⟨tx, t', hcreated, ht', hsame⟩
    obtain ⟨t, key, v, sig, ht, hfrom, hsignature, hhash, hsig⟩ := hcreated.fields
    obtain rfl := Option.some.inj (ht.symm.trans ht')
    refine ⟨t, E.SHA256 v, ht, by simp [hfrom], hsame.trans hhash, ?_⟩
    rw [hfrom, hsignature]
    exact (hE key v sig hsig v).mpr rfl

/-- **An infinite amount is not signed on the other side**: it is `null` there,
    which is another text. -/
theorem not_isSigned_of_inf (hE : SignaturesCorrect E)
    (hcollision : ∀ s t, E.SHA256 (.str s) = E.SHA256 (.str t) → s = t) {receiver : String}
    {negative : Bool} {tx : Transaction} {body : Val}
    (h : Node.requestedTransaction cfg (.str receiver) (.inf negative) = .ok tx)
    (hbody : Json.transport tx.toValue = .ok (some body)) : ¬ IsSigned E body := by
  intro hsigned
  have hcreated : IsCreatedFrom E ι tx body := ⟨cfg, _, _, h, hbody⟩
  obtain ⟨t, ht, hsame⟩ := hcreated.hash_eq_of_isSigned hE hsigned
  obtain ⟨_, _, _, _, _, _, hfrom, hto, hamount, _⟩ := requestedTransaction_fields h
  obtain ⟨t', ht', hfrom', hto', hamount', _⟩ := Transaction.ofFields?_transport hbody
  obtain rfl := Option.some.inj (ht'.symm.trans ht)
  have hthere : t'.calculateHash E =
      .ok (E.SHA256 (.str (E.getPublic cfg.myKey ++ receiver ++ "null"))) := by
    unfold Transaction.calculateHash
    rw [hfrom' _ (by rw [hfrom]; rfl), hto' _ (by rw [hto]; rfl),
      hamount' _ (by rw [hamount]; rfl)]
    rfl
  have hhere : tx.calculateHash E = .ok (E.SHA256 (.str (E.getPublic cfg.myKey ++ receiver ++
      if negative then "-Infinity" else "Infinity"))) := by
    unfold Transaction.calculateHash
    rw [hfrom, hto, hamount]
    rfl
  rw [hthere, hhere, Except.ok.injEq] at hsame
  have htext := (String.append_right_inj _).mp (hcollision _ _ hsame)
  cases negative <;> exact absurd htext (by decide)

theorem IsCreated.exists_stringify {body : Val} (h : IsCreated E ι body) :
    ∃ t, Json.stringify body = .ok t := by
  obtain ⟨tx, cfg, receiver, amount, _, hbody⟩ := h
  exact Json.exists_stringify (Json.transport_idem _ _ hbody)

/-- What `triggerMineBlock` creates has no sender. -/
theorem triggerTransaction_not_signed : ¬ IsSigned E Node.triggerTransaction.toValue := by
  rintro ⟨t, hash, ht, hfrom, _⟩
  cases ht
  exact hfrom rfl

theorem triggerTransaction_stringify :
    ∃ t, Json.stringify Node.triggerTransaction.toValue = .ok t := ⟨_, rfl⟩

/-! ### Blocks -/

/-- The block ends with its only transaction without a sender, which pays the
    reward to the node, and all others are signed. -/
def OneCoinbase (cfg : Config E ι) (reward : Int) (b : Block) : Prop :=
  ∃ others coinBase, b.transactions = .arr (others ++ [coinBase]) ∧
    coinBase.get "fromAddress" = .ok .null ∧
    coinBase.get "toAddress" = .ok cfg.myWalletAddress ∧
    coinBase.get "amount" = .ok (.num reward) ∧
    ∀ tx ∈ others, IsSigned E tx

/-- A mined block is good exactly if what was pending is signed. -/
theorem oneCoinbase_iff {bc : Blockchain E} {coinBase : Transaction} {b : Block}
    (hcoin : bc.coinBaseTransaction cfg.myWalletAddress = .ok coinBase)
    (htxs : b.transactions = .arr (bc.pendingTransactions ++ [coinBase.toValue])) :
    OneCoinbase cfg bc.miningReward b ↔ ∀ tx ∈ bc.pendingTransactions, IsSigned E tx := by
  constructor
  · rintro ⟨others, last, htxs', _, _, _, hsigned⟩
    rw [htxs, Value.arr.injEq] at htxs'
    rw [List.append_inj_left' htxs' rfl]
    exact hsigned
  · intro hsigned
    obtain ⟨signature, rfl⟩ := coinBase_eq hcoin
    exact ⟨_, _, htxs, rfl, rfl, rfl, hsigned⟩

/-! ### Runs of requests -/

/-- The requests `/triggerMineBlock`, `/transactionRequest`, and `/transaction`
    with a transaction that a node created. -/
def Event.isRequest (E : Env) : Event ι → Prop
  | .triggerMineBlock _ _ => True
  | .transactionRequest _ _ => True
  | .transaction body _ _ => IsCreated E ι body
  | _ => False

/-- The runs of such requests at one node. -/
def requestSystem (cfg : Config E ι) : System (NodeState E ι) (Event ι × List Effect) :=
  (nodeSystem cfg).restrict fun _ l => l.1.isRequest E

/-- Every block that the step appends is good. -/
def AppendsOneCoinbase (cfg : Config E ι)
    (x : Transition (NodeState E ι) (Event ι × List Effect)) : Prop :=
  ∀ b, x.post.node.chain = x.pre.node.chain ++ [b] →
    OneCoinbase cfg x.pre.node.xCoin.miningReward b

/-- The request adds nothing unsigned to what a node that can mine will mine:
    it is no `/triggerMineBlock`, and a transaction that it delivers has kept
    the hash that was signed. -/
def Event.addsSigned (cfg : Config E ι) (bc : Blockchain E) : Event ι → Prop
  | .triggerMineBlock _ _ => ¬ bc.CanMine cfg.myWalletAddress
  | .transaction body _ _ => bc.CanMine cfg.myWalletAddress → KeepsHash E ι body
  | _ => True

/-- Everything pending is signed, or nothing pending will ever be mined. -/
def PendingInv (cfg : Config E ι) (bc : Blockchain E) : Prop :=
  bc.CanMine cfg.myWalletAddress → ∀ tx ∈ bc.pendingTransactions, IsSigned E tx

theorem PendingInv.createTransaction {bc : Blockchain E} {tx : Val} (h : PendingInv cfg bc)
    (htx : IsSigned E tx) : PendingInv cfg (bc.createTransaction tx) := by
  intro hcan
  exact Blockchain.forall_mem_createTransaction.mpr ⟨h hcan.of_createTransaction, htx⟩

/-- A mining call keeps the invariant. -/
theorem PendingInv.mine {bc bc' : Blockchain E} {date : Int} {fuel : Nat} {r : Result Unit}
    (h : PendingInv cfg bc)
    (hmine : (Op.minePendingTransactions cfg.myWalletAddress date fuel).Outcome bc r bc') :
    PendingInv cfg bc' := by
  cases hmine with
  | unchanged => exact h
  | stranded _ _ _ coinBase e hcoin hthrows =>
    -- the coinbase that is left behind will not be mined
    exact fun hcan => absurd hcan.of_createTransaction hthrows
  | mined => exact fun _ tx htx => absurd htx (List.not_mem_nil)

/-- The blocks a mining call appends. -/
theorem Op.Outcome.appends_oneCoinbase {bc bc' : Blockchain E} {date : Int} {fuel : Nat}
    {r : Result Unit}
    (hmine : (Op.minePendingTransactions cfg.myWalletAddress date fuel).Outcome bc r bc') :
    (∀ b, bc'.chain = bc.chain ++ [b] → OneCoinbase cfg bc.miningReward b) ↔
      (bc.CanMine cfg.myWalletAddress → ∀ tx ∈ bc.pendingTransactions, IsSigned E tx) := by
  cases hmine with
  | unchanged _ e hthrows =>
    refine iff_of_true (fun b hb => ?_) fun hcan => absurd hcan (hthrows _ _ _ rfl)
    simp at hb
  | stranded _ _ _ coinBase e hcoin hthrows =>
    refine iff_of_true (fun b hb => ?_) fun hcan => absurd hcan hthrows
    simp [Blockchain.createTransaction] at hb
  | mined _ _ _ coinBase b hcoin hmined htime htxs =>
    have hcan : bc.CanMine cfg.myWalletAddress := ⟨coinBase, hcoin, htxs ▸ hmined.miningReady⟩
    have hiff := oneCoinbase_iff hcoin htxs
    constructor
    · intro hall _
      exact hiff.mp (hall b rfl)
    · intro hsigned b' hb'
      obtain rfl : b = b' := by simpa using hb'
      exact hiff.mpr (hsigned hcan)

/-- **Step lemma**: where the invariant holds, a request appends a good block
    or none exactly if it meets the condition, and then the invariant is
    kept. -/
theorem Event.Outcome.oneCoinbase_iff (hE : SignaturesCorrect E) {n n' : Node E} {ev : Event ι}
    {effects : List Effect} (hrequest : ev.isRequest E) (hinv : PendingInv cfg n.xCoin)
    (h : ev.Outcome cfg n n' effects) :
    ((∀ b, n'.chain = n.chain ++ [b] → OneCoinbase cfg n.xCoin.miningReward b) ↔
      ev.addsSigned cfg n.xCoin) ∧
    (ev.addsSigned cfg n.xCoin → PendingInv cfg n'.xCoin) := by
  cases h with
  | refused receiver amount =>
    refine ⟨iff_of_true (fun b hb => ?_) trivial, fun _ => hinv⟩
    simp at hb
  | requested receiver amount tx hsigned hvalid =>
    have hfrom : tx.fromAddress ≠ .null := by
      obtain ⟨_, _, _, _, _, _, hfrom, _⟩ := requestedTransaction_fields hsigned
      simp [hfrom, Config.myWalletAddress]
    refine ⟨iff_of_true (fun b hb => ?_) trivial, fun _ => ?_⟩
    · simp [Node.chain, Blockchain.createTransaction] at hb
    · exact hinv.createTransaction (isSigned_of_valid hfrom hvalid)
  | received body date fuel r xCoin effects hmine =>
    have hcan := n.xCoin.canMine_createTransaction_iff cfg.myWalletAddress
      (IsCreated.exists_stringify hrequest)
    -- the others are signed already, so that it is up to the one that arrives
    have hpushed : PendingInv cfg (n.xCoin.createTransaction body) ↔
        (n.xCoin.CanMine cfg.myWalletAddress → KeepsHash E ι body) := by
      unfold PendingInv
      rw [hcan, ← IsCreated.isSigned_iff hE hrequest]
      refine imp_congr_right fun hmines => ?_
      rw [Blockchain.forall_mem_createTransaction]
      exact and_iff_right (hinv hmines)
    exact ⟨hmine.appends_oneCoinbase.trans hpushed, fun hkeeps => (hpushed.mpr hkeeps).mine hmine⟩
  | triggered date fuel r xCoin hmine =>
    have hcan :=
      n.xCoin.canMine_createTransaction_iff cfg.myWalletAddress triggerTransaction_stringify
    -- a mined block would hold the transaction without a sender
    have hpushed : PendingInv cfg (n.xCoin.createTransaction Node.triggerTransaction.toValue) ↔
        ¬ n.xCoin.CanMine cfg.myWalletAddress := by
      unfold PendingInv
      rw [hcan]
      refine imp_congr_right fun hmines => iff_false_intro fun hsigned => ?_
      rw [Blockchain.forall_mem_createTransaction] at hsigned
      exact triggerTransaction_not_signed hsigned.2
    exact ⟨hmine.appends_oneCoinbase.trans hpushed, fun hcond => (hpushed.mpr hcond).mine hmine⟩
  | ignored => exact hrequest.elim
  | recorded => exact hrequest.elim
  | announced => exact hrequest.elim
  | adopted => exact hrequest.elim
  | restored => exact hrequest.elim

/-- **One coinbase per block, if nothing unsigned is let in.** In a run of
    requests at a node, every block the node appends ends with its only
    transaction without a sender, which pays the reward to the node, and holds
    only signed transactions before it, if and only if, whenever mining could
    be carried out, no `/triggerMineBlock` request was made and every
    transaction that arrived had kept the hash that was signed. -/
theorem one_coinbase_run_iff (hE : SignaturesCorrect E) {s : NodeState E ι}
    {tr : List (Transition (NodeState E ι) (Event ι × List Effect))}
    (h : Run (requestSystem cfg) ⟨.new cfg, cfg.neighborNodeList⟩ tr s) :
    (∀ x ∈ tr, AppendsOneCoinbase cfg x) ↔
      ∀ x ∈ tr, x.label.1.addsSigned cfg x.pre.node.xCoin := by
  have hinit : Reachable (requestSystem cfg) ⟨.new cfg, cfg.neighborNodeList⟩ := .init rfl
  refine Run.forall_iff (I := fun s => PendingInv cfg s.node.xCoin) hinit ?_ ?_ h
  · intro _ tx htx
    simp [Node.new, Blockchain.new] at htx
  · rintro t l u hreach hinv ⟨hrequest, hstep⟩
    obtain ⟨hout, _⟩ := nodeSystem_outcome hreach.of_restrict hstep
    exact hout.oneCoinbase_iff hE hrequest hinv

/-- Two keys; a hash shows the size of the text, and a signature the key and
    the hash it was made for. -/
def stampEnv : Env where
  KeyPair   := Bool
  Signature := String
  SHA256    := fun v => match v with
    | .str t => "0" ++ toString t.utf8ByteSize
    | _      => "0"
  getPublic := fun key => if key then "04bb" else "04aa"
  sign      := fun key hash => .ok ((if key then "04bb" else "04aa") ++ hash)
  toDER     := fun sig => "30" ++ sig
  verify    := fun publicKey hash signature => .ok (match publicKey, signature with
    | .str p, .str d => decide (d = "30" ++ (p ++ hash))
    | _, _           => false)

theorem signaturesCorrect_stampEnv : SignaturesCorrect stampEnv := by
  intro key v sig hsig v'
  obtain rfl : stampEnv.getPublic key ++ stampEnv.SHA256 v = sig := Except.ok.inj hsig
  show Except.ok (decide ("30" ++ (stampEnv.getPublic key ++ stampEnv.SHA256 v) =
    "30" ++ (stampEnv.getPublic key ++ stampEnv.SHA256 v'))) = .ok true ↔ _
  rw [Except.ok.injEq, decide_eq_true_eq, String.append_right_inj, String.append_right_inj]
  exact eq_comm

/-- Two nodes with a key each. -/
def stampConfig (name : Bool) : Config stampEnv Bool where
  neighborNodeList := [!name]
  myKey            := name

/-- Does the value have the sender `null`? -/
def hasNullSender (tx : Val) : Bool :=
  match tx.get "fromAddress" with
  | .ok v => Transaction.isNull v
  | _     => false

/-- The equivalence on a run that requests a transaction and then receives
    one: the block holds both before its coinbase. -/
theorem one_coinbase_run_iff_two_requests :
    ∃ tr s, SignaturesCorrect stampEnv ∧
      Run (requestSystem (stampConfig false)) ⟨.new (stampConfig false), [true]⟩ tr s ∧
      s.node.chain.map (fun b => b.transactionList.map hasNullSender) =
        [[], [false, false, true]] ∧
      ((∀ x ∈ tr, AppendsOneCoinbase (stampConfig false) x) ↔
        ∀ x ∈ tr, x.label.1.addsSigned (stampConfig false) x.pre.node.xCoin) ∧
      ∀ x ∈ tr, AppendsOneCoinbase (stampConfig false) x := by
  let cfg := stampConfig false
  let request : Event Bool := .transactionRequest (.str "carol") (.num 3)
  -- the transaction that arrives was made by the other node
  have hfinal : ((Node.requestedTransaction (stampConfig true) (.str "bob") (.num 5)).toOption.bind
      fun tx => (Json.transport tx.toValue).toOption.join.bind fun body =>
        ((Node.new cfg).handle cfg request).bind fun r₁ =>
          (r₁.node.handle cfg (.transaction body 7 1)).map fun r₂ =>
            r₂.node.chain.map fun b => b.transactionList.map hasNullSender) =
        some [[], [false, false, true]] := by
    decide +kernel
  obtain ⟨tx, htx, hfinal⟩ := Option.bind_eq_some_iff.mp hfinal
  obtain ⟨body, hbody, hfinal⟩ := Option.bind_eq_some_iff.mp hfinal
  obtain ⟨⟨result₁, node₁, effects₁⟩, hfirst, hfinal⟩ := Option.bind_eq_some_iff.mp hfinal
  obtain ⟨⟨result₂, node₂, effects₂⟩, hsecond, hsenders⟩ := Option.map_eq_some_iff.mp hfinal
  have htx' := toOption_eq_some.mp htx
  have hbody' := toOption_eq_some.mp (Option.join_eq_some_iff.mp hbody)
  have hcreated : IsCreated stampEnv Bool body :=
    ⟨tx, stampConfig true, .str "bob", .num 5, htx', hbody'⟩
  have hkeeps : KeepsHash stampEnv Bool body :=
    keepsHash_of_isRequestValue (.inl (by trivial)) (.inl (by trivial)) htx' hbody'
  have hrun : Run (requestSystem cfg) ⟨.new cfg, [true]⟩
      [⟨⟨.new cfg, [true]⟩, (request, effects₁), ⟨node₁, [true]⟩⟩,
       ⟨⟨node₁, [true]⟩, (.transaction body 7 1, effects₂), ⟨node₂, [true]⟩⟩]
      ⟨node₂, [true]⟩ :=
    .cons ⟨trivial, ⟨result₁, hfirst⟩, rfl⟩
      (.cons ⟨hcreated, ⟨result₂, hsecond⟩, rfl⟩ .nil)
  have hiff := one_coinbase_run_iff signaturesCorrect_stampEnv hrun
  refine ⟨_, _, signaturesCorrect_stampEnv, hrun, hsenders, hiff, hiff.mpr ?_⟩
  simp only [List.forall_mem_cons]
  exact ⟨trivial, fun _ => hkeeps, fun _ hx => absurd hx List.not_mem_nil⟩

/-- **Two coinbases.** The first `/triggerMineBlock` request at a fresh node
    appends a block with two transactions without a sender. -/
theorem triggered_block_two_coinbases :
    ∃ tr s b, Run (requestSystem (demoConfig false)) ⟨.new (demoConfig false), [true]⟩ tr s ∧
      s.node.chain[1]? = some b ∧ b.transactionList.map hasNullSender = [true, true] ∧
      ¬ ∀ x ∈ tr, AppendsOneCoinbase (demoConfig false) x := by
  have hfinal : ((Node.new (demoConfig false)).triggerMineBlock (demoConfig false) 7 1).map
      (fun r => r.node.chain.map fun b => b.transactionList.map hasNullSender) =
        some [[], [true, true]] := by
    decide +kernel
  obtain ⟨⟨result, node, effects⟩, hmine, hfacts⟩ := Option.map_eq_some_iff.mp hfinal
  have hstep : (requestSystem (demoConfig false)).step ⟨.new (demoConfig false), [true]⟩
      (.triggerMineBlock 7 1, effects) ⟨node, [true]⟩ := ⟨trivial, ⟨result, hmine⟩, rfl⟩
  obtain ⟨b, hb, hsenders⟩ : ∃ b, node.chain[1]? = some b ∧
      b.transactionList.map hasNullSender = [true, true] := by
    have hblocks := congrArg (·[1]?) hfacts
    simpa using hblocks
  refine ⟨[⟨_, _, _⟩], ⟨node, [true]⟩, b, .snoc _ .nil hstep, hb, hsenders, ?_⟩
  intro hall
  obtain ⟨hout, _⟩ := nodeSystem_outcome (.init rfl) hstep.2
  have hcan : (Blockchain.new demoEnv (some ())).CanMine (demoConfig false).myWalletAddress :=
    ⟨_, rfl, _, _, _, rfl, rfl, rfl⟩
  have hinv : PendingInv (demoConfig false) (Node.new (demoConfig false)).xCoin :=
    fun _ tx htx => absurd htx List.not_mem_nil
  -- all hashes are the same, and all signatures verify
  have hE : SignaturesCorrect demoEnv := fun _ _ _ _ _ => iff_of_true rfl rfl
  have hiff := (hout.oneCoinbase_iff hE hstep.1 hinv).1
  have hgood := hall _ (List.mem_singleton_self _)
  exact hiff.mp hgood hcan

end XCoin
