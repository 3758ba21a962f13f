import XCoin.Chain.History
import XCoin.Chain.Signing

/-! # Signatures of coinbases

    `signTransaction` stores a signature as the hexadecimal text of its DER
    encoding.  `signHash`, which signs the coinbases, stores what `toString`
    gives for the signature object: a text that does not depend on the key or
    the hash, and that `verify` cannot read.

    No call ever verifies a coinbase, so the difference does not show.
-/

namespace XCoin

open Js LTS Throwing

variable {E : Env}

/-! ### How a signature text is read

    `verify` reads a signature with `new Signature(text, 'hex')`.  The text is
    cut into bytes by `toArray`, and `_importDER` first asks for the byte
    `0x30` at their front; a text that fails this test has no `r` and no `s`,
    and the constructor throws. -/

/-- The first test of `_importDER`. -/
def startsSequence (text : String) : Bool :=
  decide ((toArray text).head? = some (some 0x30))

example : startsSequence "3006020101020101" = true := by decide

/-- What `verify` is trusted for: it accepts no text that fails the first test
    of `_importDER`. -/
def VerifyReadsDER (E : Env) : Prop :=
  ∀ publicKey hash signature, E.verify publicKey hash (.str signature) = .ok true →
    startsSequence signature = true

/-! ### What `signHash` makes -/

/-- The text is the same for every key and every hash. -/
theorem signHash_eq {keyPair : E.KeyPair} {hash signature : String}
    (h : signHash E keyPair hash = .ok signature) : signature = "[object object]" := by
  obtain ⟨_, _, h⟩ := bind_eq_ok.mp h
  rw [← Except.ok.inj h]
  apply String.toList_inj.mp
  show (String.map Char.toLower "[object Object]").toList = "[object object]".toList
  rw [String.toList_map]
  rfl

theorem not_startsSequence_signHash {keyPair : E.KeyPair} {hash signature : String}
    (h : signHash E keyPair hash = .ok signature) : startsSequence signature = false := by
  rw [signHash_eq h]
  decide

/-- **No such signature verifies**, whatever the key and the hash. -/
theorem verifySignature_signHash (hE : VerifyReadsDER E) {keyPair : E.KeyPair}
    {hash signature : String} (h : signHash E keyPair hash = .ok signature)
    (publicKey messageHash : String) :
    verifySignature E publicKey signature messageHash ≠ .ok true := by
  intro hverified
  have hreads := hE _ _ _ hverified
  rw [not_startsSequence_signHash h] at hreads
  cases hreads

/-! ### Coinbases -/

/-- The signature stored in a transaction verifies under the public key, for
    the hash the transaction had before it was signed. -/
def SignatureVerifies (E : Env) (publicKey : String) (tx : Val) : Prop :=
  ∃ t signature hash, Transaction.ofValue? tx = some t ∧ t.signature = .str signature ∧
    Transaction.calculateHashV2 E { t with signature := .null } = .ok hash ∧
    verifySignature E publicKey signature hash = .ok true

/-- A coinbase carries what `signHash` made. -/
theorem coinBase_signature {bc : Blockchain E} {address : Val} {coinBase : Transaction}
    (h : bc.coinBaseTransaction address = .ok coinBase) :
    ∃ keyPair hash signature, signHash E keyPair hash = .ok signature ∧
      coinBase.signature = .str signature := by
  unfold Blockchain.coinBaseTransaction at h
  obtain ⟨_, _, h⟩ := bind_eq_ok.mp h
  obtain ⟨hash, _, h⟩ := bind_eq_ok.mp h
  cases hkey : bc.keyPair with
  | none => simp [hkey] at h
  | some keyPair =>
    simp only [hkey] at h
    obtain ⟨signature, hsign, h⟩ := bind_eq_ok.mp h
    refine ⟨keyPair, hash, signature, hsign, ?_⟩
    rw [← Except.ok.inj h]

theorem not_signatureVerifies (hE : VerifyReadsDER E) {bc : Blockchain E} {address : Val}
    {coinBase : Transaction} (h : bc.coinBaseTransaction address = .ok coinBase)
    (publicKey : String) : ¬ SignatureVerifies E publicKey coinBase.toValue := by
  intro hverifies
  obtain ⟨t, signature, hash, ht, hsignature, _, hverified⟩ := hverifies
  rw [Transaction.ofValue?_toValue, Option.some.injEq] at ht
  subst ht
  obtain ⟨keyPair, hash', signature', hsign, heq⟩ := coinBase_signature h
  rw [heq, Value.str.injEq] at hsignature
  subst hsignature
  exact verifySignature_signHash hE hsign publicKey hash hverified

/-! ### Runs -/

/-- **No coinbase of a run can be verified.** For no key and hash does
    `verifySignature` return true for what `signHash` makes.  After any run of
    `createTransaction`, `addTransaction` and `minePendingTransactions` the
    chain and the pending list hold what was pushed, and the coinbases among
    it have signatures that verify under the node's public key if and only if
    there are none: every call of `minePendingTransactions` was unable to make
    its coinbase. -/
theorem coinBase_signatures_verify_iff (hE : VerifyReadsDER E) :
    (∀ (keyPair : E.KeyPair) (hash : String), ¬ ∃ signature,
      signHash E keyPair hash = .ok signature ∧
        verifySignature E (E.getPublic keyPair) signature hash = .ok true) ∧
    ∀ (keyPair : E.KeyPair) (tr : List (Transition (Blockchain E) Op)) (bc : Blockchain E),
      Run (queueSystem E (some keyPair)) (.new E (some keyPair)) tr bc →
      (history bc = (pushed tr).map Entry.value ∧
        ((∀ e ∈ pushed tr, e.isCoinBase = true →
          SignatureVerifies E (E.getPublic keyPair) e.value) ↔
          ∀ x ∈ tr, x.label.coinBases x.pre = [])) := by
  refine ⟨?_, ?_⟩
  · intro keyPair hash h
    obtain ⟨signature, hsign, hverified⟩ := h
    exact verifySignature_signHash hE hsign _ _ hverified
  · intro keyPair tr bc hrun
    refine ⟨history_eq_pushed hrun, ?_⟩
    constructor
    · intro hall x hx
      apply List.eq_nil_iff_forall_not_mem.mpr
      intro tx htx
      have hverifies := hall ⟨tx, true⟩ (coinBase_mem_pushed.mpr ⟨x, hx, htx⟩) rfl
      obtain ⟨address, coinBase, hcoin, rfl⟩ := Op.exists_coinBase htx
      exact not_signatureVerifies hE hcoin _ hverifies
    · intro hnone e he hcoinBase
      obtain ⟨tx, isCoinBase⟩ := e
      obtain rfl : isCoinBase = true := hcoinBase
      obtain ⟨x, hx, htx⟩ := coinBase_mem_pushed.mp he
      rw [hnone x hx] at htx
      cases htx

/-! ### A package that reads DER -/

/-- Stand-ins for the two packages: every signature has the same text in DER,
    `verify` accepts this text, and throws for one that it cannot read. -/
def derEnv : Env where
  KeyPair   := Unit
  Signature := Unit
  SHA256    := fun _ => "0"
  getPublic := fun _ => "04aa"
  sign      := fun _ _ => .ok ()
  toDER     := fun _ => "3006020101020101"
  verify    := fun _ _ signature => match signature with
    | .str s =>
      if startsSequence s then .ok (decide (s = "3006020101020101"))
      else .error (.error "Signature without r or s")
    | _ => .error (.error "Signature without r or s")

theorem signingVerifies_derEnv : SigningVerifies derEnv := by
  intro key hash sig _
  have hreads : startsSequence "3006020101020101" = true := by decide
  simp [derEnv, hreads]

theorem verifyReadsDER_derEnv : VerifyReadsDER derEnv := by
  intro publicKey hash signature h
  by_contra hfails
  simp [derEnv, hfails] at h

/-- What `signHash` makes is refused with an exception. -/
theorem verifySignature_derEnv {keyPair : derEnv.KeyPair} {hash signature : String}
    (h : signHash derEnv keyPair hash = .ok signature) (publicKey messageHash : String) :
    verifySignature derEnv publicKey signature messageHash =
      .error (.error "Signature without r or s") := by
  have hfails := not_startsSequence_signHash h
  simp [verifySignature, derEnv, hfails]

/-- A run that mines one block, which holds its coinbase only. -/
theorem exists_coinBase_run :
    ∃ tr bc b coinBase, Run (queueSystem derEnv (some ())) (.new derEnv (some ())) tr bc ∧
      tr.map (·.label) = [.minePendingTransactions (.str "miner") 7 1] ∧
      bc.chain = [createGenesisBlock, b] ∧ b.transactions = .arr [coinBase.toValue] ∧
      (Blockchain.new derEnv (some ())).coinBaseTransaction (.str "miner") = .ok coinBase := by
  obtain ⟨bc, b, coinBase, hrun, hchain, htxs, hcoin⟩ : ∃ bc b coinBase,
      execAll (Blockchain.new derEnv (some ())) [.minePendingTransactions (.str "miner") 7 1] =
        some bc ∧ bc.chain = [createGenesisBlock, b] ∧
      b.transactions = .arr [Transaction.toValue coinBase] ∧
      (Blockchain.new derEnv (some ())).coinBaseTransaction (.str "miner") = .ok coinBase :=
    ⟨_, _, _, rfl, rfl, rfl, rfl⟩
  obtain ⟨tr, htr, hlabels⟩ := run_of_execAll (some ()) (fun _ op => op.byClock fun _ => True)
    (by simp [Op.byClock]) hrun
  exact ⟨tr, bc, b, coinBase, htr, hlabels, hchain, htxs, hcoin⟩

/-- The equivalence on a run that mines one block. -/
theorem coinBase_signatures_verify_iff_one_block :
    ∃ tr bc, Run (queueSystem derEnv (some ())) (.new derEnv (some ())) tr bc ∧
      tr.length = 1 ∧
      ((∀ e ∈ pushed tr, e.isCoinBase = true → SignatureVerifies derEnv "04aa" e.value) ↔
        ∀ x ∈ tr, x.label.coinBases x.pre = []) := by
  obtain ⟨tr, bc, b, coinBase, htr, hlabels, _⟩ := exists_coinBase_run
  have hlen : tr.length = 1 := by
    have := congrArg List.length hlabels
    simpa using this
  exact ⟨tr, bc, htr, hlen,
    ((coinBase_signatures_verify_iff verifyReadsDER_derEnv).2 () tr bc htr).2⟩

/-- **The coinbase of the first block is not signed.** With a package that
    verifies what it signs, the signature `signHash` makes is refused with an
    exception, and the one on the coinbase of the first mined block does not
    verify. -/
theorem coinBase_signature_unreadable :
    SigningVerifies derEnv ∧ VerifyReadsDER derEnv ∧
      (∃ signature, signHash derEnv () "0" = .ok signature ∧
        verifySignature derEnv "04aa" signature "0" =
          .error (.error "Signature without r or s")) ∧
      ∃ tr bc b tx, Run (queueSystem derEnv (some ())) (.new derEnv (some ())) tr bc ∧
        bc.chain = [createGenesisBlock, b] ∧ b.transactions = .arr [tx] ∧
        ¬ SignatureVerifies derEnv "04aa" tx := by
  obtain ⟨tr, bc, b, coinBase, htr, _, hchain, htxs, hcoin⟩ := exists_coinBase_run
  obtain ⟨signature, hsign⟩ : ∃ signature, signHash derEnv () "0" = .ok signature := ⟨_, rfl⟩
  refine ⟨signingVerifies_derEnv, verifyReadsDER_derEnv,
    ⟨signature, hsign, verifySignature_derEnv hsign _ _⟩, tr, bc, b, _, htr, hchain, htxs, ?_⟩
  exact not_signatureVerifies verifyReadsDER_derEnv hcoin _

end XCoin
