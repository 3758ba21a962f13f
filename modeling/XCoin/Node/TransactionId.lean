import XCoin.Framework.Pairs
import XCoin.Node.Coinbase

/-! # What a transaction id identifies

    `getTransactionId` hashes the inputs and outputs of a transaction, each as
    a text followed by a number, written one after the other.  Nothing says
    where one field ends, where one element ends, or where the outputs start.

    The last of these is enough to spoil every transaction that has contents:
    an output may be taken for an input.  Among transactions with the same
    numbers of inputs and outputs the question is the one of
    `Text.uniquelyCut_iff`.
-/

namespace XCoin

open Js Throwing Text

variable {E : Env}

/-! ### Contents -/

/-- An array of objects with a text under `k₁` and a natural number under
    `k₂`. -/
def ReadsPairs (k₁ k₂ : String) (v : Val) (pairs : List (String × Nat)) : Prop :=
  ∃ xs, v = .arr xs ∧ List.Forall₂
    (fun x p => x.get k₁ = .ok (.str p.1) ∧ x.get k₂ = .ok (.num p.2)) xs pairs

/-- The inputs and outputs of a transaction. -/
structure HasContents (t : Transaction) (ins outs : List (String × Nat)) : Prop where
  txIns  : ReadsPairs "txOutId" "txOutIndex" t.txIns ins
  txOuts : ReadsPairs "address" "amount" t.txOuts outs

/-- A transaction with given inputs and outputs. -/
def withContents (ins outs : List (String × Nat)) : Transaction :=
  .new .null .null .null .null
    (.arr (ins.map fun p => .obj none [("txOutId", .str p.1), ("txOutIndex", .num p.2)]))
    (.arr (outs.map fun p => newTxOut (.str p.1) (.num p.2)))

/-- Objects made from the pairs are read back as the pairs. -/
theorem readsPairs_map {k₁ k₂ : String} {f : String × Nat → Val}
    (hf : ∀ p, (f p).get k₁ = .ok (.str p.1) ∧ (f p).get k₂ = .ok (.num p.2))
    (pairs : List (String × Nat)) : ReadsPairs k₁ k₂ (.arr (pairs.map f)) pairs := by
  refine ⟨_, rfl, List.forall₂_map_left_iff.mpr (List.forall₂_same.mpr ?_)⟩
  intro p _
  exact hf p

theorem hasContents_withContents (ins outs : List (String × Nat)) :
    HasContents (withContents ins outs) ins outs where
  txIns  := readsPairs_map (fun _ => ⟨rfl, rfl⟩) ins
  txOuts := readsPairs_map (fun _ => ⟨rfl, rfl⟩) outs

/-! ### The hashed text -/

/-- `map` gives one text for every pair. -/
theorem mapSum_pairs {k₁ k₂ : String} {xs : List Val} {pairs : List (String × Nat)}
    (h : List.Forall₂ (fun x p => x.get k₁ = .ok (.str p.1) ∧ x.get k₂ = .ok (.num p.2)) xs
      pairs) :
    Transaction.mapSum k₁ k₂ xs = .ok (pairs.map fun p => .str (p.1 ++ toString p.2)) := by
  induction h with
  | nil => rfl
  | cons hx _ ih =>
    simp only [Transaction.mapSum, hx.1, hx.2, ih, ok_bind]
    rfl

/-- `reduce` writes them one after the other. -/
theorem reduceSum_pairs (acc : String) (pairs : List (String × Nat)) :
    Transaction.reduceSum (.str acc) (pairs.map fun p => .str (p.1 ++ toString p.2)) =
      .ok (.str (acc ++ writePairs pairs)) := by
  induction pairs generalizing acc with
  | nil => simp [Transaction.reduceSum, writePairs]
  | cons p pairs ih =>
    have hadd : Value.add (.str acc : Val) (.str (p.1 ++ toString p.2)) =
        .ok (.str (acc ++ (p.1 ++ toString p.2))) := rfl
    simp only [List.map_cons, Transaction.reduceSum, hadd, ok_bind, ih, writePairs,
      String.append_assoc]

theorem content_pairs {k₁ k₂ : String} {v : Val} {pairs : List (String × Nat)}
    (h : ReadsPairs k₁ k₂ v pairs) :
    Transaction.content k₁ k₂ v = .ok (.str (writePairs pairs)) := by
  obtain ⟨xs, rfl, hxs⟩ := h
  simp only [Transaction.content, mapSum_pairs hxs, ok_bind, reduceSum_pairs, String.empty_append]

/-- The id hashes the inputs followed by the outputs. -/
theorem getTransactionId_text {t : Transaction} {ins outs : List (String × Nat)}
    (h : HasContents t ins outs) (isCoinbaseTransaction : Bool) :
    t.getTransactionId E isCoinbaseTransaction "" =
      .ok (E.SHA256 (.str (writePairs (ins ++ outs)))) := by
  have hadd (s u : String) : Value.add (.str s : Val) (.str u) = .ok (.str (s ++ u)) := rfl
  simp only [Transaction.getTransactionId, content_pairs h.txIns, content_pairs h.txOuts, ok_bind,
    hadd, ite_self, String.append_empty, writePairs_append]
  rfl

/-- Without collisions, transactions with one id have one text. -/
theorem getTransactionId_eq_iff (hE : ∀ s t, E.SHA256 (.str s) = E.SHA256 (.str t) → s = t)
    {t t' : Transaction} {ins outs ins' outs' : List (String × Nat)}
    (h : HasContents t ins outs) (h' : HasContents t' ins' outs') :
    t'.getTransactionId E false "" = t.getTransactionId E false "" ↔
      writePairs (ins' ++ outs') = writePairs (ins ++ outs) := by
  rw [getTransactionId_text h, getTransactionId_text h', Except.ok.injEq]
  constructor
  · exact hE _ _
  · intro htext
    rw [htext]

/-! ### Which ids identify -/

/-- **Which ids identify the contents.** If hashes do not collide, the id of a
    transaction determines its inputs and outputs exactly if it has none.
    Among the transactions with as many inputs and as many outputs it
    determines them exactly if they are readable: there is one element in all,
    with one digit and a text that ends in no digits but zeros, or every
    number has one digit and no text has any. -/
theorem transactionId_identifies_iff
    (hE : ∀ s t, E.SHA256 (.str s) = E.SHA256 (.str t) → s = t) {t : Transaction}
    {ins outs : List (String × Nat)} (h : HasContents t ins outs) :
    ((∀ t' ins' outs', HasContents t' ins' outs' →
      t'.getTransactionId E false "" = t.getTransactionId E false "" →
        ins' = ins ∧ outs' = outs) ↔ ins = [] ∧ outs = []) ∧
    ((∀ t' ins' outs', HasContents t' ins' outs' → ins'.length = ins.length →
      outs'.length = outs.length →
      t'.getTransactionId E false "" = t.getTransactionId E false "" →
        ins' = ins ∧ outs' = outs) ↔ Readable (ins ++ outs)) := by
  refine ⟨⟨?_, ?_⟩, ?_⟩
  · intro hall
    -- the same elements, once all as inputs and once all as outputs
    have hins := hall _ _ _ (hasContents_withContents (ins ++ outs) [])
      ((getTransactionId_eq_iff hE h (hasContents_withContents _ _)).mpr (by simp))
    have houts := hall _ _ _ (hasContents_withContents [] (ins ++ outs))
      ((getTransactionId_eq_iff hE h (hasContents_withContents _ _)).mpr (by simp))
    exact ⟨houts.1.symm, hins.2.symm⟩
  · rintro ⟨rfl, rfl⟩ t' ins' outs' h' hid
    have htext := (getTransactionId_eq_iff hE h h').mp hid
    exact List.append_eq_nil_iff.mp ((writePairs_eq_empty_iff _).mp htext)
  · rw [← uniquelyCut_iff]
    constructor
    · intro hall pairs' hlen heq
      -- cut the other list where the outputs start
      have hlen' : pairs'.length = ins.length + outs.length := by simpa using hlen
      obtain ⟨hins, houts⟩ := hall _ (pairs'.take ins.length) (pairs'.drop ins.length)
        (hasContents_withContents _ _) (by rw [List.length_take]; omega)
        (by rw [List.length_drop]; omega)
        ((getTransactionId_eq_iff hE h (hasContents_withContents _ _)).mpr
          (by rw [List.take_append_drop, heq]))
      rw [← List.take_append_drop ins.length pairs', hins, houts]
    · intro hcut t' ins' outs' h' hlen hlen' hid
      have hpairs := hcut (ins' ++ outs') (by simp [hlen, hlen'])
        ((getTransactionId_eq_iff hE h h').mp hid)
      exact List.append_inj hpairs hlen

/-! ### Requested transactions -/

/-- A node whose package is `sealEnv`. -/
def sealConfig : Config Transaction.sealEnv Bool where
  neighborNodeList := [true]
  myKey            := ()

theorem exists_requested_seal (receiver : String) (amount : Int) :
    ∃ tx, Node.requestedTransaction sealConfig (.str receiver) (.num amount) = .ok tx :=
  exists_requestedTransaction (fun hash => ⟨hash, rfl⟩) receiver amount

/-- A requested transaction has no inputs and one output. -/
theorem hasContents_requested {ι : Type} {cfg : Config E ι} {receiver : String} {n : Nat}
    {tx : Transaction}
    (h : Node.requestedTransaction cfg (.str receiver) (.num n) = .ok tx) :
    HasContents tx [] [(receiver, n)] := by
  obtain ⟨_, _, _, _, hins, houts, _⟩ := requestedTransaction_fields h
  refine ⟨⟨[], hins, .nil⟩, ⟨_, houts, .cons ⟨rfl, rfl⟩ .nil⟩⟩

/-- The equivalences for a request of seven coins to `bob`: it is not safe
    from transactions with inputs, but from all others with one output. -/
theorem transactionId_identifies_iff_seven :
    ∃ tx, Node.requestedTransaction sealConfig (.str "bob") (.num 7) = .ok tx ∧
      ((∀ t' ins' outs', HasContents t' ins' outs' →
        t'.getTransactionId Transaction.sealEnv false "" =
          tx.getTransactionId Transaction.sealEnv false "" →
          ins' = [] ∧ outs' = [("bob", 7)]) ↔
        ([] : List (String × Nat)) = [] ∧ [("bob", 7)] = []) ∧
      ∀ t' ins' outs', HasContents t' ins' outs' → ins'.length = 0 → outs'.length = 1 →
        t'.getTransactionId Transaction.sealEnv false "" =
          tx.getTransactionId Transaction.sealEnv false "" →
          ins' = [] ∧ outs' = [("bob", 7)] := by
  obtain ⟨tx, htx⟩ := exists_requested_seal "bob" 7
  have hiff := transactionId_identifies_iff Transaction.soundSignatures_sealEnv.noCollision
    (hasContents_requested (n := 7) htx)
  have hnone : trailingDigits "bob" = [] := by decide +kernel
  exact ⟨tx, htx, hiff.1, hiff.2.mpr ⟨by decide, by simp [hnone]⟩⟩

/-- **Two requests with one id.** Ten coins to `bob` and no coins to `bob1`
    are written alike, though hashes do not collide. -/
theorem transactionId_shared_bob :
    (∀ s t, Transaction.sealEnv.SHA256 (.str s) = Transaction.sealEnv.SHA256 (.str t) → s = t) ∧
    ∃ tx tx', Node.requestedTransaction sealConfig (.str "bob") (.num 10) = .ok tx ∧
      Node.requestedTransaction sealConfig (.str "bob1") (.num 0) = .ok tx' ∧
      HasContents tx [] [("bob", 10)] ∧ HasContents tx' [] [("bob1", 0)] ∧
      tx'.getTransactionId Transaction.sealEnv false "" =
        tx.getTransactionId Transaction.sealEnv false "" := by
  have hE := Transaction.soundSignatures_sealEnv.noCollision
  obtain ⟨tx, htx⟩ := exists_requested_seal "bob" 10
  obtain ⟨tx', htx'⟩ := exists_requested_seal "bob1" 0
  have hcontents : HasContents tx [] [("bob", 10)] := hasContents_requested htx
  have hcontents' : HasContents tx' [] [("bob1", 0)] := hasContents_requested htx'
  refine ⟨hE, tx, tx', htx, htx', hcontents, hcontents', ?_⟩
  rw [getTransactionId_eq_iff hE hcontents hcontents']
  decide

end XCoin
