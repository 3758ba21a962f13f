import XCoin.Chain.Difficulty

/-! # The chain invariant

    In every state a run reaches, the chain starts with the genesis block
    and each later block continues the one before it: index, previous hash,
    difficulty, hash and work are what the prefix below it demands.  A call
    only ever extends the chain.
-/

namespace XCoin

open Js LTS AppendLog Throwing

variable {E : Env} {chain : List Block}

/-! ### The invariant -/

/-- What holds of every chain a run reaches. -/
structure ChainInv (E : Env) (chain : List Block) : Prop where
  /-- The chain starts with the genesis block. -/
  genesis : chain[0]? = some createGenesisBlock
  /-- Every later block is the continuation of the prefix below it. -/
  mined : ∀ i p b, chain[i]? = some p → chain[i + 1]? = some b →
    b.index = i + 1 ∧ b.previousHash = p.hash ∧
    getDifficulty (chain.take (i + 1)) = .ok b.difficulty ∧
    b.ownHash E = .ok b.hash ∧
    ∃ d : Nat, b.difficulty = .int d ∧ List.replicate d '0' <+: b.hash.toList

/-- A hash matches a difficulty exactly if it starts with that many zeros. -/
theorem Block.match_iff_zeros (hash : String) (d : Nat) (answer : Bool) :
    Block.hashMatchesDifficulty hash (.int d) = .ok answer ↔
      (answer = true ↔ List.replicate d '0' <+: hash.toList) := by
  unfold Block.hashMatchesDifficulty Block.startsWith
  rw [Difficulty.repeatCount, if_neg (by omega), ok_bind, pure_eq_ok, Except.ok.injEq,
    String.toList_ofList, Int.toNat_natCast, ← List.isPrefixOf_iff_prefix, Bool.eq_iff_iff]
  exact Iff.comm

/-- A hash that matches a difficulty starts with that many zeros. -/
theorem Block.zeros_of_match {hash : String} {d : Int} (hd : 0 ≤ d)
    (h : Block.hashMatchesDifficulty hash (.int d) = .ok true) :
    List.replicate d.toNat '0' <+: hash.toList := by
  rw [← Int.toNat_of_nonneg hd] at h
  exact ((Block.match_iff_zeros hash d.toNat true).mp h).mp rfl

/-- A grown chain satisfies the invariant. -/
theorem chainInv_of_grown (h : Grown (MinedOn E) [createGenesisBlock] chain) :
    ChainInv E chain where
  genesis := by
    obtain ⟨t, rfl⟩ := h.prefix_base
    rfl
  mined := by
    intro i p b hp hb
    have hmined : MinedOn E (chain.take (i + 1)) b := h.getElem (by simp) hb
    have hlt : i + 1 < chain.length := (List.getElem?_eq_some_iff.mp hb).1
    -- the latest block of the prefix is the one at position `i`
    obtain ⟨latest, hlast, _, hprev⟩ := hmined.linked
    have hlatest : latest = p := by
      rw [List.getLast?_eq_getElem?, List.length_take, Nat.min_eq_left (by omega),
        List.getElem?_take_of_lt (by omega), Nat.add_sub_cancel, hp, Option.some.injEq] at hlast
      exact hlast.symm
    obtain ⟨d, hd, hdiff⟩ := (grown_difficulty h).1 (i + 1) b (by omega) hb
    refine ⟨grown_index h hb, hlatest ▸ hprev, hmined.difficulty, hmined.hash, d.toNat, ?_, ?_⟩
    · rw [hdiff, Int.toNat_of_nonneg hd]
    · exact Block.zeros_of_match hd (hdiff ▸ hmined.work)

/-! ### Runs -/

/-- **Chain invariant.** After any sequence of calls from a fresh object,
    calls that throw included, the chain satisfies the invariant, and the
    next call can only extend it. -/
theorem chain_invariant {keyPair : Option E.KeyPair} {bc : Blockchain E}
    (h : Reachable (chainSystem E keyPair) bc) :
    ChainInv E bc.chain ∧
    ∀ op bc', (chainSystem E keyPair).step bc op bc' → bc.chain <+: bc'.chain := by
  refine ⟨chainInv_of_grown (grown_of_reachable h), ?_⟩
  intro op bc' hstep
  obtain ⟨r, hexec⟩ := hstep
  exact (Op.exec_outcome hexec).prefix_chain

/-- The invariant on a run that mines a block, adds one by hand and is
    refused a transaction. -/
theorem chain_invariant_two_blocks :
    ∃ bc : Blockchain demoEnv,
      Reachable (chainSystem demoEnv (some ())) bc ∧ bc.chain.length = 3 ∧
      ChainInv demoEnv bc.chain := by
  let ops : List Op :=
    [.minePendingTransactions (.str "miner") 7 1, .addTransaction .null,
     .addBlock (.str "17/03/2020") (.obj none [("amount", .num 4)]) "" 1]
  have hfinal : (execAll (Blockchain.new demoEnv (some ())) ops).map (fun bc => bc.chain.length)
      = some 3 := by
    decide +kernel
  obtain ⟨bc, hrun, hlen⟩ := Option.map_eq_some_iff.mp hfinal
  obtain ⟨tr, htr, _⟩ := run_of_execAll (some ()) (fun _ _ => True)
    (fun _ _ _ => trivial) hrun
  have hreach := (htr.reachable (.init rfl)).of_restrict
  exact ⟨bc, hreach, hlen, (chain_invariant hreach).1⟩

end XCoin
