import XCoin.Chain.Difficulty
import XCoin.Chain.History

/-! # When the difficulty changes

    Between retargets the difficulty is meant to stay, and a retarget is meant
    to move it by one at most.  A retarget reads the block nine below the
    latest one, so the second half rests on the first: the ten blocks since
    the last retarget all carry the same difficulty.

    The first half fails in one place.  `getDifficulty` takes a stored
    difficulty of `0` for a missing one, so the block after a block of
    difficulty `0` is mined at `1`.
-/

namespace XCoin

open Js LTS AppendLog Throwing

variable {E : Env} {chain : List Block}

/-! ### Two blocks in a row -/

/-- The difficulty of `y`, the block after the block `x` at position `i`: that
    of `x`, except that it may move by one after a retarget. -/
def SteadyAt (i : Nat) (x y : Block) : Prop :=
  if Retargets i then
    ∃ d e : Int, x.difficulty = .int d ∧ y.difficulty = .int e ∧ |e - d| ≤ 1
  else y.difficulty = x.difficulty

/-- Every block of the chain after the first mined one is steady. -/
def Steady (chain : List Block) : Prop :=
  ∀ i x y, 1 ≤ i → chain[i]? = some x → chain[i + 1]? = some y → SteadyAt i x y

theorem steady_genesis : Steady [createGenesisBlock] := by
  intro i x y _ _ hy
  simp at hy

/-- A retarget moves the difficulty by one at most. -/
theorem abs_adjustment_le (latest prev : Timestamp) : |adjustment latest prev| ≤ 1 := by
  unfold adjustment
  split
  · decide
  · split <;> decide

/-- Away from retargets a block is mined at the difficulty of the block before
    it, and at `1` if that is `0`. -/
theorem grown_next_difficulty (h : Grown (MinedOn E) [createGenesisBlock] chain) {i : Nat}
    {x y : Block} {d : Int} (hx : chain[i]? = some x) (hy : chain[i + 1]? = some y)
    (hi : ¬ Retargets i) (hd : x.difficulty = .int d) :
    y.difficulty = .int (if d = 0 then 1 else d) := by
  have hlt : i + 1 < chain.length := (List.getElem?_eq_some_iff.mp hy).1
  -- `y` was mined on the blocks up to `x`
  have hmined : MinedOn E (chain.take (i + 1)) y := h.getElem (by simp) hy
  have hlast : (chain.take (i + 1)).getLast? = some x := by
    rw [List.getLast?_eq_getElem?, List.length_take, Nat.min_eq_left (Nat.le_of_lt hlt),
      Nat.add_sub_cancel, List.getElem?_take_of_lt (Nat.lt_succ_self i)]
    exact hx
  have hindex : x.index = i := grown_index h hx
  have hdiff := getDifficulty_of_not_retargets hlast (by rwa [hindex]) hd
  rw [hmined.difficulty, Except.ok.injEq] at hdiff
  exact hdiff

/-- In a steady chain, a block followed by another one between retargets does
    not have difficulty `0`. -/
theorem Steady.ne_zero (hsteady : Steady chain)
    (h : Grown (MinedOn E) [createGenesisBlock] chain) {i : Nat} {x y : Block} (hpos : 1 ≤ i)
    (hx : chain[i]? = some x) (hy : chain[i + 1]? = some y) (hi : ¬ Retargets i) :
    x.difficulty ≠ .int 0 := by
  intro hzero
  have hnext := grown_next_difficulty h hx hy hi hzero
  have hsame := hsteady i x y hpos hx hy
  rw [SteadyAt, if_neg hi, hnext, hzero] at hsame
  simp at hsame

/-- Nine blocks below a retarget height, a steady chain has the same
    difficulty as at that height. -/
theorem Steady.window (hsteady : Steady chain) {n : Nat} (hn : Retargets n) {x : Block}
    (hx : chain[n]? = some x) {k : Nat} (hk : k ≤ 9) {y : Block} (hy : chain[n - k]? = some y) :
    y.difficulty = x.difficulty := by
  have hmod : n % 10 = 0 := hn.1
  have hbig : 10 < n := hn.2
  have hlt : n < chain.length := (List.getElem?_eq_some_iff.mp hx).1
  induction k generalizing y with
  | zero =>
    rw [Nat.sub_zero, hx, Option.some.injEq] at hy
    rw [hy]
  | succ k ih =>
    -- the block one position higher
    obtain ⟨z, hz⟩ : ∃ z, chain[n - k]? = some z := ⟨_, List.getElem?_eq_getElem (by omega)⟩
    have hnot : ¬ Retargets (n - (k + 1)) := by
      rintro ⟨hmod', _⟩
      simp only [DIFFICULTY_ADJUSTMENT_INTERVAL] at hmod'
      omega
    have hpos : n - (k + 1) + 1 = n - k := by omega
    have hstep := hsteady (n - (k + 1)) y z (by omega) hy (by rw [hpos]; exact hz)
    rw [SteadyAt, if_neg hnot] at hstep
    rw [← hstep]
    exact ih (by omega) hz

/-! ### One append -/

/-- Appending a block asks for steadiness of the new block only. -/
theorem steady_append_iff_last {x b : Block} (hsteady : Steady chain)
    (hlast : chain.getLast? = some x) :
    Steady (chain ++ [b]) ↔ (2 ≤ chain.length → SteadyAt (chain.length - 1) x b) := by
  rw [List.getLast?_eq_getElem?] at hlast
  constructor
  · intro hall hlen
    apply hall (chain.length - 1) x b (by omega)
    · rw [List.getElem?_append_left (by omega)]
      exact hlast
    · rw [Nat.sub_add_cancel (by omega)]
      simp
  · intro hnew i y z hi hy hz
    rcases getElem?_concat_cases hz with hold | ⟨hiz, rfl⟩
    · -- both blocks are old
      have hlt : i + 1 < chain.length := (List.getElem?_eq_some_iff.mp hold).1
      rw [List.getElem?_append_left (by omega)] at hy
      exact hsteady i y z hi hy hold
    · rw [List.getElem?_append_left (by omega)] at hy
      have hpos : chain.length - 1 = i := by omega
      rw [hpos, hy, Option.some.injEq] at hlast
      rw [hlast, ← hpos]
      exact hnew (by omega)

/-- **One append**: a block mined on a steady chain keeps it steady exactly if
    the block before it does not have difficulty `0`. -/
theorem steady_append_iff {x b : Block} (h : Grown (MinedOn E) [createGenesisBlock] chain)
    (hsteady : Steady chain) (hmined : MinedOn E chain b) (hlast : chain.getLast? = some x) :
    Steady (chain ++ [b]) ↔ x.difficulty ≠ .int 0 := by
  rw [steady_append_iff_last hsteady hlast]
  have hgrown : Grown (MinedOn E) [createGenesisBlock] (chain ++ [b]) := .append h hmined
  have hx : chain[chain.length - 1]? = some x := by
    rw [← List.getLast?_eq_getElem?]
    exact hlast
  by_cases hlen : 2 ≤ chain.length
  · rw [forall_prop_of_true hlen]
    obtain ⟨d, _, hd⟩ := (grown_difficulty h).1 _ x (by omega) hx
    have hpos : chain.length - 1 + 1 = chain.length := by omega
    by_cases hn : Retargets (chain.length - 1)
    · -- the retarget starts from the difficulty of `x`, which is not `0`
      have hbig : 10 < chain.length - 1 := hn.2
      have hmod : (chain.length - 1) % 10 = 0 := hn.1
      obtain ⟨p, hp⟩ : ∃ p, chain[chain.length - 1 - 9]? = some p :=
        ⟨_, List.getElem?_eq_getElem (by omega)⟩
      obtain ⟨q, hq⟩ : ∃ q, chain[chain.length - 1 - 9 + 1]? = some q :=
        ⟨_, List.getElem?_eq_getElem (by omega)⟩
      have hpx : p.difficulty = x.difficulty := hsteady.window hn hx (Nat.le_refl 9) hp
      have hp0 : p.difficulty ≠ .int 0 := by
        apply hsteady.ne_zero h (by omega) hp hq
        rintro ⟨hmod', _⟩
        simp only [DIFFICULTY_ADJUSTMENT_INTERVAL] at hmod'
        omega
      have hindex : x.index = chain.length - 1 := grown_index h hx
      have hdiff := getDifficulty_of_retargets hlast (by rwa [hindex])
      rw [hmined.difficulty, getAdjustedDifficulty_eq (p := p) (e := d)
        (by simp only [DIFFICULTY_ADJUSTMENT_INTERVAL]; omega)
        (by rw [← hp]; congr 1)
        (hpx.trans hd), Except.ok.injEq] at hdiff
      rw [SteadyAt, if_pos hn]
      refine iff_of_true ⟨d, _, hd, hdiff, ?_⟩ (hpx ▸ hp0)
      rw [add_sub_cancel_left]
      exact abs_adjustment_le _ _
    · -- the next difficulty is that of `x`, or `1`
      have hb : b.difficulty = .int (if d = 0 then 1 else d) := by
        refine grown_next_difficulty hgrown (i := chain.length - 1) ?_ ?_ hn hd
        · rw [List.getElem?_append_left (by omega)]
          exact hx
        · rw [hpos]
          simp
      rw [SteadyAt, if_neg hn, hb, hd, Difficulty.int.injEq, Ne, Difficulty.int.injEq]
      by_cases h0 : d = 0
      · simp [h0]
      · simp [h0]
  · -- the block before is the genesis block, which has no difficulty
    refine iff_of_true (fun hlen' => absurd hlen' hlen) ?_
    have hone : chain = [createGenesisBlock] := by
      have hinitial := h.prefix_base
      have := hinitial.length_le
      exact (hinitial.eq_of_length (by simp at this ⊢; omega)).symm
    subst hone
    simp only [List.getLast?_singleton, Option.some.injEq] at hlast
    rw [← hlast]
    decide

/-! ### Runs -/

/-- The condition on a call: if it can mine, the latest block does not have
    difficulty `0`. -/
def MinesOnNonzero (bc : Blockchain E) : Op → Prop
  | .minePendingTransactions address _ _ => bc.CanMine address →
      ∀ latest, bc.chain.getLast? = some latest → latest.difficulty ≠ .int 0
  | _ => True

/-- **The difficulty is steady except on top of difficulty `0`.** In a run of
    `createTransaction`, `addTransaction` and `minePendingTransactions`, with
    any clock values, the chain is steady in every state reached if and only
    if every call met the condition `MinesOnNonzero` in the state it was made
    in. -/
theorem steady_run_iff {keyPair : Option E.KeyPair} {bc : Blockchain E}
    {tr : List (Transition (Blockchain E) Op)}
    (h : Run (queueSystem E keyPair) (.new E keyPair) tr bc) :
    (Steady (Blockchain.new E keyPair).chain ∧ ∀ x ∈ tr, Steady x.post.chain) ↔
    ∀ x ∈ tr, MinesOnNonzero x.pre x.label := by
  have hfresh : Steady (Blockchain.new E keyPair).chain := steady_genesis
  rw [and_iff_right hfresh]
  refine Run.forall_post_iff (P := fun bc => Steady bc.chain)
    (Q := fun x => MinesOnNonzero x.pre x.label) (.init rfl) hfresh ?_ h
  intro t op u hreach hsteady hstep
  obtain ⟨hop, r, hexec⟩ := hstep
  cases Op.exec_outcome hexec with
  | appended => exact hop.elim
  | mined address date fuel coinBase b hcoin hmined htime htxs =>
    have hgrown := grown_of_reachable hreach.of_restrict
    have hcan : t.CanMine address := ⟨coinBase, hcoin, htxs ▸ hmined.miningReady⟩
    obtain ⟨latest, hlast, _, _⟩ := hmined.linked
    refine (steady_append_iff hgrown hsteady hmined hlast).trans ⟨?_, ?_⟩
    · intro hne _ latest' hlast'
      rw [hlast, Option.some.injEq] at hlast'
      exact hlast' ▸ hne
    · intro hcond
      exact hcond hcan latest hlast
  | unchanged op e hthrows =>
    -- a mining call that threw could not mine
    refine iff_of_true hsteady ?_
    cases op with
    | minePendingTransactions address date fuel =>
      intro hcan
      exact absurd hcan (hthrows address date fuel rfl)
    | _ => trivial
  | stranded address date fuel coinBase e hcoin hthrows =>
    exact iff_of_true hsteady fun hcan => absurd hcan hthrows
  | _ => exact iff_of_true hsteady trivial

/-- The equivalence on a run past the first retarget, which is refused a
    transaction first and whose blocks come at the right pace. -/
theorem steady_run_iff_retarget :
    ∃ (tr : List (Transition (Blockchain demoEnv) Op)) (bc : Blockchain demoEnv),
      Run (queueSystem demoEnv (some ())) (.new demoEnv (some ())) tr bc ∧
      bc.chain.map Block.difficulty =
        createGenesisBlock.difficulty :: List.replicate 22 (.int 1) ∧
      ((Steady (Blockchain.new demoEnv (some ())).chain ∧ ∀ x ∈ tr, Steady x.post.chain) ↔
        ∀ x ∈ tr, MinesOnNonzero x.pre x.label) := by
  let ops : List Op := .addTransaction .null ::
    (List.range 22).map fun k => .minePendingTransactions (.str "miner") (15 * (k + 1)) 1
  have hfinal : (execAll (Blockchain.new demoEnv (some ())) ops).map
      (fun bc => bc.chain.map Block.difficulty) =
        some (createGenesisBlock.difficulty :: List.replicate 22 (.int 1)) := by
    decide +kernel
  obtain ⟨bc, hrun, hdiffs⟩ := Option.map_eq_some_iff.mp hfinal
  obtain ⟨tr, htr, _⟩ := run_of_execAll (some ()) (fun _ op => op.byClock fun _ => True)
    (by simp [ops, Op.byClock]) hrun
  exact ⟨tr, bc, htr, hdiffs, steady_run_iff htr⟩

/-- **Difficulty `0` is forgotten.** With blocks one second apart the retarget
    after block 20 gives block 21 difficulty `0`, and block 22, which is not
    behind a retarget, has difficulty `1`. -/
theorem not_steady_after_zero :
    ∃ (tr : List (Transition (Blockchain demoEnv) Op)) (bc : Blockchain demoEnv) (x y : Block),
      Run (queueSystem demoEnv (some ())) (.new demoEnv (some ())) tr bc ∧
      tr.map (·.label) = slowOps ∧ ¬ Retargets 21 ∧ bc.chain[21]? = some x ∧
      bc.chain[22]? = some y ∧ x.difficulty = .int 0 ∧ y.difficulty = .int 1 := by
  have hfinal : ((execAll (Blockchain.new demoEnv (some ())) slowOps).bind fun bc =>
      bc.chain[21]?.bind fun x => bc.chain[22]?.map fun y => (x.difficulty, y.difficulty)) =
        some (.int 0, .int 1) := by
    decide +kernel
  obtain ⟨bc, hrun, hfinal⟩ := Option.bind_eq_some_iff.mp hfinal
  obtain ⟨x, hx, hfinal⟩ := Option.bind_eq_some_iff.mp hfinal
  obtain ⟨y, hy, hxy⟩ := Option.map_eq_some_iff.mp hfinal
  obtain ⟨hzero, hone⟩ := Prod.mk.inj hxy
  obtain ⟨tr, htr, hlabels⟩ := run_of_execAll (some ()) (fun _ op => op.byClock fun _ => True)
    (by simp [slowOps, Op.byClock]) hrun
  exact ⟨tr, bc, x, y, htr, hlabels, by decide, hx, hy, hzero, hone⟩

end XCoin
