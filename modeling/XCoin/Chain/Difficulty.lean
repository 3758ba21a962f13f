import Mathlib.Tactic.NormNum
import XCoin.Chain.Mining

/-! # The difficulty schedule

    `getDifficulty` reads the whole chain through two blocks: the latest one,
    and at a retarget the one nine below it.  On a grown chain every block's
    index is its position and every mined block's difficulty is an integer,
    so the schedule is a statement about positions:

    * away from retargets the next difficulty is the latest one, or `1` when
      that is `0`;
    * at a retarget it is the difficulty of the block nine below, moved by
      the `adjustment` the time since that block calls for.
-/

namespace XCoin

open Js LTS AppendLog Throwing

variable {E : Env} {chain : List Block}

/-! ### Positions -/

/-- In a grown chain every block's index is its position. -/
theorem grown_index (h : Grown (MinedOn E) [createGenesisBlock] chain) {i : Nat} {b : Block}
    (hb : chain[i]? = some b) : b.index = i := by
  induction h generalizing i b with
  | base =>
    cases i with
    | zero =>
      cases hb
      rfl
    | succ i => simp at hb
  | @append l x hl hmined ih =>
    rcases getElem?_concat_cases hb with hold | ⟨rfl, rfl⟩
    · exact ih hold
    · -- the block appended last continues the index of the one before
      obtain ⟨latest, hlast, hindex, _⟩ := hmined.linked
      rw [List.getLast?_eq_getElem?] at hlast
      have hprev := ih hlast
      have hpos : 1 ≤ l.length := hl.length_le
      omega

/-! ### The retarget -/

/-- Does the difficulty after block `n` come from a retarget? -/
def Retargets (n : Nat) : Prop := n % DIFFICULTY_ADJUSTMENT_INTERVAL = 0 ∧
  DIFFICULTY_ADJUSTMENT_INTERVAL < n

instance (n : Nat) : Decidable (Retargets n) :=
  inferInstanceAs (Decidable (_ ∧ _))

/-- The change of difficulty for the time between two timestamps. -/
def adjustment (latest prev : Timestamp) : Int :=
  if (Number.sub .binary64 latest.toNumber prev.toNumber).lt (.fin 50) then 1
  else if Number.lt (.fin 200) (Number.sub .binary64 latest.toNumber prev.toNumber) then -1
  else 0

/-- The adjustment for clock values. -/
theorem adjustment_num (a b : Int) :
    adjustment (.num a) (.num b) = if a - b < 50 then 1 else if 200 < a - b then -1 else 0 := by
  have h50 := Number.sub_lt_intCast a b (k := 50) (by decide)
  have h200 := Number.intCast_lt_sub a b (k := 200) (by decide)
  simp only [Int.cast_ofNat] at h50 h200
  simp only [adjustment, Timestamp.toNumber, h50, h200, decide_eq_true_eq]

theorem getAdjustedDifficulty_eq {latest p : Block} {e : Int}
    (hlen : DIFFICULTY_ADJUSTMENT_INTERVAL ≤ chain.length)
    (hp : chain[chain.length - DIFFICULTY_ADJUSTMENT_INTERVAL]? = some p)
    (he : p.difficulty = .int e) :
    getAdjustedDifficulty latest chain =
      .ok (.int (e + adjustment latest.timestamp p.timestamp)) := by
  have h50 : ((BLOCK_GENERATION_INTERVAL * DIFFICULTY_ADJUSTMENT_INTERVAL : Nat) : ℚ) / 2 = 50 := by
    norm_num [BLOCK_GENERATION_INTERVAL, DIFFICULTY_ADJUSTMENT_INTERVAL]
  have h200 : ((BLOCK_GENERATION_INTERVAL * DIFFICULTY_ADJUSTMENT_INTERVAL : Nat) : ℚ) * 2 =
      200 := by
    norm_num [BLOCK_GENERATION_INTERVAL, DIFFICULTY_ADJUSTMENT_INTERVAL]
  unfold getAdjustedDifficulty
  rw [if_neg (by omega), hp]
  simp only [h50, h200, he, Difficulty.plus, adjustment]
  split
  · rfl
  · split
    · rfl
    · simp

/-- Away from retargets the latest difficulty is kept, and `0` read as `1`. -/
theorem getDifficulty_of_not_retargets {latest : Block} {d : Int}
    (hlast : chain.getLast? = some latest) (hn : ¬ Retargets latest.index)
    (hd : latest.difficulty = .int d) :
    getDifficulty chain = .ok (.int (if d = 0 then 1 else d)) := by
  unfold Retargets at hn
  unfold getDifficulty
  rw [latestBlock_eq_ok.mpr hlast, ok_bind, if_neg (by omega), hd]
  by_cases h0 : d = 0 <;> simp [Difficulty.truthy, h0]

/-- At a retarget the difficulty comes from `getAdjustedDifficulty`. -/
theorem getDifficulty_of_retargets {latest : Block}
    (hlast : chain.getLast? = some latest) (hn : Retargets latest.index) :
    getDifficulty chain = getAdjustedDifficulty latest chain := by
  unfold Retargets at hn
  unfold getDifficulty
  rw [latestBlock_eq_ok.mpr hlast, ok_bind, if_pos (by omega)]

/-! ### Appending a block -/

/-- The difficulty after an append that is followed by a retarget. -/
theorem getDifficulty_append_retarget {x p : Block} {e : Int}
    (h : Grown (MinedOn E) [createGenesisBlock] (chain ++ [x])) (hn : Retargets chain.length)
    (hp : chain[chain.length - 9]? = some p) (he : p.difficulty = .int e) :
    getDifficulty (chain ++ [x]) = .ok (.int (e + adjustment x.timestamp p.timestamp)) := by
  have hindex : x.index = chain.length := grown_index h (by simp)
  have hlen : 10 < chain.length := hn.2
  have hlast : (chain ++ [x]).getLast? = some x := by simp
  rw [getDifficulty_of_retargets hlast (by rw [hindex]; exact hn)]
  have hpos : (chain ++ [x]).length - DIFFICULTY_ADJUSTMENT_INTERVAL = chain.length - 9 := by
    simp only [List.length_append, List.length_singleton, DIFFICULTY_ADJUSTMENT_INTERVAL]
    omega
  apply getAdjustedDifficulty_eq
  · simp only [List.length_append, List.length_singleton, DIFFICULTY_ADJUSTMENT_INTERVAL]
    omega
  · rw [hpos, List.getElem?_append_left (by omega)]
    exact hp
  · exact he

/-- The difficulty after any other append. -/
theorem getDifficulty_append_keep {x : Block} {d : Int}
    (h : Grown (MinedOn E) [createGenesisBlock] (chain ++ [x])) (hn : ¬ Retargets chain.length)
    (hd : x.difficulty = .int d) :
    getDifficulty (chain ++ [x]) = .ok (.int (if d = 0 then 1 else d)) := by
  have hindex : x.index = chain.length := grown_index h (by simp)
  exact getDifficulty_of_not_retargets (by simp) (by rw [hindex]; exact hn) hd

/-- The difficulty of a fresh chain. -/
theorem getDifficulty_genesis : getDifficulty [createGenesisBlock] = .ok (.int 1) := rfl

/-- Work is only found at difficulties that are not negative. -/
theorem Block.difficulty_nonneg {hash : String} {d : Int} {answer : Bool}
    (h : Block.hashMatchesDifficulty hash (.int d) = .ok answer) : 0 ≤ d := by
  obtain ⟨count, hcount, _⟩ := bind_eq_ok.mp h
  by_contra hneg
  rw [Difficulty.repeatCount, if_pos (by omega)] at hcount
  cases hcount

/-- **Integer difficulties**: in a grown chain every mined block has a
    natural number as its difficulty, and the next difficulty is an integer. -/
theorem grown_difficulty (h : Grown (MinedOn E) [createGenesisBlock] chain) :
    (∀ i b, 1 ≤ i → chain[i]? = some b → ∃ d : Int, 0 ≤ d ∧ b.difficulty = .int d) ∧
    ∃ d : Int, getDifficulty chain = .ok (.int d) := by
  induction h with
  | base =>
    refine ⟨?_, 1, getDifficulty_genesis⟩
    intro i b hi hb
    rw [List.getElem?_eq_none (by simpa using hi)] at hb
    cases hb
  | @append l x hl hmined ih =>
    obtain ⟨hints, d, hd⟩ := ih
    have hgrown : Grown (MinedOn E) [createGenesisBlock] (l ++ [x]) := .append hl hmined
    -- the block was mined at the difficulty the chain had before
    have hx : x.difficulty = .int d := by
      have := hmined.difficulty
      rw [hd, Except.ok.injEq] at this
      exact this.symm
    have hnonneg : 0 ≤ d := Block.difficulty_nonneg (hx ▸ hmined.work)
    refine ⟨?_, ?_⟩
    · intro i b hi hb
      rcases getElem?_concat_cases hb with hold | ⟨_, rfl⟩
      · exact hints i b hi hold
      · exact ⟨d, hnonneg, hx⟩
    · by_cases hn : Retargets l.length
      · -- a retarget reads a mined block, never the genesis block
        have hlen : 10 < l.length := hn.2
        obtain ⟨p, hp⟩ : ∃ p, l[l.length - 9]? = some p :=
          ⟨_, List.getElem?_eq_getElem (by omega)⟩
        obtain ⟨e, _, he⟩ := hints _ p (by omega) hp
        exact ⟨_, getDifficulty_append_retarget hgrown hn hp he⟩
      · exact ⟨_, getDifficulty_append_keep hgrown hn hx⟩

/-! ### When the next block can be mined

    A retarget that reads a stored difficulty of `0` and finds the interval
    slow takes one off, and `'0'.repeat(-1)` throws: from then on no call of
    `minePendingTransactions` can succeed.  The step that leads there is the
    append of the block at the retarget height. -/

/-- The next difficulty is a natural number, so `'0'.repeat` accepts it. -/
def Mineable (chain : List Block) : Prop :=
  ∃ d : Int, 0 ≤ d ∧ getDifficulty chain = .ok (.int d) ∧
    (Difficulty.int d).repeatCount = .ok d.toNat

/-- A block may be appended when the clock shows `date`: if it gets a retarget
    height and the block nine below it has difficulty `0`, then `date` is at
    most 200 more than that block's timestamp. -/
def InTime (chain : List Block) (date : Int) : Prop :=
  ∀ p t, Retargets chain.length → chain[chain.length - 9]? = some p → p.difficulty = .int 0 →
    p.timestamp = .num t → date - t ≤ 200

/-- The condition on a call: if it can mine, it does so in time. -/
def RetargetInTime (bc : Blockchain E) : Op → Prop
  | .minePendingTransactions address date _ => bc.CanMine address → InTime bc.chain date
  | _ => True

theorem mineable_iff {d : Int} (h : getDifficulty chain = .ok (.int d)) :
    Mineable chain ↔ 0 ≤ d := by
  constructor
  · rintro ⟨d', hd', heq, _⟩
    rw [h, Except.ok.injEq, Difficulty.int.injEq] at heq
    omega
  · intro hd
    exact ⟨d, hd, h, by rw [Difficulty.repeatCount, if_neg (by omega)]⟩

/-- **One append**: after a block is mined by the clock, the chain is
    mineable exactly if the step met the condition. -/
theorem mineable_append_iff {b : Block} {date : Int}
    (h : Grown (MinedByClock E fun _ => True) [createGenesisBlock] chain)
    (hmined : MinedOn E chain b)
    (htime : b.timestamp = .num date) :
    Mineable (chain ++ [b]) ↔ InTime chain date := by
  have hbase : Grown (MinedOn E) [createGenesisBlock] chain := grown_minedOn h
  have hgrown : Grown (MinedOn E) [createGenesisBlock] (chain ++ [b]) := .append hbase hmined
  obtain ⟨hints, _⟩ := grown_difficulty hgrown
  by_cases hn : Retargets chain.length
  · -- the retarget reads the block `p` nine below `b`
    have hlen : 10 < chain.length := hn.2
    obtain ⟨p, hp⟩ : ∃ p, chain[chain.length - 9]? = some p :=
      ⟨_, List.getElem?_eq_getElem (by omega)⟩
    obtain ⟨t, _, ht⟩ := (h.getElem (by simp; omega) hp).time
    obtain ⟨e, he0, he⟩ := hints (chain.length - 9) p (by omega)
      (by rw [List.getElem?_append_left (by omega)]; exact hp)
    have hdiff := getDifficulty_append_retarget hgrown hn hp he
    rw [htime, ht, adjustment_num] at hdiff
    rw [mineable_iff hdiff]
    constructor
    · intro hpos p' t' _ hp' hzero ht'
      rw [hp, Option.some.injEq] at hp'
      subst hp'
      rw [he, Difficulty.int.injEq] at hzero
      rw [ht, Timestamp.num.injEq] at ht'
      by_contra hslow
      rw [if_neg (by omega), if_pos (by omega)] at hpos
      omega
    · intro hcond
      by_cases hzero : e = 0
      · have hfast : date - t ≤ 200 := hcond p t hn hp (by rw [he, hzero]) ht
        have hns : ¬ 200 < date - t := by omega
        simp only [hns, if_false]
        split <;> omega
      · split
        · omega
        · split <;> omega
  · obtain ⟨d, hd0, hd⟩ := hints chain.length b hbase.length_le (by simp)
    have hdiff := getDifficulty_append_keep hgrown hn hd
    rw [mineable_iff hdiff]
    constructor
    · intro _ p t hn'
      exact absurd hn' hn
    · intro _
      split <;> omega

/-- **Mining gets stuck exactly at late retargets.** In a run of
    `addTransaction` and `minePendingTransactions`, the next difficulty is a
    natural number in every state reached if and only if every call met the
    condition `RetargetInTime` in the state it was made in. -/
theorem mineable_run_iff {keyPair : Option E.KeyPair} {bc : Blockchain E}
    {tr : List (Transition (Blockchain E) Op)}
    (h : Run (submitSystem E keyPair) (.new E keyPair) tr bc) :
    (Mineable (Blockchain.new E keyPair).chain ∧ ∀ x ∈ tr, Mineable x.post.chain) ↔
    ∀ x ∈ tr, RetargetInTime x.pre x.label := by
  have hinit : Reachable (submitSystem E keyPair) (.new E keyPair) := .init rfl
  have hfresh : Mineable (Blockchain.new E keyPair).chain :=
    (mineable_iff getDifficulty_genesis).mpr (by decide)
  rw [and_iff_right hfresh]
  refine Run.forall_post_iff (P := fun bc => Mineable bc.chain)
    (Q := fun x => RetargetInTime x.pre x.label)
    hinit hfresh ?_ h
  intro t op u hreach hmineable hstep
  obtain ⟨hop, r, hexec⟩ := hstep
  cases Op.exec_outcome hexec with
  | appended => exact hop.elim
  | mined address date fuel coinBase b hcoin hmined htime htxs =>
    have hgrown : Grown (MinedByClock E fun _ => True) [createGenesisBlock] t.chain :=
      grown_byClock (fun _ _ hop => hop.byClock) hreach
    have hcan : t.CanMine address := ⟨coinBase, hcoin, htxs ▸ hmined.miningReady⟩
    exact (mineable_append_iff hgrown hmined htime).trans ⟨fun h _ => h, fun h => h hcan⟩
  | unchanged op e hthrows =>
    -- the chain is as before, and a mining call that threw could not mine
    refine iff_of_true hmineable ?_
    cases op with
    | minePendingTransactions address date fuel =>
      intro hcan
      exact absurd hcan (hthrows address date fuel rfl)
    | _ => trivial
  | stranded address date fuel coinBase e hcoin hthrows =>
    exact iff_of_true hmineable fun hcan => absurd hcan hthrows
  | _ => exact iff_of_true hmineable trivial

/-- Twenty blocks one second apart, and eleven more one millisecond apart. -/
def recoveringOps : List Op :=
  (List.range 31).map fun k => .minePendingTransactions (.str "miner")
    (if k < 20 then 1000 * (k + 1) else 20000 + k) 1

/-- The equivalence on a run with two retargets: the first one stores
    difficulty `0`, and the second one, which reads it, is in time. -/
theorem mineable_run_iff_two_retargets :
    ∃ tr bc, Run (submitSystem demoEnv (some ())) (.new demoEnv (some ())) tr bc ∧
      tr.map (·.label) = recoveringOps ∧
      bc.chain.map Block.difficulty = createGenesisBlock.difficulty ::
        (List.replicate 20 (.int 1) ++ .int 0 :: List.replicate 10 (.int 1)) ∧
      ((Mineable (Blockchain.new demoEnv (some ())).chain ∧ ∀ x ∈ tr, Mineable x.post.chain) ↔
        ∀ x ∈ tr, RetargetInTime x.pre x.label) := by
  have hfinal : (execAll (Blockchain.new demoEnv (some ())) recoveringOps).map
      (fun bc => bc.chain.map Block.difficulty) = some (createGenesisBlock.difficulty ::
        (List.replicate 20 (.int 1) ++ .int 0 :: List.replicate 10 (.int 1))) := by
    decide +kernel
  obtain ⟨bc, hrun, hdiffs⟩ := Option.map_eq_some_iff.mp hfinal
  obtain ⟨tr, htr, hlabels⟩ := run_of_execAll (some ())
    (fun _ op => op.isSubmitOrMine) (by simp [recoveringOps, Op.isSubmitOrMine]) hrun
  exact ⟨tr, bc, htr, hlabels, hdiffs, mineable_run_iff htr⟩

/-- Thirty blocks, mined at clock values one second apart. -/
def slowOps : List Op :=
  (List.range 30).map fun k => .minePendingTransactions (.str "miner") (1000 * (k + 1)) 1

/-- **Stuck after thirty blocks.** The first retarget stores difficulty `0`
    in block 21, the second reads it there and takes one off again; the next
    call of `minePendingTransactions` throws a `RangeError`. -/
theorem not_mineable_after_slow_blocks :
    ((List.range 30).map fun k : Nat => (1000 * (k + 1) : Int)).Pairwise (· ≤ ·) ∧
    ∃ tr bc, Run (submitSystem demoEnv (some ())) (.new demoEnv (some ())) tr bc ∧
      tr.map (·.label) = slowOps ∧ getDifficulty bc.chain = .ok (.int (-1)) ∧
      ¬ Mineable bc.chain ∧
      ∃ bc', bc.minePendingTransactions (.str "miner") 31000 1 =
        some (.error .rangeError, bc') := by
  refine ⟨by decide, ?_⟩
  have hfinal : (execAll (Blockchain.new demoEnv (some ())) slowOps).map
      (fun bc => (getDifficulty bc.chain,
        (bc.minePendingTransactions (.str "miner") 31000 1).map fun (r, _) => r.map fun _ => ()))
      = some (.ok (.int (-1)), some (.error .rangeError)) := by
    decide +kernel
  obtain ⟨bc, hrun, hbc⟩ := Option.map_eq_some_iff.mp hfinal
  rw [Prod.mk.injEq, Option.map_eq_some_iff] at hbc
  obtain ⟨hdiff, ⟨r, bc'⟩, hmine, hr⟩ := hbc
  obtain ⟨tr, htr, hlabels⟩ := run_of_execAll (some ())
    (fun _ op => op.isSubmitOrMine) (by simp [slowOps, Op.isSubmitOrMine]) hrun
  refine ⟨tr, bc, htr, hlabels, hdiff, ?_, bc', ?_⟩
  · rw [mineable_iff hdiff]
    decide
  · cases r with
    | ok b => cases hr
    | error e =>
      cases hr
      exact hmine

end XCoin
