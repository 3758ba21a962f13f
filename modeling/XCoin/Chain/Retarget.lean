import XCoin.Chain.Difficulty

/-! # What a retarget measures

    A retarget compares the time the last interval took with the time ten
    blocks should take.  `getAdjustedDifficulty` reads the block at
    `chain.length - 10`, which is the first block of the interval and not the
    last one before it, so nine gaps between blocks are measured against the
    time for ten.

    `retargeted` is the rule for a full interval, in its own words.  The code
    follows it exactly if leaving out the first gap moves the time across
    neither threshold.
-/

namespace XCoin

open Js LTS AppendLog

variable {E : Env} {chain : List Block} {k : Nat} {d : Int}

/-! ### Intervals -/

/-- The clock value of the block at position `i`. -/
def clockAt (chain : List Block) (i : Nat) : Int :=
  match chain[i]?.map Block.timestamp with
  | some (.num t) => t
  | _             => 0

/-- The time from block `i` to block `j`. -/
def elapsed (chain : List Block) (i j : Nat) : Int := clockAt chain j - clockAt chain i

/-- A chain that ends with its `k`-th interval: indices are positions, mined
    blocks have clock values, and the blocks of the last interval were mined
    at difficulty `d`. -/
structure EndsInterval (chain : List Block) (k : Nat) (d : Int) : Prop where
  length     : chain.length = DIFFICULTY_ADJUSTMENT_INTERVAL * k + 1
  index      : ∀ (i : Nat) (b : Block), chain[i]? = some b → b.index = i
  time       : ∀ (i : Nat) (b : Block), 1 ≤ i → chain[i]? = some b → ∃ t, b.timestamp = .num t
  difficulty : ∀ (i : Nat) (b : Block), DIFFICULTY_ADJUSTMENT_INTERVAL * (k - 1) < i →
    chain[i]? = some b → b.difficulty = .int d

/-- The rule for an interval that took `time`: up by one if that is less than
    half of what was expected, down by one if it is more than twice as much. -/
def retargeted (d time : Int) : Int :=
  let timeExpected : Int := BLOCK_GENERATION_INTERVAL * DIFFICULTY_ADJUSTMENT_INTERVAL
  if 2 * time < timeExpected then d + 1
  else if timeExpected * 2 < time then d - 1
  else d

/-- Two times are on the same side of both thresholds. -/
def SameSide (time time' : Int) : Prop :=
  let timeExpected : Int := BLOCK_GENERATION_INTERVAL * DIFFICULTY_ADJUSTMENT_INTERVAL
  (2 * time < timeExpected ↔ 2 * time' < timeExpected) ∧
    (timeExpected * 2 < time ↔ timeExpected * 2 < time')

theorem retargeted_eq (d time : Int) :
    retargeted d time = if time < 50 then d + 1 else if 200 < time then d - 1 else d := by
  have hexpected : ((BLOCK_GENERATION_INTERVAL : Nat) : Int) *
      ((DIFFICULTY_ADJUSTMENT_INTERVAL : Nat) : Int) = 100 := rfl
  have hhalf : 2 * time < 100 ↔ time < 50 := by omega
  simp only [retargeted, hexpected, hhalf]
  rfl

theorem sameSide_iff (time time' : Int) :
    SameSide time time' ↔ (time < 50 ↔ time' < 50) ∧ (200 < time ↔ 200 < time') := by
  have hexpected : ((BLOCK_GENERATION_INTERVAL : Nat) : Int) *
      ((DIFFICULTY_ADJUSTMENT_INTERVAL : Nat) : Int) = 100 := rfl
  simp only [SameSide, hexpected]
  omega

/-- The rule tells apart the times that are on different sides. -/
theorem retargeted_eq_iff (d time time' : Int) :
    retargeted d time = retargeted d time' ↔ SameSide time time' := by
  rw [retargeted_eq, retargeted_eq, sameSide_iff]
  by_cases hfast : time < 50
  · -- faster than half the time: up
    rw [if_pos hfast]
    split
    · omega
    · split <;> omega
  · rw [if_neg hfast]
    by_cases hslow : 200 < time
    · -- slower than twice the time: down
      rw [if_pos hslow]
      split
      · omega
      · split <;> omega
    · rw [if_neg hslow]
      split
      · omega
      · split <;> omega

/-! ### What the code measures -/

theorem clockAt_eq {b : Block} {t : Int} {i : Nat} (hb : chain[i]? = some b)
    (ht : b.timestamp = .num t) : clockAt chain i = t := by
  simp only [clockAt, hb, Option.map_some, ht]

/-- The code applies the rule to the time since the first block of the
    interval. -/
theorem EndsInterval.next_difficulty (h : EndsInterval chain k d) (hk : 2 ≤ k) :
    getDifficulty chain =
      .ok (.int (retargeted d (elapsed chain (10 * (k - 1) + 1) (10 * k)))) := by
  have hlen : chain.length = 10 * k + 1 := h.length
  -- the latest block, and the one the retarget reads
  obtain ⟨latest, hlatest⟩ : ∃ b, chain[10 * k]? = some b :=
    ⟨_, List.getElem?_eq_getElem (by omega)⟩
  obtain ⟨first, hfirst⟩ : ∃ b, chain[10 * (k - 1) + 1]? = some b :=
    ⟨_, List.getElem?_eq_getElem (by omega)⟩
  obtain ⟨t, ht⟩ := h.time _ latest (by omega) hlatest
  obtain ⟨u, hu⟩ := h.time _ first (by omega) hfirst
  have hlast : chain.getLast? = some latest := by
    rw [List.getLast?_eq_getElem?, hlen, Nat.add_sub_cancel]
    exact hlatest
  have hretargets : Retargets latest.index := by
    rw [h.index _ latest hlatest]
    refine ⟨?_, ?_⟩
    · show 10 * k % 10 = 0
      omega
    · show 10 < 10 * k
      omega
  have hread : chain[chain.length - DIFFICULTY_ADJUSTMENT_INTERVAL]? = some first := by
    rw [show chain.length - DIFFICULTY_ADJUSTMENT_INTERVAL = 10 * (k - 1) + 1 by
      rw [hlen]
      show 10 * k + 1 - 10 = 10 * (k - 1) + 1
      omega]
    exact hfirst
  have hshort : DIFFICULTY_ADJUSTMENT_INTERVAL ≤ chain.length := by
    show 10 ≤ chain.length
    omega
  have hdifficulty : first.difficulty = .int d := by
    apply h.difficulty (10 * (k - 1) + 1) first _ hfirst
    exact Nat.lt_succ_self _
  rw [getDifficulty_of_retargets hlast hretargets,
    getAdjustedDifficulty_eq hshort hread hdifficulty, ht, hu, adjustment_num]
  simp only [elapsed, clockAt_eq hlatest ht, clockAt_eq hfirst hu, retargeted_eq]
  congr 2
  split
  · rfl
  · split
    · rfl
    · exact Int.add_zero d

/-- **When a retarget measures the whole interval.** On a chain that ends with
    an interval mined at one difficulty, `getDifficulty` returns what the time
    of the ten gaps calls for if and only if that time and the time without
    the first gap are on the same side of both thresholds. -/
theorem getDifficulty_interval_iff (h : EndsInterval chain k d) (hk : 2 ≤ k) :
    getDifficulty chain = .ok (.int (retargeted d (elapsed chain (10 * (k - 1)) (10 * k)))) ↔
      SameSide (elapsed chain (10 * (k - 1)) (10 * k))
        (elapsed chain (10 * (k - 1) + 1) (10 * k)) := by
  rw [h.next_difficulty hk, Except.ok.injEq, Difficulty.int.injEq, eq_comm, retargeted_eq_iff]

/-! ### Blocks at even distances -/

/-- In a chain mined by the clock, indices and timestamps are as they should
    be. -/
theorem endsInterval_of_grown (h : Grown (MinedByClock E fun _ => True) [createGenesisBlock] chain)
    (hlen : chain.length = DIFFICULTY_ADJUSTMENT_INTERVAL * k + 1)
    (hdifficulty : ∀ b ∈ chain.drop (DIFFICULTY_ADJUSTMENT_INTERVAL * (k - 1) + 1),
      b.difficulty = .int d) : EndsInterval chain k d where
  length := hlen
  index := by
    intro i b hb
    exact grown_index (grown_minedOn h) hb
  time := by
    intro i b hi hb
    obtain ⟨t, _, ht⟩ := (h.getElem hi hb).time
    exact ⟨t, ht⟩
  difficulty := by
    intro i b hi hb
    apply hdifficulty b
    apply List.mem_of_getElem? (i := i - (DIFFICULTY_ADJUSTMENT_INTERVAL * (k - 1) + 1))
    rw [List.getElem?_drop, Nat.add_sub_cancel' hi]
    exact hb

/-- Twenty blocks, mined at clock values `gap` apart. -/
def evenOps (gap : Nat) : List Op :=
  (List.range 20).map fun j => .minePendingTransactions (.str "miner") (gap * (j + 1)) 1

/-- The twenty calls are a run to a chain that ends its second interval, if
    the blocks were mined at difficulty `1`. -/
theorem exists_even_run (gap : Nat) (next : Difficulty) (time time' : Int)
    (h : (execAll (Blockchain.new demoEnv (some ())) (evenOps gap)).map (fun bc =>
      (bc.chain.length, (bc.chain.drop 11).all fun b => decide (b.difficulty = .int 1),
        getDifficulty bc.chain, elapsed bc.chain 10 20, elapsed bc.chain 11 20)) =
      some (21, true, .ok next, time, time')) :
    ∃ tr bc, Run (submitSystem demoEnv (some ())) (.new demoEnv (some ())) tr bc ∧
      tr.map (·.label) = evenOps gap ∧ EndsInterval bc.chain 2 1 ∧
      getDifficulty bc.chain = .ok next ∧ elapsed bc.chain 10 20 = time ∧
      elapsed bc.chain 11 20 = time' := by
  obtain ⟨bc, hrun, hfacts⟩ := Option.map_eq_some_iff.mp h
  simp only [Prod.mk.injEq] at hfacts
  obtain ⟨hlen, hall, hnext, htime, htime'⟩ := hfacts
  obtain ⟨tr, htr, hlabels⟩ := run_of_execAll (some ())
    (fun _ op => op.isSubmitOrMine) (by simp [evenOps, Op.isSubmitOrMine]) hrun
  have hgrown : Grown (MinedByClock demoEnv fun _ => True) [createGenesisBlock] bc.chain :=
    grown_byClock (fun _ _ hop => hop.byClock) (htr.reachable (.init rfl))
  refine ⟨tr, bc, htr, hlabels, ?_, hnext, htime, htime'⟩
  apply endsInterval_of_grown hgrown hlen
  intro b hb
  exact of_decide_eq_true (List.all_eq_true.mp hall b hb)

/-- With blocks ten apart both times are between the thresholds. -/
theorem getDifficulty_interval_iff_ten :
    ∃ chain, EndsInterval chain 2 1 ∧
      (getDifficulty chain = .ok (.int (retargeted 1 (elapsed chain (10 * (2 - 1)) (10 * 2)))) ↔
        SameSide (elapsed chain (10 * (2 - 1)) (10 * 2))
          (elapsed chain (10 * (2 - 1) + 1) (10 * 2))) := by
  obtain ⟨tr, bc, _, _, hends, _⟩ :=
    exists_even_run 10 (.int 1) 100 90 (by decide +kernel)
  exact ⟨bc.chain, hends, getDifficulty_interval_iff hends (by decide)⟩

/-- **One gap too few.** Twenty blocks mined five apart: the last ten took
    half of the expected time, which is no reason to change the difficulty,
    but the code measures nine gaps and raises it. -/
theorem retarget_measures_nine_gaps :
    ∃ tr bc, Run (submitSystem demoEnv (some ())) (.new demoEnv (some ())) tr bc ∧
      tr.map (·.label) = evenOps 5 ∧ EndsInterval bc.chain 2 1 ∧
      elapsed bc.chain 10 20 = 50 ∧ retargeted 1 (elapsed bc.chain 10 20) = 1 ∧
      getDifficulty bc.chain = .ok (.int 2) := by
  obtain ⟨tr, bc, htr, hlabels, hends, hnext, htime, _⟩ :=
    exists_even_run 5 (.int 2) 50 45 (by decide +kernel)
  refine ⟨tr, bc, htr, hlabels, hends, htime, ?_, hnext⟩
  rw [htime]
  rfl

end XCoin
