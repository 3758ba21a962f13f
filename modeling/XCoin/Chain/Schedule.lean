import XCoin.Chain.Retarget
import XCoin.Chain.Steadiness

/-! # The difficulty at a height

    The difficulty of a mined block is a function of two earlier ones and of
    the time between them.  `grown_schedule` is the induction over heights
    that this calls for; three schedules follow from it:

    * no block is harder than a tenth of its height;
    * if all clock values are within 50 of each other, every block is exactly
      that hard;
    * if blocks are more than 22 apart, the difficulty falls at each of the
      first two retargets, and there is no block at height 31.
-/

namespace XCoin

open Js LTS AppendLog

variable {E : Env} {chain : List Block}

/-! ### The rule -/

/-- After a retarget a block is mined at the difficulty of the block nine
    below the one before it, adjusted. -/
theorem grown_retarget_difficulty (h : Grown (MinedOn E) [createGenesisBlock] chain) {i : Nat}
    {x y p : Block} {e : Int} (hx : chain[i]? = some x) (hy : chain[i + 1]? = some y)
    (hi : Retargets i) (hp : chain[i - 9]? = some p) (he : p.difficulty = .int e) :
    y.difficulty = .int (e + adjustment x.timestamp p.timestamp) := by
  have hbig : 10 < i := hi.2
  have hlt : i < chain.length := (List.getElem?_eq_some_iff.mp hx).1
  have hmined : MinedOn E (chain.take (i + 1)) y := h.getElem (by simp) hy
  -- the blocks up to `x` are those below it and `x`
  have hsplit : chain.take (i + 1) = chain.take i ++ [x] := by
    rw [List.take_add_one, hx, Option.toList_some]
  have hlen : (chain.take i).length = i := List.length_take_of_le (Nat.le_of_lt hlt)
  have hgrown : Grown (MinedOn E) [createGenesisBlock] (chain.take i ++ [x]) := by
    rw [← hsplit]
    exact h.take (by simp)
  have hread : (chain.take i)[(chain.take i).length - 9]? = some p := by
    rw [hlen, List.getElem?_take_of_lt (by omega), hp]
  have hdiff := getDifficulty_append_retarget hgrown (by rwa [hlen]) hread he
  rw [← hsplit, hmined.difficulty, Except.ok.injEq] at hdiff
  exact hdiff

/-- **Schedule rule.** A property of heights and difficulties that holds of
    the first mined block, is kept by the step from one block to the next, and
    by every retarget that leads to a difficulty that can be mined, holds of
    every mined block. -/
theorem grown_schedule (h : Grown (MinedOn E) [createGenesisBlock] chain) {P : Nat → Int → Prop}
    (hfirst : P 1 1)
    (hkeep : ∀ i d, 1 ≤ i → ¬ Retargets i → 0 ≤ d → P i d → P (i + 1) (if d = 0 then 1 else d))
    (hretarget : ∀ i x p e, Retargets i → chain[i]? = some x → chain[i - 9]? = some p →
      P (i - 9) e → 0 ≤ e + adjustment x.timestamp p.timestamp →
      P (i + 1) (e + adjustment x.timestamp p.timestamp))
    {i : Nat} {b : Block} (hi : 1 ≤ i) (hb : chain[i]? = some b) :
    ∃ d : Int, b.difficulty = .int d ∧ P i d := by
  obtain ⟨hints, _⟩ := grown_difficulty h
  induction i using Nat.strongRecOn generalizing b with
  | ind i ih =>
    obtain ⟨d, hnonneg, hd⟩ := hints i b hi hb
    obtain ⟨j, rfl⟩ : ∃ j, i = j + 1 := ⟨i - 1, by omega⟩
    have hlt : j + 1 < chain.length := (List.getElem?_eq_some_iff.mp hb).1
    obtain ⟨x, hx⟩ : ∃ x, chain[j]? = some x := ⟨_, List.getElem?_eq_getElem (by omega)⟩
    by_cases hj : j = 0
    · -- the first block is mined on the genesis block
      subst hj
      have hmined : MinedOn E (chain.take 1) b := h.getElem (by simp) hb
      have hgenesis : chain.take 1 = [createGenesisBlock] := by
        obtain ⟨rest, hrest⟩ := h.prefix_base
        rw [← hrest]
        rfl
      have hone := hmined.difficulty
      rw [hgenesis, getDifficulty_genesis, Except.ok.injEq] at hone
      exact ⟨1, hone.symm, hfirst⟩
    · by_cases hn : Retargets j
      · have hbig : 10 < j := hn.2
        obtain ⟨p, hp⟩ : ∃ p, chain[j - 9]? = some p := ⟨_, List.getElem?_eq_getElem (by omega)⟩
        obtain ⟨e, he, hPe⟩ := ih (j - 9) (by omega) (by omega) hp
        have hnext := grown_retarget_difficulty h hx hb hn hp he
        rw [hd, Difficulty.int.injEq] at hnext
        exact ⟨_, hnext ▸ hd, hretarget j x p e hn hx hp hPe (hnext ▸ hnonneg)⟩
      · obtain ⟨e, he, hPe⟩ := ih j (by omega) (by omega) hx
        obtain ⟨e', hpos, he'⟩ := hints j x (by omega) hx
        rw [he, Difficulty.int.injEq] at he'
        have hnext := grown_next_difficulty h hx hb hn he
        exact ⟨_, hnext, hkeep j e (by omega) hn (by omega) hPe⟩

/-! ### Schedules -/

/-- The difficulty of the block at height `i` if every retarget raises it. -/
def steepest (i : Nat) : Int := max 1 (((i - 1) / DIFFICULTY_ADJUSTMENT_INTERVAL : Nat) : Int)

theorem steepest_keep {i : Nat} (hi : 1 ≤ i) (hn : ¬ Retargets i) :
    steepest (i + 1) = steepest i := by
  unfold Retargets at hn
  simp only [steepest, DIFFICULTY_ADJUSTMENT_INTERVAL] at hn ⊢
  omega

theorem steepest_retarget {i : Nat} (hn : Retargets i) :
    steepest (i + 1) = steepest (i - 9) + 1 := by
  unfold Retargets at hn
  simp only [steepest, DIFFICULTY_ADJUSTMENT_INTERVAL] at hn ⊢
  omega

theorem one_le_steepest (i : Nat) : 1 ≤ steepest i := le_max_left _ _

/-- No block is harder than on the steepest schedule. -/
theorem grown_difficulty_le (h : Grown (MinedOn E) [createGenesisBlock] chain) {i : Nat}
    {b : Block} (hi : 1 ≤ i) (hb : chain[i]? = some b) :
    ∃ d : Int, b.difficulty = .int d ∧ 0 ≤ d ∧ d ≤ steepest i := by
  have hschedule : ∃ d : Int, b.difficulty = .int d ∧ d ≤ steepest i := by
    refine grown_schedule (P := fun i d => d ≤ steepest i) h (by decide) ?_ ?_ hi hb
    · intro i d hi hn _ hle
      rw [steepest_keep hi hn]
      have hone := one_le_steepest i
      split <;> omega
    · intro i x p e hn _ _ hle _
      rw [steepest_retarget hn]
      have habs := abs_le.mp (abs_adjustment_le x.timestamp p.timestamp)
      omega
  obtain ⟨d, hd, hle⟩ := hschedule
  obtain ⟨d', hnonneg, hd'⟩ := (grown_difficulty h).1 i b hi hb
  rw [hd, Difficulty.int.injEq] at hd'
  exact ⟨d, hd, by omega, hle⟩

/-- Mined blocks are more than 22 apart. -/
def Spaced (c : List Block) : Prop :=
  ∀ i, 1 ≤ i → i + 1 < c.length → clockAt c i + 22 < clockAt c (i + 1)

theorem Spaced.le_elapsed (h : Spaced chain) {i k : Nat} (hi : 1 ≤ i) (hk : i + k < chain.length) :
    23 * (k : Int) ≤ elapsed chain i (i + k) := by
  unfold elapsed
  induction k with
  | zero => simp
  | succ k ih =>
    have hgap := h (i + k) (by omega) (by omega)
    have hbelow := ih (by omega)
    rw [Nat.add_assoc] at hgap
    push_cast
    omega

/-- At every retarget of such a chain the difficulty falls. -/
theorem Spaced.adjustment_eq (hspaced : Spaced chain)
    (h : Grown (MinedByClock E fun _ => True) [createGenesisBlock] chain) {i : Nat} {x p : Block}
    (hi : Retargets i) (hx : chain[i]? = some x) (hp : chain[i - 9]? = some p) :
    adjustment x.timestamp p.timestamp = -1 := by
  have hbig : 10 < i := hi.2
  have hlt : i < chain.length := (List.getElem?_eq_some_iff.mp hx).1
  obtain ⟨t, _, ht⟩ := (h.getElem (by simp; omega) hx).time
  obtain ⟨u, _, hu⟩ := (h.getElem (by simp; omega) hp).time
  have hgaps := hspaced.le_elapsed (i := i - 9) (k := 9) (by omega) (by omega)
  rw [show i - 9 + 9 = i by omega, elapsed, clockAt_eq hx ht, clockAt_eq hp hu] at hgaps
  rw [ht, hu, adjustment_num, if_neg (by omega), if_pos (by omega)]

/-- **Slow chains end.** The retarget after block 20 leads to difficulty `0`,
    and the one after block 30 to `-1`, at which nothing can be mined. -/
theorem Spaced.length_le (hspaced : Spaced chain)
    (h : Grown (MinedByClock E fun _ => True) [createGenesisBlock] chain) :
    chain.length ≤ 31 := by
  by_contra hlong
  obtain ⟨b, hb⟩ : ∃ b, chain[31]? = some b := ⟨_, List.getElem?_eq_getElem (by omega)⟩
  have hschedule : ∃ d : Int, b.difficulty = .int d ∧
      (31 ≤ 30 ∧ d ≤ if (31 : Nat) = 21 then 0 else 1) := by
    refine grown_schedule (P := fun i d => i ≤ 30 ∧ d ≤ if i = 21 then 0 else 1)
      (grown_minedOn h) (by decide) ?_ ?_ (by omega) hb
    · rintro i d hi hn _ ⟨hle, hd⟩
      -- heights 20 and 30 are retargets
      unfold Retargets at hn
      simp only [DIFFICULTY_ADJUSTMENT_INTERVAL] at hn
      rw [if_neg (show ¬ i + 1 = 21 by omega)]
      split at hd <;> split <;> omega
    · rintro i x p e hn hx hp ⟨hle, he⟩ hnonneg
      rw [hspaced.adjustment_eq h hn hx hp] at hnonneg ⊢
      unfold Retargets at hn
      simp only [DIFFICULTY_ADJUSTMENT_INTERVAL] at hn
      split at he
      · omega
      · refine ⟨by omega, ?_⟩
        split <;> omega
  obtain ⟨_, _, hle, _⟩ := hschedule
  omega

end XCoin
