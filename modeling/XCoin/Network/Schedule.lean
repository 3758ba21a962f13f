import XCoin.Chain.Schedule
import XCoin.Network.Finality

/-! # The difficulty in a network

    The schedules of mined chains are those of every chain in a network, for
    all of them are copies.  On clocks that show values close to each other
    the difficulty rises by one every ten blocks; on clocks on which blocks
    are more than 22 apart, no chain gets longer than 31 blocks.

    A node that has got there and has taken its startup decision is stuck: it
    cannot mine, and nothing makes it take another chain.
-/

namespace XCoin

open Js LTS AppendLog

variable {E : Env} {ι : Type} {cfg : Config E ι} {cfgs : ι → Config E ι}

/-! ### Bounds -/

/-- What is mined on the chain a copy was made of, at a position of the copy. -/
theorem IsCopy.exists_mined {clock : Int → Prop} {chain : List Block}
    (h : IsCopy E clock chain) {i : Nat} {b : Block} (hb : chain[i]? = some b) :
    ∃ m b₀, Grown (MinedByClock E clock) [createGenesisBlock] m ∧ m[i]? = some b₀ ∧
      b₀.difficulty = b.difficulty := by
  obtain ⟨m, hm, hfaces⟩ := h.mined
  obtain ⟨b₀, hb₀, hagree⟩ := exists_agree hfaces hb
  exact ⟨m, b₀, hm, hb₀, hagree.difficulty⟩

section network

variable [DecidableEq ι] {names : List ι} {s s' : Network E ι}

/-- **The difficulty is bounded by the height.** In every reachable state of a
    network, whatever the clocks show, the block at height `i` of a chain has
    a natural number below `i / 10`, or `1`, as its difficulty. -/
theorem network_difficulty_le (h : Reachable (networkSystem names cfgs) s) {chain : List Block}
    (hc : s.HasChain chain) {i : Nat} {b : Block} (hi : 1 ≤ i) (hb : chain[i]? = some b) :
    ∃ d : Int, b.difficulty = .int d ∧ 0 ≤ d ∧ d ≤ steepest i := by
  have hcopy := (holds_copies (clockSystem_of_reachable h)).hasChain hc
  obtain ⟨m, b₀, hm, hb₀, hdiff⟩ := hcopy.exists_mined hb
  rw [← hdiff]
  exact grown_difficulty_le (grown_minedOn hm) hi hb₀

end network

/-- Packages whose digests begin with zeros. -/
def zerosEnv : Env := { demoEnv with SHA256 := fun _ => "000" }

/-- Two nodes that are neighbours of each other, with such digests. -/
def zerosConfig (name : Bool) : Config zerosEnv Bool where
  neighborNodeList := [!name]
  myKey            := ()

/-- The clock stands still. -/
def standingClock (_ : List Block) (date : Int) : Prop := 7 ≤ date ∧ date < 7 + 50

instance (c : List Block) (date : Int) : Decidable (standingClock c date) :=
  inferInstanceAs (Decidable (_ ∧ _))

/-- A node mines past the first retarget while its clock stands still. -/
theorem exists_fast_run :
    ∃ s b, Reachable (clockSystem [false, true] zerosConfig standingClock) s ∧
      (s.nodes false).chain[21]? = some b := by
  have hfinal : (execPlain zerosConfig (fun s a => decide (a.byClock standingClock s))
      (.new [false, true] zerosConfig) (List.replicate 21 (.triggerMineBlock false 7 1))).map
      (fun s => (s.nodes false).chain.length) = some 22 := by
    decide +kernel
  obtain ⟨s, hexec, hlen⟩ := Option.map_eq_some_iff.mp hfinal
  obtain ⟨tr, hrun⟩ := run_of_execPlain hexec
  have hclock := hrun.restrict_mono fun _ _ hok => of_decide_eq_true hok
  exact ⟨s.erase, _, hclock.reachable (.init rfl), List.getElem?_eq_getElem (by
    show 21 < (s.nodes false).chain.length
    omega)⟩

/-- The bound at height 21 is `2`. -/
theorem network_difficulty_le_second :
    ∃ s b, Reachable (networkSystem [false, true] zerosConfig) s ∧
      (s.nodes false).chain[21]? = some b ∧
      ∃ d : Int, b.difficulty = .int d ∧ 0 ≤ d ∧ d ≤ steepest 21 := by
  obtain ⟨s, b, hreach, hb⟩ := exists_fast_run
  exact ⟨s, b, hreach.of_restrict, hb,
    network_difficulty_le hreach.of_restrict (.node false) (by decide) hb⟩

/-- The clock shows more than 22 after the latest mined block. -/
def SlowClock (c : List Block) (date : Int) : Prop :=
  1 < c.length → clockAt c (c.length - 1) + 22 < date

instance (c : List Block) (date : Int) : Decidable (SlowClock c date) :=
  inferInstanceAs (Decidable (_ → _))

theorem clockAt_congr {c c' : List Block} (h : faces c = faces c') (i : Nat) :
    clockAt c i = clockAt c' i := by
  have htime (l : List Block) :
      l[i]?.map Block.timestamp = (faces l)[i]?.map Face.timestamp := by
    rw [faces, List.getElem?_map, Option.map_map]
    rfl
  simp only [clockAt, htime, h]

theorem Spaced.congr {c c' : List Block} (h : faces c = faces c') (hc : Spaced c) : Spaced c' := by
  have hlen : c.length = c'.length := by rw [← length_faces, h, length_faces]
  intro i hi hlt
  rw [← clockAt_congr h, ← clockAt_congr h]
  exact hc i hi (by omega)

/-- Mining on a slow clock. -/
theorem Spaced.append {c : List Block} {b : Block} {date : Int} (hc : Spaced c)
    (hdate : SlowClock c date) (htime : b.timestamp = .num date) : Spaced (c ++ [b]) := by
  have hold (i : Nat) (hi : i < c.length) : clockAt (c ++ [b]) i = clockAt c i := by
    simp only [clockAt, List.getElem?_append_left hi]
  intro i hi hlt
  rw [List.length_append, List.length_singleton] at hlt
  by_cases hlast : i + 1 = c.length
  · -- the gap before the new block
    have hnew : clockAt (c ++ [b]) (i + 1) = date := by
      refine clockAt_eq ?_ htime
      rw [hlast, List.getElem?_concat_length]
    have hgap := hdate (by omega)
    rw [show c.length - 1 = i by omega] at hgap
    rw [hold i (by omega), hnew]
    exact hgap
  · rw [hold i (by omega), hold (i + 1) (by omega)]
    exact hc i hi (by omega)

/-- Nodes on slow clocks keep their chains spaced. -/
theorem preserved_spaced (cfgs : ι → Config E ι) :
    Preserved cfgs SlowClock (fun _ _ _ => True)
      (fun c => IsCopy E (fun _ => True) c ∧ Spaced c) Json.IsJson := by
  have hcopy := preserved_isCopy cfgs (fun _ => True) fun _ _ _ => True
  constructor
  case genesis =>
    refine ⟨isCopy_genesis, ?_⟩
    intro i hi hlt
    simp at hlt
  case trigger => exact hcopy.trigger
  case requested => exact hcopy.requested
  case stranded =>
    intro p bc coinBase date hbc hchain hpending _ hcoin hthrows
    exact hcopy.stranded p bc coinBase date hbc hchain.1 hpending trivial hcoin hthrows
  case mined =>
    intro p bc coinBase b date hbc hchain hpending hcoin hmined hdate htime htxs
    refine ⟨?_, hchain.2.append hdate htime⟩
    exact hcopy.mined p bc coinBase b date hbc hchain.1 hpending hcoin hmined trivial htime htxs
  case sentChain =>
    intro c c' hchain hsent
    exact ⟨hchain.1.transport hsent, hchain.2.congr (hchain.1.faces_transport hsent)⟩
  case sent => exact hcopy.sent

/-- **Slow networks halt.** If nodes mine only when more than 22 milliseconds
    have passed since the latest block of their chain, no chain in the network
    is ever longer than 31 blocks. -/
theorem slow_network_halts [DecidableEq ι] {names : List ι} {s : Network E ι}
    (h : Reachable (clockSystem names cfgs SlowClock) s) {c : List Block} (hc : s.HasChain c) :
    c.length ≤ 31 := by
  obtain ⟨hcopy, hspaced⟩ := ((preserved_spaced cfgs).of_reachable h).hasChain hc
  obtain ⟨m, hm, hfaces⟩ := hcopy.mined
  rw [← length_faces, ← hfaces, length_faces]
  exact (hspaced.congr hfaces.symm).length_le hm

/-- Both nodes of a pair decide for their own chains, and the one mines until
    it cannot any more. -/
theorem exists_slow_run :
    ∃ s, Reachable (clockSystem [false, true] demoConfig SlowClock) s ∧ (s.nodes false).i = 1 ∧
      (s.nodes false).chain.length = 31 ∧
      getDifficulty (s.nodes false).chain = .ok (.int (-1)) := by
  let as : List (TracedAction Bool) := [.fail 0, .fail 0, .deliver 0 0 0, .deliver 0 0 0] ++
    (List.range 30).map fun k => .triggerMineBlock false (23 * (k + 1)) 1
  have hfinal : (execPlain demoConfig (fun s a => decide (a.byClock SlowClock s))
      (.new [false, true] demoConfig) as).map
      (fun s => ((s.nodes false).i, (s.nodes false).chain.length,
        getDifficulty (s.nodes false).chain)) = some (1, 31, .ok (.int (-1))) := by
    decide +kernel
  obtain ⟨s, hexec, hfacts⟩ := Option.map_eq_some_iff.mp hfinal
  simp only [Prod.mk.injEq] at hfacts
  obtain ⟨tr, hrun⟩ := run_of_execPlain hexec
  have hclock := hrun.restrict_mono fun _ _ hok => of_decide_eq_true hok
  exact ⟨s.erase, hclock.reachable (.init rfl), hfacts⟩

/-- The bound is reached. -/
theorem slow_network_halts_full :
    ∃ s, Reachable (clockSystem [false, true] demoConfig SlowClock) s ∧
      (s.nodes false).chain.length = 31 ∧ (s.nodes false).chain.length ≤ 31 := by
  obtain ⟨s, hreach, _, hlen, _⟩ := exists_slow_run
  exact ⟨s, hreach, hlen, slow_network_halts hreach (.node false)⟩

/-! ### Stuck nodes -/

/-- At a negative difficulty no block is mined. -/
theorem MinedOn.difficulty_nonneg {c : List Block} {b : Block} {d : Int} (h : MinedOn E c b)
    (hd : getDifficulty c = .ok (.int d)) : 0 ≤ d := by
  have hb : b.difficulty = .int d := by
    rw [h.difficulty, Except.ok.injEq] at hd
    exact hd
  exact Block.difficulty_nonneg (hb ▸ h.work)

/-- A node that has decided and demands a negative difficulty keeps its
    chain. -/
theorem Event.Outcome.stuck {n n' : Node E} {ev : Event ι} {effects : List Effect} {d : Int}
    (h : ev.Outcome cfg n n' effects) (hrestore : ∀ result, ev ≠ .restore result)
    (hn : n.Decided cfg) (hd : getDifficulty n.chain = .ok (.int d)) (hneg : d < 0) :
    n'.chain = n.chain := by
  cases h.change with
  | kept _ hchain => exact hchain
  | mined _ b _ hmined _ =>
    have hnonneg := MinedOn.difficulty_nonneg hmined hd
    omega
  | adopted k body hlast hnext =>
    unfold Node.Decided at hn
    omega
  | restored result => exact absurd rfl (hrestore result)

/-- **Stuck for good.** A node that has taken its startup decision and whose
    chain demands a negative difficulty keeps this chain along every run. -/
theorem stuck_for_good [DecidableEq ι] {names : List ι} {s s' : Network E ι} {p : ι} {d : Int}
    {tr : List (Transition (Network E ι) (Action ι))}
    (hreach : Reachable (networkSystem names cfgs) s) (hp : (s.nodes p).Decided (cfgs p))
    (hd : getDifficulty (s.nodes p).chain = .ok (.int d)) (hneg : d < 0)
    (hrun : Run (networkSystem names cfgs) s tr s') : (s'.nodes p).chain = (s.nodes p).chain := by
  have hkept : (s'.nodes p).Decided (cfgs p) ∧ (s'.nodes p).chain = (s.nodes p).chain := by
    refine hrun.invariant (P := fun t =>
      (t.nodes p).Decided (cfgs p) ∧ (t.nodes p).chain = (s.nodes p).chain) ?_ hreach ⟨hp, rfl⟩
    rintro t a u ht ⟨hdecided, hchain⟩ hstep
    have hne := nodes_ne_nil ht
    refine ⟨(Network.Step.decided hstep hne hdecided).1, ?_⟩
    rcases Network.Step.node_cases hstep hne p with hsame | ⟨ev, effects, hfaces, hout⟩
    · rw [hsame, hchain]
    · rw [← hchain] at hd ⊢
      exact hout.stuck hfaces.ne_restore hdecided hd hneg
  exact hkept.2

/-- The node that has mined all it can. -/
theorem stuck_for_good_full :
    ∃ s, Reachable (networkSystem [false, true] demoConfig) s ∧
      (s.nodes false).chain.length = 31 ∧
      ∀ tr s', Run (networkSystem [false, true] demoConfig) s tr s' →
        (s'.nodes false).chain = (s.nodes false).chain := by
  obtain ⟨s, hreach, hi, hlen, hd⟩ := exists_slow_run
  exact ⟨s, hreach.of_restrict, hlen, fun tr s' hrun =>
    stuck_for_good hreach.of_restrict (Nat.le_of_eq hi.symm) hd (by decide) hrun⟩

end XCoin
