import XCoin.Network.Branches
import XCoin.Network.Provenance
import XCoin.Network.Traffic

/-! # Finality

    The only place where `FullNode.js` gives up blocks is the last callback of
    `startup`; `/inv` requests are ignored.  So a node replaces its chain at
    most once, and from its startup decision on its chain is append-only.

    This is also the weakness of the protocol: nodes that have decided and
    differ at a position differ there for ever.
-/

namespace XCoin

open Js LTS

variable {E : Env} {ι : Type} {cfg : Config E ι} {cfgs : ι → Config E ι}

/-! ### Nodes that have decided -/

/-- The last callback of `startup` has run, or there is none. -/
def Node.Decided (cfg : Config E ι) (n : Node E) : Prop :=
  cfg.neighborNodeList.length ≤ n.i

/-- An event keeps the blocks of a node, or takes its startup decision. -/
theorem Event.Outcome.prefix_or_decides {n n' : Node E} {ev : Event ι} {effects : List Effect}
    (h : ev.Outcome cfg n n' effects) :
    n.chain <+: n'.chain ∨ (cfg.neighborNodeList.length = n'.i ∧ n'.i = n.i + 1) := by
  cases h.change with
  | kept _ hchain => exact .inl ⟨[], by rw [List.append_nil, hchain]⟩
  | mined _ b _ _ hchain => exact .inl ⟨[b], hchain.symm⟩
  | adopted k body hlast hnext => exact .inr ⟨hlast, hnext⟩
  | restored result hchain => exact .inl ⟨_, hchain.symm⟩

/-- A node that has decided stays decided, and keeps its blocks. -/
theorem Event.Outcome.decided {n n' : Node E} {ev : Event ι} {effects : List Effect}
    (h : ev.Outcome cfg n n' effects) (hn : n.Decided cfg) :
    n'.Decided cfg ∧ n.chain <+: n'.chain := by
  unfold Node.Decided at hn ⊢
  have hi := h.i_eq
  refine ⟨by omega, ?_⟩
  rcases h.prefix_or_decides with hprefix | ⟨hlast, hnext⟩
  · exact hprefix
  · -- the decision cannot be taken again
    omega

section steps

variable [DecidableEq ι] {names : List ι} {s s' : Network E ι}

/-- A step leaves a node as it is, or is an event there. -/
theorem Network.Step.node_cases {a : Action ι} (h : Network.Step cfgs s a s')
    (hne : ∀ p, (s.nodes p).chain ≠ []) (p : ι) : s'.nodes p = s.nodes p ∨
      ∃ ev effects, s.Faces p ev ∧ Event.Outcome (cfgs p) (s.nodes p) ev (s'.nodes p) effects := by
  rcases h.event_cases with ⟨_, hsame⟩ | ⟨q, ev, rest, _, hfaces, hhandles⟩
  · rw [hsame]
    exact .inl rfl
  · rcases hhandles.node_cases (hne q) p with hsame | ⟨rfl, effects, hout⟩
    · exact .inl hsame
    · exact .inr ⟨ev, effects, hfaces, hout⟩

/-- **Step lemma**: a node that has decided stays decided, and its chain is
    only extended. -/
theorem Network.Step.decided {a : Action ι} {p : ι} (h : Network.Step cfgs s a s')
    (hne : ∀ p, (s.nodes p).chain ≠ []) (hp : (s.nodes p).Decided (cfgs p)) :
    (s'.nodes p).Decided (cfgs p) ∧ (s.nodes p).chain <+: (s'.nodes p).chain := by
  rcases h.node_cases hne p with hsame | ⟨ev, effects, _, hout⟩
  · rw [hsame]
    exact ⟨hp, List.prefix_rfl⟩
  · exact hout.decided hp

/-- **Run lemma**: the same for every run. -/
theorem decided_of_run {tr : List (Transition (Network E ι) (Action ι))} {p : ι}
    (hrun : Run (networkSystem names cfgs) s tr s')
    (hreach : Reachable (networkSystem names cfgs) s) (hp : (s.nodes p).Decided (cfgs p)) :
    (s'.nodes p).Decided (cfgs p) ∧ (s.nodes p).chain <+: (s'.nodes p).chain := by
  refine hrun.invariant (P := fun t =>
    (t.nodes p).Decided (cfgs p) ∧ (s.nodes p).chain <+: (t.nodes p).chain) ?_ hreach
    ⟨hp, List.prefix_rfl⟩
  rintro t a u ht ⟨hdecided, hprefix⟩ hstep
  obtain ⟨hdecided', hprefix'⟩ := Network.Step.decided hstep (nodes_ne_nil ht) hdecided
  exact ⟨hdecided', hprefix.trans hprefix'⟩

/-! ### One replacement -/

/-- The step takes blocks from the chain of `p`. -/
def Replaces (p : ι) (x : Transition (Network E ι) (Action ι)) : Prop :=
  ¬ (x.pre.nodes p).chain <+: (x.post.nodes p).chain

/-- **Step lemma**: a step that replaces a chain takes the startup decision. -/
theorem Network.Step.decided_of_replaces {a : Action ι} {p : ι} (h : Network.Step cfgs s a s')
    (hne : ∀ p, (s.nodes p).chain ≠ []) (hreplaces : Replaces p ⟨s, a, s'⟩) :
    (s'.nodes p).Decided (cfgs p) := by
  rcases h.node_cases hne p with hsame | ⟨ev, effects, _, hout⟩
  · have hchain : (s.nodes p).chain ++ [] = (s'.nodes p).chain := by
      rw [List.append_nil, hsame]
    exact absurd ⟨[], hchain⟩ hreplaces
  · rcases hout.prefix_or_decides with hprefix | ⟨hlast, _⟩
    · exact absurd hprefix hreplaces
    · exact Nat.le_of_eq hlast

/-- **At most one replacement.** In every run of a network and for every node,
    after a step that takes blocks from the node's chain every step keeps all
    blocks of the chain; and no step makes the chain shorter. -/
theorem chain_replaced_once {tr : List (Transition (Network E ι) (Action ι))}
    (hrun : Run (networkSystem names cfgs) (.new names cfgs) tr s) (p : ι) :
    (tr.Pairwise fun x y => Replaces p x → ¬ Replaces p y) ∧
    ∀ x ∈ tr, (x.pre.nodes p).chain.length ≤ (x.post.nodes p).chain.length := by
  constructor
  · refine hrun.pairwise (I := fun t => (t.nodes p).Decided (cfgs p)) ?_ ?_ (.init rfl)
    · intro t a u ht hstep hreplaces
      exact Network.Step.decided_of_replaces hstep (nodes_ne_nil ht) hreplaces
    · intro t a u ht hstep hdecided
      obtain ⟨hdecided', hprefix⟩ :=
        Network.Step.decided hstep (nodes_ne_nil ht) hdecided
      exact ⟨hdecided', fun hreplaces => hreplaces hprefix⟩
  · intro x hx
    obtain ⟨hpre, hstep⟩ := hrun.transition_mem (.init rfl) hx
    rcases Network.Step.node_cases hstep (nodes_ne_nil hpre) p with
      hsame | ⟨ev, effects, _, hout⟩
    · rw [hsame]
    · exact hout.length_le

end steps

/-- Both nodes of a pair have mined, and the one adopts the block of the
    other. -/
theorem chain_replaced_once_adopted :
    ∃ (tr : List (Transition (Network digestEnv Bool) (Action Bool))) (s : Network digestEnv Bool),
      Run (networkSystem [false, true] pairConfig) (.new [false, true] pairConfig) tr s ∧
      (∃ x ∈ tr, Replaces true x) ∧
      (tr.Pairwise fun x y => Replaces true x → ¬ Replaces true y) ∧
      ∀ x ∈ tr, (x.pre.nodes true).chain.length ≤ (x.post.nodes true).chain.length := by
  let mines : List (TracedAction Bool) :=
    [.triggerMineBlock false 7 1, .triggerMineBlock true 9 1, .answer 1]
  let adopts : TracedAction Bool := .deliver 1 0 0
  have hfinal : (execPlain pairConfig (fun _ _ => true) (.new [false, true] pairConfig) mines).bind
      (fun t => (adopts.exec pairConfig t).map fun u => decide ((adopts.plain t).isSome = true ∧
        (t.nodes true).chain.map Block.timestamp = [createGenesisBlock.timestamp, .num 9] ∧
        (u.nodes true).chain.map Block.timestamp = [createGenesisBlock.timestamp, .num 7])) =
        some true := by
    decide +kernel
  obtain ⟨t, hmines, hfinal⟩ := Option.bind_eq_some_iff.mp hfinal
  obtain ⟨u, hadopts, hfacts⟩ := Option.map_eq_some_iff.mp hfinal
  obtain ⟨hplain, hbefore, hafter⟩ := of_decide_eq_true hfacts
  obtain ⟨a, ha⟩ := Option.isSome_iff_exists.mp hplain
  obtain ⟨tr, hrun⟩ := run_of_execPlain hmines
  have hlast := TracedAction.exec_erase hadopts ha
  have hrun' : Run (networkSystem [false, true] pairConfig) _ _ _ := .snoc a hrun.of_restrict hlast
  refine ⟨_, _, hrun', ⟨_, List.mem_append_right _ (List.mem_singleton.mpr rfl), ?_⟩,
    chain_replaced_once hrun' true⟩
  intro hprefix
  have hdates : (t.nodes true).chain.map Block.timestamp <+:
      (u.nodes true).chain.map Block.timestamp := hprefix.map Block.timestamp
  rw [hbefore, hafter] at hdates
  revert hdates
  decide

/-! ### Forks -/

section steps

variable [DecidableEq ι] {names : List ι} {s s' : Network E ι}

/-- Blocks of a node that has decided stay where they are. -/
theorem getElem?_of_run {tr : List (Transition (Network E ι) (Action ι))} {p : ι} {k : Nat}
    {b : Block} (hrun : Run (networkSystem names cfgs) s tr s')
    (hreach : Reachable (networkSystem names cfgs) s) (hp : (s.nodes p).Decided (cfgs p))
    (hb : (s.nodes p).chain[k]? = some b) : (s'.nodes p).chain[k]? = some b := by
  obtain ⟨rest, hrest⟩ := (decided_of_run hrun hreach hp).2
  rw [← hrest, List.getElem?_append_left (List.getElem?_eq_some_iff.mp hb).1, hb]

omit [DecidableEq ι] in
/-- A chain that shows another block at a position is not continued. -/
theorem not_faces_prefix {chain c' : List Block} {k : Nat} {b b' : Block} (hb : chain[k]? = some b)
    (hb' : c'[k]? = some b') (hne : b.face ≠ b'.face) : ¬ faces chain <+: faces c' := by
  rintro ⟨rest, hrest⟩
  have hface : (faces chain)[k]? = some b.face := by
    rw [faces, List.getElem?_map, hb, Option.map_some]
  have hface' : (faces c')[k]? = some b'.face := by
    rw [faces, List.getElem?_map, hb', Option.map_some]
  rw [← hrest, List.getElem?_append_left (List.getElem?_eq_some_iff.mp hface).1, hface] at hface'
  exact hne (Option.some.inj hface')

/-- **Permanent forks.** If two nodes that have taken their startup decision
    show different blocks at a position, both keep their blocks there along
    every run, and neither chain ever becomes a beginning of the other. -/
theorem fork_permanent {tr : List (Transition (Network E ι) (Action ι))} {p q : ι} {k : Nat}
    {b b' : Block} (hreach : Reachable (networkSystem names cfgs) s)
    (hp : (s.nodes p).Decided (cfgs p)) (hq : (s.nodes q).Decided (cfgs q))
    (hb : (s.nodes p).chain[k]? = some b) (hb' : (s.nodes q).chain[k]? = some b')
    (hne : b.face ≠ b'.face) (hrun : Run (networkSystem names cfgs) s tr s') :
    ((s'.nodes p).chain[k]? = some b ∧ (s'.nodes q).chain[k]? = some b') ∧
    ¬ faces (s'.nodes p).chain <+: faces (s'.nodes q).chain ∧
    ¬ faces (s'.nodes q).chain <+: faces (s'.nodes p).chain := by
  have hkept := getElem?_of_run hrun hreach hp hb
  have hkept' := getElem?_of_run hrun hreach hq hb'
  exact ⟨⟨hkept, hkept'⟩, not_faces_prefix hkept hkept' hne, not_faces_prefix hkept' hkept hne.symm⟩

end steps

/-- Both requests of a pair fail, so both nodes decide for their own chain;
    then both mine, and go on mining. -/
theorem fork_permanent_pair :
    ∃ (s s' : Network digestEnv Bool)
      (tr : List (Transition (Network digestEnv Bool) (Action Bool))) (b b' : Block),
      Reachable (networkSystem [false, true] pairConfig) s ∧
      Run (networkSystem [false, true] pairConfig) s tr s' ∧
      (s'.nodes false).chain.length = 3 ∧ (s'.nodes true).chain.length = 4 ∧ b.face ≠ b'.face ∧
      ((s'.nodes false).chain[1]? = some b ∧ (s'.nodes true).chain[1]? = some b') ∧
      ¬ faces (s'.nodes false).chain <+: faces (s'.nodes true).chain ∧
      ¬ faces (s'.nodes true).chain <+: faces (s'.nodes false).chain := by
  let apart : List (TracedAction Bool) :=
    [.fail 0, .fail 0, .deliver 0 0 0, .deliver 0 0 0, .triggerMineBlock false 7 1,
     .triggerMineBlock true 9 1]
  -- the announcements of both nodes arrive, too
  let more : List (TracedAction Bool) :=
    [.triggerMineBlock true 11 1, .deliver 0 0 0, .triggerMineBlock false 13 1, .deliver 0 0 0,
     .triggerMineBlock true 15 1]
  have hfinal : ((execPlain pairConfig (fun _ _ => true) (.new [false, true] pairConfig)
      apart).bind fun s => (execPlain pairConfig (fun _ _ => true) s more).map fun s' =>
        decide ((s.nodes false).i = 1 ∧ (s.nodes true).i = 1 ∧
          ((s.nodes false).chain.map Block.timestamp)[1]? = some (.num 7) ∧
          ((s.nodes true).chain.map Block.timestamp)[1]? = some (.num 9) ∧
          (s'.nodes false).chain.length = 3 ∧ (s'.nodes true).chain.length = 4)) =
        some true := by
    decide +kernel
  obtain ⟨s, hexec, hfinal⟩ := Option.bind_eq_some_iff.mp hfinal
  obtain ⟨s', hexec', hfacts⟩ := Option.map_eq_some_iff.mp hfinal
  obtain ⟨hi, hi', hdate, hdate', hlen, hlen'⟩ := of_decide_eq_true hfacts
  obtain ⟨tr, hrun⟩ := run_of_execPlain hexec
  obtain ⟨tr', hrun'⟩ := run_of_execPlain_from [false, true] hexec'
  rw [List.getElem?_map] at hdate hdate'
  obtain ⟨b, hb, hdate⟩ := Option.map_eq_some_iff.mp hdate
  obtain ⟨b', hb', hdate'⟩ := Option.map_eq_some_iff.mp hdate'
  have hne : b.face ≠ b'.face := by
    intro heq
    have hdates : b.timestamp = b'.timestamp := congrArg Face.timestamp heq
    rw [hdate, hdate'] at hdates
    cases hdates
  have hreach := (hrun.reachable (.init rfl)).of_restrict
  exact ⟨s.erase, s'.erase, tr', b, b', hreach, hrun'.of_restrict, hlen, hlen', hne,
    fork_permanent hreach (Nat.le_of_eq hi.symm) (Nat.le_of_eq hi'.symm) hb hb' hne
      hrun'.of_restrict⟩

end XCoin
