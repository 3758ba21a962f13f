import XCoin.Network.Finality
import XCoin.Network.Recovery

/-! # Replacements across restarts

    A process decides once whether it keeps its chain, so a node that is
    never restarted replaces its chain at most once.  A restart takes the
    blocks of the chain itself and gives the new process a decision of its
    own: two replacements at most.  Everything else a cluster does, saves and
    restores included, only appends.
-/

namespace XCoin

open Js LTS

variable {E : Env} {ι H : Type} {cfg : Config E ι} {cfgs : ι → Config E ι}

/-! ### Without restarts -/

section cluster

variable [DecidableEq ι] [DecidableEq H] {names : List ι} {host : ι → H} {s s' : Cluster E ι H}

/-- No process ends, and no query has found anything. -/
def ClusterAction.idle (s : Cluster E ι H) : ClusterAction ι → Prop
  | .restart _ => False
  | .restore p => s.queries p = .found []
  | _          => True

/-- The clusters that are started once, on databases without blocks. -/
def idleSystem (names : List ι) (cfgs : ι → Config E ι) (host : ι → H) :
    System (Cluster E ι H) (ClusterAction ι) :=
  (clusterSystem names cfgs host).restrict fun s a => a.idle s

omit [DecidableEq H] in
/-- A restore that finds nothing changes nothing. -/
theorem Network.Handles.restore_nil {t t' : Network E ι} {p : ι}
    (h : t.Handles cfgs p (.restore []) t.messages t') : t' = t := by
  obtain ⟨r, n', effects, hhandle, rfl⟩ := h
  rw [Node.handle, Option.some.injEq] at hhandle
  cases hhandle
  have hnode : (t.nodes p).setChain (t.nodes p).chain = t.nodes p := rfl
  simp only [List.map_nil, hnode, Function.update_eq_self, List.flatMap_nil, List.append_nil]

/-- **A network is a cluster without restarts and restored blocks**: the
    network reaches exactly the states of the networks in such clusters,
    whatever they save. -/
theorem network_reachable_iff_idle {t : Network E ι} (host : ι → H) :
    Reachable (networkSystem names cfgs) t ↔
      ∃ s : Cluster E ι H, Reachable (idleSystem names cfgs host) s ∧ s.network = t := by
  constructor
  · intro h
    refine Reachable.simulate (R := fun t (s : Cluster E ι H) => s.network = t) ?_ ?_ h
    · intro t ht
      exact ⟨.new names cfgs, rfl, ht.symm⟩
    · rintro _ a t s rfl hstep
      exact ⟨.network a, _, ⟨trivial, .network a t hstep⟩, rfl⟩
  · rintro ⟨s, hs, rfl⟩
    induction hs with
    | init h0 => exact .init (by rw [show _ = _ from h0]; rfl)
    | step a _ hstep ih =>
      obtain ⟨hidle, hstep⟩ := hstep
      cases hstep with
      | network a network' h => exact .step a ih h
      | connect => exact ih
      | completed => exact ih
      | restart => exact hidle.elim
      | query => exact ih
      | restore p result network' hfound h =>
        obtain rfl : result = [] := by
          rw [show _ = Query.found [] from hidle] at hfound
          exact (Query.found.inj hfound).symm
        rw [show network' = _ from h.restore_nil]
        exact ih

/-! ### What can happen to a node -/

/-- The action restarts the process of `p`. -/
def ClusterAction.restarts (p : ι) : ClusterAction ι → Bool
  | .restart q => decide (q = p)
  | _          => false

/-- A step leaves a node as it is, is an event there or restarts it. -/
theorem Cluster.Step.node_cases {a : ClusterAction ι} (h : Cluster.Step cfgs host s a s')
    (hne : ∀ p, (s.network.nodes p).chain ≠ []) (p : ι) :
    s'.network.nodes p = s.network.nodes p ∨
      (∃ ev effects,
        Event.Outcome (cfgs p) (s.network.nodes p) ev (s'.network.nodes p) effects) ∨
      a.restarts p = true := by
  cases h with
  | network a network' hstep =>
    rcases hstep.node_cases hne p with hsame | ⟨ev, effects, _, hout⟩
    · exact .inl hsame
    · exact .inr (.inl ⟨ev, effects, hout⟩)
  | connect => exact .inl rfl
  | completed => exact .inl rfl
  | restart q =>
    by_cases hp : p = q
    · exact .inr (.inr (decide_eq_true hp.symm))
    · exact .inl (Function.update_of_ne hp _ _)
  | query => exact .inl rfl
  | restore q result network' hfound hhandles =>
    rcases hhandles.node_cases (hne q) p with hsame | ⟨_, effects, hout⟩
    · exact .inl hsame
    · exact .inr (.inl ⟨.restore result, effects, hout⟩)

end cluster

/-! ### Decisions to take -/

instance (n : Node E) : Decidable (n.Decided cfg) :=
  inferInstanceAs (Decidable (cfg.neighborNodeList.length ≤ n.i))

/-- How many startup decisions the process has still to take. -/
def Node.undecided (cfg : Config E ι) (n : Node E) : Nat := if n.Decided cfg then 0 else 1

theorem Node.undecided_le (cfg : Config E ι) (n : Node E) : n.undecided cfg ≤ 1 := by
  unfold Node.undecided
  split <;> omega

open Classical in
/-- Are blocks of the chain of `n` gone in `n'`? -/
noncomputable def Node.loses (n n' : Node E) : Bool := decide (¬ n.chain <+: n'.chain)

theorem Node.loses_iff {n n' : Node E} : n.loses n' = true ↔ ¬ n.chain <+: n'.chain := by
  simp [Node.loses]

theorem Node.loses_of_prefix {n n' : Node E} (h : n.chain <+: n'.chain) : n.loses n' = false := by
  rw [Bool.eq_false_iff, ne_eq, Node.loses_iff]
  exact not_not_intro h

/-- An event takes blocks from the chain only by the decision. -/
theorem Event.Outcome.undecided_le {n n' : Node E} {ev : Event ι} {effects : List Effect}
    (h : ev.Outcome cfg n n' effects) :
    n'.undecided cfg + (n.loses n').toNat ≤ n.undecided cfg := by
  by_cases hn : n.Decided cfg
  · obtain ⟨hn', hprefix⟩ := h.decided hn
    rw [Node.loses_of_prefix hprefix, Node.undecided, if_pos hn']
    exact Nat.zero_le _
  · rw [show n.undecided cfg = 1 from if_neg hn]
    rcases h.prefix_or_decides with hprefix | ⟨hlast, _⟩
    · rw [Node.loses_of_prefix hprefix]
      exact n'.undecided_le cfg
    · have hn' : n'.Decided cfg := Nat.le_of_eq hlast
      rw [Node.undecided, if_pos hn', Nat.zero_add]
      exact Bool.toNat_le _

section cluster

variable [DecidableEq ι] [DecidableEq H] {names : List ι} {host : ι → H} {s s' : Cluster E ι H}

/-- **Step lemma**: a replacement uses up a decision, and only a restart gives
    one back. -/
theorem Cluster.Step.undecided_le {a : ClusterAction ι} (h : Cluster.Step cfgs host s a s')
    (hne : ∀ p, (s.network.nodes p).chain ≠ []) (p : ι) :
    (s'.network.nodes p).undecided (cfgs p) +
        ((s.network.nodes p).loses (s'.network.nodes p)).toNat ≤
      (s.network.nodes p).undecided (cfgs p) + 2 * (a.restarts p).toNat := by
  rcases h.node_cases hne p with hsame | ⟨ev, effects, hout⟩ | hrestarts
  · rw [hsame, Node.loses_of_prefix List.prefix_rfl]
    exact Nat.le_add_right _ _
  · exact Nat.le_add_right_of_le hout.undecided_le
  · have hundecided := (s'.network.nodes p).undecided_le (cfgs p)
    have hloses := Bool.toNat_le ((s.network.nodes p).loses (s'.network.nodes p))
    rw [hrestarts, Bool.toNat_true]
    omega

/-- **Two replacements a restart.** In every run of a cluster, the steps that
    take blocks from the chain of a node are at most one more than twice its
    restarts, however often it is saved and restored, and whatever happens to
    the other nodes. -/
theorem cluster_replacements_bounded
    {tr : List (Transition (Cluster E ι H) (ClusterAction ι))}
    (hrun : Run (clusterSystem names cfgs host) (.new names cfgs) tr s) (p : ι) :
    tr.countP (fun x => (x.pre.network.nodes p).loses (x.post.network.nodes p)) ≤
      1 + 2 * tr.countP fun x => x.label.restarts p := by
  have hstep (t : Cluster E ι H) (a : ClusterAction ι) (u : Cluster E ι H)
      (ht : Reachable (clusterSystem names cfgs host) t)
      (hstep : (clusterSystem names cfgs host).step t a u) :
      (u.network.nodes p).undecided (cfgs p) +
          ((t.network.nodes p).loses (u.network.nodes p)).toNat ≤
        (t.network.nodes p).undecided (cfgs p) + 2 * (a.restarts p).toNat := by
    apply Cluster.Step.undecided_le hstep
    intro q
    exact ((holds_of_reachable ht).network.nodes q).chain.1
  have hbound := Run.rank_bound
    (fun x => (x.pre.network.nodes p).loses (x.post.network.nodes p))
    (fun x => x.label.restarts p) hstep hrun (.init rfl)
  have hstart := ((Cluster.new names cfgs : Cluster E ι H).network.nodes p).undecided_le (cfgs p)
  omega

end cluster

/-- A node that has mined is restarted, and its block is gone. -/
theorem cluster_replacements_bounded_restart :
    ∃ (tr : List (Transition (Cluster demoEnv Bool Unit) (ClusterAction Bool)))
      (s : Cluster demoEnv Bool Unit),
      Run (clusterSystem [false, true] demoConfig fun _ => ()) (.new [false, true] demoConfig)
        tr s ∧
      (∃ x ∈ tr, (x.pre.network.nodes true).loses (x.post.network.nodes true) = true) ∧
      tr.countP (fun x => (x.pre.network.nodes true).loses (x.post.network.nodes true)) ≤
        1 + 2 * tr.countP fun x => x.label.restarts true := by
  have hfinal : (Cluster.exec demoConfig (fun _ => ()) (.new [false, true] demoConfig)
      (.inl (.triggerMineBlock true 7 1))).map
      (fun s : Cluster demoEnv Bool Unit => (s.network.nodes true).chain.length) = some 2 := by
    decide +kernel
  obtain ⟨s, hs, hlen⟩ := Option.map_eq_some_iff.mp hfinal
  obtain ⟨a, hfirst⟩ := Cluster.Step.of_exec hs
  have hmined : Run (clusterSystem [false, true] demoConfig fun _ => ())
      (.new [false, true] demoConfig) _ s := .snoc a .nil hfirst
  have hrestart : (clusterSystem [false, true] demoConfig fun _ => ()).step s (.restart true) _ :=
    Cluster.Step.restart true
  have hrun := Run.snoc _ hmined hrestart
  refine ⟨_, _, hrun, ⟨_, List.mem_append_right _ (List.mem_singleton.mpr rfl), ?_⟩,
    cluster_replacements_bounded hrun true⟩
  rw [Node.loses_iff]
  intro hprefix
  have hle : (s.network.nodes true).chain.length ≤ 1 := hprefix.length_le
  omega

end XCoin
