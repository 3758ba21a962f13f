import XCoin.Network.History
import XCoin.Node.Intake

/-! # A node of the network, seen alone

    The results about one node are about `nodeSystem`, where anything may be
    sent to the node at any time and each neighbour's callback runs once.  A
    network run, seen from one of its nodes, is a run of that system: the
    events are those the node handles, in order, and the neighbours it still
    waits for are those whose request or response is on its way.
-/

namespace XCoin

open Js LTS

variable {E : Env} {ι : Type} [DecidableEq ι] {names : List ι} {cfgs : ι → Config E ι}
  {s s' : Network E ι}

/-- The neighbour that a message of the startup of `p` was sent to or comes
    from. -/
def awaited (p : ι) : ι × Message ι → Option ι
  | (k, .getBlocks asker) => if asker = p then some k else none
  | (q, .blocks k _)      => if q = p then some k else none
  | _                     => none

theorem awaited_effects (p : ι) (effects : List Effect) (neighborNodeList : List ι) :
    (effects.flatMap (Effect.messages neighborNodeList)).filterMap (awaited p) = [] := by
  rw [List.filterMap_eq_nil_iff]
  rintro ⟨q, m⟩ hm
  obtain ⟨effect, _, hm⟩ := List.mem_flatMap.mp hm
  cases Effect.carries_of_mem hm <;> rfl

/-- The state of `p` alone: the node, and the neighbours it waits for. -/
structure Network.SeenFrom (s : Network E ι) (p : ι) (n : NodeState E ι) : Prop where
  node    : n.node = s.nodes p
  waiting : n.waiting.Perm (s.messages.filterMap (awaited p))

/-- The requests of `p` at the start, if it is named once. -/
theorem awaited_new (hnodup : names.Nodup) {p : ι} (hp : p ∈ names) :
    (Network.new names cfgs).messages.filterMap (awaited p) = (cfgs p).neighborNodeList := by
  have hown (q : ι) : ((cfgs q).neighborNodeList.map fun k =>
      (k, Message.getBlocks q)).filterMap (awaited p) =
      if q = p then (cfgs q).neighborNodeList else [] := by
    rw [List.filterMap_map]
    by_cases hq : q = p <;> simp [Function.comp_def, awaited, hq]
  have hsplit : (Network.new names cfgs).messages.filterMap (awaited p) =
      names.flatMap fun q => if q = p then (cfgs q).neighborNodeList else [] := by
    show (names.flatMap fun q => (cfgs q).neighborNodeList.map fun k =>
      (k, Message.getBlocks q)).filterMap (awaited p) = _
    rw [List.filterMap_flatMap]
    simp only [hown]
  rw [hsplit]
  -- the names before and after the one occurrence of `p` contribute nothing
  obtain ⟨l₁, l₂, rfl⟩ := List.append_of_mem hp
  have hother {l : List ι} (hl : p ∉ l) :
      (l.flatMap fun q => if q = p then (cfgs q).neighborNodeList else []) = [] := by
    rw [List.flatMap_eq_nil_iff]
    intro q hq
    exact if_neg (ne_of_mem_of_not_mem hq hl)
  obtain ⟨hbefore, hafter⟩ : p ∉ l₁ ∧ p ∉ l₂ := by
    have h := List.nodup_middle.mp hnodup
    simpa using (List.nodup_cons.mp h).1
  rw [List.flatMap_append, List.flatMap_cons, hother hbefore, hother hafter, if_pos rfl]
  simp

/-! ### Steps -/

/-- An event at `p` is a step of the node alone, if it settles what is no
    longer on its way; an event elsewhere is not seen. -/
theorem Network.Handles.seenFrom {a : Action ι} {p q : ι} {ev : Event ι}
    {rest : List (ι × Message ι)} {n : NodeState E ι} (h : s.Handles cfgs q ev rest s')
    (hevent : a.event = some (q, ev)) (hn : n.node = s.nodes p)
    (hself : q = p → ∃ waiting, ev.settles n.waiting waiting ∧
      waiting.Perm (rest.filterMap (awaited p)))
    (hother : q ≠ p → n.waiting.Perm (rest.filterMap (awaited p))) :
    (a.eventAt p = none ∧ s'.SeenFrom p n) ∨
      ∃ ev effects n', a.eventAt p = some ev ∧
        (nodeSystem (cfgs p)).step n (ev, effects) n' ∧ s'.SeenFrom p n' := by
  obtain ⟨r, node, effects, hhandle, rfl⟩ := h
  have hsent : (rest ++ effects.flatMap (Effect.messages (cfgs q).neighborNodeList)).filterMap
      (awaited p) = rest.filterMap (awaited p) := by
    rw [List.filterMap_append, awaited_effects, List.append_nil]
  unfold Action.eventAt
  rw [hevent]
  by_cases hq : q = p
  · subst hq
    right
    obtain ⟨waiting, hsettles, hrest⟩ := hself rfl
    rw [← hn] at hhandle
    refine ⟨ev, effects, ⟨node, waiting⟩, if_pos rfl, ⟨⟨r, hhandle⟩, hsettles⟩, ?_, ?_⟩
    · exact (Function.update_self q node s.nodes).symm
    · show waiting.Perm ((rest ++ _).filterMap (awaited q))
      rw [hsent]
      exact hrest
  · left
    refine ⟨if_neg hq, ?_, ?_⟩
    · rw [hn]
      exact (Function.update_of_ne (Ne.symm hq) node s.nodes).symm
    · show n.waiting.Perm ((rest ++ _).filterMap (awaited p))
      rw [hsent]
      exact hother hq

/-- A request that is served or fails turns into its response, and the node
    waits for it as before. -/
theorem seenFrom_reply {p q asker : ι} {body : Option (List Block)}
    {l₁ l₂ : List (ι × Message ι)} {n : NodeState E ι}
    (hmessage : s.messages = l₁ ++ (q, .getBlocks asker) :: l₂) (hn : s.SeenFrom p n) :
    Network.SeenFrom { s with messages := l₁ ++ l₂ ++ [(asker, .blocks q body)] } p n := by
  have hsame : awaited p (q, .getBlocks asker) = awaited p (asker, .blocks q body) := rfl
  refine ⟨hn.node, hn.waiting.trans ?_⟩
  have hperm : (l₁ ++ (asker, .blocks q body) :: l₂).Perm
      (l₁ ++ l₂ ++ [(asker, .blocks q body)]) := by
    rw [List.append_assoc]
    exact (List.perm_append_singleton _ l₂).symm.append_left l₁
  have hturn : s.messages.filterMap (awaited p) =
      (l₁ ++ (asker, .blocks q body) :: l₂).filterMap (awaited p) := by
    rw [hmessage]
    simp only [List.filterMap_append, List.filterMap_cons, hsame]
  rw [hturn]
  exact hperm.filterMap _

/-- A message that does not belong to the startup of `p` may be taken off the
    list. -/
theorem Network.SeenFrom.rest {p : ι} {m : ι × Message ι} {l₁ l₂ : List (ι × Message ι)}
    {n : NodeState E ι} (hn : s.SeenFrom p n) (hmessage : s.messages = l₁ ++ m :: l₂)
    (hm : awaited p m = none) : n.waiting.Perm ((l₁ ++ l₂).filterMap (awaited p)) := by
  have hwaiting := hn.waiting
  rwa [hmessage, List.filterMap_append, List.filterMap_cons_none hm,
    ← List.filterMap_append] at hwaiting

/-- The callback for a response at `p` settles the request. -/
theorem Network.SeenFrom.settles {p k : ι} {body : Option (List Block)}
    {l₁ l₂ : List (ι × Message ι)} {n : NodeState E ι} (hn : s.SeenFrom p n)
    (hmessage : s.messages = l₁ ++ (p, .blocks k body) :: l₂) :
    ∃ waiting, (Event.getBlocks k body).settles n.waiting waiting ∧
      waiting.Perm ((l₁ ++ l₂).filterMap (awaited p)) := by
  have hwaiting := hn.waiting
  have hk : awaited p (p, .blocks k body) = some k := if_pos rfl
  rw [hmessage, List.filterMap_append, List.filterMap_cons_some hk] at hwaiting
  obtain ⟨w₁, w₂, hw⟩ := List.append_of_mem
    (hwaiting.mem_iff.mpr (List.mem_append_right _ (List.mem_cons_self ..)))
  refine ⟨w₁ ++ w₂, ⟨w₁, w₂, hw, rfl⟩, ?_⟩
  rw [hw] at hwaiting
  rw [List.filterMap_append]
  apply List.Perm.cons_inv
  exact List.perm_middle.symm.trans (hwaiting.trans List.perm_middle)

/-- **Step lemma**: a step of the network is a step of `p` alone with the
    event that happens at `p`, or is not seen from there. -/
theorem Network.Step.seenFrom {a : Action ι} {p : ι} {n : NodeState E ι}
    (h : Network.Step cfgs s a s') (hn : s.SeenFrom p n) :
    (a.eventAt p = none ∧ s'.SeenFrom p n) ∨
      ∃ ev effects n', a.eventAt p = some ev ∧
        (nodeSystem (cfgs p)).step n (ev, effects) n' ∧ s'.SeenFrom p n' := by
  cases h with
  | triggerMineBlock q date fuel _ h =>
    exact h.seenFrom rfl hn.node (fun _ => ⟨n.waiting, rfl, hn.waiting⟩) fun _ => hn.waiting
  | transactionRequest q receiver amount _ hreceiver h =>
    exact h.seenFrom rfl hn.node (fun _ => ⟨n.waiting, rfl, hn.waiting⟩) fun _ => hn.waiting
  | answer q asker body l₁ l₂ hmessage hbody => exact .inl ⟨rfl, seenFrom_reply hmessage hn⟩
  | fail q asker l₁ l₂ hmessage => exact .inl ⟨rfl, seenFrom_reply hmessage hn⟩
  | lose q message l₁ l₂ hmessage hpost =>
    have hnone : awaited p (q, message) = none := by
      cases message with
      | getBlocks asker => cases hpost
      | blocks k body => cases hpost
      | _ => rfl
    exact .inl ⟨rfl, ⟨hn.node, hn.rest hmessage hnone⟩⟩
  | deliver q message ev date fuel l₁ l₂ _ hmessage hevent h =>
    apply h.seenFrom (by rw [Action.event, hevent, Option.map_some]) hn.node
    · intro hq
      subst hq
      -- only a response was waited for
      cases message with
      | getBlocks asker => cases hevent
      | blocks k body =>
        cases hevent
        exact hn.settles hmessage
      | transaction body =>
        cases hevent
        exact ⟨n.waiting, rfl, hn.rest hmessage rfl⟩
      | inv body =>
        cases hevent
        exact ⟨n.waiting, rfl, hn.rest hmessage rfl⟩
    · intro hq
      apply hn.rest hmessage
      cases message with
      | getBlocks asker => cases hevent
      | blocks k body => exact if_neg hq
      | transaction body => rfl
      | inv body => rfl

/-! ### Runs -/

/-- **Projection.** In a network whose nodes have different names, every run,
    seen from one of them, is a run of that node in an arbitrary environment.
    It handles the same events in the same order and ends in the same state,
    and it waits for exactly the neighbours whose request or response is on
    its way. -/
theorem network_projects (hnodup : names.Nodup) {p : ι} (hp : p ∈ names)
    {tr : List (Transition (Network E ι) (Action ι))}
    (h : Run (networkSystem names cfgs) (.new names cfgs) tr s) :
    ∃ (tr' : List (NodeStep E ι)) (n : NodeState E ι),
      Run (nodeSystem (cfgs p)) ⟨.new (cfgs p), (cfgs p).neighborNodeList⟩ tr' n ∧
      tr'.map (fun x => x.label.1) = tr.filterMap (fun x => x.label.eventAt p) ∧
      n.node = s.nodes p ∧ n.waiting.Perm (s.messages.filterMap (awaited p)) := by
  have hinit : (Network.new names cfgs).SeenFrom p ⟨.new (cfgs p), (cfgs p).neighborNodeList⟩ := by
    refine ⟨rfl, ?_⟩
    rw [awaited_new hnodup hp]
  obtain ⟨tr', n, hrun, hseen, hevents⟩ := h.project (R := fun s n => s.SeenFrom p n)
    (Action.eventAt p) (fun l : Event ι × List Effect => l.1) (by
      intro t a u n hn hstep
      rcases Network.Step.seenFrom hstep hn with hsame | ⟨ev, effects, n', hevent, hstep', hn'⟩
      · exact .inl hsame
      · exact .inr ⟨(ev, effects), n', hevent, hstep', hn'⟩) hinit
  exact ⟨tr', n, hrun, hevents, hseen.node, hseen.waiting⟩

/-- The node that has sent a transfer still waits for its neighbour, which has
    mined the transfer and not served the request. -/
theorem network_projects_transfer :
    ∃ (tr : List (Transition (Network digestEnv Bool) (Action Bool)))
      (s : Network digestEnv Bool) (tr' : List (NodeStep digestEnv Bool))
      (n : NodeState digestEnv Bool),
      Run (networkSystem [false, true] lineConfig) (.new [false, true] lineConfig) tr s ∧
      (s.nodes true).chain.length = 2 ∧
      Run (nodeSystem (lineConfig false)) ⟨.new (lineConfig false), [true]⟩ tr' n ∧
      tr'.map (fun x => x.label.1) = tr.filterMap (fun x => x.label.eventAt false) ∧
      n.node = s.nodes false ∧ n.waiting = [true] := by
  let as : List (TracedAction Bool) :=
    [.transactionRequest false (.str "04bb") (.num 5), .deliver 1 7 1]
  have hfinal : (execPlain lineConfig (fun _ _ => true) (.new [false, true] lineConfig) as).map
      (fun s => ((s.erase.nodes true).chain.length, s.erase.messages.filterMap (awaited false))) =
        some (2, [true]) := by
    decide +kernel
  obtain ⟨s, hexec, hstate⟩ := Option.map_eq_some_iff.mp hfinal
  obtain ⟨hchain, hawaited⟩ := Prod.mk.inj hstate
  obtain ⟨tr, hrun⟩ := run_of_execPlain hexec
  obtain ⟨tr', n, hrun', hevents, hnode, hwaiting⟩ :=
    network_projects (p := false) (by decide) (by decide) hrun.of_restrict
  rw [hawaited] at hwaiting
  exact ⟨tr, s.erase, tr', n, hrun.of_restrict, hchain, hrun', hevents, hnode,
    List.perm_singleton.mp hwaiting⟩

end XCoin
