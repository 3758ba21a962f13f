import XCoin.Framework.Branches
import XCoin.Network.Integrity
import XCoin.Node.Intake

/-! # A network is a branching log

    A node extends its chain by mining, and gives it up once for a longer or
    equally long chain that somebody has held.  Up to what JSON changes, this
    is all that ever happens to the chains of a network: every run of it is a
    run of the abstract system of branching logs, step by step, with the
    faces of blocks as entries.

    So every block of every chain was mined by a node on exactly the blocks
    below it, and a network in which one node mines never forks.
-/

namespace XCoin

open Js LTS

variable {E : Env} {ι : Type} {cfg : Config E ι} {cfgs : ι → Config E ι}

/-! ### What an event does to chains -/

/-- What a node announces is the chain it has. -/
theorem Event.Outcome.sendInv_eq {n n' : Node E} {ev : Event ι} {effects : List Effect}
    (h : ev.Outcome cfg n n' effects) {c : List Block} (hc : .sendInv c ∈ effects) :
    c = n'.chain := by
  cases h with
  | received body date fuel r xCoin effects hout heffects =>
    rcases heffects with rfl | rfl
    · cases hc
    · have heq : c = xCoin.chain := by simpa using hc
      exact heq
  | announced =>
    have heq : c = n.chain := by simpa using hc
    exact heq
  | requested => simp at hc
  | adopted => simp at hc
  | _ => cases hc

section steps

variable [DecidableEq ι] {names : List ι} {s s' : Network E ι}

/-- After an event at `p`, a chain of the network was there before, or it is
    the chain of `p`, or what arrives of it. -/
theorem Network.Handles.hasChain {p : ι} {ev : Event ι} {rest : List (ι × Message ι)}
    (h : s.Handles cfgs p ev rest s') (hne : (s.nodes p).chain ≠ []) (hfaces : s.Faces p ev)
    (hrest : ∀ m ∈ rest, m ∈ s.messages) {c : List Block} (hc : s'.HasChain c) :
    s.HasChain c ∨ c = (s'.nodes p).chain ∨ transportChain (s'.nodes p).chain = .ok c := by
  obtain ⟨r, n', effects, hhandle, rfl⟩ := h
  have hout := Node.handle_outcome hne hhandle
  have hself : Function.update s.nodes p n' p = n' := Function.update_self _ _ _
  -- a message with a chain was there before, or `p` has sent its chain
  have hsent {q : ι} {m : Message ι}
      (hm : (q, m) ∈ effects.flatMap (Effect.messages (cfgs p).neighborNodeList)) :
      (∀ k, m ≠ .blocks k (some c)) ∧ (m = .inv c → transportChain n'.chain = .ok c) := by
    obtain ⟨effect, heffect, hm⟩ := List.mem_flatMap.mp hm
    cases Effect.carries_of_mem hm with
    | inv chain body hbody =>
      refine ⟨by simp, fun hinv => ?_⟩
      cases hinv
      rw [← hout.sendInv_eq heffect]
      exact hbody
    | transaction tx body => exact ⟨by simp, by simp⟩
  cases hc with
  | node q =>
    by_cases hq : q = p
    · subst hq
      exact .inr (.inl rfl)
    · left
      show s.HasChain (Function.update s.nodes p n' q).chain
      rw [Function.update_of_ne hq]
      exact .node q
  | response q _ hmem =>
    left
    by_cases hq : q = p
    · subst hq
      replace hmem : c ∈ (Function.update s.nodes q n' q).neighborNodeResponseList := hmem
      rw [hself] at hmem
      rcases hout.response_cases hmem with hold | ⟨k, rfl⟩
      · exact .response q c hold
      · exact .blocks q k c hfaces
    · replace hmem : c ∈ (Function.update s.nodes p n' q).neighborNodeResponseList := hmem
      rw [Function.update_of_ne hq] at hmem
      exact .response q c hmem
  | blocks q k _ hmem =>
    rcases List.mem_append.mp hmem with hmem | hmem
    · exact .inl (.blocks q k c (hrest _ hmem))
    · exact absurd rfl ((hsent hmem).1 k)
  | inv q _ hmem =>
    rcases List.mem_append.mp hmem with hmem | hmem
    · exact .inl (.inv q c (hrest _ hmem))
    · right; right
      show transportChain (Function.update s.nodes p n' p).chain = .ok c
      rw [hself]
      exact (hsent hmem).2 rfl

/-! ### The simulation -/

/-- The abstract logs are what the chains of the network show. -/
structure Network.Shows (s : Network E ι) (a : Branches.State ι Face) : Prop where
  view  : ∀ p, a.view p = faces (s.nodes p).chain
  known : ∀ c, s.HasChain c → faces c ∈ a.known

/-- The node that mines in an action. -/
def Action.minesAt : Action ι → Option ι
  | .triggerMineBlock p _ _           => some p
  | .deliver p (.transaction _) _ _   => some p
  | _                                 => none

/-- The action extends a log only where it mines. -/
def Action.Extends (a : Action ι) (l : Branches.Act ι Face) : Prop :=
  ∀ q b, l = .extend q b → a.minesAt = some q

/-- An event at one node is a step of the branching logs. -/
theorem Network.Handles.branches {p : ι} {ev : Event ι} {rest : List (ι × Message ι)}
    {a : Branches.State ι Face} (h : s.Handles cfgs p ev rest s')
    (hne : (s.nodes p).chain ≠ []) (hcopy : IsCopy E (fun _ => True) (s'.nodes p).chain)
    (hfaces : s.Faces p ev) (hrest : ∀ m ∈ rest, m ∈ s.messages) (hs : s.Shows a) :
    ∃ l a', Branches.Step a l a' ∧ s'.Shows a' ∧
      ∀ q b, l = .extend q b → q = p ∧ ev.mines.isSome := by
  have hchains {c : List Block} (hc : s'.HasChain c) :
      s.HasChain c ∨ faces c = faces (s'.nodes p).chain := by
    rcases h.hasChain hne hfaces hrest hc with hold | rfl | hsent
    · exact .inl hold
    · exact .inr rfl
    · exact .inr (hcopy.faces_transport hsent).symm
  obtain ⟨r, n', effects, hhandle, hs'⟩ := h
  have hother (q : ι) (hq : q ≠ p) : s'.nodes q = s.nodes q := by
    rw [hs']
    exact Function.update_of_ne hq _ _
  have hself : s'.nodes p = n' := by
    rw [hs']
    exact Function.update_self _ _ _
  have hout := Node.handle_outcome hne hhandle
  -- the views of the nodes that do nothing
  have hview (v : List Face) (hv : v = faces (s'.nodes p).chain) (q : ι) :
      Function.update a.view p v q = faces (s'.nodes q).chain := by
    by_cases hq : q = p
    · subst hq
      rw [Function.update_self, hv]
    · rw [Function.update_of_ne hq, hs.view q, hother q hq]
  cases hout.change with
  | kept _ hsame =>
    have hface : faces (s'.nodes p).chain = a.view p := by rw [hself, hsame, hs.view p]
    refine ⟨.stay, a, .stay, ⟨?_, ?_⟩, by simp⟩
    · intro q
      rw [← hview (a.view p) hface.symm q, Function.update_eq_self]
    · intro c hc
      rcases hchains hc with hold | hnew
      · exact hs.known c hold
      · rw [hnew, hface, hs.view p]
        exact hs.known _ (.node p)
  | mined _ b hmines _ hext =>
    have hface : a.view p ++ [b.face] = faces (s'.nodes p).chain := by
      rw [hself, hext, faces_append, hs.view p]
      rfl
    refine ⟨.extend p b.face, _, .extend p b.face, ⟨hview _ hface, ?_⟩, ?_⟩
    · intro c hc
      rcases hchains hc with hold | hnew
      · exact Set.mem_insert_of_mem _ (hs.known c hold)
      · rw [hnew, ← hface]
        exact Set.mem_insert _ _
    · rintro q b' heq
      cases heq
      exact ⟨rfl, hmines⟩
  | adopted k body _ _ hlongest hle =>
    -- the chain was recorded before, or the event brings it
    have hmem : n'.chain ∈ n'.neighborNodeResponseList := by
      rw [hlongest] at hle ⊢
      exact Node.longest_mem_of_le hne hle
    have hadopted : s.HasChain n'.chain := by
      rcases hout.response_cases hmem with hold | ⟨k', hev⟩
      · exact .response p _ hold
      · rw [hev] at hfaces
        exact .blocks p k' _ hfaces
    have hface : faces n'.chain = faces (s'.nodes p).chain := by rw [hself]
    have hlen : (a.view p).length ≤ (faces n'.chain).length := by
      rw [hs.view p, length_faces, length_faces]
      exact hle
    refine ⟨.switch p (faces n'.chain), _, .switch p _ (hs.known _ hadopted) hlen,
      ⟨hview _ hface, ?_⟩, by simp⟩
    intro c hc
    rcases hchains hc with hold | hnew
    · exact hs.known c hold
    · rw [hnew, ← hface]
      exact hs.known _ hadopted
  | restored result => exact absurd rfl (hfaces.ne_restore result)

omit [DecidableEq ι] in
/-- A message that is lost takes nothing away. -/
theorem Network.Shows.lost {p : ι} {m : Message ι} {l₁ l₂ : List (ι × Message ι)}
    {a : Branches.State ι Face} (hs : s.Shows a)
    (hmessage : s.messages = l₁ ++ (p, m) :: l₂) :
    Network.Shows { s with messages := l₁ ++ l₂ } a where
  view  := hs.view
  known := by
    obtain ⟨_, hrest⟩ := mem_messages_of_rest hmessage
    intro c hc
    cases hc with
    | node q => exact hs.known _ (.node q)
    | response q _ hmem => exact hs.known c (.response q c hmem)
    | blocks q k _ hmem => exact hs.known c (.blocks q k c (hrest _ hmem))
    | inv q _ hmem => exact hs.known c (.inv q c (hrest _ hmem))

omit [DecidableEq ι] in
/-- A reply to a request carries the chain of a node, or none. -/
theorem Network.Shows.reply {p asker q : ι} {body : Option (List Block)}
    {l₁ l₂ : List (ι × Message ι)} {a : Branches.State ι Face} (hs : s.Shows a)
    (hmessage : s.messages = l₁ ++ (p, .getBlocks asker) :: l₂)
    (hbody : ∀ c, body = some c → faces c = faces (s.nodes p).chain) :
    Network.Shows { s with messages := l₁ ++ l₂ ++ [(asker, .blocks q body)] } a where
  view  := hs.view
  known := by
    obtain ⟨_, hrest⟩ := mem_messages_of_rest hmessage
    intro c hc
    cases hc with
    | node q => exact hs.known _ (.node q)
    | response q _ hmem => exact hs.known c (.response q c hmem)
    | blocks q k _ hmem =>
      rcases List.mem_append.mp hmem with hmem | hmem
      · exact hs.known c (.blocks q k c (hrest _ hmem))
      · rw [List.mem_singleton, Prod.mk.injEq, Message.blocks.injEq] at hmem
        rw [hbody c hmem.2.2.symm]
        exact hs.known _ (.node p)
    | inv q _ hmem =>
      rcases List.mem_append.mp hmem with hmem | hmem
      · exact hs.known c (.inv q c (hrest _ hmem))
      · simp at hmem

/-- **Step lemma**: a step of the network is a step of the branching logs. -/
theorem Network.Step.branches {act : Action ι} {a : Branches.State ι Face}
    (hreach : Reachable (networkSystem names cfgs) s) (hs : s.Shows a)
    (h : Network.Step cfgs s act s') :
    ∃ l a', Branches.Step a l a' ∧ s'.Shows a' ∧ act.Extends l := by
  have hcopies := (holds_copies (clockSystem_of_reachable (.step act hreach h))).nodes
  have hne := nodes_ne_nil hreach
  cases h with
  | triggerMineBlock p date fuel _ h =>
    obtain ⟨l, a', hstep, hshows, hext⟩ :=
      h.branches (hne p) (hcopies p).chain trivial (fun _ hm => hm) hs
    refine ⟨l, a', hstep, hshows, ?_⟩
    intro q b hl
    rw [(hext q b hl).1]
    rfl
  | transactionRequest p receiver amount _ hreceiver h =>
    obtain ⟨l, a', hstep, hshows, hext⟩ := h.branches (hne p) (hcopies p).chain
      ⟨receiver, amount, hreceiver, rfl, rfl⟩ (fun _ hm => hm) hs
    exact ⟨l, a', hstep, hshows, fun q b hl => by cases (hext q b hl).2⟩
  | answer p asker body l₁ l₂ hmessage hbody =>
    refine ⟨.stay, a, .stay, hs.reply hmessage ?_, fun _ _ hl => by cases hl⟩
    rintro c hc
    cases hc
    exact ((hcopies p).chain.faces_transport hbody).symm
  | fail p asker l₁ l₂ hmessage =>
    refine ⟨.stay, a, .stay, hs.reply hmessage ?_, fun _ _ hl => by cases hl⟩
    rintro c hc
    cases hc
  | lose p message l₁ l₂ hmessage _ =>
    exact ⟨.stay, a, .stay, hs.lost hmessage, fun _ _ hl => by cases hl⟩
  | deliver p message ev date fuel l₁ l₂ _ hmessage hevent h =>
    obtain ⟨hmem, hrest⟩ := mem_messages_of_rest hmessage
    have hfaces : s.Faces p ev := Network.faces_of_message hmem hevent
    obtain ⟨l, a', hstep, hshows, hext⟩ := h.branches (hne p) (hcopies p).chain hfaces hrest hs
    refine ⟨l, a', hstep, hshows, ?_⟩
    intro q b hl
    obtain ⟨rfl, hmines⟩ := hext q b hl
    cases message <;> cases hevent <;> first | rfl | cases hmines

/-- **Run lemma**: a run of the network from any state it can reach is a run of
    the branching logs. -/
theorem exists_branches_run {tr : List (Transition (Network E ι) (Action ι))}
    {a : Branches.State ι Face} (h : Run (networkSystem names cfgs) s tr s')
    (hreach : Reachable (networkSystem names cfgs) s) (hs : s.Shows a) :
    ∃ tr' a', Run (Branches.system ι [createGenesisBlock.face]) a tr' a' ∧ s'.Shows a' ∧
      List.Forall₂ (Transition.Matches Network.Shows Action.Extends) tr tr' := by
  refine h.simulate ?_ hreach hs
  intro s act t a hreach hs hstep
  exact Network.Step.branches hreach hs hstep

omit [DecidableEq ι] in
/-- What the network shows at the start. -/
theorem shows_new : (Network.new names cfgs).Shows (.new ι [createGenesisBlock.face]) where
  view  := fun _ => rfl
  known := by
    intro c hc
    have hnone (p : ι) (m : Message ι) (hm : (p, m) ∈ (Network.new names cfgs).messages) :
        ∃ asker, m = .getBlocks asker := by
      obtain ⟨q, _, hm⟩ := List.mem_flatMap.mp hm
      obtain ⟨r, _, heq⟩ := List.mem_map.mp hm
      cases heq
      exact ⟨q, rfl⟩
    cases hc with
    | node p => exact Set.mem_singleton _
    | response p _ hmem => cases hmem
    | blocks p k _ hmem =>
      obtain ⟨_, heq⟩ := hnone _ _ hmem
      cases heq
    | inv p _ hmem =>
      obtain ⟨_, heq⟩ := hnone _ _ hmem
      cases heq

/-- **Refinement.** Every run of a network is a run of the branching logs,
    step by step: at every point the logs are what the chains of the nodes
    show, every chain that is anywhere in the network is known, and logs are
    extended only where the network mines. -/
theorem network_refines_branches {tr : List (Transition (Network E ι) (Action ι))}
    (h : Run (networkSystem names cfgs) (.new names cfgs) tr s) :
    ∃ tr' a, Run (Branches.system ι [createGenesisBlock.face])
        (.new ι [createGenesisBlock.face]) tr' a ∧ s.Shows a ∧
      List.Forall₂ (Transition.Matches Network.Shows Action.Extends) tr tr' :=
  exists_branches_run h (.init rfl) shows_new

end steps

/-- The run of two nodes in which one mines and serves its chain. -/
theorem network_refines_branches_answered :
    ∃ (tr : List (Transition (Network digestEnv Bool) (Action Bool))) (s : Network digestEnv Bool)
      (tr' : List (Transition (Branches.State Bool Face) (Branches.Act Bool Face)))
      (a : Branches.State Bool Face),
      Run (networkSystem [false, true] pairConfig) (.new [false, true] pairConfig) tr s ∧
      (s.nodes false).chain.length = 2 ∧
      Run (Branches.system Bool [createGenesisBlock.face])
        (.new Bool [createGenesisBlock.face]) tr' a ∧ s.Shows a ∧
      List.Forall₂ (Transition.Matches Network.Shows Action.Extends) tr tr' := by
  obtain ⟨s, _, hreach, hlen, _⟩ := pair_answered (fun _ _ => True) trivial fun _ => trivial
  obtain ⟨_, tr, rfl, hrun⟩ := hreach.of_restrict.exists_run
  obtain ⟨tr', a, hrun', hshows, hmatches⟩ := network_refines_branches hrun
  exact ⟨tr, s, tr', a, hrun, hlen, hrun', hshows, hmatches⟩

/-! ### The origin of blocks -/

/-- **The origin of blocks.** Every block after the genesis block, of every
    chain that is anywhere in the network, was mined in the run by a node
    whose chain showed exactly the blocks below it. -/
theorem block_mined_in_run [DecidableEq ι] {names : List ι} {s : Network E ι}
    {tr : List (Transition (Network E ι) (Action ι))}
    (h : Run (networkSystem names cfgs) (.new names cfgs) tr s) {chain : List Block}
    (hc : s.HasChain chain) {k : Nat} {b : Block} (hk : 1 ≤ k) (hb : chain[k]? = some b) :
    ∃ x ∈ tr, ∃ p, x.label.minesAt = some p ∧
      faces (x.pre.nodes p).chain = faces (chain.take k) ∧
      faces (x.post.nodes p).chain = faces (chain.take (k + 1)) := by
  obtain ⟨tr', a, hrun, hshows, hmatches⟩ := exists_branches_run h (.init rfl) shows_new
  have hface : (faces chain)[k]? = some b.face := by
    rw [faces, List.getElem?_map, hb, Option.map_some]
  obtain ⟨x', hx', p, hlabel, hpre⟩ :=
    Branches.exists_extend_of_run hrun (faces chain) (hshows.known chain hc) k b.face hk hface
  obtain ⟨x, hx, hmatch⟩ := exists_mem_of_forall₂ hmatches hx'
  have hpost : x'.post.view p = x'.pre.view p ++ [b.face] := by
    obtain ⟨_, hstep⟩ := hrun.transition_mem (.init rfl) hx'
    rw [hlabel] at hstep
    generalize x'.pre = t, x'.post = u at hstep ⊢
    cases hstep
    exact Function.update_self _ _ _
  refine ⟨x, hx, p, hmatch.label p b.face hlabel, ?_, ?_⟩
  · rw [← hmatch.pre.view p, hpre, faces, faces, List.map_take]
  · rw [← hmatch.post.view p, hpost, hpre, faces, faces, List.map_take, List.take_add_one]
    rw [faces] at hface
    rw [hface]
    rfl

/-- The block on its way to the other node. -/
theorem block_mined_in_run_answered :
    ∃ (tr : List (Transition (Network digestEnv Bool) (Action Bool))) (s : Network digestEnv Bool)
      (c : List Block),
      Run (networkSystem [false, true] pairConfig) (.new [false, true] pairConfig) tr s ∧
      s.HasChain c ∧ c.length = 2 ∧
      ∃ x ∈ tr, ∃ p, x.label.minesAt = some p ∧
        faces (x.pre.nodes p).chain = faces (c.take 1) ∧
        faces (x.post.nodes p).chain = faces (c.take 2) := by
  obtain ⟨s, body, hreach, hlen, hbody, hmem, _⟩ :=
    pair_answered (fun _ _ => True) trivial fun _ => trivial
  obtain ⟨_, tr, rfl, hrun⟩ := hreach.of_restrict.exists_run
  have hchain : s.HasChain body := .blocks true false body hmem
  have htwo : body.length = 2 := by rw [(transportChain_ok hbody).1, hlen]
  obtain ⟨b, hb⟩ : ∃ b, body[1]? = some b := ⟨_, List.getElem?_eq_getElem (by omega)⟩
  exact ⟨tr, s, body, hrun, hchain, htwo, block_mined_in_run hrun hchain (Nat.le_refl 1) hb⟩

/-! ### One miner -/

/-- The runs of a network in which only `w` mines. -/
def soleMinerSystem [DecidableEq ι] (names : List ι) (cfgs : ι → Config E ι) (w : ι) :
    System (Network E ι) (Action ι) :=
  (networkSystem names cfgs).restrict fun _ a => ∀ q, a.minesAt = some q → q = w

/-- **One miner, one history.** If only the node `w` mines, every chain that
    is anywhere in the network, at any time, is a beginning of the chain of
    `w`, up to what JSON changes. -/
theorem sole_miner_prefix [DecidableEq ι] {names : List ι} {w : ι} {s : Network E ι}
    (h : Reachable (soleMinerSystem names cfgs w) s) {c : List Block} (hc : s.HasChain c) :
    faces c <+: faces (s.nodes w).chain := by
  -- the branching logs are extended only by `w`
  have hsim : ∃ a, Reachable (Branches.soloSystem [createGenesisBlock.face] w) a ∧
      Reachable (networkSystem names cfgs) s ∧ s.Shows a := by
    refine Reachable.simulate
      (R := fun s a => Reachable (networkSystem names cfgs) s ∧ s.Shows a) ?_ ?_ h
    · intro s hs
      obtain rfl : s = .new names cfgs := hs
      exact ⟨_, rfl, .init rfl, shows_new⟩
    · rintro s act t a ⟨hreach, hs⟩ ⟨hsole, hstep⟩
      obtain ⟨l, a', hstep', hs', hext⟩ := Network.Step.branches hreach hs hstep
      refine ⟨l, a', ⟨?_, hstep'⟩, .step act hreach hstep, hs'⟩
      cases l with
      | extend q b => exact hsole q (hext q b rfl)
      | _ => trivial
  obtain ⟨a, ha, _, hshows⟩ := hsim
  rw [← hshows.view w]
  exact Branches.prefix_of_solo ha (faces c) (hshows.known c hc)

/-- The chain on its way, when only the node that sent it has mined. -/
theorem sole_miner_prefix_answered :
    ∃ (s : Network digestEnv Bool) (c : List Block),
      Reachable (soleMinerSystem [false, true] pairConfig false) s ∧ s.HasChain c ∧
      c.length = 2 ∧ faces c <+: faces (s.nodes false).chain := by
  obtain ⟨s, body, hreach, hlen, hbody, hmem, _⟩ :=
    pair_answered (fun _ a => ∀ q, a.minesAt = some q → q = false)
      (fun q hq => (Option.some.inj hq).symm) (fun _ q hq => by cases hq)
  have hchain : s.HasChain body := .blocks true false body hmem
  have htwo : body.length = 2 := by rw [(transportChain_ok hbody).1, hlen]
  exact ⟨s, body, hreach, hchain, htwo, sole_miner_prefix hreach hchain⟩

end XCoin
