import Mathlib.Logic.Function.Iterate
import XCoin.Chain.Commitment
import XCoin.Model.BlockchainSaver
import XCoin.Node.Startup

/-! # Saving, restarting and restoring

    The saver writes the whole chain, genesis block included; the restore
    callback appends what it finds to a chain that already has a genesis
    block, and rebuilds each block from a list of fields that lacks the
    difficulty.  So every restart adds a genesis block and drops the
    difficulties.

    The callback has no order with the startup decision, which replaces the
    chain.  `startupChoice` is the decision as a function of the chain and
    the responses; the two orders are then two expressions that agree only if
    one of the two writers has nothing to write.
-/

namespace XCoin

open Js LTS

variable {E : Env} {ι : Type} {cfg : Config E ι}

/-! ### Save and restart -/

/-- A block after it was saved and restored. -/
def Block.restored (b : Block) : Block := Node.restoreBlock b.document

@[simp] theorem restored_genesis : createGenesisBlock.restored = createGenesisBlock := rfl

@[simp] theorem Block.restored_restored (b : Block) : b.restored.restored = b.restored := by
  simp [Block.restored, Node.restoreBlock, Block.document, Block.new]

/-- One restart: a genesis block, then the restored blocks. -/
theorem saveAndRestart_chain (cfg : Config E ι) (s : Node E × Database) :
    (saveAndRestart cfg s).1.chain = createGenesisBlock :: s.1.chain.map Block.restored := by
  show [createGenesisBlock] ++ (saveBlockchainToDisk s.2 s.1.chain).documents.map _ = _
  rw [saveBlockchainToDisk_documents, List.map_map]
  rfl

/-- **Restarts do not give the chain back.** After any number of save and
    restart cycles the chain is that number of genesis blocks followed by the
    blocks of the saved chain without their difficulties; it never agrees
    with the saved chain. -/
theorem restart_chain (cfg : Config E ι) (n : Node E) (db : Database) (k : Nat) :
    ((saveAndRestart cfg)^[k + 1] (n, db)).1.chain =
        List.replicate (k + 1) createGenesisBlock ++ n.chain.map Block.restored ∧
    ¬ List.Forall₂ Block.Agree ((saveAndRestart cfg)^[k + 1] (n, db)).1.chain n.chain := by
  have hchain : ((saveAndRestart cfg)^[k + 1] (n, db)).1.chain =
      List.replicate (k + 1) createGenesisBlock ++ n.chain.map Block.restored := by
    induction k with
    | zero => exact saveAndRestart_chain cfg (n, db)
    | succ k ih =>
      rw [Function.iterate_succ_apply', saveAndRestart_chain, ih]
      -- restoring the genesis block, or a block again, changes nothing
      rw [List.map_append, List.map_replicate, restored_genesis, List.map_map]
      simp [List.replicate_succ, Function.comp_def]
  refine ⟨hchain, ?_⟩
  -- the lengths differ by the number of restarts
  intro hagree
  have hlen := hagree.length_eq
  rw [hchain, List.length_append, List.length_replicate, List.length_map] at hlen
  omega

/-- **A second genesis block.** A node mines one block from an empty database,
    saves its chain of two blocks and is restarted: it holds three blocks, and
    the mined one has lost its difficulty. -/
theorem restart_adds_genesis :
    ∃ s : NodeState demoEnv Bool, Reachable (nodeSystem (demoConfig false)) s ∧
      s.node.chain.length = 2 ∧
      (saveAndRestart (demoConfig false) (s.node, ⟨[]⟩)).1.chain.length = 3 ∧
      (∀ b ∈ (saveAndRestart (demoConfig false) (s.node, ⟨[]⟩)).1.chain,
        b.difficulty = .undefined) ∧
      ¬ List.Forall₂ Block.Agree (saveAndRestart (demoConfig false) (s.node, ⟨[]⟩)).1.chain
        s.node.chain := by
  obtain ⟨s, _, hreach, hlen, _⟩ := demo_mined
  have hchain := saveAndRestart_chain (demoConfig false) (s.node, ⟨[]⟩)
  have hthree : (saveAndRestart (demoConfig false) (s.node, ⟨[]⟩)).1.chain.length = 3 := by
    rw [hchain, List.length_cons, List.length_map, hlen]
  refine ⟨s, hreach, hlen, hthree, ?_, ?_⟩
  · intro b hb
    rw [hchain] at hb
    rcases List.mem_cons.mp hb with rfl | hb
    · rfl
    · obtain ⟨b', _, rfl⟩ := List.mem_map.mp hb
      rfl
  · intro hagree
    have := hagree.length_eq
    omega

/-! ### Restore and the startup decision -/

/-- The startup decision as a function of the node's chain and the responses. -/
def startupChoice (own : List Block) (responses : List (List Block)) : List Block :=
  if (Node.maxNeighborNodeBodyList responses).length < own.length then own
  else Node.maxNeighborNodeBodyList responses

/-- The node after callbacks of `startup` with the given bodies. -/
def Node.callbacks (cfg : Config E ι) (n : Node E) (bodies : List (Option (List Block))) :
    Node E :=
  bodies.foldl (fun n body => (n.getBlocksCallback cfg body).node) n

/-- A callback before the last only records its response. -/
theorem Node.callback_early {n : Node E} {body : Option (List Block)}
    (h : cfg.neighborNodeList.length ≠ n.i + 1) :
    (n.getBlocksCallback cfg body).node = n.recordResponse body := by
  unfold Node.getBlocksCallback
  rw [if_neg h]

/-- The last callback chooses. -/
theorem Node.callback_last {n : Node E} {body : Option (List Block)}
    (h : cfg.neighborNodeList.length = n.i + 1) :
    (n.getBlocksCallback cfg body).node.chain =
      startupChoice n.chain (n.neighborNodeResponseList ++ body.toList) := by
  have hlist : (n.recordResponse body).neighborNodeResponseList =
      n.neighborNodeResponseList ++ body.toList := rfl
  unfold Node.getBlocksCallback startupChoice
  rw [if_pos h, hlist]
  by_cases hlt : (Node.maxNeighborNodeBodyList
      (n.neighborNodeResponseList ++ body.toList)).length < n.chain.length
  · rw [if_pos hlt, if_pos hlt]
    rfl
  · rw [if_neg hlt, if_neg hlt]
    rfl

theorem Node.callbacks_cons_early {n : Node E} {body : Option (List Block)}
    {bodies : List (Option (List Block))} (h : cfg.neighborNodeList.length ≠ n.i + 1) :
    n.callbacks cfg (body :: bodies) = (n.recordResponse body).callbacks cfg bodies := by
  show ((n.getBlocksCallback cfg body).node).callbacks cfg bodies = _
  rw [Node.callback_early h]

/-- Callbacks that leave a neighbour waited for only record. -/
theorem Node.callbacks_early {n : Node E} {bodies : List (Option (List Block))}
    (h : n.i + bodies.length < cfg.neighborNodeList.length) :
    (n.callbacks cfg bodies).chain = n.chain ∧
      (n.callbacks cfg bodies).i = n.i + bodies.length ∧
      (n.callbacks cfg bodies).neighborNodeResponseList =
        n.neighborNodeResponseList ++ bodies.flatMap Option.toList := by
  induction bodies generalizing n with
  | nil => exact ⟨rfl, rfl, (List.append_nil _).symm⟩
  | cons body bodies ih =>
    rw [List.length_cons] at h
    have hi : (n.recordResponse body).i = n.i + 1 := rfl
    obtain ⟨hchain, hcount, hlist⟩ := ih (n := n.recordResponse body) (by omega)
    rw [Node.callbacks_cons_early (by omega), hchain, hcount, hlist, List.length_cons,
      List.flatMap_cons, ← List.append_assoc]
    exact ⟨rfl, by omega, rfl⟩

/-- **All callbacks**: the chain they leave is the choice between the chain
    they found and all responses. -/
theorem Node.callbacks_all {n : Node E} {bodies : List (Option (List Block))}
    (hne : bodies ≠ []) (h : n.i + bodies.length = cfg.neighborNodeList.length) :
    (n.callbacks cfg bodies).chain =
      startupChoice n.chain (n.neighborNodeResponseList ++ bodies.flatMap Option.toList) := by
  induction bodies generalizing n with
  | nil => exact absurd rfl hne
  | cons body bodies ih =>
    rw [List.length_cons] at h
    by_cases hlast : bodies = []
    · -- `body` is the last one
      subst hlast
      rw [List.flatMap_singleton]
      exact Node.callback_last (by simpa using h.symm)
    · have hpos := List.length_pos_iff.mpr hlast
      have hi : (n.recordResponse body).i = n.i + 1 := rfl
      rw [Node.callbacks_cons_early (by omega), ih hlast (by omega), List.flatMap_cons,
        ← List.append_assoc]
      rfl

/-- Two chains hold the same blocks, whatever their classes. -/
def SameChain (c₁ c₂ : List Block) : Prop := c₁.map Block.toValue = c₂.map Block.toValue

theorem SameChain.length_eq {c₁ c₂ : List Block} (h : SameChain c₁ c₂) :
    c₁.length = c₂.length := by
  have := congrArg List.length h
  simpa using this

/-- The chain after the restore callback on a fresh node. -/
def restoredChain (docs : List Block) : List Block :=
  createGenesisBlock :: docs.map Node.restoreBlock

/-- The restore callback runs after the callbacks `early` and before the
    callbacks `late`, the last of which decides. -/
def restoreFirst (cfg : Config E ι) (docs : List Block) (early late : List (Option (List Block))) :
    Node E :=
  (((Node.new cfg).callbacks cfg early).restore docs).node.callbacks cfg late

/-- The restore callback runs after all callbacks of `startup`. -/
def decideFirst (cfg : Config E ι) (docs : List Block) (bodies : List (Option (List Block))) :
    Node E :=
  (((Node.new cfg).callbacks cfg bodies).restore docs).node

/-- The responses among the bodies of the callbacks. -/
def responsesOf (bodies : List (Option (List Block))) : List (List Block) :=
  bodies.flatMap Option.toList

/-- Restoring first, the decision is between the restored chain and the
    responses. -/
theorem restoreFirst_chain {docs : List Block} {early late : List (Option (List Block))}
    (hlate : late ≠ []) (hall : (early ++ late).length = cfg.neighborNodeList.length) :
    (restoreFirst cfg docs early late).chain =
      startupChoice (restoredChain docs) (responsesOf (early ++ late)) := by
  rw [List.length_append] at hall
  have hpos := List.length_pos_iff.mpr hlate
  have hi : (Node.new cfg).i = 0 := rfl
  have hearly : (Node.new cfg).i + early.length < cfg.neighborNodeList.length := by omega
  obtain ⟨hchain, hcount, hlist⟩ := Node.callbacks_early hearly
  unfold restoreFirst
  rw [Node.callbacks_all hlate ?_]
  · show startupChoice (((Node.new cfg).callbacks cfg early).chain ++ _)
      (((Node.new cfg).callbacks cfg early).neighborNodeResponseList ++ _) = _
    rw [hchain, hlist, List.append_assoc, ← List.flatMap_append]
    rfl
  · show ((Node.new cfg).callbacks cfg early).i + late.length = _
    omega

/-- Deciding first, the restored blocks are appended to what was chosen. -/
theorem decideFirst_chain {docs : List Block} {bodies : List (Option (List Block))}
    (hne : bodies ≠ []) (hall : bodies.length = cfg.neighborNodeList.length) :
    (decideFirst cfg docs bodies).chain =
      startupChoice [createGenesisBlock] (responsesOf bodies) ++ docs.map Node.restoreBlock := by
  show ((Node.new cfg).callbacks cfg bodies).chain ++ _ = _
  have hi : (Node.new cfg).i = 0 := rfl
  rw [Node.callbacks_all hne (by omega)]
  rfl

/-- The decision picks the node's own chain or one of the responses. -/
theorem startupChoice_mem {own : List Block} (hown : own ≠ []) (responses : List (List Block)) :
    startupChoice own responses ∈ own :: responses := by
  unfold startupChoice
  split
  · exact List.mem_cons_self
  · next hge =>
    have hpos := List.length_pos_iff.mpr hown
    rcases Node.longest_mem responses with hnil | hmem
    · rw [hnil] at hge
      exact absurd hpos hge
    · exact List.mem_cons_of_mem _ hmem

/-- Nothing but the genesis block was received: no response has two blocks,
    and the first that has one holds the genesis block. -/
def OnlyGenesis (responses : List (List Block)) : Prop :=
  (∀ r ∈ responses, r.length ≤ 1) ∧
    ∀ r, responses.find? (fun r => !r.isEmpty) = some r → SameChain r [createGenesisBlock]

/-- In terms of the loop of the decision: it finds nothing, or the genesis
    block. -/
theorem onlyGenesis_iff {responses : List (List Block)} :
    OnlyGenesis responses ↔ Node.maxNeighborNodeBodyList responses = [] ∨
      SameChain (Node.maxNeighborNodeBodyList responses) [createGenesisBlock] := by
  have hle : ∀ r ∈ responses, r.length ≤ (Node.maxNeighborNodeBodyList responses).length :=
    fun r hr => Longest.le_pick List.length [] responses r (List.mem_cons_of_mem _ hr)
  have hpick := Longest.pick_first List.length [] responses
  rw [show Longest.pick List.length [] responses = Node.maxNeighborNodeBodyList responses from rfl]
    at hpick
  generalize Node.maxNeighborNodeBodyList responses = longest at hle hpick ⊢
  rcases hpick with rfl | ⟨l₁, l₂, hl, hbeats⟩
  · -- all responses are empty
    refine iff_of_true ⟨?_, ?_⟩ (.inl rfl)
    · intro r hr
      exact Nat.le_succ_of_le (hle r hr)
    · intro r hr
      have hmem := List.mem_of_find?_eq_some hr
      have hnil := List.length_eq_zero_iff.mp (Nat.le_zero.mp (hle r hmem))
      have hfound := List.find?_some hr
      simp [hnil] at hfound
  · have hpos : 0 < longest.length := hbeats [] List.mem_cons_self
    -- if no response has two blocks, the longest is the first that has one
    have hfirst (hshort : longest.length ≤ 1) :
        responses.find? (fun r => !r.isEmpty) = some longest := by
      rw [List.find?_eq_some_iff_append]
      refine ⟨by simpa using List.length_pos_iff.mp hpos, l₁, l₂, hl, ?_⟩
      intro q hq
      have hlt := hbeats q (List.mem_cons_of_mem _ hq)
      have hnil : q = [] := List.length_eq_zero_iff.mp (by omega)
      simp [hnil]
    constructor
    · rintro ⟨hshort, hsame⟩
      have hmem : longest ∈ responses := by simp [hl]
      exact .inr (hsame longest (hfirst (hshort longest hmem)))
    · rintro (hnil | hsame)
      · simp [hnil] at hpos
      · have hone : longest.length = 1 := hsame.length_eq
        refine ⟨fun r hr => hone ▸ hle r hr, ?_⟩
        intro r hr
        rw [hfirst (by omega), Option.some.injEq] at hr
        exact hr ▸ hsame

/-- **Restore and startup commute only if one has nothing to write.** The two
    orders leave the same chain, and that is the restored chain or a received
    one, if and only if the database is empty or nothing but the genesis block
    was received. -/
theorem restore_startup_commute_iff (docs : List Block)
    (early late : List (Option (List Block))) (hlate : late ≠ [])
    (hall : (early ++ late).length = cfg.neighborNodeList.length) :
    (SameChain (restoreFirst cfg docs early late).chain
        (decideFirst cfg docs (early ++ late)).chain ∧
      ∃ c ∈ restoredChain docs :: responsesOf (early ++ late),
        SameChain (restoreFirst cfg docs early late).chain c) ↔
    docs = [] ∨ OnlyGenesis (responsesOf (early ++ late)) := by
  have hlen : (restoredChain docs).length = docs.length + 1 := by
    simp [restoredChain]
  have hne : restoredChain docs ≠ [] := List.cons_ne_nil _ _
  have hmem := startupChoice_mem hne (responsesOf (early ++ late))
  rw [restoreFirst_chain hlate hall, decideFirst_chain (by simp [hlate]) hall, onlyGenesis_iff]
  have hchoice : ∃ c ∈ restoredChain docs :: responsesOf (early ++ late),
      SameChain (startupChoice (restoredChain docs) (responsesOf (early ++ late))) c :=
    ⟨_, hmem, rfl⟩
  rw [and_iff_left hchoice]
  unfold startupChoice
  generalize Node.maxNeighborNodeBodyList (responsesOf (early ++ late)) = longest
  rw [hlen, List.length_singleton]
  constructor
  · intro hsame
    by_contra hnone
    push Not at hnone
    obtain ⟨hdocs, hlongest, hgenesis⟩ := hnone
    have hdpos := List.length_pos_iff.mpr hdocs
    have hlpos := List.length_pos_iff.mpr hlongest
    rw [if_neg (show ¬ longest.length < 1 by omega)] at hsame
    by_cases hlt : longest.length < docs.length + 1
    · -- the restored chain was kept: one block was received
      rw [if_pos hlt] at hsame
      have hsize := hsame.length_eq
      rw [hlen, List.length_append, List.length_map] at hsize
      obtain ⟨b, rfl⟩ := List.length_eq_one_iff.mp (show longest.length = 1 by omega)
      exact hgenesis (congrArg (fun v => [v]) (List.cons.inj hsame).1.symm)
    · -- the response was adopted; in the other order it has blocks appended
      rw [if_neg hlt] at hsame
      have hsize := hsame.length_eq
      rw [List.length_append, List.length_map] at hsize
      omega
  · rintro (rfl | rfl | hgenesis)
    · simp [SameChain, restoredChain]
    · simp [SameChain, restoredChain]
    · obtain ⟨b, rfl⟩ := List.length_eq_one_iff.mp hgenesis.length_eq
      have hb : b.toValue = createGenesisBlock.toValue := (List.cons.inj hgenesis).1
      rw [if_neg (show ¬ [b].length < 1 by simp)]
      by_cases hdocs : docs = []
      · subst hdocs
        simp [SameChain]
      · have hdpos := List.length_pos_iff.mpr hdocs
        rw [if_pos (show [b].length < docs.length + 1 by simpa using hdpos)]
        simp [SameChain, restoredChain, hb]

/-- The equivalence for a node that saved a chain of two blocks and receives
    the genesis block: both orders leave the restored chain. -/
theorem restore_startup_commute_saved :
    ∃ (s : NodeState demoEnv Bool) (docs : List Block),
      Reachable (nodeSystem (demoConfig false)) s ∧
      docs = (saveBlockchainToDisk ⟨[]⟩ s.node.chain).documents ∧ docs.length = 2 ∧
      SameChain (restoreFirst (demoConfig false) docs [] [some [createGenesisBlock]]).chain
        (decideFirst (demoConfig false) docs [some [createGenesisBlock]]).chain ∧
      ∃ c ∈ restoredChain docs :: responsesOf [some [createGenesisBlock]],
        SameChain
          (restoreFirst (demoConfig false) docs [] [some [createGenesisBlock]]).chain c := by
  obtain ⟨s, _, hreach, hlen, _⟩ := demo_mined
  have hdocs : (saveBlockchainToDisk ⟨[]⟩ s.node.chain).documents.length = 2 := by
    rw [saveBlockchainToDisk_documents, List.length_map, hlen]
  have honly : OnlyGenesis (responsesOf [some [createGenesisBlock]]) := by
    refine ⟨by simp [responsesOf], ?_⟩
    intro r hr
    obtain rfl : [createGenesisBlock] = r := Option.some.inj hr
    rfl
  exact ⟨s, _, hreach, rfl, hdocs,
    (restore_startup_commute_iff _ [] [some [createGenesisBlock]] (List.cons_ne_nil _ _) rfl).mpr
      (.inr honly)⟩

/-- **Two chains in one.** A node saved a chain of two blocks, and its
    neighbour answers with a chain of two blocks.  If the restore callback
    runs first the node holds three blocks; if the decision runs first it
    holds four: the received chain followed by the restored blocks. -/
theorem restore_after_decision_appends :
    ∃ (s : NodeState demoEnv Bool) (docs body : List Block),
      Reachable (nodeSystem (demoConfig false)) s ∧
      docs = (saveBlockchainToDisk ⟨[]⟩ s.node.chain).documents ∧
      transportChain s.node.chain = .ok body ∧
      (restoreFirst (demoConfig false) docs [] [some body]).chain.length = 3 ∧
      (decideFirst (demoConfig false) docs [some body]).chain =
        body ++ docs.map Node.restoreBlock ∧
      ¬ SameChain (restoreFirst (demoConfig false) docs [] [some body]).chain
        (decideFirst (demoConfig false) docs [some body]).chain := by
  obtain ⟨s, body, hreach, hlen, htransport⟩ := demo_mined
  let docs := (saveBlockchainToDisk ⟨[]⟩ s.node.chain).documents
  have hdocs : docs.length = 2 := by
    show (saveBlockchainToDisk ⟨[]⟩ s.node.chain).documents.length = 2
    rw [saveBlockchainToDisk_documents, List.length_map, hlen]
  have hbody : body.length = 2 := by
    rw [(transportChain_ok htransport).1, hlen]
  have hlongest : Node.maxNeighborNodeBodyList [body] = body := by
    show (if 0 < body.length then body else []) = body
    rw [if_pos (by omega)]
  have hrestored : (restoredChain docs).length = 3 := by
    simp [restoredChain, hdocs]
  -- the restored chain is longer than the received one
  have hfirst : (restoreFirst (demoConfig false) docs [] [some body]).chain =
      restoredChain docs := by
    rw [restoreFirst_chain (List.cons_ne_nil _ _) rfl]
    show startupChoice (restoredChain docs) [body] = _
    unfold startupChoice
    rw [hlongest, if_pos (by omega)]
  -- the genesis block alone is not
  have hsecond : (decideFirst (demoConfig false) docs [some body]).chain =
      body ++ docs.map Node.restoreBlock := by
    rw [decideFirst_chain (List.cons_ne_nil _ _) rfl]
    show startupChoice [createGenesisBlock] [body] ++ _ = _
    unfold startupChoice
    rw [hlongest, if_neg (by simp [hbody])]
  refine ⟨s, docs, body, hreach, rfl, htransport, by rw [hfirst, hrestored], hsecond, ?_⟩
  intro hsame
  have hsize := hsame.length_eq
  rw [hfirst, hsecond, hrestored, List.length_append, List.length_map] at hsize
  omega

end XCoin
