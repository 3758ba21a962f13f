import XCoin.Framework.Segments
import XCoin.Model.Cluster
import XCoin.Network.Content
import XCoin.Network.Provenance

/-! # Links across restarts

    A restore appends whatever the collection holds, genesis block included,
    to whatever chain the node has by then; saves overlap, and a process may
    end in the middle of one.  Chains get several genesis blocks that way,
    and blocks lose their difficulties.

    What stays is the order: whatever is written to a database or read from
    it starts with a genesis block, and no block is ever separated from the
    block it was mined on.
-/

namespace XCoin

open Js LTS Throwing Segments

variable {E : Env} {ι H : Type} {cfgs : ι → Config E ι}

/-! ### Headers -/

/-- The fields of a block that survive saving and restoring. -/
structure Header where
  index        : Nat
  hash         : String
  previousHash : String
  timestamp    : Timestamp
  nonce        : Nat
deriving DecidableEq

def Block.header (b : Block) : Header :=
  ⟨b.index, b.hash, b.previousHash, b.timestamp, b.nonce⟩

@[simp] theorem Block.header_document (b : Block) : b.document.header = b.header := rfl

@[simp] theorem restoreBlock_header (b : Block) : (Node.restoreBlock b).header = b.header := rfl

theorem Block.transport_header {b b' : Block} (h : b.transport = .ok b') :
    b'.header = b.header := by
  obtain ⟨_, _, h⟩ := bind_eq_ok.mp h
  cases h
  rfl

theorem transportChain_headers {c c' : List Block} (h : transportChain c = .ok c') :
    c'.map Block.header = c.map Block.header := by
  induction c generalizing c' with
  | nil =>
    cases h
    rfl
  | cons b c ih =>
    obtain ⟨b', hb', h⟩ := bind_eq_ok.mp h
    obtain ⟨bs, hbs, h⟩ := bind_eq_ok.mp h
    cases h
    rw [List.map_cons, List.map_cons, Block.transport_header hb', ih hbs]

/-- The header of a block that was mined on a chain ending in a block with
    the header `x`. -/
def MinedAfter (E : Env) (x y : Header) : Prop :=
  ∃ c latest b, MinedOn E c b ∧ c.getLast? = some latest ∧ latest.header = x ∧ b.header = y

/-! ### Intact chains -/

/-- The chain consists of segments that start with a genesis block and in
    which every block was mined on the one before it. -/
def Intact (E : Env) (c : List Block) : Prop :=
  Segmented (· = createGenesisBlock.header) (MinedAfter E) (c.map Block.header)

namespace Intact

variable {c c' : List Block}

theorem genesis : Intact E [createGenesisBlock] := Segmented.singleton rfl

theorem congr (h : Intact E c) (hheaders : c'.map Block.header = c.map Block.header) :
    Intact E c' := by
  unfold Intact
  rw [hheaders]
  exact h

theorem append (h : Intact E c) (h' : Intact E c') : Intact E (c ++ c') := by
  unfold Intact
  rw [List.map_append]
  exact Segmented.append h h'

theorem take (h : Intact E c) (k : Nat) : Intact E (c.take k) := by
  unfold Intact
  rw [List.map_take]
  exact Segmented.take h k

theorem push {b : Block} (h : Intact E c) (hmined : MinedOn E c b) : Intact E (c ++ [b]) := by
  obtain ⟨latest, hlast, _⟩ := hmined.linked
  have hlast' : (c.map Block.header).getLast? = some latest.header := by
    rw [List.getLast?_map, hlast, Option.map_some]
  unfold Intact
  rw [List.map_append]
  exact Segmented.push h hlast' ⟨c, latest, b, hmined, hlast, rfl, rfl⟩

theorem document (h : Intact E c) : Intact E (c.map Block.document) :=
  h.congr (by simp [Function.comp_def])

theorem restoreBlock (h : Intact E c) : Intact E (c.map Node.restoreBlock) :=
  h.congr (by simp [Function.comp_def])

end Intact

/-- Chains of nodes have a genesis block at least. -/
def Proper (E : Env) (c : List Block) : Prop := c ≠ [] ∧ Intact E c

/-- Nodes keep chains intact, whatever is in their blocks. -/
theorem preserved_proper (cfgs : ι → Config E ι) (clock : List Block → Int → Prop)
    (asks : ι → String → Int → Prop) :
    Preserved cfgs clock asks (Proper E) fun _ => True where
  genesis := ⟨by simp, .genesis⟩
  trigger := trivial
  requested := fun _ _ _ _ _ _ _ _ => trivial
  stranded := fun _ _ _ _ _ _ _ _ _ _ => trivial
  mined := by
    intro p bc coinBase b date _ hchain _ _ hmined _ _ _
    exact ⟨by simp, hchain.2.push hmined⟩
  sentChain := by
    intro c c' hc hsent
    refine ⟨?_, hc.2.congr (transportChain_headers hsent)⟩
    rw [← List.length_pos_iff, (transportChain_ok hsent).1, List.length_pos_iff]
    exact hc.1
  sent := fun _ _ _ _ => trivial

/-! ### Everything in a cluster -/

/-- The blocks stand somewhere in the cluster, in this order. -/
inductive Cluster.HasChain (s : Cluster E ι H) : List Block → Prop where
  | network (c : List Block) (h : s.network.HasChain c) : HasChain s c
  /-- The argument of a call. -/
  | array (saving : Saving ι) (c : List Block) (hmem : saving ∈ s.savings)
      (h : saving.array = some c) : HasChain s c
  /-- What a call inserts. -/
  | issued (saving : Saving ι) (c : List Block) (rest : List Command)
      (hmem : saving ∈ s.savings) (h : saving.issued = some (c, rest)) : HasChain s c
  | database (h : H) : HasChain s (s.databases h).documents
  /-- What a query has found. -/
  | found (p : ι) (c : List Block) (h : s.queries p = .found c) : HasChain s c

/-- What a call saves is intact. -/
structure Saving.Holds (E : Env) (saving : Saving ι) : Prop where
  array  : ∀ c ∈ saving.array, Intact E c
  issued : ∀ x ∈ saving.issued, Intact E x.1

/-- Everything the cluster holds is intact. -/
structure Cluster.Holds (cfgs : ι → Config E ι) (s : Cluster E ι H) : Prop where
  network   : s.network.Holds cfgs (Proper E) fun _ => True
  savings   : ∀ saving ∈ s.savings, saving.Holds E
  queries   : ∀ p c, s.queries p = .found c → Intact E c
  databases : ∀ h, Intact E (s.databases h).documents

theorem Cluster.Holds.hasChain {s : Cluster E ι H} (h : s.Holds cfgs) {c : List Block}
    (hc : s.HasChain c) : Intact E c := by
  cases hc with
  | network _ hc => exact (h.network.hasChain hc).2
  | array saving _ hmem hc => exact (h.savings saving hmem).array c hc
  | issued saving _ rest hmem hc => exact (h.savings saving hmem).issued _ hc
  | database m => exact h.databases m
  | found p _ hc => exact h.queries p c hc

theorem Command.intact_carryOut {blockchain : List Block} {db : Database} (command : Command)
    (count : Nat) (h : Intact E blockchain) (hdb : Intact E db.documents) :
    Intact E (command.carryOut blockchain count db).documents := by
  cases command with
  | deleteMany => exact Segmented.nil
  | createCollection => exact hdb
  | insertMany => exact hdb.append (h.take count).document

section steps

variable [DecidableEq ι]

theorem Saving.Holds.keep {saving : Saving ι} {chain : List Block} (h : saving.Holds E) (p : ι)
    (hchain : Intact E chain) : (saving.keep p chain).Holds E := by
  unfold Saving.keep
  split
  · refine ⟨?_, h.issued⟩
    intro c hc
    obtain rfl : chain = c := by simpa using hc
    exact hchain
  · exact h

/-- An event leaves only intact arrays to the calls. -/
theorem holds_savingsAfter {cfg : Config E ι} {p : ι} {n : Node E} {ev : Event ι}
    {savings : List (Saving ι)} (h : ∀ saving ∈ savings, saving.Holds E)
    (hn : Intact E n.chain) : ∀ saving ∈ savingsAfter cfg p n ev savings, saving.Holds E := by
  intro saving hmem
  rcases List.mem_append.mp hmem with hmem | hmem
  · split at hmem
    · obtain ⟨old, hold, rfl⟩ := List.mem_map.mp hmem
      exact (h old hold).keep p hn
    · exact h saving hmem
  · -- a new call has the array of its node
    obtain ⟨_, _, rfl⟩ := List.mem_map.mp hmem
    exact ⟨by simp, by simp⟩

theorem Cluster.Holds.saved {s : Cluster E ι H} (h : s.Holds cfgs) (a : Action ι) :
    ∀ saving ∈ s.saved cfgs a, saving.Holds E := by
  unfold Cluster.saved
  split
  · next p ev _ => exact holds_savingsAfter h.savings (h.network.nodes p).chain.2
  · exact h.savings

/-- The process that is started holds the genesis block, and what it asks for
    carries no chain. -/
theorem Network.Holds.restart {s : Network E ι} (h : s.Holds cfgs (Proper E) fun _ => True)
    (p : ι) : (s.restart cfgs p).Holds cfgs (Proper E) fun _ => True := by
  constructor
  · apply (Function.forall_update_iff s.nodes fun q n => n.Holds (cfgs q) _ _).mpr
    have hnew := (preserved_proper cfgs (fun _ _ => True) fun _ _ _ => True).holds_new p
    exact ⟨hnew, fun q _ => h.nodes q⟩
  · intro m hm
    rcases List.mem_append.mp hm with hm | hm
    · exact h.messages m (List.mem_of_mem_filter hm)
    · obtain ⟨q, _, rfl⟩ := List.mem_map.mp hm
      trivial

/-- The restored blocks are appended. -/
theorem Network.Holds.restore {s s' : Network E ι} {p : ι} {result : List Block}
    (h : s.Holds cfgs (Proper E) fun _ => True) (hresult : Intact E result)
    (hhandles : s.Handles cfgs p (.restore result) s.messages s') :
    s'.Holds cfgs (Proper E) fun _ => True := by
  obtain ⟨r, n', effects, hhandle, rfl⟩ := hhandles
  cases hhandle
  have hold := h.nodes p
  constructor
  · apply (Function.forall_update_iff s.nodes fun q n => n.Holds (cfgs q) _ _).mpr
    have hchain : Proper E ((s.nodes p).chain ++ result.map Node.restoreBlock) :=
      ⟨by simp [hold.chain.1], hold.chain.2.append hresult.restoreBlock⟩
    refine ⟨?_, fun q _ => h.nodes q⟩
    exact ⟨hchain, hold.pending, hold.responses, ⟨hold.setUp.reward, hold.setUp.key⟩⟩
  · intro m hm
    rw [List.flatMap_nil, List.append_nil] at hm
    exact h.messages m hm

/-- The query of one node moves on. -/
theorem Cluster.Holds.found_update {s : Cluster E ι H} (h : s.Holds cfgs) (p : ι) {query : Query}
    (hquery : ∀ c, query = .found c → Intact E c) :
    ∀ q c, Function.update s.queries p query q = .found c → Intact E c :=
  (Function.forall_update_iff s.queries fun _ query => ∀ c, query = .found c → Intact E c).mpr
    ⟨hquery, fun q _ => h.queries q⟩

variable [DecidableEq H] {host : ι → H} {s s' : Cluster E ι H}

/-- **Step lemma**: whatever happens in a cluster, everything stays intact. -/
theorem Cluster.Step.holds {a : ClusterAction ι} (h : Cluster.Step cfgs host s a s')
    (hs : s.Holds cfgs) : s'.Holds cfgs := by
  cases h with
  | network a network' hstep =>
    have hnetwork : network'.Holds cfgs (Proper E) fun _ => True := by
      apply (preserved_proper cfgs (fun _ _ => True) fun _ _ _ => True).step hs.network
        (fun p => (hs.network.nodes p).chain.1) (Action.byClock_true _ a) _ hstep
      cases a <;> trivial
    exact ⟨hnetwork, hs.saved a, hs.queries, hs.databases⟩
  | connect k saving hsaving hopen =>
    refine ⟨hs.network, ?_, hs.queries, hs.databases⟩
    have hold := hs.savings saving (List.mem_of_getElem? hsaving)
    intro new hnew
    rcases List.mem_or_eq_of_mem_set hnew with hnew | rfl
    · exact hs.savings new hnew
    · refine ⟨hold.array, ?_⟩
      intro x hx
      obtain rfl := Option.some.inj hx
      -- the array is the one that was replaced, or the chain of the node
      show Intact E (saving.array.getD (s.network.nodes saving.node).chain)
      cases harray : saving.array with
      | some chain => exact hold.array chain harray
      | none => exact (hs.network.nodes saving.node).chain.2
  | completed k command count saving blockchain remaining hsaving hissued hcommand =>
    have hold := hs.savings saving (List.mem_of_getElem? hsaving)
    have hblocks : Intact E blockchain := hold.issued _ hissued
    refine ⟨hs.network, ?_, hs.queries, ?_⟩
    · intro new hnew
      rcases List.mem_or_eq_of_mem_set hnew with hnew | rfl
      · exact hs.savings new hnew
      · refine ⟨hold.array, ?_⟩
        intro x hx
        obtain rfl := Option.some.inj hx
        exact hblocks
    · apply (Function.forall_update_iff s.databases fun _ db => Intact E db.documents).mpr
      have hdb := hs.databases (host saving.node)
      exact ⟨command.intact_carryOut count hblocks hdb, fun m _ => hs.databases m⟩
  | restart p =>
    refine ⟨hs.network.restart p, ?_, ?_, hs.databases⟩
    · intro saving hmem
      exact hs.savings saving (List.mem_of_mem_filter hmem)
    · exact hs.found_update p nofun
  | query p hwaiting =>
    refine ⟨hs.network, hs.savings, ?_, hs.databases⟩
    apply hs.found_update
    intro c hc
    cases hc
    exact hs.databases (host p)
  | restore p result network' hresult hhandles =>
    have hnetwork := hs.network.restore (hs.queries p result hresult) hhandles
    exact ⟨hnetwork, hs.savings, hs.found_update p nofun, hs.databases⟩

/-- Everything a cluster ever holds is intact. -/
theorem holds_of_reachable {names : List ι} (h : Reachable (clusterSystem names cfgs host) s) :
    s.Holds cfgs := by
  refine h.invariant ?_ ?_
  · intro s hs
    rw [show s = .new names cfgs from hs]
    refine ⟨?_, by simp [Cluster.new], by simp [Cluster.new], fun _ => Segmented.nil⟩
    exact (preserved_proper cfgs (fun _ _ => True) fun _ _ _ => True).of_reachable
      (clockSystem_of_reachable (.init rfl))
  · intro s a s' _ hs hstep
    exact Cluster.Step.holds hstep hs

/-- **No block leaves the block it was mined on.** Nodes crash, restart, save
    and restore in any order, and saves overlap with each other and with
    restarts.  Still, in every chain that is anywhere in the cluster, at a
    node, on its way, in a save, in a database or in the result of a query,
    every block is a genesis block or stands right behind a block that its
    header was mined on. -/
theorem cluster_links_survive {names : List ι}
    (h : Reachable (clusterSystem names cfgs host) s) {chain : List Block}
    (hchain : s.HasChain chain) {i : Nat} {b : Block} (hb : chain[i]? = some b) :
    b.header = createGenesisBlock.header ∨
      ∃ j prev, i = j + 1 ∧ chain[j]? = some prev ∧ MinedAfter E prev.header b.header := by
  have hintact : Intact E chain := (holds_of_reachable h).hasChain hchain
  have hb' : (chain.map Block.header)[i]? = some b.header := by
    rw [List.getElem?_map, hb, Option.map_some]
  rcases hintact.at_position hb' with hroot | ⟨j, x, hij, hx, hmined⟩
  · exact .inl hroot
  · rw [List.getElem?_map, Option.map_eq_some_iff] at hx
    obtain ⟨prev, hprev, rfl⟩ := hx
    exact .inr ⟨j, prev, hij, hprev, hmined⟩

end steps

/-! ### Running actions one after the other -/

/-- The network with empty records. -/
def Network.untraced (s : Network E ι) : Traced E ι where
  nodes    := s.nodes
  origins  := fun _ => .new
  messages := s.messages.map fun m => (m.1, m.2, ⟨none, none⟩)
  created  := []

@[simp] theorem Network.erase_untraced (s : Network E ι) : s.untraced.erase = s := by
  simp [Network.untraced, Traced.erase, Function.comp_def]

section computed

variable [DecidableEq ι] [DecidableEq H] {host : ι → H} {s s' : Cluster E ι H}

/-- The state after an action; those of the network name messages by their
    position. -/
def Cluster.exec (cfgs : ι → Config E ι) (host : ι → H) (s : Cluster E ι H) :
    TracedAction ι ⊕ ClusterAction ι → Option (Cluster E ι H)
  | .inl a =>
      (a.plain s.network.untraced).bind fun b =>
        (a.exec cfgs s.network.untraced).map fun t =>
          { s with network := t.erase, savings := s.saved cfgs b }
  | .inr (.network _) => none
  | .inr (.connect k) =>
      match s.savings[k]? with
      | some ⟨p, array, none⟩ =>
          some { s with
            savings := s.savings.set k
              ⟨p, array, some (array.getD (s.network.nodes p).chain, Command.issued)⟩ }
      | _ => none
  | .inr (.completed k command count) =>
      match s.savings[k]? with
      | some ⟨p, array, some (blockchain, remaining)⟩ =>
          if command ∈ remaining then
            some { s with
              savings   := s.savings.set k
                ⟨p, array, some (blockchain, remaining.erase command)⟩
              databases := Function.update s.databases (host p)
                (command.carryOut blockchain count (s.databases (host p))) }
          else none
      | _ => none
  | .inr (.restart p) =>
      some { s with
        network := s.network.restart cfgs p
        savings := s.savings.filter fun saving =>
          decide (saving.node ≠ p) || saving.issued.isSome
        queries := Function.update s.queries p .waiting }
  | .inr (.query p) =>
      match s.queries p with
      | .waiting =>
          some { s with
            queries := Function.update s.queries p (.found (s.databases (host p)).documents) }
      | _ => none
  | .inr (.restore p) =>
      match s.queries p with
      | .found result =>
          let node := ((s.network.nodes p).restore result).node
          some { s with
            network := { s.network with nodes := Function.update s.network.nodes p node }
            queries := Function.update s.queries p .done }
      | _ => none

theorem Cluster.Step.of_exec {l : TracedAction ι ⊕ ClusterAction ι}
    (h : s.exec cfgs host l = some s') : ∃ a, Cluster.Step cfgs host s a s' := by
  cases l with
  | inl a =>
    obtain ⟨b, hb, h⟩ := Option.bind_eq_some_iff.mp h
    obtain ⟨t, ht, rfl⟩ := Option.map_eq_some_iff.mp h
    have hstep := TracedAction.exec_erase ht hb
    rw [Network.erase_untraced] at hstep
    exact ⟨.network b, .network b t.erase hstep⟩
  | inr a =>
    refine ⟨a, ?_⟩
    cases a with
    | network a => cases h
    | connect k =>
      simp only [Cluster.exec] at h
      split at h
      · next p array hsaving =>
        cases h
        exact .connect k _ hsaving rfl
      · cases h
    | completed k command count =>
      simp only [Cluster.exec] at h
      split at h
      · next p array blockchain remaining hsaving =>
        split at h
        · next hcommand =>
          cases h
          exact .completed k command count _ blockchain remaining hsaving rfl hcommand
        · cases h
      · cases h
    | restart p =>
      cases h
      exact .restart p
    | query p =>
      simp only [Cluster.exec] at h
      split at h
      · next hwaiting =>
        cases h
        exact .query p hwaiting
      · cases h
    | restore p =>
      simp only [Cluster.exec] at h
      split at h
      · next result hfound =>
        cases h
        exact .restore p result _ hfound ⟨.ok (), _, [], rfl, by simp [Node.restore]⟩
      · cases h

/-- What can be computed is reachable. -/
theorem reachable_of_exec {names : List ι} {ls : List (TracedAction ι ⊕ ClusterAction ι)}
    (h : execList (Cluster.exec cfgs host) (.new names cfgs) ls = some s) :
    Reachable (clusterSystem names cfgs host) s := by
  let sys : System (Cluster E ι H) (TracedAction ι ⊕ ClusterAction ι) :=
    ⟨fun s => s = .new names cfgs, fun s l t => s.exec cfgs host l = some t⟩
  have hcomputed : ∃ tr, Run sys (.new names cfgs) tr s ∧ tr.map (·.label) = ls :=
    Run.of_execList (fun _ _ _ hexec => hexec) h
  obtain ⟨tr, hrun, _⟩ := hcomputed
  have hreach : Reachable sys s := hrun.reachable (.init rfl)
  refine hreach.invariant (fun s hs => .init hs) ?_
  intro s l t _ hs hstep
  obtain ⟨a, ha⟩ := Cluster.Step.of_exec hstep
  exact .step a hs ha

end computed

/-- A node mines the transfer of its neighbour, saves its chain and is
    restarted: its block stands behind a second genesis block, and was mined
    on that. -/
theorem cluster_links_survive_restored :
    ∃ (s : Cluster demoEnv Bool Unit) (b : Block),
      Reachable (clusterSystem [false, true] demoConfig fun _ => ()) s ∧
      (s.network.nodes false).chain.length = 3 ∧
      (s.network.nodes false).chain[2]? = some b ∧ b.index = 1 ∧
      ∃ j prev, 2 = j + 1 ∧ (s.network.nodes false).chain[j]? = some prev ∧
        MinedAfter demoEnv prev.header b.header := by
  have hfinal : (execList (Cluster.exec demoConfig fun _ => ()) (.new [false, true] demoConfig)
      [.inl (.transactionRequest true (.str "04aa") (.num 5)), .inl (.deliver 2 7 1),
        .inr (.connect 0), .inr (.completed 0 .deleteMany 0),
        .inr (.completed 0 .createCollection 0), .inr (.completed 0 .insertMany 2),
        .inr (.restart false), .inr (.query false), .inr (.restore false)]).map
      (fun s => (s.network.nodes false).chain.map Block.index) = some [0, 0, 1] := by
    decide +kernel
  obtain ⟨s, hs, hindices⟩ := Option.map_eq_some_iff.mp hfinal
  have hreach := reachable_of_exec hs
  have hlen : (s.network.nodes false).chain.length = 3 := by
    simpa using congrArg List.length hindices
  obtain ⟨b, hb⟩ : ∃ b, (s.network.nodes false).chain[2]? = some b :=
    ⟨_, List.getElem?_eq_getElem (by rw [hlen]; decide)⟩
  have hindex : b.index = 1 := by
    have h := congrArg (·[2]?) hindices
    simpa [List.getElem?_map, hb] using h
  refine ⟨s, b, hreach, hlen, hb, hindex, ?_⟩
  rcases cluster_links_survive hreach (.network _ (.node false)) hb with hgenesis | hmined
  · have h : b.index = 0 := congrArg Header.index hgenesis
    omega
  · exact hmined

end XCoin
