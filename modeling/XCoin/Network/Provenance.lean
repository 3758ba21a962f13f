import Mathlib.Data.List.InsertIdx
import XCoin.Model.Provenance
import XCoin.Node.Coinbase
import XCoin.Network.Validity

/-! # The traced network and the network

    Records neither enable nor prevent anything: without them, the steps of
    the traced network are the steps of the network, in both directions.

    And the records are right: they have an entry for every transaction of
    every chain.  An entry with a number stands where the transaction of that
    request is, itself or as it arrives when it is sent, and an entry without
    one where the sender is `null`, as in no transaction a request creates
    (`Aligned`).
-/

namespace XCoin

open Js LTS

variable {E : Env} {ι : Type} {cfgs : ι → Config E ι}

/-! ### Without the records -/

/-- The action of the network, if the request is one of those considered
    there. -/
def TracedAction.plain (s : Traced E ι) : TracedAction ι → Option (Action ι)
  | .triggerMineBlock p date fuel => some (.triggerMineBlock p date fuel)
  | .transactionRequest p receiver amount =>
      match receiver, amount with
      | .str receiver, .num amount =>
          if receiver = "" then none else some (.transactionRequest p receiver amount)
      | _, _ => none
  | .answer k =>
      match s.messages[k]? with
      | some (p, .getBlocks asker, _) => some (.answer p asker)
      | _ => none
  | .fail k =>
      match s.messages[k]? with
      | some (p, .getBlocks asker, _) => some (.fail p asker)
      | _ => none
  | .lose k => s.messages[k]?.map fun m => .lose m.1 m.2.1
  | .deliver k date fuel =>
      s.messages[k]?.map fun m => .deliver m.1 m.2.1 date fuel

/-- A list without its `k`-th entry. -/
theorem eraseIdx_split {α : Type} {l : List α} {k : Nat} {x : α} (h : l[k]? = some x) :
    l = l.take k ++ x :: l.drop (k + 1) ∧ l.eraseIdx k = l.take k ++ l.drop (k + 1) := by
  obtain ⟨hk, rfl⟩ := List.getElem?_eq_some_iff.mp h
  refine ⟨?_, List.eraseIdx_eq_take_drop_succ _ _⟩
  rw [List.getElem_cons_drop, List.take_append_drop]

/-- The message at a position, and the messages before and behind it. -/
theorem Traced.erase_messages {s : Traced E ι} {k : Nat} {p : ι} {m : Message ι} {cargo : Cargo}
    (h : s.messages[k]? = some (p, m, cargo)) :
    ∃ l₁ l₂, s.erase.messages = l₁ ++ (p, m) :: l₂ ∧
      (s.messages.eraseIdx k).map (fun m => (m.1, m.2.1)) = l₁ ++ l₂ := by
  obtain ⟨hsplit, herase⟩ := eraseIdx_split h
  refine ⟨(s.messages.take k).map fun m => (m.1, m.2.1),
    (s.messages.drop (k + 1)).map fun m => (m.1, m.2.1), ?_, ?_⟩
  · show s.messages.map _ = _
    conv_lhs => rw [hsplit]
    simp
  · rw [herase, List.map_append]

/-- A message of the network has its place in the traced one. -/
theorem Traced.exists_message {s : Traced E ι} {p : ι} {m : Message ι}
    {l₁ l₂ : List (ι × Message ι)} (h : s.erase.messages = l₁ ++ (p, m) :: l₂) :
    ∃ k cargo, s.messages[k]? = some (p, m, cargo) ∧
      (s.messages.eraseIdx k).map (fun m => (m.1, m.2.1)) = l₁ ++ l₂ := by
  have hget : (s.messages.map fun m => (m.1, m.2.1))[l₁.length]? = some (p, m) := by
    show s.erase.messages[l₁.length]? = _
    simp [h]
  rw [List.getElem?_map, Option.map_eq_some_iff] at hget
  obtain ⟨⟨p', m', cargo⟩, hmessage, heq⟩ := hget
  cases heq
  refine ⟨l₁.length, cargo, hmessage, ?_⟩
  rw [← List.eraseIdx_map]
  show s.erase.messages.eraseIdx l₁.length = _
  rw [h, List.eraseIdx_append_of_length_le (Nat.le_refl _)]
  simp

section steps

variable [DecidableEq ι]

/-- An event is handled the same way with the records and without them. -/
theorem Traced.react_erase {s s' : Traced E ι} {p : ι} {ev : Event ι} {cargo : Cargo}
    {rest : List (ι × Message ι × Cargo)} (h : s.react cfgs p ev cargo rest = some s') :
    s.erase.Handles cfgs p ev (rest.map fun m => (m.1, m.2.1)) s'.erase := by
  obtain ⟨⟨result, n', effects⟩, hhandle, rfl⟩ := Option.map_eq_some_iff.mp h
  refine ⟨result, n', effects, hhandle, ?_⟩
  simp [Traced.erase, List.map_flatMap, Function.comp_def]

/-- And whatever is handled without them can be handled with them. -/
theorem Traced.exists_react {s : Traced E ι} {t : Network E ι} {p : ι} {ev : Event ι}
    {rest : List (ι × Message ι × Cargo)} (cargo : Cargo)
    (h : s.erase.Handles cfgs p ev (rest.map fun m => (m.1, m.2.1)) t) :
    ∃ s', s.react cfgs p ev cargo rest = some s' ∧ s'.erase = t := by
  obtain ⟨result, n', effects, hhandle, rfl⟩ := h
  have hhandle' : (s.nodes p).handle (cfgs p) ev = some ⟨result, n', effects⟩ := hhandle
  refine ⟨_, by rw [Traced.react, hhandle', Option.map_some], ?_⟩
  simp [Traced.erase, List.map_flatMap, Function.comp_def]

/-- **Records change nothing, one way**: without them, a step of the traced
    network is a step of the network. -/
theorem TracedAction.exec_erase {s s' : Traced E ι} {a : TracedAction ι} {b : Action ι}
    (h : a.exec cfgs s = some s') (hb : a.plain s = some b) :
    Network.Step cfgs s.erase b s'.erase := by
  cases a with
  | triggerMineBlock p date fuel =>
    cases hb
    exact .triggerMineBlock p date fuel _ (Traced.react_erase h)
  | transactionRequest p receiver amount =>
    simp only [TracedAction.plain] at hb
    split at hb
    · next receiver amount =>
      split at hb
      · cases hb
      · next hne =>
        cases hb
        exact .transactionRequest p receiver amount _ hne (Traced.react_erase h)
    · cases hb
  | answer k =>
    obtain ⟨p, asker, cargo, body, hmessage, hbody, rfl⟩ := TracedAction.exec_answer h
    simp only [TracedAction.plain, hmessage] at hb
    cases hb
    obtain ⟨l₁, l₂, hsplit, hrest⟩ := Traced.erase_messages hmessage
    have hstep : Network.Step cfgs _ _ _ := .answer p asker body l₁ l₂ hsplit hbody
    simpa [Traced.erase, ← hrest] using hstep
  | fail k =>
    obtain ⟨p, asker, cargo, hmessage, rfl⟩ := TracedAction.exec_fail h
    simp only [TracedAction.plain, hmessage] at hb
    cases hb
    obtain ⟨l₁, l₂, hsplit, hrest⟩ := Traced.erase_messages hmessage
    have hstep : Network.Step cfgs _ _ _ := .fail p asker l₁ l₂ hsplit
    simpa [Traced.erase, ← hrest] using hstep
  | lose k =>
    obtain ⟨p, message, cargo, hmessage, hpost, rfl⟩ := TracedAction.exec_lose h
    simp only [TracedAction.plain, hmessage] at hb
    cases hb
    obtain ⟨l₁, l₂, hsplit, hrest⟩ := Traced.erase_messages hmessage
    have hstep : Network.Step cfgs _ _ _ := .lose p message l₁ l₂ hsplit hpost
    simpa [Traced.erase, ← hrest] using hstep
  | deliver k date fuel =>
    obtain ⟨p, message, cargo, ev, hmessage, hevent, hreact⟩ := TracedAction.exec_deliver h
    simp only [TracedAction.plain, hmessage] at hb
    cases hb
    obtain ⟨l₁, l₂, hsplit, hrest⟩ := Traced.erase_messages hmessage
    have hhandles := Traced.react_erase hreact
    rw [hrest] at hhandles
    exact .deliver p message ev date fuel l₁ l₂ _ hsplit hevent hhandles

/-- **Records change nothing, the other way**: every step of the network is a
    step of the traced network. -/
theorem Network.Step.exists_exec {s : Traced E ι} {b : Action ι} {t : Network E ι}
    (h : Network.Step cfgs s.erase b t) :
    ∃ a s', TracedAction.exec cfgs s a = some s' ∧ a.plain s = some b ∧ s'.erase = t := by
  cases h with
  | triggerMineBlock p date fuel _ h =>
    obtain ⟨s', hreact, rfl⟩ := Traced.exists_react ⟨none, none⟩ h
    exact ⟨.triggerMineBlock p date fuel, s', hreact, rfl, rfl⟩
  | transactionRequest p receiver amount _ hne h =>
    obtain ⟨s', hreact, rfl⟩ := Traced.exists_react ⟨none, none⟩ h
    exact ⟨.transactionRequest p (.str receiver) (.num amount), s', hreact,
      by simp [TracedAction.plain, hne], rfl⟩
  | answer p asker body l₁ l₂ hmessage hbody =>
    obtain ⟨k, cargo, hk, hrest⟩ := Traced.exists_message hmessage
    have hbody' : transportChain (s.nodes p).chain = .ok body := hbody
    have hexec : (TracedAction.answer k).exec cfgs s = some { s with
        messages := s.messages.eraseIdx k ++
          [(asker, .blocks p (some body), ⟨none, some (s.origins p).chain⟩)] } := by
      simp only [TracedAction.exec, hk, hbody']
    refine ⟨.answer k, _, hexec, by simp [TracedAction.plain, hk], ?_⟩
    simp [Traced.erase, hrest]
  | fail p asker l₁ l₂ hmessage =>
    obtain ⟨k, cargo, hk, hrest⟩ := Traced.exists_message hmessage
    have hexec : (TracedAction.fail k).exec cfgs s = some { s with
        messages := s.messages.eraseIdx k ++ [(asker, .blocks p none, ⟨none, none⟩)] } := by
      simp only [TracedAction.exec, hk]
    refine ⟨.fail k, _, hexec, by simp [TracedAction.plain, hk], ?_⟩
    simp [Traced.erase, hrest]
  | lose p message l₁ l₂ hmessage hpost =>
    obtain ⟨k, cargo, hk, hrest⟩ := Traced.exists_message hmessage
    have hexec : (TracedAction.lose k).exec cfgs s = some { s with
        messages := s.messages.eraseIdx k } := by
      simp only [TracedAction.exec, hk, hpost, if_true]
    refine ⟨.lose k, _, hexec, by simp [TracedAction.plain, hk], ?_⟩
    simp [Traced.erase, hrest]
  | deliver p message ev date fuel l₁ l₂ _ hmessage hevent h =>
    obtain ⟨k, cargo, hk, hrest⟩ := Traced.exists_message hmessage
    rw [← hrest] at h
    obtain ⟨s', hreact, rfl⟩ := Traced.exists_react cargo h
    refine ⟨.deliver k date fuel, s', ?_, by simp [TracedAction.plain, hk], rfl⟩
    simp only [TracedAction.exec, hk, hevent, Option.bind_some, hreact]

/-- The traced network, allowed only the requests that the network has. -/
def plainSystem (names : List ι) (cfgs : ι → Config E ι) : System (Traced E ι) (TracedAction ι) :=
  (tracedSystem names cfgs).restrict fun s a => (a.plain s).isSome = true

omit [DecidableEq ι] in
theorem Traced.erase_new (names : List ι) (cfgs : ι → Config E ι) :
    (Traced.new names cfgs).erase = Network.new names cfgs := by
  simp [Traced.erase, Traced.new, Network.new, Function.comp_def]

/-- **Records change nothing**: the network reaches exactly the states of the
    traced network, without their records. -/
theorem network_reachable_iff {names : List ι} {t : Network E ι} :
    Reachable (networkSystem names cfgs) t ↔
      ∃ s, Reachable (plainSystem names cfgs) s ∧ s.erase = t := by
  constructor
  · intro ht
    refine Reachable.simulate (R := fun t (s : Traced E ι) => s.erase = t) ?_ ?_ ht
    · intro t ht
      exact ⟨.new names cfgs, rfl, (Traced.erase_new names cfgs).trans ht.symm⟩
    · rintro _ b t s rfl hstep
      obtain ⟨a, s', hexec, hplain, hs'⟩ := hstep.exists_exec
      exact ⟨a, s', ⟨by simp [hplain], hexec⟩, hs'⟩
  · rintro ⟨s, hs, rfl⟩
    have hsim : ∃ t, Reachable (networkSystem names cfgs) t ∧ s.erase = t := by
      refine Reachable.simulate (R := fun (s : Traced E ι) t => s.erase = t) ?_ ?_ hs
      · intro s hs
        rw [show s = .new names cfgs from hs]
        exact ⟨_, rfl, Traced.erase_new names cfgs⟩
      · rintro s a s' _ rfl hstep
        obtain ⟨b, hb⟩ := Option.isSome_iff_exists.mp hstep.1
        exact ⟨b, s'.erase, TracedAction.exec_erase hstep.2 hb, rfl⟩
    obtain ⟨t, ht, rfl⟩ := hsim
    exact ht

/-- The state after a list of actions that the network has and that meet
    `ok`. -/
def execPlain (cfgs : ι → Config E ι) (ok : Network E ι → Action ι → Bool) (s : Traced E ι)
    (as : List (TracedAction ι)) : Option (Traced E ι) :=
  execList (fun s a => (a.plain s).bind fun b => if ok s.erase b then a.exec cfgs s else none) s as

/-- A list of actions that can be computed is a run of the network, from any
    state. -/
theorem run_of_execPlain_from (names : List ι) {ok : Network E ι → Action ι → Bool}
    {s₀ s : Traced E ι} {as : List (TracedAction ι)} (h : execPlain cfgs ok s₀ as = some s) :
    ∃ tr, Run ((networkSystem names cfgs).restrict fun s a => ok s a = true)
      s₀.erase tr s.erase := by
  let sys : System (Traced E ι) (TracedAction ι) :=
    { init := fun s => s = s₀
      step := fun s a s' => (∃ b, a.plain s = some b ∧ ok s.erase b = true) ∧
        a.exec cfgs s = some s' }
  have hcomputed : ∃ tr, Run sys s₀ tr s ∧ tr.map (·.label) = as := by
    refine Run.of_execList ?_ h
    intro s a s' hexec
    obtain ⟨b, hb, hexec⟩ := Option.bind_eq_some_iff.mp hexec
    split at hexec
    · next hok => exact ⟨⟨b, hb, hok⟩, hexec⟩
    · cases hexec
  obtain ⟨tr, hrun, _⟩ := hcomputed
  have hmatched : ∃ tr' t, Run ((networkSystem names cfgs).restrict fun s a => ok s a = true)
      s₀.erase tr' t ∧ s.erase = t ∧
      List.Forall₂ (Transition.Matches (fun s t => s.erase = t) fun _ _ => True) tr tr' := by
    refine Run.simulate (R := fun (s : Traced E ι) t => s.erase = t) (L := fun _ _ => True) ?_
      hrun (.init rfl) rfl
    rintro s a t _ _ rfl ⟨⟨b, hb, hok⟩, hexec⟩
    exact ⟨b, t.erase, ⟨hok, TracedAction.exec_erase hexec hb⟩, rfl, trivial⟩
  obtain ⟨tr', _, hrun', rfl, _⟩ := hmatched
  exact ⟨tr', hrun'⟩

/-- The same from the start. -/
theorem run_of_execPlain {names : List ι} {ok : Network E ι → Action ι → Bool} {s : Traced E ι}
    {as : List (TracedAction ι)} (h : execPlain cfgs ok (.new names cfgs) as = some s) :
    ∃ tr, Run ((networkSystem names cfgs).restrict fun s a => ok s a = true)
      (.new names cfgs) tr s.erase := by
  have hrun := run_of_execPlain_from names h
  rwa [Traced.erase_new] at hrun

end steps

/-! ### The records are right -/

section records

variable {created : List Transaction}

/-- The entry may stand for the value `v`: if it has a number, `v` is the
    transaction of that request, itself or after transport; otherwise `v` has
    the sender `null`. -/
def Stands (created : List Transaction) (v : Val) : Origin → Prop
  | none   => v.get "fromAddress" = .ok .null
  | some r => ∃ t, created[r]? = some t ∧
      (v = t.toValue ∨ Json.transport t.toValue = .ok (some v))

/-- The entries stand for the transactions of the block. -/
def BlockStands (created : List Transaction) (b : Block) (os : List Origin) : Prop :=
  ∃ txs, b.transactions = .arr txs ∧ List.Forall₂ (Stands created) txs os

/-- The entries stand for the transactions of the chain, block by block. -/
def ChainStands (created : List Transaction) (chain : List Block) (os : List (List Origin)) :
    Prop :=
  List.Forall₂ (BlockStands created) chain os

/-- Requests that come later change nothing. -/
theorem Stands.append {v : Val} {o : Origin} (more : List Transaction)
    (h : Stands created v o) : Stands (created ++ more) v o := by
  cases o with
  | none => exact h
  | some r =>
    obtain ⟨t, ht, hv⟩ := h
    have hr := (List.getElem?_eq_some_iff.mp ht).1
    exact ⟨t, by rw [List.getElem?_append_left hr, ht], hv⟩

theorem ChainStands.append {chain : List Block} {os : List (List Origin)}
    (more : List Transaction) (h : ChainStands created chain os) :
    ChainStands (created ++ more) chain os := by
  refine List.Forall₂.imp ?_ h
  rintro b os ⟨txs, htxs, hstands⟩
  exact ⟨txs, htxs, hstands.imp fun _ _ hv => hv.append more⟩

/-- What arrives of a transaction stands where it stood. -/
theorem Stands.transport {v : Val} {w : Option Val} {o : Origin} (h : Stands created v o)
    (hw : Json.transport v = .ok w) : Stands created (w.getD .null) o := by
  cases o with
  | none => exact Json.get_transport_null h hw
  | some r =>
    obtain ⟨t, ht, rfl | hv⟩ := h
    · obtain ⟨gs, hgs, rfl⟩ := Json.transport_obj_eq_ok.mp hw
      exact ⟨t, ht, .inr hw⟩
    · -- it has been sent before
      rw [Json.transport_idem _ _ hv, Except.ok.injEq] at hw
      subst hw
      exact ⟨t, ht, .inr hv⟩

theorem stands_transportElems {vs ws : List Val} {os : List Origin}
    (h : List.Forall₂ (Stands created) vs os) (hws : Json.transportElems vs = .ok ws) :
    List.Forall₂ (Stands created) ws os := by
  induction h generalizing ws with
  | nil =>
    cases hws
    exact .nil
  | cons hv _ ih =>
    obtain ⟨w, ws', hw, hws', rfl⟩ := Json.transportElems_cons_eq_ok.mp hws
    exact .cons (hv.transport hw) (ih hws')

/-- What arrives of a chain. -/
theorem ChainStands.transport {chain chain' : List Block} {os : List (List Origin)}
    (h : ChainStands created chain os) (hchain : transportChain chain = .ok chain') :
    ChainStands created chain' os := by
  induction h generalizing chain' with
  | nil =>
    cases hchain
    exact .nil
  | cons hb _ ih =>
    obtain ⟨b', hb', hchain⟩ := Throwing.bind_eq_ok.mp hchain
    obtain ⟨rest, hrest, hchain⟩ := Throwing.bind_eq_ok.mp hchain
    cases hchain
    obtain ⟨txs, htxs, hstands⟩ := hb
    obtain ⟨ts, hts, hb'⟩ := Throwing.bind_eq_ok.mp hb'
    cases hb'
    rw [htxs] at hts
    obtain ⟨txs', htxs', rfl⟩ := Json.transport_arr_eq_ok.mp hts
    exact .cons ⟨txs', rfl, stands_transportElems hstands htxs'⟩ (ih hrest)

/-- The records of a node are right. -/
structure Aligned (created : List Transaction) (n : Node E) (o : Origins) : Prop where
  chain     : ChainStands created n.chain o.chain
  pending   : List.Forall₂ (Stands created) n.xCoin.pendingTransactions o.pending
  responses : List.Forall₂ (ChainStands created) n.neighborNodeResponseList o.responses

theorem aligned_new (cfg : Config E ι) : Aligned [] (Node.new cfg) .new where
  chain     := .cons ⟨[], rfl, .nil⟩ .nil
  pending   := .nil
  responses := .nil

theorem Aligned.append {n : Node E} {o : Origins} (more : List Transaction)
    (h : Aligned created n o) : Aligned (created ++ more) n o where
  chain     := h.chain.append more
  pending   := h.pending.imp fun _ _ hv => hv.append more
  responses := h.responses.imp fun _ _ hc => hc.append more

/-- Pushing a transaction and mining the pending list. -/
theorem Aligned.mine {cfg : Config E ι} {n : Node E} {o : Origins} {tx : Val} {origin : Origin}
    {date : Int} {fuel : Nat} {r : Result Unit} {xCoin : Blockchain E}
    (h : Aligned created n o) (htx : Stands created tx origin)
    (hmine : (Op.minePendingTransactions cfg.myWalletAddress date fuel).Outcome
      (n.xCoin.createTransaction tx) r xCoin) :
    Aligned created { n with xCoin } (o.mine n { n with xCoin } origin) := by
  have hpushed : List.Forall₂ (Stands created) (n.xCoin.createTransaction tx).pendingTransactions
      (o.pending ++ [origin]) := List.rel_append h.pending (.cons htx .nil)
  have hcoinBase {coinBase : Transaction}
      (hcoin : (n.xCoin.createTransaction tx).coinBaseTransaction cfg.myWalletAddress =
        .ok coinBase) : List.Forall₂ (Stands created) [coinBase.toValue] [none] := by
    obtain ⟨signature, rfl⟩ := coinBase_eq hcoin
    exact .cons rfl .nil
  cases hmine with
  | unchanged =>
    rw [Origins.mine, if_neg (by simp [Node.chain, Blockchain.createTransaction])]
    exact ⟨h.chain, by simpa [Blockchain.createTransaction] using hpushed, h.responses⟩
  | stranded _ _ _ coinBase e hcoin =>
    rw [Origins.mine, if_neg (by simp [Node.chain, Blockchain.createTransaction])]
    refine ⟨h.chain, ?_, h.responses⟩
    have hboth := List.rel_append hpushed (hcoinBase hcoin)
    simpa [Blockchain.createTransaction] using hboth
  | mined _ _ _ coinBase b hcoin hmined htime htxs =>
    rw [Origins.mine, if_pos (by simp [Node.chain, Blockchain.createTransaction])]
    have hblock : BlockStands created b (o.pending ++ [origin] ++ [none]) :=
      ⟨_, htxs, List.rel_append hpushed (hcoinBase hcoin)⟩
    exact ⟨List.rel_append h.chain (.cons hblock .nil), .nil, h.responses⟩

/-- The startup decision finds the same response longest. -/
theorem Aligned.getBlocksCallback {cfg : Config E ι} {n : Node E} {o : Origins}
    {body : Option (List Block)} {blocks : Option (List (List Origin))}
    (h : Aligned created n o) (hbody : Option.Rel (ChainStands created) body blocks) :
    Aligned created (n.getBlocksCallback cfg body).node (o.getBlocksCallback cfg n blocks) := by
  have hresponses : List.Forall₂ (ChainStands created)
      (n.recordResponse body).neighborNodeResponseList (o.responses ++ blocks.toList) := by
    refine List.rel_append h.responses ?_
    cases hbody with
    | some hchain => exact .cons hchain .nil
    | none => exact .nil
  have hlongest : ChainStands created
      (Node.maxNeighborNodeBodyList (n.recordResponse body).neighborNodeResponseList)
      (Longest.pick List.length [] (o.responses ++ blocks.toList)) :=
    Longest.pick_forall₂ _ (fun _ _ hc => hc.length_eq) .nil hresponses
  have hlength := h.chain.length_eq
  unfold Node.getBlocksCallback Origins.getBlocksCallback
  by_cases hlast : cfg.neighborNodeList.length = n.i + 1
  · simp only [hlast, if_true, ← hlength, ← hlongest.length_eq]
    split
    · exact ⟨h.chain, h.pending, hresponses⟩
    · exact ⟨hlongest, h.pending, hresponses⟩
  · simp only [hlast, if_false]
    exact ⟨h.chain, h.pending, hresponses⟩

/-- The entries of a message stand for what it carries. -/
def MessageStands (created : List Transaction) : Message ι → Cargo → Prop
  | .transaction body, cargo => Stands created body cargo.origin
  | .blocks _ body, cargo => Option.Rel (ChainStands created) body cargo.blocks
  | _, _ => True

theorem MessageStands.append {m : Message ι} {cargo : Cargo} (more : List Transaction)
    (h : MessageStands created m cargo) : MessageStands (created ++ more) m cargo := by
  cases m with
  | transaction body => exact Stands.append more h
  | blocks k body =>
    rcases body with _ | body <;> rcases hb : cargo.blocks with _ | os
    all_goals
      simp only [MessageStands, hb] at h ⊢
      cases h
    · exact .none
    · next hchain => exact .some (hchain.append more)
  | _ => trivial

/-- The entries of an event stand for what it brings. -/
def EventStands (created : List Transaction) : Event ι → Cargo → Prop
  | .transaction body _ _, cargo => Stands created body cargo.origin
  | .getBlocks _ body, cargo => Option.Rel (ChainStands created) body cargo.blocks
  | .restore _, _ => False
  | _, _ => True

theorem MessageStands.event {m : Message ι} {cargo : Cargo} {ev : Event ι} {date : Int}
    {fuel : Nat} (h : MessageStands created m cargo) (hevent : m.event date fuel = some ev) :
    EventStands created ev cargo := by
  cases m with
  | getBlocks asker => cases hevent
  | blocks k body =>
    cases hevent
    exact h
  | transaction body =>
    cases hevent
    exact h
  | inv body =>
    cases hevent
    trivial

/-- **Step lemma** for the records of a node. -/
theorem Event.Outcome.aligned {cfg : Config E ι} {n n' : Node E} {o : Origins} {ev : Event ι}
    {cargo : Cargo} {effects : List Effect} (hout : ev.Outcome cfg n n' effects)
    (h : Aligned created n o) (hev : EventStands created ev cargo) :
    Aligned (created ++ effects.filterMap Effect.created?) n'
      (o.handle cfg n n' created.length cargo ev) := by
  cases hout with
  | refused =>
    rw [Origins.handle, Origins.request, if_neg (Nat.lt_irrefl _)]
    exact h.append _
  | ignored => exact h.append _
  | requested receiver amount tx hsigned hvalid =>
    rw [Origins.handle, Origins.request, if_pos (by simp [Blockchain.createTransaction])]
    have hmore := h.append [tx]
    have htx : Stands (created ++ [tx]) tx.toValue (some created.length) :=
      ⟨tx, by simp, .inl rfl⟩
    exact ⟨hmore.chain, List.rel_append hmore.pending (.cons htx .nil), hmore.responses⟩
  | triggered date fuel r xCoin hmine =>
    have htrigger : Stands created Node.triggerTransaction.toValue none := rfl
    exact (h.append _).mine (htrigger.append _) hmine
  | received body date fuel r xCoin effects hmine heffects =>
    exact (h.append _).mine (Stands.append _ hev) hmine
  | recorded k body hearly =>
    have hnode : (n.getBlocksCallback cfg body).node = n.recordResponse body := by
      simp [Node.getBlocksCallback, hearly]
    rw [← hnode]
    exact (h.append _).getBlocksCallback (MessageStands.append (m := .blocks k body) _ hev)
  | announced k body hlast hlonger =>
    have hnode : (n.getBlocksCallback cfg body).node = n.recordResponse body := by
      simp [Node.getBlocksCallback, hlast, hlonger]
    rw [← hnode]
    exact (h.append _).getBlocksCallback (MessageStands.append (m := .blocks k body) _ hev)
  | adopted k body longest hlast hlongest hle =>
    have hnode : (n.getBlocksCallback cfg body).node =
        (n.recordResponse body).setChain longest := by
      simp [Node.getBlocksCallback, hlast, ← hlongest, Nat.not_lt.mpr hle]
    rw [← hnode]
    exact (h.append _).getBlocksCallback (MessageStands.append (m := .blocks k body) _ hev)
  | restored => exact hev.elim

/-- A request creates a transaction of the node. -/
theorem Event.Outcome.created_sender {cfg : Config E ι} {n n' : Node E} {ev : Event ι}
    {effects : List Effect} (hout : ev.Outcome cfg n n' effects) {t : Transaction}
    (ht : t ∈ effects.filterMap Effect.created?) : t.fromAddress ≠ .null := by
  cases hout with
  | requested receiver amount tx hsigned hvalid =>
    obtain rfl : t = tx := by simpa [Effect.created?] using ht
    obtain ⟨_, _, _, _, _, _, hfrom, _⟩ := requestedTransaction_fields hsigned
    simp [hfrom, Config.myWalletAddress]
  | received body date fuel r xCoin effects hmine heffects =>
    rcases heffects with rfl | rfl
    · cases ht
    · simp [Effect.created?] at ht
  | announced => simp [Effect.created?] at ht
  | adopted => simp [Effect.created?] at ht
  | _ => cases ht

/-- What a node sends has the number of the request. -/
theorem Event.Outcome.messageStands {cfg : Config E ι} {n n' : Node E} {ev : Event ι}
    {effects : List Effect} (hout : ev.Outcome cfg n n' effects) {m : ι × Message ι}
    (hm : m ∈ effects.flatMap (Effect.messages cfg.neighborNodeList)) :
    MessageStands (created ++ effects.filterMap Effect.created?) m.2
      ⟨some created.length, none⟩ := by
  -- an `/inv` message carries no entries
  have hsendInv (chain : List Block) (created : List Transaction) (cargo : Cargo)
      (hm : m ∈ Effect.messages cfg.neighborNodeList (.sendInv chain)) :
      MessageStands created m.2 cargo := by
    simp only [Effect.messages] at hm
    split at hm
    · obtain ⟨q, _, rfl⟩ := List.mem_map.mp hm
      trivial
    · cases hm
  cases hout with
  | requested receiver amount tx hsigned hvalid =>
    simp only [List.flatMap_cons, List.flatMap_nil, List.append_nil, Effect.messages] at hm
    split at hm
    · next body hbody =>
      obtain ⟨q, _, rfl⟩ := List.mem_map.mp hm
      exact ⟨tx, by simp [Effect.created?], .inr hbody⟩
    · cases hm
  | received body date fuel r xCoin effects hmine heffects =>
    rcases heffects with rfl | rfl
    · cases hm
    · simp only [List.flatMap_cons, List.flatMap_nil, List.append_nil] at hm
      rcases List.mem_append.mp hm with hm | hm
      · exact hsendInv _ _ _ hm
      · cases hm
  | announced k body hlast hlonger =>
    simp only [List.flatMap_cons, List.flatMap_nil, List.append_nil] at hm
    exact hsendInv _ _ _ hm
  | adopted k body longest hlast hlongest hle => cases hm
  | refused => cases hm
  | ignored => cases hm
  | triggered => cases hm
  | recorded => cases hm
  | restored => cases hm

/-! ### In every state -/

/-- All records are right. -/
structure TracedInv (s : Traced E ι) : Prop where
  /-- What requests create has a sender. -/
  senders  : ∀ t ∈ s.created, t.fromAddress ≠ .null
  ne_nil   : ∀ p, (s.nodes p).chain ≠ []
  aligned  : ∀ p, Aligned s.created (s.nodes p) (s.origins p)
  messages : ∀ m ∈ s.messages, MessageStands s.created m.2.1 m.2.2

variable {names : List ι}

theorem tracedInv_new : TracedInv (Traced.new names cfgs) where
  senders := by simp [Traced.new]
  ne_nil := fun _ => List.cons_ne_nil _ _
  aligned := fun p => aligned_new (cfgs p)
  messages := by
    intro m hm
    obtain ⟨m', hm', rfl⟩ := List.mem_map.mp hm
    obtain ⟨p, _, hm'⟩ := List.mem_flatMap.mp hm'
    obtain ⟨q, _, rfl⟩ := List.mem_map.mp hm'
    trivial

/-- A message is replaced by another one. -/
theorem TracedInv.reply {s : Traced E ι} {k : Nat} {m : ι × Message ι × Cargo}
    (h : TracedInv s) (hm : MessageStands s.created m.2.1 m.2.2) :
    TracedInv { s with messages := s.messages.eraseIdx k ++ [m] } where
  senders := h.senders
  ne_nil := h.ne_nil
  aligned := h.aligned
  messages := by
    intro x hx
    rcases List.mem_append.mp hx with hx | hx
    · exact h.messages x (List.eraseIdx_subset hx)
    · rw [List.mem_singleton.mp hx]
      exact hm

variable [DecidableEq ι]

theorem TracedInv.react {s s' : Traced E ι} {p : ι} {ev : Event ι} {cargo : Cargo}
    {rest : List (ι × Message ι × Cargo)} (h : TracedInv s) (hev : EventStands s.created ev cargo)
    (hrest : rest ⊆ s.messages) (hreact : s.react cfgs p ev cargo rest = some s') :
    TracedInv s' := by
  obtain ⟨⟨result, n', effects⟩, hhandle, rfl⟩ := Option.map_eq_some_iff.mp hreact
  have hout := Node.handle_outcome (h.ne_nil p) hhandle
  refine ⟨?_, ?_, ?_, ?_⟩
  · intro t ht
    rcases List.mem_append.mp ht with ht | ht
    · exact h.senders t ht
    · exact hout.created_sender ht
  · intro q
    by_cases hq : q = p
    · subst hq
      simp only [Function.update_self]
      exact hout.chain_ne_nil (h.ne_nil q)
    · simp only [Function.update_of_ne hq]
      exact h.ne_nil q
  · intro q
    by_cases hq : q = p
    · subst hq
      simp only [Function.update_self]
      exact hout.aligned (h.aligned q) hev
    · simp only [Function.update_of_ne hq]
      exact (h.aligned q).append _
  · intro m hm
    rcases List.mem_append.mp hm with hm | hm
    · exact (h.messages m (hrest hm)).append _
    · obtain ⟨m', hm', rfl⟩ := List.mem_map.mp hm
      exact hout.messageStands hm'

/-- **Step lemma** for the records. -/
theorem TracedInv.step {s s' : Traced E ι} {a : TracedAction ι} (h : TracedInv s)
    (hexec : a.exec cfgs s = some s') : TracedInv s' := by
  cases a with
  | triggerMineBlock p date fuel => exact h.react (by trivial) (List.Subset.refl _) hexec
  | transactionRequest p receiver amount => exact h.react (by trivial) (List.Subset.refl _) hexec
  | answer k =>
    obtain ⟨p, _, _, body, _, hbody, rfl⟩ := TracedAction.exec_answer hexec
    exact h.reply (.some ((h.aligned p).chain.transport hbody))
  | fail k =>
    obtain ⟨_, _, _, _, rfl⟩ := TracedAction.exec_fail hexec
    exact h.reply .none
  | lose k =>
    obtain ⟨_, _, _, _, _, rfl⟩ := TracedAction.exec_lose hexec
    exact ⟨h.senders, h.ne_nil, h.aligned, fun m hm => h.messages m (List.eraseIdx_subset hm)⟩
  | deliver k date fuel =>
    obtain ⟨_, _, _, _, hmessage, hevent, hreact⟩ := TracedAction.exec_deliver hexec
    have hstands := h.messages _ (List.mem_of_getElem? hmessage)
    exact h.react (hstands.event hevent) (List.eraseIdx_subset) hreact

/-- **The records are right**: in every state of a traced network they have an
    entry for every transaction of every chain, pending list, response and
    message.  Entries with a number stand for the transaction of that request,
    and the others for values with the sender `null`. -/
theorem tracedInv_of_reachable {s : Traced E ι} (h : Reachable (tracedSystem names cfgs) s) :
    TracedInv s := by
  refine h.invariant_from (fun _ hs => hs) tracedInv_new ?_
  intro s a s' hinv hexec
  exact hinv.step hexec

end records

end XCoin
