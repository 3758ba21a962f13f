import XCoin.Chain.Validity
import XCoin.Model.Network
import XCoin.Node.Startup

/-! # Which runs of a network keep all chains valid

    `isChainValid` calls methods of the blocks and transactions of a chain.
    JSON-decoded ones have no methods, so a chain is lost for the validator
    as soon as one of them gets into it.  There are two ways in:

    * a transaction received by `/transaction` is mined;
    * the startup decision adopts a received chain with a block to check.

    Nothing else invalidates a chain: what a node mines from its own
    transactions is valid.  So a run keeps all chains valid exactly if none
    of its steps does one of the two.
-/

namespace XCoin

open Js LTS

variable {E : Env} {ι : Type} {cfg : Config E ι} {n n' : Node E}

/-! ### Pending transactions -/

/-- The value is an instance of the class `Transaction`. -/
def IsTransaction (tx : Val) : Prop := (Transaction.ofValue? tx).isSome = true

theorem IsTransaction.of_valid {tx : Val} (h : callIsValid E tx = .ok true) :
    IsTransaction tx := by
  unfold callIsValid at h
  unfold IsTransaction
  cases htx : Transaction.ofValue? tx with
  | none =>
    rw [htx] at h
    cases h
  | some t => rfl

/-- The pending transactions that have a method `isValid` pass it. -/
def PendingValid (bc : Blockchain E) : Prop :=
  ∀ tx ∈ bc.pendingTransactions, IsTransaction tx → callIsValid E tx = .ok true

theorem PendingValid.createTransaction {bc : Blockchain E} {tx : Val} (h : PendingValid bc)
    (htx : IsTransaction tx → callIsValid E tx = .ok true) :
    PendingValid (bc.createTransaction tx) :=
  Blockchain.forall_mem_createTransaction.mpr ⟨h, htx⟩

/-- `Transaction(null, null, 100)` is valid: its hash is that of a number. -/
theorem triggerTransaction_valid : callIsValid E Node.triggerTransaction.toValue = .ok true := by
  rw [callIsValid_toValue]
  apply Transaction.isValid_of_null rfl (h := E.SHA256 (.num 100))
  have hnull : Value.add (.null : Val) .null = .ok (.num 0) :=
    Value.addWith_null_null Number.exactUpTo_binary64 (by norm_num)
  have hsum : Value.add (.num 0 : Val) (.num 100) = .ok (.num 100) :=
    Value.addWith_num Number.exactUpTo_binary64 (by norm_num)
  show (Value.add .null .null >>= fun addresses => Value.add addresses (.num 100) >>= _) = _
  rw [hnull, Throwing.ok_bind, hsum]
  rfl

theorem Op.Outcome.pendingValid {bc bc' : Blockchain E} {address : Val} {date : Int} {fuel : Nat}
    {r : Result Unit} (h : (Op.minePendingTransactions address date fuel).Outcome bc r bc')
    (hpending : PendingValid bc) : PendingValid bc' := by
  cases h with
  | unchanged => exact hpending
  | stranded _ _ _ coinBase e hcoin =>
    exact hpending.createTransaction fun _ => coinBase_valid hcoin
  | mined =>
    -- the pending list is empty again
    intro tx htx
    cases htx

/-- Mining leaves the chain as it is if it cannot be carried out, and appends
    a block of the pending transactions and a valid coinbase if it can. -/
theorem Op.Outcome.mine_chain {bc bc' : Blockchain E} {address : Val} {date : Int} {fuel : Nat}
    {r : Result Unit} (h : (Op.minePendingTransactions address date fuel).Outcome bc r bc') :
    (¬ bc.CanMine address ∧ bc'.chain = bc.chain) ∨
    (bc.CanMine address ∧
      ∃ coinBase b, callIsValid E coinBase = .ok true ∧ MinedOn E bc.chain b ∧
        b.transactions = .arr (bc.pendingTransactions ++ [coinBase]) ∧
        bc'.chain = bc.chain ++ [b]) := by
  cases h with
  | unchanged _ _ hthrows => exact .inl ⟨hthrows address date fuel rfl, rfl⟩
  | stranded _ _ _ _ _ _ hthrows => exact .inl ⟨hthrows, rfl⟩
  | mined _ _ _ coinBase b hcoin hmined _ htxs =>
    have hcan : bc.CanMine address := ⟨coinBase, hcoin, htxs ▸ hmined.miningReady⟩
    exact .inr ⟨hcan, coinBase.toValue, b, coinBase_valid hcoin, hmined, htxs, rfl⟩

/-! ### Nodes -/

/-- The body an event brings was decoded from JSON. -/
def Event.Plain : Event ι → Prop
  | .transaction body _ _    => ¬ IsTransaction body
  | .getBlocks _ (some body) => ∀ b ∈ body, b.isBlock = false
  | .restore _               => False
  | _                        => True

/-- What holds of a node in a network. -/
structure NodeInv (n : Node E) : Prop where
  ne_nil    : n.chain ≠ []
  pending   : PendingValid n.xCoin
  /-- The recorded responses were decoded from JSON. -/
  responses : ∀ r ∈ n.neighborNodeResponseList, ∀ b ∈ r, b.isBlock = false

theorem nodeInv_new (cfg : Config E ι) : NodeInv (Node.new cfg) where
  ne_nil := List.cons_ne_nil _ _
  pending := by
    intro tx htx
    cases htx
  responses := by
    intro r hr
    cases hr

/-- Recording a decoded response keeps the responses decoded. -/
theorem NodeInv.recordResponse {k : ι} {body : Option (List Block)} (h : NodeInv n)
    (hplain : (Event.getBlocks k body).Plain) :
    ∀ r ∈ (n.recordResponse body).neighborNodeResponseList, ∀ b ∈ r, b.isBlock = false := by
  intro r hr
  rcases List.mem_append.mp hr with hr | hr
  · exact h.responses r hr
  · cases body with
    | none => cases hr
    | some body =>
      rw [List.mem_singleton.mp hr]
      exact hplain

/-- **Step lemma**: every event with a decoded body keeps the invariant. -/
theorem Event.Outcome.nodeInv {ev : Event ι} {effects : List Effect}
    (h : ev.Outcome cfg n n' effects) (hinv : NodeInv n) (hplain : ev.Plain) : NodeInv n' := by
  have hne := h.chain_ne_nil hinv.ne_nil
  cases h with
  | refused => exact hinv
  | ignored => exact hinv
  | requested receiver amount tx _ hvalid =>
    exact ⟨hne, hinv.pending.createTransaction fun _ => hvalid, hinv.responses⟩
  | triggered date fuel r xCoin hmine =>
    have hpending := hinv.pending.createTransaction fun _ => triggerTransaction_valid
    exact ⟨hne, hmine.pendingValid hpending, hinv.responses⟩
  | received body date fuel r xCoin effects hmine _ =>
    have hpending := hinv.pending.createTransaction fun htx => absurd htx hplain
    exact ⟨hne, hmine.pendingValid hpending, hinv.responses⟩
  | recorded => exact ⟨hne, hinv.pending, hinv.recordResponse hplain⟩
  | announced => exact ⟨hne, hinv.pending, hinv.recordResponse hplain⟩
  | adopted => exact ⟨hne, hinv.pending, hinv.recordResponse hplain⟩
  | restored => exact hplain.elim

/-! ### Events that keep a chain valid -/

/-- The condition on an event at the node `n`: mining is carried out only
    while all pending transactions are instances of `Transaction`, never for
    a received transaction, and the last callback of `startup` finds no
    response of two or more blocks to adopt. -/
def Event.KeepsValid (cfg : Config E ι) (n : Node E) : Event ι → Prop
  | .triggerMineBlock _ _ =>
      (n.xCoin.createTransaction Node.triggerTransaction.toValue).CanMine cfg.myWalletAddress →
        ∀ tx ∈ n.xCoin.pendingTransactions, IsTransaction tx
  | .transaction body _ _ => ¬ (n.xCoin.createTransaction body).CanMine cfg.myWalletAddress
  | .getBlocks _ body =>
      cfg.neighborNodeList.length = n.i + 1 →
        ∀ r ∈ n.neighborNodeResponseList ++ body.toList, n.chain.length ≤ r.length → r.length < 2
  | _ => True

/-- A decoded chain is valid exactly if it has no block to check. -/
theorem isChain_plain_iff {c : List Block} (hplain : ∀ b ∈ c, b.isBlock = false) :
    c.IsChain (BlockValid E) ↔ c.length < 2 := by
  match c with
  | [] => simp
  | [b] => simp
  | a :: b :: rest =>
    simp only [List.isChain_cons_cons, List.length_cons]
    constructor
    · rintro ⟨hvalid, _⟩
      have hblock := hvalid.isBlock
      rw [hplain b (by simp)] at hblock
      cases hblock
    · intro h
      omega

/-- Mining `tx` with the pending transactions keeps the chain valid exactly
    if it cannot be carried out or all of them are valid. -/
theorem Op.Outcome.mine_valid_iff {bc bc' : Blockchain E} {tx address : Val} {date : Int}
    {fuel : Nat} {r : Result Unit}
    (h : (Op.minePendingTransactions address date fuel).Outcome (bc.createTransaction tx) r bc')
    (hvalid : bc.chain.IsChain (BlockValid E)) :
    bc'.chain.IsChain (BlockValid E) ↔
      ((bc.createTransaction tx).CanMine address →
        ∀ t ∈ bc.pendingTransactions ++ [tx], callIsValid E t = .ok true) := by
  rcases h.mine_chain with ⟨hthrows, heq⟩ | ⟨hcan, coinBase, b, hcoin, hmined, htxs, heq⟩
  · rw [heq]
    exact iff_of_true hvalid fun hcan => absurd hcan hthrows
  · have hpending : (bc.createTransaction tx).pendingTransactions =
        bc.pendingTransactions ++ [tx] := rfl
    rw [heq, forall_prop_of_true hcan]
    show (bc.chain ++ [b]).IsChain _ ↔ _
    rw [isChain_append_iff hvalid hmined htxs, hpending, List.forall_mem_append]
    exact and_iff_left fun t ht => List.mem_singleton.mp ht ▸ hcoin

/-- The longest of decoded responses is decoded. -/
theorem NodeInv.longest_plain {k : ι} {body : Option (List Block)} (h : NodeInv n)
    (hplain : (Event.getBlocks k body).Plain) :
    ∀ b ∈ Node.maxNeighborNodeBodyList (n.recordResponse body).neighborNodeResponseList,
      b.isBlock = false := by
  rcases Node.longest_mem (n.recordResponse body).neighborNodeResponseList with hnil | hmem
  · rw [hnil]
    simp
  · exact h.recordResponse hplain _ hmem

/-- Adopting the longest response keeps the chain valid exactly if no response
    that could be adopted has two blocks. -/
theorem NodeInv.adopt_valid_iff {k : ι} {body : Option (List Block)} (h : NodeInv n)
    (hplain : (Event.getBlocks k body).Plain)
    (hle : n.chain.length ≤ (Node.maxNeighborNodeBodyList
      (n.recordResponse body).neighborNodeResponseList).length) :
    (Node.maxNeighborNodeBodyList (n.recordResponse body).neighborNodeResponseList).IsChain
        (BlockValid E) ↔
      ∀ r ∈ (n.recordResponse body).neighborNodeResponseList,
        n.chain.length ≤ r.length → r.length < 2 := by
  rw [isChain_plain_iff (h.longest_plain hplain), Node.longest_lt_iff (by decide)]
  constructor
  · intro hshort r hr _
    exact hshort r hr
  · intro hshort r hr
    by_cases hr' : n.chain.length ≤ r.length
    · exact hshort r hr hr'
    · -- a shorter response is bounded by the one that is adopted
      rcases Node.longest_mem (n.recordResponse body).neighborNodeResponseList with hnil | hmem
      · rw [hnil] at hle
        exact absurd (List.length_eq_zero_iff.mp (Nat.le_zero.mp hle)) h.ne_nil
      · have := hshort _ hmem hle
        omega

/-- **Step lemma**: an event with a decoded body keeps a valid chain valid
    exactly if it meets the condition. -/
theorem Event.Outcome.valid_iff {ev : Event ι} {effects : List Effect}
    (h : ev.Outcome cfg n n' effects) (hinv : NodeInv n) (hplain : ev.Plain)
    (hvalid : n.chain.IsChain (BlockValid E)) :
    n'.chain.IsChain (BlockValid E) ↔ ev.KeepsValid cfg n := by
  have hpos := List.length_pos_iff.mpr hinv.ne_nil
  cases h with
  | triggered date fuel r xCoin hmine =>
    rw [show (Node.chain { n with xCoin }) = xCoin.chain from rfl, hmine.mine_valid_iff hvalid]
    refine imp_congr Iff.rfl ?_
    -- what is pending is valid as soon as it has the method `isValid`
    simp only [List.forall_mem_append, List.forall_mem_singleton]
    constructor
    · intro hall tx htx
      exact .of_valid (hall.1 tx htx)
    · intro hall
      exact ⟨fun tx htx => hinv.pending tx htx (hall tx htx), triggerTransaction_valid⟩
  | received body date fuel r xCoin effects hmine _ =>
    rw [show (Node.chain { n with xCoin }) = xCoin.chain from rfl, hmine.mine_valid_iff hvalid]
    -- the received transaction has no method `isValid`
    refine imp_congr_right fun _ => iff_false_intro ?_
    intro hall
    exact hplain (.of_valid (hall body (by simp)))
  | recorded _ _ hearly => exact iff_of_true hvalid fun hlast => absurd hlast hearly
  | announced _ _ _ hlonger =>
    refine iff_of_true hvalid fun _ r hr hle => ?_
    have hlt := (Node.longest_lt_iff hpos).mp hlonger r hr
    omega
  | adopted k body longest hlast hlongest hle =>
    subst hlongest
    exact (hinv.adopt_valid_iff hplain hle).trans ⟨fun h _ => h, fun h => h hlast⟩
  | restored => exact hplain.elim
  | _ => exact iff_of_true hvalid trivial

/-! ### Networks -/

/-- What a message carries was decoded from JSON. -/
def Message.Plain : Message ι → Prop
  | .transaction body     => ¬ IsTransaction body
  | .blocks _ (some body) => ∀ b ∈ body, b.isBlock = false
  | _                     => True

/-- What holds of a network. -/
structure NetInv (s : Network E ι) : Prop where
  nodes    : ∀ p, NodeInv (s.nodes p)
  messages : ∀ m ∈ s.messages, m.2.Plain

theorem Message.Plain.event {m : Message ι} {ev : Event ι} {date : Int} {fuel : Nat}
    (h : m.Plain) (hevent : m.event date fuel = some ev) : ev.Plain := by
  cases m with
  | getBlocks asker => cases hevent
  | blocks k body =>
    cases hevent
    cases body with
    | none => trivial
    | some body => exact h
  | transaction body =>
    cases hevent
    exact h
  | inv body =>
    cases hevent
    trivial

/-- Whatever a node sends is turned into JSON. -/
theorem Effect.messages_plain {neighborNodeList : List ι} {effect : Effect} :
    ∀ m ∈ effect.messages neighborNodeList, m.2.Plain := by
  intro m hm
  cases effect with
  | sendInv chain =>
    simp only [Effect.messages] at hm
    split at hm
    · obtain ⟨q, _, rfl⟩ := List.mem_map.mp hm
      trivial
    · cases hm
  | sendTransaction tx =>
    simp only [Effect.messages] at hm
    split at hm
    · next body hbody =>
      obtain ⟨q, _, rfl⟩ := List.mem_map.mp hm
      show ¬ IsTransaction body
      unfold IsTransaction
      rw [ofValue?_of_transport hbody]
      simp
    · cases hm
  | save chain => cases hm

section steps

variable {names : List ι} {cfgs : ι → Config E ι} {s s' : Network E ι}

/-- The chain of every node is valid. -/
def AllValid (s : Network E ι) : Prop :=
  ∀ p, Blockchain.isChainValid E (s.nodes p).chain = .ok true

theorem allValid_new : AllValid (Network.new names cfgs) := fun _ => rfl

/-- The condition on an action in the state `s`, at the node that acts. -/
def Action.KeepsValid (cfgs : ι → Config E ι) (s : Network E ι) : Action ι → Prop
  | .triggerMineBlock p date fuel =>
      (Event.triggerMineBlock date fuel).KeepsValid (cfgs p) (s.nodes p)
  | .deliver p message date fuel =>
      ∀ ev, message.event date fuel = some ev → ev.KeepsValid (cfgs p) (s.nodes p)
  | _ => True

/-- Taking a message off the list leaves decoded messages. -/
theorem NetInv.rest {p : ι} {m : Message ι} {l₁ l₂ : List (ι × Message ι)} (hinv : NetInv s)
    (hmessage : s.messages = l₁ ++ (p, m) :: l₂) :
    m.Plain ∧ ∀ x ∈ l₁ ++ l₂, x.2.Plain := by
  have hall := hinv.messages
  rw [hmessage] at hall
  refine ⟨hall (p, m) (by simp), ?_⟩
  intro x hx
  apply hall x
  rcases List.mem_append.mp hx with hx | hx
  · exact List.mem_append_left _ hx
  · exact List.mem_append_right _ (List.mem_cons_of_mem _ hx)

/-- Answering a message with a decoded one keeps the invariant. -/
theorem NetInv.reply {p : ι} {m : Message ι} {l₁ l₂ : List (ι × Message ι)}
    {answer : ι × Message ι} (hinv : NetInv s) (hmessage : s.messages = l₁ ++ (p, m) :: l₂)
    (hanswer : answer.2.Plain) : NetInv { s with messages := l₁ ++ l₂ ++ [answer] } := by
  obtain ⟨_, hrest⟩ := hinv.rest hmessage
  refine ⟨hinv.nodes, ?_⟩
  intro m hm
  rcases List.mem_append.mp hm with hm | hm
  · exact hrest m hm
  · rw [List.mem_singleton.mp hm]
    exact hanswer

variable [DecidableEq ι]

/-- An event at one node keeps the invariant of the network. -/
theorem NetInv.handles {p : ι} {ev : Event ι} {rest : List (ι × Message ι)} (hinv : NetInv s)
    (hplain : ev.Plain) (hrest : ∀ m ∈ rest, m.2.Plain) (h : s.Handles cfgs p ev rest s') :
    NetInv s' := by
  obtain ⟨r, n', effects, hhandle, rfl⟩ := h
  have hout := Node.handle_outcome (hinv.nodes p).ne_nil hhandle
  constructor
  · -- only the node that acts has changed
    intro q
    show NodeInv (Function.update s.nodes p n' q)
    by_cases hq : q = p
    · subst hq
      rw [Function.update_self]
      exact hout.nodeInv (hinv.nodes q) hplain
    · rw [Function.update_of_ne hq]
      exact hinv.nodes q
  · intro m hm
    rcases List.mem_append.mp hm with hm | hm
    · exact hrest m hm
    · obtain ⟨effect, _, hm⟩ := List.mem_flatMap.mp hm
      exact Effect.messages_plain m hm

/-- An event at one node keeps all chains valid exactly if it meets the
    condition there. -/
theorem NetInv.handles_valid_iff {p : ι} {ev : Event ι} {rest : List (ι × Message ι)}
    (hinv : NetInv s) (hplain : ev.Plain) (hvalid : AllValid s)
    (h : s.Handles cfgs p ev rest s') :
    AllValid s' ↔ ev.KeepsValid (cfgs p) (s.nodes p) := by
  obtain ⟨r, n', effects, hhandle, rfl⟩ := h
  have hout := Node.handle_outcome (hinv.nodes p).ne_nil hhandle
  have hnode := hout.valid_iff (hinv.nodes p) hplain (isChainValid_iff.mp (hvalid p))
  show (∀ q, Blockchain.isChainValid E (Function.update s.nodes p n' q).chain = .ok true) ↔ _
  rw [← hnode]
  constructor
  · intro hall
    have hp := hall p
    rw [Function.update_self] at hp
    exact isChainValid_iff.mp hp
  · -- the other nodes keep their valid chains
    intro hp q
    by_cases hq : q = p
    · subst hq
      rw [Function.update_self]
      exact isChainValid_iff.mpr hp
    · rw [Function.update_of_ne hq]
      exact hvalid q

/-- **Step lemma** for the invariant of the network. -/
theorem Network.Step.netInv {a : Action ι} (h : Network.Step cfgs s a s') (hinv : NetInv s) :
    NetInv s' := by
  cases h with
  | triggerMineBlock p date fuel _ h => exact hinv.handles (by trivial) hinv.messages h
  | transactionRequest p receiver amount _ _ h => exact hinv.handles (by trivial) hinv.messages h
  | answer p asker body l₁ l₂ hmessage hbody =>
    exact hinv.reply hmessage (transportChain_ok hbody).2
  | fail p asker l₁ l₂ hmessage => exact hinv.reply hmessage trivial
  | lose p message l₁ l₂ hmessage _ => exact ⟨hinv.nodes, (hinv.rest hmessage).2⟩
  | deliver p message ev date fuel l₁ l₂ _ hmessage hevent h =>
    obtain ⟨hplain, hrest⟩ := hinv.rest hmessage
    exact hinv.handles (hplain.event hevent) hrest h

/-- **Step lemma** for validity: a step keeps all chains valid exactly if it
    meets the condition. -/
theorem Network.Step.valid_iff {a : Action ι} (h : Network.Step cfgs s a s') (hinv : NetInv s)
    (hvalid : AllValid s) : AllValid s' ↔ a.KeepsValid cfgs s := by
  cases h with
  | triggerMineBlock p date fuel _ h => exact hinv.handles_valid_iff (by trivial) hvalid h
  | transactionRequest p receiver amount _ _ h => exact hinv.handles_valid_iff (by trivial) hvalid h
  -- serving `/getBlocks` changes no node, and neither do requests that fail
  | answer => exact ⟨fun _ => trivial, fun _ => hvalid⟩
  | fail => exact ⟨fun _ => trivial, fun _ => hvalid⟩
  | lose => exact ⟨fun _ => trivial, fun _ => hvalid⟩
  | deliver p message ev date fuel l₁ l₂ _ hmessage hevent h =>
    obtain ⟨hplain, _⟩ := hinv.rest hmessage
    rw [hinv.handles_valid_iff (hplain.event hevent) hvalid h]
    constructor
    · intro hkeeps ev' hevent'
      rw [hevent, Option.some.injEq] at hevent'
      exact hevent' ▸ hkeeps
    · intro hkeeps
      exact hkeeps ev hevent

/-- **Run lemma** for the invariant of the network. -/
theorem netInv_of_reachable (h : Reachable (networkSystem names cfgs) s) : NetInv s := by
  refine h.invariant_from (fun _ hs => hs) ?_ ?_
  · refine ⟨fun p => nodeInv_new (cfgs p), ?_⟩
    intro m hm
    obtain ⟨p, _, hm⟩ := List.mem_flatMap.mp hm
    obtain ⟨q, _, rfl⟩ := List.mem_map.mp hm
    trivial
  · intro s a s' hinv hstep
    exact hstep.netInv hinv

/-- **Validity in a network.** In every run of a network in which nothing is
    restored, `isChainValid` is true at every node in every state reached if
    and only if every action met the condition `KeepsValid` in the state it
    was taken in: no block is mined from a decoded transaction, and no chain
    of two or more blocks is adopted. -/
theorem network_valid_iff {tr : List (Transition (Network E ι) (Action ι))}
    (h : Run (networkSystem names cfgs) (.new names cfgs) tr s) :
    (AllValid (Network.new names cfgs) ∧ ∀ x ∈ tr, AllValid x.post) ↔
      ∀ x ∈ tr, x.label.KeepsValid cfgs x.pre := by
  rw [and_iff_right allValid_new]
  refine Run.forall_post_iff (Q := fun x => x.label.KeepsValid cfgs x.pre)
    (.init rfl) allValid_new ?_ h
  intro t a u hreach hvalid hstep
  exact hstep.valid_iff (netInv_of_reachable hreach) hvalid

end steps

/-- The condition on a run with deliveries: the request of a node fails, the
    node decides for its own chain and announces it, and mines. -/
theorem network_valid_iff_decided :
    ∃ (tr : List (Transition (Network demoEnv Bool) (Action Bool))) (s : Network demoEnv Bool),
      Run (networkSystem [false, true] demoConfig) (.new [false, true] demoConfig) tr s ∧
      tr.length = 4 ∧ (s.nodes false).i = 1 ∧ (s.nodes false).chain.length = 2 ∧
      ((AllValid (Network.new [false, true] demoConfig) ∧ ∀ x ∈ tr, AllValid x.post) ↔
        ∀ x ∈ tr, x.label.KeepsValid demoConfig x.pre) := by
  let asked : List (Bool × Message Bool) := [(false, .getBlocks true)]
  let body := (transportChain [createGenesisBlock]).toOption.getD []
  let s₀ : Network demoEnv Bool := .new [false, true] demoConfig
  let s₁ : Network demoEnv Bool := { s₀ with messages := asked ++ [(false, .blocks true none)] }
  let s₂ : Network demoEnv Bool :=
    { nodes    := Function.update s₁.nodes false ((s₁.nodes false).recordResponse none)
      messages := asked ++ [(true, .inv body)] }
  have hfail : Network.Step demoConfig s₀ (.fail true false) s₁ := .fail true false [] asked rfl
  have hdecide : Network.Step demoConfig s₁ (.deliver false (.blocks true none) 0 0) s₂ :=
    .deliver false _ _ 0 0 asked [] _ rfl rfl ⟨_, _, _, rfl, rfl⟩
  let s₃ : Network demoEnv Bool :=
    { nodes := Function.update s₂.nodes true (s₂.nodes true), messages := asked }
  have hchain : (s₂.nodes true).chain ≠ [] := List.cons_ne_nil _ _
  have hinv : Network.Step demoConfig s₂ (.deliver true (.inv body) 0 0) s₃ :=
    .deliver true _ _ 0 0 asked [] _ rfl rfl
      ⟨_, _, _, congrArg some (Node.postInv_eq hchain body), rfl⟩
  have hfinal : ((s₃.nodes false).triggerMineBlock (demoConfig false) 7 1).map
      (fun r => (r.node.i, r.node.chain.length)) = some (1, 2) := by
    decide +kernel
  obtain ⟨⟨result, node, effects⟩, hmine, hfacts⟩ := Option.map_eq_some_iff.mp hfinal
  obtain ⟨hi, hlen⟩ := Prod.mk.inj hfacts
  have htrigger : Network.Step demoConfig s₃ (.triggerMineBlock false 7 1) _ :=
    .triggerMineBlock false 7 1 _ ⟨result, node, effects, hmine, rfl⟩
  have hrun : Run (networkSystem [false, true] demoConfig) s₀ _ _ :=
    .cons hfail (.cons hdecide (.cons hinv (.cons htrigger .nil)))
  exact ⟨_, _, hrun, rfl, hi, hlen, network_valid_iff hrun⟩

/-- **A received transaction breaks a chain.** A user asks one of two nodes
    for a transfer, and the other node mines the transaction it is sent: from
    then on `isChainValid` throws there, for the transaction has no method
    `isValid`. -/
theorem received_transaction_invalidates :
    ∃ (body : Val) (s₁ s₂ : Network demoEnv Bool),
      Run (networkSystem [false, true] demoConfig) (.new [false, true] demoConfig)
        [⟨.new [false, true] demoConfig, .transactionRequest false "bob" 5, s₁⟩,
         ⟨s₁, .deliver true (.transaction body) 7 1, s₂⟩] s₂ ∧
      Blockchain.isChainValid demoEnv (s₂.nodes true).chain = .error .typeError := by
  have hfinal : ((Node.requestedTransaction (demoConfig false) (.str "bob") (.num 5)).toOption.bind
      fun tx => ((Json.transport tx.toValue).toOption.bind id).bind fun body =>
        ((Node.new (demoConfig true)).postTransaction (demoConfig true) body 7 1).map fun r =>
          Blockchain.isChainValid demoEnv r.node.chain) = some (.error .typeError) := by
    decide +kernel
  obtain ⟨tx, htx, hfinal⟩ := Option.bind_eq_some_iff.mp hfinal
  obtain ⟨body, hbody, hfinal⟩ := Option.bind_eq_some_iff.mp hfinal
  obtain ⟨⟨result₂, node₂, effects₂⟩, hmine, hinvalid⟩ := Option.map_eq_some_iff.mp hfinal
  -- the first node accepts the transaction and sends it
  have hlen : ((Node.new (demoConfig false)).postTransactionRequest (demoConfig false)
      (.str "bob") (.num 5)).effects.length = 1 := by
    decide +kernel
  generalize hreq : (Node.new (demoConfig false)).postTransactionRequest (demoConfig false)
    (.str "bob") (.num 5) = reaction at hlen
  obtain ⟨result₁, node₁, effects₁⟩ := reaction
  have hhandle : (Node.new (demoConfig false)).handle (demoConfig false)
      (.transactionRequest (.str "bob") (.num 5)) = some ⟨result₁, node₁, effects₁⟩ :=
    congrArg some hreq
  have hsent : effects₁ = [.sendTransaction tx] := by
    cases Node.handle_outcome (nodeInv_new (demoConfig false)).ne_nil hhandle with
    | refused => cases hlen
    | requested _ _ tx' hsigned _ =>
      rw [hsigned] at htx
      cases htx
      rfl
  have hmessage : effects₁.flatMap (Effect.messages [true]) = [(true, .transaction body)] := by
    cases htransport : Json.transport tx.toValue with
    | error e =>
      rw [htransport] at hbody
      cases hbody
    | ok sent =>
      rw [htransport] at hbody
      cases hbody
      simp [hsent, Effect.messages, htransport]
  let asked : List (Bool × Message Bool) := [(true, .getBlocks false), (false, .getBlocks true)]
  let s₁ : Network demoEnv Bool :=
    { nodes    := Function.update (fun p => .new (demoConfig p)) false node₁
      messages := asked ++ effects₁.flatMap (Effect.messages [true]) }
  have hrequest : Network.Step demoConfig (.new [false, true] demoConfig)
      (.transactionRequest false "bob" 5) s₁ :=
    .transactionRequest _ _ _ _ (by decide) ⟨result₁, node₁, effects₁, hhandle, rfl⟩
  have hmessages : s₁.messages = asked ++ [(true, .transaction body)] :=
    congrArg (asked ++ ·) hmessage
  have hdeliver : Network.Step demoConfig s₁ (.deliver true (.transaction body) 7 1) _ :=
    .deliver true _ _ 7 1 asked [] _ hmessages rfl ⟨result₂, node₂, effects₂, hmine, rfl⟩
  exact ⟨body, s₁, _, .cons hrequest (.cons hdeliver .nil), hinvalid⟩

end XCoin
