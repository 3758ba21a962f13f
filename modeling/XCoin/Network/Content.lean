import XCoin.Network.Validity

/-! # What a network holds

    Chains and transactions move through a network: nodes make them, send
    them as JSON, record what arrives, adopt it and mine it.  A property of
    chains and a property of transactions that survive each of these steps
    hold of everything the network ever holds.

    The steps are listed once, in `Preserved`; `Preserved.of_inputs` is the
    rule.  `clock c date` says which values `Date.now()` may have at a node
    whose chain is `c`, and `asks p receiver amount` which transfers users may
    ask the node `p` for.
-/

namespace XCoin

open Js LTS

variable {E : Env} {ι : Type}

/-! ### Where chains and transactions are -/

/-- The chain is somewhere in the network. -/
inductive Network.HasChain (s : Network E ι) : List Block → Prop where
  | node (p : ι) : HasChain s (s.nodes p).chain
  | response (p : ι) (c : List Block)
      (h : c ∈ (s.nodes p).neighborNodeResponseList) : HasChain s c
  | blocks (p neighborNode : ι) (c : List Block)
      (h : (p, .blocks neighborNode (some c)) ∈ s.messages) : HasChain s c
  | inv (p : ι) (c : List Block) (h : (p, .inv c) ∈ s.messages) : HasChain s c

/-- The transaction is waiting somewhere in the network to be mined. -/
inductive Network.HasTransaction (s : Network E ι) : Val → Prop where
  | pending (p : ι) (tx : Val)
      (h : tx ∈ (s.nodes p).xCoin.pendingTransactions) : HasTransaction s tx
  | message (p : ι) (tx : Val) (h : (p, .transaction tx) ∈ s.messages) : HasTransaction s tx

/-- What an effect sends, and the message that carries it. -/
inductive Effect.Carries : Effect → Message ι → Prop where
  | inv (chain body : List Block) (h : transportChain chain = .ok body) :
      Carries (.sendInv chain) (.inv body)
  | transaction (tx : Transaction) (body : Val) (h : Json.transport tx.toValue = .ok (some body)) :
      Carries (.sendTransaction tx) (.transaction body)

theorem Effect.carries_of_mem {effect : Effect} {neighborNodeList : List ι} {q : ι}
    {m : Message ι} (h : (q, m) ∈ effect.messages neighborNodeList) : effect.Carries m := by
  cases effect with
  | sendInv chain =>
    simp only [Effect.messages] at h
    split at h
    · next body hbody =>
      obtain ⟨_, _, heq⟩ := List.mem_map.mp h
      cases heq
      exact .inv chain body hbody
    · cases h
  | sendTransaction tx =>
    simp only [Effect.messages] at h
    split at h
    · next body hbody =>
      obtain ⟨_, _, heq⟩ := List.mem_map.mp h
      cases heq
      exact .transaction tx body hbody
    · cases h
  | save chain => cases h

/-! ### Clocks and users -/

/-- Where the action makes a node mine, the clock shows a possible value. -/
def Action.byClock (clock : List Block → Int → Prop) (s : Network E ι) : Action ι → Prop
  | .triggerMineBlock p date _         => clock (s.nodes p).chain date
  | .deliver p (.transaction _) date _ => clock (s.nodes p).chain date
  | _                                  => True

instance (clock : List Block → Int → Prop) [∀ c date, Decidable (clock c date)]
    (s : Network E ι) (a : Action ι) : Decidable (a.byClock clock s) := by
  cases a with
  | deliver p message => cases message <;> unfold Action.byClock <;> infer_instance
  | _ => unfold Action.byClock; infer_instance

theorem Action.byClock.mono {clock clock' : List Block → Int → Prop} {s : Network E ι}
    {a : Action ι} (h : a.byClock clock s) (hclock : ∀ c date, clock c date → clock' c date) :
    a.byClock clock' s := by
  cases a with
  | triggerMineBlock p date => exact hclock _ _ h
  | deliver p message date =>
    cases message with
    | transaction body => exact hclock _ _ h
    | _ => trivial
  | _ => trivial

/-- Any value is possible. -/
theorem Action.byClock_true (s : Network E ι) (a : Action ι) :
    a.byClock (fun _ _ => True) s := by
  unfold Action.byClock
  split <;> trivial

/-- The runs of the network on such clocks. -/
def clockSystem [DecidableEq ι] (names : List ι) (cfgs : ι → Config E ι)
    (clock : List Block → Int → Prop) : System (Network E ι) (Action ι) :=
  (networkSystem names cfgs).restrict fun s a => a.byClock clock s

theorem clockSystem_of_reachable [DecidableEq ι] {names : List ι} {cfgs : ι → Config E ι}
    {s : Network E ι} (h : Reachable (networkSystem names cfgs) s) :
    Reachable (clockSystem names cfgs fun _ _ => True) s := by
  apply h.restrict
  exact Action.byClock_true

/-- Users ask for transfers in `asks` only. -/
def Action.asked (asks : ι → String → Int → Prop) : Action ι → Prop
  | .transactionRequest p receiver amount => asks p receiver amount
  | _                                     => True

/-- The runs of the network on such clocks and with such users. -/
def inputSystem [DecidableEq ι] (names : List ι) (cfgs : ι → Config E ι)
    (clock : List Block → Int → Prop) (asks : ι → String → Int → Prop) :
    System (Network E ι) (Action ι) :=
  (networkSystem names cfgs).restrict fun s a => a.byClock clock s ∧ a.asked asks

/-- Users may ask for anything. -/
theorem inputSystem_of_reachable [DecidableEq ι] {names : List ι} {cfgs : ι → Config E ι}
    {clock : List Block → Int → Prop} {s : Network E ι}
    (h : Reachable (clockSystem names cfgs clock) s) :
    Reachable (inputSystem names cfgs clock fun _ _ _ => True) s := by
  induction h with
  | init h0 => exact .init h0
  | step a _ hs ih =>
    refine .step a ih ⟨⟨hs.1, ?_⟩, hs.2⟩
    cases a <;> trivial

/-! ### The steps -/

/-- The fields of the blockchain object that its node sets once. -/
structure Blockchain.SetUp (cfg : Config E ι) (bc : Blockchain E) : Prop where
  reward : bc.miningReward = 100
  key    : bc.keyPair = some cfg.myKey

theorem Blockchain.SetUp.createTransaction {cfg : Config E ι} {bc : Blockchain E} (tx : Val)
    (h : bc.SetUp cfg) : (bc.createTransaction tx).SetUp cfg := ⟨h.reward, h.key⟩

theorem Op.Outcome.setUp {cfg : Config E ι} {bc bc' : Blockchain E} {op : Op} {r : Result Unit}
    (h : op.Outcome bc r bc') (hbc : bc.SetUp cfg) : bc'.SetUp cfg := by
  cases h <;> exact ⟨hbc.reward, hbc.key⟩

/-- The properties `C` of chains and `V` of transactions survive everything
    that nodes do to chains and transactions. -/
structure Preserved (cfgs : ι → Config E ι) (clock : List Block → Int → Prop)
    (asks : ι → String → Int → Prop) (C : List Block → Prop) (V : Val → Prop) : Prop where
  genesis : C [createGenesisBlock]
  trigger : V Node.triggerTransaction.toValue
  requested : ∀ p receiver amount tx, receiver ≠ "" → asks p receiver amount →
    Node.requestedTransaction (cfgs p) (.str receiver) (.num amount) = .ok tx →
    callIsValid E tx.toValue = .ok true → V tx.toValue
  /-- The coinbase of a mining that throws. -/
  stranded : ∀ p (bc : Blockchain E) coinBase date, bc.SetUp (cfgs p) → C bc.chain →
    (∀ tx ∈ bc.pendingTransactions, V tx) → clock bc.chain date →
    bc.coinBaseTransaction (cfgs p).myWalletAddress = .ok coinBase →
    ¬ bc.CanMine (cfgs p).myWalletAddress → V coinBase.toValue
  mined : ∀ p (bc : Blockchain E) coinBase b date, bc.SetUp (cfgs p) → C bc.chain →
    (∀ tx ∈ bc.pendingTransactions, V tx) →
    bc.coinBaseTransaction (cfgs p).myWalletAddress = .ok coinBase → MinedOn E bc.chain b →
    clock bc.chain date → b.timestamp = .num date →
    b.transactions = .arr (bc.pendingTransactions ++ [coinBase.toValue]) → C (bc.chain ++ [b])
  sentChain : ∀ c c', C c → transportChain c = .ok c' → C c'
  sent : ∀ tx body, V tx → Json.transport tx = .ok (some body) → V body

variable {cfgs : ι → Config E ι} {clock : List Block → Int → Prop}
  {asks : ι → String → Int → Prop} {C : List Block → Prop} {V : Val → Prop}

/-- Everything a node holds has the properties. -/
structure Node.Holds (cfg : Config E ι) (C : List Block → Prop) (V : Val → Prop) (n : Node E) :
    Prop where
  chain     : C n.chain
  pending   : ∀ tx ∈ n.xCoin.pendingTransactions, V tx
  responses : ∀ c ∈ n.neighborNodeResponseList, C c
  setUp     : n.xCoin.SetUp cfg

/-- What a message carries has the properties. -/
def Message.Holds (C : List Block → Prop) (V : Val → Prop) : Message ι → Prop
  | .getBlocks _      => True
  | .blocks _ body    => ∀ c ∈ body, C c
  | .transaction body => V body
  | .inv body         => C body

/-- What an effect sends has the properties. -/
def Effect.Holds (C : List Block → Prop) (V : Val → Prop) : Effect → Prop
  | .sendInv chain      => C chain
  | .sendTransaction tx => V tx.toValue
  | .save _             => True

/-- The event is one that happens to a node of a network, and what it brings
    has the properties. -/
def Event.Brings (clock : Int → Prop) (asks : String → Int → Prop) (C : List Block → Prop)
    (V : Val → Prop) : Event ι → Prop
  | .triggerMineBlock date _ => clock date
  | .transactionRequest receiver amount =>
      ∃ r n, r ≠ "" ∧ asks r n ∧ receiver = .str r ∧ amount = .num n
  | .transaction body date _ => V body ∧ clock date
  | .inv _                   => True
  | .getBlocks _ body        => ∀ c ∈ body, C c
  | .restore _               => False

/-! ### Nodes -/

namespace Preserved

variable (hP : Preserved cfgs clock asks C V)
include hP

theorem holds_new (p : ι) : (Node.new (cfgs p)).Holds (cfgs p) C V where
  chain     := hP.genesis
  pending   := by simp [Node.new, Blockchain.new]
  responses := by simp [Node.new]
  setUp     := ⟨rfl, rfl⟩

/-- Mining keeps the properties of chain and pending list. -/
theorem mine {p : ι} {bc bc' : Blockchain E} {date : Int} {fuel : Nat} {r : Result Unit}
    (h : (Op.minePendingTransactions (cfgs p).myWalletAddress date fuel).Outcome bc r bc')
    (hdate : clock bc.chain date) (hbc : bc.SetUp (cfgs p)) (hchain : C bc.chain)
    (hpending : ∀ tx ∈ bc.pendingTransactions, V tx) :
    C bc'.chain ∧ ∀ tx ∈ bc'.pendingTransactions, V tx := by
  cases h with
  | unchanged => exact ⟨hchain, hpending⟩
  | stranded _ _ _ coinBase e hcoin hthrows =>
    have hcoin' := hP.stranded p bc coinBase date hbc hchain hpending hdate hcoin hthrows
    exact ⟨hchain, Blockchain.forall_mem_createTransaction.mpr ⟨hpending, hcoin'⟩⟩
  | mined _ _ _ coinBase b hcoin hmined htime htxs =>
    have hnext := hP.mined p bc coinBase b date hbc hchain hpending hcoin hmined hdate htime htxs
    exact ⟨hnext, by simp⟩

omit hP in
/-- A callback of `startup` records a chain with the property. -/
theorem recorded {cfg : Config E ι} {n : Node E} {body : Option (List Block)}
    (h : n.Holds cfg C V) (hbody : ∀ c ∈ body, C c) :
    ∀ c ∈ (n.recordResponse body).neighborNodeResponseList, C c := by
  intro c hc
  rcases List.mem_append.mp hc with hc | hc
  · exact h.responses c hc
  · exact hbody c (by simpa using hc)

/-- **Step lemma** for a node: an event keeps the properties, and what it
    sends has them. -/
theorem outcome {p : ι} {n n' : Node E} {ev : Event ι} {effects : List Effect}
    (h : ev.Outcome (cfgs p) n n' effects) (hn : n.Holds (cfgs p) C V) (hne : n.chain ≠ [])
    (hev : ev.Brings (clock n.chain) (asks p) C V) :
    n'.Holds (cfgs p) C V ∧ ∀ e ∈ effects, e.Holds C V := by
  cases h with
  | refused => exact ⟨hn, by simp⟩
  | ignored => exact ⟨hn, by simp⟩
  | requested receiver amount tx hsigned hvalid =>
    obtain ⟨r, k, hr, hasks, rfl, rfl⟩ := hev
    have htx := hP.requested p r k tx hr hasks hsigned hvalid
    refine ⟨⟨hn.chain, ?_, hn.responses, hn.setUp.createTransaction _⟩, ?_⟩
    · exact Blockchain.forall_mem_createTransaction.mpr ⟨hn.pending, htx⟩
    · exact List.forall_mem_singleton.mpr htx
  | triggered date fuel r xCoin hmine =>
    have hpushed := Blockchain.forall_mem_createTransaction.mpr ⟨hn.pending, hP.trigger⟩
    have hsetUp := hn.setUp.createTransaction Node.triggerTransaction.toValue
    obtain ⟨hchain, hpending⟩ := hP.mine hmine hev hsetUp hn.chain hpushed
    exact ⟨⟨hchain, hpending, hn.responses, hmine.setUp hsetUp⟩, by simp⟩
  | received body date fuel r xCoin effects hmine heffects =>
    have hpushed := Blockchain.forall_mem_createTransaction.mpr ⟨hn.pending, hev.1⟩
    have hsetUp := hn.setUp.createTransaction body
    obtain ⟨hchain, hpending⟩ := hP.mine hmine hev.2 hsetUp hn.chain hpushed
    refine ⟨⟨hchain, hpending, hn.responses, hmine.setUp hsetUp⟩, ?_⟩
    rcases heffects with rfl | rfl
    · simp
    · simp [Effect.Holds, hchain]
  | recorded k body =>
    exact ⟨⟨hn.chain, hn.pending, recorded hn hev, hn.setUp⟩, by simp⟩
  | announced k body =>
    refine ⟨⟨hn.chain, hn.pending, recorded hn hev, hn.setUp⟩, ?_⟩
    exact List.forall_mem_singleton.mpr hn.chain
  | adopted k body longest hlast hlongest hle =>
    have hadopted : C longest := by
      subst hlongest
      exact recorded hn hev _ (Node.longest_mem_of_le hne hle)
    have hsetUp := hn.setUp
    refine ⟨⟨hadopted, hn.pending, recorded hn hev, ⟨hsetUp.reward, hsetUp.key⟩⟩, ?_⟩
    exact List.forall_mem_singleton.mpr trivial
  | restored => exact hev.elim

/-- What an effect puts on its way has the properties. -/
theorem effect_messages {neighborNodeList : List ι} {effect : Effect} (h : effect.Holds C V) :
    ∀ m ∈ effect.messages neighborNodeList, m.2.Holds C V := by
  rintro ⟨q, m⟩ hm
  cases Effect.carries_of_mem hm with
  | inv chain body hbody => exact hP.sentChain chain body h hbody
  | transaction tx body hbody => exact hP.sent tx.toValue body h hbody

end Preserved

/-! ### Networks -/

/-- Everything the network holds has the properties. -/
structure Network.Holds (cfgs : ι → Config E ι) (C : List Block → Prop) (V : Val → Prop)
    (s : Network E ι) : Prop where
  nodes    : ∀ p, (s.nodes p).Holds (cfgs p) C V
  messages : ∀ m ∈ s.messages, m.2.Holds C V

theorem Network.Holds.hasChain {s : Network E ι} (h : s.Holds cfgs C V) {c : List Block}
    (hc : s.HasChain c) : C c := by
  cases hc with
  | node p => exact (h.nodes p).chain
  | response p _ hmem => exact (h.nodes p).responses c hmem
  | blocks p k _ hmem => exact h.messages _ hmem c rfl
  | inv p _ hmem => exact h.messages _ hmem

theorem Network.Holds.hasTransaction {s : Network E ι} (h : s.Holds cfgs C V) {tx : Val}
    (htx : s.HasTransaction tx) : V tx := by
  cases htx with
  | pending p _ hmem => exact (h.nodes p).pending tx hmem
  | message p _ hmem => exact h.messages _ hmem

/-- What is delivered brings what the message carries. -/
theorem Message.Holds.event {m : Message ι} {ev : Event ι} {date : Int} {fuel : Nat}
    {clock : Int → Prop} {asks : String → Int → Prop} (h : m.Holds C V)
    (hdate : ∀ body, m = .transaction body → clock date)
    (hevent : m.event date fuel = some ev) : ev.Brings clock asks C V := by
  cases m with
  | getBlocks asker => cases hevent
  | blocks k body =>
    cases hevent
    exact h
  | transaction body =>
    cases hevent
    exact ⟨h, hdate body rfl⟩
  | inv body =>
    cases hevent
    trivial

/-- The messages around one that is taken off the list. -/
theorem mem_messages_of_rest {s : Network E ι} {p : ι} {m : Message ι}
    {l₁ l₂ : List (ι × Message ι)} (h : s.messages = l₁ ++ (p, m) :: l₂) :
    (p, m) ∈ s.messages ∧ ∀ x ∈ l₁ ++ l₂, x ∈ s.messages := by
  rw [h]
  refine ⟨by simp, ?_⟩
  intro x hx
  rcases List.mem_append.mp hx with hx | hx
  · exact List.mem_append_left _ hx
  · exact List.mem_append_right _ (List.mem_cons_of_mem _ hx)

section steps

variable [DecidableEq ι] {names : List ι} {s s' : Network E ι}

/-- Nodes always hold a block. -/
theorem nodes_ne_nil (h : Reachable (networkSystem names cfgs) s) (p : ι) :
    (s.nodes p).chain ≠ [] := ((netInv_of_reachable h).nodes p).ne_nil

/-- An event at `q` leaves the other nodes as they are. -/
theorem Network.Handles.node_cases {q : ι} {ev : Event ι} {rest : List (ι × Message ι)}
    (h : s.Handles cfgs q ev rest s') (hne : (s.nodes q).chain ≠ []) (p : ι) :
    s'.nodes p = s.nodes p ∨ (p = q ∧ ∃ effects,
      Event.Outcome (cfgs p) (s.nodes p) ev (s'.nodes p) effects) := by
  obtain ⟨r, n', effects, hhandle, rfl⟩ := h
  by_cases hp : p = q
  · subst hp
    right
    refine ⟨rfl, effects, ?_⟩
    show Event.Outcome (cfgs p) (s.nodes p) ev (Function.update s.nodes p n' p) effects
    rw [Function.update_self]
    exact Node.handle_outcome hne hhandle
  · left
    show Function.update s.nodes q n' p = s.nodes p
    exact Function.update_of_ne hp _ _

/-- An event at one node keeps the properties everywhere. -/
theorem Preserved.handles (hP : Preserved cfgs clock asks C V) {p : ι} {ev : Event ι}
    {rest : List (ι × Message ι)} (hs : s.Holds cfgs C V) (hne : (s.nodes p).chain ≠ [])
    (hev : ev.Brings (clock (s.nodes p).chain) (asks p) C V) (hrest : ∀ m ∈ rest, m ∈ s.messages)
    (h : s.Handles cfgs p ev rest s') : s'.Holds cfgs C V := by
  obtain ⟨r, n', effects, hhandle, rfl⟩ := h
  obtain ⟨hnode, heffects⟩ := hP.outcome (Node.handle_outcome hne hhandle) (hs.nodes p) hne hev
  constructor
  · intro q
    show (Function.update s.nodes p n' q).Holds (cfgs q) C V
    by_cases hq : q = p
    · subst hq
      rw [Function.update_self]
      exact hnode
    · rw [Function.update_of_ne hq]
      exact hs.nodes q
  · intro m hm
    rcases List.mem_append.mp hm with hm | hm
    · exact hs.messages m (hrest m hm)
    · obtain ⟨effect, heffect, hm⟩ := List.mem_flatMap.mp hm
      exact hP.effect_messages (heffects effect heffect) m hm

/-- **Step lemma** for the network. -/
theorem Preserved.step (hP : Preserved cfgs clock asks C V) {a : Action ι}
    (hs : s.Holds cfgs C V) (hne : ∀ p, (s.nodes p).chain ≠ []) (hclock : a.byClock clock s)
    (hasks : a.asked asks) (h : Network.Step cfgs s a s') : s'.Holds cfgs C V := by
  cases h with
  | triggerMineBlock p date fuel _ h =>
    have hev : (Event.triggerMineBlock date fuel : Event ι).Brings
        (clock (s.nodes p).chain) (asks p) C V := hclock
    exact hP.handles hs (hne p) hev (fun _ hm => hm) h
  | transactionRequest p receiver amount _ hreceiver h =>
    have hev : (Event.transactionRequest (.str receiver) (.num amount) : Event ι).Brings
        (clock (s.nodes p).chain) (asks p) C V := ⟨receiver, amount, hreceiver, hasks, rfl, rfl⟩
    exact hP.handles hs (hne p) hev (fun _ hm => hm) h
  | answer p asker body l₁ l₂ hmessage hbody =>
    obtain ⟨_, hrest⟩ := mem_messages_of_rest hmessage
    refine ⟨hs.nodes, List.forall_mem_append.mpr ⟨fun m hm => hs.messages m (hrest m hm), ?_⟩⟩
    refine List.forall_mem_singleton.mpr ?_
    rintro c hc
    obtain rfl : body = c := by simpa using hc
    exact hP.sentChain _ _ (hs.nodes p).chain hbody
  | fail p asker l₁ l₂ hmessage =>
    obtain ⟨_, hrest⟩ := mem_messages_of_rest hmessage
    refine ⟨hs.nodes, List.forall_mem_append.mpr ⟨fun m hm => hs.messages m (hrest m hm), ?_⟩⟩
    refine List.forall_mem_singleton.mpr ?_
    rintro c hc
    cases hc
  | lose p message l₁ l₂ hmessage _ =>
    obtain ⟨_, hrest⟩ := mem_messages_of_rest hmessage
    exact ⟨hs.nodes, fun m hm => hs.messages m (hrest m hm)⟩
  | deliver p message ev date fuel l₁ l₂ _ hmessage hevent h =>
    obtain ⟨hmem, hrest⟩ := mem_messages_of_rest hmessage
    have hbrings : ev.Brings (clock (s.nodes p).chain) (asks p) C V := by
      refine (hs.messages _ hmem).event ?_ hevent
      rintro body rfl
      exact hclock
    exact hP.handles hs (hne p) hbrings hrest h

/-- **The rule**: properties that survive every step hold of everything the
    network ever holds. -/
theorem Preserved.of_inputs (hP : Preserved cfgs clock asks C V)
    (h : Reachable (inputSystem names cfgs clock asks) s) : s.Holds cfgs C V := by
  refine h.invariant ?_ ?_
  · intro s hs
    rw [show s = .new names cfgs from hs]
    refine ⟨fun p => hP.holds_new p, ?_⟩
    intro m hm
    obtain ⟨p, _, hm⟩ := List.mem_flatMap.mp hm
    obtain ⟨q, _, rfl⟩ := List.mem_map.mp hm
    trivial
  · intro s a s' hreach hs hstep
    exact hP.step hs (nodes_ne_nil hreach.of_restrict) hstep.1.1 hstep.1.2 hstep.2

/-- The rule for properties that survive whatever users ask for. -/
theorem Preserved.of_reachable (hP : Preserved cfgs clock (fun _ _ _ => True) C V)
    (h : Reachable (clockSystem names cfgs clock) s) : s.Holds cfgs C V :=
  hP.of_inputs (inputSystem_of_reachable h)

end steps

end XCoin
