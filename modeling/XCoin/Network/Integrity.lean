import XCoin.Chain.Copies
import XCoin.Network.Content
import XCoin.Network.Provenance

/-! # Integrity of the chains of a network

    Every chain that is anywhere in a network, at a node, recorded or on its
    way, is a copy of a chain that one object could have mined: mining on
    adopted blocks and sending them never breaks a link, a hash, an index or
    a difficulty.

    Two results follow.  Chains that show the same hash at a position are the
    same up to there; and the only exception a handler can end with is that
    of a negative difficulty.
-/

namespace XCoin

open Js LTS Throwing

variable {E : Env} {ι : Type} {cfg : Config E ι} {cfgs : ι → Config E ι}

/-! ### Everything is a copy -/

theorem triggerTransaction_isJson : Json.IsJson Node.triggerTransaction.toValue := by
  simp [Node.triggerTransaction, Transaction.toValue, Transaction.new, Json.IsJson,
    Json.FieldsJson, Transaction.keys_inOrder]

/-- Nodes turn copies into copies, and handle values that can be sent. -/
theorem preserved_isCopy (cfgs : ι → Config E ι) (clock : Int → Prop)
    (asks : ι → String → Int → Prop) :
    Preserved cfgs (fun _ => clock) asks (IsCopy E clock) Json.IsJson where
  genesis := isCopy_genesis
  trigger := triggerTransaction_isJson
  requested := by
    intro p receiver amount tx _ _ hsigned _
    exact requestedTransaction_isJson (.inl (by trivial)) (.inl (by trivial)) hsigned
  stranded := by
    intro p bc coinBase date _ _ _ _ hcoin _
    exact coinBase_isJson (.inl (by trivial)) hcoin
  mined := by
    intro p bc coinBase b date _ hcopy hpending hcoin hmined hdate htime htxs
    refine hcopy.append hmined hdate htime htxs (Json.elemsJson_iff.mpr ?_)
    refine List.forall_mem_append.mpr ⟨hpending, List.forall_mem_singleton.mpr ?_⟩
    exact coinBase_isJson (.inl (by trivial)) hcoin
  sentChain := fun _ _ h hsent => h.transport hsent
  sent := fun _ _ h hsent => h.transport hsent

/-! ### A network of two -/

/-- Two nodes that are neighbours of each other, with digests of 64 digits. -/
def pairConfig (name : Bool) : Config digestEnv Bool where
  neighborNodeList := [!name]
  myKey            := ()

/-- The one node has mined a block and has served the other's request for
    its chain, in runs that allow these two steps. -/
theorem pair_answered (ok : Network digestEnv Bool → Action Bool → Prop)
    (hmine : ok (.new [false, true] pairConfig) (.triggerMineBlock false 7 1))
    (hanswer : ∀ s, ok s (.answer false true)) :
    ∃ (s : Network digestEnv Bool) (body : List Block),
      Reachable ((networkSystem [false, true] pairConfig).restrict ok) s ∧
      (s.nodes false).chain.length = 2 ∧ transportChain (s.nodes false).chain = .ok body ∧
      (true, .blocks false (some body)) ∈ s.messages ∧
      ((hashTexts (s.nodes false).chain).map fun t => digestEnv.SHA256 (.str t)).Nodup := by
  have hfinal : ((Node.new (pairConfig false)).triggerMineBlock (pairConfig false) 7 1).map
      (fun r => decide (r.node.chain.length = 2 ∧ (transportChain r.node.chain).toBool = true ∧
        ((hashTexts r.node.chain).map fun t => digestEnv.SHA256 (.str t)).Nodup)) = some true := by
    decide +kernel
  obtain ⟨⟨result, node, effects⟩, hhandle, hfacts⟩ := Option.map_eq_some_iff.mp hfinal
  obtain ⟨hlen, hsent, hnodup⟩ := of_decide_eq_true hfacts
  obtain ⟨body, hbody⟩ : ∃ body, transportChain node.chain = .ok body := by
    cases htransport : transportChain node.chain with
    | ok body => exact ⟨body, rfl⟩
    | error e =>
      rw [htransport] at hsent
      cases hsent
  have heffects : effects = [] := by
    have hout : (Event.triggerMineBlock 7 1 : Event Bool).Outcome (pairConfig false)
        (.new (pairConfig false)) node effects :=
      Node.handle_outcome (List.cons_ne_nil _ _) hhandle
    cases hout
    rfl
  subst heffects
  let s₁ : Network digestEnv Bool :=
    { nodes    := Function.update (fun p => .new (pairConfig p)) false node
      messages := [(true, .getBlocks false), (false, .getBlocks true)] ++ [] }
  have hfirst : ((networkSystem [false, true] pairConfig).restrict ok).step
      (.new [false, true] pairConfig) (.triggerMineBlock false 7 1) s₁ :=
    ⟨hmine, .triggerMineBlock false 7 1 _ ⟨result, node, [], hhandle, rfl⟩⟩
  have hsecond : ((networkSystem [false, true] pairConfig).restrict ok).step s₁
      (.answer false true)
      { s₁ with messages := [(true, .getBlocks false)] ++ [] ++
        [(true, .blocks false (some body))] } :=
    ⟨hanswer s₁, .answer false true body [(true, .getBlocks false)] [] rfl hbody⟩
  have hreach : Reachable ((networkSystem [false, true] pairConfig).restrict ok) _ :=
    .step _ (.step _ (.init rfl) hfirst) hsecond
  exact ⟨_, body, hreach, hlen, hbody, by simp, hnodup⟩

/-! ### Integrity -/

section network

variable [DecidableEq ι] {names : List ι} {s t : Network E ι}

theorem holds_copies {clock : Int → Prop}
    (h : Reachable (clockSystem names cfgs fun _ => clock) s) :
    s.Holds cfgs (IsCopy E clock) Json.IsJson :=
  (preserved_isCopy cfgs clock fun _ _ _ => True).of_reachable h

/-- **Integrity.** In every reachable state of a network, every chain at a
    node, among the recorded responses or in a message starts with the genesis
    block, and each later block continues the one before it: index, previous
    hash, difficulty, hash and work are what the prefix below it demands. -/
theorem network_chain_integrity (h : Reachable (networkSystem names cfgs) s) {c : List Block}
    (hc : s.HasChain c) : CopyInv E c :=
  ((holds_copies (clockSystem_of_reachable h)).hasChain hc).copyInv

end network

/-- The chain that is on its way to the other node. -/
theorem network_chain_integrity_answered :
    ∃ (s : Network digestEnv Bool) (c : List Block),
      Reachable (networkSystem [false, true] pairConfig) s ∧ s.HasChain c ∧ c.length = 2 ∧
      CopyInv digestEnv c := by
  obtain ⟨s, body, hreach, hlen, hbody, hmem, _⟩ :=
    pair_answered (fun _ _ => True) trivial fun _ => trivial
  have hchain : s.HasChain body := .blocks true false body hmem
  refine ⟨s, body, hreach.of_restrict, hchain, ?_, ?_⟩
  · rw [(transportChain_ok hbody).1, hlen]
  · exact network_chain_integrity hreach.of_restrict hchain

/-! ### Agreement -/

/-- A copy is a copy up to any of its blocks. -/
theorem IsCopy.take {clock : Int → Prop} {c : List Block} (h : IsCopy E clock c) (i : Nat) :
    IsCopy E clock (c.take (i + 1)) where
  mined := by
    obtain ⟨m, hm, hfaces⟩ := h.mined
    exact ⟨m.take (i + 1), hm.take (by simp), faces_take hfaces (i + 1)⟩
  lists := fun b hb => h.lists b (List.mem_of_mem_take hb)

theorem NoCollision.take {c₁ c₂ : List Block}
    (h : NoCollision E (hashTexts c₁ ++ hashTexts c₂)) (i : Nat) :
    NoCollision E (hashTexts (c₁.take i) ++ hashTexts (c₂.take i)) := by
  rw [← List.take_append_drop i c₁, ← List.take_append_drop i c₂] at h
  exact h.of_append

section network

variable [DecidableEq ι] {names : List ι} {s t : Network E ι}

/-- **Agreement.** Wherever two chains of a network show the same hash at the
    same position, at any two times and at any two places, they agree on all
    blocks up to there, on clocks that show natural numbers and if SHA-256
    has no collision among the texts hashed in the two chains. -/
theorem network_hash_agreement
    (hs : Reachable (clockSystem names cfgs fun _ date => 0 ≤ date) s)
    (ht : Reachable (clockSystem names cfgs fun _ date => 0 ≤ date) t)
    (hdigest : ∀ text, IsDigest (E.SHA256 (.str text))) {c₁ c₂ : List Block}
    (hc₁ : s.HasChain c₁) (hc₂ : t.HasChain c₂)
    (hinj : NoCollision E (hashTexts c₁ ++ hashTexts c₂)) {i : Nat} {b₁ b₂ : Block}
    (hb₁ : c₁[i]? = some b₁) (hb₂ : c₂[i]? = some b₂) (hhash : b₁.hash = b₂.hash) :
    List.Forall₂ Block.Agree (c₁.take (i + 1)) (c₂.take (i + 1)) := by
  have hcopy₁ := ((holds_copies hs).hasChain hc₁).take i
  have hcopy₂ := ((holds_copies ht).hasChain hc₂).take i
  have hi₁ := (List.getElem?_eq_some_iff.mp hb₁).1
  have hi₂ := (List.getElem?_eq_some_iff.mp hb₂).1
  -- the block at the position is the head of the chain up to there
  have hhead {chain : List Block} {b : Block} (hb : chain[i]? = some b) (hi : i < chain.length) :
      (chain.take (i + 1)).getLast? = some b := by
    rw [List.getLast?_eq_getElem?, List.length_take, Nat.min_eq_left (by omega),
      Nat.add_sub_cancel, List.getElem?_take_of_lt (by omega), hb]
  refine forall₂_agree_iff.mpr (hcopy₁.faces_eq hcopy₂ hdigest (hinj.take (i + 1)) ?_ ?_)
  · simp only [List.length_take]
    omega
  · rw [hhead hb₁ hi₁, hhead hb₂ hi₂, Option.map_some, Option.map_some, hhash]

end network

/-- The chain of a node and what is on its way of it. -/
theorem network_hash_agreement_answered :
    ∃ (s : Network digestEnv Bool) (c : List Block),
      Reachable (clockSystem [false, true] pairConfig fun _ date => 0 ≤ date) s ∧
      s.HasChain (s.nodes false).chain ∧ s.HasChain c ∧
      List.Forall₂ Block.Agree ((s.nodes false).chain.take 2) (c.take 2) := by
  obtain ⟨s, body, hreach, hlen, hbody, hmem, hnodup⟩ :=
    pair_answered (fun s a => a.byClock (fun _ date => 0 ≤ date) s)
      (show (0 : Int) ≤ 7 by decide) fun _ => trivial
  have hchain : s.HasChain body := .blocks true false body hmem
  have hcopies : s.Holds pairConfig (IsCopy digestEnv (0 ≤ ·)) Json.IsJson := holds_copies hreach
  have hfaces := (hcopies.nodes false).chain.faces_transport hbody
  have htexts := hashTexts_congr hfaces
  obtain ⟨b₂, hb₂⟩ : ∃ b₂, body[1]? = some b₂ :=
    ⟨_, List.getElem?_eq_getElem (by rw [(transportChain_ok hbody).1, hlen]; decide)⟩
  obtain ⟨b₁, hb₁, hagree⟩ := exists_agree hfaces hb₂
  refine ⟨s, body, hreach, .node false, hchain, ?_⟩
  refine network_hash_agreement hreach hreach isDigest_digestEnv (.node false) hchain ?_ hb₁ hb₂
    hagree.hash
  intro x hx y hy heq
  rw [← htexts, List.mem_append, or_self] at hx hy
  exact List.inj_on_of_nodup_map hnodup hx hy heq

/-! ### Exceptions -/

/-- What the packages are trusted for when nodes sign: a key signs every hash,
    its signatures verify, and public keys and signatures have a text. -/
structure WorkingKeys (E : Env) : Prop where
  signs        : ∀ key hash, ∃ sig, E.sign key hash = .ok sig
  verifies     : SigningVerifies E
  toDER_ne     : ∀ sig, E.toDER sig ≠ ""
  getPublic_ne : ∀ key, E.getPublic key ≠ ""

/-- A node can make the coinbase of its next block. -/
theorem WorkingKeys.exists_coinBase (hE : WorkingKeys E) {bc : Blockchain E}
    (hbc : bc.SetUp cfg) :
    ∃ coinBase, bc.coinBaseTransaction cfg.myWalletAddress = .ok coinBase := by
  unfold Blockchain.coinBaseTransaction
  -- the id and the hash of the coinbase are computed from texts and numbers
  obtain ⟨id, hid⟩ : ∃ id, (Transaction.new .null cfg.myWalletAddress (.num bc.miningReward) .null
      (.arr []) (.arr [newTxOut cfg.myWalletAddress (.num bc.miningReward)])).getTransactionId E
      true "" = .ok id := ⟨_, rfl⟩
  obtain ⟨hash, hhash⟩ : ∃ hash, (Transaction.new .null cfg.myWalletAddress
      (.num bc.miningReward) .null (.arr [])
      (.arr [newTxOut cfg.myWalletAddress (.num bc.miningReward)])).calculateHashV2 E =
      .ok hash := ⟨_, rfl⟩
  obtain ⟨sig, hsig⟩ := hE.signs cfg.myKey hash
  simp only [hid, hhash, hbc.key, ok_bind, signHash, hsig, pure_eq_ok]
  exact ⟨_, rfl⟩

/-- A node can make and sign every transaction it is asked for, and finds it
    valid. -/
theorem WorkingKeys.exists_requested (hE : WorkingKeys E) (cfg : Config E ι) (receiver : String)
    (amount : Int) :
    ∃ tx, Node.requestedTransaction cfg (.str receiver) (.num amount) = .ok tx ∧
      callIsValid E tx.toValue = .ok true := by
  obtain ⟨tx, htx⟩ := exists_requestedTransaction (hE.signs cfg.myKey) receiver amount
  obtain ⟨_, hash, sig, _, _, _, hfrom, _, _, hsignature, hhash, hsig⟩ :=
    requestedTransaction_fields htx
  refine ⟨tx, htx, ?_⟩
  rw [callIsValid_toValue]
  unfold Transaction.isValid
  rw [hhash, ok_bind, hfrom, hsignature, Transaction.isMissing_text (hE.toDER_ne sig)]
  exact hE.verifies cfg.myKey hash sig hsig

/-- A request is accepted: the transaction is pending, and sent. -/
theorem WorkingKeys.request_accepted (hE : WorkingKeys E) (cfg : Config E ι) (n : Node E)
    {receiver : String} (hreceiver : receiver ≠ "") (amount : Int) :
    ∃ tx, Node.requestedTransaction cfg (.str receiver) (.num amount) = .ok tx ∧
      n.postTransactionRequest cfg (.str receiver) (.num amount) =
        { result  := .ok ()
          node    := { n with xCoin := n.xCoin.createTransaction tx.toValue }
          effects := [.sendTransaction tx] } := by
  obtain ⟨tx, htx, hvalid⟩ := hE.exists_requested cfg receiver amount
  obtain ⟨_, _, _, _, _, _, hfrom, hto, _⟩ := requestedTransaction_fields htx
  have hfromText : tx.fromAddress.truthy = true := by
    simp [hfrom, Config.myWalletAddress, Value.truthy, hE.getPublic_ne]
  have htoText : tx.toAddress.truthy = true := by simp [hto, Value.truthy, hreceiver]
  have hadd : n.xCoin.addTransaction tx.toValue =
      (.ok (), n.xCoin.createTransaction tx.toValue) := by
    show (if !tx.fromAddress.truthy || !tx.toAddress.truthy then _ else _) = _
    rw [hfromText, htoText, hvalid]
    rfl
  refine ⟨tx, htx, ?_⟩
  simp only [Node.postTransactionRequest, htx, hadd]

/-- The next difficulty of a copy is an integer. -/
theorem IsCopy.exists_difficulty {clock : Int → Prop} {c : List Block} (h : IsCopy E clock c) :
    ∃ d : Int, getDifficulty c = .ok (.int d) := by
  obtain ⟨m, hm, hfaces⟩ := h.mined
  rw [← getDifficulty_congr (forall₂_agree_iff.mpr hfaces)]
  exact (grown_difficulty (grown_minedOn hm)).2

/-- Mining can be carried out unless the difficulty is negative. -/
theorem WorkingKeys.canMine_iff (hE : WorkingKeys E) {bc : Blockchain E} {d : Int}
    (hbc : bc.SetUp cfg) (hpending : ∀ tx ∈ bc.pendingTransactions, Json.IsJson tx)
    (hd : getDifficulty bc.chain = .ok (.int d)) : bc.CanMine cfg.myWalletAddress ↔ 0 ≤ d := by
  rw [Blockchain.canMine_iff, and_iff_right (hE.exists_coinBase hbc)]
  constructor
  · rintro ⟨difficulty, count, json, hdiff, hcount, _⟩
    obtain rfl : Difficulty.int d = difficulty := Except.ok.inj (hd.symm.trans hdiff)
    by_contra hneg
    rw [Difficulty.repeatCount, if_pos (by omega)] at hcount
    cases hcount
  · intro hnonneg
    have hjson : Json.IsJson (.arr bc.pendingTransactions : Val) := Json.elemsJson_iff.mpr hpending
    obtain ⟨w, hw⟩ := hjson.exists_transport
    obtain ⟨text, htext, _⟩ := Json.parse_stringify hjson.keysInOrder hw
    refine ⟨.int d, d.toNat, some text, hd, ?_, htext⟩
    rw [Difficulty.repeatCount, if_neg (by omega)]

/-- An event that mines ends as its call of `minePendingTransactions` does,
    and has no effects if that throws. -/
theorem Node.handle_mines {n n' : Node E} {ev : Event ι} {tx : Val} {r : Result Unit}
    {effects : List Effect} (hmines : ev.mines = some tx)
    (h : n.handle cfg ev = some ⟨r, n', effects⟩) :
    ∃ date fuel, (Op.minePendingTransactions cfg.myWalletAddress date fuel).Outcome
      (n.xCoin.createTransaction tx) r n'.xCoin ∧ (r ≠ .ok () → effects = []) := by
  cases ev with
  | triggerMineBlock date fuel =>
    cases hmines
    obtain ⟨⟨q, xCoin⟩, hmine, heq⟩ := Option.map_eq_some_iff.mp h
    cases heq
    exact ⟨date, fuel, Op.exec_outcome (Op.exec_minePendingTransactions hmine), fun _ => rfl⟩
  | transaction body date fuel =>
    cases hmines
    obtain ⟨⟨q, xCoin⟩, hmine, heq⟩ := Option.map_eq_some_iff.mp h
    have hout := Op.exec_outcome (Op.exec_minePendingTransactions hmine)
    cases q with
    | error e =>
      cases heq
      exact ⟨date, fuel, hout, fun _ => rfl⟩
    | ok b =>
      cases heq
      exact ⟨date, fuel, hout, fun hne => absurd rfl hne⟩
  | _ => cases hmines

/-- A mining call returns if it can be carried out, and leaves the chain as it
    is otherwise. -/
theorem Op.Outcome.mine_ok_iff {bc bc' : Blockchain E} {address : Val} {date : Int} {fuel : Nat}
    {r : Result Unit} (h : (Op.minePendingTransactions address date fuel).Outcome bc r bc') :
    (r = .ok () ↔ bc.CanMine address) ∧ (r ≠ .ok () → bc'.chain = bc.chain) := by
  cases h with
  | unchanged _ e hthrows =>
    exact ⟨iff_of_false (by simp) (hthrows address date fuel rfl), fun _ => rfl⟩
  | stranded _ _ _ coinBase e hcoin hthrows =>
    exact ⟨iff_of_false (by simp) hthrows, fun _ => rfl⟩
  | mined _ _ _ coinBase b hcoin hmined htime htxs =>
    have hcan : bc.CanMine address := ⟨coinBase, hcoin, htxs ▸ hmined.miningReady⟩
    exact ⟨iff_of_true rfl hcan, fun hne => absurd rfl hne⟩

/-- The event may happen at the node `p` of the network. -/
def Network.Faces (s : Network E ι) (p : ι) : Event ι → Prop
  | .triggerMineBlock _ _               => True
  | .transactionRequest receiver amount =>
      ∃ r n, r ≠ "" ∧ receiver = .str r ∧ amount = .num n
  | .transaction body _ _               => (p, .transaction body) ∈ s.messages
  | .inv body                           => (p, .inv body) ∈ s.messages
  | .getBlocks neighborNode body        => (p, .blocks neighborNode body) ∈ s.messages
  | .restore _                          => False

/-- What is delivered to a node may happen there. -/
theorem Network.faces_of_message {s : Network E ι} {p : ι} {message : Message ι} {ev : Event ι}
    {date : Int} {fuel : Nat} (hmem : (p, message) ∈ s.messages)
    (hevent : message.event date fuel = some ev) : s.Faces p ev := by
  cases message <;> cases hevent <;> exact hmem

theorem Network.Faces.ne_restore {s : Network E ι} {p : ι} {ev : Event ι} (h : s.Faces p ev)
    (result : List Block) : ev ≠ .restore result := by
  rintro rfl
  exact h

/-- A step of the network is an event at one node, or only turns a request
    into its response or loses a message. -/
theorem Network.Step.event_cases [DecidableEq ι] {s s' : Network E ι} {a : Action ι}
    (h : Network.Step cfgs s a s') :
    (a.event = none ∧ s'.nodes = s.nodes) ∨
      ∃ p ev rest, a.event = some (p, ev) ∧ s.Faces p ev ∧ s.Handles cfgs p ev rest s' := by
  cases h with
  | triggerMineBlock p date fuel _ h => exact .inr ⟨p, _, _, rfl, trivial, h⟩
  | transactionRequest p receiver amount _ hreceiver h =>
    exact .inr ⟨p, _, _, rfl, ⟨receiver, amount, hreceiver, rfl, rfl⟩, h⟩
  | answer => exact .inl ⟨rfl, rfl⟩
  | fail => exact .inl ⟨rfl, rfl⟩
  | lose => exact .inl ⟨rfl, rfl⟩
  | deliver p message ev date fuel l₁ l₂ _ hmessage hevent h =>
    obtain ⟨hmem, _⟩ := mem_messages_of_rest hmessage
    have hfaces : s.Faces p ev := Network.faces_of_message hmem hevent
    exact .inr ⟨p, ev, _, by rw [Action.event, hevent, Option.map_some], hfaces, h⟩

/-- A handler that does not mine returns. -/
theorem Node.handle_ok (hE : WorkingKeys E) {s : Network E ι} {p : ι} {ev : Event ι}
    {n n' : Node E} {r : Result Unit} {effects : List Effect} (hfaces : s.Faces p ev)
    (hmines : ev.mines = none) (hne : n.chain ≠ [])
    (h : n.handle cfg ev = some ⟨r, n', effects⟩) : r = .ok () := by
  cases ev with
  | triggerMineBlock => cases hmines
  | transaction => cases hmines
  | transactionRequest receiver amount =>
    obtain ⟨to', k, hto, rfl, rfl⟩ := hfaces
    obtain ⟨tx, _, haccepted⟩ := hE.request_accepted cfg n hto k
    simp only [Node.handle, haccepted, Option.some.injEq] at h
    cases h
    rfl
  | inv body =>
    simp only [Node.handle, Node.postInv_eq hne, Option.some.injEq] at h
    cases h
    rfl
  | getBlocks k body =>
    simp only [Node.handle, Node.getBlocksCallback, Option.some.injEq] at h
    split at h
    · split at h
      · cases h
        rfl
      · cases h
        rfl
    · cases h
      rfl
  | restore => exact hfaces.elim

/-- **Exceptions.** If keys work, a handler or callback at a node of a network
    throws exactly if it mines and the chain of the node demands a negative
    difficulty; and then the chain stays as it is and nothing is sent or
    saved. -/
theorem network_handler_throws_iff [DecidableEq ι] (hE : WorkingKeys E) {names : List ι}
    {s : Network E ι} (h : Reachable (networkSystem names cfgs) s) {p : ι} {ev : Event ι}
    {r : Result Unit} {n' : Node E} {effects : List Effect} (hfaces : s.Faces p ev)
    (hhandle : (s.nodes p).handle (cfgs p) ev = some ⟨r, n', effects⟩) :
    (r ≠ .ok () ↔ ev.mines.isSome ∧
      ∃ d : Int, d < 0 ∧ getDifficulty (s.nodes p).chain = .ok (.int d)) ∧
    (r ≠ .ok () → n'.chain = (s.nodes p).chain ∧ effects = []) := by
  have hholds := holds_copies (clockSystem_of_reachable h)
  have hnode := hholds.nodes p
  cases hmines : ev.mines with
  | none =>
    have hok := Node.handle_ok hE hfaces hmines hnode.chain.ne_nil hhandle
    exact ⟨by simp [hok], fun hne => absurd hok hne⟩
  | some tx =>
    -- what is pushed can be sent, and so can what was pending
    have htx : Json.IsJson tx := by
      cases ev with
      | triggerMineBlock =>
        cases hmines
        exact triggerTransaction_isJson
      | transaction body =>
        cases hmines
        exact hholds.hasTransaction (.message p tx hfaces)
      | _ => cases hmines
    have hpending := Blockchain.forall_mem_createTransaction.mpr ⟨hnode.pending, htx⟩
    obtain ⟨d, hd⟩ := hnode.chain.exists_difficulty
    have hd' : getDifficulty ((s.nodes p).xCoin.createTransaction tx).chain = .ok (.int d) := hd
    have hcan := hE.canMine_iff (hnode.setUp.createTransaction tx) hpending hd'
    obtain ⟨date, fuel, hout, heffects⟩ := Node.handle_mines hmines hhandle
    obtain ⟨hok, hchain⟩ := hout.mine_ok_iff
    refine ⟨?_, fun hne => ⟨hchain hne, heffects hne⟩⟩
    rw [ne_eq, hok, hcan]
    constructor
    · intro hneg
      exact ⟨rfl, d, by omega, hd⟩
    · rintro ⟨_, d', hneg, hd''⟩
      rw [hd, Except.ok.injEq, Difficulty.int.injEq] at hd''
      omega

/-- The keys of `demoEnv` work, whatever the hashes are. -/
theorem workingKeys_demo (hash : Val → String) : WorkingKeys { demoEnv with SHA256 := hash } where
  signs := fun _ _ => ⟨(), rfl⟩
  verifies := fun _ _ _ _ => rfl
  toDER_ne := fun _ => show "3006" ≠ "" by decide
  getPublic_ne := fun _ => show "04aa" ≠ "" by decide

/-- A node that has mined a block every 23 milliseconds and is asked for one
    more: its chain demands a negative difficulty, and the handler throws. -/
theorem network_handler_throws_iff_halted :
    ∃ (s : Network demoEnv Bool) (n' : Node demoEnv) (effects : List Effect),
      WorkingKeys demoEnv ∧ Reachable (networkSystem [false, true] demoConfig) s ∧
      (s.nodes false).chain.length = 31 ∧
      (s.nodes false).handle (demoConfig false) (.triggerMineBlock 713 1) =
        some ⟨.error .rangeError, n', effects⟩ ∧
      (∃ d : Int, d < 0 ∧ getDifficulty (s.nodes false).chain = .ok (.int d)) ∧
      n'.chain = (s.nodes false).chain ∧ effects = [] := by
  let blocks : List (TracedAction Bool) :=
    (List.range 30).map fun k => .triggerMineBlock false (23 * (k + 1)) 1
  have hfinal : (execPlain demoConfig (fun _ _ => true) (.new [false, true] demoConfig) blocks).map
      (fun s => ((s.nodes false).chain.length, ((s.nodes false).handle (demoConfig false)
        (.triggerMineBlock 713 1)).map fun r => r.result)) =
        some (31, some (.error .rangeError)) := by
    decide +kernel
  obtain ⟨s, hexec, hfacts⟩ := Option.map_eq_some_iff.mp hfinal
  obtain ⟨hlen, hfacts⟩ := Prod.mk.inj hfacts
  obtain ⟨⟨r, n', effects⟩, hhandle, hresult⟩ := Option.map_eq_some_iff.mp hfacts
  obtain rfl : r = .error .rangeError := hresult
  obtain ⟨tr, hrun⟩ := run_of_execPlain hexec
  have hreach : Reachable (networkSystem [false, true] demoConfig) s.erase :=
    (hrun.reachable (.init rfl)).of_restrict
  have hfaces : s.erase.Faces false (.triggerMineBlock 713 1) := trivial
  obtain ⟨hiff, hkept⟩ :=
    network_handler_throws_iff (workingKeys_demo _) hreach hfaces hhandle
  have hthrows : (Except.error .rangeError : Result Unit) ≠ .ok () := by simp
  exact ⟨s.erase, n', effects, workingKeys_demo _, hreach, hlen, hhandle, (hiff.mp hthrows).2,
    hkept hthrows⟩

end XCoin
