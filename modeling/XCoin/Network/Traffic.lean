import XCoin.Framework.Ranking
import XCoin.Network.Integrity

/-! # The traffic of a network

    Messages are sent for two reasons.  At the start every node asks its
    neighbours for their chains; each request is answered or fails, and the
    node counts the answers.  Later a user's request for a transaction makes
    one node tell its neighbours, each of which mines and announces its chain
    to its own neighbours, and there it ends.

    So no request of the startup is lost or counted twice, the number of
    deliveries is bounded by the number of requests users make, and when
    nothing is left to deliver every node has taken its startup decision.
-/

namespace XCoin

open Js LTS Ranking

variable {E : Env} {ι : Type} {cfg : Config E ι} {cfgs : ι → Config E ι}

/-! ### The requests of the startup -/

/-- A node counts its callbacks. -/
theorem Event.Outcome.i_eq {n n' : Node E} {ev : Event ι} {effects : List Effect}
    (h : ev.Outcome cfg n n' effects) : n'.i = n.i + ev.isCallback.toNat := by
  cases h <;> rfl

variable [DecidableEq ι]

/-- What handlers send does not belong to a startup. -/
theorem countP_startupOf_effects (p : ι) (effects : List Effect) (neighborNodeList : List ι) :
    (effects.flatMap (Effect.messages neighborNodeList)).countP (startupOf p) = 0 := by
  rw [List.countP_eq_zero]
  rintro ⟨q, m⟩ hm
  obtain ⟨effect, _, hm⟩ := List.mem_flatMap.mp hm
  cases Effect.carries_of_mem hm <;> simp [startupOf]

/-- The callbacks that have run at `p`, and the messages of its startup. -/
def Network.startup (s : Network E ι) (p : ι) : Nat :=
  (s.nodes p).i + s.messages.countP (startupOf p)

theorem startup_new (names : List ι) (cfgs : ι → Config E ι) (p : ι) :
    (Network.new names cfgs).startup p = names.count p * (cfgs p).neighborNodeList.length := by
  show 0 + (names.flatMap fun q => (cfgs q).neighborNodeList.map fun r =>
    (r, Message.getBlocks q)).countP (startupOf p) = _
  rw [Nat.zero_add]
  induction names with
  | nil => simp
  | cons q names ih =>
    rw [List.flatMap_cons, List.countP_append, ih, List.countP_map, List.count_cons]
    by_cases hq : q = p
    · subst hq
      have hall : (cfgs q).neighborNodeList.countP
          (startupOf q ∘ fun r => (r, Message.getBlocks q)) =
          (cfgs q).neighborNodeList.length := by
        rw [List.countP_eq_length]
        intro r _
        simp [startupOf]
      simp only [hall, beq_self_eq_true, if_true, Nat.add_mul, Nat.one_mul]
      omega
    · have hnone : (cfgs q).neighborNodeList.countP
          (startupOf p ∘ fun r => (r, Message.getBlocks q)) = 0 := by
        rw [List.countP_eq_zero]
        intro r _
        simp [startupOf, hq]
      have hbeq : (q == p) = false := beq_eq_false_iff_ne.mpr hq
      simp [hnone, hbeq]

section steps

variable {names : List ι} {s s' : Network E ι}

/-- An event at `p` adds to the startup of `p` if it is a callback, and takes
    nothing from the messages that stay. -/
theorem Network.Handles.startup_eq {p : ι} {ev : Event ι} {rest : List (ι × Message ι)}
    (h : s.Handles cfgs p ev rest s') (hne : (s.nodes p).chain ≠ []) (q : ι) :
    s'.startup q = (s.nodes q).i + rest.countP (startupOf q) +
      if q = p then ev.isCallback.toNat else 0 := by
  obtain ⟨r, n', effects, hhandle, rfl⟩ := h
  have hi := (Node.handle_outcome hne hhandle).i_eq
  unfold Network.startup
  rw [List.countP_append, countP_startupOf_effects, Nat.add_zero]
  show (Function.update s.nodes p n' q).i + _ = _
  by_cases hq : q = p
  · subst hq
    rw [Function.update_self, if_pos rfl]
    omega
  · rw [Function.update_of_ne hq, if_neg hq]
    omega

/-- A request that is served or fails turns into its response. -/
theorem startup_reply {p asker : ι} {body : Option (List Block)} {l₁ l₂ : List (ι × Message ι)}
    (hmessage : s.messages = l₁ ++ (p, .getBlocks asker) :: l₂) (q : ι) :
    Network.startup { s with messages := l₁ ++ l₂ ++ [(asker, .blocks p body)] } q =
      s.startup q := by
  have hsame : startupOf q (p, .getBlocks asker) = startupOf q (asker, .blocks p body) := rfl
  unfold Network.startup
  rw [hmessage]
  simp only [List.countP_append, List.countP_cons, List.countP_nil, hsame]
  omega

/-- **Step lemma**: no step changes the startup of a node. -/
theorem Network.Step.startup_eq {a : Action ι} (h : Network.Step cfgs s a s')
    (hne : ∀ p, (s.nodes p).chain ≠ []) (q : ι) : s'.startup q = s.startup q := by
  cases h with
  | triggerMineBlock p date fuel _ h =>
    rw [h.startup_eq (hne p) q]
    simp [Network.startup, Event.isCallback]
  | transactionRequest p receiver amount _ hreceiver h =>
    rw [h.startup_eq (hne p) q]
    simp [Network.startup, Event.isCallback]
  | answer p asker body l₁ l₂ hmessage hbody => exact startup_reply hmessage q
  | fail p asker l₁ l₂ hmessage => exact startup_reply hmessage q
  | lose p message l₁ l₂ hmessage hpost =>
    -- what is lost belongs to no startup
    have hnone : startupOf q (p, message) = false := by
      cases message with
      | getBlocks asker => cases hpost
      | blocks k body => cases hpost
      | _ => rfl
    simp [Network.startup, hmessage, hnone]
  | deliver p message ev date fuel l₁ l₂ _ hmessage hevent h =>
    rw [h.startup_eq (hne p) q, Network.startup, hmessage]
    -- a response is taken off the list exactly when its callback runs
    have hone : (if q = p then ev.isCallback.toNat else 0) =
        if startupOf q (p, message) = true then 1 else 0 := by
      cases message with
      | getBlocks asker => cases hevent
      | blocks k body =>
        cases hevent
        simp [Event.isCallback, startupOf, eq_comm]
      | transaction body =>
        cases hevent
        simp [Event.isCallback, startupOf]
      | inv body =>
        cases hevent
        simp [Event.isCallback, startupOf]
    rw [hone]
    simp only [List.countP_append, List.countP_cons]
    omega

theorem startup_of_reachable (h : Reachable (networkSystem names cfgs) s) (p : ι) :
    s.startup p = names.count p * (cfgs p).neighborNodeList.length := by
  refine h.invariant (P := fun s => s.startup p = _) ?_ ?_
  · intro s hs
    rw [show s = .new names cfgs from hs, startup_new]
  · intro s a s' hreach hs hstep
    rw [hstep.startup_eq (nodes_ne_nil hreach) p, hs]

/-- **Conservation.** In every reachable state of a network whose nodes have
    different names, the callbacks that have run at a node, its requests on
    their way and the responses on their way to it are as many as it has
    neighbours: no request is lost, duplicated or answered twice. -/
theorem startup_conservation (hnodup : names.Nodup)
    (h : Reachable (networkSystem names cfgs) s) {p : ι} (hp : p ∈ names) :
    (s.nodes p).i + s.messages.countP (startupOf p) = (cfgs p).neighborNodeList.length := by
  have hcount := startup_of_reachable h p
  rw [List.count_eq_one_of_mem hnodup hp, Nat.one_mul] at hcount
  exact hcount

end steps

/-- The conservation while a response is on its way. -/
theorem startup_conservation_answered :
    ∃ s : Network digestEnv Bool, Reachable (networkSystem [false, true] pairConfig) s ∧
      (s.nodes false).chain.length = 2 ∧
      (s.nodes true).i + s.messages.countP (startupOf true) =
        (pairConfig true).neighborNodeList.length := by
  obtain ⟨s, _, hreach, hlen, _⟩ := pair_answered (fun _ _ => True) trivial fun _ => trivial
  exact ⟨s, hreach.of_restrict, hlen,
    startup_conservation (by decide) hreach.of_restrict (by decide)⟩

/-! ### The load of the network -/

omit [DecidableEq ι]

/-- What a message may still cause, if no node has more than `D` neighbours:
    an `/inv` request causes nothing, the others that are delivered at most
    an announcement. -/
def weight (D : Nat) : ι × Message ι → Nat
  | (_, .inv _)         => 1
  | (_, .blocks _ _)    => D + 1
  | (_, .transaction _) => D + 1
  | (_, .getBlocks _)   => D + 2

/-- What an event may cause. -/
def Event.budget (D : Nat) : Event ι → Nat
  | .transactionRequest _ _ => D * (D + 1)
  | .transaction _ _ _      => D
  | .getBlocks _ _          => D
  | _                       => 0

theorem load_sendInv {D : Nat} {neighborNodeList : List ι} (chain : List Block)
    (hD : neighborNodeList.length ≤ D) :
    load (weight D) ((Effect.sendInv chain).messages neighborNodeList) ≤ D := by
  simp only [Effect.messages]
  split
  · next body _ =>
    have hone : ∀ m ∈ neighborNodeList.map (fun q => (q, Message.inv body)), weight D m = 1 := by
      intro m hm
      obtain ⟨q, _, rfl⟩ := List.mem_map.mp hm
      rfl
    rw [load_const hone, List.length_map]
    omega
  · exact Nat.zero_le _

theorem load_sendTransaction {D : Nat} {neighborNodeList : List ι} (tx : Transaction)
    (hD : neighborNodeList.length ≤ D) :
    load (weight D) ((Effect.sendTransaction tx).messages neighborNodeList) ≤ D * (D + 1) := by
  simp only [Effect.messages]
  split
  · next body _ =>
    have hone : ∀ m ∈ neighborNodeList.map (fun q => (q, Message.transaction body)),
        weight D m = D + 1 := by
      intro m hm
      obtain ⟨q, _, rfl⟩ := List.mem_map.mp hm
      rfl
    rw [load_const hone, List.length_map, Nat.mul_comm]
    exact Nat.mul_le_mul_right _ hD
  · exact Nat.zero_le _

/-- An event causes no more than it may. -/
theorem Event.Outcome.load_le {n n' : Node E} {ev : Event ι} {effects : List Effect} {D : Nat}
    (h : ev.Outcome cfg n n' effects) (hD : cfg.neighborNodeList.length ≤ D) :
    load (weight D) (effects.flatMap (Effect.messages cfg.neighborNodeList)) ≤ ev.budget D := by
  cases h with
  | requested receiver amount tx =>
    simp only [List.flatMap_cons, List.flatMap_nil, List.append_nil]
    exact load_sendTransaction tx hD
  | received body date fuel r xCoin effects hout heffects =>
    rcases heffects with rfl | rfl
    · exact Nat.zero_le _
    · simp only [List.flatMap_cons, List.flatMap_nil, List.append_nil]
      -- saving sends nothing
      rw [show (Effect.save xCoin.chain).messages cfg.neighborNodeList = [] from rfl,
        List.append_nil]
      exact load_sendInv xCoin.chain hD
  | announced k body =>
    simp only [List.flatMap_cons, List.flatMap_nil, List.append_nil]
    exact load_sendInv n.chain hD
  | _ => exact Nat.zero_le _

/-- The action delivers a message or serves a request for blocks. -/
def Action.isDelivery : Action ι → Bool
  | .answer _ _      => true
  | .fail _ _        => true
  | .deliver _ _ _ _ => true
  | _                => false

/-- The action is a user's request for a transaction. -/
def Action.isRequest : Action ι → Bool
  | .transactionRequest _ _ _ => true
  | _                         => false

section steps

variable [DecidableEq ι] {names : List ι} {s s' : Network E ι}

theorem Network.Handles.load_le {p : ι} {ev : Event ι} {rest : List (ι × Message ι)} {D : Nat}
    (h : s.Handles cfgs p ev rest s') (hne : (s.nodes p).chain ≠ [])
    (hD : (cfgs p).neighborNodeList.length ≤ D) :
    load (weight D) s'.messages ≤ load (weight D) rest + ev.budget D := by
  obtain ⟨r, n', effects, hhandle, rfl⟩ := h
  have hload := (Node.handle_outcome hne hhandle).load_le hD
  rw [load_append]
  omega

omit [DecidableEq ι] in
/-- A request weighs more than its response. -/
theorem load_reply {p asker : ι} (body : Option (List Block)) {l₁ l₂ : List (ι × Message ι)}
    (hmessage : s.messages = l₁ ++ (p, .getBlocks asker) :: l₂) (D : Nat) :
    load (weight D) (l₁ ++ l₂ ++ [(asker, .blocks p body)]) + 1 =
      load (weight D) s.messages := by
  rw [hmessage, load_append _ (l₁ ++ l₂) [_], load_middle _ l₁ l₂ (p, _)]
  rfl

/-- **Step lemma**: a delivery lowers the load, and only a request for a
    transaction raises it. -/
theorem Network.Step.load_le {a : Action ι} {D : Nat} (h : Network.Step cfgs s a s')
    (hne : ∀ p, (s.nodes p).chain ≠ []) (hD : ∀ p, (cfgs p).neighborNodeList.length ≤ D) :
    load (weight D) s'.messages + a.isDelivery.toNat ≤
      load (weight D) s.messages + D * (D + 1) * a.isRequest.toNat := by
  cases h with
  | triggerMineBlock p date fuel _ h =>
    have hload := h.load_le (hne p) (hD p)
    simpa [Event.budget, Action.isDelivery, Action.isRequest] using hload
  | transactionRequest p receiver amount _ hreceiver h =>
    have hload := h.load_le (hne p) (hD p)
    simpa [Event.budget, Action.isDelivery, Action.isRequest] using hload
  | answer p asker body l₁ l₂ hmessage hbody =>
    have hload := load_reply (some body) hmessage D
    simp only [Action.isDelivery, Action.isRequest, Bool.toNat_true, Bool.toNat_false,
      Nat.mul_zero]
    omega
  | fail p asker l₁ l₂ hmessage =>
    have hload := load_reply none hmessage D
    simp only [Action.isDelivery, Action.isRequest, Bool.toNat_true, Bool.toNat_false,
      Nat.mul_zero]
    omega
  | lose p message l₁ l₂ hmessage _ =>
    rw [hmessage, load_middle]
    simp only [Action.isDelivery, Action.isRequest, Bool.toNat_false, Nat.mul_zero]
    omega
  | deliver p message ev date fuel l₁ l₂ _ hmessage hevent h =>
    have hload := h.load_le (hne p) (hD p)
    -- the message weighs more than what its event may cause
    have hweight : ev.budget D + 1 ≤ weight D (p, message) := by
      cases message with
      | getBlocks asker => cases hevent
      | _ =>
        cases hevent
        simp [Event.budget, weight]
    rw [hmessage, load_middle]
    simp only [Action.isDelivery, Action.isRequest, Bool.toNat_true, Bool.toNat_false,
      Nat.mul_zero]
    omega

omit [DecidableEq ι] in
theorem load_new (names : List ι) (cfgs : ι → Config E ι) (D : Nat) :
    load (weight D) (Network.new names cfgs).messages =
      (D + 2) * (Network.new names cfgs).messages.length := by
  refine load_const ?_
  intro m hm
  obtain ⟨p, _, hm⟩ := List.mem_flatMap.mp hm
  obtain ⟨q, _, rfl⟩ := List.mem_map.mp hm
  rfl

/-- **Bounded traffic.** If no node has more than `D` neighbours, a run of a
    network makes at most `D + 2` deliveries for each request of the startup,
    and at most `D * (D + 1)` more for each request for a transaction that
    users make, whatever is mined in between. -/
theorem deliveries_bounded {tr : List (Transition (Network E ι) (Action ι))} {D : Nat}
    (hD : ∀ p, (cfgs p).neighborNodeList.length ≤ D)
    (h : Run (networkSystem names cfgs) (.new names cfgs) tr s) :
    tr.countP (fun x => x.label.isDelivery) ≤
      (D + 2) * (Network.new names cfgs).messages.length +
        D * (D + 1) * tr.countP fun x => x.label.isRequest := by
  have hstep : ∀ (s : Network E ι) (a : Action ι) (t : Network E ι),
      Reachable (networkSystem names cfgs) s → (networkSystem names cfgs).step s a t →
      load (weight D) t.messages + a.isDelivery.toNat ≤
        load (weight D) s.messages + D * (D + 1) * a.isRequest.toNat := by
    intro s a t hreach hstep
    exact Network.Step.load_le hstep (nodes_ne_nil hreach) hD
  have hbound := Run.rank_bound (fun x => x.label.isDelivery) (fun x => x.label.isRequest) hstep
    h (.init rfl)
  rw [load_new] at hbound
  omega

end steps

/-- The bound on a run that serves a request. -/
theorem deliveries_bounded_answered :
    ∃ (tr : List (Transition (Network digestEnv Bool) (Action Bool))) (s : Network digestEnv Bool),
      Run (networkSystem [false, true] pairConfig) (.new [false, true] pairConfig) tr s ∧
      (s.nodes false).chain.length = 2 ∧
      tr.countP (fun x => x.label.isDelivery) ≤
        (1 + 2) * (Network.new [false, true] pairConfig).messages.length +
          1 * (1 + 1) * tr.countP fun x => x.label.isRequest := by
  obtain ⟨s, _, hreach, hlen, _⟩ := pair_answered (fun _ _ => True) trivial fun _ => trivial
  obtain ⟨_, tr, rfl, hrun⟩ := hreach.of_restrict.exists_run
  exact ⟨tr, s, hrun, hlen, deliveries_bounded (fun _ => Nat.le_refl 1) hrun⟩

/-! ### Quiescence -/

section steps

variable [DecidableEq ι] {names : List ι} {s s' : Network E ι}

/-- While a message is on its way that does not wait for a search, something
    can be delivered. -/
theorem exists_delivery {p : ι} {m : Message ι} (hm : (p, m) ∈ s.messages)
    (hsearch : ∀ body, m = .transaction body →
      ∃ date fuel, ((s.nodes p).postTransaction (cfgs p) body date fuel).isSome) :
    ∃ a s', a.isDelivery = true ∧ Network.Step cfgs s a s' := by
  obtain ⟨l₁, l₂, hmessage⟩ := List.append_of_mem hm
  have hdeliver (date : Int) (fuel : Nat) {ev : Event ι}
      (hevent : m.event date fuel = some ev)
      (hhandle : ((s.nodes p).handle (cfgs p) ev).isSome) :
      ∃ a s', a.isDelivery = true ∧ Network.Step cfgs s a s' := by
    obtain ⟨⟨r, n', effects⟩, hhandle⟩ := Option.isSome_iff_exists.mp hhandle
    exact ⟨_, _, rfl, .deliver p m ev date fuel l₁ l₂ _ hmessage hevent
      ⟨r, n', effects, hhandle, rfl⟩⟩
  cases m with
  | getBlocks asker => exact ⟨_, _, rfl, .fail p asker l₁ l₂ hmessage⟩
  | blocks k body => exact hdeliver 0 0 rfl rfl
  | inv body => exact hdeliver 0 0 rfl rfl
  | transaction body =>
    obtain ⟨date, fuel, hmine⟩ := hsearch body rfl
    exact hdeliver date fuel rfl hmine

/-- **Quiescence.** When no delivery is possible in a reachable state, and
    every search for a block that a message waits for can end, there is no
    message left, and every node has run the callbacks of all its
    neighbours. -/
theorem quiescent_decided (hnodup : names.Nodup) (h : Reachable (networkSystem names cfgs) s)
    (hquiet : ∀ a s', a.isDelivery = true → ¬ Network.Step cfgs s a s')
    (hsearch : ∀ p body, (p, .transaction body) ∈ s.messages →
      ∃ date fuel, ((s.nodes p).postTransaction (cfgs p) body date fuel).isSome) :
    s.messages = [] ∧
      ∀ p ∈ names, (s.nodes p).i = (cfgs p).neighborNodeList.length := by
  have hnone : s.messages = [] := by
    rw [List.eq_nil_iff_forall_not_mem]
    rintro ⟨p, m⟩ hm
    have hends : ∀ body, m = .transaction body →
        ∃ date fuel, ((s.nodes p).postTransaction (cfgs p) body date fuel).isSome := by
      rintro body rfl
      exact hsearch p body hm
    obtain ⟨a, s', hdelivery, hstep⟩ := exists_delivery hm hends
    exact hquiet a s' hdelivery hstep
  refine ⟨hnone, ?_⟩
  intro p hp
  have hcount := startup_of_reachable h p
  rw [List.count_eq_one_of_mem hnodup hp, Nat.one_mul, Network.startup, hnone, List.countP_nil,
    Nat.add_zero] at hcount
  exact hcount

end steps

/-- A node with one neighbour, which has none. -/
def lineConfig (name : Bool) : Config digestEnv Bool where
  neighborNodeList := if name then [] else [true]
  myKey            := ()

/-- The one request of the startup fails, the node announces its chain, and
    the announcement is ignored. -/
theorem quiescent_decided_line :
    ∃ s : Network digestEnv Bool, Reachable (networkSystem [false, true] lineConfig) s ∧
      s.messages = [] ∧
      ∀ p ∈ [false, true], (s.nodes p).i = (lineConfig p).neighborNodeList.length := by
  obtain ⟨body, hbody⟩ : ∃ body, transportChain [createGenesisBlock] = .ok body := ⟨_, rfl⟩
  let fresh (p : Bool) : Node digestEnv := .new (lineConfig p)
  let s₁ : Network digestEnv Bool := { nodes := fresh, messages := [(false, .blocks true none)] }
  have hfail : Network.Step lineConfig (.new [false, true] lineConfig) (.fail true false) s₁ :=
    .fail true false [] [] rfl
  -- the last callback finds no response and announces the chain
  let s₂ : Network digestEnv Bool :=
    { nodes    := Function.update fresh false ((fresh false).recordResponse none)
      messages := [] ++ [] ++
        [Effect.sendInv [createGenesisBlock]].flatMap (Effect.messages [true]) }
  have hcallback : Network.Step lineConfig s₁ (.deliver false (.blocks true none) 0 0) s₂ :=
    .deliver false _ (.getBlocks true none) 0 0 [] [] _ rfl rfl ⟨_, _, _, rfl, rfl⟩
  have hmessages : s₂.messages = [] ++ (true, .inv body) :: [] := by
    simp [s₂, Effect.messages, hbody]
  have hne : (s₂.nodes true).chain ≠ [] := List.cons_ne_nil _ _
  have hignored : (s₂.nodes true).handle (lineConfig true) (.inv body) =
      some ⟨.ok (), s₂.nodes true, []⟩ := congrArg some (Node.postInv_eq hne body)
  have hinv : Network.Step lineConfig s₂ (.deliver true (.inv body) 0 0) _ :=
    .deliver true _ (.inv body) 0 0 [] [] _ hmessages rfl ⟨_, _, _, hignored, rfl⟩
  have hreach : Reachable (networkSystem [false, true] lineConfig) _ :=
    .step _ (.step _ (.step _ (.init rfl) hfail) hcallback) hinv
  refine ⟨_, hreach, quiescent_decided (by decide) hreach ?_ ?_⟩
  · intro a s' _ hstep
    cases hstep with
    | answer p asker body' l₁ l₂ hmessage => simp at hmessage
    | fail p asker l₁ l₂ hmessage => simp at hmessage
    | deliver p message ev date fuel l₁ l₂ _ hmessage => simp at hmessage
    | _ => contradiction
  · intro p body' hmem
    simp at hmem

end XCoin
