import XCoin.Network.Provenance

/-! # How often a transaction is included

    A node keeps its pending transactions when it adopts a chain, and does not
    look at its chain when it mines or receives a transaction.  So a
    transaction gets into a chain twice exactly if it is mined while it is
    already in the chain, or while it is pending twice.

    Nothing else does harm: a chain that is adopted has been the chain of a
    node, and what it holds once it holds once after transport.
-/

namespace XCoin

open Js LTS

variable {E : Env} {ι : Type} {cfg : Config E ι} {n n' : Node E} {o : Origins}

/-! ### Lists of origins -/

/-- No request occurs twice. -/
def OnceOnly (os : List Origin) : Prop := ∀ r : Nat, os.count (some r) ≤ 1

theorem onceOnly_nil : OnceOnly [] := fun _ => Nat.zero_le _

/-- Entries without a number do not count. -/
theorem onceOnly_concat_none {os : List Origin} : OnceOnly (os ++ [none]) ↔ OnceOnly os := by
  simp [OnceOnly, List.count_append]

theorem onceOnly_append_iff {os more : List Origin} (h : OnceOnly os) :
    OnceOnly (os ++ more) ↔ OnceOnly more ∧ ∀ r, some r ∈ more → some r ∉ os := by
  have hcount (r : Nat) : (os ++ more).count (some r) ≤ 1 ↔
      more.count (some r) ≤ 1 ∧ (some r ∈ more → some r ∉ os) := by
    have hr := h r
    rw [List.count_append, ← List.count_pos_iff, ← List.count_pos_iff]
    omega
  simp only [OnceOnly, hcount]
  exact forall_and

/-! ### Mining -/

/-- The condition for mining at a node that has just received `tx`: if it is
    carried out, no pending transaction is in the chain already, and none is
    pending twice. -/
def MinesOnce (cfg : Config E ι) (n : Node E) (o : Origins) (tx : Val) (origin : Origin) : Prop :=
  (n.xCoin.createTransaction tx).CanMine cfg.myWalletAddress →
    OnceOnly (o.pending ++ [origin]) ∧
    ∀ r, some r ∈ o.pending ++ [origin] → some r ∉ o.chain.flatten

/-- **Mining includes nothing twice exactly if it meets the condition.** -/
theorem Op.Outcome.onceOnly_iff {tx : Val} {origin : Origin} {date : Int} {fuel : Nat}
    {r : Result Unit} {xCoin : Blockchain E}
    (hmine : (Op.minePendingTransactions cfg.myWalletAddress date fuel).Outcome
      (n.xCoin.createTransaction tx) r xCoin) (h : OnceOnly o.chain.flatten) :
    OnceOnly (o.mine n { n with xCoin } origin).chain.flatten ↔ MinesOnce cfg n o tx origin := by
  rcases hmine.mine_chain with ⟨hthrows, hchain⟩ | ⟨hcan, _, b, _, _, _, hchain⟩
  · have hsame : (Node.chain { n with xCoin }).length = n.chain.length := by
      rw [Node.chain, hchain]
      rfl
    rw [Origins.mine, if_neg (by omega)]
    exact iff_of_true h fun hcan => absurd hcan hthrows
  · have hgrown : (Node.chain { n with xCoin }).length = n.chain.length + 1 := by
      rw [Node.chain, hchain]
      simp [Blockchain.createTransaction, Node.chain]
    rw [Origins.mine, if_pos (by omega), MinesOnce, forall_prop_of_true hcan,
      List.flatten_append, List.flatten_singleton, ← List.append_assoc, onceOnly_concat_none]
    exact onceOnly_append_iff h

/-- The condition on an event at a node. -/
def Event.MinesOnce (cfg : Config E ι) (n : Node E) (o : Origins) (cargo : Cargo) :
    Event ι → Prop
  | .triggerMineBlock _ _ => XCoin.MinesOnce cfg n o Node.triggerTransaction.toValue none
  | .transaction body _ _ => XCoin.MinesOnce cfg n o body cargo.origin
  | _ => True

/-! ### Adopting -/

/-- The chains a node holds or has received include nothing twice. -/
structure HoldsOnce (o : Origins) : Prop where
  chain     : OnceOnly o.chain.flatten
  responses : ∀ os ∈ o.responses, OnceOnly os.flatten

/-- The startup decision chooses among such chains. -/
theorem HoldsOnce.getBlocksCallback {blocks : Option (List (List Origin))} (h : HoldsOnce o)
    (cfg : Config E ι) (n : Node E)
    (hblocks : ∀ os, blocks = some os → OnceOnly os.flatten) :
    HoldsOnce (o.getBlocksCallback cfg n blocks) := by
  have hresponses : ∀ os ∈ o.responses ++ blocks.toList, OnceOnly os.flatten := by
    intro os hos
    rcases List.mem_append.mp hos with hos | hos
    · exact h.responses os hos
    · exact hblocks os (Option.mem_toList.mp hos)
  have hlongest : OnceOnly
      (Longest.pick List.length [] (o.responses ++ blocks.toList)).flatten := by
    rcases Longest.pick_mem List.length [] (o.responses ++ blocks.toList) with hnil | hmem
    · rw [hnil]
      exact onceOnly_nil
    · exact hresponses _ hmem
  unfold Origins.getBlocksCallback
  by_cases hlast : cfg.neighborNodeList.length = n.i + 1
  · simp only [hlast, if_true]
    split
    · exact ⟨h.chain, hresponses⟩
    · exact ⟨hlongest, hresponses⟩
  · simp only [hlast, if_false]
    exact ⟨h.chain, hresponses⟩

/-- Mining leaves the responses alone. -/
theorem Origins.mine_responses (o : Origins) (origin : Origin) :
    (o.mine n n' origin).responses = o.responses := by
  unfold Origins.mine
  split <;> rfl

theorem Origins.request_holds (o : Origins) (n n' : Node E) (number : Nat) :
    (o.request n n' number).chain = o.chain ∧
      (o.request n n' number).responses = o.responses := by
  unfold Origins.request
  split <;> exact ⟨rfl, rfl⟩

/-- **Step lemma** for a node: an event includes nothing twice exactly if it
    meets the condition. -/
theorem Event.Outcome.onceOnly_iff {ev : Event ι} {cargo : Cargo} {effects : List Effect}
    (hout : ev.Outcome cfg n n' effects) (number : Nat) (h : HoldsOnce o)
    (hcargo : ∀ os, cargo.blocks = some os → OnceOnly os.flatten) :
    (OnceOnly (o.handle cfg n n' number cargo ev).chain.flatten ↔ ev.MinesOnce cfg n o cargo) ∧
      ∀ os ∈ (o.handle cfg n n' number cargo ev).responses, OnceOnly os.flatten := by
  cases hout with
  | triggered date fuel r xCoin hmine =>
    refine ⟨hmine.onceOnly_iff h.chain, ?_⟩
    rw [Origins.handle, Origins.mine_responses]
    exact h.responses
  | received body date fuel r xCoin effects hmine heffects =>
    refine ⟨hmine.onceOnly_iff h.chain, ?_⟩
    rw [Origins.handle, Origins.mine_responses]
    exact h.responses
  | refused =>
    obtain ⟨hchain, hresponses⟩ := o.request_holds n n number
    rw [Origins.handle, hchain, hresponses]
    exact ⟨iff_of_true h.chain trivial, h.responses⟩
  | requested receiver amount tx hsigned hvalid =>
    obtain ⟨hchain, hresponses⟩ :=
      o.request_holds n { n with xCoin := n.xCoin.createTransaction tx.toValue } number
    rw [Origins.handle, hchain, hresponses]
    exact ⟨iff_of_true h.chain trivial, h.responses⟩
  | recorded =>
    have hnext := h.getBlocksCallback cfg n hcargo
    exact ⟨iff_of_true hnext.chain trivial, hnext.responses⟩
  | announced =>
    have hnext := h.getBlocksCallback cfg n hcargo
    exact ⟨iff_of_true hnext.chain trivial, hnext.responses⟩
  | adopted =>
    have hnext := h.getBlocksCallback cfg n hcargo
    exact ⟨iff_of_true hnext.chain trivial, hnext.responses⟩
  | ignored => exact ⟨iff_of_true h.chain trivial, h.responses⟩
  | restored => exact ⟨iff_of_true h.chain trivial, h.responses⟩

/-! ### Networks -/

section network

variable {names : List ι} {cfgs : ι → Config E ι} {s s' : Traced E ι}

/-- The chain of no node includes a transaction twice. -/
def IncludedOnce (s : Traced E ι) : Prop := ∀ p, OnceOnly (s.origins p).chain.flatten

/-- Neither do the chains that were received or are on their way. -/
structure OnceInv (s : Traced E ι) : Prop where
  nodes    : ∀ p, HoldsOnce (s.origins p)
  messages : ∀ m ∈ s.messages, ∀ os, m.2.2.blocks = some os → OnceOnly os.flatten

theorem onceInv_new : OnceInv (Traced.new names cfgs) where
  nodes := fun _ => ⟨onceOnly_nil, by simp [Traced.new, Origins.new]⟩
  messages := by
    intro m hm os hos
    obtain ⟨m', _, rfl⟩ := List.mem_map.mp hm
    cases hos

/-- The condition on an action in the state `s`, at the node that acts. -/
def TracedAction.MinesOnce (cfgs : ι → Config E ι) (s : Traced E ι) : TracedAction ι → Prop
  | .triggerMineBlock p date fuel =>
      (Event.triggerMineBlock date fuel).MinesOnce (cfgs p) (s.nodes p) (s.origins p) ⟨none, none⟩
  | .deliver k date fuel => ∀ p message cargo ev, s.messages[k]? = some (p, message, cargo) →
      message.event date fuel = some ev →
        ev.MinesOnce (cfgs p) (s.nodes p) (s.origins p) cargo
  | _ => True

/-- A message is replaced by another one. -/
theorem OnceInv.reply {k : Nat} {m : ι × Message ι × Cargo} (h : OnceInv s)
    (hm : ∀ os, m.2.2.blocks = some os → OnceOnly os.flatten) :
    OnceInv { s with messages := s.messages.eraseIdx k ++ [m] } := by
  refine ⟨h.nodes, ?_⟩
  intro x hx
  rcases List.mem_append.mp hx with hx | hx
  · exact h.messages x (List.eraseIdx_subset hx)
  · rw [List.mem_singleton.mp hx]
    exact hm

variable [DecidableEq ι]

/-- An event at one node. -/
theorem OnceInv.react {p : ι} {ev : Event ι} {cargo : Cargo}
    {rest : List (ι × Message ι × Cargo)} (h : OnceInv s) (hinv : TracedInv s)
    (hcargo : ∀ os, cargo.blocks = some os → OnceOnly os.flatten) (hrest : rest ⊆ s.messages)
    (hreact : s.react cfgs p ev cargo rest = some s') :
    (IncludedOnce s' ↔ ev.MinesOnce (cfgs p) (s.nodes p) (s.origins p) cargo) ∧
      (ev.MinesOnce (cfgs p) (s.nodes p) (s.origins p) cargo → OnceInv s') := by
  obtain ⟨⟨result, n', effects⟩, hhandle, rfl⟩ := Option.map_eq_some_iff.mp hreact
  have hout := Node.handle_outcome (hinv.ne_nil p) hhandle
  obtain ⟨hiff, hresponses⟩ := hout.onceOnly_iff s.created.length (h.nodes p) hcargo
  refine ⟨⟨?_, ?_⟩, ?_⟩
  · intro hall
    have hp := hall p
    simp only [Function.update_self] at hp
    exact hiff.mp hp
  · intro hcond q
    by_cases hq : q = p
    · subst hq
      simp only [Function.update_self]
      exact hiff.mpr hcond
    · simp only [Function.update_of_ne hq]
      exact (h.nodes q).chain
  · intro hcond
    refine ⟨?_, ?_⟩
    · intro q
      by_cases hq : q = p
      · subst hq
        simp only [Function.update_self]
        exact ⟨hiff.mpr hcond, hresponses⟩
      · simp only [Function.update_of_ne hq]
        exact h.nodes q
    · -- no new message carries a chain that is recorded
      intro m hm os hos
      rcases List.mem_append.mp hm with hm | hm
      · exact h.messages m (hrest hm) os hos
      · obtain ⟨m', _, rfl⟩ := List.mem_map.mp hm
        cases hos

/-- **Step lemma**: a step includes nothing twice exactly if it meets the
    condition. -/
theorem OnceInv.step {a : TracedAction ι} (h : OnceInv s) (hinv : TracedInv s)
    (hexec : a.exec cfgs s = some s') :
    (IncludedOnce s' ↔ a.MinesOnce cfgs s) ∧ (a.MinesOnce cfgs s → OnceInv s') := by
  have hnothing : ∀ os, (⟨none, none⟩ : Cargo).blocks = some os → OnceOnly os.flatten := by
    intro os hos
    cases hos
  cases a with
  | triggerMineBlock p date fuel => exact h.react hinv hnothing (List.Subset.refl _) hexec
  | transactionRequest p receiver amount =>
    exact h.react hinv hnothing (List.Subset.refl _) hexec
  | answer k =>
    obtain ⟨p, _, _, _, _, _, rfl⟩ := TracedAction.exec_answer hexec
    have hnext : ∀ os, some (s.origins p).chain = some os → OnceOnly os.flatten := by
      intro os hos
      cases hos
      exact (h.nodes p).chain
    exact ⟨iff_of_true (fun q => (h.nodes q).chain) trivial, fun _ => h.reply hnext⟩
  | fail k =>
    obtain ⟨_, _, _, _, rfl⟩ := TracedAction.exec_fail hexec
    exact ⟨iff_of_true (fun q => (h.nodes q).chain) trivial, fun _ => h.reply hnothing⟩
  | lose k =>
    obtain ⟨_, _, _, _, _, rfl⟩ := TracedAction.exec_lose hexec
    exact ⟨iff_of_true (fun q => (h.nodes q).chain) trivial,
      fun _ => ⟨h.nodes, fun m hm => h.messages m (List.eraseIdx_subset hm)⟩⟩
  | deliver k date fuel =>
    obtain ⟨p, message, cargo, ev, hmessage, hevent, hreact⟩ := TracedAction.exec_deliver hexec
    have hcargo := h.messages _ (List.mem_of_getElem? hmessage)
    have hiff : (TracedAction.deliver k date fuel).MinesOnce cfgs s ↔
        ev.MinesOnce (cfgs p) (s.nodes p) (s.origins p) cargo := by
      constructor
      · intro hall
        exact hall p message cargo ev hmessage hevent
      · intro hcond p' message' cargo' ev' hmessage' hevent'
        rw [hmessage] at hmessage'
        cases hmessage'
        rw [hevent] at hevent'
        cases hevent'
        exact hcond
    rw [hiff]
    exact h.react hinv hcargo List.eraseIdx_subset hreact

/-- **No double inclusion, up to what is mined.** In every run of a network
    the record says of every transaction of every chain and pending list which
    request it was made for; and the transaction created by one
    `/transactionRequest` occurs at most once in the chain of every node in
    every state reached if and only if, whenever mining is carried out at a
    node, no transaction pending there is in the chain of the node already and
    none is pending twice. -/
theorem included_once_iff {tr : List (Transition (Traced E ι) (TracedAction ι))}
    (h : Run (tracedSystem names cfgs) (.new names cfgs) tr s) :
    (TracedInv (Traced.new names cfgs) ∧ ∀ x ∈ tr, TracedInv x.post) ∧
    ((IncludedOnce (Traced.new names cfgs) ∧ ∀ x ∈ tr, IncludedOnce x.post) ↔
      ∀ x ∈ tr, x.label.MinesOnce cfgs x.pre) := by
  have hinit : Reachable (tracedSystem names cfgs) (.new names cfgs) := .init rfl
  refine ⟨⟨tracedInv_of_reachable hinit, ?_⟩, ?_⟩
  · intro x hx
    obtain ⟨hpre, hstep⟩ := h.transition_mem hinit hx
    exact tracedInv_of_reachable (.step x.label hpre hstep)
  · have hnew : OnceInv (Traced.new names cfgs) := onceInv_new
    have hstart : IncludedOnce (Traced.new names cfgs) := fun p => (hnew.nodes p).chain
    rw [and_iff_right hstart]
    refine Run.forall_iff (I := OnceInv) (G := fun x => IncludedOnce x.post)
      (Q := fun x => x.label.MinesOnce cfgs x.pre) hinit hnew ?_ h
    intro t a u hreach ht hexec
    exact ht.step (tracedInv_of_reachable hreach) hexec

end network

/-- The equivalence on a run in which a transaction is requested and mined by
    the neighbour it is sent to. -/
theorem included_once_iff_two_steps :
    ∃ (tr : List (Transition (Traced demoEnv Bool) (TracedAction Bool)))
        (s : Traced demoEnv Bool),
      Run (tracedSystem [false, true] demoConfig) (.new [false, true] demoConfig) tr s ∧
      (s.origins true).chain = [[], [some 0, none]] ∧
      (TracedInv (Traced.new [false, true] demoConfig) ∧ ∀ x ∈ tr, TracedInv x.post) ∧
      ((IncludedOnce (Traced.new [false, true] demoConfig) ∧ ∀ x ∈ tr, IncludedOnce x.post) ↔
        ∀ x ∈ tr, x.label.MinesOnce demoConfig x.pre) := by
  let as : List (TracedAction Bool) :=
    [.transactionRequest false (.str "bob") (.num 5), .deliver 2 7 1]
  have hfinal : (execTraced demoConfig (.new [false, true] demoConfig) as).map
      (fun s => (s.origins true).chain) = some [[], [some 0, none]] := by
    decide +kernel
  obtain ⟨s, hexec, hchain⟩ := Option.map_eq_some_iff.mp hfinal
  obtain ⟨tr, htr, _⟩ := run_of_execTraced [false, true] hexec
  exact ⟨tr, s, htr, hchain, included_once_iff htr⟩

/-- Is it a payment to `receiver`? -/
def paysTo (receiver : String) (tx : Val) : Bool :=
  match tx.get "toAddress" with
  | .ok (.str s) => s == receiver
  | _            => false

/-- **Included twice.** A node asks for a transfer while it starts up; its
    neighbour mines the transaction and then answers the node's `/getBlocks`
    request.  The node adopts the chain, still has the transaction pending,
    and mines it again. -/
theorem transaction_included_twice :
    ∃ (tr : List (Transition (Traced demoEnv Bool) (TracedAction Bool)))
        (s : Traced demoEnv Bool),
      Run (tracedSystem [false, true] demoConfig) (.new [false, true] demoConfig) tr s ∧
      s.created.length = 1 ∧
      (s.nodes false).chain.map (fun b => b.transactionList.countP (paysTo "bob")) = [0, 1, 1] ∧
      ¬ IncludedOnce s := by
  let as : List (TracedAction Bool) :=
    [.transactionRequest false (.str "bob") (.num 5), .deliver 2 7 1, .answer 0, .deliver 2 9 1,
     .triggerMineBlock false 9 1]
  have hfinal : (execTraced demoConfig (.new [false, true] demoConfig) as).map
      (fun s => (s.created.length,
        (s.nodes false).chain.map (fun b => b.transactionList.countP (paysTo "bob")),
        (s.origins false).chain)) =
        some (1, [0, 1, 1], [[], [some 0, none], [some 0, none, none]]) := by
    decide +kernel
  obtain ⟨s, hexec, hfacts⟩ := Option.map_eq_some_iff.mp hfinal
  simp only [Prod.mk.injEq] at hfacts
  obtain ⟨hcreated, hpays, horigins⟩ := hfacts
  obtain ⟨tr, htr, _⟩ := run_of_execTraced [false, true] hexec
  refine ⟨tr, s, htr, hcreated, hpays, ?_⟩
  intro honce
  have htwice := honce false 0
  rw [horigins] at htwice
  exact absurd htwice (by decide)

end XCoin
