import XCoin.Framework.Longest
import XCoin.Node.Handlers

/-! # The startup decision

    `startup` sends a `getBlocks` request to every neighbour.  Each callback
    records its response and then increments a shared counter; the callback
    that finds the counter at the last neighbour decides whether the node
    announces its own chain or adopts a received one.

    Along every run the counter and the neighbours still waited for add up to
    the number of neighbours (`startup_inv`), so the decision is taken in the
    last callback, whatever happens in between.
-/

namespace XCoin

open Js LTS

variable {E : Env} {ι : Type} {cfg : Config E ι}

/-! ### What a run has received -/

/-- A step of a node. -/
abbrev NodeStep (E : Env) (ι : Type) := Transition (NodeState E ι) (Event ι × List Effect)

/-- Is the event a callback of `startup`? -/
def Event.isCallback : Event ι → Bool
  | .getBlocks _ _ => true
  | _ => false

/-- The response a callback of `startup` brings. -/
def Event.response : Event ι → Option (List Block)
  | .getBlocks _ body => body
  | _ => none

/-- The responses a run has received, in the order of arrival. -/
def received (tr : List (NodeStep E ι)) : List (List Block) :=
  tr.filterMap fun x => x.label.1.response

/-- A callback of `startup` that announces or adopts a chain. -/
def Decides (x : NodeStep E ι) : Prop :=
  x.label.1.isCallback = true ∧ x.label.2 ≠ []

/-- The decision `startup` is meant to take in step `x`, once it has all
    `responses`: announce the node's chain if it is longer than every
    response, adopt the first of the longest responses otherwise. -/
structure DecidesRightly (x : NodeStep E ι) (responses : List (List Block)) : Prop where
  announce : (∀ r ∈ responses, r.length < x.pre.node.chain.length) →
    x.post.node.chain = x.pre.node.chain ∧ x.label.2 = [.sendInv x.pre.node.chain]
  adopt : ¬ (∀ r ∈ responses, r.length < x.pre.node.chain.length) →
    ∃ l₁ r l₂, responses = l₁ ++ r :: l₂ ∧ (∀ q ∈ l₁, q.length < r.length) ∧
      (∀ q ∈ responses, q.length ≤ r.length) ∧
      x.post.node.chain = r ∧ x.label.2 = [.save r]

theorem received_append (tr : List (NodeStep E ι)) (x : NodeStep E ι) :
    received (tr ++ [x]) = received tr ++ x.label.1.response.toList := by
  unfold received
  rw [List.filterMap_append]
  cases hx : x.label.1.response <;> simp [hx]

/-- An event that is no callback brings no response. -/
theorem Event.response_eq_none {ev : Event ι} (h : ev.isCallback = false) :
    ev.response = none := by
  cases ev with
  | getBlocks k body => cases h
  | _ => rfl

/-! ### Steps -/

/-- What the callbacks of `startup` have done so far. -/
structure StartupInv (cfg : Config E ι) (tr : List (NodeStep E ι)) (s : NodeState E ι) : Prop where
  /-- The counter counts the callbacks that have run. -/
  count : s.node.i + s.waiting.length = cfg.neighborNodeList.length
  /-- No response is forgotten. -/
  responses : s.node.neighborNodeResponseList = received tr

/-- The other events leave counter and responses alone. -/
theorem Event.Outcome.startup_unchanged {ev : Event ι} {n n' : Node E} {effects : List Effect}
    (h : ev.Outcome cfg n n' effects) (hev : ev.isCallback = false) :
    n'.i = n.i ∧ n'.neighborNodeResponseList = n.neighborNodeResponseList := by
  cases h with
  | recorded => cases hev
  | announced => cases hev
  | adopted => cases hev
  | _ => exact ⟨rfl, rfl⟩

/-- A callback counts itself and records its response. -/
theorem Event.Outcome.startup_recorded {k : ι} {body : Option (List Block)} {n n' : Node E}
    {effects : List Effect} (h : (Event.getBlocks k body).Outcome cfg n n' effects) :
    n'.i = n.i + 1 ∧
      n'.neighborNodeResponseList = n.neighborNodeResponseList ++ body.toList := by
  cases h with
  | recorded => exact ⟨rfl, rfl⟩
  | announced => exact ⟨rfl, rfl⟩
  | adopted => exact ⟨rfl, rfl⟩

theorem Event.settles_of_not_callback {ev : Event ι} {w w' : List ι} (h : ev.settles w w')
    (hev : ev.isCallback = false) : w' = w := by
  cases ev with
  | getBlocks k body => cases hev
  | _ => exact h

theorem Event.settles_callback {k : ι} {body : Option (List Block)} {w w' : List ι}
    (h : (Event.getBlocks k body).settles w w') : w.length = w'.length + 1 := by
  obtain ⟨l₁, l₂, rfl, rfl⟩ := h
  simp only [List.length_append, List.length_cons]
  omega

/-- **Step lemma** for the counter and the responses. -/
theorem StartupInv.step {tr : List (NodeStep E ι)} {s s' : NodeState E ι}
    {l : Event ι × List Effect} (h : StartupInv cfg tr s)
    (hout : l.1.Outcome cfg s.node s'.node l.2) (hsettles : l.1.settles s.waiting s'.waiting) :
    StartupInv cfg (tr ++ [⟨s, l, s'⟩]) s' := by
  obtain ⟨ev, effects⟩ := l
  have hcount := h.count
  by_cases hev : ev.isCallback = false
  · -- counter, responses and neighbours waited for stay as they are
    obtain ⟨hi, hlist⟩ := hout.startup_unchanged hev
    have hwait := Event.settles_of_not_callback hsettles hev
    refine ⟨by rw [hi, hwait, hcount], ?_⟩
    rw [received_append, Event.response_eq_none hev, hlist, h.responses]
    simp
  · cases ev with
    | getBlocks k body =>
      -- one more callback has run, one neighbour less is waited for
      obtain ⟨hi, hlist⟩ := hout.startup_recorded
      have hlen := Event.settles_callback hsettles
      refine ⟨by omega, ?_⟩
      rw [received_append, hlist, h.responses]
      rfl
    | _ => exact absurd rfl hev

/-- The loop of the decision finds nothing, or a response. -/
theorem Node.longest_mem (responses : List (List Block)) :
    Node.maxNeighborNodeBodyList responses = [] ∨
      Node.maxNeighborNodeBodyList responses ∈ responses :=
  Longest.pick_mem List.length [] responses

/-- It finds a response if it finds one as long as a chain with a block. -/
theorem Node.longest_mem_of_le {responses : List (List Block)} {c : List Block} (hne : c ≠ [])
    (hle : c.length ≤ (Node.maxNeighborNodeBodyList responses).length) :
    Node.maxNeighborNodeBodyList responses ∈ responses := by
  rcases Node.longest_mem responses with hnil | hmem
  · rw [hnil, List.length_nil, Nat.le_zero, List.length_eq_zero_iff] at hle
    exact absurd hle hne
  · exact hmem

/-- It finds a chain shorter than `k` exactly if all responses are. -/
theorem Node.longest_lt_iff {responses : List (List Block)} {k : Nat} (hk : 0 < k) :
    (Node.maxNeighborNodeBodyList responses).length < k ↔ ∀ r ∈ responses, r.length < k := by
  have hle := Longest.le_pick List.length [] responses
  constructor
  · intro hlt r hr
    exact Nat.lt_of_le_of_lt (hle r (List.mem_cons_of_mem _ hr)) hlt
  · intro hall
    rcases Node.longest_mem responses with hnil | hmem
    · rw [hnil]
      exact hk
    · exact hall _ hmem

/-- A run in which `startup` has decided: the decision was right, it was
    taken in the last callback, and no callback before it decided. -/
def HasDecided (tr : List (NodeStep E ι)) : Prop :=
  ∃ tr₁ x tr₂, tr = tr₁ ++ x :: tr₂ ∧ Decides x ∧ DecidesRightly x (received tr) ∧
    (∀ y ∈ tr₁, ¬ Decides y) ∧ ∀ y ∈ tr₂, y.label.1.isCallback = false

/-- A step that is no callback does not change whether `startup` has decided. -/
theorem HasDecided.append {tr : List (NodeStep E ι)} {x : NodeStep E ι} (h : HasDecided tr)
    (hx : x.label.1.isCallback = false) : HasDecided (tr ++ [x]) := by
  obtain ⟨tr₁, y, tr₂, rfl, hdecides, hright, hbefore, hafter⟩ := h
  refine ⟨tr₁, y, tr₂ ++ [x], by simp, hdecides, ?_, hbefore, ?_⟩
  · rw [received_append, Event.response_eq_none hx]
    simpa using hright
  · intro z hz
    rcases List.mem_append.mp hz with hz | hz
    · exact hafter z hz
    · rw [List.mem_singleton.mp hz]
      exact hx

end XCoin
