import XCoin.Node.Startup

/-! # What a node takes from others

    A node in an environment that may send it, at any time, arbitrary values
    as transactions and arbitrary arrays of blocks, as announcements or in
    response to its own requests, with a database that holds arbitrary blocks.
    Bodies of `POST /inv` that are no arrays of blocks are left out: the guard
    there reads a property `length`, which another value may have, too.

    There are two ways for blocks of others into its chain, the responses of
    the startup and the database.  Every other block is the genesis block, or
    the node has mined it on exactly the blocks that stand before it.
-/

namespace XCoin

open Js LTS

variable {E : Env} {ι : Type} {cfg : Config E ι} {n n' : Node E}

/-- A recorded chain was recorded before, or the event brings it. -/
theorem Event.Outcome.response_cases {ev : Event ι} {effects : List Effect}
    (h : ev.Outcome cfg n n' effects) {c : List Block}
    (hc : c ∈ n'.neighborNodeResponseList) :
    c ∈ n.neighborNodeResponseList ∨ ∃ k, ev = .getBlocks k (some c) := by
  have hrecord {k : ι} {body : Option (List Block)}
      (hmem : c ∈ (n.recordResponse body).neighborNodeResponseList) :
      c ∈ n.neighborNodeResponseList ∨
        ∃ k', (Event.getBlocks k body : Event ι) = .getBlocks k' (some c) := by
    rcases List.mem_append.mp hmem with hmem | hmem
    · exact .inl hmem
    · rw [Option.mem_toList] at hmem
      rw [hmem]
      exact .inr ⟨k, rfl⟩
  cases h with
  | recorded k body => exact hrecord hc
  | announced k body => exact hrecord hc
  | adopted k body => exact hrecord hc
  | _ => exact .inl hc

/-! ### Blocks of others -/

/-- The blocks an event brings to a node: those of a response, or what becomes
    of those in the database. -/
def Event.foreignBlocks : Event ι → List Block
  | .getBlocks _ body => body.getD []
  | .restore result   => result.map Node.restoreBlock
  | _                 => []

/-- The blocks that were brought along a run. -/
def foreignBlocks (tr : List (NodeStep E ι)) : List Block :=
  tr.flatMap fun x => x.label.1.foreignBlocks

/-- Where the block at a position of a chain comes from, if others have
    brought the blocks `foreign`. -/
def Placed (E : Env) (foreign : List Block) (chain : List Block) (i : Nat) (b : Block) : Prop :=
  b = createGenesisBlock ∨ b ∈ foreign ∨ MinedOn E (chain.take i) b

/-- Every block of the chain has a place, and all that was recorded was
    brought. -/
structure IntakeInv (foreign : List Block) (n : Node E) : Prop where
  chain     : ∀ i b, n.chain[i]? = some b → Placed E foreign n.chain i b
  responses : ∀ c ∈ n.neighborNodeResponseList, ∀ b ∈ c, b ∈ foreign

theorem Placed.mono {foreign more chain : List Block} {i : Nat} {b : Block}
    (h : Placed E foreign chain i b) : Placed E (foreign ++ more) chain i b := by
  rcases h with hgenesis | hforeign | hmined
  · exact .inl hgenesis
  · exact .inr (.inl (List.mem_append_left _ hforeign))
  · exact .inr (.inr hmined)

/-- Blocks that are appended leave the others in their places. -/
theorem placed_append {foreign chain more : List Block}
    (h : ∀ i b, chain[i]? = some b → Placed E foreign chain i b)
    (hmore : ∀ i b, more[i]? = some b →
      Placed E foreign (chain ++ more) (chain.length + i) b) :
    ∀ i b, (chain ++ more)[i]? = some b → Placed E foreign (chain ++ more) i b := by
  intro i b hb
  by_cases hi : i < chain.length
  · rw [List.getElem?_append_left hi] at hb
    rcases h i b hb with hgenesis | hforeign | hmined
    · exact .inl hgenesis
    · exact .inr (.inl hforeign)
    · right
      right
      rw [List.take_append_of_le_length (Nat.le_of_lt hi)]
      exact hmined
  · rw [List.getElem?_append_right (by omega)] at hb
    have hplaced := hmore _ b hb
    rwa [Nat.add_sub_cancel' (by omega)] at hplaced

/-- **Step lemma**: whatever happens, every block has a place. -/
theorem IntakeInv.step {foreign : List Block} {ev : Event ι} {effects : List Effect}
    (hn : IntakeInv foreign n) (hne : n.chain ≠ []) (h : ev.Outcome cfg n n' effects) :
    IntakeInv (foreign ++ ev.foreignBlocks) n' := by
  have hold : ∀ i b, n.chain[i]? = some b → Placed E (foreign ++ ev.foreignBlocks) n.chain i b :=
    fun i b hb => (hn.chain i b hb).mono
  have hresponses : ∀ c ∈ n'.neighborNodeResponseList, ∀ b ∈ c,
      b ∈ foreign ++ ev.foreignBlocks := by
    intro c hc b hb
    rcases h.response_cases hc with hc | ⟨k, rfl⟩
    · exact List.mem_append_left _ (hn.responses c hc b hb)
    · exact List.mem_append_right _ hb
  refine ⟨?_, hresponses⟩
  cases h.change with
  | kept _ hchain =>
    rw [hchain]
    exact hold
  | mined _ b _ hmined hchain =>
    rw [hchain]
    apply placed_append hold
    intro i b' hb'
    obtain ⟨hi, rfl⟩ := List.getElem?_eq_some_iff.mp hb'
    have hzero : i = 0 := by simpa using hi
    subst hzero
    right
    right
    rw [Nat.add_zero, List.take_left]
    exact hmined
  | adopted k body _ _ hlongest hle =>
    have hmem : n'.chain ∈ n'.neighborNodeResponseList := by
      rw [hlongest] at hle ⊢
      exact Node.longest_mem_of_le hne hle
    intro i b hb
    exact .inr (.inl (hresponses _ hmem b (List.mem_of_getElem? hb)))
  | restored result hchain =>
    rw [hchain]
    apply placed_append hold
    intro i b hb
    exact .inr (.inl (List.mem_append_right _ (List.mem_of_getElem? hb)))

end XCoin
