import XCoin.Framework.Collection
import XCoin.Model.BlockchainSaver

/-! # Overlapping saves

    `saveBlockchainToDisk` of `BlockchainSaver.js` only asks for a connection.
    Its callback issues `deleteMany`, `createCollection` and `insertMany`
    without waiting for any of them, and meanwhile the node goes on and may
    call `saveBlockchainToDisk` again.  Each call has a connection of its own:
    its commands are carried out in the order they were issued, and those of
    different calls in any order.

    The argument is the array `xCoin.chain` itself, to which later requests
    push, so `insertMany` gets the blocks the chain has when the callback
    runs.  The driver gives every object that has no `_id` a new one, and
    leaves it there: the same block is inserted under the same key by every
    call.  An exception thrown because `insertMany` reports a key that is
    taken ends the process, but no command that was issued; runs in which the
    process goes on are included here.
-/

namespace XCoin

open Js LTS Collection

/-- The commands a call issues. -/
inductive Command where
  | deleteMany
  | createCollection
  | insertMany
deriving DecidableEq, Repr

/-- The commands in the order they are issued. -/
def Command.issued : List Command := [.deleteMany, .createCollection, .insertMany]

/-- The collection after a command of a call that inserts `documents`. -/
def Command.run (documents stored : List (Document Nat Block)) :
    Command → List (Document Nat Block)
  | .deleteMany       => []
  -- the collection exists, or is empty and missing
  | .createCollection => stored
  | .insertMany       => Collection.insertMany stored documents

/-- A call of `saveBlockchainToDisk`. -/
structure SaveCall where
  /-- What `insertMany` was called with; `none` until the callback has run. -/
  documents : Option (List (Document Nat Block))
  /-- The issued commands that are not carried out yet. -/
  remaining : List Command

/-- The documents of blocks that carry the given keys. -/
def documentsOf (chain : List Block) (ids : List Nat) : List (Document Nat Block) :=
  List.zipWith (fun b id => ⟨id, b.document⟩) chain ids

/-- A node, the calls it has made and the collection. -/
structure SaveState (E : Env) where
  node       : Node E
  /-- The keys the blocks of the chain carry, as far as they carry one. -/
  ids        : List Nat
  calls      : List SaveCall
  collection : List (Document Nat Block)

/-- What happens at the node and in the database. -/
inductive SaveEvent where
  /-- A `/transaction` request that mines a block and saves the chain. -/
  | transaction (body : Val) (date : Int) (fuel : Nat)
  /-- A `/transaction` request whose mining throws. -/
  | refused (body : Val) (date : Int) (fuel : Nat)
  /-- The callback of the connection of the `k`-th call. -/
  | connect (k : Nat)
  /-- The database carries out a command of the `k`-th call. -/
  | completed (k : Nat) (command : Command)

variable {E : Env} {ι : Type}

/-- One event. -/
inductive SaveStep (cfg : Config E ι) : SaveState E → SaveEvent → SaveState E → Prop where
  | transaction (s : SaveState E) (body : Val) (date : Int) (fuel : Nat) (node : Node E)
      (effects : List Effect)
      (hhandle : s.node.postTransaction cfg body date fuel = some ⟨.ok (), node, effects⟩) :
      SaveStep cfg s (.transaction body date fuel)
        { s with node, calls := s.calls ++ [⟨none, []⟩] }
  | refused (s : SaveState E) (body : Val) (date : Int) (fuel : Nat) (node : Node E)
      (effects : List Effect) (e : JsError)
      (hhandle : s.node.postTransaction cfg body date fuel = some ⟨.error e, node, effects⟩) :
      SaveStep cfg s (.refused body date fuel) { s with node }
  /-- The driver finds keys for the blocks without one. -/
  | connect (s : SaveState E) (k : Nat) (fresh : List Nat)
      (hcall : s.calls[k]? = some ⟨none, []⟩)
      (hlength : s.ids.length + fresh.length = s.node.chain.length)
      (hfresh : (s.ids ++ fresh).Nodup) :
      SaveStep cfg s (.connect k)
        { s with
          ids   := s.ids ++ fresh
          calls := s.calls.set k
            ⟨some (documentsOf s.node.chain (s.ids ++ fresh)), Command.issued⟩ }
  | completed (s : SaveState E) (k : Nat) (command : Command) (rest : List Command)
      (documents : List (Document Nat Block))
      (hcall : s.calls[k]? = some ⟨some documents, command :: rest⟩) :
      SaveStep cfg s (.completed k command)
        { s with
          calls      := s.calls.set k ⟨some documents, rest⟩
          collection := command.run documents s.collection }

/-- The runs that start with any chain and any collection, before the first
    call. -/
def saveSystem (cfg : Config E ι) : System (SaveState E) SaveEvent where
  init := fun s => s.calls = [] ∧ s.node.chain ≠ [] ∧ s.ids.Nodup ∧
    s.ids.length ≤ s.node.chain.length
  step := SaveStep cfg

/-- All calls are carried out. -/
def SaveState.Completed (s : SaveState E) : Prop :=
  ∀ call ∈ s.calls, call.documents.isSome = true ∧ call.remaining = []

/-! ### Running events one after the other -/

/-- The state after an event, with the next free numbers as new keys. -/
def SaveEvent.exec (cfg : Config E ι) (s : SaveState E) : SaveEvent → Option (SaveState E)
  | .transaction body date fuel =>
      match s.node.postTransaction cfg body date fuel with
      | some ⟨.ok (), node, _⟩ => some { s with node, calls := s.calls ++ [⟨none, []⟩] }
      | _ => none
  | .refused body date fuel =>
      match s.node.postTransaction cfg body date fuel with
      | some ⟨.error _, node, _⟩ => some { s with node }
      | _ => none
  | .connect k =>
      let fresh := List.range' s.ids.length (s.node.chain.length - s.ids.length)
      match s.calls[k]? with
      | some ⟨none, []⟩ =>
          if s.ids.length + fresh.length = s.node.chain.length ∧ (s.ids ++ fresh).Nodup then
            some { s with
              ids   := s.ids ++ fresh
              calls := s.calls.set k
                ⟨some (documentsOf s.node.chain (s.ids ++ fresh)), Command.issued⟩ }
          else none
      | _ => none
  | .completed k command =>
      match s.calls[k]? with
      | some ⟨some documents, next :: rest⟩ =>
          if next = command then
            some { s with
              calls      := s.calls.set k ⟨some documents, rest⟩
              collection := command.run documents s.collection }
          else none
      | _ => none

theorem SaveStep.of_exec {cfg : Config E ι} {s s' : SaveState E} {ev : SaveEvent}
    (h : ev.exec cfg s = some s') : SaveStep cfg s ev s' := by
  cases ev with
  | transaction body date fuel =>
    simp only [SaveEvent.exec] at h
    split at h
    · next node effects hhandle =>
      cases h
      exact .transaction s body date fuel node effects hhandle
    · cases h
  | refused body date fuel =>
    simp only [SaveEvent.exec] at h
    split at h
    · next e node effects hhandle =>
      cases h
      exact .refused s body date fuel node effects e hhandle
    · cases h
  | connect k =>
    simp only [SaveEvent.exec] at h
    split at h
    · next hcall =>
      split at h
      · next hkeys =>
        cases h
        exact .connect s k _ hcall hkeys.1 hkeys.2
      · cases h
    · cases h
  | completed k command =>
    simp only [SaveEvent.exec] at h
    split at h
    · next documents next rest hcall =>
      split at h
      · next hnext =>
        cases h
        subst hnext
        exact .completed s k _ rest documents hcall
      · cases h
    · cases h

/-- The state after a list of events. -/
def execSaves (cfg : Config E ι) (s : SaveState E) (evs : List SaveEvent) :
    Option (SaveState E) :=
  execList (fun s ev => ev.exec cfg s) s evs

/-- A list of events that can be run is a run with these labels. -/
theorem run_of_execSaves {cfg : Config E ι} {s s' : SaveState E} {evs : List SaveEvent}
    (h : execSaves cfg s evs = some s') :
    ∃ tr, Run (saveSystem cfg) s tr s' ∧ tr.map (·.label) = evs :=
  Run.of_execList (fun _ _ _ hexec => SaveStep.of_exec hexec) h

end XCoin
