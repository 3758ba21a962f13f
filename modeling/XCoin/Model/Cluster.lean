import XCoin.Model.Network
import XCoin.Model.Saves

/-! # Nodes with databases, restarted at any time

    A network whose nodes save their chains, end and are started again.  The
    address of the database names `localhost`, so all nodes of one machine
    use one collection; `host p` is the machine of the node `p`.

    A process may end at any time, also between the commands of a save.  The
    next one starts with the genesis block, asks the neighbours for their
    blocks and queries the collection.  Responses to the old process are
    lost, and so are saves whose connection was not open yet.

    Less is assumed of the database than in `Model/Saves.lean`: commands that
    were issued are carried out in any order, or not at all, also after their
    process has ended; and `insertMany`, which stops at the first block whose
    key is taken, may stop at any block.
-/

namespace XCoin

open Js LTS

variable {E : Env} {ι H : Type}

/-! ### Saves -/

/-- A call of `saveBlockchainToDisk(xCoin.chain)`. -/
structure Saving (ι : Type) where
  node : ι
  /-- The argument, if `xCoin.chain` has been assigned another array since
      the call.  Until then the argument is what `xCoin.chain` is. -/
  array : Option (List Block)
  /-- What `insertMany` was called with and the commands not carried out yet;
      `none` until the callback of the connection has run. -/
  issued : Option (List Block × List Command)

/-- The chain an effect saves. -/
def Effect.saved : Effect → Option (List Block)
  | .save chain => some chain
  | _           => none

/-- The chains that are saved when a node handles an event. -/
def Event.saves (cfg : Config E ι) (n : Node E) (ev : Event ι) : List (List Block) :=
  ((n.handle cfg ev).toList.flatMap (·.effects)).filterMap Effect.saved

/-- Does the event assign another array to `xCoin.chain` if it saves?  In
    `/transaction` the array that is saved is the one the block was pushed
    to. -/
def Event.assigns : Event ι → Bool
  | .inv _         => true
  | .getBlocks _ _ => true
  | _              => false

/-- The call after the array `chain` of the node `p` was replaced. -/
def Saving.keep [DecidableEq ι] (p : ι) (chain : List Block) (saving : Saving ι) : Saving ι :=
  if saving.node = p ∧ saving.array = none then { saving with array := some chain } else saving

/-- The calls after the node `p` in the state `n` has handled an event. -/
def savingsAfter [DecidableEq ι] (cfg : Config E ι) (p : ι) (n : Node E) (ev : Event ι)
    (savings : List (Saving ι)) : List (Saving ι) :=
  let saved := ev.saves cfg n
  let kept := if ev.assigns && !saved.isEmpty then savings.map (·.keep p n.chain) else savings
  kept ++ saved.map fun _ => ⟨p, none, none⟩

/-- The database after a command of a call that inserts `blockchain`, of
    which it gets `count` blocks in. -/
def Command.carryOut (blockchain : List Block) (count : Nat) (db : Database) : Command → Database
  | .deleteMany       => db.deleteMany
  | .createCollection => db.createCollection
  | .insertMany       => db.insertMany (blockchain.take count)

/-! ### The cluster -/

/-- The query a process makes when it starts. -/
inductive Query where
  | waiting
  /-- The documents were found, and the callback has not run. -/
  | found (result : List Block)
  | done

/-- A network and its databases. -/
structure Cluster (E : Env) (ι H : Type) where
  network   : Network E ι
  savings   : List (Saving ι)
  queries   : ι → Query
  databases : H → Database

/-- What can happen in a cluster. -/
inductive ClusterAction (ι : Type) where
  | network (a : Action ι)
  /-- The callback of the connection of the `k`-th call. -/
  | connect (k : Nat)
  /-- The database carries out a command of the `k`-th call. -/
  | completed (k : Nat) (command : Command) (count : Nat)
  /-- The process of `p` ends and is started again. -/
  | restart (p : ι)
  /-- The database answers the query of `p`. -/
  | query (p : ι)
  /-- The callback of the query of `p`. -/
  | restore (p : ι)

variable [DecidableEq ι]

/-- The calls after an action of the network. -/
def Cluster.saved (cfgs : ι → Config E ι) (s : Cluster E ι H) (a : Action ι) :
    List (Saving ι) :=
  match a.event with
  | some (p, ev) => savingsAfter (cfgs p) p (s.network.nodes p) ev s.savings
  | none         => s.savings

/-- The network after the process of `p` was started again.  The requests of
    the old process are gone, and so are the responses to them. -/
def Network.restart (cfgs : ι → Config E ι) (s : Network E ι) (p : ι) : Network E ι where
  nodes    := Function.update s.nodes p (.new (cfgs p))
  messages := s.messages.filter (fun m => !startupOf p m) ++
    (cfgs p).neighborNodeList.map fun q => (q, .getBlocks p)

variable [DecidableEq H]

/-- One step of a cluster. -/
inductive Cluster.Step (cfgs : ι → Config E ι) (host : ι → H) (s : Cluster E ι H) :
    ClusterAction ι → Cluster E ι H → Prop where
  | network (a : Action ι) (network' : Network E ι)
      (h : Network.Step cfgs s.network a network') :
      Step cfgs host s (.network a) { s with network := network', savings := s.saved cfgs a }
  | connect (k : Nat) (saving : Saving ι) (hsaving : s.savings[k]? = some saving)
      (hopen : saving.issued = none) :
      Step cfgs host s (.connect k)
        { s with savings := s.savings.set k { saving with
            issued := some (saving.array.getD (s.network.nodes saving.node).chain,
              Command.issued) } }
  | completed (k : Nat) (command : Command) (count : Nat) (saving : Saving ι)
      (blockchain : List Block) (remaining : List Command)
      (hsaving : s.savings[k]? = some saving)
      (hissued : saving.issued = some (blockchain, remaining)) (hcommand : command ∈ remaining) :
      Step cfgs host s (.completed k command count)
        { s with
          savings   := s.savings.set k
            { saving with issued := some (blockchain, remaining.erase command) }
          databases := Function.update s.databases (host saving.node)
            (command.carryOut blockchain count (s.databases (host saving.node))) }
  | restart (p : ι) :
      Step cfgs host s (.restart p)
        { s with
          network := s.network.restart cfgs p
          -- a connection that was not open dies with its process
          savings := s.savings.filter fun saving => decide (saving.node ≠ p) || saving.issued.isSome
          queries := Function.update s.queries p .waiting }
  | query (p : ι) (hwaiting : s.queries p = .waiting) :
      Step cfgs host s (.query p)
        { s with queries := Function.update s.queries p (.found (s.databases (host p)).documents) }
  | restore (p : ι) (result : List Block) (network' : Network E ι)
      (hfound : s.queries p = .found result)
      (h : s.network.Handles cfgs p (.restore result) s.network.messages network') :
      Step cfgs host s (.restore p)
        { s with network := network', queries := Function.update s.queries p .done }

/-- The start: the processes are started on machines with empty databases. -/
def Cluster.new (names : List ι) (cfgs : ι → Config E ι) : Cluster E ι H where
  network   := .new names cfgs
  savings   := []
  queries   := fun _ => .waiting
  databases := fun _ => ⟨[]⟩

/-- The cluster of the nodes `names`. -/
def clusterSystem (names : List ι) (cfgs : ι → Config E ι) (host : ι → H) :
    System (Cluster E ι H) (ClusterAction ι) where
  init := fun s => s = .new names cfgs
  step := Cluster.Step cfgs host

end XCoin
