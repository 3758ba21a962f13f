import XCoin.Framework.System
import XCoin.Model.Blockchain

/-! # Runs of a blockchain object

    The calls a program makes on one `Blockchain` object, as a labelled
    transition system.  A call that throws is a step like any other; a call
    whose search never ends is not a step, since nothing happens after it.
-/

namespace XCoin

open Js LTS

/-- One call of a method that changes the object. -/
inductive Op where
  | createTransaction (transaction : Val)
  | addTransaction (transaction : Val)
  /-- `addBlock(new Block(timestamp, transactions, previousHash))`. -/
  | addBlock (timestamp : Timestamp) (transactions : Val) (previousHash : String)
      (fuel : Nat)
  /-- `minePendingTransactions(address)`, with the value of `Date.now()`. -/
  | minePendingTransactions (miningRewardAddress : Val) (date : Int) (fuel : Nat)

variable {E : Env}

/-- The result of a call and the object after it. -/
def Op.exec (bc : Blockchain E) : Op → Option (Result Unit × Blockchain E)
  | .createTransaction tx => some (.ok (), bc.createTransaction tx)
  | .addTransaction tx => some (bc.addTransaction tx)
  | .addBlock timestamp transactions previousHash fuel =>
      (bc.addBlock (.new timestamp transactions previousHash) fuel).map
        fun (r, bc') => (r.map fun _ => (), bc')
  | .minePendingTransactions address date fuel =>
      (bc.minePendingTransactions address date fuel).map
        fun (r, bc') => (r.map fun _ => (), bc')

theorem Op.exec_minePendingTransactions {bc bc' : Blockchain E} {address : Val} {date : Int}
    {fuel : Nat} {r : Result Block}
    (h : bc.minePendingTransactions address date fuel = some (r, bc')) :
    (Op.minePendingTransactions address date fuel).exec bc = some (r.map fun _ => (), bc') := by
  simp only [Op.exec, h, Option.map_some]

/-- The runs that start with `new Blockchain(keyPair)`. -/
def chainSystem (E : Env) (keyPair : Option E.KeyPair) : System (Blockchain E) Op where
  init := fun bc => bc = .new E keyPair
  step := fun bc op bc' => ∃ r, op.exec bc = some (r, bc')

/-! ### Kinds of runs -/

/-- The calls users and miners make: `addTransaction` and
    `minePendingTransactions`. -/
def Op.isSubmitOrMine : Op → Prop
  | .addTransaction _ => True
  | .minePendingTransactions _ _ _ => True
  | _ => False

/-- All calls but `addBlock`, with clocks that show natural numbers. -/
def Op.isPendingOp : Op → Prop
  | .createTransaction _ => True
  | .addTransaction _ => True
  | .minePendingTransactions _ date _ => 0 ≤ date
  | .addBlock _ _ _ _ => False

/-- The runs of `addTransaction` and `minePendingTransactions`. -/
def submitSystem (E : Env) (keyPair : Option E.KeyPair) : System (Blockchain E) Op :=
  (chainSystem E keyPair).restrict fun _ op => op.isSubmitOrMine

/-- The runs without `addBlock` whose clocks show natural numbers. -/
def pendingSystem (E : Env) (keyPair : Option E.KeyPair) : System (Blockchain E) Op :=
  (chainSystem E keyPair).restrict fun _ op => op.isPendingOp

/-! ### Running calls one after the other -/

/-- The object after a list of calls, exceptions ignored. -/
def execAll (bc : Blockchain E) : List Op → Option (Blockchain E)
  | []        => some bc
  | op :: ops => (op.exec bc).bind fun (_, bc') => execAll bc' ops

/-- The transitions of a list of calls, up to the first that does not
    return. -/
def traceOf (bc : Blockchain E) : List Op → List (Transition (Blockchain E) Op)
  | []        => []
  | op :: ops =>
      match op.exec bc with
      | some (_, bc') => ⟨bc, op, bc'⟩ :: traceOf bc' ops
      | none          => []

/-- A list of allowed calls is a run with its transitions. -/
theorem run_traceOf (keyPair : Option E.KeyPair) (ok : Blockchain E → Op → Prop)
    {bc bc' : Blockchain E} {ops : List Op} (hok : ∀ s, ∀ op ∈ ops, ok s op)
    (hrun : execAll bc ops = some bc') :
    Run ((chainSystem E keyPair).restrict ok) bc (traceOf bc ops) bc' ∧
      (traceOf bc ops).map (·.label) = ops := by
  induction ops generalizing bc with
  | nil =>
    cases hrun
    exact ⟨.nil, rfl⟩
  | cons op ops ih =>
    obtain ⟨⟨r, s⟩, hexec, hrest⟩ := Option.bind_eq_some_iff.mp hrun
    obtain ⟨htr, hlabels⟩ := ih (fun s op hop => hok s op (by simp [hop])) hrest
    simp only [traceOf, hexec, List.map_cons, hlabels, and_true]
    exact htr.cons ⟨hok bc op (by simp), r, hexec⟩

/-- A list of allowed calls is a run with these labels. -/
theorem run_of_execAll (keyPair : Option E.KeyPair) (ok : Blockchain E → Op → Prop)
    {bc bc' : Blockchain E} {ops : List Op} (hok : ∀ s, ∀ op ∈ ops, ok s op)
    (hrun : execAll bc ops = some bc') :
    ∃ tr, Run ((chainSystem E keyPair).restrict ok) bc tr bc' ∧ tr.map (·.label) = ops :=
  ⟨traceOf bc ops, run_traceOf keyPair ok hok hrun⟩

/-! ### A concrete environment -/

/-- Stand-ins for the two packages, to run the model on: every hash is the
    text `0` and every signature verifies. -/
def demoEnv : Env where
  KeyPair   := Unit
  Signature := Unit
  SHA256    := fun _ => "0"
  getPublic := fun _ => "04aa"
  sign      := fun _ _ => .ok ()
  toDER     := fun _ => "3006"
  verify    := fun _ _ _ => .ok true

end XCoin
