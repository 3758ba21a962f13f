import XCoin.Model.Saves
import XCoin.Node.Handlers

/-! # What overlapping saves leave in the collection

    All calls insert the same block under the same key, and all of them start
    with the first block of the chain.  So after the latest `deleteMany` the
    first `insertMany` fills the collection and every later one is rejected at
    its first document.  The collection holds the chain at the end exactly if
    the call that filled it has seen the last block, that is, if its callback
    ran after the last request that saved (`Schedule`).
-/

namespace XCoin

open Js LTS Collection

variable {E : Env} {ι : Type} {cfg : Config E ι}

/-! ### Schedules -/

/-- What matters of the order of events. -/
structure Schedule where
  /-- The call whose `insertMany` came first after the latest `deleteMany`. -/
  filler : Option Nat
  /-- The calls whose callback ran after the latest request that saved. -/
  upToDate : List Nat

/-- The schedule after one more event. -/
def Schedule.next (sch : Schedule) : SaveEvent → Schedule
  | .transaction _ _ _ => { sch with upToDate := [] }
  | .refused _ _ _ => sch
  | .connect k => { sch with upToDate := k :: sch.upToDate }
  | .completed _ .deleteMany => { sch with filler := none }
  | .completed _ .createCollection => sch
  | .completed k .insertMany => { sch with filler := sch.filler.or (some k) }

/-- The schedule of a sequence of events. -/
def schedule (events : List SaveEvent) : Schedule := events.foldl Schedule.next ⟨none, []⟩

/-- The call that filled the collection has seen the latest block. -/
def Schedule.SavesLatest (sch : Schedule) : Prop :=
  ∃ k, sch.filler = some k ∧ k ∈ sch.upToDate

theorem schedule_concat (events : List SaveEvent) (ev : SaveEvent) :
    schedule (events ++ [ev]) = (schedule events).next ev := by
  simp [schedule]

/-! ### Documents -/

@[simp] theorem documentsOf_length (chain : List Block) (ids : List Nat) :
    (documentsOf chain ids).length = min chain.length ids.length := by
  simp [documentsOf]

/-- New blocks carry no key yet. -/
theorem documentsOf_append_left {chain : List Block} {ids : List Nat}
    (h : ids.length ≤ chain.length) (more : List Block) :
    documentsOf (chain ++ more) ids = documentsOf chain ids := by
  induction chain generalizing ids with
  | nil =>
    obtain rfl : ids = [] := by simpa using h
    simp [documentsOf]
  | cons b chain ih =>
    cases ids with
    | nil => simp [documentsOf]
    | cons id ids =>
      have hrest : documentsOf (chain ++ more) ids = documentsOf chain ids := ih (by simpa using h)
      simpa [documentsOf] using hrest

/-- New keys come behind the others. -/
theorem documentsOf_append_keys (chain : List Block) (ids fresh : List Nat) :
    documentsOf chain ids <+: documentsOf chain (ids ++ fresh) := by
  induction chain generalizing ids with
  | nil => simp [documentsOf]
  | cons b chain ih =>
    cases ids with
    | nil => simp [documentsOf]
    | cons id ids =>
      have hrest := ih ids
      simpa [documentsOf] using hrest

/-- The documents of some keyed blocks are those of the first blocks. -/
theorem body_of_initial {chain : List Block} {ids : List Nat} {docs : List (Document Nat Block)}
    (h : docs <+: documentsOf chain ids) :
    docs.map Document.body = (chain.take docs.length).map Block.document := by
  induction chain generalizing ids docs with
  | nil =>
    obtain rfl : docs = [] := by simpa [documentsOf] using h
    rfl
  | cons b chain ih =>
    cases ids with
    | nil =>
      obtain rfl : docs = [] := by simpa [documentsOf] using h
      rfl
    | cons id ids =>
      cases docs with
      | nil => rfl
      | cons d docs =>
        obtain ⟨hd, hdocs⟩ := List.cons_prefix_cons.mp h
        simp [hd, ih hdocs]

theorem keys_documentsOf (chain : List Block) (ids : List Nat) :
    keys (documentsOf chain ids) <+: ids := by
  induction chain generalizing ids with
  | nil => simp [documentsOf, keys]
  | cons b chain ih =>
    cases ids with
    | nil => simp [documentsOf, keys]
    | cons id ids =>
      have hrest := ih ids
      simpa [documentsOf, keys] using hrest

/-! ### Requests -/

/-- A `/transaction` request that returns has appended a block. -/
theorem Node.postTransaction_ok {n n' : Node E} {body : Val} {date : Int} {fuel : Nat}
    {effects : List Effect}
    (h : n.postTransaction cfg body date fuel = some ⟨.ok (), n', effects⟩) :
    ∃ b, n'.chain = n.chain ++ [b] := by
  obtain ⟨⟨q, xCoin⟩, hmine, heq⟩ := Option.map_eq_some_iff.mp h
  rcases Blockchain.minePendingTransactions_cases hmine with
    ⟨e, _, rfl, _⟩ | ⟨_, _, ⟨e, rfl, _⟩ | ⟨b, rfl, _, _, _, rfl⟩⟩
  · cases heq
  · cases heq
  · cases heq
    exact ⟨b, rfl⟩

/-- One that throws has left the chain as it was. -/
theorem Node.postTransaction_error {n n' : Node E} {body : Val} {date : Int} {fuel : Nat}
    {effects : List Effect} {e : JsError}
    (h : n.postTransaction cfg body date fuel = some ⟨.error e, n', effects⟩) :
    n'.chain = n.chain := by
  obtain ⟨⟨q, xCoin⟩, hmine, heq⟩ := Option.map_eq_some_iff.mp h
  rcases Blockchain.minePendingTransactions_cases hmine with
    ⟨_, _, rfl, rfl⟩ | ⟨_, _, ⟨_, rfl, rfl⟩ | ⟨_, rfl, _⟩⟩
  · cases heq
    rfl
  · cases heq
    rfl
  · cases heq

/-! ### The calls -/

/-- The `k`-th call has issued its commands and inserts `docs`. -/
def SaveState.Inserts (s : SaveState E) (k : Nat) (docs : List (Document Nat Block)) : Prop :=
  ∃ rest, s.calls[k]? = some ⟨some docs, rest⟩

/-- A new call has not issued anything. -/
theorem inserts_append {s : SaveState E} {node : Node E} {k : Nat}
    {docs : List (Document Nat Block)} :
    SaveState.Inserts { s with node, calls := s.calls ++ [⟨none, []⟩] } k docs ↔
      s.Inserts k docs := by
  refine exists_congr fun rest => ?_
  by_cases hk : k < s.calls.length
  · simp [List.getElem?_append_left hk]
  · rw [List.getElem?_append_right (by omega), List.getElem?_eq_none (l := s.calls) (by omega)]
    cases k - s.calls.length <;> simp

/-- The callback of a call issues its commands. -/
theorem inserts_connect {s : SaveState E} {ids : List Nat} {k j : Nat}
    {new docs : List (Document Nat Block)} (hcall : s.calls[k]? = some ⟨none, []⟩) :
    SaveState.Inserts { s with ids, calls := s.calls.set k ⟨some new, Command.issued⟩ } j docs ↔
      (j = k ∧ docs = new) ∨ s.Inserts j docs := by
  obtain ⟨hk, hget⟩ := List.getElem?_eq_some_iff.mp hcall
  unfold SaveState.Inserts
  by_cases hj : j = k
  · subst hj
    simp [hk, hget, eq_comm]
  · simp [List.getElem?_set_ne (Ne.symm hj), hj]

/-- A command that is carried out changes nothing in what is inserted. -/
theorem inserts_completed {s : SaveState E} {k j : Nat} {command : Command}
    {rest : List Command} {docs docs' collection : List (Document Nat Block)}
    (hcall : s.calls[k]? = some ⟨some docs, command :: rest⟩) :
    SaveState.Inserts { s with calls := s.calls.set k ⟨some docs, rest⟩, collection } j docs' ↔
      s.Inserts j docs' := by
  obtain ⟨hk, hget⟩ := List.getElem?_eq_some_iff.mp hcall
  unfold SaveState.Inserts
  by_cases hj : j = k
  · subst hj
    simp [hk, hget]
  · simp [List.getElem?_set_ne (Ne.symm hj)]

/-! ### The invariant -/

/-- No command has been carried out. -/
def SaveState.Untouched (s : SaveState E) : Prop :=
  ∀ call ∈ s.calls, call.documents.isSome = true → call.remaining = Command.issued

/-- What the collection holds. -/
inductive Stored (sch : Schedule) (s : SaveState E) : Prop where
  | untouched (hnone : sch.filler = none) (huntouched : s.Untouched)
  | cleared (hnone : sch.filler = none) (hempty : s.collection = [])
  | filled (k : Nat) (hfiller : sch.filler = some k) (hdocs : s.Inserts k s.collection)

/-- All calls insert first parts of the keyed chain, the whole of it exactly
    if they are up to date. -/
structure SaveInv (sch : Schedule) (s : SaveState E) : Prop where
  ne_nil    : s.node.chain ≠ []
  nodup     : s.ids.Nodup
  length_le : s.ids.length ≤ s.node.chain.length
  documents : ∀ k docs, s.Inserts k docs → docs ≠ [] ∧
    docs <+: documentsOf s.node.chain s.ids ∧
    (docs.length = s.node.chain.length ↔ k ∈ sch.upToDate)
  progress  : ∀ call ∈ s.calls, call.remaining <:+ Command.issued
  stored    : Stored sch s

/-- A request that saves: the new block has no key and no call has seen it. -/
theorem SaveInv.transaction {sch : Schedule} {s : SaveState E} {node : Node E} {b : Block}
    (h : SaveInv sch s) (hchain : node.chain = s.node.chain ++ [b]) :
    SaveInv { sch with upToDate := [] }
      { s with node, calls := s.calls ++ [⟨none, []⟩] } where
  ne_nil := by simp [hchain]
  nodup := h.nodup
  length_le := by
    have hle := h.length_le
    simp only [hchain, List.length_append, List.length_singleton]
    omega
  documents := by
    intro k docs hdocs
    obtain ⟨hne, hinitial, _⟩ := h.documents k docs (inserts_append.mp hdocs)
    refine ⟨hne, ?_, ?_⟩
    · rw [hchain, documentsOf_append_left h.length_le]
      exact hinitial
    · have hlen := hinitial.length_le
      simp only [documentsOf_length] at hlen
      simp only [hchain, List.length_append, List.length_singleton, List.not_mem_nil, iff_false]
      omega
  progress := by
    intro call hcall
    rcases List.mem_append.mp hcall with hcall | hcall
    · exact h.progress call hcall
    · rw [List.mem_singleton.mp hcall]
      exact List.nil_suffix
  stored := by
    cases h.stored with
    | untouched hnone huntouched =>
      refine .untouched hnone ?_
      intro call hcall hsome
      rcases List.mem_append.mp hcall with hcall | hcall
      · exact huntouched call hcall hsome
      · rw [List.mem_singleton.mp hcall] at hsome
        cases hsome
    | cleared hnone hempty => exact .cleared hnone hempty
    | filled k hfiller hdocs => exact .filled k hfiller (inserts_append.mpr hdocs)

/-- A request that is refused. -/
theorem SaveInv.refused {sch : Schedule} {s : SaveState E} {node : Node E} (h : SaveInv sch s)
    (hchain : node.chain = s.node.chain) : SaveInv sch { s with node } where
  ne_nil := hchain ▸ h.ne_nil
  nodup := h.nodup
  length_le := hchain ▸ h.length_le
  documents := by
    intro k docs hdocs
    rw [hchain]
    exact h.documents k docs hdocs
  progress := h.progress
  stored := by
    cases h.stored with
    | untouched hnone huntouched => exact .untouched hnone huntouched
    | cleared hnone hempty => exact .cleared hnone hempty
    | filled k hfiller hdocs => exact .filled k hfiller hdocs

/-- A callback: the call inserts the whole chain, and all blocks have keys. -/
theorem SaveInv.connect {sch : Schedule} {s : SaveState E} {k : Nat} {fresh : List Nat}
    (h : SaveInv sch s) (hcall : s.calls[k]? = some ⟨none, []⟩)
    (hlength : s.ids.length + fresh.length = s.node.chain.length)
    (hfresh : (s.ids ++ fresh).Nodup) :
    SaveInv { sch with upToDate := k :: sch.upToDate }
      { s with
        ids   := s.ids ++ fresh
        calls := s.calls.set k
          ⟨some (documentsOf s.node.chain (s.ids ++ fresh)), Command.issued⟩ } where
  ne_nil := h.ne_nil
  nodup := hfresh
  length_le := by simp [hlength]
  documents := by
    intro j docs hdocs
    have hpos : 0 < s.node.chain.length := List.length_pos_iff.mpr h.ne_nil
    rcases (inserts_connect hcall).mp hdocs with ⟨rfl, rfl⟩ | hold
    · have hfull : (documentsOf s.node.chain (s.ids ++ fresh)).length = s.node.chain.length := by
        simp [hlength]
      exact ⟨List.ne_nil_of_length_pos (by omega), List.prefix_rfl, by simp [hfull]⟩
    · obtain ⟨hne, hinitial, hiff⟩ := h.documents j docs hold
      refine ⟨hne, hinitial.trans (documentsOf_append_keys _ _ _), ?_⟩
      -- the call that has just issued its commands is another one
      have hj : j ≠ k := by
        rintro rfl
        obtain ⟨rest, hrest⟩ := hold
        rw [hcall] at hrest
        cases hrest
      simp [hj, hiff]
  progress := by
    intro call hmem
    rcases List.mem_or_eq_of_mem_set hmem with hmem | rfl
    · exact h.progress call hmem
    · exact List.suffix_rfl
  stored := by
    cases h.stored with
    | untouched hnone huntouched =>
      refine .untouched hnone ?_
      intro call hmem hsome
      rcases List.mem_or_eq_of_mem_set hmem with hmem | rfl
      · exact huntouched call hmem hsome
      · rfl
    | cleared hnone hempty => exact .cleared hnone hempty
    | filled j hfiller hdocs => exact .filled j hfiller ((inserts_connect hcall).mpr (.inr hdocs))

/-- Two calls insert the same first document. -/
theorem SaveInv.insertMany_filled {sch : Schedule} {s : SaveState E} {k j : Nat}
    {docs docs' : List (Document Nat Block)} (h : SaveInv sch s) (hk : s.Inserts k docs)
    (hj : s.Inserts j docs') : insertMany docs docs' = docs := by
  obtain ⟨hne, hinitial, _⟩ := h.documents k docs hk
  obtain ⟨hne', hinitial', _⟩ := h.documents j docs' hj
  obtain ⟨d, ds, rfl⟩ := List.exists_cons_of_ne_nil hne
  obtain ⟨d', ds', rfl⟩ := List.exists_cons_of_ne_nil hne'
  obtain rfl : d' = d := by
    obtain ⟨r, hr⟩ := hinitial
    obtain ⟨r', hr'⟩ := hinitial'
    rw [← hr] at hr'
    exact (List.cons.inj hr').1
  exact insertMany_of_mem (by simp [keys])

theorem SaveInv.insertMany_cleared {sch : Schedule} {s : SaveState E} {k : Nat}
    {docs : List (Document Nat Block)} (h : SaveInv sch s) (hk : s.Inserts k docs) :
    insertMany [] docs = docs := by
  obtain ⟨_, hinitial, _⟩ := h.documents k docs hk
  refine insertMany_nil (h.nodup.sublist ?_)
  exact (hinitial.sublist.map _).trans (keys_documentsOf _ _).sublist

/-- A command is carried out. -/
theorem SaveInv.completed {sch : Schedule} {s : SaveState E} {k : Nat} {command : Command}
    {rest : List Command} {docs : List (Document Nat Block)} (h : SaveInv sch s)
    (hcall : s.calls[k]? = some ⟨some docs, command :: rest⟩) :
    SaveInv (sch.next (.completed k command))
      { s with
        calls      := s.calls.set k ⟨some docs, rest⟩
        collection := command.run docs s.collection } where
  ne_nil := h.ne_nil
  nodup := h.nodup
  length_le := h.length_le
  documents := by
    intro j docs' hdocs
    have hsame : (sch.next (.completed k command)).upToDate = sch.upToDate := by
      cases command <;> rfl
    rw [hsame]
    exact h.documents j docs' ((inserts_completed hcall).mp hdocs)
  progress := by
    intro call hmem
    rcases List.mem_or_eq_of_mem_set hmem with hmem | rfl
    · exact h.progress call hmem
    · have hrest := h.progress _ (List.mem_of_getElem? hcall)
      exact (List.suffix_cons command rest).trans hrest
  stored := by
    have hinserts : s.Inserts k docs := ⟨_, hcall⟩
    -- only `deleteMany` is ever the first command carried out
    have hfirst (huntouched : s.Untouched) : command = .deleteMany := by
      have hissued := huntouched _ (List.mem_of_getElem? hcall) rfl
      exact (List.cons.inj hissued).1
    cases command with
    | deleteMany => exact .cleared rfl rfl
    | createCollection =>
      cases h.stored with
      | untouched _ huntouched => cases hfirst huntouched
      | cleared hnone hempty => exact .cleared hnone hempty
      | filled j hfiller hdocs => exact .filled j hfiller ((inserts_completed hcall).mpr hdocs)
    | insertMany =>
      cases h.stored with
      | untouched _ huntouched => cases hfirst huntouched
      | cleared hnone hempty =>
        refine .filled k (by simp [Schedule.next, hnone]) ((inserts_completed hcall).mpr ?_)
        rw [Command.run, hempty, h.insertMany_cleared hinserts]
        exact hinserts
      | filled j hfiller hdocs =>
        refine .filled j (by simp [Schedule.next, hfiller]) ((inserts_completed hcall).mpr ?_)
        rw [Command.run, h.insertMany_filled hdocs hinserts]
        exact hdocs

/-- **Step lemma**: every event keeps the invariant. -/
theorem SaveInv.step {sch : Schedule} {s s' : SaveState E} {ev : SaveEvent} (h : SaveInv sch s)
    (hstep : SaveStep cfg s ev s') : SaveInv (sch.next ev) s' := by
  cases hstep with
  | transaction body date fuel node effects hhandle =>
    obtain ⟨b, hb⟩ := Node.postTransaction_ok hhandle
    exact h.transaction hb
  | refused body date fuel node effects e hhandle =>
    exact h.refused (Node.postTransaction_error hhandle)
  | connect k fresh hcall hlength hfresh => exact h.connect hcall hlength hfresh
  | completed k command rest docs hcall => exact h.completed hcall

/-- **Run lemma**. -/
theorem saveInv_of_run {s₀ s : SaveState E} {tr : List (Transition (SaveState E) SaveEvent)}
    (hinit : (saveSystem cfg).init s₀) (h : Run (saveSystem cfg) s₀ tr s) :
    SaveInv (schedule (tr.map (·.label))) s := by
  induction h with
  | nil =>
    obtain ⟨hcalls, hne, hnodup, hle⟩ := hinit
    refine ⟨hne, hnodup, hle, ?_, ?_, .untouched rfl ?_⟩
    · rintro k docs ⟨rest, hcall⟩
      simp [hcalls] at hcall
    · simp [hcalls]
    · simp [SaveState.Untouched, hcalls]
  | snoc ev _ hstep ih =>
    rw [List.map_append, List.map_singleton, schedule_concat]
    exact ih.step hstep

/-! ### What is stored in the end -/

/-- The collection holds the documents of the blocks of the chain, each
    once, and nothing else. -/
def HoldsExactly (collection : List (Document Nat Block)) (chain : List Block) : Prop :=
  (collection.map Document.body).Perm (chain.map Block.document)

/-- First blocks of the chain are the whole chain exactly if they are as
    many. -/
theorem holdsExactly_iff {sch : Schedule} {s : SaveState E} {k : Nat} (h : SaveInv sch s)
    (hk : s.Inserts k s.collection) :
    HoldsExactly s.collection s.node.chain ↔ k ∈ sch.upToDate := by
  obtain ⟨_, hinitial, hiff⟩ := h.documents k _ hk
  rw [← hiff]
  constructor
  · intro hperm
    simpa using hperm.length_eq
  · intro hlen
    unfold HoldsExactly
    rw [body_of_initial hinitial, hlen, List.take_length]

/-- **What overlapping saves leave behind.** After any number of calls of
    `saveBlockchainToDisk` by `/transaction` requests, their commands
    interleaved in any way, the collection holds exactly the blocks of the
    chain if and only if the first `insertMany` after the last `deleteMany`
    belongs to a call whose callback ran after the last request that saved. -/
theorem overlapping_saves_iff {s₀ s : SaveState E}
    {tr : List (Transition (SaveState E) SaveEvent)} (hinit : (saveSystem cfg).init s₀)
    (h : Run (saveSystem cfg) s₀ tr s) (hcalls : s.calls ≠ []) (hdone : s.Completed) :
    HoldsExactly s.collection s.node.chain ↔ (schedule (tr.map (·.label))).SavesLatest := by
  have hinv := saveInv_of_run hinit h
  cases hinv.stored with
  | untouched _ huntouched =>
    -- the commands of the first call have been carried out
    obtain ⟨call, calls, hcons⟩ := List.exists_cons_of_ne_nil hcalls
    have hmem : call ∈ s.calls := by simp [hcons]
    obtain ⟨hsome, hnil⟩ := hdone call hmem
    have hissued := huntouched call hmem hsome
    rw [hnil] at hissued
    cases hissued
  | cleared hnone hempty =>
    refine iff_of_false ?_ (by simp [Schedule.SavesLatest, hnone])
    intro hperm
    have hlen := hperm.length_eq
    simp only [hempty, List.map_nil, List.length_nil, List.length_map] at hlen
    exact hinv.ne_nil (List.length_eq_zero_iff.mp hlen.symm)
  | filled k hfiller hdocs =>
    rw [holdsExactly_iff hinv hdocs]
    simp [Schedule.SavesLatest, hfiller]

/-- A fresh node and an empty collection. -/
def freshSaves : SaveState demoEnv where
  node       := .new (demoConfig false)
  ids        := []
  calls      := []
  collection := []

theorem freshSaves_init : (saveSystem (demoConfig false)).init freshSaves := by
  refine ⟨rfl, ?_, by simp [freshSaves], by simp [freshSaves]⟩
  exact List.cons_ne_nil _ _

/-- All calls are carried out, as a computation. -/
def SaveState.isCompleted (s : SaveState E) : Bool :=
  s.calls.all fun call => call.documents.isSome && call.remaining.isEmpty

theorem SaveState.completed_of_isCompleted {s : SaveState E} (h : s.isCompleted = true) :
    s.Completed := by
  intro call hcall
  have hall := List.all_eq_true.mp h call hcall
  simpa using hall

/-- Two saves that overlap without harm: both clear the collection, and the
    second one is the first to insert. -/
theorem overlapping_saves_iff_two_calls :
    ∃ tr s, (saveSystem (demoConfig false)).init freshSaves ∧
      Run (saveSystem (demoConfig false)) freshSaves tr s ∧ s.calls.length = 2 ∧ s.Completed ∧
      (HoldsExactly s.collection s.node.chain ↔ (schedule (tr.map (·.label))).SavesLatest) ∧
      HoldsExactly s.collection s.node.chain ∧ s.node.chain.length = 3 := by
  let evs : List SaveEvent :=
    [.transaction (.obj none []) 7 1, .connect 0, .transaction (.obj none []) 9 1, .connect 1,
     .completed 0 .deleteMany, .completed 1 .deleteMany, .completed 0 .createCollection,
     .completed 1 .createCollection, .completed 1 .insertMany, .completed 0 .insertMany]
  have hfinal : (execSaves (demoConfig false) freshSaves evs).map
      (fun s => (s.calls.length, s.isCompleted, s.node.chain.length)) = some (2, true, 3) := by
    decide +kernel
  obtain ⟨s, hexec, hfacts⟩ := Option.map_eq_some_iff.mp hfinal
  simp only [Prod.mk.injEq] at hfacts
  obtain ⟨hlength, hcompleted, hchain⟩ := hfacts
  obtain ⟨tr, htr, hlabels⟩ := run_of_execSaves hexec
  have hcalls : s.calls ≠ [] := List.ne_nil_of_length_pos (by omega)
  have hdone := SaveState.completed_of_isCompleted hcompleted
  have hiff := overlapping_saves_iff freshSaves_init htr hcalls hdone
  refine ⟨tr, s, freshSaves_init, htr, hlength, hdone, hiff, hiff.mpr ?_, hchain⟩
  rw [hlabels]
  exact ⟨1, rfl, by simp [schedule, Schedule.next, evs]⟩

/-- **A block is lost.** The second request is handled before the first save
    has reached the database: both calls clear the collection, the first one
    inserts two blocks, and the second is rejected at the genesis block. -/
theorem overlapping_saves_lose_block :
    ∃ tr s, (saveSystem (demoConfig false)).init freshSaves ∧
      Run (saveSystem (demoConfig false)) freshSaves tr s ∧ s.calls.length = 2 ∧ s.Completed ∧
      s.collection.length = 2 ∧ s.node.chain.length = 3 ∧
      ¬ HoldsExactly s.collection s.node.chain := by
  let evs : List SaveEvent :=
    [.transaction (.obj none []) 7 1, .connect 0, .transaction (.obj none []) 9 1, .connect 1,
     .completed 0 .deleteMany, .completed 1 .deleteMany, .completed 0 .createCollection,
     .completed 1 .createCollection, .completed 0 .insertMany, .completed 1 .insertMany]
  have hfinal : (execSaves (demoConfig false) freshSaves evs).map
      (fun s => (s.calls.length, s.isCompleted, s.collection.length, s.node.chain.length)) =
        some (2, true, 2, 3) := by
    decide +kernel
  obtain ⟨s, hexec, hfacts⟩ := Option.map_eq_some_iff.mp hfinal
  simp only [Prod.mk.injEq] at hfacts
  obtain ⟨hcalls, hcompleted, hstored, hchain⟩ := hfacts
  obtain ⟨tr, htr, _⟩ := run_of_execSaves hexec
  refine ⟨tr, s, freshSaves_init, htr, hcalls, SaveState.completed_of_isCompleted hcompleted,
    hstored, hchain, ?_⟩
  intro hperm
  have hlen := hperm.length_eq
  simp only [List.length_map] at hlen
  omega

end XCoin
