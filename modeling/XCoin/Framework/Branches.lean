import Mathlib.Data.Set.Insert
import Mathlib.Logic.Function.Basic
import XCoin.Framework.System

/-! # Branching logs

    Participants `ι` each hold a log of entries `β`, all starting from `base`.
    A participant extends its own log, or gives it up for a log that somebody
    has held and that is no shorter.  Nothing makes the participants agree: the
    logs that were ever held form a tree with root `base`.

    Two facts about all runs: every entry was appended by somebody whose log
    was the part below it, and if only one participant ever extends its log,
    every log that was ever held is a prefix of the log of that participant.
-/

namespace Branches

open LTS

variable {ι β : Type}

/-- The log of every participant, and every log that was ever held. -/
structure State (ι β : Type) where
  view  : ι → List β
  known : Set (List β)

/-- What participants do. -/
inductive Act (ι β : Type) where
  /-- The participant `p` appends an entry to its log. -/
  | extend (p : ι) (b : β)
  /-- The participant `p` gives up its log for another. -/
  | switch (p : ι) (l : List β)
  | stay

variable [DecidableEq ι]

/-- One step. -/
inductive Step (s : State ι β) : Act ι β → State ι β → Prop where
  | extend (p : ι) (b : β) :
      Step s (.extend p b)
        { view  := Function.update s.view p (s.view p ++ [b])
          known := insert (s.view p ++ [b]) s.known }
  | switch (p : ι) (l : List β) (hknown : l ∈ s.known) (hlen : (s.view p).length ≤ l.length) :
      Step s (.switch p l) { s with view := Function.update s.view p l }
  | stay : Step s .stay s

/-- The start: everybody holds `base`. -/
def State.new (ι : Type) (base : List β) : State ι β where
  view  := fun _ => base
  known := {base}

/-- The participants with logs from `base`. -/
def system (ι : Type) [DecidableEq ι] (base : List β) : System (State ι β) (Act ι β) where
  init := fun s => s = .new ι base
  step := Step

/-! ### Where entries come from -/

variable {base : List β} {s : State ι β}

/-- The log of every participant is known. -/
theorem view_mem_known (h : Reachable (system ι base) s) : ∀ p, s.view p ∈ s.known := by
  refine h.invariant_from (P := fun s => ∀ p, s.view p ∈ s.known) (fun _ hs => hs)
    (fun _ => Set.mem_singleton _) ?_
  intro s a s' hs hstep
  cases hstep with
  | extend p b =>
    intro q
    show Function.update s.view p (s.view p ++ [b]) q ∈ insert (s.view p ++ [b]) s.known
    by_cases hq : q = p
    · subst hq
      rw [Function.update_self]
      exact Set.mem_insert _ _
    · rw [Function.update_of_ne hq]
      exact Set.mem_insert_of_mem _ (hs q)
  | switch p l hknown hlen =>
    intro q
    show Function.update s.view p l q ∈ s.known
    by_cases hq : q = p
    · subst hq
      rw [Function.update_self]
      exact hknown
    · rw [Function.update_of_ne hq]
      exact hs q
  | stay => exact hs

/-- **Origin**: every entry of a known log was appended by a participant whose
    log was what the known log is below that entry. -/
theorem exists_extend_of_run {tr : List (Transition (State ι β) (Act ι β))}
    (h : Run (system ι base) (.new ι base) tr s) :
    ∀ l ∈ s.known, ∀ k b, base.length ≤ k → l[k]? = some b →
      ∃ x ∈ tr, ∃ p, x.label = .extend p b ∧ x.pre.view p = l.take k := by
  induction h with
  | nil =>
    intro l hl k b hk hb
    obtain rfl : l = base := hl
    rw [List.getElem?_eq_none hk] at hb
    cases hb
  | @snoc tr t u a hrun hlast ih =>
    -- what was known before has its origin in the run before
    have hold : ∀ l ∈ t.known, ∀ k b, base.length ≤ k → l[k]? = some b →
        ∃ x ∈ tr ++ [⟨t, a, u⟩], ∃ p, x.label = .extend p b ∧ x.pre.view p = l.take k := by
      intro l hl k b hk hb
      obtain ⟨x, hx, hfound⟩ := ih l hl k b hk hb
      exact ⟨x, List.mem_append_left _ hx, hfound⟩
    cases hlast with
    | extend p c =>
      rintro l (rfl | hl) k b hk hb
      · by_cases hlt : k < (t.view p).length
        · rw [List.getElem?_append_left hlt] at hb
          rw [List.take_append_of_le_length (Nat.le_of_lt hlt)]
          exact hold _ (view_mem_known (hrun.reachable (.init rfl)) p) k b hk hb
        · -- the entry this step appends
          have hklen := (List.getElem?_eq_some_iff.mp hb).1
          obtain rfl : k = (t.view p).length := by
            rw [List.length_append, List.length_singleton] at hklen
            omega
          rw [List.getElem?_concat_length, Option.some.injEq] at hb
          subst hb
          exact ⟨_, List.mem_append_right _ (List.mem_singleton_self _), p, rfl,
            (List.take_left' rfl).symm⟩
      · exact hold l hl k b hk hb
    | switch p l hknown hlen => exact hold
    | stay => exact hold

/-! ### One writer -/

/-- Only `w` extends its log. -/
def Act.writtenBy (w : ι) : Act ι β → Prop
  | .extend p _ => p = w
  | _           => True

/-- The runs in which only `w` extends its log. -/
def soloSystem (base : List β) (w : ι) : System (State ι β) (Act ι β) :=
  (system ι base).restrict fun _ a => a.writtenBy w

/-- **One writer**: every log that was ever held is a prefix of the log of the
    only participant that extends it. -/
theorem prefix_of_solo {w : ι} (h : Reachable (soloSystem base w) s) :
    ∀ l ∈ s.known, l <+: s.view w := by
  refine h.invariant_from (P := fun s => ∀ l ∈ s.known, l <+: s.view w) (fun _ hs => hs) ?_ ?_
  · intro l hl
    rw [Set.mem_singleton_iff.mp hl]
    exact List.prefix_rfl
  · intro s a s' hs hstep
    obtain ⟨hwriter, hstep⟩ := hstep
    cases hstep with
    | extend p b =>
      obtain rfl : p = w := hwriter
      show ∀ l ∈ insert (s.view p ++ [b]) s.known, l <+: Function.update s.view p _ p
      rw [Function.update_self]
      rintro l (rfl | hl)
      · exact List.prefix_rfl
      · exact (hs l hl).trans (List.prefix_append _ _)
    | switch p l hknown hlen =>
      show ∀ l' ∈ s.known, l' <+: Function.update s.view p l w
      by_cases hw : w = p
      · -- a known log that is no shorter than the writer's own is that log
        subst hw
        rw [Function.update_self, (hs l hknown).eq_of_length_le hlen]
        exact hs
      · rw [Function.update_of_ne hw]
        exact hs
    | stay => exact hs

end Branches
