import Mathlib.Data.List.Basic
import Mathlib.Data.List.Forall2

/-! # Labelled transition systems, finite runs and invariants

    The vocabulary in which every result about whole runs is stated:

    * `System`: initial states and a labelled step relation.
    * `Run`: a finite run, recorded as the list of its transitions.
    * `Reachable`: the states some run ends in.
    * `restrict`: the same system, allowed only the steps that meet a
      condition on the state before the step and on the label.

    The rules at the end package the inductions once: an inductive predicate
    holds in every reachable state, a system that matches every step of
    another reaches a related state, what every step out of a reachable state
    satisfies holds of every transition of a run, and a run stays among the
    good states exactly if each of its steps meets the condition for that.
-/

namespace LTS

variable {State Label : Type}

/-! ### Systems and runs -/

/-- A labelled transition system. -/
structure System (State Label : Type) where
  /-- The states a run may start in. -/
  init : State → Prop
  /-- One step, with its label. -/
  step : State → Label → State → Prop

/-- One recorded step of a run. -/
structure Transition (State Label : Type) where
  pre   : State
  label : Label
  post  : State

/-- A finite run from `s`, with the transitions it takes in order. -/
inductive Run (sys : System State Label) (s : State) :
    List (Transition State Label) → State → Prop where
  | nil  : Run sys s [] s
  | snoc {tr t u} (l : Label) :
      Run sys s tr t → sys.step t l u → Run sys s (tr ++ [⟨t, l, u⟩]) u

/-- The states that runs from initial states end in. -/
inductive Reachable (sys : System State Label) : State → Prop where
  | init {s} : sys.init s → Reachable sys s
  | step {s s'} (l : Label) : Reachable sys s → sys.step s l s' → Reachable sys s'

/-- The system restricted to the steps that meet `ok`. -/
def System.restrict (sys : System State Label) (ok : State → Label → Prop) :
    System State Label where
  init := sys.init
  step := fun s l s' => ok s l ∧ sys.step s l s'

/-! ### The invariant rules -/

/-- **Invariant rule**: what holds initially and is preserved by every step
    holds in every reachable state. -/
theorem Reachable.invariant {sys : System State Label} {P : State → Prop}
    (hinit : ∀ s, sys.init s → P s)
    (hstep : ∀ s l s', Reachable sys s → P s → sys.step s l s' → P s')
    {s : State} (h : Reachable sys s) : P s := by
  induction h with
  | init h0 => exact hinit _ h0
  | step l hr hs ih => exact hstep _ l _ hr ih hs

/-- The same rule for a system whose runs all start in one state. -/
theorem Reachable.invariant_from {sys : System State Label} {P : State → Prop} {s₀ : State}
    (hsys : ∀ s, sys.init s → s = s₀) (hinit : P s₀)
    (hstep : ∀ s l s', P s → sys.step s l s' → P s') {s : State} (h : Reachable sys s) : P s := by
  refine h.invariant ?_ ?_
  · intro s hs
    rw [hsys s hs]
    exact hinit
  · intro s l s' _ hs
    exact hstep s l s' hs

/-- A step of the restricted system is a step of the system. -/
theorem Reachable.of_restrict {sys : System State Label} {ok : State → Label → Prop}
    {s : State} (h : Reachable (sys.restrict ok) s) : Reachable sys s := by
  induction h with
  | init h0 => exact .init h0
  | step l _ hs ih => exact .step l ih hs.2

/-- Under a condition that every step meets, the same states are reached. -/
theorem Reachable.restrict {sys : System State Label} {ok : State → Label → Prop}
    (hok : ∀ s l, ok s l) {s : State} (h : Reachable sys s) : Reachable (sys.restrict ok) s := by
  induction h with
  | init h0 => exact .init h0
  | step l _ hs ih => exact .step l ih ⟨hok _ l, hs⟩

/-- **Simulation rule**: if related states are found for initial states, and
    every step is matched by a step between related states, then every
    reachable state is related to a reachable one. -/
theorem Reachable.simulate {State' Label' : Type} {sys : System State Label}
    {sys' : System State' Label'} {R : State → State' → Prop}
    (hinit : ∀ s, sys.init s → ∃ s', sys'.init s' ∧ R s s')
    (hstep : ∀ s l t s', R s s' → sys.step s l t → ∃ l' t', sys'.step s' l' t' ∧ R t t')
    {s : State} (h : Reachable sys s) : ∃ s', Reachable sys' s' ∧ R s s' := by
  induction h with
  | init h0 =>
    obtain ⟨s', hs', hR⟩ := hinit _ h0
    exact ⟨s', .init hs', hR⟩
  | step l _ hs ih =>
    obtain ⟨s', hreach, hR⟩ := ih
    obtain ⟨l', t', hs', hR'⟩ := hstep _ l _ s' hR hs
    exact ⟨t', .step l' hreach hs', hR'⟩

/-- Two transitions between related states, with related labels. -/
structure Transition.Matches {State' Label' : Type} (R : State → State' → Prop)
    (L : Label → Label' → Prop) (x : Transition State Label) (x' : Transition State' Label') :
    Prop where
  pre   : R x.pre x'.pre
  label : L x.label x'.label
  post  : R x.post x'.post

/-- **Simulation rule for runs**: if every step out of a reachable state is
    matched by a step between related states, every run is matched, step by
    step, by a run. -/
theorem Run.simulate {State' Label' : Type} {sys : System State Label}
    {sys' : System State' Label'} {R : State → State' → Prop} {L : Label → Label' → Prop}
    (hstep : ∀ s l t s', Reachable sys s → R s s' → sys.step s l t →
      ∃ l' t', sys'.step s' l' t' ∧ R t t' ∧ L l l')
    {s t : State} {s' : State'} {tr : List (Transition State Label)} (h : Run sys s tr t)
    (hs : Reachable sys s) (hR : R s s') :
    ∃ tr' t', Run sys' s' tr' t' ∧ R t t' ∧ List.Forall₂ (Transition.Matches R L) tr tr' := by
  -- the run up to `t` is from a reachable state, so `t` is reachable
  suffices hboth : Reachable sys t ∧ ∃ tr' t', Run sys' s' tr' t' ∧ R t t' ∧
      List.Forall₂ (Transition.Matches R L) tr tr' from hboth.2
  induction h with
  | nil => exact ⟨hs, [], s', .nil, hR, .nil⟩
  | @snoc tr t u l hrun hlast ih =>
    obtain ⟨hreach, tr', t', hrun', hR', hmatch⟩ := ih
    obtain ⟨l', u', hlast', hR'', hL⟩ := hstep t l u t' hreach hR' hlast
    refine ⟨.step l hreach hlast, tr' ++ [⟨t', l', u'⟩], u', .snoc l' hrun' hlast', hR'', ?_⟩
    exact List.rel_append hmatch (.cons ⟨hR', hL, hR''⟩ .nil)

/-- **Projection rule**: if every step is matched by a step with the label
    that `view` keeps of it, or is invisible and keeps states related, a run
    is seen as a run with the labels that are kept, in order. -/
theorem Run.project {State' Label' Kept : Type} {sys : System State Label}
    {sys' : System State' Label'} {R : State → State' → Prop} (view : Label → Option Kept)
    (shown : Label' → Kept)
    (hstep : ∀ s l t s', R s s' → sys.step s l t → (view l = none ∧ R t s') ∨
      ∃ l' t', view l = some (shown l') ∧ sys'.step s' l' t' ∧ R t t')
    {s t : State} {s' : State'} {tr : List (Transition State Label)} (h : Run sys s tr t)
    (hR : R s s') :
    ∃ tr' t', Run sys' s' tr' t' ∧ R t t' ∧
      tr'.map (fun x => shown x.label) = tr.filterMap fun x => view x.label := by
  induction h with
  | nil => exact ⟨[], s', .nil, hR, rfl⟩
  | @snoc tr t u l hrun hlast ih =>
    obtain ⟨tr', t', hrun', hR', hlabels⟩ := ih
    rcases hstep t l u t' hR' hlast with ⟨hview, hR''⟩ | ⟨l', u', hview, hlast', hR''⟩
    · refine ⟨tr', t', hrun', hR'', ?_⟩
      simp [hlabels, hview]
    · refine ⟨tr' ++ [⟨t', l', u'⟩], u', .snoc l' hrun' hlast', hR'', ?_⟩
      simp [hlabels, hview]

/-- Every reachable state is at the end of a run from an initial one. -/
theorem Reachable.exists_run {sys : System State Label} {s : State} (h : Reachable sys s) :
    ∃ s₀ tr, sys.init s₀ ∧ Run sys s₀ tr s := by
  induction h with
  | init h0 => exact ⟨_, [], h0, .nil⟩
  | step l _ hs ih =>
    obtain ⟨s₀, tr, h0, hrun⟩ := ih
    exact ⟨s₀, _, h0, .snoc l hrun hs⟩

/-- A step in front of a run is a run. -/
theorem Run.cons {sys : System State Label} {s t u : State} {l : Label}
    {tr : List (Transition State Label)} (hstep : sys.step s l t) (h : Run sys t tr u) :
    Run sys s (⟨s, l, t⟩ :: tr) u := by
  induction h with
  | nil => exact .snoc l .nil hstep
  | snoc l' _ hstep' ih => exact .snoc l' ih hstep'

/-- A run that starts in a reachable state ends in one. -/
theorem Run.reachable {sys : System State Label} {s t : State}
    {tr : List (Transition State Label)} (h : Run sys s tr t)
    (hs : Reachable sys s) : Reachable sys t := by
  induction h with
  | nil => exact hs
  | snoc l _ hstep ih => exact .step l ih hstep

/-- **Invariant rule for runs**: what steps preserve and holds in a reachable
    state holds at the end of every run from there. -/
theorem Run.invariant {sys : System State Label} {P : State → Prop}
    (hstep : ∀ s l s', Reachable sys s → P s → sys.step s l s' → P s') {s t : State}
    {tr : List (Transition State Label)} (h : Run sys s tr t) (hs : Reachable sys s)
    (hP : P s) : P t := by
  induction h with
  | nil => exact hP
  | snoc l hrun hlast ih => exact hstep _ l _ (hrun.reachable hs) ih hlast

/-- **Log rule**: if every step out of `I` stays in `I` and puts `adds` behind
    the log, a run puts the additions of its steps behind it, in order. -/
theorem Run.log {α : Type} {sys : System State Label} {I : State → Prop}
    (log : State → List α) (adds : Transition State Label → List α)
    (hstep : ∀ s l s', Reachable sys s → I s → sys.step s l s' →
      I s' ∧ log s' = log s ++ adds ⟨s, l, s'⟩) {s t : State}
    {tr : List (Transition State Label)} (h : Run sys s tr t) (hs : Reachable sys s) (hI : I s) :
    I t ∧ log t = log s ++ tr.flatMap adds := by
  induction h with
  | nil => exact ⟨hI, by simp⟩
  | @snoc tr t u l hrun hlast ih =>
    obtain ⟨hinside, hlog⟩ := ih
    obtain ⟨hinside', hlog'⟩ := hstep t l u (hrun.reachable hs) hinside hlast
    refine ⟨hinside', ?_⟩
    rw [hlog', hlog, List.flatMap_append, List.append_assoc, List.flatMap_singleton]

/-- **Entry rule**: if a step in `A` leads to a state in `I`, which only steps
    in `B` leave, a run with a step in `A` ends in `I` or has a step in `B`
    later on. -/
theorem Run.entered_or {sys : System State Label} {I : State → Prop}
    {A B : Transition State Label → Prop}
    (henter : ∀ s l s', Reachable sys s → sys.step s l s' → A ⟨s, l, s'⟩ → I s')
    (hkeep : ∀ s l s', Reachable sys s → sys.step s l s' → I s → I s' ∨ B ⟨s, l, s'⟩)
    {s t : State} {tr : List (Transition State Label)} (h : Run sys s tr t)
    (hs : Reachable sys s) : ∀ x ∈ tr, A x → I t ∨ ∃ y, [x, y].Sublist tr ∧ B y := by
  induction h with
  | nil => simp
  | @snoc tr t u l hrun hlast ih =>
    have hreach := hrun.reachable hs
    intro x hx hA
    rcases List.mem_append.mp hx with hx | hx
    · rcases ih x hx hA with hI | ⟨y, hy, hB⟩
      · rcases hkeep t l u hreach hlast hI with hI' | hB
        · exact .inl hI'
        · exact .inr ⟨_, (List.singleton_sublist.mpr hx).append (.refl [_]), hB⟩
      · exact .inr ⟨y, hy.trans (List.sublist_append_left _ _), hB⟩
    · rw [List.mem_singleton.mp hx] at hA
      exact .inl (henter t l u hreach hlast hA)

/-- The entry rule for states that no step leaves. -/
theorem Run.entered {sys : System State Label} {I : State → Prop}
    {A : Transition State Label → Prop}
    (henter : ∀ s l s', Reachable sys s → sys.step s l s' → A ⟨s, l, s'⟩ → I s')
    (hkeep : ∀ s l s', Reachable sys s → sys.step s l s' → I s → I s') {s t : State}
    {tr : List (Transition State Label)} (h : Run sys s tr t) (hs : Reachable sys s) :
    ∀ x ∈ tr, A x → I t := by
  intro x hx hA
  have hinside := h.entered_or (B := fun _ => False) henter
    (fun s l s' hreach hstep hI => .inl (hkeep s l s' hreach hstep hI)) hs x hx hA
  exact hinside.resolve_right fun ⟨_, _, hfalse⟩ => hfalse

/-- **Once rule**: if the steps in `A` lead to states in `I`, which no step
    leaves, and all steps out of `I` are in `B`, then in every run a step in
    `A` is followed by steps in `B` only. -/
theorem Run.pairwise {sys : System State Label} {I : State → Prop}
    {A B : Transition State Label → Prop}
    (henter : ∀ s l s', Reachable sys s → sys.step s l s' → A ⟨s, l, s'⟩ → I s')
    (hkeep : ∀ s l s', Reachable sys s → sys.step s l s' → I s → I s' ∧ B ⟨s, l, s'⟩)
    {s t : State} {tr : List (Transition State Label)} (h : Run sys s tr t)
    (hs : Reachable sys s) : tr.Pairwise fun x y => A x → B y := by
  induction h with
  | nil => exact .nil
  | @snoc tr t u l hrun hlast ih =>
    refine List.pairwise_append.mpr ⟨ih, List.pairwise_singleton _ _, ?_⟩
    intro x hx y hy hA
    -- after a step in `A` the run has stayed in `I`
    have hinside : I t := hrun.entered henter
      (fun s l s' hreach hstep hI => (hkeep s l s' hreach hstep hI).1) hs x hx hA
    rw [List.mem_singleton.mp hy]
    exact (hkeep t l u (hrun.reachable hs) hlast hinside).2

/-- The state after steps that a function computes, one for each label. -/
def execList (exec : State → Label → Option State) (s : State) : List Label → Option State
  | []      => some s
  | l :: ls => (exec s l).bind fun t => execList exec t ls

/-- **Computed runs**: if every computed step is a step of the system, a list
    of labels that can be computed is a run with these labels. -/
theorem Run.of_execList {sys : System State Label} {exec : State → Label → Option State}
    (hexec : ∀ s l t, exec s l = some t → sys.step s l t) {s t : State} {ls : List Label}
    (h : execList exec s ls = some t) : ∃ tr, Run sys s tr t ∧ tr.map (·.label) = ls := by
  induction ls generalizing s with
  | nil =>
    cases h
    exact ⟨[], .nil, rfl⟩
  | cons l ls ih =>
    obtain ⟨u, hfirst, hrest⟩ := Option.bind_eq_some_iff.mp h
    obtain ⟨tr, htr, hlabels⟩ := ih hrest
    exact ⟨⟨s, l, u⟩ :: tr, htr.cons (hexec s l u hfirst), by simp [hlabels]⟩

/-- A run of the restricted system is a run of the system. -/
theorem Run.of_restrict {sys : System State Label} {ok : State → Label → Prop} {s t : State}
    {tr : List (Transition State Label)} (h : Run (sys.restrict ok) s tr t) : Run sys s tr t := by
  induction h with
  | nil => exact .nil
  | snoc l _ hstep ih => exact .snoc l ih hstep.2

/-- A run whose steps meet a condition is a run of the restricted system. -/
theorem Run.restrict {sys : System State Label} {ok : State → Label → Prop} {s t : State}
    {tr : List (Transition State Label)} (h : Run sys s tr t)
    (hok : ∀ x ∈ tr, ok x.pre x.label) : Run (sys.restrict ok) s tr t := by
  induction h with
  | nil => exact .nil
  | snoc l _ hstep ih =>
    obtain ⟨hold, hnew⟩ := List.forall_mem_append.mp hok
    exact .snoc l (ih hold) ⟨hnew _ (List.mem_singleton.mpr rfl), hstep⟩

/-- A run under a condition is a run under a weaker one. -/
theorem Run.restrict_mono {sys : System State Label} {ok ok' : State → Label → Prop}
    (hok : ∀ s l, ok s l → ok' s l) {s t : State} {tr : List (Transition State Label)}
    (h : Run (sys.restrict ok) s tr t) : Run (sys.restrict ok') s tr t := by
  induction h with
  | nil => exact .nil
  | snoc l _ hstep ih => exact .snoc l ih ⟨hok _ l hstep.1, hstep.2⟩

/-- **Transition rule**: every transition of a run that starts in a reachable
    state goes from a reachable state and is a step of the system. -/
theorem Run.transition_mem {sys : System State Label} {s t : State}
    {tr : List (Transition State Label)} (h : Run sys s tr t)
    (hs : Reachable sys s) {x : Transition State Label} (hx : x ∈ tr) :
    Reachable sys x.pre ∧ sys.step x.pre x.label x.post := by
  induction h with
  | nil => simp at hx
  | snoc l hrun hstep ih =>
    rcases List.mem_append.mp hx with hx | hx
    · exact ih hx
    · rw [List.mem_singleton] at hx
      subst hx
      exact ⟨hrun.reachable hs, hstep⟩

/-- **Condition rule for transitions**: if in states that satisfy `I` a step
    is good exactly when it meets the condition `Q`, and steps that meet `Q`
    preserve `I`, then the steps of a run are all good exactly when they all
    meet `Q`. -/
theorem Run.forall_iff {sys : System State Label} {I : State → Prop}
    {G Q : Transition State Label → Prop} {s t : State} {tr : List (Transition State Label)}
    (hs : Reachable sys s) (hI : I s)
    (hstep : ∀ t l u, Reachable sys t → I t → sys.step t l u →
      (G ⟨t, l, u⟩ ↔ Q ⟨t, l, u⟩) ∧ (Q ⟨t, l, u⟩ → I u))
    (h : Run sys s tr t) : (∀ x ∈ tr, G x) ↔ ∀ x ∈ tr, Q x := by
  -- the state the run has reached satisfies `I` as well
  suffices hboth : ((∀ x ∈ tr, G x) ↔ ∀ x ∈ tr, Q x) ∧ ((∀ x ∈ tr, Q x) → I t) from hboth.1
  induction h with
  | nil => exact ⟨by simp, fun _ => hI⟩
  | @snoc tr t u l hrun hlast ih =>
    obtain ⟨hiff, hgood⟩ := ih
    have hnext (hall : ∀ x ∈ tr, Q x) := hstep t l u (hrun.reachable hs) (hgood hall) hlast
    simp only [List.forall_mem_append, List.forall_mem_singleton]
    refine ⟨⟨?_, ?_⟩, fun ⟨hall, hu⟩ => (hnext hall).2 hu⟩
    · rintro ⟨hall, hu⟩
      exact ⟨hiff.mp hall, (hnext (hiff.mp hall)).1.mp hu⟩
    · rintro ⟨hall, hu⟩
      exact ⟨hiff.mpr hall, (hnext hall).1.mpr hu⟩

/-- **Condition rule**: if a step out of a good state leads to a good state
    exactly when the step meets the condition `Q`, then a run from a good
    state visits good states only exactly when all its steps meet `Q`. -/
theorem Run.forall_post_iff {sys : System State Label} {P : State → Prop}
    {Q : Transition State Label → Prop} {s t : State} {tr : List (Transition State Label)}
    (hs : Reachable sys s) (hP : P s)
    (hstep : ∀ t l u, Reachable sys t → P t → sys.step t l u → (P u ↔ Q ⟨t, l, u⟩))
    (h : Run sys s tr t) : (∀ x ∈ tr, P x.post) ↔ ∀ x ∈ tr, Q x := by
  refine Run.forall_iff (G := fun x => P x.post) hs hP ?_ h
  intro t l u hreach ht hlast
  have hiff := hstep t l u hreach ht hlast
  exact ⟨hiff, hiff.mpr⟩

end LTS
