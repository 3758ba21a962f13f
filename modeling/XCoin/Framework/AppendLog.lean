import Mathlib.Data.List.Basic

/-! # Append-only logs

    A log that starts as `base` and only ever grows by appending one entry
    `b`, where `R l b` says what the log `l` before the append demands of
    the new entry.  `Grown R base` is the set of such logs.

    The point of the module is `Grown.getElem`: a property of one append,
    stated against the log at that time, becomes a property of every
    position of the finished log, stated against the prefix below it.
-/

namespace AppendLog

variable {α : Type} {R S : List α → α → Prop} {base l : List α}

/-- The logs that grow from `base` by appends that satisfy `R`. -/
inductive Grown (R : List α → α → Prop) (base : List α) : List α → Prop where
  | base : Grown R base base
  | append {l b} : Grown R base l → R l b → Grown R base (l ++ [b])

/-- An entry of a list with one more entry is an old entry or the new one. -/
theorem getElem?_concat_cases {x b : α} {i : Nat} (h : (l ++ [x])[i]? = some b) :
    l[i]? = some b ∨ (i = l.length ∧ b = x) := by
  by_cases hlt : i < l.length
  · rw [List.getElem?_append_left hlt] at h
    exact .inl h
  · have hlen : i < (l ++ [x]).length := (List.getElem?_eq_some_iff.mp h).1
    have hieq : i = l.length := by
      simp only [List.length_append, List.length_singleton] at hlen
      omega
    subst hieq
    simp only [List.getElem?_concat_length, Option.some.injEq] at h
    exact .inr ⟨rfl, h.symm⟩

/-- A grown log keeps its base as a prefix. -/
theorem Grown.prefix_base (h : Grown R base l) : base <+: l := by
  induction h with
  | base => exact List.prefix_rfl
  | append _ _ ih => exact ih.trans (List.prefix_append _ _)

theorem Grown.length_le (h : Grown R base l) : base.length ≤ l.length :=
  h.prefix_base.length_le

/-- **Positions of a grown log**: the entry at any position past the base
    satisfies `R` against the prefix below it. -/
theorem Grown.getElem (h : Grown R base l) {i : Nat} {b : α}
    (hi : base.length ≤ i) (hb : l[i]? = some b) : R (l.take i) b := by
  induction h with
  | base =>
    rw [List.getElem?_eq_none hi] at hb
    cases hb
  | @append l c _ hR ih =>
    rcases getElem?_concat_cases hb with hold | ⟨rfl, rfl⟩
    · -- the prefix below an old entry does not see the new one
      have hlt : i < l.length := (List.getElem?_eq_some_iff.mp hold).1
      rw [List.take_append_of_le_length (Nat.le_of_lt hlt)]
      exact ih hold
    · rw [List.take_left]
      exact hR

/-- Every prefix of a grown log that reaches past the base is grown. -/
theorem Grown.take (h : Grown R base l) {i : Nat} (hi : base.length ≤ i) :
    Grown R base (l.take i) := by
  induction h with
  | base =>
    rw [List.take_of_length_le hi]
    exact .base
  | @append l c hl hR ih =>
    by_cases hlt : i ≤ l.length
    · rw [List.take_append_of_le_length hlt]
      exact ih
    · rw [List.take_of_length_le (by simp; omega)]
      exact .append hl hR

/-- A weaker demand on each append gives a larger set of logs. -/
theorem Grown.mono (h : Grown R base l) (hRS : ∀ l b, Grown R base l → R l b → S l b) :
    Grown S base l := by
  induction h with
  | base => exact .base
  | append hl hR ih => exact .append ih (hRS _ _ hl hR)

end AppendLog
