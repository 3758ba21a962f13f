import Mathlib.Data.List.Chain

/-! # Lists made of segments

    A list is segmented if it starts with a root and every later entry is a
    root again or a successor of the entry before it.  Such lists can be cut
    off, put one behind the other and continued with a successor.
-/

namespace Segments

variable {α : Type} {root : α → Prop} {next : α → α → Prop}

/-- A root or a successor of the entry before it at every place. -/
structure Segmented (root : α → Prop) (next : α → α → Prop) (l : List α) : Prop where
  head : ∀ x ∈ l.head?, root x
  links : l.IsChain fun x y => root y ∨ next x y

namespace Segmented

theorem nil : Segmented root next [] := ⟨by simp, .nil⟩

theorem singleton {x : α} (hx : root x) : Segmented root next [x] :=
  ⟨by simpa using hx, .singleton x⟩

theorem append {l₁ l₂ : List α} (h₁ : Segmented root next l₁) (h₂ : Segmented root next l₂) :
    Segmented root next (l₁ ++ l₂) where
  head := by
    intro x hx
    cases l₁ with
    | nil => exact h₂.head x hx
    | cons y l₁ => exact h₁.head x hx
  links := List.isChain_append.mpr
    ⟨h₁.links, h₂.links, fun _ _ y hy => .inl (h₂.head y hy)⟩

theorem take {l : List α} (h : Segmented root next l) (k : Nat) :
    Segmented root next (l.take k) where
  head := by
    intro x hx
    rw [List.head?_take] at hx
    split at hx
    · cases hx
    · exact h.head x hx
  links := h.links.prefix (List.take_prefix k l)

/-- A successor of the last entry is put at the end. -/
theorem push {l : List α} {x y : α} (h : Segmented root next l) (hlast : l.getLast? = some x)
    (hnext : next x y) : Segmented root next (l ++ [y]) where
  head := by
    intro z hz
    cases l with
    | nil => cases hlast
    | cons w l => exact h.head z hz
  links := by
    refine List.isChain_append.mpr ⟨h.links, .singleton y, ?_⟩
    intro x' hx' y' hy'
    obtain rfl : x = x' := by simpa [hlast] using hx'
    obtain rfl : y = y' := by simpa using hy'
    exact .inr hnext

/-- What stands at a position. -/
theorem at_position {l : List α} (h : Segmented root next l) {i : Nat} {y : α}
    (hy : l[i]? = some y) :
    root y ∨ ∃ j x, i = j + 1 ∧ l[j]? = some x ∧ next x y := by
  cases i with
  | zero => exact .inl (h.head y (by rwa [Option.mem_def, List.head?_eq_getElem?]))
  | succ j =>
    obtain ⟨hj, rfl⟩ := List.getElem?_eq_some_iff.mp hy
    have hlink := List.isChain_iff_getElem.mp h.links j hj
    rcases hlink with hroot | hnext
    · exact .inl hroot
    · exact .inr ⟨j, l[j], rfl, List.getElem?_eq_getElem (by omega), hnext⟩

end Segmented

end Segments
