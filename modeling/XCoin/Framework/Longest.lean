import Mathlib.Data.List.Basic
import Mathlib.Data.List.Forall2

/-! # Loops that keep the best entry

    A loop over a list keeps the best entry so far and replaces it only by a
    strictly better one.  It ends with an upper bound of all it has seen, and
    this is what it started with or the first entry of that value.
-/

namespace Longest

variable {α : Type} (f : α → Nat)

/-- The loop, started with `best`. -/
def pick (best : α) : List α → α :=
  List.foldl (fun best x => if f best < f x then x else best) best

theorem pick_cons (best x : α) (l : List α) :
    pick f best (x :: l) = pick f (if f best < f x then x else best) l := rfl

/-- The loop ends with a value no smaller than any it has seen. -/
theorem le_pick (best : α) (l : List α) : ∀ x ∈ best :: l, f x ≤ f (pick f best l) := by
  induction l generalizing best with
  | nil =>
    intro x hx
    rw [List.mem_singleton.mp hx]
    exact Nat.le_refl _
  | cons y l ih =>
    rw [pick_cons]
    -- one turn of the loop keeps the larger of the two
    have hkept : ∀ x ∈ [best, y], f x ≤ f (if f best < f y then y else best) := by
      intro x hx
      split <;> grind
    have hnext := ih (if f best < f y then y else best)
    intro x hx
    by_cases hl : x ∈ l
    · exact hnext x (List.mem_cons_of_mem _ hl)
    · exact Nat.le_trans (hkept x (by grind)) (hnext _ List.mem_cons_self)

/-- **What the loop ends with**: its start, or an entry that beats the start
    and all entries before it. -/
theorem pick_first (best : α) (l : List α) :
    pick f best l = best ∨
    ∃ l₁ l₂, l = l₁ ++ pick f best l :: l₂ ∧ ∀ x ∈ best :: l₁, f x < f (pick f best l) := by
  induction l generalizing best with
  | nil => exact .inl rfl
  | cons y l ih =>
    rw [pick_cons]
    by_cases hy : f best < f y
    · -- `y` is the new best, so the start is beaten in any case
      rw [if_pos hy]
      right
      rcases ih y with heq | ⟨l₁, l₂, hl, hbeats⟩
      · rw [heq]
        exact ⟨[], l, rfl, by simpa using hy⟩
      · refine ⟨y :: l₁, l₂, by rw [List.cons_append, ← hl], ?_⟩
        have hlt := hbeats y List.mem_cons_self
        intro x hx
        rcases List.mem_cons.mp hx with rfl | hx
        · omega
        · exact hbeats x hx
    · rw [if_neg hy]
      rcases ih best with heq | ⟨l₁, l₂, hl, hbeats⟩
      · exact .inl heq
      · refine .inr ⟨y :: l₁, l₂, by rw [List.cons_append, ← hl], ?_⟩
        have hlt := hbeats best List.mem_cons_self
        intro x hx
        rcases List.mem_cons.mp hx with rfl | hx
        · exact hlt
        · rcases List.mem_cons.mp hx with rfl | hx
          · omega
          · exact hbeats x (List.mem_cons_of_mem _ hx)

/-- The loop ends with its start or with an entry. -/
theorem pick_mem (best : α) (l : List α) : pick f best l = best ∨ pick f best l ∈ l := by
  rcases pick_first f best l with hbest | ⟨l₁, l₂, hl, _⟩
  · exact .inl hbest
  · have hmem : pick f best l ∈ l₁ ++ pick f best l :: l₂ := by simp
    rw [← hl] at hmem
    exact .inr hmem

/-- Two lists that correspond entry by entry, in a way that `f` and `g` respect,
    are searched alike. -/
theorem pick_forall₂ {β : Type} {g : β → Nat} {R : α → β → Prop}
    (hR : ∀ x y, R x y → f x = g y) {best : α} {best' : β} {l : List α} {l' : List β}
    (hbest : R best best') (h : List.Forall₂ R l l') :
    R (pick f best l) (pick g best' l') := by
  induction h generalizing best best' with
  | nil => exact hbest
  | @cons x y l l' hxy _ ih =>
    rw [pick_cons, pick_cons, hR _ _ hbest, hR _ _ hxy]
    apply ih
    split
    · exact hxy
    · exact hbest

end Longest
