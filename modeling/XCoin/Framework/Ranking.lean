import XCoin.Framework.System

/-! # Work that runs out

    A system has work to do: every step of one kind does some of it, and only
    steps of another kind bring new work, a bounded amount each.  Then a run
    has no more steps of the first kind than the work at its start and the
    work that was brought allow.

    The work of a list of tasks is its `load`.
-/

namespace LTS

variable {State Label : Type}

/-- **Ranking rule**: if every step that does work lowers the rank, and a step
    raises the rank only if it brings work, and then by at most `g`, the steps
    of a run that do work are bounded by the rank at its start and by `g` for
    every step that brings work. -/
theorem Run.rank_bound {sys : System State Label} {rank : State → Nat}
    (works brings : Transition State Label → Bool) {g : Nat}
    (hstep : ∀ s l t, Reachable sys s → sys.step s l t →
      rank t + (works ⟨s, l, t⟩).toNat ≤ rank s + g * (brings ⟨s, l, t⟩).toNat)
    {s t : State} {tr : List (Transition State Label)} (h : Run sys s tr t)
    (hs : Reachable sys s) : rank t + tr.countP works ≤ rank s + g * tr.countP brings := by
  have hone (f : Transition State Label → Bool) (x : Transition State Label) :
      [x].countP f = (f x).toNat := by
    rw [List.countP_singleton]
    cases f x <;> rfl
  induction h with
  | nil => simp
  | @snoc tr t u l hrun hlast ih =>
    have hlast' := hstep t l u (hrun.reachable hs) hlast
    rw [List.countP_append, List.countP_append, hone, hone, Nat.mul_add]
    omega

end LTS

namespace Ranking

variable {α : Type}

/-- The load of a list of tasks. -/
def load (w : α → Nat) : List α → Nat
  | []      => 0
  | x :: xs => w x + load w xs

theorem load_append (w : α → Nat) (l₁ l₂ : List α) :
    load w (l₁ ++ l₂) = load w l₁ + load w l₂ := by
  induction l₁ with
  | nil => simp [load]
  | cons x l₁ ih =>
    rw [List.cons_append, load, ih, load]
    omega

/-- Taking a task off the list. -/
theorem load_middle (w : α → Nat) (l₁ l₂ : List α) (x : α) :
    load w (l₁ ++ x :: l₂) = load w (l₁ ++ l₂) + w x := by
  simp only [load_append, load]
  omega

/-- Tasks of one weight. -/
theorem load_const {w : α → Nat} {k : Nat} {l : List α} (h : ∀ x ∈ l, w x = k) :
    load w l = k * l.length := by
  induction l with
  | nil => rfl
  | cons x l ih =>
    obtain ⟨hx, hl⟩ := List.forall_mem_cons.mp h
    rw [load, hx, ih hl, List.length_cons, Nat.mul_succ, Nat.add_comm]

end Ranking
