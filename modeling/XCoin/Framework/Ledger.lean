import Mathlib.Algebra.BigOperators.Group.Finset.Piecewise

/-! # Ledgers of payments

    A ledger is a list of payments between accounts `α`; a payment without a
    sender makes new money.  What an account holds is what the payments change
    it by.  `sum_balance` is conservation: over a finite set of accounts that
    no payment leaves or enters from outside, the balances add up to the money
    made, whatever the signs of the amounts and whoever pays whom.

    `total` adds up what the entries of any list contribute, and does not
    depend on their order.
-/

namespace Ledger

open Finset

variable {α : Type}

/-! ### Totals -/

/-- What the entries of a list contribute, added up. -/
def total (f : α → Int) : List α → Int
  | []      => 0
  | x :: xs => f x + total f xs

theorem total_append (f : α → Int) (l₁ l₂ : List α) :
    total f (l₁ ++ l₂) = total f l₁ + total f l₂ := by
  induction l₁ with
  | nil => simp [total]
  | cons x l₁ ih =>
    rw [List.cons_append, total, ih, total]
    omega

/-- The order of the entries does not matter. -/
theorem total_perm (f : α → Int) {l₁ l₂ : List α} (h : l₁.Perm l₂) :
    total f l₁ = total f l₂ := by
  induction h with
  | nil => rfl
  | cons x _ ih => rw [total, ih, total]
  | swap x y l =>
    simp only [total]
    omega
  | trans _ _ ih₁ ih₂ => exact ih₁.trans ih₂

theorem total_sub (f g : α → Int) (l : List α) :
    total (fun x => f x - g x) l = total f l - total g l := by
  induction l with
  | nil => rfl
  | cons x l ih =>
    simp only [total, ih]
    omega

/-- What several accounts get from a list, entry by entry. -/
theorem sum_total {β : Type} (S : Finset β) (f : β → α → Int) (l : List α) :
    ∑ a ∈ S, total (f a) l = total (fun x => ∑ a ∈ S, f a x) l := by
  induction l with
  | nil => simp [total]
  | cons x l ih => simp only [total, Finset.sum_add_distrib, ih]

theorem total_congr {f g : α → Int} {l : List α} (h : ∀ x ∈ l, f x = g x) :
    total f l = total g l := by
  induction l with
  | nil => rfl
  | cons x l ih =>
    obtain ⟨hx, hl⟩ := List.forall_mem_cons.mp h
    rw [total, total, hx, ih hl]

theorem total_nonneg {f : α → Int} {l : List α} (h : ∀ x ∈ l, 0 ≤ f x) : 0 ≤ total f l := by
  induction l with
  | nil => exact Int.le_refl 0
  | cons x l ih =>
    obtain ⟨hx, hl⟩ := List.forall_mem_cons.mp h
    exact Int.add_nonneg hx (ih hl)

theorem total_eq_zero {f : α → Int} {l : List α} (h : ∀ x ∈ l, f x = 0) : total f l = 0 := by
  induction l with
  | nil => rfl
  | cons x l ih =>
    obtain ⟨hx, hl⟩ := List.forall_mem_cons.mp h
    rw [total, hx, ih hl, Int.add_zero]

/-- Lists whose entries contribute the same have the same total. -/
theorem total_forall₂ {R : α → α → Prop} {f : α → Int} {l l' : List α}
    (h : List.Forall₂ R l l') (hf : ∀ x ∈ l, ∀ y, R x y → f x = f y) :
    total f l = total f l' := by
  induction h with
  | nil => rfl
  | cons hxy _ ih =>
    obtain ⟨hx, hl⟩ := List.forall_mem_cons.mp hf
    rw [total, total, hx _ hxy, ih hl]

/-! ### Payments -/

/-- A payment; new money has no sender. -/
structure Payment (α : Type) where
  sender   : Option α
  receiver : α
  amount   : Int

/-- The money a payment makes. -/
def Payment.minted (p : Payment α) : Int :=
  match p.sender with
  | none   => p.amount
  | some _ => 0

/-- Sender and receiver are among the accounts `S`. -/
def Payment.Within (S : Finset α) (p : Payment α) : Prop :=
  p.receiver ∈ S ∧ ∀ a, p.sender = some a → a ∈ S

/-- The money a ledger makes. -/
def minted : List (Payment α) → Int
  | []      => 0
  | p :: ps => p.minted + minted ps

theorem minted_eq_total (ps : List (Payment α)) : minted ps = total Payment.minted ps := by
  induction ps with
  | nil => rfl
  | cons p ps ih => rw [minted, ih, total]

theorem minted_append (l₁ l₂ : List (Payment α)) : minted (l₁ ++ l₂) = minted l₁ + minted l₂ := by
  simp only [minted_eq_total, total_append]

/-- Payments that all have a sender make no money. -/
theorem minted_eq_zero {ps : List (Payment α)} (h : ∀ p ∈ ps, p.sender ≠ none) :
    minted ps = 0 := by
  induction ps with
  | nil => rfl
  | cons p ps ih =>
    obtain ⟨hp, hps⟩ := List.forall_mem_cons.mp h
    obtain ⟨a, ha⟩ := Option.ne_none_iff_exists'.mp hp
    simp [minted, Payment.minted, ha, ih hps]

variable [DecidableEq α]

/-- What a payment changes the balance of the account `a` by. -/
def Payment.change (p : Payment α) (a : α) : Int :=
  (if p.receiver = a then p.amount else 0) - if p.sender = some a then p.amount else 0

/-- What the account `a` holds after a ledger. -/
def balance (a : α) : List (Payment α) → Int
  | []      => 0
  | p :: ps => p.change a + balance a ps

/-- One payment changes the sum of the balances by the money it makes. -/
theorem sum_change {S : Finset α} {p : Payment α} (h : p.Within S) :
    ∑ a ∈ S, p.change a = p.minted := by
  obtain ⟨hreceiver, hsender⟩ := h
  have hin : ∑ a ∈ S, (if p.receiver = a then p.amount else 0) = p.amount := by
    rw [Finset.sum_ite_eq, if_pos hreceiver]
  have hout : ∑ a ∈ S, (if p.sender = some a then p.amount else 0) = p.amount - p.minted := by
    unfold Payment.minted
    cases hs : p.sender with
    | none => simp
    | some b =>
      simp only [Option.some.injEq]
      rw [Finset.sum_ite_eq, if_pos (hsender b hs)]
      simp
  unfold Payment.change
  rw [Finset.sum_sub_distrib, hin, hout]
  omega

/-- **Conservation**: over accounts that no payment leaves or enters, the
    balances add up to the money made. -/
theorem sum_balance {S : Finset α} {ps : List (Payment α)} (h : ∀ p ∈ ps, p.Within S) :
    ∑ a ∈ S, balance a ps = minted ps := by
  induction ps with
  | nil => simp [balance, minted]
  | cons p ps ih =>
    obtain ⟨hp, hps⟩ := List.forall_mem_cons.mp h
    simp only [balance, minted]
    rw [Finset.sum_add_distrib, sum_change hp, ih hps]

end Ledger
