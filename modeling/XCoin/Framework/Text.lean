import Mathlib.Data.List.Basic
import Mathlib.Data.List.Induction
import Mathlib.Data.List.TakeWhile
import Mathlib.Tactic.IntervalCases

/-! # Texts without separators

    When fields are written one after the other with nothing between them, a
    field can be read back only if its characters cannot run into the next
    one.  This module has the two facts that decide such questions:

    * `append_cons_cancel`: a run of characters of one class is cut off by
      the first character outside the class, and `cons_append_cancel` is the
      same statement read from the end of the text.
    * decimal numerals are non-empty runs of digits that determine their
      number, and a digit may be put in front of a numeral to give another.

    They give two rules: `bracketed_cancel` for a text in brackets between two
    fields, and `numeral_cut_iff` for a text followed by a numeral.
-/

namespace Text

variable {α : Type}

/-! ### Cutting a text at a class boundary -/

/-- Two texts that start with a run of class `p` followed by a character
    outside `p` agree only if the runs and the rests agree. -/
theorem append_cons_cancel {p : α → Prop} {a b s t : List α} {x y : α}
    (ha : ∀ c ∈ a, p c) (hb : ∀ c ∈ b, p c) (hx : ¬ p x) (hy : ¬ p y)
    (h : a ++ x :: s = b ++ y :: t) : a = b ∧ x :: s = y :: t := by
  induction a generalizing b with
  | nil =>
    cases b with
    | nil => exact ⟨rfl, h⟩
    | cons c b =>
      have hxc : x = c := by simpa using (List.cons.inj h).1
      exact absurd (hb c (by simp)) (hxc ▸ hx)
  | cons d a ih =>
    cases b with
    | nil =>
      have hdy : d = y := by simpa using (List.cons.inj h).1
      exact absurd (ha d (by simp)) (hdy ▸ hy)
    | cons c b =>
      obtain ⟨hdc, hrest⟩ := List.cons.inj h
      obtain ⟨hab, hst⟩ := ih (fun c hc => ha c (by simp [hc]))
        (fun c hc => hb c (by simp [hc])) hrest
      exact ⟨by rw [hdc, hab], hst⟩

/-- The same cut, read from the end: the last character outside `p` separates
    the text before it from the final run. -/
theorem cons_append_cancel {p : α → Prop} {a b s t : List α} {x y : α}
    (ha : ∀ c ∈ a, p c) (hb : ∀ c ∈ b, p c) (hx : ¬ p x) (hy : ¬ p y)
    (h : (s ++ [x]) ++ a = (t ++ [y]) ++ b) : s ++ [x] = t ++ [y] ∧ a = b := by
  have hrev : a.reverse ++ x :: s.reverse = b.reverse ++ y :: t.reverse := by
    have := congrArg List.reverse h
    simpa using this
  obtain ⟨hab, hst⟩ := append_cons_cancel (p := p)
    (fun c hc => ha c (List.mem_reverse.mp hc))
    (fun c hc => hb c (List.mem_reverse.mp hc)) hx hy hrev
  refine ⟨?_, List.reverse_injective hab⟩
  apply List.reverse_injective
  simpa using hst

/-! ### Decimal numerals -/

theorem toList_toString (n : Nat) : (toString n).toList = Nat.toDigits 10 n :=
  Nat.toList_repr

theorem toString_ne_nil (n : Nat) : (toString n).toList ≠ [] := by
  rw [toList_toString]
  exact Nat.toDigits_ne_nil

theorem isDigit_of_mem_toString {n : Nat} {c : Char} (h : c ∈ (toString n).toList) :
    c.isDigit = true := by
  rw [toList_toString] at h
  exact Nat.isDigit_of_mem_toDigits (by decide) (by decide) h

/-- A numeral starts with a digit. -/
theorem exists_digit_cons (n : Nat) :
    ∃ d ds, (toString n).toList = d :: ds ∧ d.isDigit = true := by
  obtain ⟨d, ds, hds⟩ := List.exists_cons_of_ne_nil (toString_ne_nil n)
  exact ⟨d, ds, hds, isDigit_of_mem_toString (hds ▸ List.mem_cons_self)⟩

/-- A numeral determines its number. -/
theorem toString_injective {m n : Nat} (h : toString m = toString n) : m = n := by
  have hd : Nat.toDigits 10 m = Nat.toDigits 10 n := by
    rw [← toList_toString, ← toList_toString, h]
  rw [← Nat.ofDigitChars_ten_toDigits (n := m), hd, Nat.ofDigitChars_ten_toDigits]

/-- The last digit of a numeral can be split off. -/
theorem toString_split {n : Nat} (h : 10 ≤ n) :
    toString n = toString (n / 10) ++ toString (n % 10) := by
  apply String.toList_inj.mp
  rw [String.toList_append, toList_toString, toList_toString, toList_toString,
    Nat.toDigits_append_toDigits (by decide) (by omega) (by omega)]
  congr 1
  omega

/-- Putting the digit `1` in front of a numeral gives a numeral. -/
theorem exists_toString_one_append (m : Nat) :
    ∃ k, 10 ≤ k ∧ "1" ++ toString m = toString k := by
  induction m using Nat.strongRecOn with
  | ind m ih =>
    by_cases hm : m < 10
    · refine ⟨10 + m, by omega, ?_⟩
      rw [toString_split (n := 10 + m) (by omega)]
      rw [show (10 + m) / 10 = 1 by omega, show (10 + m) % 10 = m by omega]
      rfl
    · obtain ⟨k, hk, heq⟩ := ih (m / 10) (by omega)
      refine ⟨10 * k + m % 10, by omega, ?_⟩
      rw [toString_split (n := m) (by omega), ← String.append_assoc, heq,
        toString_split (n := 10 * k + m % 10) (by omega)]
      rw [show (10 * k + m % 10) / 10 = k by omega,
        show (10 * k + m % 10) % 10 = m % 10 by omega]

/-! ### A bracketed text between two fields -/

/-- A text in brackets between a part without opening bracket and a numeral
    can be read back: the first `[` and the last `]` delimit it. -/
theorem bracketed_cancel {a b u v : String} {m n : Nat} (ha : '[' ∉ a.toList)
    (hb : '[' ∉ b.toList)
    (h : a ++ ("[" ++ u ++ "]") ++ toString m = b ++ ("[" ++ v ++ "]") ++ toString n) :
    a = b ∧ u = v ∧ m = n := by
  have hlist : a.toList ++ '[' :: (u.toList ++ [']'] ++ (toString m).toList) =
      b.toList ++ '[' :: (v.toList ++ [']'] ++ (toString n).toList) := by
    have := congrArg String.toList h
    simpa using this
  -- cut at the first opening bracket
  obtain ⟨hab, hrest⟩ := append_cons_cancel (p := fun c => c ≠ '[')
    (fun c hc heq => ha (heq ▸ hc)) (fun c hc heq => hb (heq ▸ hc)) (by simp) (by simp) hlist
  -- cut at the last closing bracket
  obtain ⟨huv, hmn⟩ := cons_append_cancel (p := fun c => c.isDigit = true)
    (fun c hc => isDigit_of_mem_toString hc) (fun c hc => isDigit_of_mem_toString hc)
    (by decide) (by decide) (List.cons.inj hrest).2
  exact ⟨String.toList_inj.mp hab, String.toList_inj.mp (List.append_cancel_right huv),
    toString_injective (String.toList_inj.mp hmn)⟩

/-! ### A numeral at the end of a text -/

/-- The digits a text ends with, last one first. -/
def trailingDigits (s : String) : List Char := s.toList.reverse.takeWhile Char.isDigit

theorem toNat_of_isDigit {c : Char} (h : c.isDigit = true) : 48 ≤ c.toNat ∧ c.toNat ≤ 57 := by
  simp only [Char.isDigit, Bool.and_eq_true, decide_eq_true_eq, ge_iff_le,
    UInt32.le_iff_toNat_le] at h
  exact h

/-- A digit is the numeral of a number below ten. -/
theorem exists_toString_digit {c : Char} (h : c.isDigit = true) :
    ∃ k, k < 10 ∧ (toString k).toList = [c] := by
  have hbounds := toNat_of_isDigit h
  have hc : c = Char.ofNat c.toNat := (Char.ofNat_toNat c).symm
  refine ⟨c.toNat - 48, by omega, ?_⟩
  rw [toList_toString, Nat.toDigits_of_lt_base (by omega)]
  generalize c.toNat = n at hc hbounds
  obtain ⟨hlow, hhigh⟩ := hbounds
  subst hc
  interval_cases n <;> rfl

/-- Digits that do not start with `0` are the numeral of a number. -/
theorem exists_toString_digits {c : Char} (hc : c.isDigit = true) (hc0 : c ≠ '0')
    (l : List Char) (hl : ∀ d ∈ l, d.isDigit = true) :
    ∃ k, 0 < k ∧ (toString k).toList = c :: l := by
  induction l using List.reverseRecOn with
  | nil =>
    obtain ⟨k, _, hk⟩ := exists_toString_digit hc
    refine ⟨k, Nat.pos_of_ne_zero ?_, hk⟩
    rintro rfl
    exact hc0 (by simpa using hk.symm)
  | append_singleton l d ih =>
    -- the digit `d` is written behind the numeral of the others
    obtain ⟨k, hpos, hk⟩ := ih fun e he => hl e (by simp [he])
    obtain ⟨m, hm, hd⟩ := exists_toString_digit (hl d (by simp))
    refine ⟨10 * k + m, by omega, ?_⟩
    rw [toString_split (by omega), show (10 * k + m) / 10 = k by omega,
      show (10 * k + m) % 10 = m by omega, String.toList_append, hk, hd]
    simp

/-- Only the numeral of zero starts with a zero. -/
theorem eq_zero_of_head {n : Nat} (h : (toString n).toList.head? = some '0') : n = 0 := by
  induction n using Nat.strongRecOn with
  | ind n ih =>
    by_cases hn : n < 10
    · rw [toList_toString, Nat.toDigits_of_lt_base hn, List.head?_cons, Option.some.injEq] at h
      interval_cases n <;> first | rfl | exact absurd h (by decide)
    · rw [toString_split (by omega), String.toList_append,
        List.head?_append_of_ne_nil _ (toString_ne_nil _)] at h
      have := ih (n / 10) (by omega) h
      omega

/-- A numeral of zeros is the numeral of zero. -/
theorem eq_zero_of_digits {n : Nat} (h : ∀ c ∈ (toString n).toList, c = '0') : n = 0 := by
  obtain ⟨c, cs, hcs⟩ := List.exists_cons_of_ne_nil (toString_ne_nil n)
  rw [hcs] at h
  apply eq_zero_of_head
  rw [hcs, List.head?_cons, h c (List.mem_cons_self)]

/-- Digits at the end of a text are among its trailing digits. -/
theorem mem_trailingDigits {s : String} {l ds : List Char} (hs : s.toList = l ++ ds)
    (hds : ∀ c ∈ ds, c.isDigit = true) {c : Char} (hc : c ∈ ds) : c ∈ trailingDigits s := by
  unfold trailingDigits
  rw [hs, List.reverse_append, List.takeWhile_append_of_pos fun d hd => hds d (by simpa using hd)]
  exact List.mem_append_left _ (by simpa using hc)

/-- **Where the numeral starts**: a text followed by a numeral can be cut in
    no other way exactly if the numeral is one digit and the text ends in no
    digits but zeros. -/
theorem numeral_cut_iff (s : String) (n : Nat) :
    (∀ (t : String) (m : Nat), t ++ toString m = s ++ toString n → t = s ∧ m = n) ↔
      n < 10 ∧ ∀ c ∈ trailingDigits s, c = '0' := by
  constructor
  · intro huniq
    refine ⟨?_, ?_⟩
    · -- otherwise the first digits may go to the text
      by_contra hn
      have hcut := huniq (s ++ toString (n / 10)) (n % 10) (by
        rw [String.append_assoc, ← toString_split (by omega)])
      omega
    · -- otherwise the digits from a non-zero one on may go to the numeral
      intro c hc
      by_contra hc0
      have hdigits : ∀ d ∈ trailingDigits s, d.isDigit = true :=
        fun d hd => List.mem_takeWhile_imp hd
      obtain ⟨l₁, l₂, hsplit⟩ := List.append_of_mem hc
      obtain ⟨u, hs⟩ : ∃ u, s.toList = u ++ c :: l₁.reverse := by
        obtain ⟨rest, hrest⟩ := List.takeWhile_prefix (l := s.toList.reverse) Char.isDigit
        rw [show s.toList.reverse.takeWhile Char.isDigit = l₁ ++ c :: l₂ from hsplit] at hrest
        refine ⟨(l₂ ++ rest).reverse, ?_⟩
        rw [← List.reverse_reverse s.toList, ← hrest]
        simp
      obtain ⟨k, _, hk⟩ := exists_toString_digits (hdigits c hc) hc0
        (l₁.reverse ++ (toString n).toList) (by
          intro d hd
          rcases List.mem_append.mp hd with hd | hd
          · exact hdigits d (by rw [hsplit]; simp [List.mem_reverse.mp hd])
          · exact isDigit_of_mem_toString hd)
      have hcut := huniq (String.ofList u) k (by
        apply String.toList_inj.mp
        rw [String.toList_append, String.toList_append, String.toList_ofList, hk, hs]
        simp)
      have hlen := congrArg (fun t : String => t.toList.length) hcut.1
      rw [hs, String.toList_ofList] at hlen
      simp at hlen
  · rintro ⟨hn, hzeros⟩ t m h
    have hlist : t.toList ++ (toString m).toList = s.toList ++ (toString n).toList := by
      rw [← String.toList_append, h, String.toList_append]
    have hone : (toString n).toList.length = 1 := by
      rw [toList_toString, Nat.toDigits_of_lt_base hn]
      rfl
    by_cases hm : m < 10
    · have hone' : (toString m).toList.length = 1 := by
        rw [toList_toString, Nat.toDigits_of_lt_base hm]
        rfl
      obtain ⟨hts, hmn⟩ := List.append_inj' hlist (hone'.trans hone.symm)
      exact ⟨String.toList_inj.mp hts, toString_injective (String.toList_inj.mp hmn)⟩
    · -- then the digits of `m` before the last one end the text `s`
      have hlast : (toString (m % 10)).toList.length = 1 := by
        rw [toList_toString, Nat.toDigits_of_lt_base (by omega)]
        rfl
      rw [toString_split (by omega), String.toList_append, ← List.append_assoc] at hlist
      obtain ⟨hs, _⟩ := List.append_inj' hlist (hlast.trans hone.symm)
      have hzero : m / 10 = 0 := eq_zero_of_digits fun c hc =>
        hzeros c (mem_trailingDigits hs.symm (fun d hd => isDigit_of_mem_toString hd) hc)
      omega

end Text
