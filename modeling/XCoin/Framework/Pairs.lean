import XCoin.Framework.Text

/-! # Lists of texts and numerals without separators

    A list of pairs is written as text, numeral, text, numeral, and so on,
    with nothing in between.  If the reader knows how many pairs there are,
    the list can be read back in exactly these cases: there is no pair, there
    is one and its numeral can be cut off (`numeral_cut_iff`), or there are
    several and the only digits are numerals of one digit.

    The argument for several pairs counts digits: every numeral needs one.
-/

namespace Text

/-- The pairs, one after the other. -/
def writePairs : List (String × Nat) → String
  | []      => ""
  | p :: ps => p.1 ++ toString p.2 ++ writePairs ps

@[simp] theorem writePairs_append (l₁ l₂ : List (String × Nat)) :
    writePairs (l₁ ++ l₂) = writePairs l₁ ++ writePairs l₂ := by
  induction l₁ with
  | nil => simp [writePairs]
  | cons p l₁ ih => simp [writePairs, ih, String.append_assoc]

/-- The numeral is one digit, and the text has none. -/
def Plain (p : String × Nat) : Prop := p.2 < 10 ∧ ∀ c ∈ p.1.toList, c.isDigit = false

/-- Lists that can be read back if their length is known. -/
def Readable : List (String × Nat) → Prop
  | []       => True
  | [(s, n)] => n < 10 ∧ ∀ c ∈ trailingDigits s, c = '0'
  | pairs    => ∀ p ∈ pairs, Plain p

/-! ### Counting digits -/

/-- The number of digits in a text. -/
def digitCount (s : String) : Nat := s.toList.countP Char.isDigit

theorem digitCount_append (s t : String) : digitCount (s ++ t) = digitCount s + digitCount t := by
  simp [digitCount]

theorem digitCount_toString (n : Nat) : digitCount (toString n) = (toString n).toList.length :=
  List.countP_eq_length.mpr fun _ hc => isDigit_of_mem_toString hc

theorem length_toString_eq_one_iff (n : Nat) : (toString n).toList.length = 1 ↔ n < 10 := by
  constructor
  · intro hone
    by_contra hn
    have hfirst := List.length_pos_iff.mpr (toString_ne_nil (n / 10))
    have hlast := List.length_pos_iff.mpr (toString_ne_nil (n % 10))
    rw [toString_split (by omega), String.toList_append, List.length_append] at hone
    omega
  · intro hn
    rw [toList_toString, Nat.toDigits_of_lt_base hn]
    rfl

/-- A pair has a digit at least, and just one only if it is plain. -/
theorem digitCount_pair (p : String × Nat) :
    1 ≤ digitCount (p.1 ++ toString p.2) ∧
      (digitCount (p.1 ++ toString p.2) = 1 ↔ Plain p) := by
  have hpos := List.length_pos_iff.mpr (toString_ne_nil p.2)
  have hone := length_toString_eq_one_iff p.2
  have hnone : digitCount p.1 = 0 ↔ ∀ c ∈ p.1.toList, c.isDigit = false := by
    simp [digitCount, List.countP_eq_zero]
  rw [digitCount_append, digitCount_toString, Plain, ← hone, ← hnone]
  omega

/-- So does a list of pairs, pair by pair. -/
theorem digitCount_writePairs (pairs : List (String × Nat)) :
    pairs.length ≤ digitCount (writePairs pairs) ∧
      (digitCount (writePairs pairs) = pairs.length ↔ ∀ p ∈ pairs, Plain p) := by
  induction pairs with
  | nil => simp [writePairs, digitCount]
  | cons p pairs ih =>
    obtain ⟨hpos, hplain⟩ := digitCount_pair p
    obtain ⟨hle, hall⟩ := ih
    rw [writePairs, digitCount_append, List.length_cons, List.forall_mem_cons, ← hplain, ← hall]
    omega

/-! ### Reading back -/

/-- A plain pair is cut off at its digit. -/
theorem plain_cancel {p q : String × Nat} (hp : Plain p) (hq : Plain q) {s t : String}
    (h : p.1 ++ toString p.2 ++ s = q.1 ++ toString q.2 ++ t) : p = q ∧ s = t := by
  obtain ⟨d, hd⟩ := List.length_eq_one_iff.mp ((length_toString_eq_one_iff p.2).mpr hp.1)
  obtain ⟨e, he⟩ := List.length_eq_one_iff.mp ((length_toString_eq_one_iff q.2).mpr hq.1)
  have hdigit : d.isDigit = true := isDigit_of_mem_toString (hd ▸ List.mem_singleton_self d)
  have hdigit' : e.isDigit = true := isDigit_of_mem_toString (he ▸ List.mem_singleton_self e)
  have hlist : p.1.toList ++ d :: s.toList = q.1.toList ++ e :: t.toList := by
    have hchars := congrArg String.toList h
    simpa only [String.toList_append, hd, he, List.append_assoc, List.singleton_append]
      using hchars
  obtain ⟨htext, hrest⟩ := append_cons_cancel (p := fun c => c.isDigit = false) hp.2 hq.2
    (by simp [hdigit]) (by simp [hdigit']) hlist
  obtain ⟨hde, hst⟩ := List.cons.inj hrest
  have hnumber : p.2 = q.2 := by
    apply toString_injective
    apply String.toList_inj.mp
    rw [hd, he, hde]
  exact ⟨Prod.ext (String.toList_inj.mp htext) hnumber, String.toList_inj.mp hst⟩

theorem writePairs_cancel {l₁ l₂ : List (String × Nat)} (h₁ : ∀ p ∈ l₁, Plain p)
    (h₂ : ∀ p ∈ l₂, Plain p) (hlen : l₁.length = l₂.length)
    (h : writePairs l₁ = writePairs l₂) : l₁ = l₂ := by
  induction l₁ generalizing l₂ with
  | nil => exact (List.length_eq_zero_iff.mp hlen.symm).symm
  | cons p l₁ ih =>
    cases l₂ with
    | nil => cases hlen
    | cons q l₂ =>
      rw [List.forall_mem_cons] at h₁ h₂
      obtain ⟨rfl, hrest⟩ := plain_cancel h₁.1 h₂.1 h
      rw [ih h₁.2 h₂.2 (Nat.succ.inj hlen) hrest]

/-- A list of plain pairs is the only one of its length with its text. -/
theorem eq_of_plain {pairs pairs' : List (String × Nat)} (h : ∀ p ∈ pairs, Plain p)
    (hlen : pairs'.length = pairs.length) (heq : writePairs pairs' = writePairs pairs) :
    pairs' = pairs := by
  have hcount := (digitCount_writePairs pairs).2.mpr h
  have hplain := (digitCount_writePairs pairs').2.mp (by rw [heq, hcount, hlen])
  exact writePairs_cancel hplain h hlen heq

/-! ### Other ways to cut -/

/-- The list is the only one of its length with its text. -/
def UniquelyCut (pairs : List (String × Nat)) : Prop :=
  ∀ pairs' : List (String × Nat), pairs'.length = pairs.length →
    writePairs pairs' = writePairs pairs → pairs' = pairs

/-- Then so is every part of it. -/
theorem UniquelyCut.of_append {l m r : List (String × Nat)} (h : UniquelyCut (l ++ (m ++ r))) :
    UniquelyCut m := by
  intro m' hlen heq
  have hcut := h (l ++ (m' ++ r)) (by simp [hlen]) (by simp [heq])
  exact List.append_cancel_right (List.append_cancel_left hcut)

theorem uniquelyCut_singleton_iff (s : String) (n : Nat) :
    UniquelyCut [(s, n)] ↔ n < 10 ∧ ∀ c ∈ trailingDigits s, c = '0' := by
  rw [← numeral_cut_iff]
  constructor
  · intro h t m heq
    have hcut := h [(t, m)] rfl (by simp only [writePairs, heq])
    simpa using hcut
  · intro h pairs' hlen heq
    obtain ⟨⟨t, m⟩, rfl⟩ := List.length_eq_one_iff.mp hlen
    obtain ⟨rfl, rfl⟩ := h t m (by simpa [writePairs] using heq)
    rfl

/-- A digit of a text can be taken for a numeral. -/
theorem exists_split_at_digit {s : String} {c : Char} (hc : c ∈ s.toList)
    (hdigit : c.isDigit = true) : ∃ (u v : String) (k : Nat), s = u ++ toString k ++ v := by
  obtain ⟨u, v, hs⟩ := List.append_of_mem hc
  obtain ⟨k, _, hk⟩ := exists_toString_digit hdigit
  refine ⟨String.ofList u, String.ofList v, k, ?_⟩
  apply String.toList_inj.mp
  rw [String.toList_append, String.toList_append, String.toList_ofList, String.toList_ofList, hk,
    hs, List.append_assoc, List.singleton_append]

/-- The text before a numeral is shorter than the text with it. -/
theorem append_toString_ne (s t : String) (n : Nat) : s ++ toString n ++ t ≠ s := by
  intro heq
  have hlen := congrArg (fun u : String => u.toList.length) heq
  have hpos := List.length_pos_iff.mpr (toString_ne_nil n)
  simp only [String.toList_append, List.length_append] at hlen
  omega

/-- With a neighbour, a text that has a digit can be cut there: the neighbour
    takes what the digit does not need. -/
theorem no_digit_of_uniquelyCut {p q : String × Nat} (h : UniquelyCut [p, q]) :
    (∀ c ∈ p.1.toList, c.isDigit = false) ∧ ∀ c ∈ q.1.toList, c.isDigit = false := by
  refine ⟨?_, ?_⟩
  · intro c hc
    by_contra hdigit
    obtain ⟨u, v, k, hsplit⟩ := exists_split_at_digit hc (Bool.not_eq_false _ ▸ hdigit)
    have hcut := h [(u, k), (v ++ toString p.2 ++ q.1, q.2)] rfl
      (by simp only [writePairs, hsplit, String.append_assoc])
    have hu : u = p.1 := congrArg Prod.fst (List.cons.inj hcut).1
    exact append_toString_ne u v k (hsplit.symm.trans hu.symm)
  · intro c hc
    by_contra hdigit
    obtain ⟨u, v, k, hsplit⟩ := exists_split_at_digit hc (Bool.not_eq_false _ ▸ hdigit)
    have hcut := h [(p.1 ++ toString p.2 ++ u, k), (v, q.2)] rfl
      (by simp only [writePairs, hsplit, String.append_assoc])
    exact append_toString_ne p.1 u p.2 (congrArg Prod.fst (List.cons.inj hcut).1)

/-- In a list of several pairs every pair has a neighbour. -/
theorem exists_neighbour {pairs : List (String × Nat)} (hlen : 2 ≤ pairs.length)
    {p : String × Nat} (hp : p ∈ pairs) :
    ∃ l q r, pairs = l ++ ([p, q] ++ r) ∨ pairs = l ++ ([q, p] ++ r) := by
  obtain ⟨l, r, rfl⟩ := List.append_of_mem hp
  cases r with
  | cons q r => exact ⟨l, q, r, .inl rfl⟩
  | nil =>
    -- the last pair has its neighbour before it
    have hne : l ≠ [] := by
      rintro rfl
      simp at hlen
    refine ⟨l.dropLast, l.getLast hne, [], .inr ?_⟩
    conv_lhs => rw [← List.dropLast_concat_getLast hne]
    simp

theorem plain_of_uniquelyCut {pairs : List (String × Nat)} (h : UniquelyCut pairs)
    (hlen : 2 ≤ pairs.length) : ∀ p ∈ pairs, Plain p := by
  intro p hp
  obtain ⟨l, r, hsplit⟩ := List.append_of_mem hp
  have hone : UniquelyCut [p] := UniquelyCut.of_append (l := l) (r := r) (hsplit ▸ h)
  refine ⟨((uniquelyCut_singleton_iff p.1 p.2).mp hone).1, ?_⟩
  obtain ⟨l, q, r, rfl | rfl⟩ := exists_neighbour hlen hp
  · exact (no_digit_of_uniquelyCut h.of_append).1
  · exact (no_digit_of_uniquelyCut h.of_append).2

/-- **Where the pairs end**: a list can be read back from its text and its
    length exactly if it is readable. -/
theorem uniquelyCut_iff (pairs : List (String × Nat)) : UniquelyCut pairs ↔ Readable pairs := by
  cases pairs with
  | nil =>
    refine ⟨fun _ => trivial, ?_⟩
    intro _ pairs' hlen _
    exact List.length_eq_zero_iff.mp hlen
  | cons p pairs =>
    cases pairs with
    | nil => exact uniquelyCut_singleton_iff p.1 p.2
    | cons q pairs =>
      constructor
      · intro h
        exact plain_of_uniquelyCut h (by simp)
      · intro h pairs' hlen heq
        exact eq_of_plain h hlen heq

/-- Only the empty list writes nothing. -/
theorem writePairs_eq_empty_iff (pairs : List (String × Nat)) :
    writePairs pairs = "" ↔ pairs = [] := by
  constructor
  · intro h
    have hle := (digitCount_writePairs pairs).1
    rw [h] at hle
    exact List.length_eq_zero_iff.mp (Nat.le_zero.mp hle)
  · rintro rfl
    rfl

end Text
