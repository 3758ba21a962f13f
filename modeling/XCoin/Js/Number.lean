import Mathlib.Data.List.TakeWhile
import XCoin.Framework.Binary64
import XCoin.Framework.Text

/-! # JavaScript numbers

    A `Number` is `NaN`, infinite or finite.  Where a computation has an exact
    result, the number it returns is that result, rounded; the rounding is a
    parameter, which is `binary64` in JavaScript and `exact` for statements
    that leave rounding aside.  The two zeros are one here: nothing that
    follows can tell them apart.

    `stringToNumber` is ECMAScript's `StringToNumber`: white space around the
    literal is ignored, the empty string is `0`, and a text that is not a
    numeric literal is `NaN`.

    `lt` is the comparison the relational operators make once both sides are
    numbers; it is false whenever a side is `NaN`.

    `Fraction.text` is `Number::toString` of a number that is no integer: the
    fewest digits that are read back as the number, in the notation that
    ECMAScript chooses for their size.
-/

namespace Js

/-- The values of the type Number. -/
inductive Number where
  | nan
  | inf (negative : Bool)
  | fin (q : ℚ)
deriving DecidableEq

namespace Number

/-! ### Rounding -/

/-- The number that is returned for an exact result. -/
abbrev Rounding : Type := ℚ → Number

/-- No rounding at all. -/
def exact : Rounding := .fin

/-- The rounding of JavaScript. -/
def binary64 : Rounding := fun q =>
  if Binary64.overflows q then .inf (decide (q < 0)) else .fin (Binary64.nearest q)

example : binary64 9007199254740993 = .fin 9007199254740992 := by decide +kernel

/-- Integers up to the bound are not rounded. -/
def ExactUpTo (ρ : Rounding) (bound : Int) : Prop := ∀ n : Int, |n| ≤ bound → ρ n = .fin n

theorem exactUpTo_exact (bound : Int) : ExactUpTo exact bound := fun _ _ => rfl

theorem ExactUpTo.mono {ρ : Rounding} {bound bound' : Int} (h : ExactUpTo ρ bound')
    (hle : bound ≤ bound') : ExactUpTo ρ bound := fun n hn => h n (hn.trans hle)

/-- **Integers up to `2 ^ 53` are exact.** -/
theorem exactUpTo_binary64 : ExactUpTo binary64 (2 ^ 53) := by
  intro n hn
  have hnearest := Binary64.nearest_intCast hn
  have hsmall : |(n : ℚ)| < 2 ^ 1024 := by
    have hcast : |(n : ℚ)| ≤ 2 ^ 53 := by exact_mod_cast hn
    exact lt_of_le_of_lt hcast (pow_lt_pow_right₀ (by norm_num) (by norm_num))
  have hfits : Binary64.overflows n = false := by
    unfold Binary64.overflows
    rw [hnearest]
    exact decide_eq_false (not_le.mpr hsmall)
  unfold binary64
  rw [hfits, hnearest]
  rfl

theorem binary64_of_holds {q : ℚ} (h : Binary64.Holds q) : binary64 q = .fin q := by
  unfold binary64
  rw [h.2, h.1]
  rfl

/-- What was rounded is a number of the format. -/
theorem holds_of_binary64 {q r : ℚ} (h : binary64 q = .fin r) : Binary64.Holds r := by
  unfold binary64 at h
  split at h
  · cases h
  · next hfits =>
    cases h
    exact Binary64.holds_nearest (Bool.eq_false_of_not_eq_true hfits)

/-! ### Arithmetic and comparison -/

/-- The operator `+`. -/
def add (ρ : Rounding) : Number → Number → Number
  | .nan, _        => .nan
  | _, .nan        => .nan
  | .fin a, .fin b => ρ (a + b)
  | .inf s, .inf t => if s = t then .inf s else .nan
  | .inf s, .fin _ => .inf s
  | .fin _, .inf t => .inf t

/-- The operator `-`. -/
def sub (ρ : Rounding) : Number → Number → Number
  | .nan, _        => .nan
  | _, .nan        => .nan
  | .fin a, .fin b => ρ (a - b)
  | .inf s, .inf t => if s = t then .nan else .inf s
  | .inf s, .fin _ => .inf s
  | .fin _, .inf t => .inf (!t)

/-- The operator `<`. -/
def lt : Number → Number → Bool
  | .nan, _        => false
  | _, .nan        => false
  | .fin a, .fin b => decide (a < b)
  | .inf s, .inf t => s && !t
  | .inf s, .fin _ => s
  | .fin _, .inf t => !t

@[simp] theorem lt_nan_left (x : Number) : lt .nan x = false := by
  cases x <;> rfl

/-- How an integer difference compares with small integers: exactly, or it is
    so large that rounding does not matter. -/
theorem sub_binary64_cases (a b : Int) :
    sub binary64 (.fin a) (.fin b) = .fin ((a - b : Int) : ℚ) ∨
    (2 ^ 53 ≤ a - b ∧ (sub binary64 (.fin a) (.fin b) = .inf false ∨
      ∃ q, 2 ^ 52 ≤ q ∧ sub binary64 (.fin a) (.fin b) = .fin q)) ∨
    (a - b ≤ -2 ^ 53 ∧ (sub binary64 (.fin a) (.fin b) = .inf true ∨
      ∃ q, q ≤ -2 ^ 52 ∧ sub binary64 (.fin a) (.fin b) = .fin q)) := by
  have hsub : sub binary64 (.fin a) (.fin b) = binary64 ((a - b : Int) : ℚ) := by
    rw [sub, Int.cast_sub]
  rw [hsub]
  generalize a - b = d
  by_cases hsmall : |d| ≤ 2 ^ 53
  · exact .inl (exactUpTo_binary64 d hsmall)
  right
  rcases abs_cases d with ⟨heq, _⟩ | ⟨heq, _⟩
  · left
    have hlarge : (2 ^ 53 : ℚ) ≤ d := by exact_mod_cast show (2 ^ 53 : Int) ≤ d by omega
    refine ⟨by omega, ?_⟩
    unfold binary64
    split
    · left
      rw [decide_eq_false (not_lt.mpr (le_trans (by norm_num) hlarge))]
    · exact .inr ⟨_, Binary64.le_nearest hlarge, rfl⟩
  · right
    have hlarge : (d : ℚ) ≤ -2 ^ 53 := by exact_mod_cast show d ≤ (-2 ^ 53 : Int) by omega
    refine ⟨by omega, ?_⟩
    unfold binary64
    split
    · left
      rw [decide_eq_true (lt_of_le_of_lt hlarge (by norm_num))]
    · exact .inr ⟨_, Binary64.nearest_le hlarge, rfl⟩

/-- A difference of integers is below a small integer or not, whatever
    rounding does to it. -/
theorem sub_lt_intCast (a b : Int) {k : Int} (hk : |k| ≤ 1000) :
    lt (sub binary64 (.fin a) (.fin b)) (.fin k) = decide (a - b < k) := by
  have hbounds := abs_le.mp hk
  have hcast : (-1000 : ℚ) ≤ k ∧ (k : ℚ) ≤ 1000 := by exact_mod_cast hbounds
  rcases sub_binary64_cases a b with h | ⟨hd, h | ⟨q, hq, h⟩⟩ | ⟨hd, h | ⟨q, hq, h⟩⟩
  · rw [h]
    exact decide_eq_decide.mpr Int.cast_lt
  · rw [h]
    exact (decide_eq_false (by omega)).symm
  · rw [h]
    exact (decide_eq_false (by norm_num at hq; linarith [hcast.2])).trans
      (decide_eq_false (by omega)).symm
  · rw [h]
    exact (decide_eq_true (by omega)).symm
  · rw [h]
    exact (decide_eq_true (by norm_num at hq; linarith [hcast.1])).trans
      (decide_eq_true (by omega)).symm

theorem intCast_lt_sub (a b : Int) {k : Int} (hk : |k| ≤ 1000) :
    lt (.fin k) (sub binary64 (.fin a) (.fin b)) = decide (k < a - b) := by
  have hbounds := abs_le.mp hk
  have hcast : (-1000 : ℚ) ≤ k ∧ (k : ℚ) ≤ 1000 := by exact_mod_cast hbounds
  rcases sub_binary64_cases a b with h | ⟨hd, h | ⟨q, hq, h⟩⟩ | ⟨hd, h | ⟨q, hq, h⟩⟩
  · rw [h]
    exact decide_eq_decide.mpr Int.cast_lt
  · rw [h]
    exact (decide_eq_true (by omega)).symm
  · rw [h]
    exact (decide_eq_true (by norm_num at hq; linarith [hcast.2])).trans
      (decide_eq_true (by omega)).symm
  · rw [h]
    exact (decide_eq_false (by omega)).symm
  · rw [h]
    exact (decide_eq_false (by norm_num at hq; linarith [hcast.1])).trans
      (decide_eq_false (by omega)).symm

/-! ### Numeric literals -/

/-- `WhiteSpace` and `LineTerminator` characters. -/
def isSpace (c : Char) : Bool :=
  c.toNat ∈ [0x9, 0xA, 0xB, 0xC, 0xD, 0x20, 0xA0, 0x1680, 0x2028, 0x2029, 0x202F,
    0x205F, 0x3000, 0xFEFF] || (0x2000 ≤ c.toNat && c.toNat ≤ 0x200A)

/-- A text without the white space around it. -/
def trim (cs : List Char) : List Char :=
  ((cs.dropWhile isSpace).reverse.dropWhile isSpace).reverse

/-- The value of a digit, letters counting from ten. -/
def digitVal (c : Char) : Option Nat :=
  if c.isDigit then some (c.toNat - 48)
  else if c.isLower then some (c.toNat - 87)
  else if c.isUpper then some (c.toNat - 55)
  else none

/-- A non-empty run of digits of the given base. -/
def natLiteral (base : Nat) (cs : List Char) : Option Nat :=
  if cs = [] then none
  else cs.foldlM (fun acc c => do
    let d ← digitVal c
    if d < base then some (acc * base + d) else none) 0

/-- An optional exponent part that ends the literal. -/
def exponent : List Char → Option Int
  | [] => some 0
  | c :: rest =>
    if c = 'e' ∨ c = 'E' then
      match rest with
      | '+' :: ds => (natLiteral 10 ds).map fun n : Nat => (n : Int)
      | '-' :: ds => (natLiteral 10 ds).map fun n : Nat => -(n : Int)
      | ds        => (natLiteral 10 ds).map fun n : Nat => (n : Int)
    else none

/-- The fraction digits of a literal and what follows them. -/
def fraction : List Char → List Char × List Char
  | '.' :: r => (r.takeWhile Char.isDigit, r.dropWhile Char.isDigit)
  | r        => ([], r)

/-- `StrUnsignedDecimalLiteral`, `Infinity` apart. -/
def unsignedDecimal (cs : List Char) : Option ℚ := do
  let ip := cs.takeWhile Char.isDigit
  let (fp, rest) := fraction (cs.dropWhile Char.isDigit)
  let m ← natLiteral 10 (ip ++ fp)
  let e ← exponent rest
  return (m : ℚ) * (10 : ℚ) ^ (e - fp.length)

/-- A literal after its sign. -/
def unsigned (ρ : Rounding) (negative : Bool) (cs : List Char) : Number :=
  if cs = "Infinity".toList then .inf negative
  else match unsignedDecimal cs with
    | some q => ρ (if negative then -q else q)
    | none   => .nan

/-- A literal in hexadecimal, octal or binary, after its prefix. -/
def radix (ρ : Rounding) (base : Nat) (cs : List Char) : Number :=
  match natLiteral base cs with
  | some n => ρ n
  | none   => .nan

/-- `StringNumericLiteral`, the white space around it removed. -/
def literal (ρ : Rounding) : List Char → Number
  | []               => .fin 0
  | '0' :: 'x' :: ds => radix ρ 16 ds
  | '0' :: 'X' :: ds => radix ρ 16 ds
  | '0' :: 'o' :: ds => radix ρ 8 ds
  | '0' :: 'O' :: ds => radix ρ 8 ds
  | '0' :: 'b' :: ds => radix ρ 2 ds
  | '0' :: 'B' :: ds => radix ρ 2 ds
  | '+' :: ds        => unsigned ρ false ds
  | '-' :: ds        => unsigned ρ true ds
  | ds               => unsigned ρ false ds

/-- `StringToNumber`. -/
def stringToNumber (ρ : Rounding) (s : String) : Number :=
  literal ρ (trim s.toList)

example : stringToNumber binary64 " 12.50e1 " = .fin 125 := by decide +kernel

example : stringToNumber binary64 "1e400" = .inf false := by decide +kernel

/-! ### Texts that are not literals -/

theorem trim_cons_of_not_space {c : Char} (cs : List Char) (hc : isSpace c = false) :
    ∃ ds, trim (c :: cs) = c :: ds := by
  -- `c` stops both scans, the one from the front and the one from the end
  have hlast : ((c :: cs).reverse.dropWhile isSpace) ≠ [] := by
    intro hnil
    have hsp := List.dropWhile_eq_nil_iff.mp hnil c (by simp)
    rw [hc] at hsp
    cases hsp
  have hsuf : (c :: cs).reverse.dropWhile isSpace <:+ (c :: cs).reverse :=
    List.dropWhile_suffix _
  have hpre : ((c :: cs).reverse.dropWhile isSpace).reverse <+: c :: cs := by
    rw [← List.reverse_suffix, List.reverse_reverse]
    exact hsuf
  have htrim : trim (c :: cs) = ((c :: cs).reverse.dropWhile isSpace).reverse := by
    unfold trim
    rw [List.dropWhile_cons_of_neg (by simp [hc])]
  rw [htrim]
  cases hrev : ((c :: cs).reverse.dropWhile isSpace).reverse with
  | nil => exact absurd (List.reverse_eq_nil_iff.mp hrev) hlast
  | cons d ds =>
    rw [hrev] at hpre
    exact ⟨ds, by rw [(List.cons_prefix_cons.mp hpre).1]⟩

/-- A text that starts with a bracket is not a number. -/
theorem stringToNumber_bracket (ρ : Rounding) {s : String} {cs : List Char}
    (h : s.toList = '[' :: cs) : stringToNumber ρ s = .nan := by
  obtain ⟨ds, hds⟩ := trim_cons_of_not_space (c := '[') cs (by decide)
  have hdec : unsignedDecimal ('[' :: ds) = none := by
    have hnd : ('[' : Char).isDigit = false := by decide
    simp [unsignedDecimal, hnd, fraction, natLiteral]
  unfold stringToNumber
  rw [h, hds]
  unfold literal unsigned
  simp [hdec]

/-! ### Decimal texts -/

/-- The integer a decimal text stands for: digits, with or without a minus
    sign. -/
def decimal? (s : String) : Option Int :=
  match s.toList with
  | '-' :: ds => (natLiteral 10 ds).map fun (n : Nat) => -(n : Int)
  | ds        => (natLiteral 10 ds).map fun (n : Nat) => (n : Int)

theorem isDigit_of_digitVal {c : Char} {d : Nat} (h : digitVal c = some d) (hd : d < 10) :
    c.isDigit = true := by
  unfold digitVal at h
  by_contra hc
  rw [if_neg hc] at h
  split at h
  · next hlower =>
    have hlow : 'a'.val ≤ c.val := of_decide_eq_true (Bool.and_eq_true_iff.mp hlower).1
    have hbounds : 97 ≤ c.toNat := UInt32.le_iff_toNat_le.mp hlow
    cases h
    omega
  · split at h
    · next hupper =>
      have hlow : 'A'.val ≤ c.val ∧ c.val ≤ 'Z'.val := of_decide_eq_true hupper
      have hbounds : 65 ≤ c.toNat := UInt32.le_iff_toNat_le.mp hlow.1
      cases h
      omega
    · cases h

/-- A literal in base ten has digits only. -/
theorem isDigit_of_natLiteral {cs : List Char} {n : Nat} (h : natLiteral 10 cs = some n) :
    cs ≠ [] ∧ ∀ c ∈ cs, c.isDigit = true := by
  unfold natLiteral at h
  split at h
  · cases h
  · next hne =>
    refine ⟨hne, ?_⟩
    generalize 0 = acc at h
    clear hne
    induction cs generalizing acc with
    | nil => simp
    | cons c cs ih =>
      rw [List.foldlM_cons] at h
      obtain ⟨acc', hacc, hrest⟩ := Option.bind_eq_some_iff.mp h
      obtain ⟨d, hd, hlt⟩ := Option.bind_eq_some_iff.mp hacc
      split at hlt
      · next hten =>
        intro e he
        rcases List.mem_cons.mp he with rfl | he
        · exact isDigit_of_digitVal hd hten
        · exact ih acc' hrest e he
      · cases hlt

theorem not_isSpace_of_isDigit {c : Char} (h : c.isDigit = true) : isSpace c = false := by
  obtain ⟨hlow, hhigh⟩ := Text.toNat_of_isDigit h
  unfold isSpace
  generalize c.toNat = n at hlow hhigh
  simp only [List.mem_cons, List.not_mem_nil, or_false, Bool.or_eq_false_iff,
    decide_eq_false_iff_not, Bool.and_eq_false_iff]
  omega

theorem trim_eq_self {cs : List Char} (h : ∀ c ∈ cs, isSpace c = false) : trim cs = cs := by
  have hdrop (l : List Char) (hl : ∀ c ∈ l, isSpace c = false) : l.dropWhile isSpace = l := by
    cases l with
    | nil => rfl
    | cons c l => simp [hl c (by simp)]
  unfold trim
  rw [hdrop cs h, hdrop cs.reverse (by simpa using h), List.reverse_reverse]

/-- Digits are read as their number, whatever the sign. -/
theorem unsigned_digits (ρ : Rounding) {ds : List Char} {n : Nat} (h : natLiteral 10 ds = some n)
    (negative : Bool) : unsigned ρ negative ds = ρ (if negative then -(n : ℚ) else n) := by
  obtain ⟨hne, hdigits⟩ := isDigit_of_natLiteral h
  have hnotInf : ds ≠ "Infinity".toList := by
    rintro rfl
    exact absurd (hdigits 'I' (by decide)) (by decide)
  have htake : ds.takeWhile Char.isDigit = ds := List.takeWhile_eq_self_iff.mpr hdigits
  have hdrop : ds.dropWhile Char.isDigit = [] := List.dropWhile_eq_nil_iff.mpr hdigits
  have hdecimal : unsignedDecimal ds = some (n : ℚ) := by
    simp [unsignedDecimal, htake, hdrop, fraction, h, exponent]
  unfold unsigned
  rw [if_neg hnotInf, hdecimal]

/-- **A decimal text is read as its integer**, rounded. -/
theorem stringToNumber_decimal (ρ : Rounding) {s : String} {n : Int} (h : decimal? s = some n) :
    stringToNumber ρ s = ρ n := by
  unfold decimal? at h
  unfold stringToNumber
  split at h
  · next ds hs =>
    obtain ⟨m, hm, rfl⟩ := Option.map_eq_some_iff.mp h
    have hdigits := (isDigit_of_natLiteral hm).2
    rw [hs, trim_eq_self (by
      intro c hc
      rcases List.mem_cons.mp hc with rfl | hc
      · decide
      · exact not_isSpace_of_isDigit (hdigits c hc))]
    rw [show literal ρ ('-' :: ds) = unsigned ρ true ds from rfl, unsigned_digits ρ hm, if_pos rfl,
      Rat.intCast_neg]
    rfl
  · next ds _ =>
    obtain ⟨m, hm, rfl⟩ := Option.map_eq_some_iff.mp h
    obtain ⟨hne, hdigits⟩ := isDigit_of_natLiteral hm
    rw [trim_eq_self (fun c hc => not_isSpace_of_isDigit (hdigits c hc))]
    have hliteral : literal ρ s.toList = unsigned ρ false s.toList := by
      -- no sign, no prefix of another base: these have characters that are no digits
      unfold literal
      split <;> simp_all
    rw [hliteral, unsigned_digits ρ hm]
    rfl

/-! ### Decimal notation -/

theorem natLiteral_digits {ds : List Char} (hne : ds ≠ [])
    (h : ∀ c ∈ ds, c.isDigit = true) : natLiteral 10 ds = some (Nat.ofDigitChars 10 ds 0) := by
  unfold natLiteral
  rw [if_neg hne]
  generalize 0 = acc
  clear hne
  induction ds generalizing acc with
  | nil => rfl
  | cons c ds ih =>
    obtain ⟨hc, hds⟩ := List.forall_mem_cons.mp h
    have hbounds := Text.toNat_of_isDigit hc
    have hval : digitVal c = some (c.toNat - 48) := by simp [digitVal, hc]
    rw [List.foldlM_cons, hval, Nat.ofDigitChars_cons]
    have hlt : c.toNat - 48 < 10 := by omega
    simp only [Option.bind_eq_bind, Option.bind_some, hlt, if_true]
    rw [Nat.mul_comm]
    exact ih hds _

/-- The digits of a number, without zeros in front of them. -/
structure IsDigitsOf (n : Nat) (ds : List Char) : Prop where
  digits    : ∀ c ∈ ds, c.isDigit = true
  ne_nil    : ds ≠ []
  head_zero : ds.head? = some '0' → ds = ['0']
  value     : Nat.ofDigitChars 10 ds 0 = n

theorem isDigitsOf_toString (n : Nat) : IsDigitsOf n (toString n).toList where
  digits := fun c hc => Text.isDigit_of_mem_toString hc
  ne_nil := Text.toString_ne_nil n
  head_zero := by
    intro hhead
    rw [Text.eq_zero_of_head hhead]
    rfl
  value := by rw [Text.toList_toString, Nat.ofDigitChars_ten_toDigits]

/-- Zeros in front of digits do not count. -/
theorem ofDigitChars_zeros (k : Nat) (ds : List Char) :
    Nat.ofDigitChars 10 (List.replicate k '0' ++ ds) 0 = Nat.ofDigitChars 10 ds 0 := by
  induction k with
  | zero => rfl
  | succ k ih =>
    rw [List.replicate_succ, List.cons_append, Nat.ofDigitChars_cons]
    exact ih

/-- `s * 10 ^ e` for a negative `e`, in the notation that ECMAScript chooses:
    with a point as long as there are at most five zeros behind it, with an
    exponent otherwise. -/
def pointed (s : Nat) (e : Int) : List Char :=
  let ds := (toString s).toList
  let n : Int := ds.length + e
  if 0 < n then ds.take n.toNat ++ '.' :: ds.drop n.toNat
  else if -6 < n then '0' :: '.' :: (List.replicate (-n).toNat '0' ++ ds)
  else
    let fraction := if ds.tail = [] then [] else '.' :: ds.tail
    ds.take 1 ++ fraction ++ 'e' :: '-' :: (toString (1 - n).toNat).toList

example : pointed 15 (-1) = "1.5".toList := by decide +kernel

example : pointed 15 (-8) = "1.5e-7".toList := by decide +kernel

/-- The text does not go on with a digit. -/
def EndsDigits (rest : List Char) : Prop := ∀ c, rest.head? = some c → c.isDigit = false

/-- Digits are cut off where they end. -/
theorem span_digits {ip rest : List Char} (h : ∀ c ∈ ip, c.isDigit = true)
    (hrest : EndsDigits rest) :
    (ip ++ rest).takeWhile Char.isDigit = ip ∧ (ip ++ rest).dropWhile Char.isDigit = rest := by
  rw [List.takeWhile_append_of_pos h, List.dropWhile_append_of_pos h]
  cases rest with
  | nil => simp
  | cons c rest =>
    have hc := hrest c rfl
    simp [hc]

/-- How a decimal is written: digits, a point with digits behind it or none,
    and an exponent or none. -/
inductive IsDecimal (ip fp rest : List Char) : List Char → Prop where
  | point (hfp : fp ≠ []) : IsDecimal ip fp rest (ip ++ '.' :: (fp ++ rest))
  | whole (hfp : fp = []) (hrest : rest ≠ []) (hpoint : rest.head? ≠ some '.') :
      IsDecimal ip fp rest (ip ++ rest)

/-- A decimal without zeros in front of it that stands for `s * 10 ^ e`. -/
structure IsDecimalOf (s : Nat) (e : Int) (ip fp rest cs : List Char) : Prop where
  written   : IsDecimal ip fp rest cs
  digits    : ∀ c ∈ ip, c.isDigit = true
  ne_nil    : ip ≠ []
  head_zero : ip.head? = some '0' → ip = ['0']
  fraction  : ∀ c ∈ fp, c.isDigit = true
  ends      : EndsDigits rest
  value     : Nat.ofDigitChars 10 (ip ++ fp) 0 = s
  shift     : exponent rest = some (e + fp.length)

namespace IsDecimalOf

variable {s : Nat} {e : Int} {ip fp rest cs : List Char}

/-- A decimal is taken apart into its digits, its fraction and the rest. -/
theorem span (h : IsDecimalOf s e ip fp rest cs) :
    ∃ tail, cs.takeWhile Char.isDigit = ip ∧ cs.dropWhile Char.isDigit = tail ∧
      tail ≠ [] ∧ Number.fraction tail = (fp, rest) ∧ (tail.head? = some '.' → fp ≠ []) := by
  obtain ⟨hwritten, hip, _, _, hfp, hrest, _, _⟩ := h
  cases hwritten with
  | point hne =>
    have hdot : EndsDigits ('.' :: (fp ++ rest)) := by
      intro c hc
      cases hc
      decide
    obtain ⟨htake, hdrop⟩ := span_digits hip hdot
    obtain ⟨htake', hdrop'⟩ := span_digits hfp hrest
    exact ⟨_, htake, hdrop, by simp, by rw [Number.fraction, htake', hdrop'], fun _ => hne⟩
  | whole hempty hne hpoint =>
    subst hempty
    obtain ⟨htake, hdrop⟩ := span_digits hip hrest
    refine ⟨_, htake, hdrop, hne, ?_, fun hdot => absurd hdot hpoint⟩
    unfold Number.fraction
    split
    · exact absurd rfl hpoint
    · rfl

/-- It is read as what it stands for. -/
theorem unsignedDecimal_eq (h : IsDecimalOf s e ip fp rest cs) :
    unsignedDecimal cs = some ((s : ℚ) * 10 ^ e) := by
  have hlit : natLiteral 10 (ip ++ fp) = some s := by
    rw [natLiteral_digits (by simp [h.ne_nil]) (List.forall_mem_append.mpr
      ⟨h.digits, h.fraction⟩), h.value]
  obtain ⟨tail, htake, hdrop, _, hfraction, _⟩ := h.span
  simp only [unsignedDecimal, htake, hdrop, hfraction, hlit, h.shift]
  show some ((s : ℚ) * 10 ^ (e + fp.length - fp.length)) = _
  rw [Int.add_sub_cancel]

/-- It starts with a digit. -/
theorem exists_digit_cons (h : IsDecimalOf s e ip fp rest cs) :
    ∃ d tail, cs = d :: tail ∧ d.isDigit = true := by
  obtain ⟨d, ds, rfl⟩ := List.exists_cons_of_ne_nil h.ne_nil
  have hd := h.digits d List.mem_cons_self
  cases h.written with
  | point => exact ⟨d, _, rfl, hd⟩
  | whole => exact ⟨d, _, rfl, hd⟩

end IsDecimalOf

theorem exponent_minus (j : Nat) :
    exponent ('e' :: '-' :: (toString j).toList) = some (-(j : Int)) := by
  have hj := isDigitsOf_toString j
  have hlit : natLiteral 10 (toString j).toList = some j := by
    rw [natLiteral_digits hj.ne_nil hj.digits, hj.value]
  rw [exponent, if_pos (.inl rfl)]
  show Option.map (fun n : Nat => -(n : Int)) (natLiteral 10 (toString j).toList) = _
  rw [hlit, Option.map_some]

/-! The three notations, for digits `ds` of `s`. -/

section Notations

variable {s : Nat} {e : Int} {ds : List Char}

theorem endsDigits_nil : EndsDigits [] := by simp [EndsDigits]

/-- The point is between two digits. -/
theorem isDecimalOf_between (h : IsDigitsOf s ds) {n : Nat} (hpos : 0 < n) (hlt : n < ds.length)
    (he : ds.length + e = n) :
    IsDecimalOf s e (ds.take n) (ds.drop n) [] (ds.take n ++ '.' :: ds.drop n) where
  written := by
    have hdrop : ds.drop n ≠ [] := List.ne_nil_of_length_pos (by rw [List.length_drop]; omega)
    simpa using @IsDecimal.point (ds.take n) (ds.drop n) [] hdrop
  digits := fun c hc => h.digits c (List.mem_of_mem_take hc)
  ne_nil := List.ne_nil_of_length_pos (by rw [List.length_take]; omega)
  head_zero := by
    intro hhead
    rw [List.head?_take, if_neg hpos.ne'] at hhead
    rw [h.head_zero hhead, List.length_singleton] at hlt
    omega
  fraction := fun c hc => h.digits c (List.mem_of_mem_drop hc)
  ends := endsDigits_nil
  value := by rw [List.take_append_drop, h.value]
  shift := by
    rw [exponent, List.length_drop]
    congr 1
    omega

/-- The point is in front of the digits, with zeros between. -/
theorem isDecimalOf_front (h : IsDigitsOf s ds) {k : Nat} (he : (k : Int) + ds.length + e = 0) :
    IsDecimalOf s e ['0'] (List.replicate k '0' ++ ds) []
      ('0' :: '.' :: (List.replicate k '0' ++ ds)) where
  written := by
    have hfp : List.replicate k '0' ++ ds ≠ [] := by simp [h.ne_nil]
    simpa using @IsDecimal.point ['0'] _ [] hfp
  digits := by simp
  ne_nil := by simp
  head_zero := fun _ => rfl
  fraction := by
    intro c hc
    rcases List.mem_append.mp hc with hc | hc
    · rw [List.eq_of_mem_replicate hc]
      decide
    · exact h.digits c hc
  ends := endsDigits_nil
  value := by
    have hzeros : ['0'] ++ (List.replicate k '0' ++ ds) = List.replicate (k + 1) '0' ++ ds := by
      rw [List.replicate_succ]
      rfl
    rw [hzeros, ofDigitChars_zeros, h.value]
  shift := by
    rw [exponent, List.length_append, List.length_replicate]
    congr 1
    omega

/-- There is an exponent, and a point behind the first digit if there are
    more. -/
theorem isDecimalOf_exponent {d : Char} {tail : List Char} (h : IsDigitsOf s (d :: tail)) {j : Nat}
    (he : -(j : Int) = e + tail.length) :
    IsDecimalOf s e [d] tail ('e' :: '-' :: (toString j).toList)
      ([d] ++ (if tail = [] then [] else '.' :: tail) ++ 'e' :: '-' :: (toString j).toList) where
  written := by
    by_cases hempty : tail = []
    · subst hempty
      simpa using @IsDecimal.whole [d] [] ('e' :: '-' :: (toString j).toList)
        rfl (by simp) (by simp)
    · simpa [hempty] using @IsDecimal.point [d] tail
        ('e' :: '-' :: (toString j).toList) hempty
  digits := by simpa using h.digits d List.mem_cons_self
  ne_nil := by simp
  head_zero := by
    intro hhead
    simpa using hhead
  fraction := fun c hc => h.digits c (List.mem_cons_of_mem d hc)
  ends := by
    intro c hc
    cases hc
    decide
  value := h.value
  shift := by rw [exponent_minus, he]

end Notations

/-- **The notation is a decimal** that stands for its digits, shifted. -/
theorem pointed_decimal (s : Nat) {e : Int} (he : e < 0) :
    ∃ ip fp rest, IsDecimalOf s e ip fp rest (pointed s e) := by
  have hs := isDigitsOf_toString s
  unfold pointed
  generalize (toString s).toList = ds at hs
  dsimp only
  split
  · next hn =>
    exact ⟨_, _, _, isDecimalOf_between hs (by omega) (by omega) (by omega)⟩
  · split
    · exact ⟨_, _, _, isDecimalOf_front hs (by omega)⟩
    · next hn _ =>
      obtain ⟨d, tail, rfl⟩ := List.exists_cons_of_ne_nil hs.ne_nil
      rw [List.length_cons] at hn
      exact ⟨_, _, _, isDecimalOf_exponent hs (by rw [List.length_cons]; omega)⟩

/-! ### The digits of a number -/

/-- The two decimals of `k` digits around a positive number, the nearer one
    first, the one with the even last digit if they are equally near. -/
def candidates (x : ℚ) (k : Nat) : List (Nat × Int) :=
  let e := Int.log 10 x + 1 - k
  let s := ⌊x / 10 ^ e⌋.toNat
  let below := x - s * 10 ^ e
  let above := (s + 1) * 10 ^ e - x
  if below < above ∨ (below = above ∧ s % 2 = 0) then [(s, e), (s + 1, e)]
  else [(s + 1, e), (s, e)]

/-- All digits of a number of the format that is no integer. -/
def allDigits (x : ℚ) : Nat × Int :=
  let k := (-Binary64.exponent x).toNat
  ((Binary64.roundEven (x / Binary64.ulp x)).natAbs * 5 ^ k, -k)

/-- The decimal is read as `x`, with the sign of `x` in front of it. -/
def ReadsAs (x : ℚ) (d : Nat × Int) : Prop :=
  d.2 < 0 ∧ binary64 (if x < 0 then -(d.1 * 10 ^ d.2) else d.1 * 10 ^ d.2) = .fin x

instance (x : ℚ) (d : Nat × Int) : Decidable (ReadsAs x d) :=
  inferInstanceAs (Decidable (_ ∧ _))

/-- The fewest digits that are read back as the number.  Seventeen always
    suffice, so the search does not come to the alternative. -/
def shortest (x : ℚ) : Nat × Int :=
  (((List.range 17).flatMap fun k => candidates |x| (k + 1)).find? fun d =>
    decide (ReadsAs x d)).getD (allDigits x)

/-- The exponent of a number of the format is negative unless the number is an
    integer. -/
theorem exponent_neg {x : ℚ} (hint : x.den ≠ 1) (h : Binary64.Holds x) :
    Binary64.exponent x < 0 := by
  by_contra hge
  obtain ⟨j, hj⟩ := Int.eq_ofNat_of_zero_le (not_lt.mp hge)
  have hcast : x = ((Binary64.roundEven (x / Binary64.ulp x) * 2 ^ j : Int) : ℚ) := by
    nth_rewrite 1 [← h.1]
    rw [Binary64.nearest, Binary64.ulp, hj]
    push_cast
    rfl
  exact hint (hcast ▸ Rat.den_intCast _)

theorem allDigits_eq {x : ℚ} (hint : x.den ≠ 1) (h : Binary64.Holds x) :
    (allDigits x).2 < 0 ∧ ((allDigits x).1 : ℚ) * 10 ^ (allDigits x).2 = |x| := by
  have hneg := exponent_neg hint h
  have hx : (Binary64.roundEven (x / Binary64.ulp x) : ℚ) * 2 ^ Binary64.exponent x = x := h.1
  obtain ⟨k, hk⟩ := Int.eq_ofNat_of_zero_le (neg_nonneg.mpr hneg.le)
  have hexp : Binary64.exponent x = -(k : Int) := by omega
  have hdigits : allDigits x =
      ((Binary64.roundEven (x / Binary64.ulp x)).natAbs * 5 ^ k, -(k : Int)) := by
    rw [allDigits, hk]
    rfl
  generalize Binary64.roundEven (x / Binary64.ulp x) = m at hx hdigits
  rw [hdigits]
  refine ⟨by show -(k : Int) < 0; omega, ?_⟩
  calc ((m.natAbs * 5 ^ k : Nat) : ℚ) * 10 ^ (-(k : Int))
      = |(m : ℚ)| * 5 ^ k * ((2 * 5) ^ k)⁻¹ := by
        rw [zpow_neg, zpow_natCast]
        push_cast [Nat.cast_natAbs]
        norm_num
    _ = |(m : ℚ)| * (2 ^ k)⁻¹ := by
        rw [mul_pow]
        field_simp
    _ = |x| := by
        have hpos : (0 : ℚ) < (2 ^ k)⁻¹ := by positivity
        rw [← hx, hexp, zpow_neg, zpow_natCast, abs_mul, abs_of_pos hpos]

/-- **The digits are read back.** -/
theorem shortest_reads {x : ℚ} (hint : x.den ≠ 1) (h : Binary64.Holds x) :
    ReadsAs x (shortest x) := by
  unfold shortest
  cases hfind : ((List.range 17).flatMap fun k => candidates |x| (k + 1)).find? fun d =>
      decide (ReadsAs x d) with
  | none =>
    obtain ⟨hneg, hvalue⟩ := allDigits_eq hint h
    have hsigned : (if x < 0 then -|x| else |x|) = x := by
      split
      · next hx => rw [abs_of_neg hx, neg_neg]
      · next hx => exact abs_of_nonneg (not_lt.mp hx)
    refine ⟨hneg, ?_⟩
    rw [Option.getD_none, hvalue, hsigned]
    exact binary64_of_holds h
  | some d =>
    have hreads := List.find?_some hfind
    rw [Option.getD_some]
    exact of_decide_eq_true hreads

/-- The characters that numbers are written with. -/
def isNumeric (c : Char) : Bool := c.isDigit || c ∈ ['.', 'e', 'E', '+', '-']

theorem isNumeric_of_isDigit {c : Char} (h : c.isDigit = true) : isNumeric c = true := by
  simp [isNumeric, h]

theorem isNumeric_pointed {s : Nat} {e : Int} : ∀ c ∈ pointed s e, isNumeric c = true := by
  have hdigits (n : Nat) : ∀ c ∈ (toString n).toList, isNumeric c = true :=
    fun c hc => isNumeric_of_isDigit (Text.isDigit_of_mem_toString hc)
  have hs := hdigits s
  unfold pointed
  generalize (toString s).toList = ds at hs
  dsimp only
  split
  · rw [List.forall_mem_append, List.forall_mem_cons]
    exact ⟨fun c hc => hs c (List.mem_of_mem_take hc), by decide,
      fun c hc => hs c (List.mem_of_mem_drop hc)⟩
  · split
    · simp only [List.forall_mem_cons, List.forall_mem_append]
      refine ⟨by decide, by decide, ?_, hs⟩
      intro c hc
      rw [List.eq_of_mem_replicate hc]
      decide
    · simp only [List.forall_mem_cons, List.forall_mem_append]
      refine ⟨⟨fun c hc => hs c (List.mem_of_mem_take hc), ?_⟩, by decide, by decide,
        hdigits _⟩
      split
      · simp
      · rw [List.forall_mem_cons]
        exact ⟨by decide, fun c hc => hs c (List.mem_of_mem_tail hc)⟩

end Number

/-! ### Fractions -/

/-- The finite numbers that are no integers. -/
structure Fraction where
  val    : ℚ
  den_ne : val.den ≠ 1
  holds  : Binary64.Holds val
deriving DecidableEq

namespace Fraction

/-- The digits of `Number::toString`, after the sign. -/
def digits (f : Fraction) : List Char :=
  Number.pointed (Number.shortest f.val).1 (Number.shortest f.val).2

/-- `Number::toString`. -/
def text (f : Fraction) : String :=
  String.ofList (if f.val < 0 then '-' :: f.digits else f.digits)

example : (Fraction.mk (-1 / 2) (by decide +kernel) (by decide +kernel)).text = "-0.5" := by
  decide +kernel

end Fraction

end Js
