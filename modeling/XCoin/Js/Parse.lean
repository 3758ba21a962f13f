import XCoin.Framework.Text
import XCoin.Js.Json

/-! # Reading JSON texts

    `parse` is `JSON.parse`.  Strings here have no lone surrogates, so an
    escaped one is not read, like a text that is not JSON.  A number without
    fraction and exponent is an integer and read as such; any other number is
    rounded.

    Properties are defined one after the other, as `JSON.parse` does it: a key
    that is already there keeps its place, and array indices come before all
    other keys, in ascending order.

    The scanners of strings and numbers are shown to read back what
    `stringify` writes; `Js/RoundTrip.lean` does this for whole values.
-/

namespace Js.Json

open Value Throwing

variable {κ : Type}

/-! ### Defining properties -/

/-- `CreateDataProperty`: the own properties with one more defined. -/
def defineField (key : String) (v : Value κ) :
    List (String × Value κ) → List (String × Value κ)
  | [] => [(key, v)]
  | (k, u) :: fs =>
    if k = key then (k, v) :: fs
    else if comesBefore key k then (key, v) :: (k, u) :: fs
    else (k, u) :: defineField key v fs

/-! ### Scanning -/

/-- The white space of JSON. -/
def isBlank (c : Char) : Bool := c = ' ' || c = '\t' || c = '\n' || c = '\r'

def skipBlanks (cs : List Char) : List Char := cs.dropWhile isBlank

/-- The text after the punctuator `c`, if that comes next. -/
def after (c : Char) (cs : List Char) : Option (List Char) :=
  match skipBlanks cs with
  | []        => none
  | d :: rest => if d = c then some rest else none

/-- The code unit that four hexadecimal digits stand for. -/
def codeUnit (a b c d : Char) : Option Nat := Number.natLiteral 16 [a, b, c, d]

/-- The character of an escape of two characters. -/
def unescape (c : Char) : Option Char :=
  if c = '"' ∨ c = '\\' ∨ c = '/' then some c
  else if c = 'b' then some (Char.ofNat 8)
  else if c = 't' then some '\t'
  else if c = 'n' then some '\n'
  else if c = 'f' then some (Char.ofNat 12)
  else if c = 'r' then some '\r'
  else none

/-- The characters of a string up to its closing quote, and the text behind
    it. -/
def scanString : List Char → Option (List Char × List Char)
  | [] => none
  | '"' :: cs => some ([], cs)
  | '\\' :: 'u' :: a :: b :: c :: d :: cs => do
      let unit ← codeUnit a b c d
      if 0xD800 ≤ unit ∧ unit < 0xDC00 then
        -- the first half of a pair
        match cs with
        | '\\' :: 'u' :: a' :: b' :: c' :: d' :: cs => do
            let low ← codeUnit a' b' c' d'
            if 0xDC00 ≤ low ∧ low < 0xE000 then
              let (s, rest) ← scanString cs
              return (Char.ofNat (0x10000 + (unit - 0xD800) * 0x400 + (low - 0xDC00)) :: s, rest)
            else none
        | _ => none
      else if 0xDC00 ≤ unit ∧ unit < 0xE000 then none
      else
        let (s, rest) ← scanString cs
        return (Char.ofNat unit :: s, rest)
  | '\\' :: e :: cs => do
      let c ← unescape e
      let (s, rest) ← scanString cs
      return (c :: s, rest)
  | c :: cs => do
      if c.toNat < 32 then none
      let (s, rest) ← scanString cs
      return (c :: s, rest)

/-- A number without its sign: digits without a leading zero, then a point
    with digits behind it or none, then an exponent or none. -/
def scanUnsigned (negative : Bool) (cs : List Char) : Option (Value κ) :=
  let digits := cs.takeWhile Char.isDigit
  let rest := cs.dropWhile Char.isDigit
  if digits = [] ∨ (digits.head? = some '0' ∧ digits ≠ ['0']) then none
  else if rest = [] then
    let n : Int := Nat.ofDigitChars 10 digits 0
    some (.num (if negative then -n else n))
  else if rest.head? = some '.' ∧ (Number.fraction rest).1 = [] then none
  else (Number.unsignedDecimal cs).map fun q =>
    ofNumber (.binary64 (if negative then -q else q))

/-- A number and the text behind it. -/
def scanNumber (cs : List Char) : Option (Value κ × List Char) :=
  let rest := cs.dropWhile Number.isNumeric
  let value := match cs.takeWhile Number.isNumeric with
    | '-' :: ds => scanUnsigned true ds
    | ds        => scanUnsigned false ds
  value.map fun v => (v, rest)

/-- A literal name and the text behind it. -/
def scanName : List Char → Option (Value κ × List Char)
  | 'n' :: 'u' :: 'l' :: 'l' :: cs        => some (.null, cs)
  | 't' :: 'r' :: 'u' :: 'e' :: cs        => some (.bool true, cs)
  | 'f' :: 'a' :: 'l' :: 's' :: 'e' :: cs => some (.bool false, cs)
  | _                                     => none

/-! ### Reading values -/

mutual

/-- A value and the text behind it. -/
def parseValue : Nat → List Char → Option (Value κ × List Char)
  | 0, _ => none
  | fuel + 1, cs =>
    match skipBlanks cs with
    | [] => none
    | c :: cs =>
      if c = '"' then (scanString cs).map fun (s, rest) => (.str (String.ofList s), rest)
      else if c = '[' then
        match after ']' cs with
        | some rest => some (.arr [], rest)
        | none => (parseElems fuel cs).map fun (vs, rest) => (.arr vs, rest)
      else if c = '\x7b' then
        match after '\x7d' cs with
        | some rest => some (.obj none [], rest)
        | none => (parseFields fuel [] cs).map fun (fs, rest) => (.obj none fs, rest)
      else if c = '-' ∨ c.isDigit then scanNumber (c :: cs)
      else scanName (c :: cs)

/-- The elements of an array, its closing bracket, and the text behind it. -/
def parseElems : Nat → List Char → Option (List (Value κ) × List Char)
  | 0, _ => none
  | fuel + 1, cs => do
      let (v, cs) ← parseValue fuel cs
      match after ',' cs with
      | some cs => do
          let (vs, rest) ← parseElems fuel cs
          return (v :: vs, rest)
      | none => do
          let rest ← after ']' cs
          return ([v], rest)

/-- The properties of an object, defined after those in `fs`. -/
def parseFields : Nat → List (String × Value κ) → List Char →
    Option (List (String × Value κ) × List Char)
  | 0, _, _ => none
  | fuel + 1, fs, cs => do
      let cs ← after '"' cs
      let (key, cs) ← scanString cs
      let cs ← after ':' cs
      let (v, cs) ← parseValue fuel cs
      let fs := defineField (String.ofList key) v fs
      match after ',' cs with
      | some cs => parseFields fuel fs cs
      | none => do
          let rest ← after '\x7d' cs
          return (fs, rest)

end

/-- `JSON.parse`; `none` where it throws. -/
def parse (text : String) : Option (Value κ) := do
  let (v, rest) ← parseValue (2 * text.toList.length + 1) text.toList
  if skipBlanks rest = [] then return v else none

/-! ### Scanning what was written -/

theorem skipBlanks_cons {c : Char} (hc : isBlank c = false) (cs : List Char) :
    skipBlanks (c :: cs) = c :: cs := by
  simp [skipBlanks, hc]

theorem after_self {c : Char} (hc : isBlank c = false) (rest : List Char) :
    after c (c :: rest) = some rest := by
  simp [after, skipBlanks_cons hc]

theorem after_of_ne {c d : Char} (hd : isBlank d = false) (hne : d ≠ c) (rest : List Char) :
    after c (d :: rest) = none := by
  simp [after, skipBlanks_cons hd, hne]

/-- The code of a control character is read back. -/
theorem codeUnit_control : ∀ n < 32,
    codeUnit '0' '0' (hexDigit (n / 16)) (hexDigit n) = some n := by
  decide

/-- A short escape is read back. -/
theorem scanString_short {e c : Char} (hne : e ≠ 'u') (he : unescape e = some c)
    {cs s rest : List Char} (h : scanString cs = some (s, rest)) :
    scanString ('\\' :: e :: cs) = some (c :: s, rest) := by
  simp [scanString, hne, he, h]

/-- The escape of a character is read back. -/
theorem scanString_escape (c : Char) {cs s rest : List Char}
    (h : scanString cs = some (s, rest)) : scanString (escape c ++ cs) = some (c :: s, rest) := by
  have hchar {n : Nat} (hn : c.toNat = n) : c = Char.ofNat n := by
    rw [← hn, Char.ofNat_toNat]
  unfold escape
  split_ifs with hquote hslash h8 h9 h10 h12 h13 hcontrol
  · exact scanString_short (by decide) (by rw [hquote]; decide) h
  · exact scanString_short (by decide) (by rw [hslash]; decide) h
  · exact scanString_short (by decide) (by rw [hchar h8]; decide) h
  · exact scanString_short (by decide) (by rw [hchar h9]; decide) h
  · exact scanString_short (by decide) (by rw [hchar h10]; decide) h
  · exact scanString_short (by decide) (by rw [hchar h12]; decide) h
  · exact scanString_short (by decide) (by rw [hchar h13]; decide) h
  · -- the other control characters are written with their code
    have hcode := codeUnit_control c.toNat hcontrol
    have hhigh : ¬ (0xD800 ≤ c.toNat ∧ c.toNat < 0xDC00) := by omega
    have hlow : ¬ (0xDC00 ≤ c.toNat ∧ c.toNat < 0xE000) := by omega
    simp [scanString, hcode, hhigh, hlow, h]
  · simp [scanString, h, hslash, hcontrol]

/-- The characters of a quoted string are read back. -/
theorem scanString_quote (s : List Char) (rest : List Char) :
    scanString (s.flatMap escape ++ '"' :: rest) = some (s, rest) := by
  induction s with
  | nil => rfl
  | cons c s ih =>
    rw [List.flatMap_cons, List.append_assoc]
    exact scanString_escape c ih

/-- A number ends before `rest`. -/
def Stops (rest : List Char) : Prop :=
  ∀ c, rest.head? = some c → Number.isNumeric c = false

theorem stops_nil : Stops [] := by simp [Stops]

theorem stops_cons {c : Char} (hc : Number.isNumeric c = false) (rest : List Char) :
    Stops (c :: rest) := by
  intro d hd
  obtain rfl : c = d := by simpa using hd
  exact hc

/-- A number ends where its characters end. -/
theorem span_numeric {cs rest : List Char} (hcs : ∀ c ∈ cs, Number.isNumeric c = true)
    (h : Stops rest) : (cs ++ rest).takeWhile Number.isNumeric = cs ∧
      (cs ++ rest).dropWhile Number.isNumeric = rest := by
  rw [List.takeWhile_append_of_pos hcs, List.dropWhile_append_of_pos hcs]
  cases rest with
  | nil => simp
  | cons c rest =>
    have hc := h c rfl
    simp [hc]

/-- The texts of numbers: a sign or none, a digit, and characters of numbers. -/
def IsNumeral (negative : Bool) (ds cs : List Char) : Prop :=
  cs = (if negative then '-' :: ds else ds) ∧ (∃ d tail, ds = d :: tail ∧ d.isDigit = true) ∧
    ∀ c ∈ ds, Number.isNumeric c = true

/-- A number is read from its sign and its digits. -/
theorem IsNumeral.scanNumber_eq {negative : Bool} {ds cs rest : List Char}
    (h : IsNumeral negative ds cs) (hrest : Stops rest) :
    scanNumber (cs ++ rest) = (scanUnsigned negative ds : Option (Value κ)).map fun v =>
      (v, rest) := by
  obtain ⟨rfl, ⟨d, tail, rfl, hd⟩, hds⟩ := h
  cases negative with
  | true =>
    obtain ⟨htake, hdrop⟩ := span_numeric
      (List.forall_mem_cons.mpr ⟨show Number.isNumeric '-' = true by decide, hds⟩) hrest
    simp only [scanNumber, if_true, htake, hdrop]
  | false =>
    obtain ⟨htake, hdrop⟩ := span_numeric hds hrest
    have hne : d ≠ '-' := by
      rintro rfl
      exact absurd hd (by decide)
    simp only [scanNumber, Bool.false_eq_true, if_false, htake, hdrop]
    split
    · next heq =>
      exact absurd (List.cons.inj heq).1 hne
    · rfl

/-- The text of a number starts with a digit or a sign, and not like
    anything else. -/
theorem IsNumeral.exists_cons {negative : Bool} {ds cs : List Char}
    (h : IsNumeral negative ds cs) :
    ∃ c tail, cs = c :: tail ∧ (c = '-' ∨ c.isDigit = true) ∧
      isBlank c = false ∧ c ∉ ['"', '[', '\x7b', ']'] := by
  obtain ⟨rfl, ⟨d, tail, rfl, hd⟩, _⟩ := h
  obtain ⟨c, cs, hcs, hc⟩ : ∃ c cs, (if negative then '-' :: d :: tail else d :: tail) = c :: cs ∧
      (c = '-' ∨ c.isDigit = true) := by
    cases negative with
    | true => exact ⟨_, _, rfl, .inl rfl⟩
    | false => exact ⟨_, _, rfl, .inr hd⟩
  have hne (d : Char) (hd : ¬ (d = '-' ∨ d.isDigit = true)) : c ≠ d := by
    rintro rfl
    exact hd hc
  refine ⟨c, cs, hcs, hc, ?_, ?_⟩
  · simp [isBlank, hne ' ' (by decide), hne '\t' (by decide), hne '\n' (by decide),
      hne '\r' (by decide)]
  · simp [hne '"' (by decide), hne '[' (by decide), hne '\x7b' (by decide), hne ']' (by decide)]

/-- Digits are read as their number. -/
theorem scanUnsigned_toString (negative : Bool) (n : Nat) :
    scanUnsigned negative (toString n).toList =
      some (.num (if negative then -(n : Int) else n) : Value κ) := by
  have hn := Number.isDigitsOf_toString n
  unfold scanUnsigned
  rw [List.takeWhile_eq_self_iff.mpr hn.digits, List.dropWhile_eq_nil_iff.mpr hn.digits, if_neg,
    if_pos rfl, hn.value]
  rintro (hnil | ⟨hhead, hne⟩)
  · exact hn.ne_nil hnil
  · exact hne (hn.head_zero hhead)

theorem isNumeral_toString (n : Nat) (negative : Bool) : IsNumeral negative (toString n).toList
    (if negative then '-' :: (toString n).toList else (toString n).toList) := by
  refine ⟨rfl, Text.exists_digit_cons n, ?_⟩
  intro c hc
  exact Number.isNumeric_of_isDigit (Text.isDigit_of_mem_toString hc)

/-- Integers are read back. -/
theorem exists_isNumeral (n : Int) : ∃ negative ds, IsNumeral negative ds (toString n).toList ∧
    scanUnsigned negative ds = some (.num n : Value κ) := by
  cases n with
  | ofNat m =>
    have htext : (toString (Int.ofNat m)).toList = (toString m).toList := rfl
    refine ⟨false, (toString m).toList, ?_, scanUnsigned_toString false m⟩
    rw [htext]
    exact isNumeral_toString m false
  | negSucc m =>
    have htext : (toString (Int.negSucc m)).toList = '-' :: (toString (m + 1)).toList :=
      String.toList_append
    refine ⟨true, (toString (m + 1)).toList, ?_, scanUnsigned_toString true (m + 1)⟩
    rw [htext]
    exact isNumeral_toString (m + 1) true

/-- So are fractions. -/
theorem exists_isNumeral_frac (f : Fraction) :
    ∃ negative ds, IsNumeral negative ds f.text.toList ∧
      scanUnsigned negative ds = some (.frac f : Value κ) := by
  obtain ⟨hneg, hreads⟩ := Number.shortest_reads f.den_ne f.holds
  obtain ⟨ip, fp, rest, hdecimal⟩ := Number.pointed_decimal (Number.shortest f.val).1 hneg
  refine ⟨decide (f.val < 0), f.digits, ⟨?_, hdecimal.exists_digit_cons,
    Number.isNumeric_pointed⟩, ?_⟩
  · rw [Fraction.text, String.toList_ofList]
    simp only [decide_eq_true_eq]
  · obtain ⟨tail, htake, hdrop, htail, hfraction, hpoint⟩ := hdecimal.span
    have hlead : ¬ (ip = [] ∨ (ip.head? = some '0' ∧ ip ≠ ['0'])) := by
      rintro (hnil | ⟨hhead, hne⟩)
      · exact hdecimal.ne_nil hnil
      · exact hne (hdecimal.head_zero hhead)
    have hdot : ¬ (tail.head? = some '.' ∧ (Number.fraction tail).1 = []) := by
      rintro ⟨hhead, hempty⟩
      rw [hfraction] at hempty
      exact hpoint hhead hempty
    unfold scanUnsigned Fraction.digits
    rw [htake, hdrop, if_neg hlead, if_neg htail, if_neg hdot, hdecimal.unsignedDecimal_eq,
      Option.map_some]
    simp only [decide_eq_true_eq]
    rw [hreads, ofNumber_frac]

end Js.Json
