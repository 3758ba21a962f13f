import XCoin.Framework.Throwing
import XCoin.Js.Number

/-! # JavaScript values

    The values a JavaScript program without closures handles: primitives,
    arrays, and objects that are plain or instances of a class.  `κ` is the
    set of classes of the program; a class decides which methods an object
    has and nothing else.

    The operators follow ECMAScript: `+` first brings both operands to
    primitives, concatenates when one of them is a string and adds otherwise,
    and refuses to mix `BigInt` with numbers.  An object whose own property
    `toString` hides the inherited method cannot be brought to a primitive,
    since no value of this type is callable.

    Integers stand apart from the other finite numbers, since the counters and
    amounts of a program are integers.  Arithmetic rounds its results, as far
    as its rounding goes; texts have all digits of an integer, as they do in
    JavaScript up to `2 ^ 53`.
-/

namespace Js

/-- The exceptions a run can meet: the engine's own, and `new Error(message)`. -/
inductive JsError where
  | typeError
  | rangeError
  | error (message : String)
deriving DecidableEq, Repr

/-- A computation that may throw. -/
abbrev Result (α : Type) : Type := Except JsError α

/-- JavaScript values over the classes `κ`. -/
inductive Value (κ : Type) where
  | undefined
  | null
  | bool (b : Bool)
  | num (n : Int)
  | frac (f : Fraction)
  | inf (negative : Bool)
  | nan
  | bigint (n : Int)
  | str (s : String)
  | arr (elems : List (Value κ))
  /-- An object: its class (`none` for a plain object) and its own properties
      in property order. -/
  | obj (cls : Option κ) (fields : List (String × Value κ))

namespace Value

open Throwing

variable {κ : Type}

/-! ### Reading values -/

/-- The condition of `if (v)`. -/
def truthy : Value κ → Bool
  | .undefined => false
  | .null      => false
  | .bool b    => b
  | .num n     => decide (n ≠ 0)
  | .frac _    => true
  | .inf _     => true
  | .nan       => false
  | .bigint n  => decide (n ≠ 0)
  | .str s     => decide (s ≠ "")
  | .arr _     => true
  | .obj _ _   => true

/-- The value of an own property, `undefined` when there is none. -/
def field (fields : List (String × Value κ)) (key : String) : Value κ :=
  (fields.lookup key).getD .undefined

/-! ### Property order -/

/-- The number of a key that is an array index, the numeral of a number below
    `2 ^ 32 - 1`. -/
def arrayIndex? (key : String) : Option Nat :=
  let n := Nat.ofDigitChars 10 key.toList 0
  if toString n = key ∧ n < 4294967295 then some n else none

/-- Must the key come before the other one, whichever was defined first? -/
def comesBefore (key other : String) : Bool :=
  match arrayIndex? key, arrayIndex? other with
  | some m, some n => decide (m < n)
  | some _, none   => true
  | none, _        => false

/-- Keys in property order, each once. -/
def InOrder (keys : List String) : Prop :=
  keys.Pairwise fun k l => k ≠ l ∧ comesBefore l k = false

instance (keys : List String) : Decidable (InOrder keys) :=
  inferInstanceAs (Decidable (keys.Pairwise _))

theorem InOrder.nodup {keys : List String} (h : InOrder keys) : keys.Nodup :=
  h.imp fun hkeys => hkeys.1

/-! ### Strings, properties and comparison -/

/-- The number of UTF-16 code units of a string. -/
def utf16Length (s : String) : Nat :=
  s.toList.foldl (fun n c => n + if c.toNat < 0x10000 then 1 else 2) 0

/-- Only the empty string has length zero. -/
theorem utf16Length_pos {s : String} (h : s ≠ "") : 0 < utf16Length s := by
  have hgrows (cs : List Char) (n : Nat) :
      n ≤ cs.foldl (fun n c => n + if c.toNat < 0x10000 then 1 else 2) n := by
    induction cs generalizing n with
    | nil => exact Nat.le_refl n
    | cons c cs ih => exact Nat.le_trans (Nat.le_add_right _ _) (ih _)
  unfold utf16Length
  cases hs : s.toList with
  | nil => exact absurd (String.toList_eq_nil_iff.mp hs) h
  | cons c cs =>
    refine Nat.lt_of_lt_of_le ?_ (hgrows cs _)
    show 0 < 0 + if c.toNat < 0x10000 then 1 else 2
    split <;> decide

/-- Property access `v[key]`; reading from `undefined` or `null` throws. -/
def get (v : Value κ) (key : String) : Result (Value κ) :=
  match v with
  | .undefined => .error .typeError
  | .null      => .error .typeError
  | .obj _ fs  => .ok (field fs key)
  | .arr xs    => .ok (if key = "length" then .num xs.length else .undefined)
  | .str s     => .ok (if key = "length" then .num (utf16Length s) else .undefined)
  | _          => .ok .undefined

/-- The values a `for … of` loop goes through; only arrays and strings can be
    iterated over. -/
def iterate : Value κ → Result (List (Value κ))
  | .arr xs => .ok xs
  | .str s  => .ok (s.toList.map fun c => .str c.toString)
  | _       => .error .typeError

/-- The operator `===`.  Arrays and objects are equal only to themselves, and
    no two values that are compared here are one object. -/
def strictEquals : Value κ → Value κ → Bool
  | .undefined, .undefined => true
  | .null, .null           => true
  | .bool a, .bool b       => decide (a = b)
  | .num m, .num n         => decide (m = n)
  | .frac f, .frac g       => decide (f = g)
  | .inf s, .inf t         => decide (s = t)
  | .bigint m, .bigint n   => decide (m = n)
  | .str s, .str t         => decide (s = t)
  -- `NaN` is not equal to itself
  | _, _                   => false

theorem eq_of_strictEquals {a b : Value κ} (h : a.strictEquals b = true) : a = b := by
  unfold strictEquals at h
  split at h
  all_goals first | rfl | rw [of_decide_eq_true h] | cases h

/-! ### Conversion to strings and primitives -/

/-- What `Object.prototype.toString` gives, unless an own property hides it. -/
def objectToString (fields : List (String × Value κ)) : Result String :=
  match fields.lookup "toString" with
  | some _ => .error .typeError
  | none   => .ok "[object Object]"

mutual

/-- `ToString`. -/
def toStr : Value κ → Result String
  | .undefined => .ok "undefined"
  | .null      => .ok "null"
  | .bool b    => .ok (if b then "true" else "false")
  | .num n     => .ok (toString n)
  | .frac f    => .ok f.text
  | .inf s     => .ok (if s then "-Infinity" else "Infinity")
  | .nan       => .ok "NaN"
  | .bigint n  => .ok (toString n)
  | .str s     => .ok s
  | .arr xs    => do return ",".intercalate (← elemsToStr xs)
  | .obj _ fs  => objectToString fs

/-- The pieces `Array.prototype.join` puts commas between. -/
def elemsToStr : List (Value κ) → Result (List String)
  | []               => .ok []
  | .undefined :: vs => do return "" :: (← elemsToStr vs)
  | .null :: vs      => do return "" :: (← elemsToStr vs)
  | v :: vs          => do
      let s ← toStr v
      return s :: (← elemsToStr vs)

end

/-- `ToPrimitive`. -/
def toPrimitive : Value κ → Result (Value κ)
  | .arr xs   => do return .str (← toStr (.arr xs))
  | .obj c fs => do return .str (← toStr (.obj c fs))
  | v         => .ok v

/-! ### Numbers and values -/

/-- The types of numeric values. -/
inductive Numeric where
  | number (x : Number)
  | bigint (n : Int)

/-- `ToNumeric` of a primitive. -/
def toNumeric (ρ : Number.Rounding) : Value κ → Numeric
  | .null     => .number (.fin 0)
  | .bool b   => .number (.fin (if b then 1 else 0))
  | .num n    => .number (.fin n)
  | .frac f   => .number (.fin f.val)
  | .inf s    => .number (.inf s)
  | .bigint n => .bigint n
  | .str s    => .number (.stringToNumber ρ s)
  | _         => .number .nan

/-- A number as a value.  Roundings that return numbers outside of the format
    have no value for them. -/
def ofNumber : Number → Value κ
  | .nan   => .nan
  | .inf s => .inf s
  | .fin q =>
    if q.den = 1 then .num q.num
    else if h : q.den ≠ 1 ∧ Binary64.Holds q then .frac ⟨q, h.1, h.2⟩
    else .nan

@[simp] theorem ofNumber_intCast (n : Int) : (ofNumber (.fin n) : Value κ) = .num n := by
  simp [ofNumber]

@[simp] theorem ofNumber_frac (f : Fraction) : (ofNumber (.fin f.val) : Value κ) = .frac f := by
  rw [ofNumber, if_neg f.den_ne, dif_pos ⟨f.den_ne, f.holds⟩]

/-- The values that are numbers. -/
theorem ofNumber_elim {P : Value κ → Prop} (num : ∀ n, P (.num n)) (frac : ∀ f, P (.frac f))
    (inf : ∀ s, P (.inf s)) (nan : P .nan) (x : Number) : P (ofNumber x) := by
  cases x with
  | nan => exact nan
  | inf s => exact inf s
  | fin q =>
    rw [ofNumber]
    split
    · exact num _
    · split
      · exact frac _
      · exact nan

/-- What `binary64` returns is the number of its value: there, nothing is
    outside of the format. -/
theorem toNumeric_ofNumber (ρ : Number.Rounding) (q : ℚ) :
    toNumeric ρ (ofNumber (.binary64 q) : Value κ) = .number (.binary64 q) := by
  cases h : Number.binary64 q with
  | nan => rfl
  | inf s => rfl
  | fin r =>
    rw [ofNumber]
    split
    · next hint => rw [toNumeric, Rat.coe_int_num_of_den_eq_one hint]
    · next hint =>
      rw [dif_pos ⟨hint, Number.holds_of_binary64 h⟩]
      rfl

/-! ### Operators -/

/-- An operator on numeric values of one type; the types are not mixed. -/
def numericOp (number : Number → Number → Number) (bigint : Int → Int → Int) :
    Numeric → Numeric → Result (Value κ)
  | .number x, .number y => .ok (ofNumber (number x y))
  | .bigint m, .bigint n => .ok (.bigint (bigint m n))
  | _, _                 => .error .typeError

/-- `+` on two primitives. -/
def addPrimitive (ρ : Number.Rounding) (p q : Value κ) : Result (Value κ) :=
  match p, q with
  | .str s, q => do return .str (s ++ (← toStr q))
  | p, .str t => do return .str ((← toStr p) ++ t)
  | p, q      => numericOp (Number.add ρ) (· + ·) (toNumeric ρ p) (toNumeric ρ q)

/-- `+`, for the rounding given. -/
def addWith (ρ : Number.Rounding) (a b : Value κ) : Result (Value κ) := do
  let p ← toPrimitive a
  let q ← toPrimitive b
  addPrimitive ρ p q

/-- The operator `+`. -/
abbrev add (a b : Value κ) : Result (Value κ) := addWith .binary64 a b

/-- `-`, for the rounding given. -/
def subWith (ρ : Number.Rounding) (a b : Value κ) : Result (Value κ) := do
  let p ← toPrimitive a
  let q ← toPrimitive b
  numericOp (Number.sub ρ) (· - ·) (toNumeric ρ p) (toNumeric ρ q)

/-- The operator `-`. -/
abbrev sub (a b : Value κ) : Result (Value κ) := subWith .binary64 a b

/-- `n > v`: the value is brought to a primitive and that to a number. -/
def isBelow (v : Value κ) (n : Int) : Result Bool := do
  let p ← toPrimitive v
  match toNumeric .binary64 p with
  | .number x => return Number.lt x (.fin n)
  | .bigint m => return decide (m < n)

section Exact

variable {ρ : Number.Rounding} {bound : Int} (hρ : Number.ExactUpTo ρ bound)
include hρ

/-- Integers are added exactly as long as the sum is not rounded. -/
theorem addWith_num {m n : Int} (h : |m + n| ≤ bound) :
    addWith ρ (.num m : Value κ) (.num n) = .ok (.num (m + n)) := by
  have hsum : Number.add ρ (.fin m) (.fin n) = .fin ((m + n : Int) : ℚ) := by
    rw [Number.add, ← Int.cast_add, hρ _ h]
  show Except.ok (ofNumber (Number.add ρ (.fin m) (.fin n))) = _
  rw [hsum, ofNumber_intCast]

theorem subWith_num {m n : Int} (h : |m - n| ≤ bound) :
    subWith ρ (.num m : Value κ) (.num n) = .ok (.num (m - n)) := by
  have hdiff : Number.sub ρ (.fin m) (.fin n) = .fin ((m - n : Int) : ℚ) := by
    rw [Number.sub, ← Int.cast_sub, hρ _ h]
  show Except.ok (ofNumber (Number.sub ρ (.fin m) (.fin n))) = _
  rw [hdiff, ofNumber_intCast]

/-- `null` counts as zero. -/
theorem addWith_null_null (h : 0 ≤ bound) :
    addWith ρ (.null : Value κ) .null = .ok (.num 0) := by
  have hzero := addWith_num (κ := κ) hρ (m := 0) (n := 0) (by simpa using h)
  simpa [addWith, toPrimitive, addPrimitive, toNumeric] using hzero

/-- `-` takes a decimal text for its integer. -/
theorem subWith_decimal {s : String} {m n : Int} (hs : Number.decimal? s = some n)
    (hn : |n| ≤ bound) (h : |m - n| ≤ bound) :
    subWith ρ (.num m : Value κ) (.str s) = .ok (.num (m - n)) := by
  rw [← subWith_num hρ h]
  simp only [subWith, toPrimitive, ok_bind, toNumeric, Number.stringToNumber_decimal ρ hs, hρ n hn]

end Exact

theorem elemsToStr_objects {fs : List (List (String × Value κ))}
    (h : ∀ f ∈ fs, f.lookup "toString" = none) :
    elemsToStr (fs.map fun f => .obj none f) = .ok (fs.map fun _ => "[object Object]") := by
  induction fs with
  | nil => rfl
  | cons f fs ih =>
    have hf : f.lookup "toString" = none := h f (by simp)
    have hrest := ih fun g hg => h g (by simp [hg])
    simp only [List.map_cons, elemsToStr, toStr, objectToString, hf, hrest, ok_bind, pure_eq_ok]

/-- An array that starts with objects is no number, so it is below none. -/
theorem isBelow_objects {fs : List (List (String × Value κ))} {n : Int}
    (h : ∀ f ∈ fs, f.lookup "toString" = none) (hne : fs ≠ []) :
    isBelow (.arr (fs.map fun f => .obj none f)) n = .ok false := by
  obtain ⟨f, rest, rfl⟩ := List.exists_cons_of_ne_nil hne
  -- whatever follows, the text starts with the bracket of the first object
  have htext : ∃ cs, (",".intercalate ((f :: rest).map fun _ => "[object Object]")).toList =
      '[' :: cs := by
    cases rest with
    | nil => simp
    | cons g rest => simp [String.intercalate_cons_cons]
  obtain ⟨cs, hcs⟩ := htext
  have hprim : toPrimitive (.arr ((f :: rest).map fun f => .obj none f) : Value κ) =
      .ok (.str (",".intercalate ((f :: rest).map fun _ => "[object Object]"))) := by
    rw [toPrimitive, toStr, elemsToStr_objects h]
    rfl
  unfold isBelow
  rw [hprim, ok_bind, toNumeric, Number.stringToNumber_bracket _ hcs]
  simp only [Number.lt_nan_left]
  rfl

/-! ### What `+` can do -/

/-- The values `toPrimitive` returns. -/
def IsPrimitive : Value κ → Prop
  | .arr _   => False
  | .obj _ _ => False
  | _        => True

theorem isPrimitive_of_toPrimitive {a p : Value κ} (h : toPrimitive a = .ok p) :
    IsPrimitive p := by
  cases a with
  | arr xs =>
    obtain ⟨s, _, hs⟩ := bind_eq_ok.mp h
    cases hs
    trivial
  | obj c fs =>
    obtain ⟨s, _, hs⟩ := bind_eq_ok.mp h
    cases hs
    trivial
  | _ => cases h; trivial

/-- `+` only sees the primitives of its operands. -/
theorem addWith_eq_addPrimitive {ρ : Number.Rounding} {a b p q : Value κ}
    (ha : toPrimitive a = .ok p) (hb : toPrimitive b = .ok q) :
    addWith ρ a b = addPrimitive ρ p q := by
  unfold addWith
  rw [ha, hb]
  rfl

/-- To a number another one can be added. -/
theorem exists_addWith_ofNumber (ρ : Number.Rounding) (x : Number) (n : Int) :
    ∃ t, addWith ρ (ofNumber x : Value κ) (.num n) = .ok t := by
  apply ofNumber_elim (P := fun v => ∃ t, addWith ρ v (.num n) = .ok t)
  all_goals
    intros
    exact ⟨_, rfl⟩

/-- If `a + n` does not throw for a number `n`, then neither does
    `null + a + n`: the operand is brought to the same primitive, which is
    not a `BigInt`. -/
theorem add_null_of_add {a r : Value κ} {n : Int} (h : add a (.num n) = .ok r) :
    ∃ s t, add .null a = .ok s ∧ add s (.num n) = .ok t := by
  obtain ⟨p, hp, h⟩ := bind_eq_ok.mp h
  have hnull : add (.null : Value κ) a = addPrimitive .binary64 .null p :=
    addWith_eq_addPrimitive rfl hp
  have hprim := isPrimitive_of_toPrimitive hp
  -- a primitive `p` for which `p + n` is defined is a string or a number
  cases p with
  | arr xs => exact hprim.elim
  | obj c fs => exact hprim.elim
  | bigint m => cases h
  | str s => exact ⟨_, _, hnull, rfl⟩
  | _ =>
    obtain ⟨t, ht⟩ := exists_addWith_ofNumber _ _ n
    exact ⟨_, t, hnull, ht⟩

/-! ### Values without classes -/

mutual

/-- The value as it comes back from a store that keeps the fields of objects
    and forgets their classes. -/
def plain : Value κ → Value κ
  | .arr xs    => .arr (plainElems xs)
  | .obj _ fs  => .obj none (plainFields fs)
  | .undefined => .undefined
  | .null      => .null
  | .bool b    => .bool b
  | .num n     => .num n
  | .frac f    => .frac f
  | .inf s     => .inf s
  | .nan       => .nan
  | .bigint n  => .bigint n
  | .str s     => .str s

/-- The elements of an array without classes. -/
def plainElems : List (Value κ) → List (Value κ)
  | []      => []
  | v :: vs => plain v :: plainElems vs

/-- The properties of an object without classes. -/
def plainFields : List (String × Value κ) → List (String × Value κ)
  | []           => []
  | (k, v) :: fs => (k, plain v) :: plainFields fs

end

mutual

@[simp] theorem plain_plain : ∀ v : Value κ, plain (plain v) = plain v
  | .arr xs    => by simp only [plain, plainElems_plainElems xs]
  | .obj _ fs  => by simp only [plain, plainFields_plainFields fs]
  | .undefined => rfl
  | .null      => rfl
  | .bool _    => rfl
  | .num _     => rfl
  | .frac _    => rfl
  | .inf _     => rfl
  | .nan       => rfl
  | .bigint _  => rfl
  | .str _     => rfl

theorem plainElems_plainElems : ∀ vs : List (Value κ), plainElems (plainElems vs) = plainElems vs
  | []      => rfl
  | v :: vs => by simp only [plainElems, plain_plain v, plainElems_plainElems vs]

theorem plainFields_plainFields :
    ∀ fs : List (String × Value κ), plainFields (plainFields fs) = plainFields fs
  | []           => rfl
  | (k, v) :: fs => by simp only [plainFields, plain_plain v, plainFields_plainFields fs]

end

end Value

end Js
