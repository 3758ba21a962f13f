import Mathlib.Data.List.Forall2
import XCoin.Js.Value

/-! # JSON

    `stringify` is `JSON.stringify`: it has no text for `undefined`
    (`none`), throws on a `BigInt`, writes `undefined` elements of an array
    as `null` and leaves out properties whose value is `undefined`.

    `transport` is `JSON.parse ∘ JSON.stringify`, the value that arrives when
    a value is sent as JSON text: classes are lost, `NaN` and the infinities
    become `null`, properties without a text are gone.
-/

namespace Js.Json

open Value Throwing

variable {κ : Type}

/-! ### Writing -/

/-- A lower-case hexadecimal digit. -/
def hexDigit (n : Nat) : Char := Nat.digitChar (n % 16)

/-- A character inside a JSON string. -/
def escape (c : Char) : List Char :=
  if c = '"' then ['\\', '"']
  else if c = '\\' then ['\\', '\\']
  else if c.toNat = 8 then ['\\', 'b']
  else if c.toNat = 9 then ['\\', 't']
  else if c.toNat = 10 then ['\\', 'n']
  else if c.toNat = 12 then ['\\', 'f']
  else if c.toNat = 13 then ['\\', 'r']
  else if c.toNat < 32 then ['\\', 'u', '0', '0', hexDigit (c.toNat / 16), hexDigit c.toNat]
  else [c]

/-- `QuoteJSONString`. -/
def quote (s : String) : String :=
  "\"" ++ String.ofList (s.toList.flatMap escape) ++ "\""

mutual

/-- `JSON.stringify(v)`; `none` stands for `undefined`. -/
def stringify : Value κ → Result (Option String)
  | .undefined => .ok none
  | .null      => .ok (some "null")
  | .bool b    => .ok (some (if b then "true" else "false"))
  | .num n     => .ok (some (toString n))
  | .frac f    => .ok (some f.text)
  | .inf _     => .ok (some "null")
  | .nan       => .ok (some "null")
  | .bigint _  => .error .typeError
  | .str s     => .ok (some (quote s))
  | .arr xs    => do return some ("[" ++ ",".intercalate (← stringifyElems xs) ++ "]")
  | .obj _ fs  => do return some ("\x7b" ++ ",".intercalate (← stringifyFields fs) ++ "\x7d")

/-- The texts of the elements of an array. -/
def stringifyElems : List (Value κ) → Result (List String)
  | []      => .ok []
  | v :: vs => do
      let t ← stringify v
      return t.getD "null" :: (← stringifyElems vs)

/-- The texts of the properties of an object that have one. -/
def stringifyFields : List (String × Value κ) → Result (List String)
  | []           => .ok []
  | (k, v) :: fs => do
      let t ← stringify v
      let ts ← stringifyFields fs
      return (t.map fun t => quote k ++ ":" ++ t).toList ++ ts

end

/-! ### Sending -/

mutual

/-- `JSON.parse(JSON.stringify(v))`. -/
def transport : Value κ → Result (Option (Value κ))
  | .undefined => .ok none
  | .nan       => .ok (some .null)
  | .inf _     => .ok (some .null)
  | .bigint _  => .error .typeError
  | .arr xs    => do return some (.arr (← transportElems xs))
  | .obj _ fs  => do return some (.obj none (← transportFields fs))
  | .null      => .ok (some .null)
  | .bool b    => .ok (some (.bool b))
  | .num n     => .ok (some (.num n))
  | .frac f    => .ok (some (.frac f))
  | .str s     => .ok (some (.str s))

/-- The elements of an array after transport. -/
def transportElems : List (Value κ) → Result (List (Value κ))
  | []      => .ok []
  | v :: vs => do
      let w ← transport v
      return w.getD .null :: (← transportElems vs)

/-- The properties of an object after transport. -/
def transportFields : List (String × Value κ) → Result (List (String × Value κ))
  | []           => .ok []
  | (k, v) :: fs => do
      let w ← transport v
      let ws ← transportFields fs
      return (w.map fun w => (k, w)).toList ++ ws

end

example : stringify (.obj none [("a", .undefined), ("b", .arr [.undefined, .str "\n"])]
    : Value Unit) = .ok (some "\x7b\"b\":[null,\"\\n\"]\x7d") := by rfl

/-! ### The shape of array texts -/

/-- **The text of an array is delimited**: it starts with `[` and ends with
    `]`, whatever the array holds. -/
theorem stringify_arr {xs : List (Value κ)} {t : Option String}
    (h : stringify (.arr xs) = .ok t) : ∃ u, t = some ("[" ++ u ++ "]") := by
  rw [stringify] at h
  obtain ⟨ts, _, hts⟩ := bind_eq_ok.mp h
  cases hts
  exact ⟨_, rfl⟩

/-- The texts of the elements, one part of the array after the other. -/
theorem stringifyElems_append (xs ys : List (Value κ)) :
    stringifyElems (xs ++ ys) = do
      let ts ← stringifyElems xs
      return ts ++ (← stringifyElems ys) := by
  induction xs with
  | nil => cases h : stringifyElems ys <;> simp [stringifyElems, h]
  | cons v xs ih =>
    rw [List.cons_append, stringifyElems, ih, stringifyElems]
    cases stringify v with
    | error e => simp
    | ok t =>
      cases stringifyElems xs with
      | error e => simp
      | ok ts => cases stringifyElems ys <;> simp

/-- A value without a JSON text is not hidden by what follows it in the
    array. -/
theorem stringify_arr_of_append {xs ys : List (Value κ)} {t : Option String}
    (h : stringify (.arr (xs ++ ys)) = .ok t) : ∃ u, stringify (.arr xs) = .ok u := by
  rw [stringify, stringifyElems_append] at h
  obtain ⟨all, hall, _⟩ := bind_eq_ok.mp h
  obtain ⟨ts, hts, _⟩ := bind_eq_ok.mp hall
  exact ⟨_, by rw [stringify, hts, ok_bind, pure_eq_ok]⟩

/-! ### What transport does to arrays and objects -/

theorem transport_arr_eq_ok {xs : List (Value κ)} {r : Option (Value κ)} :
    transport (.arr xs) = .ok r ↔ ∃ ys, transportElems xs = .ok ys ∧ r = some (.arr ys) := by
  rw [transport, bind_eq_ok]
  simp only [pure_eq_ok, Except.ok.injEq, eq_comm]

theorem transport_obj_eq_ok {c : Option κ} {fs : List (String × Value κ)}
    {r : Option (Value κ)} : transport (.obj c fs) = .ok r ↔
      ∃ gs, transportFields fs = .ok gs ∧ r = some (.obj none gs) := by
  rw [transport, bind_eq_ok]
  simp only [pure_eq_ok, Except.ok.injEq, eq_comm]

theorem transportElems_cons_eq_ok {v : Value κ} {vs ws : List (Value κ)} :
    transportElems (v :: vs) = .ok ws ↔ ∃ w ws', transport v = .ok w ∧
      transportElems vs = .ok ws' ∧ ws = w.getD .null :: ws' := by
  rw [transportElems]
  simp only [bind_eq_ok, pure_eq_ok, Except.ok.injEq, exists_and_left, eq_comm (a := ws)]

theorem transportFields_cons_eq_ok {k : String} {v : Value κ}
    {fs gs : List (String × Value κ)} :
    transportFields ((k, v) :: fs) = .ok gs ↔ ∃ w gs', transport v = .ok w ∧
      transportFields fs = .ok gs' ∧ gs = (w.map fun w => (k, w)).toList ++ gs' := by
  rw [transportFields]
  simp only [bind_eq_ok, pure_eq_ok, Except.ok.injEq, exists_and_left, eq_comm (a := gs)]

mutual

/-- What has arrived once arrives unchanged. -/
theorem transport_idem : ∀ (v w : Value κ), transport v = .ok (some w) →
    transport w = .ok (some w)
  | .undefined, _, h => by cases h
  | .null, _, h => by cases h; rfl
  | .bool _, _, h => by cases h; rfl
  | .num _, _, h => by cases h; rfl
  | .frac _, _, h => by cases h; rfl
  | .inf _, _, h => by cases h; rfl
  | .nan, _, h => by cases h; rfl
  | .bigint _, _, h => by cases h
  | .str _, _, h => by cases h; rfl
  | .arr xs, w, h => by
    obtain ⟨ys, hys, hw⟩ := transport_arr_eq_ok.mp h
    obtain rfl := Option.some.inj hw
    exact transport_arr_eq_ok.mpr ⟨ys, transportElems_idem xs ys hys, rfl⟩
  | .obj c fs, w, h => by
    obtain ⟨gs, hgs, hw⟩ := transport_obj_eq_ok.mp h
    obtain rfl := Option.some.inj hw
    exact transport_obj_eq_ok.mpr ⟨gs, transportFields_idem fs gs hgs, rfl⟩

theorem transportElems_idem : ∀ (vs ws : List (Value κ)), transportElems vs = .ok ws →
    transportElems ws = .ok ws
  | [], ws, h => by cases h; rfl
  | v :: vs, ws, h => by
    obtain ⟨w, ws', hw, hws', rfl⟩ := transportElems_cons_eq_ok.mp h
    have hvs := transportElems_idem vs ws' hws'
    cases w with
    | none => exact transportElems_cons_eq_ok.mpr ⟨some .null, ws', rfl, hvs, rfl⟩
    | some w =>
      exact transportElems_cons_eq_ok.mpr ⟨some w, ws', transport_idem v w hw, hvs, rfl⟩

theorem transportFields_idem : ∀ (fs gs : List (String × Value κ)), transportFields fs = .ok gs →
    transportFields gs = .ok gs
  | [], gs, h => by cases h; rfl
  | (k, v) :: fs, gs, h => by
    obtain ⟨w, gs', hw, hgs', rfl⟩ := transportFields_cons_eq_ok.mp h
    have hfs := transportFields_idem fs gs' hgs'
    cases w with
    | none => exact hfs
    | some w =>
      exact transportFields_cons_eq_ok.mpr ⟨some w, gs', transport_idem v w hw, hfs, rfl⟩

end

/-! ### Writing what was sent

    What arrives has the same JSON text as what was sent: the properties that
    vanish on the way had no text, and whatever is turned into `null` was
    written as `null`. -/

mutual

/-- What can be sent has been written. -/
theorem exists_stringify : ∀ {v : Value κ} {w : Option (Value κ)}, transport v = .ok w →
    ∃ t, stringify v = .ok t
  | .undefined, _, _ => ⟨_, rfl⟩
  | .null, _, _ => ⟨_, rfl⟩
  | .bool _, _, _ => ⟨_, rfl⟩
  | .num _, _, _ => ⟨_, rfl⟩
  | .frac _, _, _ => ⟨_, rfl⟩
  | .inf _, _, _ => ⟨_, rfl⟩
  | .nan, _, _ => ⟨_, rfl⟩
  | .bigint _, _, h => by cases h
  | .str _, _, _ => ⟨_, rfl⟩
  | .arr xs, _, h => by
    obtain ⟨ys, hys, _⟩ := transport_arr_eq_ok.mp h
    obtain ⟨ts, hts⟩ := exists_stringifyElems hys
    exact ⟨_, by rw [stringify, hts]; rfl⟩
  | .obj _ fs, _, h => by
    obtain ⟨gs, hgs, _⟩ := transport_obj_eq_ok.mp h
    obtain ⟨ts, hts⟩ := exists_stringifyFields hgs
    exact ⟨_, by rw [stringify, hts]; rfl⟩

theorem exists_stringifyElems : ∀ {vs ws : List (Value κ)}, transportElems vs = .ok ws →
    ∃ ts, stringifyElems vs = .ok ts
  | [], _, _ => ⟨_, rfl⟩
  | v :: vs, _, h => by
    obtain ⟨_, _, hv, hvs, _⟩ := transportElems_cons_eq_ok.mp h
    obtain ⟨t, ht⟩ := exists_stringify hv
    obtain ⟨ts, hts⟩ := exists_stringifyElems hvs
    exact ⟨_, by rw [stringifyElems, ht, hts]; rfl⟩

theorem exists_stringifyFields : ∀ {fs gs : List (String × Value κ)},
    transportFields fs = .ok gs → ∃ ts, stringifyFields fs = .ok ts
  | [], _, _ => ⟨_, rfl⟩
  | (k, v) :: fs, _, h => by
    obtain ⟨_, _, hv, hfs, _⟩ := transportFields_cons_eq_ok.mp h
    obtain ⟨t, ht⟩ := exists_stringify hv
    obtain ⟨ts, hts⟩ := exists_stringifyFields hfs
    exact ⟨_, by rw [stringifyFields, ht, hts]; rfl⟩

end

mutual

/-- **Encoding a decoded encoding** gives the same text. -/
theorem stringify_transport : ∀ (v : Value κ) (w : Option (Value κ)), transport v = .ok w →
    stringify v = w.elim (.ok none) stringify
  | .undefined, w, h => by cases h; rfl
  | .null, w, h => by cases h; rfl
  | .bool b, w, h => by cases h; rfl
  | .num n, w, h => by cases h; rfl
  | .frac f, w, h => by cases h; rfl
  | .inf s, w, h => by cases h; rfl
  | .nan, w, h => by cases h; rfl
  | .bigint n, w, h => by cases h
  | .str s, w, h => by cases h; rfl
  | .arr xs, w, h => by
    obtain ⟨ys, hys, rfl⟩ := transport_arr_eq_ok.mp h
    simp only [Option.elim_some, stringify, stringifyElems_transport xs ys hys]
  | .obj c fs, w, h => by
    obtain ⟨gs, hgs, rfl⟩ := transport_obj_eq_ok.mp h
    simp only [Option.elim_some, stringify, stringifyFields_transport fs gs hgs]

theorem stringifyElems_transport : ∀ (vs ws : List (Value κ)), transportElems vs = .ok ws →
    stringifyElems vs = stringifyElems ws
  | [], ws, h => by cases h; rfl
  | v :: vs, ws, h => by
    obtain ⟨w, ws', hw, hws', rfl⟩ := transportElems_cons_eq_ok.mp h
    have hv := stringify_transport v w hw
    have hvs := stringifyElems_transport vs ws' hws'
    cases w with
    | none => simp [stringifyElems, stringify, hv, hvs]
    | some w => simp [stringifyElems, hv, hvs]

theorem stringifyFields_transport : ∀ (fs gs : List (String × Value κ)),
    transportFields fs = .ok gs → stringifyFields fs = stringifyFields gs
  | [], gs, h => by cases h; rfl
  | (k, v) :: fs, gs, h => by
    obtain ⟨w, gs', hw, hgs', rfl⟩ := transportFields_cons_eq_ok.mp h
    have hv := stringify_transport v w hw
    have hfs := stringifyFields_transport fs gs' hgs'
    cases w with
    | none =>
      -- the property has no text and is gone
      cases hrest : stringifyFields gs' <;> simp [stringifyFields, hv, hfs, hrest]
    | some w => simp [stringifyFields, hv, hfs]

end

/-! ### Values that JSON carries

    Values made of what JSON can write, except that properties of objects may
    be `undefined`: those vanish, and reading them gives `undefined` again. -/

mutual

/-- The value is made of what JSON can write, up to `undefined` properties. -/
def IsJson : Value κ → Prop
  | .null     => True
  | .bool _   => True
  | .num _    => True
  | .frac _   => True
  | .str _    => True
  | .arr xs   => ElemsJson xs
  | .obj _ fs => InOrder (fs.map Prod.fst) ∧ FieldsJson fs
  | _         => False

/-- All elements are. -/
def ElemsJson : List (Value κ) → Prop
  | []      => True
  | v :: vs => IsJson v ∧ ElemsJson vs

/-- All properties are, or are `undefined`; a property `toString` has a
    value. -/
def FieldsJson : List (String × Value κ) → Prop
  | []           => True
  | (k, v) :: fs => (IsJson v ∨ (v = .undefined ∧ k ≠ "toString")) ∧ FieldsJson fs

end

theorem elemsJson_iff {vs : List (Value κ)} : ElemsJson vs ↔ ∀ v ∈ vs, IsJson v := by
  induction vs with
  | nil => simp [ElemsJson]
  | cons v vs ih => simp [ElemsJson, ih]

mutual

/-- Such a value can be sent, and arrives as a value. -/
theorem IsJson.exists_transport : ∀ {v : Value κ}, IsJson v → ∃ w, transport v = .ok (some w)
  | .undefined, h => h.elim
  | .null, _ => ⟨_, rfl⟩
  | .bool _, _ => ⟨_, rfl⟩
  | .num _, _ => ⟨_, rfl⟩
  | .frac _, _ => ⟨_, rfl⟩
  | .inf _, h => h.elim
  | .nan, h => h.elim
  | .bigint _, h => h.elim
  | .str _, _ => ⟨_, rfl⟩
  | .arr xs, h => by
    rw [IsJson] at h
    obtain ⟨ys, hys⟩ := h.exists_transport
    exact ⟨.arr ys, transport_arr_eq_ok.mpr ⟨ys, hys, rfl⟩⟩
  | .obj c fs, h => by
    rw [IsJson] at h
    obtain ⟨gs, hgs⟩ := h.2.exists_transport
    exact ⟨.obj none gs, transport_obj_eq_ok.mpr ⟨gs, hgs, rfl⟩⟩

theorem ElemsJson.exists_transport : ∀ {vs : List (Value κ)}, ElemsJson vs →
    ∃ ws, transportElems vs = .ok ws
  | [], _ => ⟨[], rfl⟩
  | v :: vs, h => by
    rw [ElemsJson] at h
    obtain ⟨w, hw⟩ := h.1.exists_transport
    obtain ⟨ws, hws⟩ := h.2.exists_transport
    exact ⟨w :: ws, transportElems_cons_eq_ok.mpr ⟨some w, ws, hw, hws, rfl⟩⟩

theorem FieldsJson.exists_transport : ∀ {fs : List (String × Value κ)}, FieldsJson fs →
    ∃ gs, transportFields fs = .ok gs
  | [], _ => ⟨[], rfl⟩
  | (k, v) :: fs, h => by
    rw [FieldsJson] at h
    obtain ⟨gs, hgs⟩ := h.2.exists_transport
    rcases h.1 with hv | ⟨rfl, _⟩
    · obtain ⟨w, hw⟩ := hv.exists_transport
      exact ⟨(k, w) :: gs, transportFields_cons_eq_ok.mpr ⟨some w, gs, hw, hgs, rfl⟩⟩
    · exact ⟨gs, transportFields_cons_eq_ok.mpr ⟨none, gs, rfl, hgs, rfl⟩⟩

end

/-- The value `v` is sent and `w` arrives. -/
def Sent (v w : Value κ) : Prop := IsJson v ∧ transport v = .ok (some w)

/-- `w` is what is read on the other side where `v` was. -/
def Arrives (v w : Value κ) : Prop := Sent v w ∨ (v = .undefined ∧ w = .undefined)

/-- Primitives arrive as they are, arrays as arrays and objects as plain
    objects. -/
theorem Sent.cases {v w : Value κ} (h : Sent v w) :
    (w = v ∧ IsPrimitive v) ∨
    (∃ xs ys, v = .arr xs ∧ w = .arr ys ∧ ElemsJson xs ∧ transportElems xs = .ok ys) ∨
    ∃ c fs gs, v = .obj c fs ∧ w = .obj none gs ∧ (fs.map Prod.fst).Nodup ∧ FieldsJson fs ∧
      transportFields fs = .ok gs := by
  obtain ⟨hjson, h⟩ := h
  cases v with
  | undefined => exact hjson.elim
  | inf s => exact hjson.elim
  | nan => exact hjson.elim
  | bigint n => exact hjson.elim
  | arr xs =>
    rw [IsJson] at hjson
    obtain ⟨ys, hys, hw⟩ := transport_arr_eq_ok.mp h
    exact .inr (.inl ⟨xs, ys, rfl, Option.some.inj hw, hjson, hys⟩)
  | obj c fs =>
    rw [IsJson] at hjson
    obtain ⟨gs, hgs, hw⟩ := transport_obj_eq_ok.mp h
    exact .inr (.inr ⟨c, fs, gs, rfl, Option.some.inj hw, hjson.1.nodup, hjson.2, hgs⟩)
  | _ =>
    cases h
    exact .inl ⟨rfl, trivial⟩

/-- The elements of an array are sent one by one. -/
theorem forall₂_sent {vs ws : List (Value κ)} (hjson : ElemsJson vs)
    (h : transportElems vs = .ok ws) : List.Forall₂ Sent vs ws := by
  induction vs generalizing ws with
  | nil =>
    cases h
    exact .nil
  | cons v vs ih =>
    rw [ElemsJson] at hjson
    obtain ⟨w, ws', hw, hws', rfl⟩ := transportElems_cons_eq_ok.mp h
    obtain ⟨w', hw'⟩ := hjson.1.exists_transport
    rw [hw, Except.ok.injEq] at hw'
    subst hw'
    exact .cons ⟨hjson.1, hw⟩ (ih hjson.2 hws')

/-! ### Reading on the other side -/

/-- A property is looked up behind one of another name, or behind nothing. -/
theorem lookup_sent_of_ne {k key : String} (hkey : key ≠ k) (w : Option (Value κ))
    (gs : List (String × Value κ)) :
    ((w.map fun w => (k, w)).toList ++ gs).lookup key = gs.lookup key := by
  have hne : (key == k) = false := by simpa using hkey
  cases w <;> simp [List.lookup_cons, hne]

/-- A property whose value arrives is found on the other side, whatever the
    object holds besides. -/
theorem lookup_transportFields_some {fs gs : List (String × Value κ)} {key : String}
    {v w : Value κ} (h : transportFields fs = .ok gs) (hv : fs.lookup key = some v)
    (hw : transport v = .ok (some w)) : gs.lookup key = some w := by
  induction fs generalizing gs with
  | nil => cases hv
  | cons f fs ih =>
    obtain ⟨k, u⟩ := f
    obtain ⟨u', gs', hu', hgs', rfl⟩ := transportFields_cons_eq_ok.mp h
    by_cases hkey : key = k
    · subst hkey
      obtain rfl : u = v := by simpa using hv
      rw [hw, Except.ok.injEq] at hu'
      simp [← hu']
    · have hne : (key == k) = false := by simpa using hkey
      rw [lookup_sent_of_ne hkey]
      exact ih hgs' (by simpa [List.lookup_cons, hne] using hv)

theorem field_transportFields {fs gs : List (String × Value κ)} {key : String} {v w : Value κ}
    (h : transportFields fs = .ok gs) (hv : fs.lookup key = some v)
    (hw : transport v = .ok (some w)) : field gs key = w := by
  unfold field
  rw [lookup_transportFields_some h hv hw, Option.getD_some]

/-- A property that is `null` is `null` on the other side. -/
theorem get_transport_null {v : Value κ} {w : Option (Value κ)} {key : String}
    (h : v.get key = .ok .null) (hw : transport v = .ok w) :
    (w.getD .null).get key = .ok .null := by
  cases v with
  | obj c fs =>
    obtain ⟨gs, hgs, rfl⟩ := transport_obj_eq_ok.mp hw
    simp only [Value.get, field, Except.ok.injEq] at h
    obtain ⟨v, hv, rfl⟩ : ∃ v, fs.lookup key = some v ∧ v = .null := by
      cases hv : fs.lookup key with
      | none => simp [hv] at h
      | some v => exact ⟨v, rfl, by simpa [hv] using h⟩
    exact congrArg Except.ok (field_transportFields hgs hv rfl)
  | arr xs =>
    by_cases hkey : key = "length"
    · simp [Value.get, hkey] at h
    · simp [Value.get, hkey] at h
  | str s =>
    by_cases hkey : key = "length"
    · simp [Value.get, hkey] at h
    · simp [Value.get, hkey] at h
  | _ => simp [Value.get] at h

/-- A property that JSON does not change is the same on the other side. -/
theorem get_transport_kept {c : Option κ} {fs : List (String × Value κ)} {v w : Value κ}
    {key : String} (h : (Value.obj c fs).get key = .ok v) (hv : transport v = .ok (some v))
    (hw : transport (.obj c fs) = .ok (some w)) : w.get key = .ok v := by
  obtain ⟨gs, hgs, heq⟩ := transport_obj_eq_ok.mp hw
  obtain rfl := Option.some.inj heq
  simp only [Value.get, field, Except.ok.injEq] at h
  cases hlookup : fs.lookup key with
  | none =>
    -- the property is `undefined`, and that does not arrive
    rw [hlookup, Option.getD_none] at h
    subst h
    cases hv
  | some u =>
    rw [hlookup, Option.getD_some] at h
    subst h
    exact congrArg Except.ok (field_transportFields hgs hlookup hv)

/-- A property is found on the other side with its value, or it is `undefined`
    on both. -/
theorem lookup_transportFields {fs gs : List (String × Value κ)}
    (hnodup : (fs.map Prod.fst).Nodup) (hjson : FieldsJson fs)
    (h : transportFields fs = .ok gs) (key : String) :
    (∃ v w, fs.lookup key = some v ∧ gs.lookup key = some w ∧ Sent v w) ∨
    (gs.lookup key = none ∧
      (fs.lookup key = none ∨ (fs.lookup key = some .undefined ∧ key ≠ "toString"))) := by
  induction fs generalizing gs with
  | nil =>
    cases h
    exact .inr ⟨rfl, .inl rfl⟩
  | cons f fs ih =>
    obtain ⟨k, v⟩ := f
    obtain ⟨w, gs', hw, hgs', rfl⟩ := transportFields_cons_eq_ok.mp h
    rw [FieldsJson] at hjson
    simp only [List.map_cons, List.nodup_cons] at hnodup
    have hrest := ih hnodup.2 hjson.2 hgs'
    by_cases hkey : key = k
    · subst hkey
      rcases hjson.1 with hv | ⟨rfl, hne⟩
      · obtain ⟨w', hw'⟩ := hv.exists_transport
        rw [hw, Except.ok.injEq] at hw'
        subst hw'
        exact .inl ⟨v, w', by simp, by simp, hv, hw⟩
      · -- the property vanishes, and no other one has its name
        cases hw
        refine .inr ⟨?_, .inr ⟨by simp, hne⟩⟩
        have habsent : fs.lookup key = none := by
          rw [List.lookup_eq_none_iff]
          intro p hp
          have : p.1 ≠ key := fun he => hnodup.1 (he ▸ List.mem_map_of_mem hp)
          simpa using this.symm
        rcases hrest with ⟨v, _, hv, _⟩ | ⟨hnone, _⟩
        · rw [habsent] at hv
          cases hv
        · simpa using hnone
    · have hne : (key == k) = false := by simpa using hkey
      have hfs : ((k, v) :: fs).lookup key = fs.lookup key := by simp [List.lookup_cons, hne]
      rw [hfs, lookup_sent_of_ne hkey]
      exact hrest

/-- Reading a property on the other side. -/
theorem arrives_field {fs gs : List (String × Value κ)} (hnodup : (fs.map Prod.fst).Nodup)
    (hjson : FieldsJson fs) (h : transportFields fs = .ok gs) (key : String) :
    Arrives (field fs key) (field gs key) := by
  unfold field
  rcases lookup_transportFields hnodup hjson h key with
    ⟨v, w, hv, hw, hsent⟩ | ⟨hgs, hfs | ⟨hfs, _⟩⟩
  · rw [hv, hw]
    exact .inl hsent
  · rw [hfs, hgs]
    exact .inr ⟨rfl, rfl⟩
  · rw [hfs, hgs]
    exact .inr ⟨rfl, rfl⟩

mutual

/-- What arrives is converted to the same string. -/
theorem toStr_transport : ∀ {v w : Value κ}, IsJson v → transport v = .ok (some w) →
    toStr w = toStr v
  | .undefined, _, hjson, _ => hjson.elim
  | .null, _, _, h => by cases h; rfl
  | .bool _, _, _, h => by cases h; rfl
  | .num _, _, _, h => by cases h; rfl
  | .frac _, _, _, h => by cases h; rfl
  | .inf _, _, hjson, _ => hjson.elim
  | .nan, _, hjson, _ => hjson.elim
  | .bigint _, _, hjson, _ => hjson.elim
  | .str _, _, _, h => by cases h; rfl
  | .arr xs, w, hjson, h => by
    obtain ⟨ys, hys, hw⟩ := transport_arr_eq_ok.mp h
    obtain rfl := Option.some.inj hw
    rw [IsJson] at hjson
    rw [toStr, toStr, elemsToStr_transport hjson hys]
  | .obj c fs, w, hjson, h => by
    obtain ⟨gs, hgs, hw⟩ := transport_obj_eq_ok.mp h
    obtain rfl := Option.some.inj hw
    rw [IsJson] at hjson
    rw [toStr, toStr, objectToString, objectToString]
    rcases lookup_transportFields hjson.1.nodup hjson.2 hgs "toString" with
      ⟨v, w, hv, hw, _⟩ | ⟨hgs, hfs | ⟨_, hne⟩⟩
    · rw [hv, hw]
    · rw [hfs, hgs]
    · exact absurd rfl hne

theorem elemsToStr_transport : ∀ {vs ws : List (Value κ)}, ElemsJson vs →
    transportElems vs = .ok ws → elemsToStr ws = elemsToStr vs
  | [], _, _, h => by cases h; rfl
  | v :: vs, ws, hjson, h => by
    rw [ElemsJson] at hjson
    obtain ⟨w, ws', hw, hws', rfl⟩ := transportElems_cons_eq_ok.mp h
    obtain ⟨w', hw'⟩ := hjson.1.exists_transport
    rw [hw, Except.ok.injEq] at hw'
    subst hw'
    have hv := toStr_transport hjson.1 hw
    have hvs := elemsToStr_transport hjson.2 hws'
    -- `null` stays `null`, and nothing else becomes `null` or `undefined`
    rcases Sent.cases ⟨hjson.1, hw⟩ with
      ⟨rfl, _⟩ | ⟨xs, ys, rfl, rfl, _⟩ | ⟨c, fs, gs, rfl, rfl, _⟩
    · rw [Option.getD_some]
      cases w' <;> simp [elemsToStr, hvs]
    · simp [elemsToStr, hv, hvs]
    · simp [elemsToStr, hv, hvs]

end

namespace Arrives

variable {v w : Value κ}

/-- The conversion to a primitive does not tell what arrives from what was
    sent. -/
theorem toPrimitive_eq (h : Arrives v w) : toPrimitive w = toPrimitive v := by
  rcases h with hsent | ⟨rfl, rfl⟩
  · have hstr := toStr_transport hsent.1 hsent.2
    rcases hsent.cases with ⟨rfl, _⟩ | ⟨xs, ys, rfl, rfl, _⟩ | ⟨c, fs, gs, rfl, rfl, _⟩
    · rfl
    · rw [toPrimitive, toPrimitive, hstr]
    · rw [toPrimitive, toPrimitive, hstr]
  · rfl

/-- Neither do `+` and `-`. -/
theorem addWith_eq (ρ : Number.Rounding) {v' w' : Value κ} (h : Arrives v w)
    (h' : Arrives v' w') : addWith ρ w w' = addWith ρ v v' := by
  rw [addWith, addWith, h.toPrimitive_eq, h'.toPrimitive_eq]

theorem addWith_right (ρ : Number.Rounding) (u : Value κ) (h : Arrives v w) :
    addWith ρ u w = addWith ρ u v := by
  rw [addWith, addWith, h.toPrimitive_eq]

theorem subWith_right (ρ : Number.Rounding) (u : Value κ) (h : Arrives v w) :
    subWith ρ u w = subWith ρ u v := by
  rw [subWith, subWith, h.toPrimitive_eq]

/-- Neither does `===`, in comparison with a value from elsewhere. -/
theorem strictEquals_eq (h : Arrives v w) (u : Value κ) :
    w.strictEquals u = v.strictEquals u := by
  rcases h with hsent | ⟨rfl, rfl⟩
  · rcases hsent.cases with ⟨rfl, _⟩ | ⟨xs, ys, rfl, rfl, _⟩ | ⟨c, fs, gs, rfl, rfl, _⟩
    · rfl
    · simp [strictEquals]
    · simp [strictEquals]
  · rfl

end Arrives

/-- Reading a property of what arrives: it throws on both sides, or the values
    correspond. -/
theorem Sent.get {v w : Value κ} (h : Sent v w) (key : String) :
    (∃ e, v.get key = .error e ∧ w.get key = .error e) ∨
    ∃ a b, v.get key = .ok a ∧ w.get key = .ok b ∧ Arrives a b := by
  have hnum (n : Int) : Arrives (.num n : Value κ) (.num n) := .inl ⟨by simp [IsJson], rfl⟩
  have hundef : Arrives (.undefined : Value κ) .undefined := .inr ⟨rfl, rfl⟩
  rcases h.cases with ⟨rfl, hprim⟩ | ⟨xs, ys, rfl, rfl, hjson, hys⟩ |
      ⟨c, fs, gs, rfl, rfl, hnodup, hjson, hgs⟩
  · cases w with
    | undefined => exact .inl ⟨_, rfl, rfl⟩
    | null => exact .inl ⟨_, rfl, rfl⟩
    | str s =>
      by_cases hkey : key = "length"
      · exact .inr ⟨_, _, rfl, rfl, by simpa [hkey] using hnum _⟩
      · exact .inr ⟨_, _, rfl, rfl, by simpa [hkey] using hundef⟩
    | arr xs => exact hprim.elim
    | obj c fs => exact hprim.elim
    | _ => exact .inr ⟨_, _, rfl, rfl, hundef⟩
  · have hlen : xs.length = ys.length := (forall₂_sent hjson hys).length_eq
    by_cases hkey : key = "length"
    · exact .inr ⟨_, _, rfl, rfl, by simpa [hkey, hlen] using hnum _⟩
    · exact .inr ⟨_, _, rfl, rfl, by simpa [hkey] using hundef⟩
  · exact .inr ⟨_, _, rfl, rfl, arrives_field hnodup hjson hgs key⟩

end Js.Json
