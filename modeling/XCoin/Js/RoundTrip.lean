import XCoin.Js.Parse

/-! # Reading back what was written

    The result of this module is `parse_stringify`: reading the text that
    `stringify` writes for a value gives what `transport` says, for every
    value whose objects have their keys in property order.

    A text is read the same whatever stands behind it, except that a digit
    or a point behind a number would become part of it (`Reads`).  Texts of arrays and
    objects are read from the texts of their parts by induction over the list
    of parts; the recursion over values then only puts these steps together.
-/

namespace Js.Json

open Value Throwing

variable {κ : Type}

/-! ### Reading what was written -/

/-- The text is read as the value, whatever follows that does not continue a
    number. -/
def Reads (t : String) (v : Value κ) : Prop :=
  ∀ fuel rest, 2 * t.toList.length ≤ fuel → Stops rest →
    parseValue (fuel + 1) (t.toList ++ rest) = some (v, rest)

/-- The text starts like a value. -/
def Opens (t : String) : Prop := ∃ c cs, t.toList = c :: cs ∧ isBlank c = false ∧ c ≠ ']'

theorem reads_null : Reads "null" (.null : Value κ) := fun _ _ _ _ => rfl

theorem reads_bool (b : Bool) : Reads (if b then "true" else "false") (.bool b : Value κ) := by
  cases b <;> exact fun _ _ _ _ => rfl

/-- The text of a number is read as the number. -/
theorem reads_number {t : String} {v : Value κ} {negative : Bool} {ds : List Char}
    (h : IsNumeral negative ds t.toList) (hv : scanUnsigned negative ds = some v) :
    Reads t v := by
  intro fuel rest _ hrest
  have hscan := h.scanNumber_eq (κ := κ) hrest
  rw [hv, Option.map_some] at hscan
  obtain ⟨c, cs, hcs, hc, hblank, hopen⟩ := h.exists_cons
  simp only [List.mem_cons, not_or] at hopen
  rw [hcs, List.cons_append] at hscan ⊢
  simp [parseValue, skipBlanks_cons, hblank, hopen, hc, hscan]

theorem IsNumeral.opens {t : String} {negative : Bool} {ds : List Char}
    (h : IsNumeral negative ds t.toList) : Opens t := by
  obtain ⟨c, cs, hcs, _, hblank, hopen⟩ := h.exists_cons
  refine ⟨c, cs, hcs, hblank, ?_⟩
  rintro rfl
  exact hopen (by simp)

theorem reads_str (s : String) : Reads (quote s) (.str s : Value κ) := by
  intro fuel rest _ _
  have htext : (quote s).toList ++ rest = '"' :: (s.toList.flatMap escape ++ '"' :: rest) := by
    simp [quote]
  rw [htext]
  simp [parseValue, skipBlanks_cons (show isBlank '"' = false by decide), scanString_quote]

/-- The texts of the elements are read one after the other. -/
theorem parseElems_reads {ts : List String} {vs : List (Value κ)}
    (h : List.Forall₂ Reads ts vs) (hne : ts ≠ []) (fuel : Nat)
    (hfuel : 2 * (",".intercalate ts).toList.length + 2 ≤ fuel) (rest : List Char) :
    parseElems fuel ((",".intercalate ts).toList ++ ']' :: rest) = some (vs, rest) := by
  induction h generalizing fuel with
  | nil => exact absurd rfl hne
  | @cons t v ts vs ht hts ih =>
    obtain ⟨fuel, rfl⟩ : ∃ f, fuel = f + 2 := ⟨fuel - 2, by omega⟩
    cases hts with
    | nil =>
      rw [String.intercalate_singleton] at hfuel ⊢
      have hread := ht fuel (']' :: rest) (by omega) (stops_cons (by decide) rest)
      simp [parseElems, hread, after_of_ne, after_self, isBlank]
    | @cons u w us ws hu hus =>
      rw [String.intercalate_cons_cons] at hfuel ⊢
      have hrest := ih (List.cons_ne_nil u us) (fuel + 1)
      generalize ",".intercalate (u :: us) = inner at hfuel hrest ⊢
      have htext : (t ++ "," ++ inner).toList = t.toList ++ ',' :: inner.toList := by simp
      rw [htext, List.length_append, List.length_cons] at hfuel
      have hread := ht fuel (',' :: (inner.toList ++ ']' :: rest)) (by omega)
        (stops_cons (by decide) _)
      rw [htext, List.append_assoc, List.cons_append, parseElems, hread]
      simp [after_self, isBlank, hrest (by omega)]

theorem reads_arr {ts : List String} {vs : List (Value κ)} (h : List.Forall₂ Reads ts vs)
    (hopens : ∀ t ∈ ts, Opens t) : Reads ("[" ++ ",".intercalate ts ++ "]") (.arr vs) := by
  intro fuel rest hfuel _
  have htext : ("[" ++ ",".intercalate ts ++ "]").toList =
      '[' :: ((",".intercalate ts).toList ++ [']']) := by
    simp only [String.toList_append]
    rfl
  rw [htext, List.length_cons, List.length_append, List.length_singleton] at hfuel
  rw [htext, List.cons_append, List.append_assoc, List.singleton_append, parseValue,
    skipBlanks_cons (by decide)]
  cases h with
  | nil => simp [after_self, isBlank]
  | @cons t v ts vs ht hts =>
    obtain ⟨c, cs, hcs, hblank, hne⟩ := hopens t List.mem_cons_self
    have hread := parseElems_reads (.cons ht hts) (List.cons_ne_nil t ts) fuel (by omega) rest
    -- the array is not empty: its text goes on with the one of the first element
    obtain ⟨ds, hds⟩ : ∃ ds, (",".intercalate (t :: ts)).toList = c :: ds := by
      cases ts with
      | nil => exact ⟨cs, by rw [String.intercalate_singleton, hcs]⟩
      | cons u us =>
        rw [String.intercalate_cons_cons, String.toList_append, String.toList_append, hcs]
        exact ⟨_, rfl⟩
    rw [hds, List.cons_append] at hread ⊢
    simp [after_of_ne hblank hne, hread]

/-- Defining a key that comes last. -/
theorem defineField_append {key : String} (v : Value κ) {fs : List (String × Value κ)}
    (h : InOrder (fs.map Prod.fst ++ [key])) : defineField key v fs = fs ++ [(key, v)] := by
  induction fs with
  | nil => rfl
  | cons f fs ih =>
    obtain ⟨k, u⟩ := f
    rw [List.map_cons, List.cons_append, InOrder, List.pairwise_cons] at h
    obtain ⟨hne, hbefore⟩ := h.1 key (by simp)
    simp [defineField, hne, hbefore, ih h.2]

/-- The text is that of a property with the key and the value. -/
def ReadsField (t : String) (f : String × Value κ) : Prop :=
  ∃ u, t = quote f.1 ++ ":" ++ u ∧ Reads u f.2

/-- One property is read and defined. -/
theorem parseFields_cons {key u : String} {v : Value κ} (hu : Reads u v) {fuel : Nat}
    (hfuel : 2 * u.toList.length ≤ fuel) (before : List (String × Value κ)) {more : List Char}
    (hmore : Stops more) :
    parseFields (fuel + 2) before ((quote key ++ ":" ++ u).toList ++ more) =
      (after ',' more).elim ((after '\x7d' more).map fun rest => (defineField key v before, rest))
        (parseFields (fuel + 1) (defineField key v before)) := by
  have htext : (quote key ++ ":" ++ u).toList ++ more =
      '"' :: (key.toList.flatMap escape ++ '"' :: ':' :: (u.toList ++ more)) := by
    simp [quote]
  have hread := hu fuel more hfuel hmore
  rw [htext, parseFields, after_self (by decide)]
  simp only [Option.bind_eq_bind, Option.bind_some, scanString_quote,
    after_self (show isBlank ':' = false by decide), hread, String.ofList_toList]
  cases after ',' more with
  | none => cases after '\x7d' more <;> rfl
  | some cs => rfl

/-- The texts of the properties are read one after the other. -/
theorem parseFields_reads {ts : List String} {fs : List (String × Value κ)}
    (h : List.Forall₂ ReadsField ts fs) (hne : ts ≠ []) (fuel : Nat)
    (hfuel : 2 * (",".intercalate ts).toList.length + 2 ≤ fuel)
    (before : List (String × Value κ)) (horder : InOrder ((before ++ fs).map Prod.fst))
    (rest : List Char) :
    parseFields fuel before ((",".intercalate ts).toList ++ '\x7d' :: rest) =
      some (before ++ fs, rest) := by
  induction h generalizing fuel before with
  | nil => exact absurd rfl hne
  | @cons t f ts fs ht hts ih =>
    obtain ⟨fuel, rfl⟩ : ∃ n, fuel = n + 2 := ⟨fuel - 2, by omega⟩
    obtain ⟨key, v⟩ := f
    obtain ⟨u, rfl, hu⟩ := ht
    have hfirst : InOrder (before.map Prod.fst ++ [key]) := by
      refine List.Pairwise.sublist ?_ horder
      rw [List.map_append, List.map_cons]
      exact (List.Sublist.refl _).append ((List.nil_sublist _).cons_cons key)
    cases hts with
    | nil =>
      rw [String.intercalate_singleton] at hfuel ⊢
      rw [parseFields_cons hu (by simp at hfuel; omega) before
        (stops_cons (by decide) rest), defineField_append v hfirst]
      simp [after_of_ne, after_self, isBlank]
    | @cons t f' ts fs' ht' hts' =>
      rw [String.intercalate_cons_cons] at hfuel ⊢
      have hrest := ih (List.cons_ne_nil t ts) (fuel + 1)
      generalize ",".intercalate (t :: ts) = inner at hfuel hrest ⊢
      have htext : (quote key ++ ":" ++ u ++ "," ++ inner).toList =
          (quote key ++ ":" ++ u).toList ++ ',' :: inner.toList := by simp
      have hlen : u.toList.length ≤ (quote key ++ ":" ++ u).toList.length := by
        rw [String.toList_append, List.length_append]
        omega
      rw [htext, List.length_append, List.length_cons] at hfuel
      have hmore := hrest (by omega) (before ++ [(key, v)]) (by simpa using horder)
      rw [htext, List.append_assoc, List.cons_append, parseFields_cons hu (by omega) before
        (stops_cons (by decide) _), after_self (by decide),
        defineField_append v hfirst]
      simpa using hmore

theorem reads_obj {ts : List String} {fs : List (String × Value κ)}
    (h : List.Forall₂ ReadsField ts fs) (horder : InOrder (fs.map Prod.fst)) :
    Reads ("\x7b" ++ ",".intercalate ts ++ "\x7d") (.obj none fs) := by
  intro fuel rest hfuel _
  have htext : ("\x7b" ++ ",".intercalate ts ++ "\x7d").toList =
      '\x7b' :: ((",".intercalate ts).toList ++ ['\x7d']) := by
    simp only [String.toList_append]
    rfl
  rw [htext, List.length_cons, List.length_append, List.length_singleton] at hfuel
  rw [htext, List.cons_append, List.append_assoc, List.singleton_append, parseValue,
    skipBlanks_cons (by decide)]
  cases h with
  | nil => simp [after_self, isBlank]
  | @cons t f ts fs ht hts =>
    have hread := parseFields_reads (.cons ht hts) (List.cons_ne_nil t ts) fuel (by omega) []
      horder rest
    obtain ⟨u, rfl, _⟩ := ht
    -- the object is not empty: its text goes on with a quote
    obtain ⟨ds, hds⟩ : ∃ ds, (",".intercalate ((quote f.1 ++ ":" ++ u) :: ts)).toList =
        '"' :: ds := by
      cases ts with
      | nil =>
        rw [String.intercalate_singleton]
        exact ⟨_, by simp [quote]; rfl⟩
      | cons t ts =>
        rw [String.intercalate_cons_cons]
        exact ⟨_, by simp [quote]; rfl⟩
    rw [hds, List.cons_append] at hread ⊢
    simp [after_of_ne, isBlank, hread]

/-! ### Values with keys in order -/

mutual

/-- All objects in the value have their keys in property order. -/
def KeysInOrder : Value κ → Prop
  | .arr xs   => ElemsInOrder xs
  | .obj _ fs => InOrder (fs.map Prod.fst) ∧ FieldsInOrder fs
  | _         => True

def ElemsInOrder : List (Value κ) → Prop
  | []      => True
  | v :: vs => KeysInOrder v ∧ ElemsInOrder vs

def FieldsInOrder : List (String × Value κ) → Prop
  | []           => True
  | (_, v) :: fs => KeysInOrder v ∧ FieldsInOrder fs

end

theorem elemsInOrder_iff {vs : List (Value κ)} : ElemsInOrder vs ↔ ∀ v ∈ vs, KeysInOrder v := by
  induction vs with
  | nil => simp [ElemsInOrder]
  | cons v vs ih => simp [ElemsInOrder, ih]

mutual

/-- Values that JSON carries are such values. -/
theorem IsJson.keysInOrder : ∀ {v : Value κ}, IsJson v → KeysInOrder v
  | .undefined, _ => trivial
  | .null, _ => trivial
  | .bool _, _ => trivial
  | .num _, _ => trivial
  | .frac _, _ => trivial
  | .inf _, _ => trivial
  | .nan, _ => trivial
  | .bigint _, _ => trivial
  | .str _, _ => trivial
  | .arr xs, h => by
    rw [IsJson] at h
    rw [KeysInOrder]
    exact h.elemsInOrder
  | .obj c fs, h => by
    rw [IsJson] at h
    rw [KeysInOrder]
    exact ⟨h.1, h.2.fieldsInOrder⟩

theorem ElemsJson.elemsInOrder : ∀ {vs : List (Value κ)}, ElemsJson vs → ElemsInOrder vs
  | [], _ => trivial
  | v :: vs, h => by
    rw [ElemsJson] at h
    exact ⟨h.1.keysInOrder, h.2.elemsInOrder⟩

theorem FieldsJson.fieldsInOrder : ∀ {fs : List (String × Value κ)}, FieldsJson fs →
    FieldsInOrder fs
  | [], _ => trivial
  | (k, v) :: fs, h => by
    rw [FieldsJson] at h
    refine ⟨?_, h.2.fieldsInOrder⟩
    rcases h.1 with hv | ⟨rfl, _⟩
    · exact hv.keysInOrder
    · trivial

end

/-- Transport drops keys and keeps the order of the others. -/
theorem keys_transportFields {fs gs : List (String × Value κ)}
    (h : transportFields fs = .ok gs) : (gs.map Prod.fst).Sublist (fs.map Prod.fst) := by
  induction fs generalizing gs with
  | nil =>
    cases h
    exact .refl _
  | cons f fs ih =>
    obtain ⟨k, v⟩ := f
    obtain ⟨w, gs', _, hgs', rfl⟩ := transportFields_cons_eq_ok.mp h
    cases w with
    | none => exact (ih hgs').cons k
    | some w => exact (ih hgs').cons_cons k

mutual

theorem KeysInOrder.transport : ∀ {v w : Value κ}, KeysInOrder v →
    transport v = .ok (some w) → KeysInOrder w
  | .undefined, _, _, h => by cases h
  | .null, _, _, h => by cases h; trivial
  | .bool _, _, _, h => by cases h; trivial
  | .num _, _, _, h => by cases h; trivial
  | .frac _, _, _, h => by cases h; trivial
  | .inf _, _, _, h => by cases h; trivial
  | .nan, _, _, h => by cases h; trivial
  | .bigint _, _, _, h => by cases h
  | .str _, _, _, h => by cases h; trivial
  | .arr xs, w, hkeys, h => by
    obtain ⟨ys, hys, hw⟩ := transport_arr_eq_ok.mp h
    obtain rfl := Option.some.inj hw
    rw [KeysInOrder] at hkeys ⊢
    exact hkeys.transport hys
  | .obj c fs, w, hkeys, h => by
    obtain ⟨gs, hgs, hw⟩ := transport_obj_eq_ok.mp h
    obtain rfl := Option.some.inj hw
    rw [KeysInOrder] at hkeys ⊢
    exact ⟨hkeys.1.sublist (keys_transportFields hgs), hkeys.2.transport hgs⟩

theorem ElemsInOrder.transport : ∀ {vs ws : List (Value κ)}, ElemsInOrder vs →
    transportElems vs = .ok ws → ElemsInOrder ws
  | [], _, _, h => by cases h; trivial
  | v :: vs, ws, hkeys, h => by
    obtain ⟨w, ws', hw, hws', rfl⟩ := transportElems_cons_eq_ok.mp h
    rw [ElemsInOrder] at hkeys ⊢
    refine ⟨?_, hkeys.2.transport hws'⟩
    cases w with
    | none => trivial
    | some w => exact hkeys.1.transport hw

theorem FieldsInOrder.transport : ∀ {fs gs : List (String × Value κ)}, FieldsInOrder fs →
    transportFields fs = .ok gs → FieldsInOrder gs
  | [], _, _, h => by cases h; trivial
  | (k, v) :: fs, gs, hkeys, h => by
    obtain ⟨w, gs', hw, hgs', rfl⟩ := transportFields_cons_eq_ok.mp h
    rw [FieldsInOrder] at hkeys
    cases w with
    | none => exact hkeys.2.transport hgs'
    | some w => exact ⟨hkeys.1.transport hw, hkeys.2.transport hgs'⟩

end

mutual

/-- What arrives can be sent on. -/
theorem IsJson.transport : ∀ {v w : Value κ}, IsJson v → transport v = .ok (some w) → IsJson w
  | .undefined, _, _, h => by cases h
  | .null, _, _, h => by cases h; trivial
  | .bool _, _, _, h => by cases h; trivial
  | .num _, _, _, h => by cases h; trivial
  | .frac _, _, _, h => by cases h; trivial
  | .inf _, _, _, h => by cases h; trivial
  | .nan, _, _, h => by cases h; trivial
  | .bigint _, _, _, h => by cases h
  | .str _, _, _, h => by cases h; trivial
  | .arr xs, w, hjson, h => by
    obtain ⟨ys, hys, hw⟩ := transport_arr_eq_ok.mp h
    obtain rfl := Option.some.inj hw
    rw [IsJson] at hjson ⊢
    exact hjson.transport hys
  | .obj c fs, w, hjson, h => by
    obtain ⟨gs, hgs, hw⟩ := transport_obj_eq_ok.mp h
    obtain rfl := Option.some.inj hw
    rw [IsJson] at hjson ⊢
    exact ⟨hjson.1.sublist (keys_transportFields hgs), hjson.2.transport hgs⟩

theorem ElemsJson.transport : ∀ {vs ws : List (Value κ)}, ElemsJson vs →
    transportElems vs = .ok ws → ElemsJson ws
  | [], _, _, h => by cases h; trivial
  | v :: vs, ws, hjson, h => by
    obtain ⟨w, ws', hw, hws', rfl⟩ := transportElems_cons_eq_ok.mp h
    rw [ElemsJson] at hjson ⊢
    refine ⟨?_, hjson.2.transport hws'⟩
    cases w with
    | none => trivial
    | some w => exact hjson.1.transport hw

theorem FieldsJson.transport : ∀ {fs gs : List (String × Value κ)}, FieldsJson fs →
    transportFields fs = .ok gs → FieldsJson gs
  | [], _, _, h => by cases h; trivial
  | (k, v) :: fs, gs, hjson, h => by
    obtain ⟨w, gs', hw, hgs', rfl⟩ := transportFields_cons_eq_ok.mp h
    rw [FieldsJson] at hjson
    cases w with
    | none => exact hjson.2.transport hgs'
    | some w =>
      -- a property that arrives was not `undefined`
      rcases hjson.1 with hv | ⟨rfl, _⟩
      · exact ⟨.inl (hv.transport hw), hjson.2.transport hgs'⟩
      · cases hw

end

/-! ### Reading back -/

mutual

/-- A value that transport does not change is read back from its text. -/
theorem exists_reads : ∀ {v : Value κ}, KeysInOrder v → transport v = .ok (some v) →
    ∃ t, stringify v = .ok (some t) ∧ Opens t ∧ Reads t v
  | .undefined, _, h => by cases h
  | .nan, _, h => by cases h
  | .bigint _, _, h => by cases h
  | .null, _, _ => ⟨_, rfl, ⟨_, _, rfl, by decide, by decide⟩, reads_null⟩
  | .bool b, _, _ => by
    refine ⟨_, rfl, ?_, reads_bool b⟩
    cases b <;> exact ⟨_, _, rfl, by decide, by decide⟩
  | .num n, _, _ => by
    obtain ⟨negative, ds, hnum, hscan⟩ := exists_isNumeral n
    exact ⟨_, rfl, hnum.opens, reads_number hnum hscan⟩
  | .frac f, _, _ => by
    obtain ⟨negative, ds, hnum, hscan⟩ := exists_isNumeral_frac f
    exact ⟨_, rfl, hnum.opens, reads_number hnum hscan⟩
  | .inf _, _, h => by cases h
  | .str s, _, _ => by
    refine ⟨_, rfl, ⟨'"', s.toList.flatMap escape ++ ['"'], ?_, by decide, by decide⟩,
      reads_str s⟩
    simp [quote]
  | .arr xs, hkeys, h => by
    obtain ⟨ys, hys, hw⟩ := transport_arr_eq_ok.mp h
    obtain rfl : xs = ys := by simpa using hw
    rw [KeysInOrder] at hkeys
    obtain ⟨ts, hts, hopens, hreads⟩ := exists_elems_read hkeys hys
    refine ⟨"[" ++ ",".intercalate ts ++ "]", ?_, ?_, reads_arr hreads hopens⟩
    · rw [stringify, hts, ok_bind, pure_eq_ok]
    · refine ⟨'[', (",".intercalate ts).toList ++ [']'], ?_, by decide, by decide⟩
      simp only [String.toList_append]
      rfl
  | .obj c fs, hkeys, h => by
    obtain ⟨gs, hgs, hw⟩ := transport_obj_eq_ok.mp h
    obtain ⟨rfl, rfl⟩ : c = none ∧ fs = gs := by simpa using hw
    rw [KeysInOrder] at hkeys
    obtain ⟨ts, hts, hreads⟩ := exists_fields_read hkeys.2 hgs
    refine ⟨"\x7b" ++ ",".intercalate ts ++ "\x7d", ?_, ?_, reads_obj hreads hkeys.1⟩
    · rw [stringify, hts, ok_bind, pure_eq_ok]
    · refine ⟨'\x7b', (",".intercalate ts).toList ++ ['\x7d'], ?_, by decide, by decide⟩
      simp only [String.toList_append]
      rfl

theorem exists_elems_read : ∀ {vs : List (Value κ)}, ElemsInOrder vs →
    transportElems vs = .ok vs → ∃ ts, stringifyElems vs = .ok ts ∧ (∀ t ∈ ts, Opens t) ∧
      List.Forall₂ Reads ts vs
  | [], _, _ => ⟨[], rfl, by simp, .nil⟩
  | v :: vs, hkeys, h => by
    obtain ⟨w, ws, hw, hws, heq⟩ := transportElems_cons_eq_ok.mp h
    obtain ⟨hv, rfl⟩ := List.cons.inj heq
    have hsame : transport v = .ok (some v) := by
      cases w with
      | none =>
        rw [show v = .null from hv] at hw
        cases hw
      | some w =>
        rw [show w = v from hv.symm] at hw
        exact hw
    rw [ElemsInOrder] at hkeys
    obtain ⟨t, ht, hopen, hread⟩ := exists_reads hkeys.1 hsame
    obtain ⟨ts, hts, hopens, hreads⟩ := exists_elems_read hkeys.2 hws
    refine ⟨t :: ts, ?_, ?_, .cons hread hreads⟩
    · rw [stringifyElems, ht, ok_bind, hts, ok_bind, pure_eq_ok, Option.getD_some]
    · exact List.forall_mem_cons.mpr ⟨hopen, hopens⟩

theorem exists_fields_read : ∀ {fs : List (String × Value κ)}, FieldsInOrder fs →
    transportFields fs = .ok fs → ∃ ts, stringifyFields fs = .ok ts ∧
      List.Forall₂ ReadsField ts fs
  | [], _, _ => ⟨[], rfl, .nil⟩
  | (k, v) :: fs, hkeys, h => by
    obtain ⟨w, gs, hw, hgs, heq⟩ := transportFields_cons_eq_ok.mp h
    cases w with
    | none =>
      -- a property has vanished
      have hlen := (keys_transportFields hgs).length_le
      have hgs' : gs = (k, v) :: fs := heq.symm
      simp [hgs'] at hlen
    | some w =>
      obtain ⟨rfl, rfl⟩ : v = w ∧ fs = gs := by simpa using heq
      rw [FieldsInOrder] at hkeys
      obtain ⟨t, ht, _, hread⟩ := exists_reads hkeys.1 hw
      obtain ⟨ts, hts, hreads⟩ := exists_fields_read hkeys.2 hgs
      refine ⟨(quote k ++ ":" ++ t) :: ts, ?_, .cons ⟨t, rfl, hread⟩ hreads⟩
      rw [stringifyFields, ht, ok_bind, hts, ok_bind, pure_eq_ok]
      rfl

end

/-- **Reading what was written**: `JSON.parse` of the text that
    `JSON.stringify` writes gives what `transport` says. -/
theorem parse_stringify {v w : Value κ} (hkeys : KeysInOrder v)
    (h : transport v = .ok (some w)) : ∃ t, stringify v = .ok (some t) ∧ parse t = some w := by
  obtain ⟨t, ht, _, hread⟩ := exists_reads (hkeys.transport h) (transport_idem v w h)
  refine ⟨t, ?_, ?_⟩
  · rw [stringify_transport v (some w) h]
    exact ht
  · have hall := hread (2 * t.toList.length) [] (Nat.le_refl _) stops_nil
    rw [List.append_nil] at hall
    rw [parse, hall]
    rfl

end Js.Json
