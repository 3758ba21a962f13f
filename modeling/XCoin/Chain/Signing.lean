import XCoin.Framework.Text
import XCoin.Model.Run

/-! # What a signature covers

    `signTransaction` signs the hash of the text `fromAddress + toAddress +
    amount`, with nothing between the three fields.  Whoever replaces the
    fields and keeps the signature has to keep this text, and a sender under
    whose key the signature verifies.  What is left are the two borders:
    digits may cross the one between receiver and amount, and characters that
    `elliptic` skips in a public key may cross the one between sender and
    receiver.
-/

namespace XCoin

open Js Throwing

variable {E : Env}

/-! ### How `elliptic` reads hexadecimal texts -/

/-- The value of a hexadecimal digit. -/
def hexDigit? (c : Char) : Option Nat :=
  (Number.digitVal c).bind fun n => if n < 16 then some n else none

/-- `parseInt(c + d, 16)`; `none` is `NaN`.  The number ends before the first
    character that is no digit, and `0x` is taken off its front. -/
def parsePair (c d : Char) : Option Nat :=
  if c = '0' ∧ (d = 'x' ∨ d = 'X') then none
  else match hexDigit? c, hexDigit? d with
    | none, _        => none
    | some m, none   => some m
    | some m, some n => some (16 * m + n)

/-- The bytes of a text, two characters each. -/
def hexPairs : List Char → List (Option Nat)
  | c :: d :: cs => parsePair c d :: hexPairs cs
  | _            => []

/-- The characters of a text that are read: ASCII letters and digits. -/
def readChars (text : String) : List Char := text.toList.filter Char.isAlphanum

/-- `toArray(text, 'hex')`: everything but letters and digits is left out, and
    an odd number of characters gets a `0` in front. -/
def toArray (text : String) : List (Option Nat) :=
  hexPairs (if (readChars text).length % 2 ≠ 0 then '0' :: readChars text else readChars text)

/-- The formats of `decodePoint` for a curve whose coordinates take 32 bytes:
    both coordinates behind 4, 6 or 7, or one behind 2 or 3. -/
def PointFormat (bytes : List (Option Nat)) : Prop :=
  (bytes.head? ∈ [some (some 4), some (some 6), some (some 7)] ∧ bytes.length = 65) ∨
  (bytes.head? ∈ [some (some 2), some (some 3)] ∧ bytes.length = 33)

instance (bytes : List (Option Nat)) : Decidable (PointFormat bytes) :=
  inferInstanceAs (Decidable (_ ∨ _))

theorem PointFormat.length_eq {bytes : List (Option Nat)} (h : PointFormat bytes) :
    bytes.length = 65 ∨ bytes.length = 33 :=
  h.imp And.right And.right

/-- Every format has its own first bytes. -/
theorem PointFormat.head_ne_zero {bytes : List (Option Nat)} (h : PointFormat bytes) :
    bytes.head? ≠ some (some 0) := by
  intro hzero
  rcases h with ⟨hfirst, _⟩ | ⟨hfirst, _⟩
  · exact absurd (hzero ▸ hfirst) (by decide)
  · exact absurd (hzero ▸ hfirst) (by decide)

theorem length_hexPairs (cs : List Char) : (hexPairs cs).length = cs.length / 2 := by
  induction cs using hexPairs.induct with
  | case1 c d cs ih =>
    simp only [hexPairs, List.length_cons, ih]
    omega
  | case2 cs hshort =>
    cases cs with
    | nil => rfl
    | cons c cs =>
      cases cs with
      | nil => simp [hexPairs]
      | cons d cs => exact absurd rfl (hshort c d cs)

theorem length_toArray (text : String) :
    (toArray text).length = ((readChars text).length + 1) / 2 := by
  unfold toArray
  split_ifs with hodd
  · rw [length_hexPairs, List.length_cons]
  · rw [length_hexPairs]
    omega

/-- The first byte comes from the first two characters, or from a zero and
    the first one. -/
theorem head?_toArray {text : String} {c d : Char} {cs : List Char}
    (h : readChars text = c :: d :: cs) :
    (toArray text).head? =
      some (if cs.length % 2 = 0 then parsePair c d else parsePair '0' c) := by
  unfold toArray
  have hlen : (c :: d :: cs).length % 2 = cs.length % 2 := by
    rw [List.length_cons, List.length_cons]
    omega
  rw [h, hlen]
  by_cases heven : cs.length % 2 = 0
  · rw [if_neg (not_not.mpr heven), if_pos heven]
    rfl
  · rw [if_pos heven, if_neg heven]
    rfl

/-! ### What the packages are trusted for -/

/-- Signing is correct: what a key signs verifies under its public key. -/
def SigningVerifies (E : Env) : Prop :=
  ∀ key hash sig, E.sign key hash = .ok sig →
    E.verify (.str (E.getPublic key)) hash (.str (E.toDER sig)) = .ok true

/-- Signatures are correct: under the public key of the signer, a signature
    verifies for the hash that was signed, and for no other hash. -/
def SignaturesCorrect (E : Env) : Prop :=
  ∀ key v sig, E.sign key (E.SHA256 v) = .ok sig → ∀ v',
    E.verify (.str (E.getPublic key)) (E.SHA256 v') (.str (E.toDER sig)) = .ok true ↔
      E.SHA256 v' = E.SHA256 v

/-- A public key in hexadecimal: the byte 4 and the two coordinates. -/
def IsKeyText (text : String) : Prop :=
  ∃ digits : String, text = "04" ++ digits ∧ digits.toList.length = 128 ∧
    ∀ c ∈ digits.toList, c.isAlphanum = true

/-- What the packages are trusted for: SHA-256 has no collisions, a signature
    verifies under every text whose bytes are those of the signer's public key,
    and under no text that `decodePoint` refuses.

    For every hash there are keys under which a given signature verifies, but a
    key that is itself part of the text that was hashed cannot be made to fit
    afterwards.  Hence the last field is about texts that start with the key. -/
structure SoundSignatures (E : Env) : Prop where
  noCollision : ∀ s t, E.SHA256 (.str s) = E.SHA256 (.str t) → s = t
  /-- A signature in DER has a text. -/
  toDER_ne    : ∀ sig, E.toDER sig ≠ ""
  keyText     : ∀ key, IsKeyText (E.getPublic key)
  verifies    : ∀ key hash sig, E.sign key hash = .ok sig → ∀ publicKey,
    toArray publicKey = toArray (E.getPublic key) →
      E.verify (.str publicKey) hash (.str (E.toDER sig)) = .ok true
  verify_only : ∀ key v sig, E.sign key (E.SHA256 v) = .ok sig → ∀ publicKey rest : String,
    E.verify (.str publicKey) (E.SHA256 (.str (publicKey ++ rest))) (.str (E.toDER sig)) =
        .ok true →
      PointFormat (toArray publicKey) ∧ E.SHA256 (.str (publicKey ++ rest)) = E.SHA256 v

/-! ### Senders that read as the signer's key -/

/-- The text has no character that is read. -/
def Skipped (text : String) : Prop := ∀ c ∈ text.toList, c.isAlphanum = false

theorem Skipped.readChars_append {u : String} (h : Skipped u) (text : String) :
    readChars (text ++ u) = readChars text := by
  have hnone : u.toList.filter Char.isAlphanum = [] :=
    List.filter_eq_nil_iff.mpr fun c hc => by simp [h c hc]
  unfold readChars
  rw [String.toList_append, List.filter_append, hnone, List.append_nil]

/-- Skipped characters at the front of a text and a numeral are in the text. -/
theorem Skipped.exists_split {u rest s : String} {n : Nat} (h : Skipped u)
    (heq : u ++ rest = s ++ toString n) : ∃ v, s = u ++ v ∧ rest = v ++ toString n := by
  have hlists : u.toList ++ rest.toList = s.toList ++ (toString n).toList := by
    rw [← String.toList_append, heq, String.toList_append]
  obtain ⟨v, hv⟩ : ∃ v, s.toList = u.toList ++ v := by
    rcases List.append_eq_append_iff.mp hlists with ⟨v, hv, _⟩ | ⟨v, hv, hdigits⟩
    · exact ⟨v, hv⟩
    · cases v with
      | nil => exact ⟨[], by rw [hv, List.append_nil, List.append_nil]⟩
      | cons c cs =>
        -- a digit of the numeral is not skipped
        have hskipped := h c (by rw [hv]; simp)
        have hdigit := Text.isDigit_of_mem_toString (n := n) (c := c) (by rw [hdigits]; simp)
        simp [Char.isAlphanum, hdigit] at hskipped
  refine ⟨String.ofList v, ?_, ?_⟩
  · apply String.toList_inj.mp
    rw [hv, String.toList_append, String.toList_ofList]
  · apply String.toList_inj.mp
    rw [hv, List.append_assoc, List.append_cancel_left_eq] at hlists
    rw [hlists, String.toList_append, String.toList_ofList]

/-- A text starts with nothing that is skipped exactly if it is empty or
    starts with a letter or a digit. -/
theorem skipped_front_iff (s : String) :
    (∀ u v, Skipped u → s = u ++ v → u = "") ↔
      ∀ c, s.toList.head? = some c → c.isAlphanum = true := by
  constructor
  · intro hnone c hc
    obtain ⟨cs, hcs⟩ := List.head?_eq_some_iff.mp hc
    by_contra hskipped
    have hsplit : s = String.singleton c ++ String.ofList cs := by
      apply String.toList_inj.mp
      simp [hcs]
    have hempty := hnone (String.singleton c) _ (by simpa [Skipped] using hskipped) hsplit
    have hlist := congrArg String.toList hempty
    simp at hlist
  · rintro hfirst u v hskipped rfl
    cases hu : u.toList with
    | nil => exact String.toList_inj.mp hu
    | cons c cs =>
      have hread := hfirst c (by rw [String.toList_append, hu]; rfl)
      have hskips := hskipped c (by rw [hu]; exact List.mem_cons_self)
      rw [hread] at hskips
      cases hskips

namespace IsKeyText

variable {key : String}

theorem toList_eq (h : IsKeyText key) :
    ∃ ds, key.toList = '0' :: '4' :: ds ∧ ds.length = 128 ∧ readChars key = key.toList := by
  obtain ⟨digits, rfl, hlen, hdigits⟩ := h
  refine ⟨digits.toList, by simp, hlen, ?_⟩
  unfold readChars
  refine List.filter_eq_self.mpr fun c hc => ?_
  rw [String.toList_append, List.mem_append] at hc
  rcases hc with hc | hc
  · obtain rfl | rfl : c = '0' ∨ c = '4' := by simpa using hc
    · rfl
    · rfl
  · exact hdigits c hc

/-- A text behind the key is skipped if the whole still has a format. -/
theorem skipped_of_format (h : IsKeyText key) {u : String}
    (hformat : PointFormat (toArray (key ++ u))) : Skipped u := by
  obtain ⟨ds, hkey, hlen, hread⟩ := h.toList_eq
  have hchars : readChars (key ++ u) = key.toList ++ readChars u := by
    rw [← hread]
    unfold readChars
    rw [String.toList_append, List.filter_append]
  have hbytes := length_toArray (key ++ u)
  rw [hchars, hkey] at hbytes
  simp only [List.cons_append, List.length_cons, List.length_append, hlen] at hbytes
  have hlength := hformat.length_eq
  have hnone : readChars u = [] := List.eq_nil_of_length_eq_zero (by omega)
  intro c hc
  simpa using List.filter_eq_nil_iff.mp hnone c hc

/-- No proper front part of a key has a format. -/
theorem eq_of_format (h : IsKeyText key) {front rest : String} (hsplit : key = front ++ rest)
    (hformat : PointFormat (toArray front)) : front = key := by
  obtain ⟨ds, hkey, hlen, hread⟩ := h.toList_eq
  have hlist : '0' :: '4' :: ds = front.toList ++ rest.toList := by
    rw [← hkey, hsplit, String.toList_append]
  have hreads : readChars front = front.toList := by
    refine List.filter_eq_self.mpr fun c hc => ?_
    have hall := List.filter_eq_self.mp hread
    exact hall c (by rw [hsplit, String.toList_append]; exact List.mem_append_left _ hc)
  have hbytes := length_toArray front
  rw [hreads] at hbytes
  have hlength := hformat.length_eq
  have htotal := congrArg List.length hlist
  simp only [List.length_cons, List.length_append, hlen] at htotal
  -- the formats take 33 or 65 bytes, so that there are two characters to start with
  obtain ⟨cs, hcs⟩ : ∃ cs, front.toList = '0' :: '4' :: cs := by
    cases hfront : front.toList with
    | nil =>
      rw [hfront, List.length_nil] at hbytes
      omega
    | cons c cs =>
      cases cs with
      | nil =>
        rw [hfront, List.length_singleton] at hbytes
        omega
      | cons d cs =>
        rw [hfront] at hlist
        simp only [List.cons_append, List.cons.injEq] at hlist
        exact ⟨cs, by rw [← hlist.1, ← hlist.2.1]⟩
  rw [hcs, List.length_cons, List.length_cons] at hbytes htotal
  have hhead := head?_toArray (hreads.trans hcs)
  by_cases heven : cs.length % 2 = 0
  · -- the first byte is 4, and only the whole key is long enough
    rw [if_pos heven] at hhead
    have hfull : rest.toList.length = 0 := by
      rcases hformat with ⟨_, hlength⟩ | ⟨hfirst, _⟩
      · omega
      · rw [hhead] at hfirst
        exact absurd hfirst (by decide)
    rw [hsplit, String.toList_inj.mp ((List.eq_nil_of_length_eq_zero hfull).trans
      String.toList_empty.symm), String.append_empty]
  · -- a zero is put in front, and the first byte is 0
    rw [if_neg heven] at hhead
    exact absurd hhead hformat.head_ne_zero

/-- **Where a key can end**: a text that starts with a key starts with another
    one only if characters that are skipped follow the first. -/
theorem exists_skipped (h : IsKeyText key) {front rest tail : String}
    (hsplit : front ++ rest = key ++ tail) (hformat : PointFormat (toArray front)) :
    ∃ u, Skipped u ∧ front = key ++ u := by
  have hlists : front.toList ++ rest.toList = key.toList ++ tail.toList := by
    rw [← String.toList_append, hsplit, String.toList_append]
  rcases List.append_eq_append_iff.mp hlists with ⟨v, hv, _⟩ | ⟨v, hv, _⟩
  · have hkey : key = front ++ String.ofList v := by
      apply String.toList_inj.mp
      rw [hv, String.toList_append, String.toList_ofList]
    exact ⟨"", by simp [Skipped], by rw [String.append_empty, h.eq_of_format hkey hformat]⟩
  · have hfront : front = key ++ String.ofList v := by
      apply String.toList_inj.mp
      rw [hv, String.toList_append, String.toList_ofList]
    exact ⟨_, h.skipped_of_format (hfront ▸ hformat), hfront⟩

end IsKeyText

namespace Transaction

/-! ### Hash and validity of transactions between texts -/

/-- The hash of a transaction whose addresses are texts and whose amount is a
    natural number. -/
theorem calculateHash_text {t : Transaction} {from' to' : String} {n : Nat}
    (hfrom : t.fromAddress = .str from') (hto : t.toAddress = .str to')
    (hamount : t.amount = .num n) :
    t.calculateHash E = .ok (E.SHA256 (.str (from' ++ to' ++ toString n))) := by
  unfold calculateHash
  rw [hfrom, hto, hamount]
  rfl

theorem isMissing_text {s : String} (h : s ≠ "") : isMissing (.str s) = false := by
  have hpos : Value.utf16Length s ≠ 0 := Nat.ne_of_gt (Value.utf16Length_pos h)
  simp [isMissing, Value.truthy, Value.get, h, hpos]

/-- A transaction from a sender with a signature is as valid as the
    signature. -/
theorem isValid_text {t : Transaction} {from' to' der : String} {n : Nat}
    (hfrom : t.fromAddress = .str from') (hto : t.toAddress = .str to')
    (hamount : t.amount = .num n) (hsig : t.signature = .str der) (hder : der ≠ "") :
    t.isValid E =
      E.verify (.str from') (E.SHA256 (.str (from' ++ to' ++ toString n))) (.str der) := by
  unfold isValid
  rw [calculateHash_text hfrom hto hamount, ok_bind, hfrom, hsig, isMissing_text hder]
  simp [isNull]

/-- What signing does: only the sender signs, and the signature is the one of
    the transaction's hash. -/
theorem signTransaction_cases {t t' : Transaction} {key : E.KeyPair}
    (h : t.signTransaction E key = .ok t') :
    t.fromAddress = .str (E.getPublic key) ∧ ∃ hash sig, t.calculateHash E = .ok hash ∧
      E.sign key hash = .ok sig ∧ t' = { t with signature := .str (E.toDER sig) } := by
  unfold signTransaction at h
  by_cases hown : isText t.fromAddress (E.getPublic key) = true
  · simp only [hown, Bool.not_true, Bool.false_eq_true, if_false] at h
    obtain ⟨hash, hhash, h⟩ := bind_eq_ok.mp h
    obtain ⟨sig, hsig, h⟩ := bind_eq_ok.mp h
    simp only [pure_eq_ok, Except.ok.injEq] at h
    refine ⟨?_, hash, sig, hhash, hsig, h.symm⟩
    unfold isText at hown
    split at hown
    · next s hs => rw [hs, of_decide_eq_true hown]
    · cases hown
  · simp [hown] at h

/-- Signing with the key of the sender. -/
theorem signTransaction_own {t : Transaction} {key : E.KeyPair} {hash : String}
    {sig : E.Signature} (hfrom : t.fromAddress = .str (E.getPublic key))
    (hhash : t.calculateHash E = .ok hash) (hsig : E.sign key hash = .ok sig) :
    t.signTransaction E key = .ok { t with signature := .str (E.toDER sig) } := by
  unfold signTransaction
  simp [hfrom, isText, hhash, hsig]

/-! ### Replacing the signed fields -/

/-- The transaction with other addresses and another amount, the signature
    kept. -/
def replace (t : Transaction) (fromAddress toAddress : String) (amount : Nat) : Transaction :=
  { t with fromAddress := .str fromAddress, toAddress := .str toAddress, amount := .num amount }

/-- A replacement is valid exactly if the three fields are written with the
    same text, and nothing but skipped characters has moved to the sender. -/
theorem isValid_replace_iff (hE : SoundSignatures E) {t t' : Transaction} {key : E.KeyPair}
    {to' : String} {n : Nat} (hto : t.toAddress = .str to') (hamount : t.amount = .num n)
    (hsigned : t.signTransaction E key = .ok t') (from₁ to₁ : String) (m : Nat) :
    (t'.replace from₁ to₁ m).isValid E = .ok true ↔
      ∃ u, Skipped u ∧ from₁ = E.getPublic key ++ u ∧
        u ++ (to₁ ++ toString m) = to' ++ toString n := by
  obtain ⟨hfrom, hash, sig, hhash, hsig, rfl⟩ := signTransaction_cases hsigned
  rw [calculateHash_text hfrom hto hamount, Except.ok.injEq] at hhash
  subst hhash
  have hvalid : (replace { t with signature := .str (E.toDER sig) } from₁ to₁ m).isValid E = _ :=
    isValid_text rfl rfl rfl rfl (hE.toDER_ne sig)
  rw [hvalid, String.append_assoc]
  constructor
  · intro hverified
    obtain ⟨hformat, hsame⟩ := hE.verify_only key _ sig hsig from₁ _ hverified
    have htext := hE.noCollision _ _ hsame
    rw [String.append_assoc] at htext
    obtain ⟨u, hskipped, rfl⟩ := (hE.keyText key).exists_skipped htext hformat
    rw [String.append_assoc, String.append_right_inj] at htext
    exact ⟨u, hskipped, rfl, htext⟩
  · rintro ⟨u, hskipped, rfl, htext⟩
    have hbytes : toArray (E.getPublic key ++ u) = toArray (E.getPublic key) := by
      unfold toArray
      rw [hskipped.readChars_append]
    have hsame : E.getPublic key ++ u ++ (to₁ ++ toString m) =
        E.getPublic key ++ to' ++ toString n := by
      rw [String.append_assoc, htext, String.append_assoc]
    rw [hsame]
    exact hE.verifies key _ sig hsig _ hbytes

/-- **Which signed transactions are safe.** Replacing sender, receiver and
    amount of a signed transaction is detected by `isValid`, whatever they are
    replaced by, exactly if the amount has one digit, the receiver ends in no
    digits but zeros, and it is empty or starts with a letter or a digit. -/
theorem tamper_detected_iff (hE : SoundSignatures E) {t t' : Transaction} {key : E.KeyPair}
    {to' : String} {n : Nat} (hto : t.toAddress = .str to') (hamount : t.amount = .num n)
    (hsigned : t.signTransaction E key = .ok t') :
    (∀ (from₁ to₁ : String) (m : Nat), (t'.replace from₁ to₁ m).isValid E = .ok true ↔
      from₁ = E.getPublic key ∧ to₁ = to' ∧ m = n) ↔
    n < 10 ∧ (∀ c ∈ Text.trailingDigits to', c = '0') ∧
      ∀ c, to'.toList.head? = some c → c.isAlphanum = true := by
  rw [← and_assoc, ← Text.numeral_cut_iff, ← skipped_front_iff to']
  constructor
  · intro hall
    constructor
    · intro to₁ m heq
      have hvalid := (isValid_replace_iff hE hto hamount hsigned (E.getPublic key) to₁ m).mpr
        ⟨"", by simp [Skipped], String.append_empty.symm, by rw [String.empty_append, heq]⟩
      exact ((hall _ to₁ m).mp hvalid).2
    · rintro u v hskipped rfl
      have hvalid := (isValid_replace_iff hE hto hamount hsigned (E.getPublic key ++ u) v n).mpr
        ⟨u, hskipped, rfl, String.append_assoc.symm⟩
      have hsender := ((hall _ v n).mp hvalid).1
      simpa using hsender
  · rintro ⟨hcut, hfront⟩ from₁ to₁ m
    rw [isValid_replace_iff hE hto hamount hsigned]
    constructor
    · rintro ⟨u, hskipped, rfl, htext⟩
      obtain ⟨v, hto', _⟩ := hskipped.exists_split htext
      obtain rfl := hfront u v hskipped hto'
      rw [String.empty_append] at htext
      exact ⟨String.append_empty, hcut to₁ m htext⟩
    · rintro ⟨rfl, rfl, rfl⟩
      exact ⟨"", by simp [Skipped], String.append_empty.symm, String.empty_append⟩

/-! ### Packages that meet the assumptions -/

/-- The one public key of `sealEnv`. -/
def sealKey : String := "04" ++ String.ofList (List.replicate 128 'a')

theorem isKeyText_sealKey : IsKeyText sealKey :=
  ⟨String.ofList (List.replicate 128 'a'), rfl, by simp, by simp [Char.isAlphanum]⟩

/-- One key; a text is its own hash but for a zero in front, and a signature
    shows the hash it was made for. -/
def sealEnv : Env where
  KeyPair   := Unit
  Signature := String
  SHA256    := fun v => match v with
    | .str t => "0" ++ t
    | _      => "0"
  getPublic := fun _ => sealKey
  sign      := fun _ hash => .ok hash
  toDER     := fun sig => "30" ++ sig
  verify    := fun publicKey hash signature => match publicKey, signature with
    | .str p, .str d =>
      if PointFormat (toArray p) then
        .ok (decide (toArray p = toArray sealKey ∧ d = "30" ++ hash))
      else .error (.error "Unknown point format")
    | _, _           => .error .typeError

theorem pointFormat_sealKey : PointFormat (toArray sealKey) := by decide +kernel

theorem verify_sealEnv_iff {publicKey hash hash' : String} :
    sealEnv.verify (.str publicKey) hash' (.str (sealEnv.toDER hash)) = .ok true ↔
      toArray publicKey = toArray sealKey ∧ hash' = hash := by
  show (if PointFormat (toArray publicKey) then
    Except.ok (decide (toArray publicKey = toArray sealKey ∧ "30" ++ hash = "30" ++ hash'))
    else Except.error (JsError.error "Unknown point format")) = .ok true ↔ _
  by_cases hkey : toArray publicKey = toArray sealKey
  · rw [hkey, if_pos pointFormat_sealKey, Except.ok.injEq, decide_eq_true_eq,
      String.append_right_inj, eq_comm (a := hash)]
  · split_ifs <;> simp [hkey]

theorem soundSignatures_sealEnv : SoundSignatures sealEnv where
  noCollision := fun s t h => (String.append_right_inj "0").mp h
  toDER_ne := by
    intro sig h
    exact absurd (String.append_eq_empty_iff.mp h).1 (by decide)
  keyText := fun _ => isKeyText_sealKey
  verifies := by
    intro key hash sig hsig publicKey hbytes
    obtain rfl : hash = sig := Except.ok.inj hsig
    exact verify_sealEnv_iff.mpr ⟨hbytes, rfl⟩
  verify_only := by
    intro key v sig hsig publicKey rest hverified
    obtain rfl : sealEnv.SHA256 v = sig := Except.ok.inj hsig
    obtain ⟨hbytes, hhash⟩ := verify_sealEnv_iff.mp hverified
    exact ⟨by rw [hbytes]; exact pointFormat_sealKey, hhash⟩

/-- A transaction like the one of the signing demo, not signed yet. -/
def transfer (amount : Nat) : Transaction :=
  .new (.str sealKey) (.str "receiver") (.num amount) (.num 0) .undefined .undefined

theorem exists_signed_transfer (amount : Nat) :
    ∃ t', (transfer amount).signTransaction sealEnv () = .ok t' :=
  ⟨_, signTransaction_own rfl (calculateHash_text rfl rfl rfl) rfl⟩

/-- The equivalence for a transfer of seven coins, which is safe. -/
theorem tamper_detected_iff_seven :
    ∃ t' : Transaction, (transfer 7).signTransaction sealEnv () = .ok t' ∧
      ((∀ (from₁ to₁ : String) (m : Nat), (t'.replace from₁ to₁ m).isValid sealEnv = .ok true ↔
        from₁ = sealEnv.getPublic () ∧ to₁ = "receiver" ∧ m = 7) ↔
      7 < 10 ∧ (∀ c ∈ Text.trailingDigits "receiver", c = '0') ∧
        ∀ c, "receiver".toList.head? = some c → c.isAlphanum = true) ∧
      7 < 10 ∧ (∀ c ∈ Text.trailingDigits "receiver", c = '0') ∧
        ∀ c, "receiver".toList.head? = some c → c.isAlphanum = true := by
  obtain ⟨t', hsigned⟩ := exists_signed_transfer 7
  have hnone : Text.trailingDigits "receiver" = [] := by decide
  refine ⟨t', hsigned, tamper_detected_iff soundSignatures_sealEnv (n := 7) rfl rfl hsigned,
    by decide, by simp [hnone], ?_⟩
  intro c hc
  obtain rfl : 'r' = c := Option.some.inj hc
  rfl

/-- **A digit crosses the border.** The demo's transfer of ten coins to
    `receiver`, once signed, may be turned into one of no coins to
    `receiver1` without `isValid` noticing. -/
theorem tamper_hidden_ten :
    SoundSignatures sealEnv ∧ ∃ t' : Transaction,
      (transfer 10).signTransaction sealEnv () = .ok t' ∧
      (t'.replace sealKey "receiver1" 0).isValid sealEnv = .ok true := by
  obtain ⟨t', hsigned⟩ := exists_signed_transfer 10
  refine ⟨soundSignatures_sealEnv, t', hsigned, ?_⟩
  rw [isValid_replace_iff soundSignatures_sealEnv (n := 10) rfl rfl hsigned]
  exact ⟨"", by simp [Skipped], String.append_empty.symm, by decide⟩

end Transaction

end XCoin
