import XCoin.Chain.Atomicity
import XCoin.Chain.Commitment
import XCoin.Chain.Validity

/-! # Tamper evidence

    One block of a mined chain is altered and keeps its hash.  If SHA-256 has
    no collisions, `isChainValid` notices every change of the text the hash
    is made of; so it misses an alteration exactly if the altered fields spell
    the same text.  The previous hash is compared with the block before, and
    transactions and nonce can be read back, so what is left is to move
    digits between index and timestamp across the previous hash.

    For the first mined block the previous hash is empty and digits move
    freely.  For a later block the previous hash would have to repeat itself
    under a shift, which a single letter among its digits rules out.
-/

namespace XCoin

open Js LTS AppendLog Throwing

variable {E : Env}

/-! ### Alterations -/

/-- New values for the fields of a block that its hash is made of. -/
structure Alteration where
  index        : Nat
  previousHash : String
  timestamp    : Nat
  transactions : List Val
  nonce        : Nat

namespace Alteration

/-- The altered block keeps its hash. -/
def apply (a : Alteration) (b : Block) : Block :=
  { b with
    index        := a.index
    previousHash := a.previousHash
    timestamp    := .num a.timestamp
    transactions := .arr a.transactions
    nonce        := a.nonce }

@[simp] theorem apply_hash (a : Alteration) (b : Block) : (a.apply b).hash = b.hash := rfl

/-- The new transactions are instances of `Transaction` that pass `isValid`. -/
def Valid (E : Env) (a : Alteration) : Prop :=
  ∀ tx ∈ a.transactions, callIsValid E tx = .ok true

/-- Some field changes, transactions compared by their JSON text. -/
def Changes (a : Alteration) (b : Block) : Prop :=
  a.index ≠ b.index ∨ a.previousHash ≠ b.previousHash ∨ .num a.timestamp ≠ b.timestamp ∨
    Json.stringify (.arr a.transactions) ≠ Json.stringify b.transactions ∨ a.nonce ≠ b.nonce

end Alteration

/-- No alteration of the block `b` at position `i` passes the validator. -/
def TamperEvident (E : Env) (chain : List Block) (i : Nat) (b : Block) : Prop :=
  ∀ a : Alteration, a.Valid E → a.Changes b →
    Blockchain.isChainValid E (chain.set i (a.apply b)) ≠ .ok true

/-- The heading of a block is spelled by no other index and timestamp around
    its previous hash. -/
def SplitsOneWay (b : Block) : Prop :=
  ∀ k t : Nat, toString k ++ b.previousHash ++ toString t = b.heading →
    k = b.index ∧ .num t = b.timestamp

/-! ### What the validator still checks -/

/-- In a valid chain every block but the first has a predecessor it is valid
    against. -/
theorem exists_predecessor {chain : List Block} {i : Nat} {b : Block}
    (h : chain.IsChain (BlockValid E)) (hi : 1 ≤ i) (hb : chain[i]? = some b) :
    ∃ j p, i = j + 1 ∧ chain[j]? = some p ∧ BlockValid E p b := by
  obtain ⟨j, rfl⟩ : ∃ j, i = j + 1 := ⟨i - 1, by omega⟩
  obtain ⟨hlt, hbj⟩ := List.getElem?_eq_some_iff.mp hb
  have hvalid := h.getElem j hlt
  rw [hbj] at hvalid
  exact ⟨j, _, rfl, List.getElem?_eq_getElem (by omega), hvalid⟩

/-- A valid chain with one block exchanged for one of the same hash is valid
    exactly if the new block is valid against the block before it. -/
theorem isChain_set_iff {chain : List Block} {i : Nat} {p b b' : Block}
    (h : chain.IsChain (BlockValid E)) (hp : chain[i]? = some p) (hb : chain[i + 1]? = some b)
    (hhash : b'.hash = b.hash) :
    (chain.set (i + 1) b').IsChain (BlockValid E) ↔ BlockValid E p b' := by
  obtain ⟨hlt, hbi⟩ := List.getElem?_eq_some_iff.mp hb
  obtain ⟨_, hpi⟩ := List.getElem?_eq_some_iff.mp hp
  rw [List.isChain_iff_getElem] at h ⊢
  constructor
  · intro hset
    have hi := hset i (by simpa using hlt)
    rw [List.getElem_set_ne (by omega), List.getElem_set_self, hpi] at hi
    exact hi
  · intro hvalid j hj
    rw [List.length_set] at hj
    have hold := h j hj
    by_cases hji : j = i
    · -- the exchanged block against its predecessor
      subst hji
      rw [List.getElem_set_ne (by omega), List.getElem_set_self, hpi]
      exact hvalid
    · rw [List.getElem_set_ne (i := i + 1) (j := j + 1) (by omega)]
      by_cases hji' : j = i + 1
      · -- the next block only sees the hash
        subst hji'
        rw [List.getElem_set_self]
        exact ⟨hold.isBlock, hold.transactions, hold.hash, by rw [hold.linked, hbi, hhash]⟩
      · rw [List.getElem_set_ne (by omega)]
        exact hold

/-- **What the validator accepts**: an altered chain passes exactly if the
    altered block keeps its previous hash and spells the same text. -/
theorem Alteration.accepted_iff {chain : List Block} {i : Nat} {b : Block} {a : Alteration}
    (hchain : chain.IsChain (BlockValid E))
    (hinj : Function.Injective fun t : String => E.SHA256 (.str t))
    (hi : 1 ≤ i) (hb : chain[i]? = some b) (ha : a.Valid E) :
    Blockchain.isChainValid E (chain.set i (a.apply b)) = .ok true ↔
      a.previousHash = b.previousHash ∧ (a.apply b).ownText = b.ownText := by
  obtain ⟨j, p, rfl, hp, hpb⟩ := exists_predecessor hchain hi hb
  obtain ⟨t, ht, hsha⟩ := Block.ownHash_eq_ok.mp hpb.hash
  rw [isChainValid_iff, isChain_set_iff hchain hp hb (a.apply_hash b), ht]
  constructor
  · intro hab
    obtain ⟨u, hu, hshau⟩ := Block.ownHash_eq_ok.mp hab.hash
    have hut : u = t := hinj (hshau.trans hsha.symm)
    exact ⟨hab.linked.trans hpb.linked.symm, hut ▸ hu⟩
  · rintro ⟨hprev, htext⟩
    refine ⟨hpb.isBlock, Block.allValid_iff.mpr ha, ?_, hprev.trans hpb.linked⟩
    exact Block.ownHash_eq_ok.mpr ⟨t, htext, hsha⟩

/-- Heading, JSON text and nonce determine the text. -/
theorem Block.ownText_congr {b₁ b₂ : Block} (hhead : b₁.heading = b₂.heading)
    (hjson : Json.stringify b₁.transactions = Json.stringify b₂.transactions)
    (hnonce : b₁.nonce = b₂.nonce) : b₁.ownText = b₂.ownText := by
  show (do let json ← Json.stringify b₁.transactions
           return b₁.heading ++ json.getD "undefined" ++ toString b₁.nonce : Result String) = _
  rw [hhead, hjson, hnonce]
  rfl

theorem transactions_valid {chain : List Block} {i : Nat} {b : Block} {txs : List Val}
    (hchain : chain.IsChain (BlockValid E)) (hi : 1 ≤ i) (hb : chain[i]? = some b)
    (htxs : b.transactions = .arr txs) : ∀ tx ∈ txs, callIsValid E tx = .ok true := by
  obtain ⟨j, p, _, _, hpb⟩ := exists_predecessor hchain hi hb
  have hvalid := hpb.transactions
  unfold Block.hasValidTransactions at hvalid
  rw [htxs] at hvalid
  exact Block.allValid_iff.mp hvalid

/-- **Alterations that stay hidden**: the validator misses an alteration of a
    block exactly if its heading can be spelled in another way. -/
theorem tamperEvident_iff_splitsOneWay {chain : List Block} {i : Nat} {b : Block}
    {clock : Int → Prop} (hchain : chain.IsChain (BlockValid E))
    (hgrown : Grown (MinedByClock E clock) [createGenesisBlock] chain)
    (hhex : ∀ t, IsHex (E.SHA256 (.str t)))
    (hinj : Function.Injective fun t : String => E.SHA256 (.str t))
    (hi : 1 ≤ i) (hb : chain[i]? = some b) : TamperEvident E chain i b ↔ SplitsOneWay b := by
  have hmined : MinedByClock E clock (chain.take i) b := hgrown.getElem (by simpa using hi) hb
  have hprev : IsHex b.previousHash :=
    hmined.isHex_previousHash (grown_minedOn (hgrown.take (by simpa using hi))) hhex
  obtain ⟨date, _, htime⟩ := hmined.time
  obtain ⟨txs, htxs⟩ := hmined.list
  obtain ⟨t, ht, _⟩ := Block.ownHash_eq_ok.mp hmined.hash
  constructor
  · -- another spelling gives an alteration that is accepted
    intro hevident k s heq
    by_contra hne
    let a : Alteration := ⟨k, b.previousHash, s, txs, b.nonce⟩
    have ha : a.Valid E := transactions_valid hchain hi hb htxs
    have hchanges : a.Changes b := by
      by_cases hk : k = b.index
      · exact .inr (.inr (.inl fun hs => hne ⟨hk, hs⟩))
      · exact .inl hk
    have htext : (a.apply b).ownText = b.ownText :=
      Block.ownText_congr heq (by rw [htxs]; rfl) rfl
    exact hevident a ha hchanges ((Alteration.accepted_iff hchain hinj hi hb ha).mpr ⟨rfl, htext⟩)
  · intro hone a ha hchanges hok
    obtain ⟨hsame, htext⟩ := (Alteration.accepted_iff hchain hinj hi hb ha).mp hok
    have hhead : '[' ∉ b.heading.toList := Block.bracket_not_mem_heading hprev htime
    have hhead' : '[' ∉ (a.apply b).heading.toList :=
      Block.bracket_not_mem_heading (show IsHex a.previousHash from hsame ▸ hprev)
        (show (a.apply b).timestamp = .num a.timestamp from rfl)
    obtain ⟨heq, hjson, hnonce⟩ :=
      Block.ownText_cancel hhead' hhead rfl htxs (htext.trans ht) ht
    have hspell : toString a.index ++ b.previousHash ++ toString a.timestamp = b.heading := by
      rw [← heq, ← hsame]
      rfl
    obtain ⟨hindex, hts⟩ := hone a.index a.timestamp hspell
    rcases hchanges with h | h | h | h | h
    · exact h hindex
    · exact h hsame
    · exact h hts
    · exact h hjson
    · exact h hnonce

/-! ### Other spellings -/

/-- The first mined block, with index `1` and nothing between index and
    timestamp: the first digits of a timestamp of two or more digits can be
    read as part of the index. -/
theorem splitsOneWay_first_iff {b : Block} {t : Int} (hindex : b.index = 1)
    (hprev : b.previousHash = "") (htime : b.timestamp = .num t) :
    SplitsOneWay b ↔ t < 10 := by
  have hheading : b.heading = "1" ++ (Timestamp.num t).text := by
    unfold Block.heading
    rw [hindex, hprev, htime, String.append_empty]
    rfl
  constructor
  · intro hone
    by_contra hge
    obtain ⟨n, rfl⟩ := Int.eq_ofNat_of_zero_le (show 0 ≤ t by omega)
    obtain ⟨k, hk, heq⟩ := Text.exists_toString_one_append (n / 10)
    have hspell : toString k ++ b.previousHash ++ toString (n % 10) = b.heading := by
      rw [hheading, hprev, String.append_empty, ← heq, String.append_assoc,
        ← Text.toString_split (by omega)]
      rfl
    have hk1 := (hone k (n % 10) hspell).1
    omega
  · intro hlt k s heq
    rw [hheading, hprev, String.append_empty] at heq
    rw [hindex, htime]
    have hlist := congrArg String.toList heq
    rw [String.toList_append, String.toList_append] at hlist
    have hk : (toString k).toList ≠ [] := by
      rw [Text.toList_toString]
      exact Nat.toDigits_ne_nil
    have hs : (toString s).toList ≠ [] := by
      rw [Text.toList_toString]
      exact Nat.toDigits_ne_nil
    cases t with
    | negSucc m =>
      -- a sign would have to be a digit of `k` or `s`
      have hmem : '-' ∈ (toString k).toList ++ (toString s).toList := by
        rw [hlist]
        show '-' ∈ "1".toList ++ ("-" ++ toString (m + 1)).toList
        simp
      rcases List.mem_append.mp hmem with hmem | hmem
      · exact absurd (Text.isDigit_of_mem_toString hmem) (by decide)
      · exact absurd (Text.isDigit_of_mem_toString hmem) (by decide)
    | ofNat n =>
      -- two digits in all, so one for the index and one for the timestamp
      have hn : (toString n).toList = [Nat.digitChar n] := by
        rw [Text.toList_toString]
        exact Nat.toDigits_of_lt_base (by simpa using hlt)
      have htwo : (toString k).toList ++ (toString s).toList = ['1'] ++ (toString n).toList :=
        hlist
      have hlen := congrArg List.length htwo
      rw [List.length_append, List.length_append, hn] at hlen
      have hkpos := List.length_pos_iff.mpr hk
      have hspos := List.length_pos_iff.mpr hs
      obtain ⟨hone, hrest⟩ := List.append_inj htwo (by
        simp only [List.length_singleton] at hlen ⊢
        omega)
      have hk1 : k = 1 := Text.toString_injective (String.toList_inj.mp hone)
      have hsn : s = n := Text.toString_injective (String.toList_inj.mp hrest)
      rw [hk1, hsn]
      exact ⟨rfl, rfl⟩

/-- A previous hash with a letter in it fixes index and timestamp. -/
theorem splitsOneWay_of_letter {b : Block} {n : Nat} {c : Char} (htime : b.timestamp = .num n)
    (hc : c ∈ b.previousHash.toList) (hletter : c.isDigit = false) : SplitsOneWay b := by
  intro k s heq
  -- split the hash at its first character that is not a digit
  obtain ⟨ds, x, rest, hsplit, hds, hx⟩ : ∃ ds x rest, b.previousHash.toList = ds ++ x :: rest ∧
      (∀ d ∈ ds, d.isDigit = true) ∧ ¬ x.isDigit = true := by
    obtain ⟨ds, rest, hsplit, hds, hrest⟩ :
        ∃ ds rest, b.previousHash.toList = ds ++ rest ∧ (∀ d ∈ ds, d.isDigit = true) ∧
          ∀ x ∈ rest.head?, ¬ x.isDigit = true :=
      ⟨_, _, (List.takeWhile_append_dropWhile (p := Char.isDigit)).symm,
        fun d hd => List.mem_takeWhile_imp hd, fun x hx => by
          have := List.head?_dropWhile_not Char.isDigit b.previousHash.toList
          rw [hx] at this
          simpa using this⟩
    cases rest with
    | nil =>
      rw [hsplit, List.append_nil] at hc
      rw [hds c hc] at hletter
      cases hletter
    | cons x rest => exact ⟨ds, x, rest, hsplit, hds, hrest x rfl⟩
  have hlist : ((toString k).toList ++ ds) ++ x :: (rest ++ (toString s).toList) =
      ((toString b.index).toList ++ ds) ++ x :: (rest ++ (toString n).toList) := by
    have := congrArg String.toList heq
    simp only [Block.heading, htime, String.toList_append, hsplit, List.append_assoc,
      List.cons_append] at this ⊢
    exact this
  have hdigits (m : Nat) : ∀ d ∈ (toString m).toList ++ ds, d.isDigit = true := by
    intro d hd
    rcases List.mem_append.mp hd with hd | hd
    · exact Text.isDigit_of_mem_toString hd
    · exact hds d hd
  obtain ⟨hk, hrest⟩ := Text.append_cons_cancel (hdigits k) (hdigits b.index) hx hx hlist
  have hindex : k = b.index :=
    Text.toString_injective (String.toList_inj.mp (List.append_cancel_right hk))
  have hs : s = n := Text.toString_injective
    (String.toList_inj.mp (List.append_cancel_left (List.cons.inj hrest).2))
  rw [htime, hs]
  exact ⟨hindex, rfl⟩

/-! ### Runs -/

/-- **Tamper evidence.** If SHA-256 has no collisions, a block of a chain
    produced by `addTransaction` and `minePendingTransactions` cannot be
    altered unnoticed if and only if it is the first mined block and its
    timestamp is below ten, or it is a later block and its heading is spelled
    in one way only. -/
theorem tamperEvident_iff {keyPair : Option E.KeyPair} {bc : Blockchain E} {i : Nat} {b : Block}
    (h : Reachable (submitSystem E keyPair) bc) (hhex : ∀ t, IsHex (E.SHA256 (.str t)))
    (hinj : Function.Injective fun t : String => E.SHA256 (.str t))
    (hi : 1 ≤ i) (hb : bc.chain[i]? = some b) :
    TamperEvident E bc.chain i b ↔
      (i = 1 → ∃ t, b.timestamp = .num t ∧ t < 10) ∧ (2 ≤ i → SplitsOneWay b) := by
  have hgrown : Grown (MinedByClock E fun _ => True) [createGenesisBlock] bc.chain :=
    grown_byClock (fun _ _ hop => hop.byClock) h
  rw [tamperEvident_iff_splitsOneWay (sound_of_reachable h).chain hgrown hhex hinj hi hb]
  rcases Nat.eq_or_lt_of_le hi with rfl | hlt
  · -- the block after the genesis block
    have hmined := hgrown.getElem (by simp) hb
    obtain ⟨t, _, htime⟩ := hmined.time
    have hprev : b.previousHash = "" := by
      obtain ⟨latest, hlast, _, hprev⟩ := hmined.linked
      rcases grown_last_hash (grown_minedOn (hgrown.take (by simp))) hlast with
        ⟨_, hempty⟩ | ⟨hlen, _⟩
      · rw [hprev, hempty]
      · have := List.length_take_le 1 bc.chain
        omega
    have hindex : b.index = 1 := grown_index (grown_minedOn hgrown) hb
    rw [splitsOneWay_first_iff hindex hprev htime]
    constructor
    · intro ht
      exact ⟨fun _ => ⟨t, htime, ht⟩, fun h => by omega⟩
    · rintro ⟨hfirst, _⟩
      obtain ⟨t', htime', ht'⟩ := hfirst rfl
      rw [htime, Timestamp.num.injEq] at htime'
      omega
  · constructor
    · intro hone
      exact ⟨fun h => by omega, fun _ => hone⟩
    · rintro ⟨_, hlater⟩
      exact hlater hlt

/-! ### Packages without collisions -/

/-- A character as a run of ones that a zero ends. -/
def unary (c : Char) : List Char := List.replicate c.toNat '1' ++ ['0']

theorem flatMap_unary_injective {s t : List Char} (h : s.flatMap unary = t.flatMap unary) :
    s = t := by
  induction s generalizing t with
  | nil =>
    cases t with
    | nil => rfl
    | cons d t => simp [unary] at h
  | cons c s ih =>
    cases t with
    | nil => simp [unary] at h
    | cons d t =>
      -- the first zero ends the first character
      have hcut : List.replicate c.toNat '1' ++ '0' :: s.flatMap unary =
          List.replicate d.toNat '1' ++ '0' :: t.flatMap unary := by
        simpa [unary] using h
      obtain ⟨hrun, hrest⟩ := Text.append_cons_cancel (p := fun x => x = '1')
        (fun x hx => (List.mem_replicate.mp hx).2) (fun x hx => (List.mem_replicate.mp hx).2)
        (by decide) (by decide) hcut
      have hlen : c.toNat = d.toNat := by
        simpa using congrArg List.length hrun
      rw [Char.toNat_inj.mp hlen, ih (List.cons.inj hrest).2]

/-- Packages in which different texts have different digests, and every
    digest starts with `0`. -/
def hexEnv : Env :=
  { demoEnv with
    SHA256 := fun v => match v with
      | .str t => String.ofList ('0' :: t.toList.flatMap unary)
      | _      => "0" }

theorem hexEnv_injective : Function.Injective fun t : String => hexEnv.SHA256 (.str t) := by
  intro s t h
  have hlist : '0' :: s.toList.flatMap unary = '0' :: t.toList.flatMap unary :=
    String.ofList_injective h
  exact String.toList_inj.mp (flatMap_unary_injective (List.cons.inj hlist).2)

theorem hexEnv_isHex (t : String) : IsHex (hexEnv.SHA256 (.str t)) := by
  intro c hc
  have hmem : c ∈ '0' :: t.toList.flatMap unary := by
    rw [← String.toList_ofList (l := '0' :: t.toList.flatMap unary)]
    exact hc
  have hbin : c = '0' ∨ c = '1' := by
    simp only [List.mem_cons, List.mem_flatMap, unary, List.mem_append,
      List.mem_replicate] at hmem
    grind
  rcases hbin with rfl | rfl
  · simp
  · simp

theorem hexEnv_matches (t : String) :
    Block.hashMatchesDifficulty (hexEnv.SHA256 (.str t)) (.int 1) = .ok true := by
  show (.ok (Block.startsWith (String.ofList ('0' :: _)) (String.ofList ['0'])) : Result Bool) = _
  simp [Block.startsWith]

/-- At difficulty 1 an empty pending list can always be mined. -/
theorem hexEnv_mine_step (bc : Blockchain hexEnv) (hkey : bc.keyPair = some ())
    (hpending : bc.pendingTransactions = []) {latest : Block}
    (hlatest : bc.chain.getLast? = some latest)
    (hdiff : getDifficulty bc.chain = .ok (.int 1)) (date : Int) :
    ∃ coinBase b, bc.coinBaseTransaction (.str "miner") = .ok coinBase ∧
      MinedOn hexEnv bc.chain b ∧ b.timestamp = .num date ∧
      b.transactions = .arr [coinBase.toValue] ∧
      (Op.minePendingTransactions (.str "miner") date 1).exec bc =
        some (.ok (), { bc with chain := bc.chain ++ [b], pendingTransactions := [] }) := by
  obtain ⟨coinBase, hcoin⟩ : ∃ coinBase,
      bc.coinBaseTransaction (.str "miner") = .ok coinBase := by
    unfold Blockchain.coinBaseTransaction
    rw [hkey]
    exact ⟨_, rfl⟩
  obtain ⟨text, htext⟩ := coinBase_stringify hcoin
  have hjson : Json.stringify (.arr (bc.pendingTransactions ++ [coinBase.toValue])) =
      .ok (some ("[" ++ text.getD "null" ++ "]")) := by
    simp [hpending, Json.stringify, Json.stringifyElems, htext]
  obtain ⟨block, bc', hmine⟩ := Blockchain.minePendingTransactions_first hcoin
    (latestBlock_eq_ok.mpr hlatest) hdiff hjson hexEnv_matches date 0
  rcases Blockchain.minePendingTransactions_cases hmine with
    ⟨e, _, hr, _⟩ | ⟨coinBase', hcoin', ⟨e, hr, _⟩ | ⟨b, hr, hmined, htime, htxs, hbc⟩⟩
  · cases hr
  · cases hr
  · obtain rfl := Except.ok.inj (hcoin.symm.trans hcoin')
    rw [hpending] at htxs
    refine ⟨coinBase, b, hcoin, hmined, htime, htxs, ?_⟩
    rw [Op.exec_minePendingTransactions hmine, hbc]
    rfl

/-- A chain of one mined block, at any clock value. -/
theorem hexEnv_mine (date : Int) :
    ∃ (bc : Blockchain hexEnv) (b : Block), Reachable (submitSystem hexEnv (some ())) bc ∧
      bc.chain = [createGenesisBlock, b] ∧ b.timestamp = .num date := by
  obtain ⟨coinBase, b, _, _, htime, _, hexec⟩ :=
    hexEnv_mine_step (.new hexEnv (some ())) rfl rfl rfl getDifficulty_genesis date
  exact ⟨_, b, .step (.minePendingTransactions (.str "miner") date 1) (.init rfl)
    ⟨trivial, _, hexec⟩, rfl, htime⟩

/-- The equivalence for a first block with the timestamp `5`: nothing about it
    can be altered. -/
theorem tamperEvident_one_digit :
    ∃ (bc : Blockchain hexEnv) (b : Block), Reachable (submitSystem hexEnv (some ())) bc ∧
      bc.chain[1]? = some b ∧ TamperEvident hexEnv bc.chain 1 b := by
  obtain ⟨bc, b, hreach, hchain, htime⟩ := hexEnv_mine 5
  have hb : bc.chain[1]? = some b := by
    rw [hchain]
    rfl
  refine ⟨bc, b, hreach, hb, ?_⟩
  rw [tamperEvident_iff hreach hexEnv_isHex hexEnv_injective (Nat.le_refl 1) hb]
  exact ⟨fun _ => ⟨5, htime, by decide⟩, fun h => absurd h (by decide)⟩

/-- **A hidden alteration.** The first block mined at `1589453316000` is
    given the index `11` and the timestamp `589453316000`; everything else
    stays, and the validator accepts the chain. -/
theorem hidden_alteration_first_block :
    Function.Injective (fun t : String => hexEnv.SHA256 (.str t)) ∧
    ∃ (bc : Blockchain hexEnv) (b : Block) (a : Alteration),
      Reachable (submitSystem hexEnv (some ())) bc ∧ bc.chain[1]? = some b ∧
      b.index = 1 ∧ b.timestamp = .num 1589453316000 ∧
      a.index = 11 ∧ a.timestamp = 589453316000 ∧ a.Valid hexEnv ∧ a.Changes b ∧
      Blockchain.isChainValid hexEnv (bc.chain.set 1 (a.apply b)) = .ok true := by
  refine ⟨hexEnv_injective, ?_⟩
  obtain ⟨bc, b, hreach, hchain, htime⟩ := hexEnv_mine 1589453316000
  have hb : bc.chain[1]? = some b := by
    rw [hchain]
    rfl
  have hgrown : Grown (MinedByClock hexEnv fun _ => True) [createGenesisBlock] bc.chain :=
    grown_byClock (fun _ _ hop => hop.byClock) hreach
  have hsound := (sound_of_reachable hreach).chain
  have hindex : b.index = 1 := grown_index (grown_minedOn hgrown) hb
  obtain ⟨txs, htxs⟩ := (hgrown.getElem (by simp) hb).list
  have hprev : b.previousHash = "" := by
    rw [hchain, List.isChain_cons_cons] at hsound
    exact hsound.1.linked
  let a : Alteration := ⟨11, b.previousHash, 589453316000, txs, b.nonce⟩
  have ha : a.Valid hexEnv := transactions_valid hsound (Nat.le_refl 1) hb htxs
  -- "11" and "589453316000" spell what "1" and "1589453316000" spell
  have hhead : (a.apply b).heading = b.heading := by
    show toString 11 ++ b.previousHash ++ toString 589453316000 = _
    unfold Block.heading
    rw [hprev, hindex, htime]
    decide +kernel
  have htext : (a.apply b).ownText = b.ownText :=
    Block.ownText_congr hhead (by rw [htxs]; rfl) rfl
  refine ⟨bc, b, a, hreach, hb, hindex, htime, rfl, rfl, ha, ?_, ?_⟩
  · refine .inl ?_
    rw [hindex]
    show 11 ≠ 1
    decide
  · exact (Alteration.accepted_iff hsound hexEnv_injective (Nat.le_refl 1) hb ha).mpr ⟨rfl, htext⟩

end XCoin
