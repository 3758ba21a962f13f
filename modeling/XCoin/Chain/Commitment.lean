import Mathlib.Data.List.Forall2
import Mathlib.Data.List.Nodup
import XCoin.Framework.Text
import XCoin.Chain.Difficulty

/-! # What the head hash commits to

    A block's hash is the hash of one text,

      `index + previousHash + timestamp + JSON + nonce`,

    with nothing between the fields.  The JSON text of an array starts with
    `[` and ends with `]`, and neither digests nor numerals contain a
    bracket, so the array and the nonce can be read back.  What is left is
    the `heading`; it can be split as well once the index and the length of
    the previous hash are known, which they are in a grown chain.

    The head hash then determines the latest block, its previous hash the
    block before it, and so on down to the genesis block.
-/

namespace XCoin

open Js LTS AppendLog Throwing

variable {E : Env}

/-! ### Digests -/

/-- A text of lower-case hexadecimal digits. -/
def IsHex (s : String) : Prop := ∀ c ∈ s.toList, c ∈ "0123456789abcdef".toList

/-- What SHA-256 returns: 64 hexadecimal digits. -/
def IsDigest (s : String) : Prop := s.toList.length = 64 ∧ IsHex s

theorem IsHex.bracket_not_mem {s : String} (h : IsHex s) : '[' ∉ s.toList := by
  intro hmem
  have := h _ hmem
  simp at this

theorem isHex_empty : IsHex "" := by
  intro c hc
  simp at hc

/-! ### The text behind a hash -/

/-- The text whose hash a block carries. -/
def Block.ownText (b : Block) : Result String :=
  Block.hashText b.index b.previousHash b.timestamp b.transactions b.nonce

theorem Block.ownHash_eq_ok {b : Block} {hash : String} :
    b.ownHash E = .ok hash ↔ ∃ t, b.ownText = .ok t ∧ E.SHA256 (.str t) = hash := by
  unfold Block.ownHash Block.calculateHash
  rw [bind_eq_ok]
  simp only [pure_eq_ok, Except.ok.injEq]
  rfl

/-- The part of the text before the transactions. -/
def Block.heading (b : Block) : String :=
  toString b.index ++ b.previousHash ++ b.timestamp.text

theorem bracket_not_mem_toString (n : Nat) : '[' ∉ (toString n).toList := by
  intro hmem
  have := Text.isDigit_of_mem_toString hmem
  simp at this

theorem Timestamp.bracket_not_mem (n : Int) : '[' ∉ (Timestamp.num n).text.toList := by
  cases n with
  | ofNat m => exact bracket_not_mem_toString m
  | negSucc m =>
    show '[' ∉ ("-" ++ toString (m + 1)).toList
    have := bracket_not_mem_toString (m + 1)
    simpa using this

/-- The heading of a block with a digest and a clock value has no bracket. -/
theorem Block.bracket_not_mem_heading {b : Block} {date : Int} (hprev : IsHex b.previousHash)
    (htime : b.timestamp = .num date) : '[' ∉ b.heading.toList := by
  intro hmem
  simp only [Block.heading, String.toList_append, List.mem_append, htime] at hmem
  rcases hmem with (hmem | hmem) | hmem
  · exact bracket_not_mem_toString _ hmem
  · exact hprev.bracket_not_mem hmem
  · exact Timestamp.bracket_not_mem date hmem

theorem Block.ownText_of_arr {b : Block} {txs : List Val} {t : String}
    (htxs : b.transactions = .arr txs) (h : b.ownText = .ok t) :
    ∃ u, Json.stringify b.transactions = .ok (some ("[" ++ u ++ "]")) ∧
      t = b.heading ++ ("[" ++ u ++ "]") ++ toString b.nonce := by
  obtain ⟨json, hjson, ht⟩ := bind_eq_ok.mp h
  obtain ⟨u, rfl⟩ := Json.stringify_arr (htxs ▸ hjson)
  cases ht
  exact ⟨u, hjson, rfl⟩

/-- **Reading the text back**: two blocks with the same text agree on the
    heading, the JSON text of the transactions and the nonce. -/
theorem Block.ownText_cancel {b₁ b₂ : Block} {txs₁ txs₂ : List Val} {t : String}
    (hhead₁ : '[' ∉ b₁.heading.toList) (hhead₂ : '[' ∉ b₂.heading.toList)
    (htxs₁ : b₁.transactions = .arr txs₁) (htxs₂ : b₂.transactions = .arr txs₂)
    (h₁ : b₁.ownText = .ok t) (h₂ : b₂.ownText = .ok t) :
    b₁.heading = b₂.heading ∧ Json.stringify b₁.transactions = Json.stringify b₂.transactions ∧
      b₁.nonce = b₂.nonce := by
  obtain ⟨u₁, hjson₁, ht₁⟩ := Block.ownText_of_arr htxs₁ h₁
  obtain ⟨u₂, hjson₂, ht₂⟩ := Block.ownText_of_arr htxs₂ h₂
  obtain ⟨hhead, hu, hnonce⟩ := Text.bracketed_cancel hhead₁ hhead₂ (ht₁.symm.trans ht₂)
  exact ⟨hhead, by rw [hjson₁, hjson₂, hu], hnonce⟩

/-- With the index and the length of the previous hash known, the heading
    gives the previous hash and the timestamp. -/
theorem Block.heading_cancel {b₁ b₂ : Block} {n₁ n₂ : Nat} (hindex : b₁.index = b₂.index)
    (hlen : b₁.previousHash.toList.length = b₂.previousHash.toList.length)
    (htime₁ : b₁.timestamp = .num n₁) (htime₂ : b₂.timestamp = .num n₂)
    (h : b₁.heading = b₂.heading) :
    b₁.previousHash = b₂.previousHash ∧ b₁.timestamp = b₂.timestamp := by
  have hlist : b₁.previousHash.toList ++ (toString n₁).toList =
      b₂.previousHash.toList ++ (toString n₂).toList := by
    have := congrArg String.toList h
    simp only [Block.heading, hindex, htime₁, htime₂, String.toList_append,
      List.append_assoc] at this
    exact List.append_cancel_left this
  obtain ⟨hprev, htext⟩ := List.append_inj hlist hlen
  have hn : n₁ = n₂ := Text.toString_injective (String.toList_inj.mp htext)
  exact ⟨String.toList_inj.mp hprev, by rw [htime₁, htime₂, hn]⟩

/-! ### Hashes in a grown chain -/

/-- The hash of the latest block: empty for the genesis block, a digest for
    every block after it. -/
theorem grown_last_hash {c : List Block} {b : Block}
    (h : Grown (MinedOn E) [createGenesisBlock] c) (hlast : c.getLast? = some b) :
    (c.length = 1 ∧ b.hash = "") ∨ (2 ≤ c.length ∧ ∃ t, b.hash = E.SHA256 (.str t)) := by
  cases h with
  | base =>
    cases hlast
    exact .inl ⟨rfl, rfl⟩
  | @append l x hl hmined =>
    simp only [List.getLast?_append, List.getLast?_singleton, Option.some_or,
      Option.some.injEq] at hlast
    subst hlast
    obtain ⟨t, _, hhash⟩ := Block.ownHash_eq_ok.mp hmined.hash
    have hpos : 1 ≤ l.length := hl.length_le
    exact .inr ⟨by simp; omega, t, hhash.symm⟩

/-- The previous hash of a mined block is empty or a digest. -/
theorem MinedOn.isHex_previousHash {c : List Block} {b : Block} (hb : MinedOn E c b)
    (h : Grown (MinedOn E) [createGenesisBlock] c) (hhex : ∀ t, IsHex (E.SHA256 (.str t))) :
    IsHex b.previousHash := by
  obtain ⟨latest, hlast, _, hprev⟩ := hb.linked
  rw [hprev]
  rcases grown_last_hash h hlast with ⟨_, hempty⟩ | ⟨_, t, ht⟩
  · rw [hempty]
    exact isHex_empty
  · rw [ht]
    exact hhex t

/-! ### Agreement of two chains -/

/-- Two blocks agree on everything a block carries, transactions compared by
    their JSON text. -/
structure Block.Agree (b₁ b₂ : Block) : Prop where
  index        : b₁.index = b₂.index
  previousHash : b₁.previousHash = b₂.previousHash
  timestamp    : b₁.timestamp = b₂.timestamp
  nonce        : b₁.nonce = b₂.nonce
  difficulty   : b₁.difficulty = b₂.difficulty
  hash         : b₁.hash = b₂.hash
  transactions : Json.stringify b₁.transactions = Json.stringify b₂.transactions

theorem Block.Agree.refl (b : Block) : b.Agree b := ⟨rfl, rfl, rfl, rfl, rfl, rfl, rfl⟩

theorem agree_getElem? {c₁ c₂ : List Block} (h : List.Forall₂ Block.Agree c₁ c₂) {i : Nat}
    {b₁ : Block} (hb : c₁[i]? = some b₁) : ∃ b₂, c₂[i]? = some b₂ ∧ b₁.Agree b₂ := by
  induction h generalizing i with
  | nil => simp at hb
  | @cons x₁ x₂ l₁ l₂ hx _ ih =>
    cases i with
    | zero =>
      cases hb
      exact ⟨x₂, rfl, hx⟩
    | succ i => exact ih hb

/-- `getDifficulty` only reads what the blocks agree on. -/
theorem getDifficulty_congr {c₁ c₂ : List Block} (h : List.Forall₂ Block.Agree c₁ c₂) :
    getDifficulty c₁ = getDifficulty c₂ := by
  have hlen : c₁.length = c₂.length := h.length_eq
  cases hlast₁ : c₁.getLast? with
  | none =>
    rw [List.getLast?_eq_none_iff] at hlast₁
    subst hlast₁
    cases h
    rfl
  | some b₁ =>
    obtain ⟨b₂, hb₂, hagree⟩ := agree_getElem? h (List.getLast?_eq_getElem? ▸ hlast₁)
    have hlast₂ : c₂.getLast? = some b₂ := by
      rw [List.getLast?_eq_getElem?, ← hlen]
      exact hb₂
    -- at a retarget both chains read agreeing blocks
    have hadjusted : getAdjustedDifficulty b₁ c₁ = getAdjustedDifficulty b₂ c₂ := by
      unfold getAdjustedDifficulty
      rw [hlen, hagree.timestamp]
      split
      · rfl
      · cases hp₁ : c₁[c₂.length - DIFFICULTY_ADJUSTMENT_INTERVAL]? with
        | none =>
          rw [List.getElem?_eq_none_iff, hlen, ← List.getElem?_eq_none_iff] at hp₁
          rw [hp₁]
        | some p₁ =>
          obtain ⟨p₂, hp₂, hp⟩ := agree_getElem? h hp₁
          rw [hp₂]
          simp only [hp.timestamp, hp.difficulty]
    unfold getDifficulty
    rw [latestBlock_eq_ok.mpr hlast₁, latestBlock_eq_ok.mpr hlast₂, ok_bind, ok_bind,
      hagree.index, hagree.difficulty, hadjusted]

/-! ### The commitment -/

/-- The texts whose hashes the blocks of a chain carry. -/
def hashTexts (c : List Block) : List String :=
  c.filterMap fun b => b.ownText.toOption

/-- SHA-256 has no collision among the given texts.  No function is injective
    on all texts and returns 64 digits; that it is on those that occur is
    what can be assumed. -/
def NoCollision (E : Env) (texts : List String) : Prop :=
  ∀ x ∈ texts, ∀ y ∈ texts, E.SHA256 (.str x) = E.SHA256 (.str y) → x = y

theorem mem_hashTexts {c : List Block} {b : Block} {t : String} (hb : b ∈ c)
    (ht : b.ownText = .ok t) : t ∈ hashTexts c :=
  List.mem_filterMap.mpr ⟨b, hb, by rw [ht]; rfl⟩

theorem NoCollision.of_append {l₁ l₂ r₁ r₂ : List Block}
    (h : NoCollision E (hashTexts (l₁ ++ r₁) ++ hashTexts (l₂ ++ r₂))) :
    NoCollision E (hashTexts l₁ ++ hashTexts l₂) := by
  intro x hx y hy heq
  have hsub : ∀ z ∈ hashTexts l₁ ++ hashTexts l₂,
      z ∈ hashTexts (l₁ ++ r₁) ++ hashTexts (l₂ ++ r₂) := by
    intro z hz
    simp only [hashTexts, List.filterMap_append, List.mem_append] at hz ⊢
    exact hz.imp .inl .inl
  exact h x (hsub x hx) y (hsub y hy) heq

/-- **Step lemma**: two blocks with the same hash, mined on chains of one
    length, agree on all fields their hash is made of. -/
theorem MinedByClock.hash_inj {l₁ l₂ : List Block} {b₁ b₂ : Block}
    (hl₁ : Grown (MinedOn E) [createGenesisBlock] l₁)
    (hl₂ : Grown (MinedOn E) [createGenesisBlock] l₂)
    (h₁ : MinedByClock E (0 ≤ ·) l₁ b₁) (h₂ : MinedByClock E (0 ≤ ·) l₂ b₂)
    (hdigest : ∀ t, IsDigest (E.SHA256 (.str t)))
    (hinj : NoCollision E (hashTexts (l₁ ++ [b₁]) ++ hashTexts (l₂ ++ [b₂])))
    (hlen : l₁.length = l₂.length) (hhash : b₁.hash = b₂.hash) :
    b₁.index = b₂.index ∧ b₁.previousHash = b₂.previousHash ∧ b₁.timestamp = b₂.timestamp ∧
      b₁.nonce = b₂.nonce ∧ Json.stringify b₁.transactions = Json.stringify b₂.transactions := by
  obtain ⟨t₁, ht₁, hsha₁⟩ := Block.ownHash_eq_ok.mp h₁.hash
  obtain ⟨t₂, ht₂, hsha₂⟩ := Block.ownHash_eq_ok.mp h₂.hash
  -- the same hash is the hash of the same text
  have htext : t₁ = t₂ := by
    apply hinj
    · exact List.mem_append_left _ (mem_hashTexts (by simp) ht₁)
    · exact List.mem_append_right _ (mem_hashTexts (by simp) ht₂)
    · rw [hsha₁, hsha₂, hhash]
  subst htext
  obtain ⟨p₁, hlast₁, _, hprev₁⟩ := h₁.linked
  obtain ⟨p₂, hlast₂, _, hprev₂⟩ := h₂.linked
  obtain ⟨d₁, hd₁, htime₁⟩ := h₁.time
  obtain ⟨d₂, hd₂, htime₂⟩ := h₂.time
  obtain ⟨txs₁, htxs₁⟩ := h₁.list
  obtain ⟨txs₂, htxs₂⟩ := h₂.list
  obtain ⟨n₁, rfl⟩ := Int.eq_ofNat_of_zero_le hd₁
  obtain ⟨n₂, rfl⟩ := Int.eq_ofNat_of_zero_le hd₂
  have hhex : ∀ t, IsHex (E.SHA256 (.str t)) := fun t => (hdigest t).2
  have hhead₁ : '[' ∉ b₁.heading.toList :=
    Block.bracket_not_mem_heading (h₁.isHex_previousHash hl₁ hhex) htime₁
  have hhead₂ : '[' ∉ b₂.heading.toList :=
    Block.bracket_not_mem_heading (h₂.isHex_previousHash hl₂ hhex) htime₂
  -- cut the text at its first and its last bracket
  obtain ⟨hhead, hjson, hnonce⟩ := Block.ownText_cancel hhead₁ hhead₂ htxs₁ htxs₂ ht₁ ht₂
  -- indices are positions, and the chains have one length
  have hindex : b₁.index = b₂.index := by
    have hi₁ : b₁.index = l₁.length := grown_index (.append hl₁ h₁.toMinedOn) (by simp)
    have hi₂ : b₂.index = l₂.length := grown_index (.append hl₂ h₂.toMinedOn) (by simp)
    omega
  -- both previous hashes are empty, or both have 64 digits
  have hplen : b₁.previousHash.toList.length = b₂.previousHash.toList.length := by
    rw [hprev₁, hprev₂]
    rcases grown_last_hash hl₁ hlast₁ with ⟨hone₁, he₁⟩ | ⟨htwo₁, u₁, he₁⟩
    · rcases grown_last_hash hl₂ hlast₂ with ⟨hone₂, he₂⟩ | ⟨htwo₂, u₂, he₂⟩
      · rw [he₁, he₂]
      · omega
    · rcases grown_last_hash hl₂ hlast₂ with ⟨hone₂, he₂⟩ | ⟨htwo₂, u₂, he₂⟩
      · omega
      · rw [he₁, he₂, (hdigest u₁).1, (hdigest u₂).1]
  obtain ⟨hprev, htime⟩ := Block.heading_cancel hindex hplen htime₁ htime₂ hhead
  exact ⟨hindex, hprev, htime, hnonce, hjson⟩

/-- Backward induction over two chains: the hash of the latest block carries
    agreement to the block before it. -/
theorem agree_of_head_hash {c₁ c₂ : List Block}
    (h₁ : Grown (MinedByClock E (0 ≤ ·)) [createGenesisBlock] c₁)
    (h₂ : Grown (MinedByClock E (0 ≤ ·)) [createGenesisBlock] c₂)
    (hdigest : ∀ t, IsDigest (E.SHA256 (.str t)))
    (hinj : NoCollision E (hashTexts c₁ ++ hashTexts c₂)) (hlen : c₁.length = c₂.length)
    (hhead : c₁.getLast?.map Block.hash = c₂.getLast?.map Block.hash) :
    List.Forall₂ Block.Agree c₁ c₂ := by
  -- on the growth of the first chain; the second has the same length
  induction h₁ generalizing c₂ with
  | base =>
    cases h₂ with
    | base => exact .cons (.refl _) .nil
    | append hl₂ _ =>
      have hpos := hl₂.length_le
      simp only [List.length_append, List.length_singleton] at hlen hpos
      omega
  | @append l₁ b₁ hl₁ hb₁ ih =>
    have hpos := hl₁.length_le
    cases h₂ with
    | base =>
      simp only [List.length_append, List.length_singleton] at hlen hpos
      omega
    | @append l₂ b₂ hl₂ hb₂ =>
      have hlen' : l₁.length = l₂.length := by
        simpa using hlen
      have hhash : b₁.hash = b₂.hash := by
        simpa using hhead
      obtain ⟨hindex, hprev, htime, hnonce, hjson⟩ :=
        MinedByClock.hash_inj (grown_minedOn hl₁) (grown_minedOn hl₂) hb₁ hb₂ hdigest hinj
          hlen' hhash
      -- the previous hashes are the hashes of the latest blocks below
      have hhead' : l₁.getLast?.map Block.hash = l₂.getLast?.map Block.hash := by
        obtain ⟨p₁, hlast₁, _, hprev₁⟩ := hb₁.linked
        obtain ⟨p₂, hlast₂, _, hprev₂⟩ := hb₂.linked
        rw [hlast₁, hlast₂, Option.map_some, Option.map_some, ← hprev₁, ← hprev₂, hprev]
      have hbelow : List.Forall₂ Block.Agree l₁ l₂ := ih hl₂ hinj.of_append hlen' hhead'
      -- the difficulty is not hashed: it follows from the blocks below
      have hdiff : b₁.difficulty = b₂.difficulty := by
        have := getDifficulty_congr hbelow
        rw [hb₁.difficulty, hb₂.difficulty, Except.ok.injEq] at this
        exact this
      exact List.rel_append hbelow
        (.cons ⟨hindex, hprev, htime, hnonce, hdiff, hhash, hjson⟩ .nil)

/-- **The head hash commits to the whole history.** Two chains of one length
    that are mined from pending transactions, on clocks that show natural
    numbers, and end in the same hash agree at every position. -/
theorem head_hash_commits {keyPair₁ keyPair₂ : Option E.KeyPair} {bc₁ bc₂ : Blockchain E}
    (h₁ : Reachable (pendingSystem E keyPair₁) bc₁)
    (h₂ : Reachable (pendingSystem E keyPair₂) bc₂)
    (hdigest : ∀ t, IsDigest (E.SHA256 (.str t)))
    (hinj : NoCollision E (hashTexts bc₁.chain ++ hashTexts bc₂.chain))
    (hlen : bc₁.chain.length = bc₂.chain.length)
    (hhead : bc₁.chain.getLast?.map Block.hash = bc₂.chain.getLast?.map Block.hash)
    {i : Nat} {b₁ b₂ : Block} (hb₁ : bc₁.chain[i]? = some b₁) (hb₂ : bc₂.chain[i]? = some b₂) :
    b₁.Agree b₂ := by
  have hagree : List.Forall₂ Block.Agree bc₁.chain bc₂.chain :=
    agree_of_head_hash (grown_byClock (fun _ _ hop => hop.byClock) h₁)
      (grown_byClock (fun _ _ hop => hop.byClock) h₂) hdigest hinj hlen hhead
  obtain ⟨b, hb, hagree⟩ := agree_getElem? hagree hb₁
  rw [hb₂, Option.some.injEq] at hb
  exact hb ▸ hagree

/-- Packages whose digests have 64 digits and show the size of the text. -/
def digestEnv : Env :=
  { demoEnv with
    SHA256 := fun v => String.ofList (List.replicate 63 '0' ++
      match v with
      | .str t => if t.utf8ByteSize < 100 then ['0'] else if t.utf8ByteSize < 200 then ['1']
          else ['2']
      | _      => ['0']) }

theorem isDigest_digestEnv (t : String) : IsDigest (digestEnv.SHA256 (.str t)) := by
  have hdigit : ∃ d ∈ ['0', '1', '2'],
      digestEnv.SHA256 (.str t) = String.ofList (List.replicate 63 '0' ++ [d]) := by
    show ∃ d ∈ _, String.ofList (_ ++ if t.utf8ByteSize < 100 then ['0'] else
      if t.utf8ByteSize < 200 then ['1'] else ['2']) = _
    split
    · exact ⟨'0', by simp⟩
    · split
      · exact ⟨'1', by simp⟩
      · exact ⟨'2', by simp⟩
  obtain ⟨d, hd, heq⟩ := hdigit
  rw [heq]
  refine ⟨by simp, ?_⟩
  intro c hc
  simp only [String.toList_ofList, List.mem_append, List.mem_replicate, List.mem_singleton] at hc
  rcases hc with ⟨_, rfl⟩ | rfl
  · simp
  · simp only [List.mem_cons, List.not_mem_nil, or_false] at hd
    rcases hd with rfl | rfl | rfl <;> simp

/-- The commitment for two runs of two blocks each, one of them with a
    refused transaction in between. -/
theorem head_hash_commits_two_blocks :
    ∃ bc₁ bc₂ : Blockchain digestEnv, Reachable (pendingSystem digestEnv (some ())) bc₁ ∧
      Reachable (pendingSystem digestEnv (some ())) bc₂ ∧ bc₁.chain.length = 3 ∧
      ∀ (i : Nat) (b₁ b₂ : Block), bc₁.chain[i]? = some b₁ → bc₂.chain[i]? = some b₂ →
        b₁.Agree b₂ := by
  let ops₁ : List Op :=
    [.minePendingTransactions (.str "miner") 7 1, .minePendingTransactions (.str "miner") 20 1]
  let ops₂ : List Op :=
    [.minePendingTransactions (.str "miner") 7 1, .addTransaction .null,
     .minePendingTransactions (.str "miner") 20 1]
  have hfinal : ((execAll (Blockchain.new digestEnv (some ())) ops₁).bind fun bc₁ =>
      (execAll (Blockchain.new digestEnv (some ())) ops₂).map fun bc₂ =>
        decide (bc₁.chain.length = 3 ∧ bc₁.chain.length = bc₂.chain.length ∧
          bc₁.chain.getLast?.map Block.hash = bc₂.chain.getLast?.map Block.hash ∧
          hashTexts bc₁.chain = hashTexts bc₂.chain ∧
          ((hashTexts bc₁.chain).map fun t => digestEnv.SHA256 (.str t)).Nodup)) =
        some true := by
    decide +kernel
  obtain ⟨bc₁, hrun₁, hfinal⟩ := Option.bind_eq_some_iff.mp hfinal
  obtain ⟨bc₂, hrun₂, hfinal⟩ := Option.map_eq_some_iff.mp hfinal
  obtain ⟨hthree, hlen, hhead, htexts, hnodup⟩ := of_decide_eq_true hfinal
  have hinj : NoCollision digestEnv (hashTexts bc₁.chain ++ hashTexts bc₂.chain) := by
    intro x hx y hy heq
    rw [← htexts, List.mem_append, or_self] at hx hy
    exact List.inj_on_of_nodup_map hnodup hx hy heq
  obtain ⟨tr₁, htr₁, _⟩ := run_of_execAll (some ()) (fun _ op => op.isPendingOp)
    (by simp [ops₁, Op.isPendingOp]) hrun₁
  obtain ⟨tr₂, htr₂, _⟩ := run_of_execAll (some ()) (fun _ op => op.isPendingOp)
    (by simp [ops₂, Op.isPendingOp]) hrun₂
  have hreach₁ : Reachable (pendingSystem digestEnv (some ())) bc₁ := htr₁.reachable (.init rfl)
  have hreach₂ : Reachable (pendingSystem digestEnv (some ())) bc₂ := htr₂.reachable (.init rfl)
  refine ⟨bc₁, bc₂, hreach₁, hreach₂, hthree, ?_⟩
  intro i b₁ b₂ hb₁ hb₂
  exact head_hash_commits hreach₁ hreach₂ isDigest_digestEnv hinj hlen hhead hb₁ hb₂

end XCoin
