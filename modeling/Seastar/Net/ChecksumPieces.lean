import Seastar.Net.Tcp.Header

/-!
The internet checksum of a byte string that a `checksummer` is given in pieces: runs of bytes and
numbers of one, two and four bytes, in any order and of any lengths.
-/

namespace Seastar.Net

open Lib

/-! ## The checksum of a whole string -/

/-- The 16-bit words of a byte string in network order; an odd last byte is followed by a zero. -/
def wordsOf : Bytes → List UInt16
  | hi :: lo :: rest => .ofNat (hi.toNat * 256 + lo.toNat) :: wordsOf rest
  | [b] => [.ofNat (b.toNat * 256)]
  | [] => []

/-- Ones' complement addition: the carry out of the word is added back in. -/
def addCarry (a b : UInt16) : UInt16 :=
  .ofNat ((a.toNat + b.toNat) % 2 ^ 16 + (a.toNat + b.toNat) / 2 ^ 16)

/-- The checksum of RFC 1071: the complement of the ones' complement sum of the words. -/
def rfc1071 (bs : Bytes) : UInt16 := ~~~((wordsOf bs).foldl addCarry 0)

/-- The exact sum of the words of a byte string. -/
def wordSum : Bytes → Nat
  | hi :: lo :: rest => hi.toNat * 256 + lo.toNat + wordSum rest
  | [b] => b.toNat * 256
  | [] => 0

@[simp] theorem wordSum_nil : wordSum [] = 0 := rfl

@[simp] theorem wordSum_single (b : UInt8) : wordSum [b] = b.toNat * 256 := rfl

@[simp] theorem wordSum_cons_cons (hi lo : UInt8) (rest : Bytes) :
    wordSum (hi :: lo :: rest) = hi.toNat * 256 + lo.toNat + wordSum rest := rfl

/-- After a string of even length the words start anew. -/
theorem wordSum_append_even (as bs : Bytes) (heven : as.length % 2 = 0) :
    wordSum (as ++ bs) = wordSum as + wordSum bs := by
  induction as using wordSum.induct with
  | case1 hi lo rest ih =>
    have hrest : rest.length % 2 = 0 := by
      simp only [List.length_cons] at heven
      omega
    simp [ih hrest]
    omega
  | case2 b => simp at heven
  | case3 => simp

/-- After a string of odd length the first byte is the low half of the word under way. -/
theorem wordSum_append_odd (as bs : Bytes) (b : UInt8) (hodd : as.length % 2 = 1) :
    wordSum (as ++ b :: bs) = wordSum as + b.toNat + wordSum bs := by
  induction as using wordSum.induct with
  | case1 hi lo rest ih =>
    have hrest : rest.length % 2 = 1 := by
      simp only [List.length_cons] at hodd
      omega
    simp [ih hrest]
    omega
  | case2 a => simp
  | case3 => simp at hodd

namespace Checksummer

/-! ## Ones' complement sums -/

theorem SameSum.refl (a : Nat) : SameSum a a := ⟨rfl, Iff.rfl⟩

theorem SameSum.symm {a b : Nat} (h : SameSum a b) : SameSum b a := ⟨h.1.symm, h.2.symm⟩

theorem SameSum.add {a b c d : Nat} (h : SameSum a b) (h' : SameSum c d) :
    SameSum (a + c) (b + d) := by
  obtain ⟨hmod, hzero⟩ := h
  obtain ⟨hmod', hzero'⟩ := h'
  constructor
  · omega
  · omega

/-- A ones' complement sum has one value of 16 bits. -/
theorem SameSum.eq {a b : Nat} (h : SameSum a b) (ha : a ≤ 65535) (hb : b ≤ 65535) : a = b := by
  obtain ⟨hmod, hzero⟩ := h
  omega

theorem addCarry_toNat (a b : UInt16) :
    (addCarry a b).toNat = (a.toNat + b.toNat) % 2 ^ 16 + (a.toNat + b.toNat) / 2 ^ 16 := by
  have ha := a.toNat_lt
  have hb := b.toNat_lt
  rw [addCarry, UInt16.toNat_ofNat']
  apply Nat.mod_eq_of_lt
  omega

theorem addCarry_same (a b : UInt16) : SameSum (addCarry a b).toNat (a.toNat + b.toNat) := by
  rw [addCarry_toNat]
  exact carry_same 1 _

/-- Adding up the words with the carries added back keeps the sum. -/
theorem foldl_addCarry_same (bs : Bytes) (a : UInt16) :
    SameSum ((wordsOf bs).foldl addCarry a).toNat (a.toNat + wordSum bs) := by
  induction bs using wordSum.induct generalizing a with
  | case1 hi lo rest ih =>
    have hhi := hi.toNat_lt
    have hlo := lo.toNat_lt
    have hword : (UInt16.ofNat (hi.toNat * 256 + lo.toNat)).toNat = hi.toNat * 256 + lo.toNat := by
      rw [UInt16.toNat_ofNat']
      apply Nat.mod_eq_of_lt
      omega
    have hstep := addCarry_same a (.ofNat (hi.toNat * 256 + lo.toNat))
    rw [hword] at hstep
    rw [wordSum_cons_cons, ← Nat.add_assoc]
    exact (ih _).trans (hstep.add (SameSum.refl _))
  | case2 b =>
    have hb := b.toNat_lt
    have hword : (UInt16.ofNat (b.toNat * 256)).toNat = b.toNat * 256 := by
      rw [UInt16.toNat_ofNat']
      apply Nat.mod_eq_of_lt
      omega
    have hstep := addCarry_same a (.ofNat (b.toNat * 256))
    rw [hword] at hstep
    exact hstep
  | case3 => exact SameSum.refl _

/-- What `get()` returns for an accumulator with the sum of the words. -/
theorem get_of_same (c : Checksummer) (bs : Bytes) (hlt : c.csum < 2 ^ 127)
    (hsame : SameSum c.csum (wordSum bs)) : c.get = rfc1071 bs := by
  obtain ⟨hle, hfold⟩ := fold_spec c.csum hlt
  have hwords := foldl_addCarry_same bs 0
  rw [UInt16.toNat_zero, Nat.zero_add] at hwords
  have heq : fold c.csum = ((wordsOf bs).foldl addCarry 0).toNat := by
    apply (hfold.trans (hsame.trans hwords.symm)).eq hle
    have := ((wordsOf bs).foldl addCarry 0).toNat_lt
    omega
  rw [get, rfc1071, ← UInt16.toNat_inj, heq, UInt16.toNat_not, UInt16.toNat_ofNat']
  apply Nat.mod_eq_of_lt
  omega

/-! ## Pieces -/

/-- What one overload of `sum` is given. -/
inductive Piece
  | bytes (data : Bytes)
  | u8 (x : UInt8)
  | u16 (x : UInt16)
  | u32 (x : UInt32)
  deriving DecidableEq, Repr

/-- The bytes that a piece stands for: numbers are in network order. -/
def Piece.wire : Piece → Bytes
  | .bytes data => data
  | .u8 x => [x]
  | .u16 x => writeBe16 x
  | .u32 x => writeBe32 x

/-- The whole string. -/
def wire (ps : List Piece) : Bytes := ps.flatMap Piece.wire

/-- One call of `sum`. -/
def feed (c : Checksummer) : Piece → Except Fault Checksummer
  | .bytes data => c.sum data
  | .u8 x => .ok (c.sum8 x)
  | .u16 x => .ok (c.sum16 x)
  | .u32 x => .ok (c.sum32 x)

/-- `sum_many`, of pieces of any kind. -/
def feedAll (c : Checksummer) : List Piece → Except Fault Checksummer
  | [] => .ok c
  | p :: ps => do
    let c ← c.feed p
    feedAll c ps

/-- The accumulator after the bytes `bs`: which half of a word comes next, the sum of the words,
and room in its 128 bits. -/
structure After (bs : Bytes) (c : Checksummer) : Prop where
  parity : c.odd = (bs.length % 2 == 1)
  same : SameSum c.csum (wordSum bs)
  room : c.csum ≤ bs.length * 2 ^ 61

/-- The accumulator cannot tell strings of one length and one sum apart. -/
theorem After.of_same {bs bs' : Bytes} {c : Checksummer} (h : After bs c)
    (hlen : bs'.length = bs.length) (hsum : wordSum bs' = wordSum bs) : After bs' c where
  parity := by rw [hlen, h.parity]
  same := by rw [hsum]; exact h.same
  room := by rw [hlen]; exact h.room

theorem after_nil : After [] {} where
  parity := rfl
  same := SameSum.refl 0
  room := Nat.zero_le _

theorem words_eight (b₀ b₁ b₂ b₃ b₄ b₅ b₆ b₇ : UInt8) (rest : Bytes) :
    SameSum (beNat [b₀, b₁, b₂, b₃, b₄, b₅, b₆, b₇] + wordSum rest)
      (wordSum (b₀ :: b₁ :: b₂ :: b₃ :: b₄ :: b₅ :: b₆ :: b₇ :: rest)) := by
  simp only [beNat, List.foldl_cons, List.foldl_nil, wordSum_cons_cons]
  constructor
  · omega
  · omega

/-- The word loops add the words of what they are given. -/
theorem words_same_wordSum (acc : Nat) (bs : Bytes) :
    SameSum (words acc bs) (acc + wordSum bs) := by
  induction acc, bs using words.induct with
  | case1 acc b₀ b₁ b₂ b₃ b₄ b₅ b₆ b₇ rest ih =>
    rw [words]
    apply ih.trans
    rw [Nat.add_assoc]
    exact (SameSum.refl acc).add (words_eight b₀ b₁ b₂ b₃ b₄ b₅ b₆ b₇ rest)
  | case2 acc b₀ b₁ rest hshort ih =>
    rw [words]
    · simpa [beNat, Nat.add_assoc] using ih
    · exact hshort
  | case3 acc b => exact SameSum.refl _
  | case4 acc => exact SameSum.refl _

/-- Eight bytes are less than 2⁶⁴, and so on down. -/
theorem words_le (acc : Nat) (bs : Bytes) : words acc bs ≤ acc + bs.length * 2 ^ 61 := by
  induction acc, bs using words.induct with
  | case1 acc b₀ b₁ b₂ b₃ b₄ b₅ b₆ b₇ rest ih =>
    have h₀ := b₀.toNat_lt
    have h₁ := b₁.toNat_lt
    have h₂ := b₂.toNat_lt
    have h₃ := b₃.toNat_lt
    have h₄ := b₄.toNat_lt
    have h₅ := b₅.toNat_lt
    have h₆ := b₆.toNat_lt
    have h₇ := b₇.toNat_lt
    rw [words]
    simp only [beNat, List.foldl_cons, List.foldl_nil, List.length_cons] at ih ⊢
    omega
  | case2 acc b₀ b₁ rest hshort ih =>
    have h₀ := b₀.toNat_lt
    have h₁ := b₁.toNat_lt
    rw [words]
    · simp only [beNat, List.foldl_cons, List.foldl_nil, List.length_cons] at ih ⊢
      omega
    · exact hshort
  | case3 acc b =>
    have h := b.toNat_lt
    rw [words, List.length_singleton]
    omega
  | case4 acc => simp [words]

theorem toNat_writeBe16 (x : UInt16) :
    (x >>> 8).toUInt8.toNat * 256 + x.toUInt8.toNat = x.toNat := by
  have hx := x.toNat_lt
  simp [Nat.shiftRight_eq_div_pow]
  omega

/-- The upper and the lower half of a word add up to the word in ones' complement. -/
theorem toNat_writeBe32 (x : UInt32) :
    SameSum x.toNat ((x >>> 24).toUInt8.toNat * 256 + (x >>> 16).toUInt8.toNat +
      ((x >>> 8).toUInt8.toNat * 256 + x.toUInt8.toNat)) := by
  have hx : x.toNat = ((x >>> 24).toUInt8.toNat * 256 + (x >>> 16).toUInt8.toNat) * 65536 +
      ((x >>> 8).toUInt8.toNat * 256 + x.toUInt8.toNat) := by
    have hlt := x.toNat_lt
    simp only [UInt32.toNat_toUInt8, UInt32.toNat_shiftRight, Nat.shiftRight_eq_div_pow]
    simp
    omega
  rw [hx]
  constructor
  · omega
  · omega

/-! ## What a call adds -/

/-- `sum(uint8_t)` appends its byte. -/
theorem sum8_after {bs : Bytes} {c : Checksummer} (h : After bs c) (x : UInt8) :
    After (bs ++ [x]) (c.sum8 x) := by
  obtain ⟨hparity, hsame, hroom⟩ := h
  have hx := x.toNat_lt
  rcases Nat.mod_two_eq_zero_or_one bs.length with heven | hodd
  · have hc : c.odd = false := by simp [hparity, heven]
    simp only [sum8, hc, Bool.false_eq_true, if_false]
    constructor
    · simp only [List.length_append, List.length_singleton]
      symm
      rw [beq_iff_eq]
      omega
    · rw [wordSum_append_even bs [x] heven]
      exact hsame.add (SameSum.refl _)
    · simp only [List.length_append, List.length_singleton]
      omega
  · have hc : c.odd = true := by simp [hparity, hodd]
    simp only [sum8, hc, if_true]
    constructor
    · simp only [List.length_append, List.length_singleton]
      symm
      rw [beq_eq_false_iff_ne]
      omega
    · rw [wordSum_append_odd bs [] x hodd]
      exact hsame.add (SameSum.refl _)
    · simp only [List.length_append, List.length_singleton]
      omega

/-- `sum(uint16_t)` appends the two bytes of its number. -/
theorem sum16_after {bs : Bytes} {c : Checksummer} (h : After bs c) (x : UInt16) :
    After (bs ++ writeBe16 x) (c.sum16 x) := by
  rcases Nat.mod_two_eq_zero_or_one bs.length with heven | hodd
  · obtain ⟨hparity, hsame, hroom⟩ := h
    have hx := x.toNat_lt
    have hc : c.odd = false := by simp [hparity, heven]
    simp only [sum16, hc, Bool.false_eq_true, if_false]
    constructor
    · simp [writeBe16, heven]
    · rw [wordSum_append_even bs _ heven, writeBe16, wordSum_cons_cons, wordSum_nil, Nat.add_zero,
        toNat_writeBe16]
      exact hsame.add (SameSum.refl _)
    · simp only [writeBe16, List.length_append, List.length_cons, List.length_nil]
      omega
  · have hc : c.odd = true := by simp [h.parity, hodd]
    have hhigh := sum8_after h (x >>> 8).toUInt8
    have hlow := sum8_after hhigh x.toUInt8
    rw [List.append_assoc, List.singleton_append] at hlow
    simp only [sum16, hc, if_true]
    exact hlow

/-- `sum(uint32_t)` appends the four bytes of its number: at an odd place the lower half is added
first, which makes no difference to the sum. -/
theorem sum32_after {bs : Bytes} {c : Checksummer} (h : After bs c) (x : UInt32) :
    After (bs ++ writeBe32 x) (c.sum32 x) := by
  obtain ⟨hparity, hsame, hroom⟩ := h
  have hx := x.toNat_lt
  rcases Nat.mod_two_eq_zero_or_one bs.length with heven | hodd
  · have hc : c.odd = false := by simp [hparity, heven]
    simp only [sum32, hc, Bool.false_eq_true, if_false]
    constructor
    · simp [writeBe32, heven, Nat.add_mod]
    · rw [wordSum_append_even bs _ heven, writeBe32, wordSum_cons_cons, wordSum_cons_cons,
        wordSum_nil, Nat.add_zero]
      exact hsame.add (toNat_writeBe32 x)
    · simp only [writeBe32, List.length_append, List.length_cons, List.length_nil]
      omega
  · have hc : c.odd = true := by simp [hparity, hodd]
    have hlow := sum16_after ⟨hparity, hsame, hroom⟩ x.toUInt16
    have hboth := sum16_after hlow (x >>> 16).toUInt16
    have hbytes : writeBe16 x.toUInt16 ++ writeBe16 (x >>> 16).toUInt16 =
        [(x >>> 8).toUInt8, x.toUInt8, (x >>> 24).toUInt8, (x >>> 16).toUInt8] := by
      simp only [writeBe16, List.cons_append, List.nil_append, List.cons.injEq, and_true,
        ← UInt8.toNat_inj]
      simp [Nat.shiftRight_eq_div_pow]
      omega
    rw [List.append_assoc, hbytes] at hboth
    simp only [sum32, hc, if_true]
    apply hboth.of_same
    · simp [writeBe32]
    · rw [writeBe32, wordSum_append_odd bs _ _ hodd, wordSum_append_odd bs _ _ hodd]
      simp
      omega

/-- `sum(data, len)` appends its bytes. -/
theorem sum_spec {bs : Bytes} {c : Checksummer} (h : After bs c) (data : Bytes) :
    (Piece.bytes data = .bytes [] ∧ bs.length % 2 = 1 ∧ c.sum data = .error .readPast) ∨
    (¬ (Piece.bytes data = .bytes [] ∧ bs.length % 2 = 1) ∧
      ∃ c', c.sum data = .ok c' ∧ After (bs ++ data) c') := by
  obtain ⟨hparity, hsame, hroom⟩ := h
  rcases Nat.mod_two_eq_zero_or_one bs.length with heven | hodd
  · have hc : c.odd = false := by simp [hparity, heven]
    refine .inr ⟨by simp [heven], _, by simp only [sum, hc, Bool.false_eq_true, if_false]; rfl, ?_⟩
    constructor
    · simp [Nat.add_mod, heven]
    · rw [wordSum_append_even bs data heven]
      exact (words_same_wordSum _ _).trans (hsame.add (SameSum.refl _))
    · have hle := words_le c.csum data
      show words c.csum data ≤ _
      rw [List.length_append]
      omega
  · have hc : c.odd = true := by simp [hparity, hodd]
    cases data with
    | nil => exact .inl ⟨rfl, hodd, by simp [sum, hc]⟩
    | cons b rest =>
      refine .inr ⟨by simp, _, by simp only [sum, hc, if_true]; rfl, ?_⟩
      constructor
      · simp only [List.length_append, List.length_cons]
        rcases Nat.mod_two_eq_zero_or_one rest.length with hrest | hrest
        · have : (rest.length + 1) % 2 = 1 := by omega
          have : (bs.length + (rest.length + 1)) % 2 = 0 := by omega
          simp [*]
        · have : (rest.length + 1) % 2 = 0 := by omega
          have : (bs.length + (rest.length + 1)) % 2 = 1 := by omega
          simp [*]
      · rw [wordSum_append_odd bs rest b hodd]
        exact (words_same_wordSum _ _).trans ((hsame.add (SameSum.refl _)).add (SameSum.refl _))
      · have hle := words_le (c.csum + b.toNat) rest
        have hb := b.toNat_lt
        show words (c.csum + b.toNat) rest ≤ _
        simp only [List.length_append, List.length_cons]
        omega

/-- A call of `sum` appends its bytes, except that nothing is read for a run of bytes which is empty
when half a word is under way. -/
theorem feed_spec {bs : Bytes} {c : Checksummer} (h : After bs c) (p : Piece) :
    (p = .bytes [] ∧ bs.length % 2 = 1 ∧ c.feed p = .error .readPast) ∨
    (¬ (p = .bytes [] ∧ bs.length % 2 = 1) ∧ ∃ c', c.feed p = .ok c' ∧ After (bs ++ p.wire) c') := by
  obtain ⟨hparity, hsame, hroom⟩ := h
  cases p with
  | bytes data => exact sum_spec ⟨hparity, hsame, hroom⟩ data
  | u8 x => exact .inr ⟨by simp, _, rfl, sum8_after ⟨hparity, hsame, hroom⟩ x⟩
  | u16 x => exact .inr ⟨by simp, _, rfl, sum16_after ⟨hparity, hsame, hroom⟩ x⟩
  | u32 x => exact .inr ⟨by simp, _, rfl, sum32_after ⟨hparity, hsame, hroom⟩ x⟩

/-! ## Any pieces -/

/-- No run of bytes is empty when half a word is under way. -/
def EmptyAtEven (ps : List Piece) : Prop :=
  ∀ before after, ps = before ++ .bytes [] :: after → (wire before).length % 2 = 0

/-- The pieces after a prefix `bs` read nothing past their end exactly when none of their runs is
empty at an odd place, and they leave the accumulator of the whole string. -/
theorem feedAll_spec (ps : List Piece) {bs : Bytes} {c : Checksummer} (h : After bs c) :
    (∃ before after, ps = before ++ .bytes [] :: after ∧ (bs ++ wire before).length % 2 = 1 ∧
      c.feedAll ps = .error .readPast) ∨
    ((∀ before after, ps = before ++ .bytes [] :: after → (bs ++ wire before).length % 2 = 0) ∧
      ∃ c', c.feedAll ps = .ok c' ∧ After (bs ++ wire ps) c') := by
  induction ps generalizing bs c with
  | nil => exact .inr ⟨by simp, c, rfl, by simpa [wire] using h⟩
  | cons p ps ih =>
    rcases feed_spec h p with ⟨rfl, hodd, hfeed⟩ | ⟨hp, c', hfeed, hafter⟩
    · refine .inl ⟨[], ps, rfl, by simpa [wire] using hodd, ?_⟩
      simp [feedAll, hfeed]
    · rcases ih hafter with ⟨before, after, rfl, hodd, hrest⟩ | ⟨hall, c'', hrest, hafter'⟩
      · refine .inl ⟨p :: before, after, rfl, ?_, ?_⟩
        · simpa [wire] using hodd
        · simp [feedAll, hfeed, hrest]
      · refine .inr ⟨fun before after hsplit => ?_, c'', ?_, ?_⟩
        · cases before with
          | nil =>
            simp only [List.nil_append, List.cons.injEq] at hsplit
            have hlen : ¬ bs.length % 2 = 1 := fun hodd => hp ⟨hsplit.1, hodd⟩
            simp only [wire, List.flatMap_nil, List.append_nil]
            omega
          | cons q before =>
            simp only [List.cons_append, List.cons.injEq] at hsplit
            obtain ⟨rfl, rfl⟩ := hsplit
            simpa [wire] using hall before after rfl
        · simp [feedAll, hfeed, hrest]
        · simpa [wire] using hafter'

/-- For a string given in any pieces (no longer than the 128 bits of the accumulator allow), the
checksum is the one of the whole string if and only if no run of bytes is empty at an odd place. -/
theorem get_feedAll (ps : List Piece) (hlen : (wire ps).length < 2 ^ 66) :
    (∃ c, feedAll {} ps = .ok c ∧ c.get = rfc1071 (wire ps)) ↔ EmptyAtEven ps := by
  rcases feedAll_spec ps after_nil with ⟨before, after, hps, hodd, hfeed⟩ | ⟨hall, c, hfeed, hafter⟩
  · constructor
    · rintro ⟨c, hok, -⟩
      rw [hfeed] at hok
      cases hok
    · intro heven
      have := heven before after hps
      rw [List.nil_append] at hodd
      omega
  · constructor
    · intro _ before after hps
      exact hall before after hps
    · intro _
      refine ⟨c, hfeed, get_of_same c _ ?_ hafter.same⟩
      have hroom := hafter.room
      rw [List.nil_append] at hroom
      omega

theorem get_feedAll_odd : (wire [.bytes [1], .u16 770, .bytes [4, 5]]).length < 2 ^ 66 ∧
    ∃ c, feedAll {} [.bytes [1], .u16 770, .bytes [4, 5]] = .ok c ∧
      c.get = rfc1071 [1, 3, 2, 4, 5] := by
  have hlen : (wire [.bytes [1], .u16 770, .bytes [4, 5]]).length < 2 ^ 66 := by decide
  refine ⟨hlen, (get_feedAll _ hlen).mpr ?_⟩
  intro before after hps
  have hmem : Piece.bytes [] ∈ [.bytes [1], .u16 770, .bytes [4, 5]] := by
    rw [hps]
    simp
  exact absurd hmem (by decide)

/-- An empty run after an odd one. -/
theorem get_emptyPiece : ¬ ∀ ps, (wire ps).length < 2 ^ 66 →
    ∃ c, feedAll {} ps = .ok c ∧ c.get = rfc1071 (wire ps) := by
  intro h
  obtain ⟨c, hfeed, -⟩ := h [.bytes [1], .bytes []] (by decide)
  cases hfeed

end Checksummer

end Seastar.Net
