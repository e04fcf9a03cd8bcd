import Seastar.Memcached.ParserBuffers
import Seastar.Memcached.Protocol

/-!
The commands that store. What the parser accepts as one of them is a line, the blob and a line end,
whatever buffers they come in. The size of the line is read into a `uint32_t`, digit by digit, and
the blob has as many bytes as this says: a size from 2^32 on is taken modulo 2^32, and the rest of
the data is left to be read as commands.
-/

namespace Seastar.Memcached

open Lib

/-! ## Numbers -/

/-- The digits of `text` read as a `uint32_t`. -/
def Reads32 (u : UInt32) (text : Bytes) : Prop :=
  IsNumber text ∧ u.toNat = decimalValue text % 2 ^ 32

/-- The digits of `text` read as a `uint64_t`. -/
def Reads64 (u : UInt64) (text : Bytes) : Prop :=
  IsNumber text ∧ u.toNat = decimalValue text % 2 ^ 64

variable {c : UInt8} {text : Bytes}

theorem IsNumber.one (hc : isDigit c = true) : IsNumber [c] :=
  ⟨List.cons_ne_nil _ _, by simp [hc]⟩

theorem IsNumber.snoc (h : IsNumber text) (hc : isDigit c = true) : IsNumber (text ++ [c]) :=
  ⟨by simp, by simp [h.2, hc]⟩

theorem decimalValue_snoc (text : Bytes) (c : UInt8) :
    decimalValue (text ++ [c]) = 10 * decimalValue text + (c.toNat - 48) := by
  rw [decimalValue, List.foldl_append]
  rfl

/-- The value of a digit. -/
theorem toNat_digit (hc : isDigit c = true) : (c - 48).toNat = c.toNat - 48 := by
  have hle : (48 : UInt8) ≤ c := by
    simp only [isDigit, Bool.and_eq_true, decide_eq_true_eq] at hc
    exact hc.1
  rw [UInt8.toNat_sub_of_le _ _ hle]
  rfl

theorem Reads32.snoc {u : UInt32} (h : Reads32 u text) (hc : isDigit c = true) :
    Reads32 (u * 10 + (c - 48).toUInt32) (text ++ [c]) := by
  refine ⟨h.1.snoc hc, ?_⟩
  have hten : (10 : UInt32).toNat = 10 := rfl
  rw [UInt32.toNat_add, UInt32.toNat_mul, UInt8.toNat_toUInt32, toNat_digit hc, h.2, hten,
    decimalValue_snoc]
  omega

theorem Reads32.one (hc : isDigit c = true) : Reads32 (0 * 10 + (c - 48).toUInt32) [c] := by
  refine ⟨.one hc, ?_⟩
  have hlt := (c - 48).toNat_lt
  rw [zero_mul, zero_add, UInt8.toNat_toUInt32, toNat_digit hc]
  rw [toNat_digit hc] at hlt
  show c.toNat - 48 = (10 * 0 + (c.toNat - 48)) % 2 ^ 32
  omega

theorem Reads64.snoc {u : UInt64} (h : Reads64 u text) (hc : isDigit c = true) :
    Reads64 (u * 10 + (c - 48).toUInt64) (text ++ [c]) := by
  refine ⟨h.1.snoc hc, ?_⟩
  have hten : (10 : UInt64).toNat = 10 := rfl
  rw [UInt64.toNat_add, UInt64.toNat_mul, UInt8.toNat_toUInt64, toNat_digit hc, h.2, hten,
    decimalValue_snoc]
  omega

theorem Reads64.one (hc : isDigit c = true) : Reads64 (0 * 10 + (c - 48).toUInt64) [c] := by
  refine ⟨.one hc, ?_⟩
  have hlt := (c - 48).toNat_lt
  rw [zero_mul, zero_add, UInt8.toNat_toUInt64, toNat_digit hc]
  rw [toNat_digit hc] at hlt
  show c.toNat - 48 = (10 * 0 + (c.toNat - 48)) % 2 ^ 64
  omega

namespace Parser

/-! ## The line -/

/-- A key of the grammar. -/
def IsKey (key : Bytes) : Prop := key ≠ [] ∧ 32 ∉ key

/-- A keyword and fields behind it, each after a space. -/
def spaced (word : Bytes) (fields : List Bytes) : Bytes :=
  fields.foldl (fun line field => line ++ 32 :: field) word

def crlf : Bytes := [13, 10]

/-- The line of a command that stores. -/
structure StoreLine where
  verb : Verb
  key : Bytes
  flags : Bytes
  expiration : Bytes
  size : Bytes
  version : Option Bytes
  noreply : Bool
  stores : verb.stores = true
  isKey : IsKey key
  isNumber : ∀ field ∈ flags :: expiration :: size :: version.toList, IsNumber field
  version_iff : version.isSome = true ↔ verb = .cas

namespace StoreLine

def fields (line : StoreLine) : List Bytes :=
  [line.key, line.flags, line.expiration, line.size] ++ line.version.toList

def bytes (line : StoreLine) : Bytes :=
  spaced line.verb.word line.fields ++ (if line.noreply then ascii " noreply" else []) ++ crlf

end StoreLine


namespace StoreLine

/-- The registers say what the line says. -/
structure Agrees (line : StoreLine) (regs : Registers) : Prop where
  key : regs.key = line.key
  flags : regs.flagsStr = line.flags
  sizeText : regs.sizeStr = line.size
  expiration : Reads32 regs.expiration line.expiration
  size : Reads32 regs.size line.size
  version : ∀ version ∈ line.version, Reads64 regs.version version

/-- The other registers do not matter. -/
theorem Agrees.of_same {line : StoreLine} {regs regs' : Registers} (h : line.Agrees regs)
    (hsame : (regs'.key, regs'.flagsStr, regs'.sizeStr, regs'.expiration, regs'.size, regs'.version) =
      (regs.key, regs.flagsStr, regs.sizeStr, regs.expiration, regs.size, regs.version)) :
    line.Agrees regs' := by
  simp only [Prod.mk.injEq] at hsame
  obtain ⟨hkey, hflags, hsize, hexp, hsize', hversion⟩ := hsame
  exact ⟨hkey ▸ h.key, hflags ▸ h.flags, hsize ▸ h.sizeText, hexp ▸ h.expiration, hsize' ▸ h.size,
    hversion ▸ h.version⟩

end StoreLine

/-! ## What the parser knows of the line -/

variable {v : Verb} {regs : Registers}

/-- The key of a command that stores. -/
def KnowsKey (v : Verb) (regs : Registers) : Prop := v.stores = true ∧ IsKey regs.key

def KnowsFlags (v : Verb) (regs : Registers) : Prop := KnowsKey v regs ∧ IsNumber regs.flagsStr

def KnowsExpiration (v : Verb) (regs : Registers) (text : Bytes) : Prop :=
  KnowsFlags v regs ∧ Reads32 regs.expiration text

def KnowsSize (v : Verb) (regs : Registers) (text : Bytes) : Prop :=
  KnowsExpiration v regs text ∧ Reads32 regs.size regs.sizeStr

/-- All the fields behind the keyword. -/
def KnowsFields (v : Verb) (regs : Registers) (read : Bytes) : Prop :=
  ∃ line : StoreLine, line.verb = v ∧ line.Agrees regs ∧ read = spaced v.word line.fields

/-- The line. -/
def KnowsLine (v : Verb) (regs : Registers) (read : Bytes) : Prop :=
  ∃ line : StoreLine, line.verb = v ∧ line.Agrees regs ∧ line.noreply = regs.noreply ∧
    read = line.bytes

/-- The line and the blob. -/
def KnowsBlob (v : Verb) (regs : Registers) (read : Bytes) : Prop :=
  ∃ front, KnowsLine v regs front ∧ regs.blob.length = regs.size.toNat ∧ read = front ++ regs.blob

/-- What the registers and the text that is collected say of the bytes that are read, when they are
those of a command that stores. -/
def Knows (read : Bytes) (regs : Registers) (captured : Option Bytes) : Place → Prop
  | .word w => read = w
  | .keyStart v => v.stores = true → read = v.word ++ [32]
  | .key v => v.stores = true → ∃ key, captured = some key ∧ IsKey key ∧ read = spaced v.word [key]
  | .lastKey v _ => v.endsWithKey = true
  | .flagsStart v => KnowsKey v regs ∧ read = spaced v.word [regs.key, []]
  | .flags v => ∃ flags, captured = some flags ∧ KnowsKey v regs ∧ IsNumber flags ∧
      read = spaced v.word [regs.key, flags]
  | .expirationStart v => KnowsFlags v regs ∧ read = spaced v.word [regs.key, regs.flagsStr, []]
  | .expiration v => ∃ text, KnowsFlags v regs ∧ Reads32 regs.u32 text ∧
      read = spaced v.word [regs.key, regs.flagsStr, text]
  | .sizeStart v => ∃ text, KnowsExpiration v regs text ∧
      read = spaced v.word [regs.key, regs.flagsStr, text, []]
  | .size v => ∃ text size, captured = some size ∧ KnowsExpiration v regs text ∧
      Reads32 regs.u32 size ∧ read = spaced v.word [regs.key, regs.flagsStr, text, size]
  | .versionStart => ∃ text, KnowsSize .cas regs text ∧
      read = spaced Verb.cas.word [regs.key, regs.flagsStr, text, regs.sizeStr, []]
  | .versionField => ∃ text version, KnowsSize .cas regs text ∧ Reads64 regs.u64 version ∧
      read = spaced Verb.cas.word [regs.key, regs.flagsStr, text, regs.sizeStr, version]
  | .noreply v n => v.stores = true →
      ∃ front, KnowsFields v regs front ∧ read = front ++ 32 :: (ascii "noreply").take n
  | .noreplyEnd v => v.stores = true →
      ∃ front, KnowsFields v regs front ∧ regs.noreply = true ∧ read = front ++ ascii " noreply"
  | .blobCall v => v.stores = true → KnowsLine v regs (read ++ [10])
  | .blobStart v => v.stores = true → KnowsLine v regs read
  | .blob v => v.stores = true → ∃ front text, KnowsLine v regs front ∧ captured = some text ∧
      text.length + regs.sizeLeft.toNat = regs.size.toNat ∧ read = front ++ text
  | .blobEnd v => v.stores = true → KnowsBlob v regs read
  | .crlf v => v.stores = true → ∃ front, KnowsBlob v regs front ∧ read = front ++ [13]
  | .done => ∀ v, regs.state = .cmd v → v.stores = true →
      ∃ front, KnowsBlob v regs front ∧ read = front ++ crlf
  | .u64Start v => v.stores = false
  | .u64 v => v.stores = false
  | .flushArgument => True
  | .flushExpiration => True

/-- A reader that has read these bytes. -/
structure Reader.Follows (r : Reader) (read : Bytes) : Prop where
  knows : Knows read r.regs r.captured r.place
  /-- a command that stores is accepted at its end -/
  accepted : ∀ v, r.regs.state = .cmd v → v.stores = true → r.place = .done

theorem spaced_snoc (word : Bytes) (fields : List Bytes) (field : Bytes) (c : UInt8) :
    spaced word (fields ++ [field]) ++ [c] = spaced word (fields ++ [field ++ [c]]) := by
  simp [spaced]

theorem spaced_space (word : Bytes) (fields : List Bytes) :
    spaced word fields ++ [32] = spaced word (fields ++ [[]]) := by
  simp [spaced]

/-- A character outside of a blob. -/
theorem Reader.plain_going {r r' : Reader} (h : r.plain c = .going r') :
    ∃ actions next r₁, transition r.place c = some (actions, next) ∧
      actions.foldlM (perform c) r = .ok r₁ ∧
      r' = { r₁ with place := next, captured := r₁.captured.map (· ++ [c]) } := by
  rw [plain] at h
  split at h
  · cases h
  · rename_i actions next ht
    split at h
    · cases h
    · rename_i r₁ hr
      exact ⟨actions, next, r₁, ht, hr, (Progress.going.inj h).symm⟩

/-- What is known is known of the next character, if a transition leads on. -/
def Leads (read : Bytes) (r : Reader) (c : UInt8) (result : Option (List Action × Place)) : Prop :=
  ∀ actions next r', result = some (actions, next) → actions.foldlM (Reader.perform c) r = .ok r' →
    Knows (read ++ [c]) r'.regs (r'.captured.map (· ++ [c])) next

section Leads

variable {read : Bytes} {r : Reader} {next : Place} {actions rest : List Action}

theorem Leads.none : Leads read r c none := by
  intro actions next r' h
  cases h

theorem Leads.ite {p : Prop} [Decidable p] {x y : Option (List Action × Place)}
    (hx : p → Leads read r c x) (hy : ¬ p → Leads read r c y) :
    Leads read r c (if p then x else y) := by
  split
  · exact hx ‹_›
  · exact hy ‹_›

theorem Leads.quiet (hq : Quiet actions)
    (h : Knows (read ++ [c]) (applyAll c actions r.regs) (r.captured.map (· ++ [c])) next) :
    Leads read r c (some (actions, next)) := by
  intro actions' next' r' heq hr
  obtain ⟨rfl, rfl⟩ := Prod.mk.inj (Option.some.inj heq)
  rw [Reader.perform_quiet hq] at hr
  obtain rfl := Except.ok.inj hr
  exact h

theorem Leads.marks (hq : Quiet rest)
    (h : Knows (read ++ [c]) (applyAll c rest r.regs) (some [c]) next) :
    Leads read r c (some (.mark :: rest, next)) := by
  intro actions' next' r' heq hr
  obtain ⟨rfl, rfl⟩ := Prod.mk.inj (Option.some.inj heq)
  rw [Reader.perform_marks hq] at hr
  obtain rfl := Except.ok.inj hr
  exact h

theorem Leads.takes {a : Action} (ha : a.takes = true) (hq : Quiet rest)
    (h : ∀ text, r.captured = some text →
      Knows (read ++ [c]) (applyAll c rest (a.apply c text r.regs)) .none next) :
    Leads read r c (some (a :: rest, next)) := by
  intro actions' next' r' heq hr
  obtain ⟨rfl, rfl⟩ := Prod.mk.inj (Option.some.inj heq)
  rw [Reader.perform_takes ha hq] at hr
  cases hc : r.captured with
  | none =>
    rw [hc] at hr
    cases hr
  | some text =>
    rw [hc] at hr
    obtain rfl := Except.ok.inj hr
    exact h text hc

theorem stores_of_endsWithKey (h : v.endsWithKey = true) : v.stores = false := by
  cases v <;> first | rfl | cases h

/-- Behind a keyword there is a space, or the end of a command without a key. -/
theorem leads_afterWord {v : Verb} (hread : read = v.word) : Leads read r c (afterWord v c) := by
  subst hread
  cases v
  case flushAll =>
    exact .ite (fun _ => .quiet (by decide) trivial)
      fun _ => .ite (fun _ => .quiet (by decide) fun hv => Bool.noConfusion hv) fun _ => .none
  case version => exact .ite (fun _ => .quiet (by decide) fun hv => Bool.noConfusion hv) fun _ => .none
  case stats => exact .ite (fun _ => .quiet (by decide) fun hv => Bool.noConfusion hv) fun _ => .none
  case statsHash => exact .ite (fun _ => .quiet (by decide) fun hv => Bool.noConfusion hv) fun _ => .none
  all_goals exact .ite (fun hc => .quiet (by decide) fun _ => by rw [hc]) fun _ => .none

/-- The line ends behind its fields. -/
theorem KnowsFields.line (h : KnowsFields v regs read) (hreply : regs.noreply = false) :
    KnowsLine v regs (read ++ crlf) := by
  obtain ⟨line, rfl, hagrees, rfl⟩ := h
  refine ⟨{ line with noreply := false }, rfl, { hagrees with }, hreply.symm, ?_⟩
  simp [StoreLine.bytes, StoreLine.fields]

/-- ... or behind `noreply`. -/
theorem KnowsFields.line_noreply (h : KnowsFields v regs read) (hreply : regs.noreply = true) :
    KnowsLine v regs (read ++ ascii " noreply" ++ crlf) := by
  obtain ⟨line, rfl, hagrees, rfl⟩ := h
  refine ⟨{ line with noreply := true }, rfl, { hagrees with }, hreply.symm, ?_⟩
  simp [StoreLine.bytes, StoreLine.fields]

/-- Behind the last field there is a space, or the end of the line. -/
theorem leads_afterFields {v : Verb} {first : List Action}
    (h : ∀ r', (first ++ [Action.clearNoreply]).foldlM (Reader.perform c) r = .ok r' → v.stores = true →
      KnowsFields v r'.regs read ∧ r'.regs.noreply = false) :
    Leads read r c (afterFields first v c) := by
  refine .ite (fun hc => ?_) fun _ => .ite (fun hc => ?_) fun _ => .none
  all_goals
    intro actions next r' heq hr
    obtain ⟨rfl, rfl⟩ := Prod.mk.inj (Option.some.inj heq)
  · intro hv
    exact ⟨read, (h r' hr hv).1, by rw [hc]; rfl⟩
  · cases hv : v.stores with
    | true =>
      obtain ⟨hfields, hreply⟩ := h r' hr hv
      intro _
      rw [hc, List.append_assoc]
      exact hfields.line hreply
    | false =>
      intro hv'
      cases hv.symm.trans hv'

theorem KnowsSize.fields {text : Bytes} (h : KnowsSize v regs text) (hv : v ≠ .cas) :
    KnowsFields v regs (spaced v.word [regs.key, regs.flagsStr, text, regs.sizeStr]) := by
  obtain ⟨⟨⟨⟨hstores, hkey⟩, hflags⟩, hexp⟩, hsize⟩ := h
  exact ⟨{ verb := v, key := regs.key, flags := regs.flagsStr, expiration := text
           size := regs.sizeStr, version := none, noreply := false, stores := hstores, isKey := hkey
           isNumber := by simp [hflags, hexp.1, hsize.1], version_iff := by simp [hv] },
    rfl, ⟨rfl, rfl, rfl, hexp, hsize, by simp⟩, rfl⟩

theorem KnowsSize.fields_cas {text version : Bytes} (h : KnowsSize .cas regs text)
    (hversion : Reads64 regs.version version) :
    KnowsFields .cas regs
      (spaced Verb.cas.word [regs.key, regs.flagsStr, text, regs.sizeStr, version]) := by
  obtain ⟨⟨⟨⟨hstores, hkey⟩, hflags⟩, hexp⟩, hsize⟩ := h
  exact ⟨{ verb := .cas, key := regs.key, flags := regs.flagsStr, expiration := text
           size := regs.sizeStr, version := some version, noreply := false, stores := hstores
           isKey := hkey, isNumber := by simp [hflags, hexp.1, hsize.1, hversion.1]
           version_iff := by simp },
    rfl, ⟨rfl, rfl, rfl, hexp, hsize, by simpa using hversion⟩, rfl⟩

/-- The other registers do not matter. -/
theorem KnowsLine.of_same {regs' : Registers} (h : KnowsLine v regs read)
    (hsame : (regs'.key, regs'.flagsStr, regs'.sizeStr, regs'.expiration, regs'.size, regs'.version,
        regs'.noreply) =
      (regs.key, regs.flagsStr, regs.sizeStr, regs.expiration, regs.size, regs.version,
        regs.noreply)) : KnowsLine v regs' read := by
  simp only [Prod.mk.injEq] at hsame
  obtain ⟨hkey, hflags, htext, hexp, hsize, hversion, hreply⟩ := hsame
  obtain ⟨line, hverb, hagrees, hreply', hread⟩ := h
  exact ⟨line, hverb, hagrees.of_same (by rw [hkey, hflags, htext, hexp, hsize, hversion]),
    hreply'.trans hreply.symm, hread⟩

/-- The next character of the grammar. -/
theorem leads_transition (h : Knows read r.regs r.captured r.place) :
    Leads read r c (transition r.place c) := by
  obtain ⟨place, regs, captured⟩ := r
  cases place with
  | word w =>
    obtain rfl : read = w := h
    rw [transition]
    refine .ite (fun _ => .quiet (by decide) rfl) fun _ => ?_
    cases hv : verbs.find? (·.word = read) with
    | none => exact .none
    | some v =>
      have hword := List.find?_some hv
      exact leads_afterWord (of_decide_eq_true hword).symm
  | keyStart v =>
    refine .ite (fun _ => .none) fun hc => ?_
    cases hend : v.endsWithKey with
    | true => exact .marks (by decide) hend
    | false =>
      refine .marks (by decide) fun hv => ⟨[c], rfl, ⟨List.cons_ne_nil _ _, ?_⟩, ?_⟩
      · simpa using fun h => hc h.symm
      · rw [h hv]
        simp [spaced]
  | key v =>
    refine .ite (fun hc => .takes rfl (by decide) fun key hkey => ?_) fun hc => .quiet (by decide) ?_
    · subst hc
      cases hv : v.stores with
      | true =>
        obtain ⟨key', hkey', hk, rfl⟩ := h hv
        obtain rfl := Option.some.inj (hkey.symm.trans hkey')
        exact ⟨⟨hv, hk⟩, spaced_space _ _⟩
      | false => exact hv
    · intro hv
      obtain ⟨key, rfl, hk, rfl⟩ := h hv
      exact ⟨key ++ [c], rfl, ⟨by simp, by simp [hk.2, Ne.symm hc]⟩, spaced_snoc _ [] _ _⟩
  | lastKey v crlf =>
    have hstores := stores_of_endsWithKey h
    have hleave : ∀ next, (∀ text regs, Knows (read ++ [c]) regs text next) →
        Leads read ⟨.lastKey v crlf, regs, captured⟩ c (.some (v.leaveKey, next)) := by
      intro next hnext
      cases v <;> exact .takes rfl (by decide) fun _ _ => hnext _ _
    refine .ite (fun _ => hleave _ fun _ _ => ?_) fun _ => .ite (fun _ => hleave _ fun _ _ => h)
      fun _ => .ite (fun _ => .quiet (quiet_accept v) h) fun _ => .quiet (by decide) h
    split
    · intro hv
      cases hstores.symm.trans hv
    · intro hv
      cases hstores.symm.trans hv
  | flagsStart v =>
    obtain ⟨hkey, rfl⟩ := h
    exact .ite (fun hc => .marks (by decide) ⟨[c], rfl, hkey, .one hc, spaced_snoc _ [_] _ _⟩)
      fun _ => .none
  | flags v =>
    obtain ⟨flags, rfl, hkey, hflags, rfl⟩ := h
    refine .ite (fun hc => .quiet (by decide) ⟨_, rfl, hkey, hflags.snoc hc, spaced_snoc _ [_] _ _⟩)
      fun _ => .ite (fun hc => .takes rfl (by decide) ?_) fun _ => .none
    rintro text ⟨⟩
    exact ⟨⟨hkey, hflags⟩, hc ▸ spaced_space _ _⟩
  | expirationStart v =>
    obtain ⟨hflags, rfl⟩ := h
    exact .ite (fun hc => .quiet (by decide) ⟨[c], hflags, .one hc, spaced_snoc _ [_, _] _ _⟩)
      fun _ => .none
  | expiration v =>
    obtain ⟨text, hflags, htext, rfl⟩ := h
    exact .ite (fun hc => .quiet (by decide) ⟨_, hflags, htext.snoc hc, spaced_snoc _ [_, _] _ _⟩)
      fun _ => .ite (fun hc => .quiet (by decide) ⟨text, ⟨hflags, htext⟩, hc ▸ spaced_space _ _⟩)
        fun _ => .none
  | sizeStart v =>
    obtain ⟨text, hexp, rfl⟩ := h
    exact .ite (fun hc => .marks (by decide)
      ⟨text, [c], rfl, hexp, .one hc, spaced_snoc _ [_, _, _] _ _⟩) fun _ => .none
  | size v =>
    obtain ⟨text, size, rfl, hexp, hsize, rfl⟩ := h
    refine .ite (fun hc => .quiet (by decide)
      ⟨text, _, rfl, hexp, hsize.snoc hc, spaced_snoc _ [_, _, _] _ _⟩) fun _ => .ite (fun hv => ?_)
        fun hv => leads_afterFields fun r' hr hstores => ?_
    · refine .ite (fun hc => .takes rfl (by decide) ?_) fun _ => .none
      rintro _ ⟨⟩
      subst hv
      exact ⟨text, ⟨hexp, hsize⟩, hc ▸ spaced_space _ _⟩
    · rw [List.singleton_append, Reader.perform_takes rfl (by decide)] at hr
      obtain rfl := Except.ok.inj hr
      have hknows : KnowsSize v { regs with size := regs.u32, sizeStr := size, noreply := false } text :=
        ⟨hexp, hsize⟩
      exact ⟨hknows.fields hv, rfl⟩
  | versionStart =>
    obtain ⟨text, hsize, rfl⟩ := h
    exact .ite (fun hc => .quiet (by decide)
      ⟨text, [c], hsize, .one hc, spaced_snoc _ [_, _, _, _] _ _⟩) fun _ => .none
  | versionField =>
    obtain ⟨text, version, hsize, hversion, rfl⟩ := h
    refine .ite (fun hc => .quiet (by decide)
      ⟨text, _, hsize, hversion.snoc hc, spaced_snoc _ [_, _, _, _] _ _⟩)
        fun _ => leads_afterFields fun r' hr _ => ?_
    rw [Reader.perform_quiet (by decide)] at hr
    obtain rfl := Except.ok.inj hr
    have hknows : KnowsSize .cas { regs with version := regs.u64, noreply := false } text := hsize
    exact ⟨hknows.fields_cas hversion, rfl⟩
  | u64Start v => exact .ite (fun _ => .quiet (by decide) h) fun _ => .none
  | u64 v =>
    have hstores : v.stores = false := h
    exact .ite (fun _ => .quiet (by decide) h) fun _ => leads_afterFields fun r' hr hv => by
      cases hstores.symm.trans hv
  | flushArgument =>
    exact .ite (fun _ => .quiet (by decide) trivial) fun _ => .ite
      (fun _ => .quiet (by decide) fun hv => Bool.noConfusion hv) fun _ => .none
  | flushExpiration =>
    exact .ite (fun _ => .quiet (by decide) trivial) fun _ => leads_afterFields fun r' hr hv => by
      cases hv
  | noreply v n =>
    refine .ite (fun hc => ?_) fun _ => .none
    have hnext : ∀ front : Bytes, front ++ 32 :: (ascii "noreply").take n ++ [c] =
        front ++ 32 :: (ascii "noreply").take (n + 1) := by
      intro front
      rw [List.take_add_one, hc]
      simp
    refine .ite (fun hn => .quiet (by decide) fun hv => ?_) fun _ => .quiet (by decide) fun hv => ?_
    · obtain ⟨front, hfields, rfl⟩ := h hv
      subst hn
      refine ⟨front, ?_, rfl, hnext front⟩
      obtain ⟨line, hverb, hagrees, hread⟩ := hfields
      exact ⟨line, hverb, hagrees.of_same rfl, hread⟩
    · obtain ⟨front, hfields, rfl⟩ := h hv
      exact ⟨front, hfields, hnext front⟩
  | noreplyEnd v =>
    refine .ite (fun hc => ?_) fun _ => .none
    cases hv : v.stores with
    | true =>
      refine .quiet (by decide) fun _ => ?_
      obtain ⟨front, hfields, hreply, rfl⟩ := h hv
      rw [hc, List.append_assoc]
      exact hfields.line_noreply hreply
    | false =>
      refine .quiet (by decide) fun hv' => ?_
      cases hv.symm.trans hv'
  | blobCall v =>
    refine .ite (fun hc => .quiet (by decide) fun hv => ?_) fun _ => .none
    rw [hc]
    exact h hv
  | blobEnd v =>
    exact .ite (fun hc => .quiet (by decide) fun hv => ⟨read, h hv, by rw [hc]⟩) fun _ => .none
  | crlf v =>
    refine .ite (fun hc => .quiet (quiet_accept v) fun w hw hv => ?_) fun _ => .none
    obtain rfl : v = w := State.cmd.inj hw
    obtain ⟨front, ⟨front', hline, hlen, hfront⟩, rfl⟩ := h hv
    refine ⟨front, ⟨front', hline.of_same rfl, hlen, hfront⟩, ?_⟩
    rw [hc, List.append_assoc]
    rfl
  | blobStart v => exact .none
  | blob v => exact .none
  | done => exact .none

end Leads

theorem transition_lastKey_done {place : Place} {actions : List Action}
    (h : transition place c = some (actions, .lastKey v .done)) : actions = [.accept v] := by
  cases place with
  | word w =>
    rw [transition] at h
    split at h
    · cases (Prod.mk.inj (Option.some.inj h)).2
    · obtain ⟨w, -, h⟩ := Option.bind_eq_some_iff.mp h
      cases w <;> grind [afterWord]
  | _ => grind [transition, afterFields]

namespace Reader

variable {r r' : Reader} {read : Bytes}

/-- A character outside of a blob. -/
theorem Follows.plain (h : r.Follows read) (hp : r.plain c = .going r') :
    r'.Follows (read ++ [c]) := by
  obtain ⟨actions, next, r₁, ht, hr, rfl⟩ := plain_going hp
  have hknows := leads_transition h.knows actions next r₁ ht hr
  refine ⟨hknows, fun w hw hstores => ?_⟩
  by_cases ha : ∃ u, .accept u ∈ actions
  · obtain ⟨u, hu⟩ := ha
    rcases transition_accepts ht hu with hdone | ⟨u, rfl⟩
    · exact hdone
    · obtain rfl := transition_lastKey_done ht
      rw [perform_quiet (quiet_accept u)] at hr
      obtain rfl := Except.ok.inj hr
      obtain rfl : u = w := State.cmd.inj hw
      cases (stores_of_endsWithKey hknows).symm.trans hstores
  · have hstate : r.regs.state = .cmd w :=
      (perform_state (fun u hu => ha ⟨u, hu⟩) hr).symm.trans hw
    rw [h.accepted w hstate hstores] at ht
    cases ht

/-- In a blob nothing is accepted. -/
theorem Follows.state_ne (h : r.Follows read) (hplace : r.place ≠ .done) (hstores : v.stores = true) :
    r.regs.state ≠ .cmd v := fun hstate => hplace (h.accepted v hstate hstores)

theorem Follows.startBlob (h : r.Follows read) (hplace : r.place = .blobStart v) :
    (r.startBlob v).Follows read := by
  have hknows := h.knows
  rw [hplace] at hknows
  refine ⟨fun hv => ⟨read, [], (hknows hv).of_same rfl, rfl, Nat.zero_add _, (List.append_nil _).symm⟩,
    fun w hw hstores => ?_⟩
  exact absurd hw (h.state_ne (by simp [hplace]) hstores)

theorem Follows.emptyBlob (h : r.Follows read) (hplace : r.place = .blobStart v)
    (hsize : r.regs.size = 0) : (r.emptyBlob v).Follows read := by
  have hknows := h.knows
  rw [hplace] at hknows
  refine ⟨fun hv => ⟨read, (hknows hv).of_same rfl, ?_, (List.append_nil _).symm⟩,
    fun w hw hstores => ?_⟩
  · exact (congrArg UInt32.toNat hsize).symm
  · exact absurd hw (h.state_ne (by simp [hplace]) hstores)

/-- Bytes of a blob. -/
theorem Follows.blobBytes {ds : Bytes} (h : r.Follows read) (hplace : r.place = .blob v)
    (hle : ds.length ≤ r.regs.sizeLeft.toNat) : (r.blobBytes v ds).Follows (read ++ ds) := by
  have hknows := h.knows
  rw [hplace] at hknows
  have hlen : (UInt32.ofNat ds.length).toNat = ds.length :=
    UInt32.toNat_ofNat_of_lt' (Nat.lt_of_le_of_lt hle r.regs.sizeLeft.toNat_lt)
  have hsub : (r.regs.sizeLeft - UInt32.ofNat ds.length).toNat =
      r.regs.sizeLeft.toNat - ds.length := by
    rw [UInt32.toNat_sub_of_le _ _ (by rw [UInt32.le_iff_toNat_le, hlen]; exact hle), hlen]
  rw [Reader.blobBytes]
  split
  · rename_i hzero
    rw [hzero] at hsub
    have hall : r.regs.sizeLeft.toNat = ds.length := by
      have : (0 : UInt32).toNat = 0 := rfl
      omega
    refine ⟨fun hv => ?_, fun w hw hstores => ?_⟩
    · obtain ⟨front, text, hline, hcap, hsum, rfl⟩ := hknows hv
      refine ⟨front, hline.of_same rfl, ?_, ?_⟩
      · simp only [hcap, Option.getD_some, List.length_append]
        omega
      · simp only [hcap, Option.getD_some, List.append_assoc]
    · exact absurd hw (h.state_ne (by simp [hplace]) hstores)
  · refine ⟨fun hv => ?_, fun w hw hstores => ?_⟩
    · obtain ⟨front, text, hline, hcap, hsum, rfl⟩ := hknows hv
      refine ⟨front, text ++ ds, hline.of_same rfl, by rw [hcap, Option.getD_some], ?_, ?_⟩
      · rw [hsub, List.length_append]
        show _ = r.regs.size.toNat
        omega
      · rw [List.append_assoc]
    · exact absurd hw (h.state_ne (by simp [hplace]) hstores)

end Reader

/-! ## Buffers -/

variable {buf before : Bytes} {p q n fuel : Nat} {m m' : Machine} {r r' : Reader}
  {exit : Machine.Exit}

/-- The parser at a position of the buffer, behind the bytes of the buffers before. -/
def Reached (buf before : Bytes) (p : Nat) (m : Machine) : Prop :=
  ∃ r, At buf p m r ∧ r.WellFormed ∧ r.Follows (before ++ buf.take p) ∧ p ≤ buf.length

/-- `advance_blob` reads bytes of the blob, or none at all. -/
theorem advanceBlob_reached (h : At buf p m r) (hplace : r.place = .blob v) (hcap : r.captured ≠ none)
    (hleft : r.regs.sizeLeft ≠ 0) (hf : r.Follows (before ++ buf.take p)) (hlt : p < buf.length)
    (hrest : UInt32.ofNat (buf.length - p) ≠ 0) :
    ∃ m' q, m.advanceBlob buf p v = .ok (m', q) ∧ Reached buf before q m' := by
  obtain ⟨k, m', hk, hle, hleft', hadv, hat, hwf⟩ := h.advance_of_ne hcap hleft hlt hrest (v := v)
  have hlen : ((buf.drop p).take k).length = k := by
    rw [List.length_take, List.length_drop]
    omega
  have hf' : (r.blobBytes v ((buf.drop p).take k)).Follows
      (before ++ buf.take p ++ (buf.drop p).take k) := hf.blobBytes hplace (by rw [hlen]; exact hleft')
  rw [List.append_assoc, ← List.take_add] at hf'
  exact ⟨m', p + k, hadv, _, hat, hwf, hf', hle⟩

/-- In a blob. -/
theorem exec_blob_reached (h : At buf p m r) (hplace : r.place = .blob v) (hcap : r.captured ≠ none)
    (hleft : r.regs.sizeLeft ≠ 0) (hf : r.Follows (before ++ buf.take p)) (hlt : p < buf.length)
    (hexec : (m.advanceBlob buf p v >>= fun (m, p) => m.exec buf fuel p) = .ok (some (m', q, exit)))
    (ih : ∀ m p, Reached buf before p m → m.exec buf fuel p = .ok (some (m', q, exit)) →
      Reached buf before q m') : Reached buf before q m' := by
  by_cases hrest : UInt32.ofNat (buf.length - p) = 0
  · have hleft' : m.regs.sizeLeft ≠ 0 := by rw [h.regs]; exact hleft
    have hplace' := h.place.trans hplace
    rw [advanceBlob_stalls hplace' hleft' hrest, ok_bind] at hexec
    cases (exec_stalls hplace' hleft' hlt hrest fuel).symm.trans hexec
  · obtain ⟨m₁, q₁, hadv, hreached⟩ := advanceBlob_reached h hplace hcap hleft hf hlt hrest
    rw [hadv, ok_bind] at hexec
    exact ih m₁ q₁ hreached hexec

/-- The execution on a buffer follows the bytes of the buffer. -/
theorem exec_reached (h : Reached buf before p m)
    (hexec : m.exec buf fuel p = .ok (some (m', q, exit))) : Reached buf before q m' := by
  induction fuel generalizing m p with
  | zero => cases hexec
  | succ fuel ih =>
    obtain ⟨r, hat, hwf, hf, hp⟩ := h
    cases hc : buf[p]? with
    | none =>
      rw [Machine.exec, hc] at hexec
      obtain ⟨rfl, rfl, rfl⟩ := Prod.mk.inj (Option.some.inj (Except.ok.inj hexec))
      exact ⟨r, hat, hwf, hf, hp⟩
    | some c =>
      have hlt := (List.getElem?_eq_some_iff.mp hc).1
      cases hplace : r.place with
      | blobStart v =>
        rw [Machine.exec_blobStart hc (hat.place.trans hplace)] at hexec
        have hcap : r.captured = none := hwf.idle (by rw [hplace]; rfl)
        by_cases hsize : r.regs.size = 0
        · obtain ⟨m₁, hadv, hat'⟩ := hat.advance_empty (v := v) hcap hsize
          rw [hadv, ok_bind] at hexec
          have hwf' : (r.emptyBlob v).WellFormed :=
            ⟨by simp [Reader.emptyBlob], fun _ => rfl, fun hb => Bool.noConfusion hb⟩
          exact ih ⟨_, hat', hwf', hf.emptyBlob hplace hsize, hp⟩ hexec
        · rw [← Machine.advanceBlob_place _ (.blob v)] at hexec
          have hm := hat.mark hcap
          have hstart : At buf p
              { m with
                place := .blob v
                builder := { m.builder with start := some p }
                regs := { m.regs with sizeLeft := m.regs.size } } (r.startBlob v) :=
            ⟨rfl, by rw [hat.regs]; rfl, hm.text, hm.start_le, hm.value⟩
          exact exec_blob_reached hstart rfl (by simp [Reader.startBlob]) hsize (hf.startBlob hplace)
            hlt hexec fun m p => ih
      | blob v =>
        rw [Machine.exec_blob hc (hat.place.trans hplace)] at hexec
        obtain ⟨hleft, hcap⟩ := hwf.blob (by rw [hplace]; rfl)
        exact exec_blob_reached hat hplace hcap hleft hf hlt hexec fun m p => ih
      | _ =>
        rcases hat.plain hwf hc (by rw [hplace]; rfl) fuel with ⟨-, hm⟩ | ⟨f, -, hm⟩ |
          ⟨r₁, m₁, hr, hm, hat'⟩
        · rw [hm] at hexec
          obtain ⟨rfl, rfl, rfl⟩ := Prod.mk.inj (Option.some.inj (Except.ok.inj hexec))
          exact ⟨r, hat, hwf, hf, hp⟩
        · rw [hm] at hexec
          cases hexec
        · rw [hm] at hexec
          have htake : before ++ buf.take p ++ [c] = before ++ buf.take (p + 1) := by
            rw [List.take_add_one, hc, List.append_assoc]
            rfl
          exact ih ⟨r₁, hat', hwf.plain hr, htake ▸ hf.plain hr, hlt⟩ hexec

/-- What a buffer comes to. -/
def Follows (before buf : Bytes) : Progress Machine → Prop
  | .going m => ∃ r : Reader, m = r.atRest ∧ r.WellFormed ∧ r.Follows (before ++ buf)
  | .stopped (.accepted regs n) => ∀ v, regs.state = .cmd v → v.stores = true →
      ∃ (q : Nat) (r : Reader), n = before.length + q ∧ q ≤ buf.length ∧ r.regs = regs ∧
        r.Follows (before ++ buf.take q)
  | .stopped _ => True

theorem parse_follows (hwf : r.WellFormed) (hf : r.Follows before) (buf : Bytes) :
    Follows before buf (r.atRest.parse before.length buf) := by
  have hstart : Reached buf before 0 { r.atRest with builder := r.atRest.builder.enter } :=
    ⟨r, hwf.atRest_enter buf, hwf, by simpa using hf, Nat.zero_le _⟩
  rw [Machine.parse]
  cases hexec : Machine.exec buf (2 * buf.length + 2)
      { r.atRest with builder := r.atRest.builder.enter } 0 with
  | error f => trivial
  | ok x =>
    cases x with
    | none => trivial
    | some x =>
      obtain ⟨m, p, exit⟩ := x
      obtain ⟨r', hat, hwf', hf', hp⟩ := exec_reached hstart hexec
      obtain ⟨b, hb⟩ := Builder.leave_ok buf m.builder
      simp only [hb]
      by_cases heof : buf = [] ∧ m.place = .word []
      · simp only [Machine.atEof, heof, and_self, if_true]
        intro v hv
        cases hv
      · simp only [Machine.atEof, if_neg heof]
        by_cases hs : m.regs.state = .error
        · simp only [hs, ne_eq, not_true_eq_false, if_false]
          by_cases hend : p = buf.length
          · subst hend
            simp only [not_true_eq_false, if_false]
            refine ⟨r', ?_, hwf', by simpa using hf'⟩
            have hbuilder := hat.leave.symm.trans hb
            rw [← Except.ok.inj hbuilder, hat.place, hat.regs]
            rfl
          · simp only [hend, not_false_eq_true, if_true]
            trivial
        · simp only [hs, ne_eq, not_false_eq_true, if_true]
          intro v hv hstores
          exact ⟨p, r', rfl, hp, hat.regs.symm, hf'⟩

/-- What the buffers come to, when a command that stores is accepted. -/
theorem feed_follows {bufs : List Bytes} {regs : Registers} (hwf : r.WellFormed)
    (hf : r.Follows before) (h : r.atRest.feed before.length bufs = .accepted regs n)
    (hcmd : regs.state = .cmd v) (hstores : v.stores = true) :
    ∃ r' : Reader, r'.regs = regs ∧ r'.Follows ((before ++ bufs.flatten).take n) ∧
      n ≤ (before ++ bufs.flatten).length := by
  induction bufs generalizing r before with
  | nil => cases h
  | cons buf bufs ih =>
    have hparse := parse_follows hwf hf buf
    rw [Machine.feed] at h
    cases hx : r.atRest.parse before.length buf with
    | going m =>
      rw [hx] at h hparse
      obtain ⟨r', rfl, hwf', hf'⟩ := hparse
      have := ih hwf' hf' (by rw [List.length_append]; exact h)
      rwa [List.append_assoc] at this
    | stopped o =>
      rw [hx] at h hparse
      obtain rfl : o = .accepted regs n := h
      obtain ⟨q, r', rfl, hq, hregs, hf'⟩ := hparse v hcmd hstores
      refine ⟨r', hregs, ?_, ?_⟩
      · rwa [List.take_length_add_append, List.flatten_cons, List.take_append_of_le_length hq]
      · rw [List.length_append, List.flatten_cons, List.length_append]
        omega

/-- What is accepted as a command that stores is a line, the blob and a line end. -/
theorem feed_line {bufs : List Bytes} {regs regs' : Registers}
    (h : feed regs bufs = .accepted regs' n) (hcmd : regs'.state = .cmd v)
    (hstores : v.stores = true) :
    ∃ line : StoreLine, line.verb = v ∧ line.Agrees regs' ∧ line.noreply = regs'.noreply ∧
      regs'.blob.length = regs'.size.toNat ∧
      bufs.flatten.take n = line.bytes ++ regs'.blob ++ crlf ∧ n ≤ bufs.flatten.length := by
  have hwf : (Reader.start regs).WellFormed :=
    ⟨by simp [Reader.start], fun _ => rfl, fun hb => Bool.noConfusion hb⟩
  have hf : (Reader.start regs).Follows [] := ⟨rfl, fun w hw => State.noConfusion hw⟩
  obtain ⟨r, rfl, hfollows, hn⟩ := feed_follows hwf hf h hcmd hstores
  have hknows := hfollows.knows
  rw [hfollows.accepted v hcmd hstores] at hknows
  obtain ⟨front, ⟨front', ⟨line, hverb, hagrees, hreply, rfl⟩, hlen, rfl⟩, hread⟩ :=
    hknows v hcmd hstores
  exact ⟨line, hverb, hagrees, hreply, hlen, hread, hn⟩

/-- What is accepted as a command that stores is a line, the blob and a line end. The blob has as many
bytes as the line says, and the next command starts behind them, if and only if the size of the line
is below 2^32. -/
theorem feed_blob_iff (regs : Registers) (bufs : List Bytes) (regs' : Registers) (n : Nat) (v : Verb)
    (h : feed regs bufs = .accepted regs' n) (hcmd : regs'.state = .cmd v)
    (hstores : v.stores = true) :
    ∃ line : StoreLine, line.verb = v ∧ line.Agrees regs' ∧ line.noreply = regs'.noreply ∧
      bufs.flatten.take n = line.bytes ++ regs'.blob ++ crlf ∧
      (regs'.blob.length = decimalValue line.size ∧
          n = line.bytes.length + decimalValue line.size + crlf.length ↔
        decimalValue line.size < 2 ^ 32) := by
  obtain ⟨line, hverb, hagrees, hreply, hlen, hread, hn⟩ := feed_line h hcmd hstores
  refine ⟨line, hverb, hagrees, hreply, hread, ?_⟩
  have hsize := hagrees.size.2
  rw [← hlen] at hsize
  have hcount := congrArg List.length hread
  rw [List.length_take, Nat.min_eq_left hn, List.length_append, List.length_append] at hcount
  have hmod := Nat.mod_lt (decimalValue line.size) (show 0 < 2 ^ 32 by decide)
  constructor
  · rintro ⟨heq, -⟩
    omega
  · intro hlt
    rw [Nat.mod_eq_of_lt hlt] at hsize
    exact ⟨hsize, by rw [hcount, hsize]⟩

/-- `"set a 0 0 2\r\nxy\r\n"`, in three buffers. -/
theorem feed_blob_two :
    ∃ line : StoreLine, line.verb = .set ∧
      line.Agrees { state := .cmd .set, u32 := 2, key := ascii "a", flagsStr := ascii "0", size := 2,
                    sizeStr := ascii "2", blob := ascii "xy" } ∧ line.noreply = false ∧
      (ascii "set a 0 0 2\r\nxy\r\n").take 17 = line.bytes ++ ascii "xy" ++ crlf ∧
      ((ascii "xy").length = decimalValue line.size ∧
          17 = line.bytes.length + decimalValue line.size + crlf.length ↔
        decimalValue line.size < 2 ^ 32) :=
  feed_blob_iff {} [ascii "set a 0 0 2\r", ascii "\nx", ascii "y\r\n"]
    { state := .cmd .set, u32 := 2, key := ascii "a", flagsStr := ascii "0", size := 2
      sizeStr := ascii "2", blob := ascii "xy" } 17 .set (by decide +kernel) rfl rfl

/-- `"set a 0 0 4294967297\r\nx\r\n"` is accepted with a blob of one byte, and `"ab\r\n"` behind it
is left to be the next command. -/
theorem feed_blob_wraps :
    feed {} [ascii "set a 0 0 4294967297\r\nx\r\nab\r\n"] =
        .accepted { state := .cmd .set, u32 := 1, key := ascii "a", flagsStr := ascii "0", size := 1,
                    sizeStr := ascii "4294967297", blob := ascii "x" } 25 ∧
      (ascii "x").length ≠ decimalValue (ascii "4294967297") := by
  decide +kernel

end Parser

end Seastar.Memcached
