import Mathlib.Data.List.Infix
import Seastar.Core.Scollectd

/-!
What the writer of the reports writes, as the part format of collectd reads it. A reader of a packet
starts with an empty identity, keeps the last string of each part, and takes a record from every
values part.
-/

namespace Seastar.Scollectd

open Lib

/-! ## The writer -/

variable {f g : Writer → Writer} {enc enc' : Cache → Bytes} {next next' : Cache → Cache}

/-- `f` writes `enc` of the cache and leaves the cache as `next`, if there is space for all of it,
and overflows otherwise. -/
structure Emits (f : Writer → Writer) (enc : Cache → Bytes) (next : Cache → Cache) : Prop where
  stuck : ∀ w, w.overflow = true → (f w).overflow = true
  kept : ∀ w, w.buf <+: (f w).buf
  fits : ∀ w, w.overflow = false → w.buf.length + (enc w.cache).length ≤ payloadSize →
    f w = ⟨w.buf ++ enc w.cache, false, next w.cache⟩
  full : ∀ w, w.overflow = false → w.buf.length ≤ payloadSize →
    payloadSize < w.buf.length + (enc w.cache).length → (f w).overflow = true

theorem Emits.comp (hf : Emits f enc next) (hg : Emits g enc' next') :
    Emits (fun w => g (f w)) (fun c => enc c ++ enc' (next c)) (fun c => next' (next c)) where
  stuck w h := hg.stuck _ (hf.stuck w h)
  kept w := (hf.kept w).trans (hg.kept (f w))
  fits w h hlen := by
    rw [List.length_append] at hlen
    rw [hf.fits w h (by omega), hg.fits _ rfl]
    · rw [List.append_assoc]
    · rw [List.length_append]
      dsimp only
      omega
  full w h hbuf hlen := by
    rw [List.length_append] at hlen
    by_cases hle : w.buf.length + (enc w.cache).length ≤ payloadSize
    · rw [hf.fits w h hle]
      apply hg.full _ rfl
      · rwa [List.length_append]
      · rw [List.length_append]
        dsimp only
        omega
    · exact hg.stuck _ (hf.full w h hbuf (Nat.lt_of_not_le hle))

theorem emits_write (bs : Bytes) : Emits (Writer.write bs) (fun _ => bs) id where
  stuck w h := by simp [Writer.write, Writer.check, h]
  kept w := by
    rw [Writer.write]
    split
    · exact List.prefix_rfl
    · exact List.prefix_append _ _
  fits w h hlen := by
    have hspace : ¬ payloadSize - w.buf.length < bs.length := by omega
    simp [Writer.write, Writer.check, h, hspace]
  full w h hbuf hlen := by
    have hspace : payloadSize - w.buf.length < bs.length := by omega
    simp [Writer.write, Writer.check, hspace]

/-- A string part. -/
def stringPart (part : PartType) (s : Bytes) : Bytes :=
  hton 2 part.code.toNat ++ hton 2 (4 + s.length + 1) ++ (s ++ [0])

/-- A number part. -/
def numberPart (part : PartType) (t : UInt64) : Bytes :=
  hton 2 part.code.toNat ++ hton 2 (4 + 8) ++ hton 8 t.toNat

/-- What is written of a value. -/
def valueBytes (type : ScalarType) (bits : UInt64) : Bytes :=
  match type with
  | .gauge => LittleEndian.encode 8 bits.toNat
  | _ => hton 8 bits.toNat

/-- A values part with one value. -/
def valuePart (type : ScalarType) (bits : UInt64) : Bytes :=
  hton 2 PartType.values.code.toNat ++ hton 2 15 ++ hton 2 1 ++ [type.code] ++ valueBytes type bits

/-- A string part, unless it is the same as the last one. -/
def cachedPart (part : PartType) (s : Bytes) (c : Cache) : Bytes :=
  if c part = s then [] else stringPart part s

@[simp] theorem length_hton (n v : Nat) : (hton n v).length = n := by
  simp [hton]

@[simp] theorem length_stringPart (part : PartType) (s : Bytes) :
    (stringPart part s).length = 5 + s.length := by
  simp only [stringPart, List.length_append, length_hton, List.length_singleton]
  omega

@[simp] theorem length_numberPart (part : PartType) (t : UInt64) :
    (numberPart part t).length = 12 := by
  simp [numberPart]

@[simp] theorem length_valueBytes (type : ScalarType) (bits : UInt64) :
    (valueBytes type bits).length = 8 := by
  cases type <;> simp [valueBytes]

@[simp] theorem length_valuePart (type : ScalarType) (bits : UInt64) :
    (valuePart type bits).length = 15 := by
  simp [valuePart]

theorem emits_putNumber (part : PartType) (t : UInt64) :
    Emits (Writer.putNumber part t) (fun _ => numberPart part t) id :=
  ((emits_write _).comp (emits_write _)).comp (emits_write _)

theorem emits_putString (part : PartType) (s : Bytes) :
    Emits (Writer.putString part s) (fun _ => stringPart part s) id :=
  ((emits_write _).comp (emits_write _)).comp (emits_write _)

theorem emits_putCached (part : PartType) (s : Bytes) :
    Emits (Writer.putCached part s) (cachedPart part s) (fun c => Function.update c part s) where
  stuck w h := by
    rw [Writer.putCached]
    split
    · exact (emits_putString part s).stuck w h
    · exact h
  kept w := by
    rw [Writer.putCached]
    split
    · exact (emits_putString part s).kept w
    · exact List.prefix_rfl
  fits w h hlen := by
    rw [Writer.putCached]
    by_cases hc : w.cache part = s
    · rw [if_neg (not_not_intro hc), cachedPart, if_pos hc, List.append_nil, ← hc,
        Function.update_eq_self, ← h]
    · rw [cachedPart, if_neg hc] at hlen ⊢
      rw [if_pos hc, (emits_putString part s).fits w h hlen]
      rfl
  full w h hbuf hlen := by
    rw [Writer.putCached]
    by_cases hc : w.cache part = s
    · rw [cachedPart, if_pos hc] at hlen
      exact absurd hlen (Nat.not_lt.mpr hbuf)
    · rw [cachedPart, if_neg hc] at hlen
      rw [if_pos hc]
      exact (emits_putString part s).full w h hbuf hlen

theorem emits_writeValue (type : ScalarType) (bits : UInt64) :
    Emits (Writer.writeValue type bits) (fun _ => valueBytes type bits) id := by
  cases type with
  | gauge => exact emits_write _
  | counter | derive | absolute => exact emits_write _

/-- The values part is checked as a whole, and then again in its pieces. -/
theorem emits_putValue (type : ScalarType) (bits : UInt64) :
    Emits (Writer.putValue type bits) (fun _ => valuePart type bits) id := by
  have hwrites : Emits (fun w : Writer => ((((w.write (hton 2 PartType.values.code.toNat)).write
      (hton 2 15)).write (hton 2 1)).write [type.code]).writeValue type bits)
      (fun _ => valuePart type bits) id :=
    ((((emits_write _).comp (emits_write _)).comp (emits_write _)).comp (emits_write _)).comp
      (emits_writeValue type bits)
  constructor
  · intro w h
    simp [Writer.putValue, Writer.check, h]
  · intro w
    rw [Writer.putValue]
    split
    · exact List.prefix_rfl
    · exact hwrites.kept (w.check 15)
  · intro w h hlen
    have hspace : w.check 15 = w := by
      have : ¬ payloadSize - w.buf.length < 15 := by
        rw [length_valuePart] at hlen
        omega
      simp [Writer.check, this]
    rw [Writer.putValue, hspace, if_neg (by simp [h])]
    exact hwrites.fits w h hlen
  · intro w h hbuf hlen
    have hspace : payloadSize - w.buf.length < 15 := by
      rw [length_valuePart] at hlen
      omega
    simp [Writer.putValue, Writer.check, hspace]

/-! ## The records -/

/-- What a values part says of a metric: its identity, and its value. -/
structure Record where
  host : Bytes
  plugin : Bytes
  pluginInst : Bytes
  type : Bytes
  typeInst : Bytes
  valueType : ScalarType
  bits : UInt64
  deriving DecidableEq, Repr

/-- A value with the identity that was kept last. -/
def Record.of (c : Cache) (type : ScalarType) (bits : UInt64) : Record :=
  ⟨c .host, c .plugin, c .pluginInst, c .type, c .typeInst, type, bits⟩

/-- The parts of the identity. -/
def identityParts : List PartType := [.host, .plugin, .pluginInst, .type, .typeInst]

/-- The identity of a metric. -/
def identity (r : Reporter) (id : MetricId) : Cache
  | .host => r.host
  | .plugin => id.groupName
  | .pluginInst => r.pluginInst id
  | .type => id.inheritType
  | .typeInst => Writer.getTypeInstance id
  | _ => []

/-- The bytes of a record, when the last one had the identity `c`. -/
def recordBytes (r : Reporter) (id : MetricId) (type : ScalarType) (bits : UInt64) (tick : Nat)
    (c : Cache) : Bytes :=
  cachedPart .host (identity r id .host) c ++ numberPart .time (r.now tick) ++
    cachedPart .plugin (identity r id .plugin) c ++
    cachedPart .pluginInst (identity r id .pluginInst) c ++
    cachedPart .type (identity r id .type) c ++ cachedPart .typeInst (identity r id .typeInst) c ++
    valuePart type bits ++ if r.period ≠ 0 then numberPart .intervalHr r.period else []

/-- The cache behind the record. -/
def remember (r : Reporter) (id : MetricId) (c : Cache) : Cache :=
  fun part => if part ∈ identityParts then identity r id part else c part

theorem Emits.congr (h : Emits f enc next) (henc : ∀ c, enc' c = enc c)
    (hnext : ∀ c, next' c = next c) : Emits f enc' next' := by
  obtain rfl : enc' = enc := funext henc
  obtain rfl : next' = next := funext hnext
  exact h

theorem emits_interval (r : Reporter) :
    Emits (fun w => if r.period ≠ 0 then w.putNumber .intervalHr r.period else w)
      (fun _ => if r.period ≠ 0 then numberPart .intervalHr r.period else []) id := by
  by_cases h : r.period ≠ 0
  · simp only [if_pos h]
    exact emits_putNumber .intervalHr r.period
  · simp only [if_neg h]
    constructor
    · exact fun w hw => hw
    · exact fun w => List.prefix_rfl
    · intro w hw _
      rw [List.append_nil, ← hw]
      rfl
    · exact fun w _ hbuf hlen => absurd hlen (Nat.not_lt.mpr hbuf)

/-- A record is written with the parts of its identity that are not those of the last one. -/
theorem emits_put (r : Reporter) (id : MetricId) (type : ScalarType) (bits : UInt64) (tick : Nat) :
    Emits (Writer.put r id type bits tick) (recordBytes r id type bits tick) (remember r id) := by
  have h := ((((((emits_putCached .host r.host).comp (emits_putNumber .time (r.now tick))).comp
    (emits_putCached .plugin id.groupName)).comp (emits_putCached .pluginInst (r.pluginInst id))).comp
    (emits_putCached .type id.inheritType)).comp
    (emits_putCached .typeInst (Writer.getTypeInstance id))).comp
    ((emits_putValue type bits).comp (emits_interval r))
  apply Emits.congr h
  · intro c
    simp [recordBytes, identity, cachedPart, Function.update]
    rfl
  · intro c
    funext part
    cases part <;> simp [remember, identityParts, identity, Function.update]

/-! ## The reader -/

/-- The number that bytes in network order stand for. -/
def ntoh (bs : Bytes) : Nat := LittleEndian.decode bs.reverse

theorem ntoh_hton (n v : Nat) : ntoh (hton n v) = v % 256 ^ n := by
  rw [ntoh, hton, List.reverse_reverse, LittleEndian.decode_encode]

/-- The code of the first part, its content and what is behind it. -/
def readPart (bs : Bytes) : Option (Nat × Bytes × Bytes) :=
  let len := ntoh ((bs.drop 2).take 2)
  if 4 ≤ bs.length ∧ 4 ≤ len ∧ len ≤ bs.length then
    some (ntoh (bs.take 2), (bs.drop 4).take (len - 4), bs.drop len)
  else none

theorem readPart_lt {bs content rest : Bytes} {code : Nat}
    (h : readPart bs = some (code, content, rest)) : rest.length < bs.length := by
  rw [readPart] at h
  split at h
  · rename_i hlen
    obtain ⟨-, -, rfl⟩ := (by simpa using h : _ ∧ _ ∧ _)
    rw [List.length_drop]
    omega
  · cases h

def partTypes : List PartType :=
  [.host, .time, .plugin, .pluginInst, .type, .typeInst, .values, .intervalHr]

def partOf (code : Nat) : Option PartType := partTypes.find? (·.code.toNat = code)

/-- A string without the zero behind it. -/
def readString (content : Bytes) : Option Bytes :=
  if content.getLast? = some 0 then some content.dropLast else none

def scalarTypes : List ScalarType := [.counter, .gauge, .derive, .absolute]

def readValue (type : ScalarType) (content : Bytes) : UInt64 :=
  match type with
  | .gauge => .ofNat (LittleEndian.decode content)
  | _ => .ofNat (ntoh content)

/-- The types of the values, then the values. -/
def readValues (c : Cache) : Bytes → Bytes → Option (List Record)
  | [], _ => some []
  | code :: codes, values => do
    let type ← scalarTypes.find? (·.code = code)
    let records ← readValues c codes (values.drop 8)
    some (.of c type (readValue type (values.take 8)) :: records)

/-- A values part. -/
def readContent (c : Cache) (content : Bytes) : Option (List Record) :=
  let count := ntoh (content.take 2)
  if content.length = 2 + 9 * count then
    readValues c ((content.drop 2).take count) (content.drop (2 + count))
  else none

/-- A part: what the reader then keeps, and the records it gives. Parts of another type are skipped. -/
def interpret (c : Cache) (code : Nat) (content : Bytes) : Option (Cache × List Record) :=
  match partOf code with
  | none => some (c, [])
  | some .values => (readContent c content).map fun records => (c, records)
  | some .time | some .intervalHr => if content.length = 8 then some (c, []) else none
  | some part => (readString content).map fun s => (Function.update c part s, [])

/-- The records of a packet, for a reader that keeps the strings `c`. -/
def decode (c : Cache) (bs : Bytes) : Option (List Record) :=
  if bs = [] then some [] else
  match h : readPart bs with
  | none => none
  | some (code, content, rest) =>
    have := readPart_lt h
    (interpret c code content).bind fun r => (decode r.1 rest).map (r.2 ++ ·)
termination_by bs.length

/-! ## The reader reads what the writer writes -/

variable {part : PartType} {c : Cache} {recs recs' : Cache → List Record}

theorem readPart_part {content : Bytes} {code : Nat} (hcode : code < 65536)
    (hlen : content.length + 4 < 65536) (rest : Bytes) :
    readPart (hton 2 code ++ hton 2 (4 + content.length) ++ content ++ rest) =
      some (code, content, rest) := by
  have hn : ∀ v, v < 65536 → ntoh (hton 2 v) = v := fun v hv => by
    rw [ntoh_hton]
    exact Nat.mod_eq_of_lt hv
  have htake : (hton 2 code ++ hton 2 (4 + content.length) ++ content ++ rest).take 2 = hton 2 code := by
    rw [List.append_assoc, List.append_assoc, List.take_left' (length_hton 2 code)]
  have hdrop : (hton 2 code ++ hton 2 (4 + content.length) ++ content ++ rest).drop 2 =
      hton 2 (4 + content.length) ++ (content ++ rest) := by
    rw [List.append_assoc, List.append_assoc, List.drop_left' (length_hton 2 code)]
  have hdrop4 : (hton 2 code ++ hton 2 (4 + content.length) ++ content ++ rest).drop 4 =
      content ++ rest := by
    rw [List.append_assoc, List.drop_left' (by simp)]
  rw [readPart, hdrop, List.take_left' (length_hton 2 _), hn _ (by omega), htake, hn _ hcode, hdrop4]
  have hall : (hton 2 code ++ hton 2 (4 + content.length) ++ content ++ rest).length =
      4 + content.length + rest.length := by
    simp only [List.length_append, length_hton]
  rw [hall, if_pos (by omega), Nat.add_sub_cancel_left, List.take_left' rfl,
    List.drop_left' (by simp only [List.length_append, length_hton])]

/-- The first part of a packet. -/
theorem decode_part (content : Bytes) {code : Nat} (hcode : code < 65536)
    (hlen : content.length + 4 < 65536) (c : Cache) (rest : Bytes) :
    decode c (hton 2 code ++ hton 2 (4 + content.length) ++ content ++ rest) =
      (interpret c code content).bind fun r => (decode r.1 rest).map (r.2 ++ ·) := by
  have hne : hton 2 code ++ hton 2 (4 + content.length) ++ content ++ rest ≠ [] := by
    intro h
    have := congrArg List.length h
    simp at this
  rw [decode, if_neg hne]
  have hread := readPart_part hcode hlen rest
  split
  · rename_i h
    rw [hread] at h
    cases h
  · rename_i h
    rw [hread] at h
    cases h
    rfl

/-- A reader with the strings of the cache gets `recs` from what is written, and keeps the strings
of the cache behind it. -/
def Reads (enc : Cache → Bytes) (next : Cache → Cache) (recs : Cache → List Record) : Prop :=
  ∀ c rest, (enc c).length ≤ payloadSize →
    decode c (enc c ++ rest) = (decode (next c) rest).map (recs c ++ ·)

theorem Reads.comp (h : Reads enc next recs) (h' : Reads enc' next' recs') :
    Reads (fun c => enc c ++ enc' (next c)) (fun c => next' (next c))
      (fun c => recs c ++ recs' (next c)) := by
  intro c rest hlen
  rw [List.length_append] at hlen
  rw [List.append_assoc, h c _ (by omega), h' (next c) rest (by omega), Option.map_map]
  congr 1
  funext later
  exact (List.append_assoc _ _ _).symm

theorem partOf_code (part : PartType) : partOf part.code.toNat = some part := by
  cases part <;> decide

theorem reads_number (h : part = .time ∨ part = .intervalHr) (t : UInt64) :
    Reads (fun _ => numberPart part t) id (fun _ => []) := by
  intro c rest _
  have hlen : (hton 8 t.toNat).length = 8 := length_hton 8 _
  have hpart := decode_part (hton 8 t.toNat) part.code.toNat_lt (by omega) c rest
  rw [hlen] at hpart
  rw [numberPart, hpart, interpret, partOf_code]
  rcases h with rfl | rfl <;> simp

theorem readString_zero (s : Bytes) : readString (s ++ [0]) = some s := by
  simp [readString]

theorem reads_cached (h : part ∈ identityParts) (s : Bytes) :
    Reads (cachedPart part s) (fun c => Function.update c part s) (fun _ => []) := by
  intro c rest hlen
  dsimp only at hlen ⊢
  by_cases hc : c part = s
  · rw [cachedPart, if_pos hc, ← hc, Function.update_eq_self]
    simp
  · rw [cachedPart, if_neg hc, length_stringPart] at hlen
    have hlen' : (s ++ [0]).length = s.length + 1 := by simp
    have hpart := decode_part (s ++ [0]) part.code.toNat_lt
      (by rw [payloadSize] at hlen; omega) c rest
    rw [hlen', ← Nat.add_assoc] at hpart
    rw [cachedPart, if_neg hc, stringPart, hpart, interpret, partOf_code]
    cases part <;> simp [readString_zero, identityParts] at h ⊢

theorem readValue_bytes (type : ScalarType) (bits : UInt64) :
    readValue type (valueBytes type bits) = bits := by
  have hbits : bits.toNat % 256 ^ 8 = bits.toNat := Nat.mod_eq_of_lt bits.toNat_lt
  cases type with
  | gauge => rw [readValue, valueBytes, LittleEndian.decode_encode, hbits, UInt64.ofNat_toNat]
  | counter | derive | absolute =>
    rw [readValue, valueBytes, ntoh_hton, hbits, UInt64.ofNat_toNat] <;> simp

theorem find_scalarType (type : ScalarType) : scalarTypes.find? (·.code = type.code) = some type := by
  cases type <;> decide

theorem reads_value (type : ScalarType) (bits : UInt64) :
    Reads (fun _ => valuePart type bits) id (fun c => [.of c type bits]) := by
  intro c rest _
  have hlen : (hton 2 1 ++ [type.code] ++ valueBytes type bits).length = 11 := by simp
  have hpart := decode_part (hton 2 1 ++ [type.code] ++ valueBytes type bits)
    PartType.values.code.toNat_lt (by omega) c rest
  have hsplit : valuePart type bits = hton 2 PartType.values.code.toNat ++ hton 2 (4 + 11) ++
      (hton 2 1 ++ [type.code] ++ valueBytes type bits) := by
    simp [valuePart]
  have hcontent : readContent c (hton 2 1 ++ [type.code] ++ valueBytes type bits) =
      some [.of c type bits] := by
    have hcount : ntoh (hton 2 1) = 1 := ntoh_hton 2 1
    have hall : (valueBytes type bits).take 8 = valueBytes type bits :=
      List.take_of_length_le (by simp)
    have hvalue : (hton 2 1 ++ ([type.code] ++ valueBytes type bits)).drop (2 + 1) =
        valueBytes type bits := by
      rw [← List.append_assoc, List.drop_left' (by simp)]
    rw [readContent, hlen, List.append_assoc, List.take_left' (length_hton 2 1), hcount, hvalue,
      List.drop_left' (length_hton 2 1)]
    simp [readValues, find_scalarType, hall, readValue_bytes]
  rw [hlen] at hpart
  rw [hsplit, hpart, interpret, partOf_code, hcontent]
  rfl

theorem reads_interval (r : Reporter) :
    Reads (fun _ => if r.period ≠ 0 then numberPart .intervalHr r.period else []) id
      (fun _ => []) := by
  by_cases h : r.period ≠ 0
  · simp only [if_pos h]
    exact reads_number (Or.inr rfl) r.period
  · simp only [if_neg h]
    intro c rest _
    simp

theorem Reads.congr (h : Reads enc next recs) (henc : ∀ c, enc' c = enc c)
    (hnext : ∀ c, next' c = next c) (hrecs : ∀ c, recs' c = recs c) : Reads enc' next' recs' := by
  obtain rfl : enc' = enc := funext henc
  obtain rfl : next' = next := funext hnext
  obtain rfl : recs' = recs := funext hrecs
  exact h

/-- A record is read as it was written. -/
theorem reads_record (r : Reporter) (id : MetricId) (type : ScalarType) (bits : UInt64) (tick : Nat) :
    Reads (recordBytes r id type bits tick) (remember r id)
      (fun _ => [.of (identity r id) type bits]) := by
  have h := ((((((reads_cached (by decide : PartType.host ∈ identityParts) r.host).comp
    (reads_number (Or.inl rfl) (r.now tick))).comp
    (reads_cached (by decide : PartType.plugin ∈ identityParts) id.groupName)).comp
    (reads_cached (by decide : PartType.pluginInst ∈ identityParts) (r.pluginInst id))).comp
    (reads_cached (by decide : PartType.type ∈ identityParts) id.inheritType)).comp
    (reads_cached (by decide : PartType.typeInst ∈ identityParts) (Writer.getTypeInstance id))).comp
    ((reads_value type bits).comp (reads_interval r))
  apply Reads.congr h
  · intro c
    simp [recordBytes, identity, cachedPart, Function.update]
    rfl
  · intro c
    funext part
    cases part <;> simp [remember, identityParts, identity, Function.update]
  · intro c
    simp [Record.of, identity, Function.update]

/-! ## Packets -/

/-- A metric that is reported. -/
structure Metric where
  id : MetricId
  type : ScalarType
  bits : UInt64

/-- What a reader has to get of it. -/
def Metric.record (r : Reporter) (m : Metric) : Record := .of (identity r m.id) m.type m.bits

/-- A metric with the reading of the clock that it gets. -/
structure Item extends Metric where
  tick : Nat

/-- The bytes of the items, behind the strings `c`. -/
def packetBytes (r : Reporter) : Cache → List Item → Bytes
  | _, [] => []
  | c, x :: xs =>
    recordBytes r x.id x.type x.bits x.tick c ++ packetBytes r (remember r x.id c) xs

/-- The cache behind them. -/
def lastCache (r : Reporter) (c : Cache) (xs : List Item) : Cache :=
  xs.foldl (fun c x => remember r x.id c) c

theorem packetBytes_append (r : Reporter) (c : Cache) (xs ys : List Item) :
    packetBytes r c (xs ++ ys) = packetBytes r c xs ++ packetBytes r (lastCache r c xs) ys := by
  induction xs generalizing c with
  | nil => rfl
  | cons x xs ih =>
    rw [List.cons_append, packetBytes, packetBytes, ih, List.append_assoc]
    rfl

/-- The reader gets the records of the items. -/
theorem decode_packetBytes (r : Reporter) (c : Cache) (xs : List Item)
    (h : (packetBytes r c xs).length ≤ payloadSize) :
    decode c (packetBytes r c xs) = some (xs.map fun x => x.toMetric.record r) := by
  induction xs generalizing c with
  | nil => rw [packetBytes, decode, if_pos rfl, List.map_nil]
  | cons x xs ih =>
    rw [packetBytes, List.length_append] at h
    rw [packetBytes, reads_record r x.id x.type x.bits x.tick c _ (by omega), ih _ (by omega)]
    rfl

/-! ## The length of a record -/

/-- The bytes that the strings of a reader have taken. -/
def stringBytes (c : Cache) : Nat :=
  (identityParts.map fun part => if c part = [] then 0 else 5 + (c part).length).sum

/-- The length of a record at the beginning of a packet. -/
def freshLength (r : Reporter) (id : MetricId) : Nat :=
  stringBytes (identity r id) + 12 + 15 + if r.period ≠ 0 then 12 else 0

theorem length_cachedPart (part : PartType) (s : Bytes) (c : Cache) :
    (cachedPart part s c).length = if c part = s then 0 else 5 + s.length := by
  rw [cachedPart]
  split
  · rfl
  · exact length_stringPart part s

theorem length_interval (r : Reporter) :
    (if r.period ≠ 0 then numberPart .intervalHr r.period else []).length =
      if r.period ≠ 0 then 12 else 0 := by
  split
  · exact length_numberPart _ _
  · rfl

/-- The strings of a record that are left out are strings that the reader has. -/
theorem stringBytes_identity_le (r : Reporter) (id : MetricId) (type : ScalarType) (bits : UInt64)
    (tick : Nat) (c : Cache) : freshLength r id ≤
      stringBytes c + (recordBytes r id type bits tick c).length := by
  have hpart (part : PartType) : (if identity r id part = [] then 0
      else 5 + (identity r id part).length) ≤ (if c part = [] then 0 else 5 + (c part).length) +
        if c part = identity r id part then 0 else 5 + (identity r id part).length := by
    by_cases h : c part = identity r id part
    · rw [h, if_pos rfl]
      exact Nat.le_refl _
    · rw [if_neg h]
      split <;> omega
  have h₁ := hpart .host
  have h₂ := hpart .plugin
  have h₃ := hpart .pluginInst
  have h₄ := hpart .type
  have h₅ := hpart .typeInst
  simp only [freshLength, stringBytes, identityParts, recordBytes, List.length_append,
    length_cachedPart, length_numberPart, length_valuePart, length_interval, List.map_cons, List.map_nil,
    List.sum_cons, List.sum_nil]
  omega

theorem stringBytes_remember (r : Reporter) (id : MetricId) (c : Cache) :
    stringBytes (remember r id c) = stringBytes (identity r id) := by
  simp [stringBytes, identityParts, remember]

theorem length_recordBytes_fresh (r : Reporter) (id : MetricId) (type : ScalarType) (bits : UInt64)
    (tick : Nat) : (recordBytes r id type bits tick fun _ => []).length = freshLength r id := by
  have hsymm (part : PartType) : ([] = identity r id part) ↔ identity r id part = [] := eq_comm
  simp only [freshLength, stringBytes, identityParts, recordBytes, List.length_append,
    length_cachedPart, length_numberPart, length_valuePart, length_interval, List.map_cons, List.map_nil,
    List.sum_cons, List.sum_nil, hsymm]
  omega

/-- The strings that the reader has at the end of a packet were in it. -/
theorem stringBytes_lastCache (r : Reporter) (c : Cache) (xs : List Item) :
    stringBytes (lastCache r c xs) ≤ stringBytes c + (packetBytes r c xs).length := by
  induction xs generalizing c with
  | nil => exact Nat.le_refl _
  | cons x xs ih =>
    have hfirst := stringBytes_identity_le r x.id x.type x.bits x.tick c
    have hrest := ih (remember r x.id c)
    have hfresh : stringBytes (identity r x.id) ≤ freshLength r x.id := by
      rw [freshLength]
      omega
    rw [stringBytes_remember] at hrest
    rw [packetBytes, List.length_append]
    change stringBytes (lastCache r (remember r x.id c) xs) ≤ _
    omega

/-- A record in a packet is one that fits into a packet of its own. -/
theorem freshLength_le (r : Reporter) (xs : List Item) (x : Item)
    (h : (packetBytes r (fun _ => []) (xs ++ [x])).length ≤ payloadSize) :
    freshLength r x.id ≤ payloadSize := by
  have hlast := stringBytes_lastCache r (fun _ => []) xs
  have hx := stringBytes_identity_le r x.id x.type x.bits x.tick (lastCache r (fun _ => []) xs)
  have hzero : stringBytes (fun _ => []) = 0 := rfl
  rw [packetBytes_append, List.length_append, packetBytes, packetBytes, List.append_nil] at h
  omega

end Seastar.Scollectd
