import Mathlib.Data.List.Sort
import Seastar.IO.InputStream
import Seastar.Rpc.Wire

/-!
The negotiation frame of `rpc/rpc.cc`: the magic, the length of the rest, and a record
for each feature. `send_negotiation_frame` writes it into one buffer,
`receive_negotiation_frame` reads it from the input stream and walks the records.
-/

namespace Seastar.Rpc

open Lib

/-- What is written in the log before a connection is given up with `closed_error`. -/
structure ClosedError where
  log : Option String
  deriving DecidableEq

/-- `feature_map`: the data of each feature, in the order of `protocol_features`. -/
structure FeatureMap where
  entries : List (UInt32 × Bytes)
  sorted : entries.Pairwise fun a b => a.1 < b.1
  deriving DecidableEq

namespace FeatureMap

def empty : FeatureMap := ⟨[], .nil⟩

/-- Insert an entry, unless there is one with its key. -/
def insertNew (k : UInt32) (v : Bytes) : List (UInt32 × Bytes) → List (UInt32 × Bytes)
  | [] => [(k, v)]
  | e :: l => if k < e.1 then (k, v) :: e :: l else if k = e.1 then e :: l else e :: insertNew k v l

theorem mem_insertNew {k : UInt32} {v : Bytes} {l : List (UInt32 × Bytes)} {d : UInt32 × Bytes}
    (h : d ∈ insertNew k v l) : d = (k, v) ∨ d ∈ l := by
  induction l with
  | nil => exact Or.inl (List.mem_singleton.mp h)
  | cons e l ih =>
    rw [insertNew] at h
    split at h
    · exact List.mem_cons.mp h
    split at h
    · exact Or.inr h
    · rcases List.mem_cons.mp h with h | h
      · exact Or.inr (h ▸ List.mem_cons_self)
      · exact (ih h).imp id (List.mem_cons_of_mem e)

theorem sorted_insertNew {k : UInt32} {v : Bytes} {l : List (UInt32 × Bytes)}
    (hl : l.Pairwise fun a b => a.1 < b.1) :
    (insertNew k v l).Pairwise fun a b => a.1 < b.1 := by
  induction l with
  | nil => exact List.pairwise_singleton _ _
  | cons e l ih =>
    obtain ⟨he, hl'⟩ := List.pairwise_cons.mp hl
    rw [insertNew]
    split
    · rename_i hk
      refine List.pairwise_cons.mpr ⟨fun d hd => ?_, hl⟩
      rcases List.mem_cons.mp hd with rfl | hd
      · exact hk
      · exact UInt32.lt_trans hk (he d hd)
    split
    · exact hl
    · rename_i hlt hne
      refine List.pairwise_cons.mpr ⟨fun d hd => ?_, ih hl'⟩
      rcases mem_insertNew hd with rfl | hd
      · have hge : e.1 ≤ k := UInt32.not_lt.mp hlt
        exact UInt32.lt_of_le_of_ne hge (Ne.symm hne)
      · exact he d hd

/-- `emplace`. -/
def emplace (m : FeatureMap) (k : UInt32) (v : Bytes) : FeatureMap :=
  ⟨insertNew k v m.entries, sorted_insertNew m.sorted⟩

end FeatureMap

/-! ## The sender -/

/-- `rpc_magic`. -/
def rpcMagic : Bytes := [83, 83, 84, 65, 82, 82, 80, 67]

/-- `sizeof(negotiation_frame)`. -/
def negotiationFrameSize : Nat := 12

/-- The size of a feature record in the frame. -/
def recordSize (e : UInt32 × Bytes) : Nat := 8 + e.2.length

/-- `extra_len`: the record sizes summed up in a `uint32_t`. -/
def extraLen (m : FeatureMap) : UInt32 :=
  m.entries.foldl (fun n e => UInt32.ofNat (n.toNat + recordSize e)) 0

/-- The record of one feature is written at `p`; the pointer behind it. -/
def writeRecord (reply : Bytes) (p : Nat) (e : UInt32 × Bytes) : Except Fault (Bytes × Nat) := do
  let reply ← writeBytes reply p (le32 e.1)
  let reply ← writeBytes reply (p + 4) (le32 (UInt32.ofNat e.2.length))
  let reply ← writeBytes reply (p + 8) e.2
  .ok (reply, p + 8 + e.2.length)

/-- The loop over the features. -/
def writeRecords : Bytes → Nat → List (UInt32 × Bytes) → Except Fault Bytes
  | reply, _, [] => .ok reply
  | reply, p, e :: es => do
    let (reply, p) ← writeRecord reply p e
    writeRecords reply p es

/-- `send_negotiation_frame`: the buffer that is written to the connection. -/
def sendNegotiationFrame (features : FeatureMap) : Except Fault Bytes := do
  let extraLen := extraLen features
  let reply := List.replicate (negotiationFrameSize + extraLen.toNat) 0
  let reply ← writeBytes reply 0 rpcMagic
  let reply ← writeBytes reply 8 (le32 extraLen)
  writeRecords reply 12 features.entries

/-! ## The receiver -/

/-- The walk over the records, with the pointer `p` into `extra`. -/
def readFeatures (extra : Bytes) (p : Nat) (map : FeatureMap) :
    Except Fault (Except ClosedError FeatureMap) :=
  if p = extra.length then .ok (.ok map)
  else if _h : extra.length < p + 8 then
    .ok (.error ⟨some "bad feature data format in negotiation frame"⟩)
  else do
    let feature ← readLe32 extra p
    let fLen ← readLe32 extra (p + 4)
    if extra.length < p + 8 + fLen.toNat then
      .ok (.error ⟨some "buffer underflow in feature data in negotiation frame"⟩)
    else do
      let data ← readBytes extra (p + 8) fLen.toNat
      readFeatures extra (p + 8 + fLen.toNat) (map.emplace feature data)
termination_by extra.length - p

/-- `verify_frame`. -/
def verifyFrame (buf : Bytes) (expected : Nat) (log : String) : Except ClosedError Unit :=
  if buf.length ≠ expected then .error ⟨if buf.length ≠ 0 then some log else none⟩ else .ok ()

/-- `receive_negotiation_frame`: the map or the error, and the stream behind it. -/
def receiveNegotiationFrame (s : InputStream UInt8) :
    Except Fault (Except ClosedError FeatureMap × InputStream UInt8) :=
  let (neg, s) := s.readExactly negotiationFrameSize
  match verifyFrame neg negotiationFrameSize "unexpected eof during negotiation frame" with
  | .error e => .ok (.error e, s)
  | .ok () => do
    let magic ← readBytes neg 0 8
    let len ← readLe32 neg 8
    if magic ≠ rpcMagic then .ok (.error ⟨some "wrong protocol magic"⟩, s)
    else
      let (extra, s) := s.readExactly len.toNat
      if extra.length ≠ len.toNat then
        .ok (.error ⟨some "unexpected eof during negotiation frame"⟩, s)
      else do
        let map ← readFeatures extra 0 .empty
        .ok (map, s)

/-! ## Records as byte strings -/

/-- The bytes of a record. -/
def record (e : UInt32 × Bytes) : Bytes := le32 e.1 ++ le32 (UInt32.ofNat e.2.length) ++ e.2

/-- The bytes of the records, one behind the other. -/
def records (es : List (UInt32 × Bytes)) : Bytes := (es.map record).flatten

/-- The bytes of a frame with the records. -/
def frame (es : List (UInt32 × Bytes)) : Bytes :=
  rpcMagic ++ le32 (UInt32.ofNat (records es).length) ++ records es

/-- The length of the records fits 32 bits. -/
def Fits (es : List (UInt32 × Bytes)) : Prop := (records es).length < 2 ^ 32

instance (es : List (UInt32 × Bytes)) : Decidable (Fits es) := inferInstanceAs (Decidable (_ < _))

/-- The map after the records have been put into it. -/
def emplaceAll (m : FeatureMap) (es : List (UInt32 × Bytes)) : FeatureMap :=
  es.foldl (fun m e => m.emplace e.1 e.2) m

@[simp] theorem length_record (e : UInt32 × Bytes) : (record e).length = recordSize e := by
  simp only [record, recordSize, List.length_append, length_le32]

@[simp] theorem records_nil : records [] = [] := rfl

@[simp] theorem records_cons (e : UInt32 × Bytes) (es : List (UInt32 × Bytes)) :
    records (e :: es) = record e ++ records es := rfl

theorem Fits.tail {e : UInt32 × Bytes} {es : List (UInt32 × Bytes)} (h : Fits (e :: es)) :
    Fits es ∧ e.2.length < 2 ^ 32 := by
  simp only [Fits, records_cons, List.length_append, length_record, recordSize] at h ⊢
  omega

theorem length_frame (es : List (UInt32 × Bytes)) :
    (frame es).length = negotiationFrameSize + (records es).length := by
  simp only [frame, List.length_append, length_le32]
  rfl

/-! ## What the sender writes -/

theorem extraLen_fold (es : List (UInt32 × Bytes)) (n : UInt32) :
    es.foldl (fun n e => UInt32.ofNat (n.toNat + recordSize e)) n =
      UInt32.ofNat (n.toNat + (records es).length) := by
  induction es generalizing n with
  | nil => simp
  | cons e es ih =>
    rw [List.foldl_cons, ih]
    apply UInt32.toNat_inj.mp
    simp only [UInt32.toNat_ofNat', records_cons, List.length_append, length_record]
    rw [Nat.mod_add_mod, Nat.add_assoc]

theorem extraLen_eq (m : FeatureMap) : extraLen m = UInt32.ofNat (records m.entries).length := by
  rw [extraLen, extraLen_fold, UInt32.toNat_zero, Nat.zero_add]

theorem writeRecord_eq (pre rest : Bytes) {e : UInt32 × Bytes}
    (h : recordSize e ≤ rest.length) : writeRecord (pre ++ rest) pre.length e =
      .ok (pre ++ record e ++ rest.drop (recordSize e), (pre ++ record e).length) := by
  have hsize : 8 + e.2.length ≤ rest.length := h
  have hkey := writeBytes_append pre rest (le32 e.1)
    (by rw [length_le32]; omega)
  have hlen := writeBytes_append (pre ++ le32 e.1) (rest.drop 4)
    (le32 (UInt32.ofNat e.2.length))
    (by rw [length_le32, List.length_drop]; omega)
  have hdata := writeBytes_append (pre ++ le32 e.1 ++ le32 (UInt32.ofNat e.2.length))
    (rest.drop 8) e.2 (by rw [List.length_drop]; omega)
  simp only [List.length_append, length_le32, List.drop_drop, Nat.add_assoc, Nat.reduceAdd]
    at hkey hlen hdata
  unfold writeRecord
  rw [hkey, ok_bind, hlen, ok_bind, hdata, ok_bind]
  simp only [record, recordSize, List.length_append, length_le32, List.append_assoc, Nat.add_assoc]
  rw [← Nat.add_assoc 4 4]

theorem writeRecords_eq (pre rest : Bytes) {es : List (UInt32 × Bytes)}
    (h : (records es).length ≤ rest.length) : writeRecords (pre ++ rest) pre.length es =
      .ok (pre ++ records es ++ rest.drop (records es).length) := by
  induction es generalizing pre rest with
  | nil => simp [writeRecords]
  | cons e es ih =>
    rw [records_cons, List.length_append, length_record] at h
    have hrest := ih (pre ++ record e) (rest.drop (recordSize e))
      (by rw [List.length_drop]; omega)
    rw [writeRecords, writeRecord_eq pre rest (by omega), ok_bind]
    simp only
    rw [hrest, List.drop_drop, records_cons, List.length_append, length_record]
    simp only [List.append_assoc]

/-- Writing at the end of what was written. -/
theorem writeBytes_fresh (pre bs : Bytes) (n : Nat) :
    writeBytes (pre ++ List.replicate (bs.length + n) 0) pre.length bs =
      .ok (pre ++ bs ++ List.replicate n 0) := by
  rw [writeBytes_append pre _ bs (by rw [List.length_replicate]; omega), List.drop_replicate,
    Nat.add_sub_cancel_left]

/-- The frame of a map whose records fit. -/
theorem sendNegotiationFrame_eq {m : FeatureMap} (h : Fits m.entries) :
    sendNegotiationFrame m = .ok (frame m.entries) := by
  obtain ⟨n, hn⟩ : ∃ n, (records m.entries).length = n := ⟨_, rfl⟩
  have hlen : (UInt32.ofNat n).toNat = n := by
    rw [UInt32.toNat_ofNat', ← hn]
    exact Nat.mod_eq_of_lt h
  have hsize : negotiationFrameSize + n = rpcMagic.length + ((le32 (UInt32.ofNat n)).length + n) := by
    rw [length_le32, ← Nat.add_assoc]
    rfl
  have hmagic := writeBytes_fresh [] rpcMagic ((le32 (UInt32.ofNat n)).length + n)
  have hcount := writeBytes_fresh rpcMagic (le32 (UInt32.ofNat n)) n
  have hrecords := writeRecords_eq (rpcMagic ++ le32 (UInt32.ofNat n))
    (List.replicate n 0) (by rw [List.length_replicate, hn])
  rw [List.drop_eq_nil_of_le (by rw [List.length_replicate, hn]), List.append_nil] at hrecords
  simp only [sendNegotiationFrame, extraLen_eq, hn, hlen, hsize]
  rw [List.nil_append] at hmagic
  refine bind_ok.mpr ⟨_, hmagic, bind_ok.mpr ⟨_, hcount, ?_⟩⟩
  rw [frame, hn]
  exact hrecords

/-! ## What the receiver reads -/

/-- The walk over well-formed records puts them into the map. -/
theorem readFeatures_records (pre : Bytes) {es : List (UInt32 × Bytes)} (h : Fits es)
    (m : FeatureMap) :
    readFeatures (pre ++ records es) pre.length m = .ok (.ok (emplaceAll m es)) := by
  induction es generalizing pre m with
  | nil =>
    rw [readFeatures, if_pos (by simp)]
    rfl
  | cons e es ih =>
    obtain ⟨hrest, hdata⟩ := h.tail
    have hlen : (UInt32.ofNat e.2.length).toNat = e.2.length := by
      rw [UInt32.toNat_ofNat']
      exact Nat.mod_eq_of_lt hdata
    have hkey := readLe32_append pre e.1
      (le32 (UInt32.ofNat e.2.length) ++ e.2 ++ records es)
    have hsize := readLe32_append (pre ++ le32 e.1) (UInt32.ofNat e.2.length)
      (e.2 ++ records es)
    have hbytes := readBytes_append (pre ++ le32 e.1 ++ le32 (UInt32.ofNat e.2.length)) e.2
      (records es)
    have hnext := ih (pre ++ record e) hrest (m.emplace e.1 e.2)
    have htotal : (pre ++ records (e :: es)).length =
        pre.length + 8 + e.2.length + (records es).length := by
      simp only [records_cons, List.length_append, length_record, recordSize]
      omega
    have hsplit : pre ++ records (e :: es) =
        pre ++ le32 e.1 ++ le32 (UInt32.ofNat e.2.length) ++ e.2 ++ records es := by
      simp only [records_cons, record, List.append_assoc]
    simp only [List.length_append, length_le32, length_record, recordSize, Nat.add_assoc,
      Nat.reduceAdd, ← List.append_assoc] at hkey hsize hbytes hnext
    have hend : ¬ (pre ++ records (e :: es)).length < pre.length + 8 + e.2.length := by omega
    rw [readFeatures, if_neg (by omega), dif_neg (by omega)]
    rw [hsplit] at hend ⊢
    rw [hkey, ok_bind, hsize, ok_bind, hlen, if_neg hend, hbytes, ok_bind, Nat.add_assoc]
    have hrecord : pre ++ record e ++ records es =
        pre ++ le32 e.1 ++ le32 (UInt32.ofNat e.2.length) ++ e.2 ++ records es := by
      simp only [record, List.append_assoc]
    rw [hrecord] at hnext
    exact hnext

/-- Eight bytes and the data behind them are a record. -/
theorem record_of_reads {extra data : Bytes} {p : Nat} {feature fLen : UInt32}
    (hkey : readLe32 extra p = .ok feature) (hsize : readLe32 extra (p + 4) = .ok fLen)
    (hdata : readBytes extra (p + 8) fLen.toNat = .ok data) :
    extra.drop p = record (feature, data) ++ extra.drop (p + 8 + fLen.toNat) ∧
      data.length = fLen.toNat := by
  have hread : ∀ {pos : Nat} {v : UInt32}, readLe32 extra pos = .ok v →
      extra.drop pos = le32 v ++ extra.drop (pos + 4) := by
    intro pos v h
    obtain ⟨bs, hbs, h⟩ := bind_ok.mp h
    unfold readBytes at hbs
    split at hbs
    · rename_i hle
      obtain rfl := Except.ok.inj hbs
      obtain rfl := Except.ok.inj h
      rw [le32_decode (by rw [List.length_take, List.length_drop]; omega), ← List.drop_drop,
        List.take_append_drop]
    · cases hbs
  unfold readBytes at hdata
  split at hdata
  · rename_i hle
    obtain rfl := Except.ok.inj hdata
    have hlen : ((extra.drop (p + 8)).take fLen.toNat).length = fLen.toNat := by
      rw [List.length_take, List.length_drop]
      omega
    refine ⟨?_, hlen⟩
    have hrest : extra.drop (p + 8) = (extra.drop (p + 8)).take fLen.toNat ++
        extra.drop (p + 8 + fLen.toNat) := by
      have h := List.take_append_drop fLen.toNat (extra.drop (p + 8))
      rw [List.drop_drop] at h
      exact h.symm
    have hfour : extra.drop (p + 4 + 4) = extra.drop (p + 8) := rfl
    simp only [record, hlen, UInt32.ofNat_toNat, List.append_assoc]
    rw [← hrest, hread hkey, hread hsize, hfour]
  · cases hdata

/-- The walk stays inside of the buffer. It ends with an error, or the rest of the buffer was a
sequence of records. -/
theorem readFeatures_spec {extra : Bytes} {p : Nat} (hp : p ≤ extra.length) (m : FeatureMap) :
    (∃ err, readFeatures extra p m = .ok (.error err)) ∨
      ∃ es, extra.drop p = records es ∧ readFeatures extra p m = .ok (.ok (emplaceAll m es)) := by
  induction hk : extra.length - p using Nat.strongRecOn generalizing p m with
  | ind k ih =>
    subst hk
    rw [readFeatures]
    split
    · rename_i hend
      rw [hend, List.drop_length]
      exact Or.inr ⟨[], rfl, rfl⟩
    split
    · exact Or.inl ⟨_, rfl⟩
    rename_i hroom
    obtain ⟨feature, hkey⟩ := readLe32_ok extra p (by omega)
    obtain ⟨fLen, hsize⟩ := readLe32_ok extra (p + 4) (by omega)
    rw [hkey, ok_bind, hsize, ok_bind]
    split
    · exact Or.inl ⟨_, rfl⟩
    rename_i hfits
    have hdata : readBytes extra (p + 8) fLen.toNat =
        .ok ((extra.drop (p + 8)).take fLen.toNat) := if_pos (Nat.not_lt.mp hfits)
    obtain ⟨hrecord, -⟩ := record_of_reads hkey hsize hdata
    rw [hdata, ok_bind]
    rcases ih _ (by omega) (p := p + 8 + fLen.toNat) (by omega)
      (m.emplace feature ((extra.drop (p + 8)).take fLen.toNat)) rfl with herr | ⟨es, hes, hok⟩
    · exact Or.inl herr
    · refine Or.inr ⟨(feature, (extra.drop (p + 8)).take fLen.toNat) :: es, ?_, hok⟩
      rw [hrecord, hes, records_cons]

/-! ## The map of the records -/

theorem mem_insertNew_iff {k : UInt32} {v : Bytes} {l : List (UInt32 × Bytes)}
    (hl : l.Pairwise fun a b => a.1 < b.1) {d : UInt32 × Bytes} :
    d ∈ FeatureMap.insertNew k v l ↔ d ∈ l ∨ (d = (k, v) ∧ ∀ e ∈ l, e.1 ≠ k) := by
  induction l with
  | nil => simp [FeatureMap.insertNew]
  | cons e l ih =>
    obtain ⟨he, hl'⟩ := List.pairwise_cons.mp hl
    rw [FeatureMap.insertNew]
    split
    · rename_i hlt
      have hnone : ∀ f ∈ e :: l, f.1 ≠ k := by
        intro f hf
        rcases List.mem_cons.mp hf with rfl | hf
        · exact (UInt32.ne_of_lt hlt).symm
        · exact (UInt32.ne_of_lt (UInt32.lt_trans hlt (he f hf))).symm
      rw [List.mem_cons, or_comm]
      exact or_congr_right ⟨fun h => ⟨h, hnone⟩, fun h => h.1⟩
    split
    · rename_i _ heq
      refine ⟨Or.inl, fun h => h.resolve_right ?_⟩
      exact fun h => h.2 e List.mem_cons_self heq.symm
    · rename_i hlt hne
      rw [List.mem_cons, List.mem_cons, ih hl', or_assoc]
      refine or_congr_right (or_congr_right (and_congr_right fun _ => ?_))
      rw [List.forall_mem_cons]
      exact ⟨fun h => ⟨Ne.symm hne, h⟩, fun h => h.2⟩

/-- The map holds what it held, and of each other feature the first record. -/
theorem mem_emplaceAll {m : FeatureMap} {es : List (UInt32 × Bytes)} {d : UInt32 × Bytes} :
    d ∈ (emplaceAll m es).entries ↔ d ∈ m.entries ∨
      ((∀ e ∈ m.entries, e.1 ≠ d.1) ∧ es.lookup d.1 = some d.2) := by
  induction es generalizing m with
  | nil => simp [emplaceAll]
  | cons e es ih =>
    obtain ⟨k, v⟩ := e
    have hm := @mem_insertNew_iff k v m.entries m.sorted
    have hall : emplaceAll m ((k, v) :: es) = emplaceAll (m.emplace k v) es := rfl
    rw [hall, ih]
    have hemplace : (m.emplace k v).entries = FeatureMap.insertNew k v m.entries := rfl
    rw [hemplace, hm, List.lookup_cons]
    by_cases hk : d.1 = k
    · have hsome : ¬ ∀ e ∈ FeatureMap.insertNew k v m.entries, e.1 ≠ d.1 := by
        intro hnone
        by_cases hold : ∀ e ∈ m.entries, e.1 ≠ k
        · exact hnone (k, v) (hm.mpr (Or.inr ⟨rfl, hold⟩)) hk.symm
        · obtain ⟨e, he, hek⟩ : ∃ e ∈ m.entries, e.1 = k := by simpa using hold
          exact hnone e (hm.mpr (Or.inl he)) (hek.trans hk.symm)
      have hd : d = (k, v) ↔ some v = some d.2 := by
        rw [Option.some_inj, Prod.ext_iff]
        exact ⟨fun h => h.2.symm, fun h => ⟨hk, h.symm⟩⟩
      rw [beq_iff_eq.mpr hk, or_iff_left fun h => hsome h.1, hd, and_comm, hk]
    · have hother : (∀ e ∈ FeatureMap.insertNew k v m.entries, e.1 ≠ d.1) ↔
          ∀ e ∈ m.entries, e.1 ≠ d.1 := by
        constructor
        · exact fun h e he => h e (hm.mpr (Or.inl he))
        · intro h e he
          rcases hm.mp he with he | ⟨rfl, -⟩
          · exact h e he
          · exact Ne.symm hk
      have hd : d ≠ (k, v) := fun h => hk (congrArg Prod.fst h)
      rw [beq_eq_false_iff_ne.mpr hk, hother]
      simp only [hd, false_and, or_false]

/-- Entries behind those of the map, in the order of their keys, are appended to it. -/
theorem insertNew_last {k : UInt32} {v : Bytes} {l : List (UInt32 × Bytes)}
    (h : ∀ e ∈ l, e.1 < k) : FeatureMap.insertNew k v l = l ++ [(k, v)] := by
  induction l with
  | nil => rfl
  | cons e l ih =>
    have he := h e List.mem_cons_self
    rw [FeatureMap.insertNew, if_neg (UInt32.lt_asymm he), if_neg (UInt32.ne_of_lt he).symm,
      ih fun d hd => h d (List.mem_cons_of_mem e hd)]
    rfl

theorem emplaceAll_sorted {m : FeatureMap} {es : List (UInt32 × Bytes)}
    (h : (m.entries ++ es).Pairwise fun a b => a.1 < b.1) :
    (emplaceAll m es).entries = m.entries ++ es := by
  induction es generalizing m with
  | nil => simp [emplaceAll]
  | cons e es ih =>
    have hlast : ∀ d ∈ m.entries, d.1 < e.1 := fun d hd =>
      (List.pairwise_append.mp h).2.2 d hd e List.mem_cons_self
    have hentries : (m.emplace e.1 e.2).entries = m.entries ++ [e] := insertNew_last hlast
    have happ : (m.emplace e.1 e.2).entries ++ es = m.entries ++ e :: es := by
      rw [hentries, List.append_assoc]
      rfl
    have hall : emplaceAll m (e :: es) = emplaceAll (m.emplace e.1 e.2) es := rfl
    rw [hall, ih (by rw [happ]; exact h), happ]

theorem FeatureMap.ext {m n : FeatureMap} (h : m.entries = n.entries) : m = n := by
  cases m
  cases n
  obtain rfl : _ = _ := h
  rfl

/-- The records of a map give the map back. -/
theorem emplaceAll_entries (m : FeatureMap) : emplaceAll .empty m.entries = m :=
  FeatureMap.ext (emplaceAll_sorted m.sorted)

/-- A byte string has one division into records. -/
theorem records_inj {es fs : List (UInt32 × Bytes)} (he : Fits es) (hf : Fits fs)
    (h : records es = records fs) : es = fs := by
  induction es generalizing fs with
  | nil =>
    cases fs with
    | nil => rfl
    | cons f fs =>
      have hlen := congrArg List.length h
      simp only [records_nil, records_cons, List.length_append, length_record, recordSize,
        List.length_nil] at hlen
      omega
  | cons e es ih =>
    cases fs with
    | nil =>
      have hlen := congrArg List.length h
      simp only [records_nil, records_cons, List.length_append, length_record, recordSize,
        List.length_nil] at hlen
      omega
    | cons f fs =>
      obtain ⟨hes, hel⟩ := he.tail
      obtain ⟨hfs, hfl⟩ := hf.tail
      simp only [records_cons, record, List.append_assoc] at h
      obtain ⟨hkey, h⟩ := List.append_inj h (by rw [length_le32, length_le32])
      obtain ⟨hsize, h⟩ := List.append_inj h (by rw [length_le32, length_le32])
      have hk : e.1 = f.1 := by
        rw [← decode_le32 e.1, hkey, decode_le32]
      have hlen : e.2.length = f.2.length := by
        have hn : UInt32.ofNat e.2.length = UInt32.ofNat f.2.length := by
          rw [← decode_le32 (UInt32.ofNat e.2.length), hsize, decode_le32]
        have hn := congrArg UInt32.toNat hn
        rw [UInt32.toNat_ofNat', UInt32.toNat_ofNat', Nat.mod_eq_of_lt hel,
          Nat.mod_eq_of_lt hfl] at hn
        exact hn
      obtain ⟨hdata, h⟩ := List.append_inj h hlen
      rw [Prod.ext hk hdata, ih hes hfs h]

/-! ## Frames -/

/-- A frame is received whatever buffers it comes in, and nothing behind it is taken. -/
theorem receiveNegotiationFrame_frame {fd : DataSource UInt8} {es : List (UInt32 × Bytes)}
    {rest : Bytes} (h : Fits es) (hfd : fd.bytes = frame es ++ rest) :
    ∃ s, receiveNegotiationFrame { fd := fd } = .ok (.ok (emplaceAll .empty es), s) ∧
      s.remaining = rest := by
  have hlen : (UInt32.ofNat (records es).length).toNat = (records es).length := by
    rw [UInt32.toNat_ofNat']
    exact Nat.mod_eq_of_lt h
  obtain ⟨hneg, heof⟩ := InputStream.readExactly_eq (s := { fd := fd }) negotiationFrameSize nofun
  have hrem : InputStream.remaining { fd := fd } = (rpcMagic ++
      le32 (UInt32.ofNat (records es).length)) ++ (records es ++ rest) := by
    show [] ++ fd.bytes = _
    rw [hfd, frame]
    simp only [List.nil_append, List.append_assoc]
  have hhead : (rpcMagic ++ le32 (UInt32.ofNat (records es).length)).length =
      negotiationFrameSize := by
    rw [List.length_append, length_le32]
    rfl
  rw [hrem, ← hhead, InputStream.exactly_append, hhead] at hneg
  unfold receiveNegotiationFrame
  generalize InputStream.readExactly negotiationFrameSize { fd := fd } = x at hneg heof
  obtain ⟨neg, s⟩ := x
  obtain ⟨rfl, hs⟩ := Prod.mk.inj hneg
  obtain ⟨hextra, heof'⟩ := InputStream.readExactly_eq (s := s) (records es).length heof
  rw [hs, InputStream.exactly_append] at hextra
  have hmagic := readBytes_append [] rpcMagic (le32 (UInt32.ofNat (records es).length))
  have hsize := readLe32_append rpcMagic (UInt32.ofNat (records es).length) []
  rw [List.append_nil] at hsize
  rw [List.nil_append] at hmagic
  simp only [verifyFrame, hhead, ne_eq, not_true_eq_false, if_false]
  refine ⟨(s.readExactly (records es).length).2, bind_ok.mpr ⟨_, hmagic, bind_ok.mpr
    ⟨_, hsize, ?_⟩⟩, congrArg Prod.snd hextra⟩
  rw [if_neg (fun h => h rfl), hlen]
  generalize s.readExactly (records es).length = y at hextra heof'
  obtain ⟨extra, t⟩ := y
  obtain ⟨rfl, -⟩ := Prod.mk.inj hextra
  simp only [not_true_eq_false, if_false]
  exact bind_ok.mpr ⟨_, readFeatures_records [] h .empty, rfl⟩

/-- Whatever the connection delivers, receiving a frame ends, inside of the buffers it has read:
with an error, or with the map of the records of a frame. -/
theorem receiveNegotiationFrame_ends (fd : DataSource UInt8) :
    ∃ r s, receiveNegotiationFrame { fd := fd } = .ok (r, s) ∧ ((∃ err, r = .error err) ∨
      ∃ es, Fits es ∧ r = .ok (emplaceAll .empty es) ∧ fd.bytes = frame es ++ s.remaining) := by
  obtain ⟨hneg, heof⟩ := InputStream.readExactly_eq (s := { fd := fd }) negotiationFrameSize nofun
  have hrem : InputStream.remaining { fd := fd } = fd.bytes := rfl
  rw [hrem] at hneg
  unfold receiveNegotiationFrame
  generalize InputStream.readExactly negotiationFrameSize { fd := fd } = x at hneg heof
  obtain ⟨neg, s⟩ := x
  simp only at hneg heof ⊢
  by_cases hlen : neg.length = negotiationFrameSize
  swap
  · simp only [verifyFrame, ne_eq, hlen, not_false_eq_true, if_true]
    exact ⟨_, s, rfl, Or.inl ⟨_, rfl⟩⟩
  simp only [verifyFrame, ne_eq, hlen, not_true_eq_false, if_false]
  have hbytes : fd.bytes = neg ++ s.remaining :=
    InputStream.append_of_exactly hneg hlen
  have hlen : neg.length = 12 := hlen
  have hmagic : readBytes neg 0 8 = .ok (neg.take 8) := if_pos (by omega)
  have hsize : readLe32 neg 8 = .ok (UInt32.ofNat (LittleEndian.decode (neg.drop 8))) := by
    have hread : readBytes neg 8 4 = .ok (neg.drop 8) := by
      rw [readBytes, if_pos (by omega), List.take_of_length_le (by rw [List.length_drop]; omega)]
    exact bind_ok.mpr ⟨_, hread, rfl⟩
  rw [hmagic, ok_bind, hsize, ok_bind]
  by_cases hm : neg.take 8 = rpcMagic
  swap
  · rw [if_pos hm]
    exact ⟨_, s, rfl, Or.inl ⟨_, rfl⟩⟩
  rw [if_neg (not_not.mpr hm)]
  have hneg8 : neg = rpcMagic ++ le32 (UInt32.ofNat (LittleEndian.decode (neg.drop 8))) := by
    rw [le32_decode (by rw [List.length_drop]; omega), ← hm, List.take_append_drop]
  obtain ⟨len, hl⟩ : ∃ len, UInt32.ofNat (LittleEndian.decode (neg.drop 8)) = len := ⟨_, rfl⟩
  rw [hl] at hneg8 ⊢
  obtain ⟨hextra, -⟩ := InputStream.readExactly_eq (s := s) len.toNat heof
  generalize s.readExactly len.toNat = y at hextra
  obtain ⟨extra, t⟩ := y
  simp only at hextra ⊢
  by_cases hn : extra.length = len.toNat
  swap
  · rw [if_pos hn]
    exact ⟨_, t, rfl, Or.inl ⟨_, rfl⟩⟩
  rw [if_neg (not_not.mpr hn)]
  rcases readFeatures_spec (Nat.zero_le extra.length) .empty with ⟨err, herr⟩ | ⟨es, hes, hok⟩
  · exact ⟨.error err, t, bind_ok.mpr ⟨_, herr, rfl⟩, Or.inl ⟨err, rfl⟩⟩
  · rw [List.drop_zero] at hes
    have hfits : Fits es := by
      rw [Fits, ← hes, hn]
      exact len.toNat_lt
    refine ⟨.ok (emplaceAll .empty es), t, bind_ok.mpr ⟨_, hok, rfl⟩, Or.inr ⟨es, hfits, rfl, ?_⟩⟩
    rw [hbytes, InputStream.append_of_exactly hextra hn, hneg8, frame, ← hes, hn, UInt32.ofNat_toNat]
    simp only [List.append_assoc]

/-- The map of a frame is received as it was sent, in any buffers. And whatever is delivered, the
receiver reports an error exactly when there is no frame, or the first record of each feature
in the frame. -/
theorem negotiationFrame_received :
    (∀ m : FeatureMap, Fits m.entries → ∃ bs, sendNegotiationFrame m = .ok bs ∧
      ∀ (fd : DataSource UInt8) (rest : Bytes), fd.bytes = bs ++ rest →
        ∃ s, receiveNegotiationFrame { fd := fd } = .ok (.ok m, s) ∧ s.remaining = rest) ∧
    ∀ fd : DataSource UInt8, ∃ r s, receiveNegotiationFrame { fd := fd } = .ok (r, s) ∧
      ((∃ err, r = .error err ∧ ∀ es rest, Fits es → fd.bytes ≠ frame es ++ rest) ∨
        ∃ m es, r = .ok m ∧ Fits es ∧ fd.bytes = frame es ++ s.remaining ∧
          ∀ e, e ∈ m.entries ↔ es.lookup e.1 = some e.2) := by
  refine ⟨fun m hm => ⟨_, sendNegotiationFrame_eq hm, fun fd rest hfd => ?_⟩, fun fd => ?_⟩
  · have h := receiveNegotiationFrame_frame hm hfd
    rwa [emplaceAll_entries] at h
  · obtain ⟨r, s, hr, h⟩ := receiveNegotiationFrame_ends fd
    refine ⟨r, s, hr, ?_⟩
    rcases h with ⟨err, rfl⟩ | ⟨es, hes, rfl, hfd⟩
    · refine Or.inl ⟨err, rfl, fun es rest hes hfd => ?_⟩
      obtain ⟨t, ht, -⟩ := receiveNegotiationFrame_frame hes hfd
      cases Except.ok.inj (hr.symm.trans ht)
    · refine Or.inr ⟨_, es, rfl, hes, hfd, fun e => ?_⟩
      rw [mem_emplaceAll]
      simp [FeatureMap.empty]

/-- A map with one feature, whose frame comes in two buffers. -/
theorem negotiationFrame_compress :
    ∃ s, receiveNegotiationFrame { fd := ⟨[rpcMagic ++ [9], [0, 0, 0, 0, 0, 0, 0, 1, 0, 0, 0, 97]],
      by decide⟩ } = .ok (.ok ⟨[(0, [97])], List.pairwise_singleton _ _⟩, s) ∧ s.remaining = [] := by
  obtain ⟨bs, hbs, hrecv⟩ := negotiationFrame_received.1 ⟨[(0, [97])], List.pairwise_singleton _ _⟩
    (by decide)
  refine hrecv _ [] ?_
  rw [sendNegotiationFrame_eq (by decide)] at hbs
  obtain rfl := Except.ok.inj hbs
  rfl

/-- Two records of one feature: the map that is received has the first of them only. -/
theorem negotiationFrame_twice : ∃ (fd : DataSource UInt8) (m : FeatureMap) (s : InputStream UInt8),
    receiveNegotiationFrame { fd := fd } = .ok (.ok m, s) ∧ m.entries = [(0, [97])] ∧
      fd.bytes = frame [(0, [97]), (0, [98])] ∧
      ¬ ∃ es, Fits es ∧ fd.bytes = frame es ∧ ∀ e, e ∈ m.entries ↔ e ∈ es := by
  have hfits : Fits [(0, [97]), (0, [98])] := by decide
  have hmap : (emplaceAll .empty [(0, [97]), (0, [98])]).entries = [(0, [97])] := by decide
  let fd : DataSource UInt8 := ⟨[frame [(0, [97]), (0, [98])]], by decide⟩
  have hfd : fd.bytes = frame [(0, [97]), (0, [98])] ++ [] := rfl
  obtain ⟨s, hs, -⟩ := receiveNegotiationFrame_frame hfits hfd
  refine ⟨fd, _, s, hs, hmap, rfl, ?_⟩
  rintro ⟨es, hes, hframe, hall⟩
  have hframe : frame [(0, [97]), (0, [98])] = frame es := (List.append_nil _).symm.trans hframe
  have hrecords : records [(0, [97]), (0, [98])] = records es := by
    have hlen := congrArg List.length hframe
    rw [length_frame, length_frame] at hlen
    exact (List.append_inj' hframe (by omega)).2
  have hsame := records_inj hfits hes hrecords
  have hmem := (hall (0, [98])).mpr (hsame ▸ by decide)
  rw [hmap] at hmem
  revert hmem
  decide

end Seastar.Rpc
