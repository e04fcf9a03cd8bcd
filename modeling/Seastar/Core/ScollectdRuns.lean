import Seastar.Core.ScollectdFormat

/-!
A run of the reports. Each packet takes the next metrics, as many as there is space for; the run
comes to an end exactly if every record fits into a packet of its own, and its packets then hold
all metrics that are no histograms.
-/

namespace Seastar.Scollectd

open Lib

/-- The metrics of a family that are no histograms. -/
def metricsOf : List MetricValue → List MetricId → List Metric
  | .scalar type bits :: vs, id :: md => ⟨id, type, bits⟩ :: metricsOf vs md
  | .histogram :: vs, _ :: md => metricsOf vs md
  | _, _ => []

/-- The metrics of all families. -/
def Snapshot.metrics (s : Snapshot) : List Metric :=
  (s.values.zip s.metadata).flatMap fun f => metricsOf f.1 f.2

/-- The metrics that are not yet reported. -/
def Context.remaining (s : Snapshot) (c : Context) : List Metric :=
  metricsOf c.value c.metadata ++
    ((s.values.drop (c.family + 1)).zip (s.metadata.drop (c.family + 1))).flatMap
      fun f => metricsOf f.1 f.2

/-- The iterators are at the same place, and behind the last family there is nothing left. -/
structure Aligned (s : Snapshot) (c : Context) : Prop where
  length : c.value.length = c.metadata.length
  family : c.family ≤ s.values.length
  done : c.family = s.values.length → c.value = []

/-- The writer holds a packet of the items. -/
structure Holds (r : Reporter) (xs : List Item) (w : Writer) : Prop where
  buf : w.buf = packetBytes r (fun _ => []) xs
  length : w.buf.length ≤ payloadSize

/-- ... and can go on. -/
structure Ready (r : Reporter) (xs : List Item) (w : Writer) : Prop extends Holds r xs w where
  overflow : w.overflow = false
  cache : w.cache = lastCache r (fun _ => []) xs

/-- The record has no space behind the items. -/
def NoSpace (r : Reporter) (xs : List Item) (m : Metric) (tick : Nat) : Prop :=
  payloadSize < (packetBytes r (fun _ => []) (xs ++ [{ m with tick }])).length

variable {r : Reporter} {s : Snapshot} {pre : List Item} {out : Writer}

theorem length_packetBytes_concat (r : Reporter) (xs : List Item) (x : Item) :
    (packetBytes r (fun _ => []) (xs ++ [x])).length =
      (packetBytes r (fun _ => []) xs).length +
        (recordBytes r x.id x.type x.bits x.tick (lastCache r (fun _ => []) xs)).length := by
  rw [packetBytes_append, List.length_append, packetBytes, packetBytes, List.append_nil]

/-- A record is written behind the items, or it is taken back. -/
theorem put_ready (h : Ready r pre out) (x : Item) :
    (NoSpace r pre x.toMetric x.tick ∧ (out.put r x.id x.type x.bits x.tick).overflow = true ∧
      Holds r pre ((out.put r x.id x.type x.bits x.tick).reset out.buf.length)) ∨
    Ready r (pre ++ [x]) (out.put r x.id x.type x.bits x.tick) := by
  have hemits := emits_put r x.id x.type x.bits x.tick
  have hlen := length_packetBytes_concat r pre x
  rw [← h.cache, ← h.buf] at hlen
  by_cases hfull : payloadSize < out.buf.length +
      (recordBytes r x.id x.type x.bits x.tick out.cache).length
  · left
    refine ⟨?_, hemits.full out h.overflow h.length hfull, ?_, ?_⟩
    · rw [NoSpace, hlen]
      exact hfull
    · rw [← h.buf, Writer.reset]
      obtain ⟨rest, hrest⟩ := hemits.kept out
      dsimp only
      rw [← hrest, List.take_left' rfl]
    · rw [Writer.reset]
      dsimp only
      rw [List.length_take]
      exact Nat.le_trans (Nat.min_le_left _ _) h.length
  · right
    have hle := Nat.le_of_not_lt hfull
    rw [hemits.fits out h.overflow hle]
    constructor
    · constructor
      · rw [packetBytes_append, ← h.cache, ← h.buf, packetBytes, packetBytes, List.append_nil]
      · rw [List.length_append]
        exact hle
    · rfl
    · rw [h.cache, lastCache, lastCache, List.foldl_append]
      rfl

/-- The loop over a family takes its metrics in order, and stops only where there is no space. -/
theorem fillFamily_spec (vs : List MetricValue) (md : List MetricId) (tick : Nat)
    (hlen : vs.length = md.length) (h : Ready r pre out) :
    ∃ full vs' md' out' tick' xs, fillFamily r vs md out tick = .ok (full, vs', md', out', tick') ∧
      vs'.length = md'.length ∧ metricsOf vs md = xs.map Item.toMetric ++ metricsOf vs' md' ∧
      Holds r (pre ++ xs) out' ∧
      (full = false → vs' = [] ∧ Ready r (pre ++ xs) out') ∧
      (full = true → ∃ m rest tick, metricsOf vs' md' = m :: rest ∧ NoSpace r (pre ++ xs) m tick) := by
  induction vs generalizing md out tick pre with
  | nil =>
    refine ⟨false, [], md, out, tick, [], rfl, hlen, rfl, ?_, ?_, ?_⟩
    · rw [List.append_nil]
      exact h.toHolds
    · intro _
      rw [List.append_nil]
      exact ⟨rfl, h⟩
    · intro hfull
      cases hfull
  | cons v vs ih =>
    cases md with
    | nil => cases hlen
    | cons id md =>
      have hlen' : vs.length = md.length := Nat.succ.inj hlen
      cases v with
      | histogram => exact ih md tick hlen' h
      | scalar type bits =>
        rcases put_ready h ⟨⟨id, type, bits⟩, tick⟩ with ⟨hspace, hover, hheld⟩ | hready
        · refine ⟨true, .scalar type bits :: vs, id :: md,
            (out.put r id type bits tick).reset out.buf.length, tick + 1, [], ?_, hlen, rfl, ?_, ?_, ?_⟩
          · rw [fillFamily]
            exact if_pos hover
          · rw [List.append_nil]
            exact hheld
          · intro hfull
            cases hfull
          · intro _
            rw [List.append_nil]
            exact ⟨⟨id, type, bits⟩, metricsOf vs md, tick, rfl, hspace⟩
        · obtain ⟨full, vs', md', out', tick', xs, hrun, hlen'', hsplit, hheld, hgo, hstop⟩ :=
            ih md (tick + 1) hlen' hready
          refine ⟨full, vs', md', out', tick', ⟨⟨id, type, bits⟩, tick⟩ :: xs, ?_, hlen'', ?_, ?_, ?_, ?_⟩
          · rw [fillFamily]
            rw [if_neg (by rw [hready.overflow]; decide)]
            exact hrun
          · rw [metricsOf, hsplit]
            rfl
          · rwa [List.append_assoc] at hheld
          · rwa [List.append_assoc] at hgo
          · rwa [List.append_assoc] at hstop

/-! ## The families -/

theorem Snapshot.length_eq (s : Snapshot) : s.values.length = s.metadata.length := by
  have h := congrArg List.length s.shape
  rwa [List.length_map, List.length_map] at h

/-- The values of a family have their metadata. -/
theorem Snapshot.family (s : Snapshot) {i : Nat} {vs : List MetricValue} (h : s.values[i]? = some vs) :
    ∃ md, s.metadata[i]? = some md ∧ vs.length = md.length := by
  have hshape := congrArg (·[i]?) s.shape
  simp only [List.getElem?_map, h, Option.map_some] at hshape
  obtain ⟨md, hmd, hlen⟩ := Option.map_eq_some_iff.mp hshape.symm
  exact ⟨md, hmd, hlen.symm⟩

/-- The metrics from a family on. -/
theorem drop_families {i : Nat} {vs : List MetricValue} {md : List MetricId}
    (hvs : s.values[i]? = some vs) (hmd : s.metadata[i]? = some md) :
    ((s.values.drop i).zip (s.metadata.drop i)).flatMap (fun f => metricsOf f.1 f.2) =
      metricsOf vs md ++ ((s.values.drop (i + 1)).zip (s.metadata.drop (i + 1))).flatMap
        fun f => metricsOf f.1 f.2 := by
  obtain ⟨hi, rfl⟩ := List.getElem?_eq_some_iff.mp hvs
  obtain ⟨hj, rfl⟩ := List.getElem?_eq_some_iff.mp hmd
  rw [List.drop_eq_getElem_cons hi, List.drop_eq_getElem_cons hj, List.zip_cons_cons,
    List.flatMap_cons]

theorem metricsOf_nil (md : List MetricId) : metricsOf [] md = [] := by
  cases md <;> rfl

/-- A packet takes the next metrics, up to the end or up to one that it has no space for. -/
theorem fill_spec {c : Context} (ha : Aligned s c) (h : Ready r pre c.out) :
    ∃ c' xs, fill r s c = .ok c' ∧ Aligned s c' ∧
      c.remaining s = xs.map Item.toMetric ++ c'.remaining s ∧ Holds r (pre ++ xs) c'.out ∧
      (c'.family = s.values.length ∨
        ∃ m rest tick, c'.remaining s = m :: rest ∧ NoSpace r (pre ++ xs) m tick) := by
  induction hk : s.values.length - c.family using Nat.strongRecOn generalizing c pre with
  | ind k ih =>
    rw [fill]
    by_cases hlt : c.family < s.values.length
    · rw [if_pos hlt]
      obtain ⟨full, vs', md', out', tick', xs, hrun, hlen, hsplit, hheld, hgo, hstop⟩ :=
        fillFamily_spec c.value c.metadata c.tick ha.length h
      rw [hrun, ok_bind]
      dsimp only
      cases full with
      | true =>
        obtain ⟨m, rest, tick, hnext, hspace⟩ := hstop rfl
        refine ⟨_, xs, if_pos rfl, ⟨hlen, Nat.le_of_lt hlt, ?_⟩, ?_, hheld, Or.inr ?_⟩
        · exact fun hend => absurd hend (Nat.ne_of_lt hlt)
        · rw [Context.remaining, Context.remaining, hsplit, List.append_assoc]
        · exact ⟨m, _, tick, by rw [Context.remaining, hnext, List.cons_append], hspace⟩
      | false =>
        obtain ⟨rfl, hready⟩ := hgo rfl
        rw [metricsOf_nil, List.append_nil] at hsplit
        rw [if_neg Bool.false_ne_true]
        cases hvalue : s.values[c.family + 1]? with
        | none =>
          have hend : c.family + 1 = s.values.length := by
            have := List.getElem?_eq_none_iff.mp hvalue
            omega
          have hnone : s.values.drop (c.family + 1) = [] :=
            List.drop_eq_nil_of_le (Nat.le_of_eq hend.symm)
          have hnone' : s.values.drop (c.family + 1 + 1) = [] :=
            List.drop_eq_nil_of_le (by omega)
          refine ⟨_, xs, rfl, ⟨hlen, Nat.le_of_eq hend, fun _ => rfl⟩, ?_, hheld, Or.inl hend⟩
          simp only [Context.remaining, hsplit, hnone, hnone', metricsOf_nil, List.zip_nil_left,
            List.flatMap_nil, List.append_nil]
        | some value =>
          obtain ⟨metadata, hmetadata, hlen'⟩ := s.family hvalue
          have hlt' : c.family + 1 < s.values.length := (List.getElem?_eq_some_iff.mp hvalue).1
          rw [hmetadata]
          dsimp only
          obtain ⟨c', ys, hfill, ha', hrest, hheld', hend⟩ :=
            ih (s.values.length - (c.family + 1)) (by omega)
              (c := ⟨c.family + 1, metadata, value, out', tick'⟩)
              ⟨hlen', Nat.le_of_lt hlt', fun hend => absurd hend (Nat.ne_of_lt hlt')⟩ hready rfl
          rw [List.append_assoc] at hheld' hend
          refine ⟨c', xs ++ ys, hfill, ha', ?_, hheld', hend⟩
          rw [List.map_append, List.append_assoc, ← hrest, Context.remaining, hsplit,
            drop_families hvalue hmetadata]
          rfl
    · rw [if_neg hlt]
      have hend : c.family = s.values.length := Nat.le_antisymm ha.family (Nat.le_of_not_lt hlt)
      refine ⟨c, [], rfl, ha, rfl, ?_, Or.inl hend⟩
      rw [List.append_nil]
      exact h.toHolds

/-! ## The packets -/

theorem ready_clear (r : Reporter) (w : Writer) : Ready r [] w.clear :=
  ⟨⟨rfl, Nat.zero_le _⟩, rfl, rfl⟩

/-- A packet that is empty in front of a record has space for a record that fits at all. -/
theorem NoSpace.freshLength {m : Metric} {tick : Nat} (h : NoSpace r [] m tick) :
    payloadSize < freshLength r m.id := by
  rwa [NoSpace, length_packetBytes_concat, lastCache, List.foldl_nil, length_recordBytes_fresh,
    packetBytes, List.length_nil, Nat.zero_add] at h

theorem remaining_done {c : Context} (ha : Aligned s c) (h : c.family = s.values.length) :
    c.remaining s = [] := by
  have hnone : s.values.drop (c.family + 1) = [] := List.drop_eq_nil_of_le (by omega)
  rw [Context.remaining, ha.done h, metricsOf_nil, hnone, List.zip_nil_left]
  rfl

/-- What a reader gets of the packets. -/
def Reports (r : Reporter) (packets : List Bytes) (ms : List Metric) : Prop :=
  (∀ p ∈ packets, p.length ≤ payloadSize) ∧
    ∃ records : List (List Record), packets.map (decode fun _ => []) = records.map some ∧
      records.flatten = ms.map (Metric.record r)

theorem Reports.nil (r : Reporter) : Reports r [] [] :=
  ⟨fun p hp => (List.not_mem_nil hp).elim, [], rfl, rfl⟩

/-- A packet in front of the others. -/
theorem Reports.cons {w : Writer} {xs : List Item} {packets : List Bytes} {ms : List Metric}
    (hw : Holds r xs w) (h : Reports r packets ms) :
    Reports r (w.buf :: packets) (xs.map Item.toMetric ++ ms) := by
  obtain ⟨hlen, records, hdecode, hall⟩ := h
  have hfirst := hw.length
  rw [hw.buf] at hfirst
  refine ⟨?_, (xs.map fun x => x.toMetric.record r) :: records, ?_, ?_⟩
  · intro p hp
    rcases List.mem_cons.mp hp with rfl | hp
    · exact hw.length
    · exact hlen p hp
  · rw [List.map_cons, List.map_cons, hdecode, hw.buf, decode_packetBytes r _ _ hfirst]
  · rw [List.flatten_cons, hall, List.map_append, List.map_map]
    rfl

/-- Where every record fits into a packet of its own, each packet takes a metric, and the loop comes
to an end with all of them reported. -/
theorem sendPackets_reports {c : Context} (ha : Aligned s c)
    (hfit : ∀ m ∈ c.remaining s, freshLength r m.id ≤ payloadSize) {n : Nat}
    (hn : c.family = s.values.length ∨ (c.remaining s).length < n) :
    ∃ packets, sendPackets r s n c = .ok (some packets) ∧ Reports r packets (c.remaining s) := by
  induction n generalizing c with
  | zero =>
    have hend : c.family = s.values.length := hn.resolve_right (Nat.not_lt_zero _)
    refine ⟨[], ?_, ?_⟩
    · rw [sendPackets, if_pos (hend.trans s.length_eq)]
    · rw [remaining_done ha hend]
      exact Reports.nil r
  | succ n ih =>
    rw [sendPackets]
    by_cases hend : c.family = s.metadata.length
    · rw [if_pos hend]
      refine ⟨[], rfl, ?_⟩
      rw [remaining_done ha (hend.trans s.length_eq.symm)]
      exact Reports.nil r
    · rw [if_neg hend]
      have hlt : (c.remaining s).length < n + 1 :=
        hn.resolve_left fun h => hend (h.trans s.length_eq)
      have ha' : Aligned s { c with out := c.out.clear } := ⟨ha.length, ha.family, ha.done⟩
      obtain ⟨c', xs, hfill, haligned, hsplit, hheld, hstop⟩ := fill_spec ha' (ready_clear r c.out)
      rw [List.nil_append] at hheld hstop
      change c.remaining s = _ at hsplit
      have hprogress : c'.family = s.values.length ∨ (c'.remaining s).length < n := by
        refine hstop.imp id ?_
        rintro ⟨m, rest, tick, hnext, hspace⟩
        have hxs : xs ≠ [] := by
          rintro rfl
          have hm : m ∈ c.remaining s := by
            rw [hsplit, hnext]
            exact List.mem_cons_self
          exact absurd hspace.freshLength (Nat.not_lt.mpr (hfit m hm))
        have hpos := List.length_pos_iff.mpr hxs
        rw [hsplit, List.length_append, List.length_map] at hlt
        omega
      have hfit' : ∀ m ∈ c'.remaining s, freshLength r m.id ≤ payloadSize := by
        intro m hm
        apply hfit m
        rw [hsplit]
        exact List.mem_append_right _ hm
      obtain ⟨packets, hrest, hreports⟩ := ih haligned hfit' hprogress
      rw [hfill, ok_bind, hrest, ok_bind]
      refine ⟨_, rfl, ?_⟩
      rw [hsplit]
      dsimp only
      by_cases hempty : c'.out.empty = true
      · rw [if_pos hempty]
        have hnil : xs = [] := by
          cases xs with
          | nil => rfl
          | cons x xs =>
            have hbuf := List.isEmpty_iff.mp hempty
            rw [hheld.buf, packetBytes] at hbuf
            have := congrArg List.length hbuf
            simp [recordBytes] at this
        rw [hnil]
        exact hreports
      · rw [if_neg hempty]
        exact Reports.cons hheld hreports

theorem start_spec (s : Snapshot) : Aligned s s.start ∧ s.start.remaining s = s.metrics := by
  obtain ⟨values, metadata, hshape⟩ := s
  cases values with
  | nil =>
    cases metadata with
    | cons md metadata => cases hshape
    | nil => exact ⟨⟨rfl, Nat.le_refl _, fun _ => rfl⟩, rfl⟩
  | cons vs values =>
    cases metadata with
    | nil => cases hshape
    | cons md metadata =>
      obtain ⟨hlen, -⟩ := List.cons.inj hshape
      exact ⟨⟨hlen, Nat.zero_le _, fun h => absurd h (Nat.succ_ne_zero _).symm⟩, rfl⟩

/-- For every set of families and values in which each record fits into a packet: a run sends
packets of at most 1024 bytes, each of which can be read on its own, and what is read of them are
the metrics that are no histograms, each once and in order. -/
theorem run_reports_values (r : Reporter) (s : Snapshot)
    (hfit : ∀ m ∈ s.metrics, freshLength r m.id ≤ payloadSize) :
    ∃ packets, run r s (s.metrics.length + 1) = .ok (some packets) ∧
      (∀ p ∈ packets, p.length ≤ payloadSize) ∧
      ∃ records : List (List Record), packets.map (decode fun _ => []) = records.map some ∧
        records.flatten = s.metrics.map (Metric.record r) := by
  obtain ⟨ha, hstart⟩ := start_spec s
  rw [← hstart] at hfit
  obtain ⟨packets, hrun, hreports⟩ :=
    sendPackets_reports ha hfit (n := (s.start.remaining s).length + 1) (Or.inr (Nat.lt_succ_self _))
  rw [hstart] at hrun hreports
  exact ⟨packets, hrun, hreports⟩

/-- The reports of the first processor of the host "h". -/
def firstReporter : Reporter where
  host := [104]
  cpuId := [48]
  period := 1
  now _ := 0

/-- A metric of the group, with the name "n". -/
def namedMetric (groupName : Bytes) : MetricId where
  groupName := groupName
  name := [110]
  labels := [(shardLabel, [48]), (typeLabel, [103])]
  hasShard := rfl
  hasType := rfl

/-- A gauge and a histogram in one family, a counter in another. -/
def twoFamilies : Snapshot where
  values := [[.scalar .gauge 5, .histogram], [.scalar .counter 7]]
  metadata := [[namedMetric [97], namedMetric [97]], [namedMetric [98]]]
  shape := rfl

theorem run_reports_values_two : ∃ packets, run firstReporter twoFamilies 3 = .ok (some packets) ∧
    (∀ p ∈ packets, p.length ≤ payloadSize) ∧
    ∃ records : List (List Record), packets.map (decode fun _ => []) = records.map some ∧
      records.flatten = [⟨[104], [97], [48], [103], [110], .gauge, 5⟩,
        ⟨[104], [98], [48], [103], [110], .counter, 7⟩] :=
  run_reports_values firstReporter twoFamilies (by decide)

/-! ## Termination -/

/-- A record that does not fit into a packet of its own does not go into any packet. -/
theorem not_mem_packet {xs : List Item} {w : Writer} (h : Holds r xs w) :
    ∀ x ∈ xs, freshLength r x.id ≤ payloadSize := by
  intro x hx
  obtain ⟨before, behind, rfl⟩ := List.append_of_mem hx
  apply freshLength_le r before x
  have hlen := h.length
  rw [h.buf] at hlen
  have hsplit : before ++ x :: behind = (before ++ [x]) ++ behind := by simp
  rw [hsplit, packetBytes_append, List.length_append] at hlen
  omega

/-- ... so that the loop does not get past it. -/
theorem sendPackets_none {c : Context} (ha : Aligned s c) {m : Metric} (hm : m ∈ c.remaining s)
    (hlong : payloadSize < freshLength r m.id) (n : Nat) : sendPackets r s n c = .ok none := by
  have hend {c : Context} (ha : Aligned s c) (hm : m ∈ c.remaining s) :
      c.family ≠ s.metadata.length := by
    intro h
    rw [remaining_done ha (h.trans s.length_eq.symm)] at hm
    cases hm
  induction n generalizing c with
  | zero => rw [sendPackets, if_neg (hend ha hm)]
  | succ n ih =>
    have ha' : Aligned s { c with out := c.out.clear } := ⟨ha.length, ha.family, ha.done⟩
    obtain ⟨c', xs, hfill, haligned, hsplit, hheld, -⟩ := fill_spec ha' (ready_clear r c.out)
    rw [List.nil_append] at hheld
    change c.remaining s = _ at hsplit
    have hm' : m ∈ c'.remaining s := by
      rw [hsplit] at hm
      refine (List.mem_append.mp hm).resolve_left fun hin => ?_
      obtain ⟨x, hx, rfl⟩ := List.mem_map.mp hin
      exact absurd (not_mem_packet hheld x hx) (Nat.not_le.mpr hlong)
    rw [sendPackets, if_neg (hend ha hm), hfill, ok_bind, ih haligned hm', ok_bind]
    rfl

/-- A run comes to an end exactly if every record fits into a packet of its own. -/
theorem run_ends_iff (r : Reporter) (s : Snapshot) :
    (∃ n packets, run r s n = .ok (some packets)) ↔
      ∀ m ∈ s.metrics, freshLength r m.id ≤ payloadSize := by
  obtain ⟨ha, hstart⟩ := start_spec s
  rw [← hstart]
  constructor
  · rintro ⟨n, packets, hrun⟩ m hm
    by_contra hlong
    rw [run, sendPackets_none ha hm (Nat.lt_of_not_le hlong) n] at hrun
    cases hrun
  · intro hfit
    obtain ⟨packets, hrun, -⟩ := sendPackets_reports ha hfit (Or.inr (Nat.lt_succ_self _))
    exact ⟨_, packets, hrun⟩

theorem length_groupName_lt (r : Reporter) (id : MetricId) :
    id.groupName.length < freshLength r id := by
  have hgroup : id.groupName.length ≤
      if identity r id .plugin = [] then 0 else 5 + (identity r id .plugin).length := by
    split
    · rename_i h
      exact Nat.le_of_eq (congrArg List.length h)
    · exact Nat.le_add_left _ _
  simp only [freshLength, stringBytes, identityParts, List.map_cons, List.sum_cons]
  omega

/-- A metric whose group has a name of 1024 bytes. -/
def longName : Snapshot where
  values := [[.scalar .counter 7]]
  metadata := [[namedMetric (List.replicate 1024 97)]]
  shape := rfl

/-- It is tried again and again, and no packet is sent. -/
theorem run_long_name :
    ¬∀ (r : Reporter) (s : Snapshot), ∃ n packets, run r s n = .ok (some packets) := by
  intro h
  obtain ⟨n, packets, hrun⟩ := h firstReporter longName
  have hlong : payloadSize < freshLength firstReporter (namedMetric (List.replicate 1024 97)) := by
    have hgroup := length_groupName_lt firstReporter (namedMetric (List.replicate 1024 97))
    have hlen : (namedMetric (List.replicate 1024 97)).groupName.length = 1024 :=
      List.length_replicate
    rw [payloadSize]
    omega
  have hm : (⟨namedMetric (List.replicate 1024 97), .counter, 7⟩ : Metric) ∈
      longName.start.remaining longName := by
    rw [(start_spec longName).2]
    exact List.mem_cons_self
  rw [run, sendPackets_none (start_spec longName).1 hm hlong n] at hrun
  cases hrun

end Seastar.Scollectd
