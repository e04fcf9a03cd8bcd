import Seastar.Memcached.ParserTokens

/-!
The history of the parser of `apps/memcached/ascii.rl` over any buffers. An invariant says where the
text that is collected starts and which tokens are entered and not left; every round keeps it, up to
one that leaves a last key a second time.
-/

namespace Seastar.Memcached.Parser

open Lib

variable {buf : Bytes} {p q n k : Nat} {c : UInt8} {m m' : Machine} {v : Verb} {b b' : Bool}
  {place next : Place} {exit : Machine.Exit} {actions rest : List Action}
  {before pre post : List Step} {x : Step}

/-! ## The actions of a round -/

theorem perform_quiet (h : Quiet actions) (m : Machine) :
    actions.foldlM (Machine.perform buf p c) m =
      .ok { m with regs := applyAll c actions m.regs } := by
  induction actions generalizing m with
  | nil => rfl
  | cons a actions ih =>
    obtain ⟨hm, ht⟩ := h a List.mem_cons_self
    have hstep : m.perform buf p c a = .ok { m with regs := a.apply c [] m.regs } := by
      rw [Machine.perform, if_neg hm, ht, if_neg Bool.false_ne_true]
    rw [List.foldlM_cons, hstep, ok_bind, ih fun b hb => h b (List.mem_cons_of_mem _ hb)]
    rfl

/-- All actions are performed, if none of them throws. -/
theorem performed_events (h : actions.foldlM (Machine.perform buf p c) m = .ok m') :
    (m.performed buf p c actions).map (·.event) = actions.map .action := by
  induction actions generalizing m with
  | nil => rfl
  | cons a actions ih =>
    rw [List.foldlM_cons] at h
    obtain ⟨m₁, hm₁, h⟩ := bind_ok.mp h
    rw [Machine.performed, hm₁, List.map_cons, List.map_cons, ih h]

/-- A text is taken by no quiet action. -/
theorem performed_quiet (h : Quiet actions) (m : Machine) :
    ∀ call ∈ m.performed buf p c actions, call.event.takes = false := by
  intro call hcall
  have hevent : call.event ∈ actions.map Event.action := by
    rw [← performed_events (perform_quiet h m)]
    exact List.mem_map_of_mem hcall
  obtain ⟨a, ha, heq⟩ := List.mem_map.mp hevent
  rw [← heq]
  exact (h a ha).2

theorem Machine.perform_mark (m : Machine) : m.perform buf p c .mark =
    .ok { m with builder := { m.builder with start := some p } } := rfl

theorem Machine.perform_take {a : Action} {s : Nat} (ha : a.takes = true)
    (hs : m.builder.start = some s) : m.perform buf p c a =
      .ok { m with
        regs := a.apply c (m.builder.value ++ (buf.drop s).take (p - s)) m.regs
        builder := {} } := by
  have hm : a ≠ .mark := by
    rintro rfl
    cases ha
  rw [perform, if_neg hm, if_pos ha, str, Builder.markEnd, hs]
  rfl

namespace Machine

theorem advance_plain (h : m.place.isPlain = true) : m.advance buf p c =
    (transition m.place c).elim (.ok none) fun x =>
      (fun m => some ({ m with place := x.2 }, p + 1)) <$> x.1.foldlM (perform buf p c) m := by
  rw [advance]
  cases hp : m.place with
  | blobStart v =>
    rw [hp] at h
    cases h
  | blob v =>
    rw [hp] at h
    cases h
  | _ =>
    dsimp only
    cases transition _ c with
    | none => rfl
    | some result =>
      obtain ⟨actions, next⟩ := result
      rfl

theorem calls_plain (h : m.place.isPlain = true) : m.calls buf p c =
    (transition m.place c).elim [] fun x => m.performed buf p c x.1 := by
  rw [calls]
  cases hp : m.place with
  | blobStart v =>
    rw [hp] at h
    cases h
  | blob v =>
    rw [hp] at h
    cases h
  | _ =>
    dsimp only
    cases transition _ c with
    | none => rfl
    | some result =>
      obtain ⟨actions, next⟩ := result
      rfl

end Machine

/-! ## The invariant -/

/-- The automaton is in a last key that has been left. -/
def leftIn (before : List Step) (place : Place) : Bool := place.isLast && wasLeft before

theorem wasLeft_concat (before : List Step) (x : Step) :
    wasLeft (before ++ [x]) = (x.place.isLast && (x.char == 13 || wasLeft before)) := by
  rw [wasLeft, List.reverse_append, List.reverse_singleton, List.singleton_append,
    List.takeWhile_cons]
  cases hlast : x.place.isLast with
  | false => simp
  | true =>
    rw [if_pos rfl, List.any_cons]
    rfl

/-- A round of the buffer `k` marked the position `s`. -/
def MarkedAt (k s : Nat) (steps : List Step) : Prop :=
  ∃ y ∈ steps, y.buffer = k ∧ y.pos = s ∧ y.Marked

/-- The parser in a buffer, behind the steps `before`. -/
structure Inv (k : Nat) (buf : Bytes) (before : List Step) (m : Machine) (p : Nat) : Prop where
  held : m.builder.start.isSome = m.place.holds (leftIn before m.place)
  value : m.builder.start = none → m.builder.value = []
  start : ∀ s, m.builder.start = some s → s ≤ p ∧
    (MarkedAt k s before ∧ s < buf.length ∧ m.builder.value = [] ∨ s = 0 ∧ m.builder.value ≠ [])
  armed : ∀ e ∈ m.place.exits (leftIn before m.place), e.Armed (allEvents before)

/-- The parser between two buffers. -/
structure Rest (before : List Step) (m : Machine) : Prop where
  start : m.builder.start = none
  value : m.builder.value ≠ [] ↔ m.place.holds (leftIn before m.place) = true
  armed : ∀ e ∈ m.place.exits (leftIn before m.place), e.Armed (allEvents before)

/-- What is asked of a step behind the steps `before`. -/
def Step.Right (before : List Step) (x : Step) : Prop :=
  x.Started before ∧ History (fun ds e => Event.Once (allEvents before ++ ds) e) x.events

theorem tokens_iff_right (steps : List Step) : Tokens steps ↔ History Step.Right steps := by
  rw [Tokens, allEvents, History.flatMap, ← History.and]
  rfl

theorem MarkedAt.mono {s : Nat} (h : MarkedAt k s before) (x : Step) :
    MarkedAt k s (before ++ [x]) := by
  obtain ⟨y, hy, hmark⟩ := h
  exact ⟨y, List.mem_append_left _ hy, hmark⟩

/-- The start that the invariant knows is one that a text may have. -/
theorem Inv.started {s : Nat} (h : Inv k buf before m p) (hs : m.builder.start = some s)
    (hx : x.buffer = k ∧ x.pos = p) : s ≤ x.pos ∧
      ((∃ y ∈ before ++ [x], y.buffer = x.buffer ∧ y.pos = s ∧ y.Marked) ∧
        m.builder.value = [] ∨ s = 0 ∧ m.builder.value ≠ []) := by
  obtain ⟨hle, hstart⟩ := h.start s hs
  rw [hx.1, hx.2]
  exact ⟨hle, hstart.imp (fun h => ⟨h.1.mono x, h.2.2⟩) id⟩

/-- What a round does to the tokens, unless it leaves a last key a second time. -/
theorem effect_round (honce : (m.round k buf p c).LeavesOnce before)
    (ht : transition m.place c = some (actions, next)) :
    Effect m.place (leftIn before m.place) actions next
      (leftIn (before ++ [m.round k buf p c]) next) := by
  rw [leftIn, leftIn, wasLeft_concat]
  cases hp : m.place with
  | lastKey v crlf =>
    rw [hp] at ht
    have heff := effect_lastKey (b := wasLeft before) (fun hc => honce (by rw [Machine.round, hp]; rfl) hc) ht
    simpa [Machine.round, hp, Place.isLast] using heff
  | _ =>
    have hnot : m.place.isLast = false := by
      rw [hp]
      rfl
    have heff := orderly_transition hnot c actions next ht
    rw [hp] at heff
    simpa [Machine.round, hp, Place.isLast] using heff

/-- The parser behind a round that leaves the builder as `builder`. -/
theorem Inv.behind {builder : Builder} {regs : Registers} (hx : x.buffer = k) (hp : p ≤ q)
    (hheld : builder.start.isSome = next.holds (leftIn (before ++ [x]) next))
    (hvalue : builder.start = none → builder.value = [])
    (hstart : ∀ s, builder.start = some s → s ≤ p ∧ (MarkedAt k s (before ++ [x]) ∧
      s < buf.length ∧ builder.value = [] ∨ s = 0 ∧ builder.value ≠ []))
    (harmed : ∀ e ∈ next.exits (leftIn (before ++ [x]) next), e.Armed (allEvents before ++ x.events)) :
    Inv k buf (before ++ [x]) ⟨next, regs, builder⟩ q where
  held := hheld
  value := hvalue
  start s hs := ⟨Nat.le_trans (hstart s hs).1 hp, (hstart s hs).2⟩
  armed e he := by
    rw [allEvents, List.flatMap_append, List.flatMap_singleton]
    exact harmed e he

/-- A round outside of a blob. -/
theorem Inv.round_plain (h : Inv k buf before m p) (hc : buf[p]? = some c)
    (hplain : m.place.isPlain = true) (honce : (m.round k buf p c).LeavesOnce before)
    (ht : transition m.place c = some (actions, next)) :
    (m.round k buf p c).Right before ∧ ∃ m', m.advance buf p c = .ok (some (m', p + 1)) ∧
      Inv k buf (before ++ [m.round k buf p c]) m' (p + 1) := by
  have heff := effect_round honce ht
  have hcalls : (m.round k buf p c).calls = m.performed buf p c actions := by
    rw [Machine.round, Machine.calls_plain hplain, ht]
    rfl
  have hadv : m.advance buf p c =
      (fun m => some ({ m with place := next }, p + 1)) <$> actions.foldlM (Machine.perform buf p c) m := by
    rw [Machine.advance_plain hplain, ht]
    rfl
  -- the events are those of the transition, once its actions do not throw
  have hevents : ∀ m', actions.foldlM (Machine.perform buf p c) m = .ok m' →
      History (fun ds e => Event.Once (allEvents before ++ ds) e) (m.round k buf p c).events ∧
        ∀ e ∈ next.exits (leftIn (before ++ [m.round k buf p c]) next),
          e.Armed (allEvents before ++ (m.round k buf p c).events) := by
    intro m' hm'
    have hmap : (m.round k buf p c).events = actions.map .action := by
      rw [Step.events, hcalls, performed_events hm']
    rw [hmap]
    exact once_of_allows h.armed heff.allows
  rcases heff.text with ⟨rest, rfl, hrest, hbefore, hafter⟩ | ⟨a, rest, rfl, ha, hrest, hbefore, hafter⟩ |
    ⟨hquiet, hsame⟩
  · have hnone : m.builder.start = none := by
      rw [← Option.not_isSome_iff_eq_none, h.held, hbefore]
      exact Bool.false_ne_true
    have hm : (.mark :: rest).foldlM (Machine.perform buf p c) m = .ok { m with
        builder := { m.builder with start := some p }, regs := applyAll c rest m.regs } := by
      rw [List.foldlM_cons, Machine.perform_mark, ok_bind, perform_quiet hrest]
    obtain ⟨hist, harmed⟩ := hevents _ hm
    refine ⟨⟨?_, hist⟩, _, by rw [hadv, hm]; rfl, ?_⟩
    · intro call hcall htakes
      rw [hcalls, Machine.performed, Machine.perform_mark] at hcall
      rcases List.mem_cons.mp hcall with rfl | hcall
      · cases htakes
      · rw [performed_quiet hrest _ call hcall] at htakes
        cases htakes
    · refine Inv.behind rfl (Nat.le_succ p) (by rw [hafter]; rfl) (fun h => by cases h) ?_ harmed
      rintro s hs
      obtain rfl := Option.some.inj hs
      refine ⟨Nat.le_refl p, Or.inl ⟨⟨_, List.mem_append_right _ List.mem_cons_self, rfl, rfl, ?_⟩, ?_,
        h.value hnone⟩⟩
      · refine ⟨.action .mark, ?_, rfl⟩
        rw [Step.events, hcalls, performed_events hm]
        exact List.mem_cons_self
      · exact (List.getElem?_eq_some_iff.mp hc).1
  · obtain ⟨s, hs⟩ := Option.isSome_iff_exists.mp (h.held.trans hbefore)
    have htake : m.perform buf p c a = _ := Machine.perform_take ha hs
    have hm : (a :: rest).foldlM (Machine.perform buf p c) m = .ok { m with
        builder := {}
        regs := applyAll c rest
          (a.apply c (m.builder.value ++ (buf.drop s).take (p - s)) m.regs) } := by
      rw [List.foldlM_cons, htake, ok_bind, perform_quiet hrest]
    obtain ⟨hist, harmed⟩ := hevents _ hm
    refine ⟨⟨?_, hist⟩, _, by rw [hadv, hm]; rfl, ?_⟩
    · intro call hcall htakes
      rw [hcalls, Machine.performed, htake] at hcall
      rcases List.mem_cons.mp hcall with rfl | hcall
      · exact ⟨s, hs, h.started hs ⟨rfl, rfl⟩⟩
      · rw [performed_quiet hrest _ call hcall] at htakes
        cases htakes
    · refine Inv.behind rfl (Nat.le_succ p) (by rw [hafter]; rfl) (fun _ => rfl) ?_ harmed
      rintro s hs
      cases hs
  · have hm : actions.foldlM (Machine.perform buf p c) m = _ := perform_quiet hquiet m
    obtain ⟨hist, harmed⟩ := hevents _ hm
    refine ⟨⟨?_, hist⟩, _, by rw [hadv, hm]; rfl, ?_⟩
    · intro call hcall htakes
      rw [hcalls] at hcall
      rw [performed_quiet hquiet _ call hcall] at htakes
      cases htakes
    · refine Inv.behind rfl (Nat.le_succ p) (by rw [hsame]; exact h.held) h.value ?_ harmed
      intro s hs
      obtain ⟨hle, hstart⟩ := h.start s hs
      exact ⟨hle, hstart.imp (fun h => ⟨h.1.mono _, h.2⟩) id⟩

/-- The bytes of a blob that are in the buffer. -/
def blobLength (buf : Bytes) (p : Nat) (m : Machine) : UInt32 :=
  min (UInt32.ofNat (buf.length - p)) m.regs.sizeLeft

/-- `advance_blob` at the end of the blob. -/
theorem advanceBlob_ends {s : Nat} (hs : m.builder.start = some s)
    (h : Machine.endsBlob buf p m.regs.sizeLeft = true) : ∃ regs q, p ≤ q ∧
      m.advanceBlob buf p v = .ok (⟨.blobEnd v, regs, {}⟩, q) := by
  have hle : p ≤ p + (blobLength buf p m).toNat := Nat.le_add_right p _
  refine ⟨{ m.regs with
    sizeLeft := m.regs.sizeLeft - blobLength buf p m
    blob := m.builder.value ++ (buf.drop s).take (p + (blobLength buf p m).toNat - s) }, _, hle, ?_⟩
  rw [Machine.advanceBlob]
  dsimp only
  rw [if_pos (of_decide_eq_true h), Machine.str, Builder.markEnd, hs]
  rfl

theorem advanceBlob_goesOn (h : Machine.endsBlob buf p m.regs.sizeLeft = false) :
    ∃ regs q, p ≤ q ∧ m.advanceBlob buf p v = .ok (⟨.blob v, regs, m.builder⟩, q) := by
  have hle : p ≤ p + (blobLength buf p m).toNat := Nat.le_add_right p _
  refine ⟨{ m.regs with sizeLeft := m.regs.sizeLeft - blobLength buf p m }, _, hle, ?_⟩
  rw [Machine.advanceBlob]
  dsimp only
  rw [if_neg (of_decide_eq_false h)]
  rfl

/-- The first round of a blob, which may be its last. -/
theorem Inv.round_blobStart (h : Inv k buf before m p) (hc : buf[p]? = some c)
    (hplace : m.place = .blobStart v) :
    (m.round k buf p c).Right before ∧ ∃ m' q, m.advance buf p c = .ok (some (m', q)) ∧
      Inv k buf (before ++ [m.round k buf p c]) m' q := by
  have hnone : m.builder.start = none := by
    rw [← Option.not_isSome_iff_eq_none, h.held, hplace]
    exact Bool.false_ne_true
  have hmarked : (m.round k buf p c).Marked := by
    refine ⟨.startBlob, ?_, rfl⟩
    rw [Step.events, Machine.round, Machine.calls, hplace]
    exact List.mem_cons_self
  have hself : MarkedAt k p (before ++ [m.round k buf p c]) :=
    ⟨_, List.mem_append_right _ List.mem_cons_self, rfl, rfl, hmarked⟩
  have hadv : m.advance buf p c = some <$> { m with
      builder := { m.builder with start := some p }
      regs := { m.regs with sizeLeft := m.regs.size } : Machine }.advanceBlob buf p v := by
    rw [Machine.advance, hplace]
  cases hends : Machine.endsBlob buf p m.regs.size with
  | true =>
    have hcalls : (m.round k buf p c).calls = [⟨m.builder, .startBlob⟩,
        ⟨{ m.builder with start := some p }, .takeBlob⟩] := by
      rw [Machine.round, Machine.calls, hplace]
      simp only [hends, if_true]
    have hallows : Allows [] (m.round k buf p c).events [] = true := by
      rw [Step.events, hcalls]
      rfl
    obtain ⟨hist, -⟩ := once_of_allows (l := allEvents before) (fun f hf => absurd hf List.not_mem_nil)
      hallows
    obtain ⟨regs, q, hq, hblob⟩ := advanceBlob_ends (v := v) (m := { m with
      builder := { m.builder with start := some p }
      regs := { m.regs with sizeLeft := m.regs.size } }) rfl hends
    refine ⟨⟨?_, hist⟩, _, q, by rw [hadv, hblob]; rfl, ?_⟩
    · intro call hcall htakes
      rw [hcalls] at hcall
      rcases List.mem_cons.mp hcall with rfl | hcall
      · cases htakes
      · obtain rfl := List.mem_singleton.mp hcall
        exact ⟨p, rfl, Nat.le_refl p, Or.inl ⟨hself, h.value hnone⟩⟩
    · exact .behind rfl hq rfl (fun _ => rfl) (fun s hs => by cases hs)
        fun e he => absurd he List.not_mem_nil
  | false =>
    have hcalls : (m.round k buf p c).calls = [⟨m.builder, .startBlob⟩] := by
      rw [Machine.round, Machine.calls, hplace]
      simp [hends]
    have hallows : Allows [] (m.round k buf p c).events [.takeBlob] = true := by
      rw [Step.events, hcalls]
      rfl
    obtain ⟨hist, harmed⟩ := once_of_allows (l := allEvents before)
      (fun f hf => absurd hf List.not_mem_nil) hallows
    obtain ⟨regs, q, hq, hblob⟩ := advanceBlob_goesOn (v := v) (m := { m with
      builder := { m.builder with start := some p }
      regs := { m.regs with sizeLeft := m.regs.size } }) hends
    refine ⟨⟨?_, hist⟩, _, q, by rw [hadv, hblob]; rfl, ?_⟩
    · intro call hcall htakes
      rw [hcalls] at hcall
      obtain rfl := List.mem_singleton.mp hcall
      cases htakes
    · refine .behind rfl hq rfl (fun h => by cases h) ?_ harmed
      rintro s hs
      obtain rfl := Option.some.inj hs
      exact ⟨Nat.le_refl p, Or.inl ⟨hself, (List.getElem?_eq_some_iff.mp hc).1, h.value hnone⟩⟩

/-- A round in a blob. -/
theorem Inv.round_blob (h : Inv k buf before m p) (hplace : m.place = .blob v) :
    (m.round k buf p c).Right before ∧ ∃ m' q, m.advance buf p c = .ok (some (m', q)) ∧
      Inv k buf (before ++ [m.round k buf p c]) m' q := by
  have hadv : m.advance buf p c = some <$> m.advanceBlob buf p v := by
    rw [Machine.advance, hplace]
  have hholds : m.place.holds (leftIn before m.place) = true := by
    rw [hplace]
    rfl
  obtain ⟨s, hs⟩ := Option.isSome_iff_exists.mp (h.held.trans hholds)
  have harmed : ∀ f ∈ [Event.takeBlob], f.Armed (allEvents before) := by
    have := h.armed
    rwa [hplace] at this
  cases hends : Machine.endsBlob buf p m.regs.sizeLeft with
  | true =>
    have hcalls : (m.round k buf p c).calls = [⟨m.builder, .takeBlob⟩] := by
      rw [Machine.round, Machine.calls, hplace]
      simp only [hends, if_true]
    have hallows : Allows [.takeBlob] (m.round k buf p c).events [] = true := by
      rw [Step.events, hcalls]
      rfl
    obtain ⟨regs, q, hq, hblob⟩ := advanceBlob_ends (v := v) hs hends
    refine ⟨⟨?_, (once_of_allows harmed hallows).1⟩, _, q, by rw [hadv, hblob]; rfl, ?_⟩
    · intro call hcall _
      rw [hcalls] at hcall
      obtain rfl := List.mem_singleton.mp hcall
      exact ⟨s, hs, h.started hs ⟨rfl, rfl⟩⟩
    · exact .behind rfl hq rfl (fun _ => rfl) (fun s hs => by cases hs)
        fun e he => absurd he List.not_mem_nil
  | false =>
    have hcalls : (m.round k buf p c).calls = [] := by
      rw [Machine.round, Machine.calls, hplace]
      simp [hends]
    have hallows : Allows [.takeBlob] (m.round k buf p c).events [.takeBlob] = true := by
      rw [Step.events, hcalls]
      rfl
    obtain ⟨hist, hafter⟩ := once_of_allows harmed hallows
    obtain ⟨regs, q, hq, hblob⟩ := advanceBlob_goesOn (v := v) hends
    refine ⟨⟨?_, hist⟩, _, q, by rw [hadv, hblob]; rfl, ?_⟩
    · intro call hcall _
      rw [hcalls] at hcall
      cases hcall
    · refine .behind rfl hq (by rw [hs]; rfl) h.value ?_ hafter
      intro s' hs'
      obtain ⟨hle, hstart⟩ := h.start s' hs'
      exact ⟨hle, hstart.imp (fun h => ⟨h.1.mono _, h.2⟩) id⟩

/-- Without a second leaving of a last key, a round is right and keeps the invariant. -/
theorem Inv.round_right (h : Inv k buf before m p) (hc : buf[p]? = some c)
    (honce : (m.round k buf p c).LeavesOnce before) : (m.round k buf p c).Right before ∧
      ∀ m' q, m.advance buf p c = .ok (some (m', q)) →
        Inv k buf (before ++ [m.round k buf p c]) m' q := by
  have hfrom : ((m.round k buf p c).Right before ∧ ∃ m' q, m.advance buf p c = .ok (some (m', q)) ∧
      Inv k buf (before ++ [m.round k buf p c]) m' q) → (m.round k buf p c).Right before ∧
      ∀ m' q, m.advance buf p c = .ok (some (m', q)) →
        Inv k buf (before ++ [m.round k buf p c]) m' q := by
    rintro ⟨hright, m₁, q₁, hadv, hinv⟩
    refine ⟨hright, fun m' q h' => ?_⟩
    obtain ⟨rfl, rfl⟩ := Prod.mk.inj (Option.some.inj (Except.ok.inj (hadv.symm.trans h')))
    exact hinv
  by_cases hplain : m.place.isPlain = true
  · cases ht : transition m.place c with
    | none =>
      have hcalls : (m.round k buf p c).calls = [] := by
        rw [Machine.round, Machine.calls_plain hplain, ht]
        rfl
      refine ⟨⟨fun call hcall => ?_, ?_⟩, fun m' q hadv => ?_⟩
      · rw [hcalls] at hcall
        cases hcall
      · rw [Step.events, hcalls]
        exact History.nil
      · rw [Machine.advance_plain hplain, ht] at hadv
        cases hadv
    | some result =>
      obtain ⟨actions, next⟩ := result
      obtain ⟨hright, m', hadv, hinv⟩ := h.round_plain hc hplain honce ht
      exact hfrom ⟨hright, m', p + 1, hadv, hinv⟩
  · cases hp : m.place with
    | blobStart v => exact hfrom (h.round_blobStart hc hp)
    | blob v => exact hfrom (h.round_blob hp)
    | _ => exact absurd (by rw [hp]; rfl) hplain

/-- A last key that is left a second time has no start. -/
theorem Inv.not_started (h : Inv k buf before m p)
    (honce : ¬ (m.round k buf p c).LeavesOnce before) : ¬ (m.round k buf p c).Started before := by
  simp only [Step.LeavesOnce, Machine.round] at honce
  push Not at honce
  obtain ⟨hlast, hchar, hleft⟩ := honce
  cases hp : m.place with
  | lastKey v crlf =>
    have hnone : m.builder.start = none := by
      rw [← Option.not_isSome_iff_eq_none, h.held, leftIn, hlast, Bool.eq_true_of_not_eq_false hleft]
      simp [Place.holds]
    obtain ⟨rest, hleave, -⟩ := leaveKey_eq v
    have hcalls : ⟨m.builder, .action .takeKey⟩ ∈ (m.round k buf p c).calls := by
      have ht : ∃ next, transition (.lastKey v crlf) c = some (v.leaveKey, next) := by
        rw [transition]
        rcases hchar with rfl | rfl
        · exact ⟨_, rfl⟩
        · exact ⟨_, rfl⟩
      obtain ⟨next, ht⟩ := ht
      rw [Machine.round, Machine.calls_plain (by rw [hp]; rfl), hp, ht, hleave]
      exact List.mem_cons_self
    intro hstarted
    obtain ⟨s, hs, -⟩ := hstarted _ hcalls rfl
    cases hnone.symm.trans hs
  | _ =>
    rw [hp] at hlast
    cases hlast

/-- The tokens of a step are right exactly when it leaves no last key a second time. -/
theorem Inv.right_iff (h : Inv k buf before m p) (hc : buf[p]? = some c) :
    (m.round k buf p c).Right before ↔ (m.round k buf p c).LeavesOnce before := by
  constructor
  · intro hright
    by_contra honce
    exact h.not_started honce hright.1
  · intro honce
    exact (h.round_right hc honce).1

/-! ## Buffers -/

/-- The guard finds what was kept. -/
theorem Rest.enter (h : Rest before m) (k : Nat) (buf : Bytes) :
    Inv k buf before { m with builder := m.builder.enter } 0 := by
  by_cases hvalue : m.builder.value = []
  · have henter : m.builder.enter = m.builder := by
      rw [Builder.enter, if_neg (by simp [hvalue])]
    have hholds : m.place.holds (leftIn before m.place) = false := by
      rw [← Bool.not_eq_true, ← h.value]
      exact not_not_intro hvalue
    rw [henter]
    refine ⟨by rw [h.start, hholds]; rfl, fun _ => hvalue, fun s hs => ?_, h.armed⟩
    cases h.start.symm.trans hs
  · have henter : m.builder.enter = { m.builder with start := some 0 } := by
      rw [Builder.enter, if_pos hvalue]
    rw [henter]
    refine ⟨(h.value.mp hvalue).symm, fun hs => absurd hs (Option.some_ne_none 0), fun s hs => ?_,
      h.armed⟩
    obtain rfl := Option.some.inj hs
    exact ⟨Nat.le_refl 0, Or.inr ⟨rfl, hvalue⟩⟩

/-- What there is of a text is kept at the end of a buffer, and its start with it. -/
theorem Inv.leave {builder : Builder} (h : Inv k buf before m buf.length)
    (hleave : m.builder.leave buf = .ok builder) (regs : Registers) : Rest before ⟨m.place, regs, builder⟩ := by
  rw [Builder.leave] at hleave
  cases hs : m.builder.start with
  | none =>
    rw [hs] at hleave
    obtain rfl := Except.ok.inj hleave
    refine ⟨hs, ?_, h.armed⟩
    rw [← h.held, hs]
    exact iff_of_false (not_not_intro (h.value hs)) Bool.false_ne_true
  | some s =>
    rw [hs, if_pos Option.isSome_some, Builder.markEnd, hs] at hleave
    obtain rfl := Except.ok.inj hleave
    refine ⟨rfl, ?_, h.armed⟩
    dsimp only
    rw [← h.held, hs]
    refine iff_of_true (fun hnil => ?_) rfl
    obtain ⟨hvalue, hrest⟩ := List.append_eq_nil_iff.mp hnil
    rcases (h.start s hs).2 with ⟨-, hlt, -⟩ | ⟨-, hne⟩
    · have hlen := congrArg List.length hrest
      rw [List.length_take, List.length_drop, List.length_nil] at hlen
      omega
    · exact hne hvalue

/-- The histories that leave no last key a second time, behind some steps. -/
def OnceBehind (before steps : List Step) : Prop :=
  History (fun pre x => Step.LeavesOnce (before ++ pre) x) steps

theorem OnceBehind.append (h : OnceBehind before (pre ++ post)) :
    OnceBehind before pre ∧ OnceBehind (before ++ pre) post := by
  obtain ⟨hpre, hpost⟩ := History.append.mp h
  refine ⟨hpre, fun ds y es hd => ?_⟩
  have hy : y.LeavesOnce (before ++ (pre ++ ds)) := hpost ds y es hd
  rwa [← List.append_assoc] at hy

theorem OnceBehind.cons (h : OnceBehind before (x :: post)) :
    x.LeavesOnce before ∧ OnceBehind (before ++ [x]) post := by
  obtain ⟨hx, hpost⟩ := OnceBehind.append (show OnceBehind before ([x] ++ post) from h)
  have hx : x.LeavesOnce (before ++ []) := History.singleton.mp hx
  rw [List.append_nil] at hx
  exact ⟨hx, hpost⟩

/-- A round of the log is one of a parser that satisfies the invariant. -/
theorem Inv.of_log (h : Inv k buf before m p) (hlog : m.log k buf n p = pre ++ x :: post)
    (honce : OnceBehind before pre) : ∃ m' q c, Inv k buf (before ++ pre) m' q ∧
      buf[q]? = some c ∧ x = m'.round k buf q c := by
  induction n generalizing m p before pre with
  | zero => exact absurd hlog.symm (List.append_ne_nil_of_right_ne_nil _ (List.cons_ne_nil _ _))
  | succ n ih =>
    cases hc : buf[p]? with
    | none =>
      rw [Machine.log_end hc] at hlog
      exact absurd hlog.symm (List.append_ne_nil_of_right_ne_nil _ (List.cons_ne_nil _ _))
    | some c =>
      have hfirst : ∀ post', m.round k buf p c :: post' = pre ++ x :: post → pre = [] →
          ∃ m' q c, Inv k buf (before ++ pre) m' q ∧ buf[q]? = some c ∧ x = m'.round k buf q c := by
        rintro post' hlog rfl
        obtain ⟨rfl, -⟩ := List.cons.inj hlog
        exact ⟨m, p, c, by rw [List.append_nil]; exact h, hc, rfl⟩
      by_cases hgoing : ∃ mp, m.advance buf p c = .ok (some mp)
      · obtain ⟨⟨m₁, p₁⟩, hadv⟩ := hgoing
        rw [Machine.log_going hc hadv] at hlog
        cases pre with
        | nil => exact hfirst _ hlog rfl
        | cons y pre =>
          obtain ⟨rfl, htail⟩ := List.cons.inj hlog
          obtain ⟨hy, hrest⟩ := honce.cons
          have := ih ((h.round_right hc hy).2 m₁ p₁ hadv) htail hrest
          rwa [List.append_assoc] at this
      · rw [Machine.log_stops hc fun mp hmp => hgoing ⟨mp, hmp⟩] at hlog
        cases pre with
        | nil => exact hfirst _ hlog rfl
        | cons y pre =>
          obtain ⟨-, hlog⟩ := List.cons.inj hlog
          exact absurd hlog.symm (List.append_ne_nil_of_right_ne_nil _ (List.cons_ne_nil _ _))

/-- The parser where an execution ends: at the end of the buffer, or at a character without a
transition. -/
theorem Inv.of_exec (h : Inv k buf before m p) (hexec : m.exec buf n p = .ok (some (m', q, .ended)))
    (honce : OnceBehind before (m.log k buf n p)) :
    Inv k buf (before ++ m.log k buf n p) m' q := by
  induction n generalizing m p before with
  | zero => cases hexec
  | succ n ih =>
    cases hc : buf[p]? with
    | none =>
      rw [Machine.exec_end hc] at hexec
      obtain ⟨rfl, hrest⟩ := Prod.mk.inj (Option.some.inj (Except.ok.inj hexec))
      obtain ⟨rfl, -⟩ := Prod.mk.inj hrest
      rw [Machine.log_end hc, List.append_nil]
      exact h
    | some c =>
      rw [Machine.exec_advance hc] at hexec
      obtain ⟨o, hadv, hexec⟩ := bind_ok.mp hexec
      cases o with
      | none =>
        obtain ⟨-, hrest⟩ := Prod.mk.inj (Option.some.inj (Except.ok.inj hexec))
        cases (Prod.mk.inj hrest).2
      | some mp =>
        obtain ⟨m₁, p₁⟩ := mp
        rw [Machine.log_going hc hadv] at honce ⊢
        obtain ⟨hfirst, hrest⟩ := honce.cons
        have := ih ((h.round_right hc hfirst).2 m₁ p₁ hadv) hexec hrest
        rwa [List.append_assoc] at this

/-- The automaton is stuck at a character. -/
theorem exec_stuck (h : m.exec buf n p = .ok (some (m', q, .stuck))) : q < buf.length := by
  induction n generalizing m p with
  | zero => cases h
  | succ n ih =>
    cases hc : buf[p]? with
    | none =>
      rw [Machine.exec_end hc] at h
      cases h
    | some c =>
      rw [Machine.exec_advance hc] at h
      obtain ⟨o, hadv, h⟩ := bind_ok.mp h
      cases o with
      | none =>
        obtain ⟨-, hrest⟩ := Prod.mk.inj (Option.some.inj (Except.ok.inj h))
        obtain ⟨rfl, -⟩ := Prod.mk.inj hrest
        exact (List.getElem?_eq_some_iff.mp hc).1
      | some mp => exact ih h

/-- Where a buffer is left for the next one. -/
theorem parse_going (h : m.parse n buf = .going m') : ∃ m₁ builder,
    Machine.exec buf (2 * buf.length + 2) { m with builder := m.builder.enter } 0 =
      .ok (some (m₁, buf.length, .ended)) ∧ m₁.builder.leave buf = .ok builder ∧
      m' = { m₁.atEof buf with builder } := by
  rw [Machine.parse] at h
  cases hexec : Machine.exec buf (2 * buf.length + 2) { m with builder := m.builder.enter } 0 with
  | error f =>
    rw [hexec] at h
    cases h
  | ok o =>
    cases o with
    | none =>
      rw [hexec] at h
      cases h
    | some result =>
      obtain ⟨m₁, q, exit⟩ := result
      rw [hexec] at h
      cases hleave : m₁.builder.leave buf with
      | error f =>
        simp only [hleave] at h
        cases h
      | ok builder =>
        simp only [hleave] at h
        split at h
        · cases h
        · split at h
          · cases h
          · rename_i hq
            obtain rfl := Progress.going.inj h
            obtain rfl := not_not.mp hq
            cases exit with
            | ended => exact ⟨m₁, builder, rfl, hleave, rfl⟩
            | stuck => exact absurd (exec_stuck hexec) (Nat.lt_irrefl _)

theorem atEof_place (buf : Bytes) (m : Machine) : (m.atEof buf).place = m.place := by
  rw [Machine.atEof]
  split <;> rfl

/-- The rounds in a buffer, and those in the buffers behind it. -/
theorem logs_cons (more k : Nat) (m : Machine) (buf : Bytes) (bufs : List Bytes) :
    m.logs more k (buf :: bufs) =
      { m with builder := m.builder.enter }.log k buf (2 * buf.length + 2 + more) 0 ∧
        (∀ m', m.parse 0 buf ≠ .going m') ∨
    ∃ m', m.parse 0 buf = .going m' ∧ m.logs more k (buf :: bufs) =
      { m with builder := m.builder.enter }.log k buf (2 * buf.length + 2) 0 ++
        m'.logs more (k + 1) bufs := by
  rw [Machine.logs]
  cases hparse : m.parse 0 buf with
  | stopped o => exact Or.inl ⟨List.append_nil _, fun m' h => by cases h⟩
  | going m' =>
    obtain ⟨m₁, builder, hexec, -⟩ := parse_going hparse
    exact Or.inr ⟨m', rfl, by rw [Machine.log_more hexec]⟩

/-- A step of the history is a round of a parser that satisfies the invariant. -/
theorem Rest.of_logs {more : Nat} {bufs : List Bytes} (h : Rest before m)
    (hlogs : m.logs more k bufs = pre ++ x :: post) (honce : OnceBehind before pre) :
    ∃ k buf m' q c, Inv k buf (before ++ pre) m' q ∧ buf[q]? = some c ∧ x = m'.round k buf q c := by
  induction bufs generalizing k m before pre with
  | nil => exact absurd hlogs.symm (List.append_ne_nil_of_right_ne_nil _ (List.cons_ne_nil _ _))
  | cons buf bufs ih =>
    have hinv := h.enter k buf
    rcases logs_cons more k m buf bufs with ⟨hlog, -⟩ | ⟨m', hparse, hlog⟩
    · obtain ⟨m', q, c, hfound⟩ := hinv.of_log (hlog.symm.trans hlogs) honce
      exact ⟨k, buf, m', q, c, hfound⟩
    · rw [hlog] at hlogs
      rcases split_append hlogs with ⟨ds, hfirst⟩ | ⟨ds, rfl, hrest⟩
      · obtain ⟨m', q, c, hfound⟩ := hinv.of_log hfirst honce
        exact ⟨k, buf, m', q, c, hfound⟩
      · obtain ⟨hbuf, htail⟩ := honce.append
        obtain ⟨m₁, builder, hexec, hleave, rfl⟩ := parse_going hparse
        have hend := (hinv.of_exec hexec hbuf).leave hleave (m₁.atEof buf).regs
        rw [← atEof_place buf m₁] at hend
        have := ih hend hrest htail
        rwa [List.append_assoc] at this

theorem rest_init (regs : Registers) : Rest [] (init regs) :=
  ⟨rfl, iff_of_false (not_not_intro rfl) Bool.false_ne_true, fun e he => absurd he List.not_mem_nil⟩

/-- Tokens are well formed exactly in the histories that leave no last key a second time: no space
and no carriage return is read in a key that may end its command behind the first carriage return
in it. -/
theorem tokens_iff (regs : Registers) (more : Nat) (bufs : List Bytes) :
    Tokens (history regs more bufs) ↔ History Step.LeavesOnce (history regs more bufs) := by
  rw [tokens_iff_right]
  refine History.congr fun pre x post hsplit honce => ?_
  obtain ⟨k, buf, m, q, c, hinv, hc, rfl⟩ := (rest_init regs).of_logs hsplit honce
  exact hinv.right_iff hc

/-- `"get a\r b"`: the key is left at the carriage return, and at the space again. -/
theorem tokens_left_twice :
    ¬ ∀ (regs : Registers) (more : Nat) (bufs : List Bytes), Tokens (history regs more bufs) := by
  intro h
  have hlog : ∃ pre x, history {} 0 [ascii "get a\r b"] = pre ++ [x] ∧
      ⟨{}, .action .takeKey⟩ ∈ x.calls := by
    refine ⟨(history {} 0 [ascii "get a\r b"]).take 6,
      ⟨0, .lastKey .get .cr, 32, 6, [⟨{}, .action .takeKey⟩]⟩, ?_, List.mem_cons_self⟩
    decide +kernel
  obtain ⟨pre, x, hsplit, hcall⟩ := hlog
  obtain ⟨s, hs, -⟩ := (h {} 0 [ascii "get a\r b"]).1 pre x [] hsplit _ hcall rfl
  cases hs

end Seastar.Memcached.Parser
