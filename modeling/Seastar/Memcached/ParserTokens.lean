import Seastar.Lib.History
import Seastar.Memcached.ParserBuffers

/-!
The tokens of the parser of `apps/memcached/ascii.rl`. Where an action ends a token, its start was
marked in the same buffer or its beginning was kept from an earlier one, and each leaving action runs
once for a token, with one exception: a last key is left at its first carriage return, and goes on.
If it is left again, there is no start.
-/

namespace Seastar.Memcached.Parser

open Lib

/-! ## What the parser does, in the order in which it does it -/

/-- An action, those of a blob included. -/
inductive Event
  | action (a : Action)
  /-- `start_blob` -/
  | startBlob
  /-- `_blob = str()` -/
  | takeBlob
  deriving DecidableEq, Repr

/-- The events that use `str()`. -/
def Event.takes : Event → Bool
  | .action a => a.takes
  | .startBlob => false
  | .takeBlob => true

/-- The events that use `mark_start`. -/
def Event.marks : Event → Bool
  | .action a => a == .mark
  | .startBlob => true
  | .takeBlob => false

/-- The action that enters the token that a leaving action leaves. -/
def Action.entering : Action → Option Action
  | .takeKey => some .mark
  | .pushKey => some .mark
  | .takeFlags => some .mark
  | .takeSize => some .mark
  | .setExpiration => some .zeroU32
  | .setVersion => some .zeroU64
  | _ => none

def Event.entering : Event → Option Event
  | .action a => a.entering.map .action
  | .startBlob => none
  | .takeBlob => some .startBlob

/-- An event and the builder it finds. -/
structure Call where
  builder : Builder
  event : Event
  deriving DecidableEq, Repr

/-- A step of the automaton in a buffer: where it was, the character with its position, and the
actions. -/
structure Step where
  buffer : Nat
  place : Place
  char : UInt8
  pos : Nat
  calls : List Call
  deriving DecidableEq, Repr

def Step.events (x : Step) : List Event := x.calls.map (·.event)

def allEvents (steps : List Step) : List Event := steps.flatMap Step.events

namespace Machine

/-- One round of the automaton at the character `c`; `none` where it has no transition. -/
def advance (buf : Bytes) (p : Nat) (c : UInt8) (m : Machine) :
    Except Fault (Option (Machine × Nat)) :=
  match m.place with
  | .blobStart v =>
    some <$> { m with
      builder := { m.builder with start := some p }
      regs := { m.regs with sizeLeft := m.regs.size } }.advanceBlob buf p v
  | .blob v => some <$> m.advanceBlob buf p v
  | place =>
    match transition place c with
    | none => .ok none
    | some (actions, next) => do
      let m ← actions.foldlM (perform buf p c) m
      .ok (some ({ m with place := next }, p + 1))

/-- The actions that are performed, up to one that throws. -/
def performed (buf : Bytes) (p : Nat) (c : UInt8) : Machine → List Action → List Call
  | _, [] => []
  | m, a :: actions => ⟨m.builder, .action a⟩ ::
    match m.perform buf p c a with
    | .error _ => []
    | .ok m => performed buf p c m actions

/-- `advance_blob` comes to the end of the blob, of which `left` bytes are left. -/
def endsBlob (buf : Bytes) (p : Nat) (left : UInt32) : Bool :=
  left - min (UInt32.ofNat (buf.length - p)) left = 0

/-- The actions of a round. -/
def calls (buf : Bytes) (p : Nat) (c : UInt8) (m : Machine) : List Call :=
  match m.place with
  | .blobStart _ => ⟨m.builder, .startBlob⟩ ::
    if endsBlob buf p m.regs.size then [⟨{ m.builder with start := some p }, .takeBlob⟩] else []
  | .blob _ => if endsBlob buf p m.regs.sizeLeft then [⟨m.builder, .takeBlob⟩] else []
  | place =>
    match transition place c with
    | none => []
    | some (actions, _) => m.performed buf p c actions

/-- The round at the character `c` as a step, in the buffer `k`. -/
def round (k : Nat) (buf : Bytes) (p : Nat) (c : UInt8) (m : Machine) : Step :=
  ⟨k, m.place, c, p, m.calls buf p c⟩

/-- The rounds in a buffer, as many of them as are asked for. -/
def log (k : Nat) (buf : Bytes) : Nat → Machine → Nat → List Step
  | 0, _, _ => []
  | rounds + 1, m, p =>
    match buf[p]? with
    | none => []
    | some c => m.round k buf p c ::
      match m.advance buf p c with
      | .error _ => []
      | .ok none => []
      | .ok (some (m, p)) => log k buf rounds m p

/-- The rounds in some buffers from the buffer `k` on. `parse` gives a buffer as many rounds as it
takes to leave it; with less than 2^32 bytes in a blob it is left, and `more` rounds make no
difference. -/
def logs (more : Nat) : Nat → Machine → List Bytes → List Step
  | _, _, [] => []
  | k, m, buf :: bufs =>
    { m with builder := m.builder.enter }.log k buf (2 * buf.length + 2 + more) 0 ++
      match m.parse 0 buf with
      | .stopped _ => []
      | .going m => logs more (k + 1) m bufs

end Machine

/-- The rounds behind `init()`. -/
def history (regs : Registers) (more : Nat) (bufs : List Bytes) : List Step :=
  (init regs).logs more 0 bufs

/-! ## Well-formed tokens -/

/-- The step uses `mark_start`. -/
def Step.Marked (x : Step) : Prop := ∃ e ∈ x.events, e.marks = true

/-- The start of the text that a call takes was marked in its buffer, and nothing was kept before;
or the beginning was kept from an earlier buffer, and the text goes on at the start of this one. -/
def Step.Started (before : List Step) (x : Step) : Prop :=
  ∀ call ∈ x.calls, call.event.takes = true → ∃ s, call.builder.start = some s ∧ s ≤ x.pos ∧
    ((∃ y ∈ before ++ [x], y.buffer = x.buffer ∧ y.pos = s ∧ y.Marked) ∧
        call.builder.value = [] ∨
      s = 0 ∧ call.builder.value ≠ [])

/-- A leaving action has not run since its token was entered. -/
def Event.Once (before : List Event) (e : Event) : Prop :=
  ∀ s, e.entering = some s → Since s e before

/-- Every text that is taken has a start, and every leaving action runs once for a token. -/
def Tokens (steps : List Step) : Prop :=
  History Step.Started steps ∧ History Event.Once (allEvents steps)

/-- In a key that may end the command. -/
def Place.isLast : Place → Bool
  | .lastKey _ _ => true
  | _ => false

/-- A carriage return has been read in the last key, behind its first character. -/
def wasLeft (steps : List Step) : Bool :=
  (steps.reverse.takeWhile (·.place.isLast)).any (·.char == 13)

/-- No space and no carriage return is read in a last key behind its first carriage return. -/
def Step.LeavesOnce (before : List Step) (x : Step) : Prop :=
  x.place.isLast = true → x.char = 13 ∨ x.char = 32 → wasLeft before = false

variable {buf : Bytes} {p q n k : Nat} {c : UInt8} {m m' : Machine} {v : Verb}
  {place next : Place} {exit : Machine.Exit} {actions : List Action} {es : List Event} {l A B : List Event} {e : Event}

/-! ## The automaton by its rounds -/

theorem Machine.exec_end (h : buf[p]? = none) (n : Nat) (m : Machine) :
    m.exec buf (n + 1) p = .ok (some (m, p, .ended)) := by
  rw [exec, h]

theorem Machine.exec_advance (hc : buf[p]? = some c) (n : Nat) (m : Machine) :
    m.exec buf (n + 1) p = m.advance buf p c >>= fun o =>
      o.elim (.ok (some (m, p, .stuck))) fun x => exec buf n x.1 x.2 := by
  rw [exec, advance, hc]
  dsimp only
  cases hp : m.place with
  | blobStart v =>
    dsimp only
    cases advanceBlob buf p v _ <;> rfl
  | blob v =>
    dsimp only
    cases advanceBlob buf p v m <;> rfl
  | _ =>
    dsimp only
    cases transition _ c with
    | none => rfl
    | some result =>
      obtain ⟨actions, next⟩ := result
      dsimp only
      cases actions.foldlM (perform buf p c) m <;> rfl

theorem Machine.log_end (h : buf[p]? = none) (n : Nat) (m : Machine) :
    m.log k buf (n + 1) p = [] := by
  rw [log, h]

theorem Machine.log_going (hc : buf[p]? = some c) (hadv : m.advance buf p c = .ok (some (m', q)))
    (n : Nat) : m.log k buf (n + 1) p = m.round k buf p c :: m'.log k buf n q := by
  rw [log, hc]
  dsimp only
  rw [hadv]

theorem Machine.log_stops (hc : buf[p]? = some c) (hadv : ∀ x, m.advance buf p c ≠ .ok (some x))
    (n : Nat) : m.log k buf (n + 1) p = [m.round k buf p c] := by
  rw [log, hc]
  dsimp only
  cases h : m.advance buf p c with
  | error f => rfl
  | ok o =>
    cases o with
    | none => rfl
    | some x => exact absurd h (hadv x)

/-- The rounds of an execution that comes to an end are no more when more are asked for. -/
theorem Machine.log_more (h : m.exec buf n p = .ok (some (m', q, exit))) (more : Nat) :
    m.log k buf (n + more) p = m.log k buf n p := by
  induction n generalizing m p with
  | zero => cases h
  | succ n ih =>
    rw [Nat.add_right_comm, log, log]
    cases hc : buf[p]? with
    | none => rfl
    | some c =>
      dsimp only
      rw [exec_advance hc] at h
      cases hadv : m.advance buf p c with
      | error f => rfl
      | ok o =>
        cases o with
        | none => rfl
        | some x =>
          rw [hadv] at h
          exact congrArg _ (ih h)

/-! ## What a transition does to the tokens -/

/-- The token of a leaving action is entered, and not left. -/
def Event.Armed (l : List Event) (e : Event) : Prop := ∃ s, e.entering = some s ∧ Since s e l

/-- The leaving actions of the tokens that an event enters. -/
def Event.entered : Event → List Event
  | .action .mark => [.action .takeKey, .action .pushKey, .action .takeFlags, .action .takeSize]
  | .action .zeroU32 => [.action .setExpiration]
  | .action .zeroU64 => [.action .setVersion]
  | .startBlob => [.takeBlob]
  | _ => []

/-- Of the leaving actions that may run, those that may behind some events; `none` where one of
the events is a leaving action that may not run. -/
def after (A : List Event) : List Event → Option (List Event)
  | [] => some A
  | e :: es =>
    if e.entering.isSome then if e ∈ A then after (A.filter (· ≠ e)) es else none
    else after (e.entered ++ A) es

/-- With the leaving actions `A`, the events run, and the leaving actions `B` may run behind them. -/
def Allows (A es B : List Event) : Bool := (after A es).any fun C => B.all (· ∈ C)

theorem armed_concat {f : Event} (h : f.Armed l) (hne : e ≠ f) : f.Armed (l ++ [e]) := by
  obtain ⟨s, hs, hsince⟩ := h
  exact ⟨s, hs, hsince.concat hne⟩

theorem armed_entered {f : Event} (h : f ∈ e.entered) : f.Armed (l ++ [e]) := by
  have hs : f.entering = some e := by
    cases e with
    | action a => cases a <;> simp [Event.entered] at h <;> grind [Event.entering, Action.entering]
    | startBlob =>
      obtain rfl := List.mem_singleton.mp h
      rfl
    | takeBlob => cases h
  exact ⟨e, hs, since_opened l⟩

theorem once_of_after {C : List Event} (hA : ∀ f ∈ A, f.Armed l) (h : after A es = some C) :
    History (fun ds e => Event.Once (l ++ ds) e) es ∧ ∀ f ∈ C, f.Armed (l ++ es) := by
  induction es generalizing A l with
  | nil =>
    obtain rfl := Option.some.inj h
    rw [List.append_nil]
    exact ⟨History.nil, hA⟩
  | cons e es ih =>
    rw [after] at h
    have hnext : ∀ A', (∀ f ∈ A', f.Armed (l ++ [e])) → after A' es = some C →
        History (fun ds e' => Event.Once (l ++ (e :: ds)) e') es ∧ ∀ f ∈ C, f.Armed (l ++ e :: es) := by
      intro A' hA' h'
      have := ih hA' h'
      simpa only [List.append_assoc, List.singleton_append] using this
    by_cases hleaving : e.entering.isSome = true
    · rw [if_pos hleaving] at h
      by_cases hmem : e ∈ A
      · rw [if_pos hmem] at h
        obtain ⟨hist, hC⟩ := hnext _ (fun f hf => by
          obtain ⟨hfA, hne⟩ := List.mem_filter.mp hf
          exact armed_concat (hA f hfA) (Ne.symm (of_decide_eq_true hne))) h
        refine ⟨History.cons.mpr ⟨?_, hist⟩, hC⟩
        obtain ⟨s, hs, hsince⟩ := hA e hmem
        intro s' hs'
        obtain rfl := Option.some.inj (hs.symm.trans hs')
        rw [List.append_nil]
        exact hsince
      · cases (if_neg hmem).symm.trans h
    · rw [if_neg hleaving] at h
      have hnone : e.entering = none := Option.not_isSome_iff_eq_none.mp hleaving
      obtain ⟨hist, hC⟩ := hnext _ (fun f hf => by
        rcases List.mem_append.mp hf with hf | hf
        · exact armed_entered hf
        · refine armed_concat (hA f hf) ?_
          rintro rfl
          obtain ⟨s, hs, -⟩ := hA e hf
          cases hnone.symm.trans hs) h
      refine ⟨History.cons.mpr ⟨fun s hs => ?_, hist⟩, hC⟩
      cases hnone.symm.trans hs

theorem once_of_allows (hA : ∀ f ∈ A, f.Armed l) (h : Allows A es B = true) :
    History (fun ds e => Event.Once (l ++ ds) e) es ∧ ∀ f ∈ B, f.Armed (l ++ es) := by
  obtain ⟨C, hC, hB⟩ := (Option.any_eq_true _ _).mp h
  obtain ⟨hist, harmed⟩ := once_of_after hA hC
  exact ⟨hist, fun f hf => harmed f (of_decide_eq_true (List.all_eq_true.mp hB f hf))⟩

/-- The leaving actions of the state of the automaton; a last key that is left has none. -/
def Place.exits : Place → Bool → List Event
  | .key _, _ => [.action .takeKey]
  | .lastKey v _, wasLeft =>
    if wasLeft then [] else (v.leaveKey.map .action).filter (·.entering.isSome)
  | .flags _, _ => [.action .takeFlags]
  | .expiration _, _ => [.action .setExpiration]
  | .flushExpiration, _ => [.action .setExpiration]
  | .size _, _ => [.action .takeSize]
  | .versionField, _ => [.action .setVersion]
  | .blob _, _ => [.takeBlob]
  | _, _ => []

/-- A text is being collected. -/
def Place.holds (place : Place) (wasLeft : Bool) : Bool := place.collects && !wasLeft

/-- What a transition does: it enters a token or leaves one or none, and runs no leaving action of
another. -/
structure Effect (place : Place) (b : Bool) (actions : List Action) (next : Place) (b' : Bool) :
    Prop where
  text : (∃ rest, actions = .mark :: rest ∧ Quiet rest ∧ place.holds b = false ∧
      next.holds b' = true) ∨
    (∃ a rest, actions = a :: rest ∧ a.takes = true ∧ Quiet rest ∧ place.holds b = true ∧
      next.holds b' = false) ∨ Quiet actions ∧ next.holds b' = place.holds b
  allows : Allows (place.exits b) (actions.map .action) (next.exits b') = true

/-- Outside of last keys, all transitions have their effect. -/
def Orderly (place : Place) (result : Option (List Action × Place)) : Prop :=
  ∀ actions next, result = some (actions, next) → Effect place false actions next false

theorem Orderly.none : Orderly place .none := by
  intro actions next h
  cases h

theorem Orderly.some (h : Effect place false actions next false) :
    Orderly place (some (actions, next)) := by
  intro actions' next' h'
  obtain ⟨rfl, rfl⟩ := Prod.mk.inj (Option.some.inj h')
  exact h

theorem Orderly.ite {c : Prop} [Decidable c] {x y : Option (List Action × Place)}
    (hx : Orderly place x) (hy : Orderly place y) : Orderly place (if c then x else y) := by
  split
  · exact hx
  · exact hy

theorem Orderly.enter {rest : List Action} (hrest : Quiet rest)
    (hplace : place.holds false = false) (hnext : next.holds false = true)
    (h : Allows (place.exits false) ((.mark :: rest).map .action) (next.exits false) = true) :
    Orderly place (.some (.mark :: rest, next)) :=
  .some ⟨Or.inl ⟨rest, rfl, hrest, hplace, hnext⟩, h⟩

theorem Orderly.leave {a : Action} {rest : List Action} (ha : a.takes = true) (hrest : Quiet rest)
    (hplace : place.holds false = true) (hnext : next.holds false = false)
    (h : Allows (place.exits false) ((a :: rest).map .action) (next.exits false) = true) :
    Orderly place (.some (a :: rest, next)) :=
  .some ⟨Or.inr (Or.inl ⟨a, rest, rfl, ha, hrest, hplace, hnext⟩), h⟩

theorem Orderly.quiet (hq : Quiet actions) (hsame : next.holds false = place.holds false)
    (h : Allows (place.exits false) (actions.map .action) (next.exits false) = true) :
    Orderly place (.some (actions, next)) :=
  .some ⟨Or.inr (Or.inr ⟨hq, hsame⟩), h⟩

theorem orderly_afterWord {w : Bytes} : Orderly (.word w) (afterWord v c) := by
  cases v
  case flushAll =>
    exact .ite (.quiet (by decide) rfl rfl) (.ite (.quiet (by decide) rfl rfl) .none)
  all_goals exact .ite (.quiet (by decide) rfl rfl) .none

theorem orderly_transition (hlast : place.isLast = false) (c : UInt8) :
    Orderly place (transition place c) := by
  cases place with
  | word w =>
    refine .ite (.quiet (by decide) rfl rfl) ?_
    cases verbs.find? (·.word = w) with
    | none => exact .none
    | some v => exact orderly_afterWord
  | keyStart v =>
    refine .ite .none ?_
    cases v <;> exact .enter (by decide) rfl rfl (by decide)
  | key v =>
    refine .ite ?_ (.quiet (by decide) rfl rfl)
    cases v <;> exact .leave rfl (by decide) rfl rfl rfl
  | lastKey v crlf => cases hlast
  | flagsStart v => exact .ite (.enter (by decide) rfl rfl rfl) .none
  | flags v =>
    exact .ite (.quiet (by decide) rfl rfl) (.ite (.leave rfl (by decide) rfl rfl rfl) .none)
  | expirationStart v => exact .ite (.quiet (by decide) rfl rfl) .none
  | expiration v =>
    exact .ite (.quiet (by decide) rfl rfl) (.ite (.quiet (by decide) rfl rfl) .none)
  | sizeStart v => exact .ite (.enter (by decide) rfl rfl rfl) .none
  | size v =>
    refine .ite (.quiet (by decide) rfl rfl)
      (.ite (.ite (.leave rfl (by decide) rfl rfl rfl) .none) ?_)
    refine .ite (.leave rfl (by decide) rfl rfl rfl) (.ite ?_ .none)
    cases v <;> exact .leave rfl (by decide) rfl rfl rfl
  | versionStart => exact .ite (.quiet (by decide) rfl rfl) .none
  | versionField =>
    exact .ite (.quiet (by decide) rfl rfl) (.ite (.quiet (by decide) rfl rfl)
      (.ite (.quiet (by decide) rfl rfl) .none))
  | u64Start v => exact .ite (.quiet (by decide) rfl rfl) .none
  | u64 v =>
    refine .ite (.quiet (by decide) rfl rfl) (.ite (.quiet (by decide) rfl rfl) (.ite ?_ .none))
    cases v <;> exact .quiet (by decide) rfl rfl
  | flushArgument =>
    exact .ite (.quiet (by decide) rfl rfl) (.ite (.quiet (by decide) rfl rfl) .none)
  | flushExpiration =>
    exact .ite (.quiet (by decide) rfl rfl) (.ite (.quiet (by decide) rfl rfl)
      (.ite (.quiet (by decide) rfl rfl) .none))
  | noreply v n =>
    exact .ite (.ite (.quiet (by decide) rfl rfl) (.quiet (by decide) rfl rfl)) .none
  | noreplyEnd v =>
    refine .ite ?_ .none
    cases v <;> exact .quiet (by decide) rfl rfl
  | blobCall v => exact .ite (.quiet (by decide) rfl rfl) .none
  | blobEnd v => exact .ite (.quiet (by decide) rfl rfl) .none
  | crlf v => exact .ite (.quiet (quiet_accept v) rfl rfl) .none
  | blobStart v => exact .none
  | blob v => exact .none
  | done => exact .none

/-- The leaving actions of a last key. -/
theorem leaveKey_eq (v : Verb) : ∃ rest, v.leaveKey = .takeKey :: rest ∧ Quiet rest := by
  cases v <;> exact ⟨_, rfl, by decide⟩

/-- A last key that goes on. -/
theorem effect_goesOn {crlf crlf' : Crlf} (b : Bool) (hq : Quiet actions)
    (h : ∀ A, Allows A (actions.map .action) A = true) :
    Effect (.lastKey v crlf) b actions (.lastKey v crlf') b :=
  ⟨Or.inr (Or.inr ⟨hq, rfl⟩), h _⟩

theorem allows_accept (v : Verb) (A : List Event) :
    Allows A [.action (.accept v)] A = true := by
  have hquiet : (Event.action (.accept v)).entering.isSome = false := rfl
  rw [Allows, after, hquiet, if_neg Bool.false_ne_true, after]
  simp [Event.entered]

theorem allows_nil (A : List Event) : Allows A [] A = true := by
  simp [Allows, after]

/-- A last key is left at a carriage return or a space, if it is not left before. -/
theorem effect_lastKey {crlf : Crlf} {b : Bool} (h : c = 13 ∨ c = 32 → b = false)
    (ht : transition (.lastKey v crlf) c = some (actions, next)) :
    Effect (.lastKey v crlf) b actions next (next.isLast && (c == 13 || b)) := by
  obtain ⟨rest, hleave, hrest⟩ := leaveKey_eq v
  rw [transition] at ht
  by_cases hspace : c = 32
  · obtain ⟨rfl, rfl⟩ := Prod.mk.inj (Option.some.inj ((if_pos hspace).symm.trans ht))
    obtain rfl := h (Or.inr hspace)
    refine ⟨Or.inr (Or.inl ⟨_, rest, hleave, rfl, hrest, rfl, ?_⟩), ?_⟩
    · split <;> rfl
    · cases v <;> rfl
  · rw [if_neg hspace] at ht
    by_cases hcr : c = 13
    · obtain ⟨rfl, rfl⟩ := Prod.mk.inj (Option.some.inj ((if_pos hcr).symm.trans ht))
      obtain rfl := h (Or.inl hcr)
      subst hcr
      refine ⟨Or.inr (Or.inl ⟨_, rest, hleave, rfl, hrest, rfl, rfl⟩), ?_⟩
      cases v <;> rfl
    · have hfalse : (c == 13) = false := beq_eq_false_iff_ne.mpr hcr
      rw [if_neg hcr] at ht
      split at ht
      · obtain ⟨rfl, rfl⟩ := Prod.mk.inj (Option.some.inj ht)
        rw [hfalse]
        exact effect_goesOn b (quiet_accept v) (allows_accept v)
      · obtain ⟨rfl, rfl⟩ := Prod.mk.inj (Option.some.inj ht)
        rw [hfalse]
        exact effect_goesOn b (by decide) allows_nil

end Seastar.Memcached.Parser
