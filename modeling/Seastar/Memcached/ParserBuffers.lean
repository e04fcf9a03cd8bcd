import Mathlib.Data.UInt
import Seastar.Lib.UInt
import Seastar.Memcached.AsciiParser

/-!
Feeding the parser byte by byte. A reader has the text of a key or a blob itself instead of a
pointer and a copy, and takes one byte at a time; so it does not know of buffers. A parser that
is given a buffer does what the reader does with its bytes, with two exceptions. A command that ends
with a key does not stop the automaton, so bytes behind it in the buffer are read as more of its key.
And the bytes that are left are counted by a `uint32_t` in a blob.
-/

namespace Seastar.Memcached.Parser

open Lib

/-! ## The reader -/

/-- The parser without buffers: the text that is collected is kept as it is. -/
structure Reader where
  place : Place := .word []
  regs : Registers := {}
  captured : Option Bytes := none
  deriving DecidableEq, Repr

namespace Reader

/-- One action at the character `c`. -/
def perform (c : UInt8) (r : Reader) (a : Action) : Except Fault Reader :=
  if a = .mark then .ok { r with captured := some [] }
  else if a.takes then
    match r.captured with
    | none => .error .sstringOverflow
    | some text => .ok { r with regs := a.apply c text r.regs, captured := none }
  else .ok { r with regs := a.apply c [] r.regs }

/-- A character outside of a blob. -/
def plain (c : UInt8) (r : Reader) : Progress Reader :=
  match transition r.place c with
  | none => .stopped (.error r.regs)
  | some (actions, next) =>
    match actions.foldlM (perform c) r with
    | .error f => .stopped (.thrown f)
    | .ok r => .going { r with place := next, captured := r.captured.map (· ++ [c]) }

/-- A byte of a blob. -/
def blobByte (v : Verb) (c : UInt8) (r : Reader) : Reader :=
  let text := r.captured.getD [] ++ [c]
  let left := r.regs.sizeLeft - 1
  if left = 0 then
    { place := .blobEnd v, captured := none, regs := { r.regs with sizeLeft := 0, blob := text } }
  else { place := .blob v, captured := some text, regs := { r.regs with sizeLeft := left } }

/-- `start_blob`. -/
def startBlob (v : Verb) (r : Reader) : Reader :=
  { place := .blob v, captured := some [], regs := { r.regs with sizeLeft := r.regs.size } }

/-- One character. -/
def step (c : UInt8) (r : Reader) : Progress Reader :=
  match r.place with
  | .blobStart v =>
    if r.regs.size = 0 then
      { place := .blobEnd v, captured := none
        regs := { r.regs with sizeLeft := 0, blob := [] } : Reader }.plain c
    else .going ((r.startBlob v).blobByte v c)
  | .blob v => .going (r.blobByte v c)
  | _ => r.plain c

/-- The characters one by one, up to the end of a command. -/
def read : Reader → Nat → Bytes → Progress Reader
  | r, _, [] => .going r
  | r, n, c :: cs =>
    match r.step c with
    | .stopped o => .stopped o
    | .going r =>
      if r.regs.state = .error then read r (n + 1) cs
      else .stopped (.accepted r.regs (n + 1))

/-- The outcome of the characters. -/
def outcome (r : Reader) (n : Nat) (cs : Bytes) : Outcome :=
  match r.read n cs with
  | .going r => .more r.regs
  | .stopped o => o

/-- Bytes of a blob are expected. -/
def Wants (r : Reader) : Prop :=
  (∃ v, r.place = .blobStart v ∧ r.regs.size ≠ 0) ∨ ∃ v, r.place = .blob v

/-- Reading a buffer is the same as reading its bytes: no command ends with a key before the end
of the buffer, and less than 2^32 bytes are left where a blob is read. -/
def Good : Reader → Bytes → Prop
  | _, [] => True
  | r, c :: cs => (r.Wants → cs.length + 1 < 2 ^ 32) ∧ ∀ r', r.step c = .going r' →
      if r'.regs.state = .error then Good r' cs else r'.place = .done ∨ cs = []

end Reader

/-! ## The actions of a transition -/

/-- The actions that leave the collected text alone. -/
def Quiet (actions : List Action) : Prop := ∀ a ∈ actions, a ≠ .mark ∧ a.takes = false

instance (actions : List Action) : Decidable (Quiet actions) :=
  inferInstanceAs (Decidable (∀ a ∈ actions, _))

/-- The states in which a text is collected. -/
def Place.collects : Place → Bool
  | .key _ => true
  | .lastKey _ _ => true
  | .flags _ => true
  | .size _ => true
  | .blob _ => true
  | _ => false

/-- The state in which the bytes of a blob are counted. -/
def Place.inBlob : Place → Bool
  | .blob _ => true
  | _ => false

/-- A transition starts to collect a text, or takes it, or leaves it alone. -/
inductive Kind (place : Place) (actions : List Action) (next : Place) : Prop
  | marks (rest : List Action) (hactions : actions = .mark :: rest) (hrest : Quiet rest)
      (hplace : place.collects = false) (hnext : next.collects = true)
  | takes (a : Action) (rest : List Action) (hactions : actions = a :: rest)
      (ha : a.takes = true) (hrest : Quiet rest)
  | quiet (hquiet : Quiet actions) (hsame : next.collects = place.collects)

/-- A possible transition has a kind, and does not lead into a blob. -/
def Sound (place : Place) (result : Option (List Action × Place)) : Prop :=
  ∀ actions next, result = some (actions, next) → Kind place actions next ∧ next.inBlob = false

theorem Sound.none {place : Place} : Sound place none := by
  intro actions next h
  cases h

theorem Sound.some {place next : Place} {actions : List Action} (h : Kind place actions next)
    (hb : next.inBlob = false) : Sound place (some (actions, next)) := by
  intro actions' next' h'
  obtain ⟨rfl, rfl⟩ := Prod.mk.inj (Option.some.inj h')
  exact ⟨h, hb⟩

theorem Sound.ite {place : Place} {p : Prop} [Decidable p] {x y : Option (List Action × Place)}
    (hx : Sound place x) (hy : Sound place y) : Sound place (if p then x else y) := by
  split
  · exact hx
  · exact hy

/-- A transition with quiet actions, between states that collect no text. -/
theorem Sound.still {place next : Place} {actions : List Action} (hq : Quiet actions)
    (hp : place.collects = false) (hn : next.collects = false) : Sound place (.some (actions, next)) := by
  refine .some (.quiet hq (hn.trans hp.symm)) ?_
  cases next <;> first | rfl | cases hn

/-- A transition that takes the text. -/
theorem Sound.take {place next : Place} {a : Action} {rest : List Action} (ha : a.takes = true)
    (hrest : Quiet rest) (hb : next.inBlob = false) : Sound place (.some (a :: rest, next)) :=
  .some (.takes a rest rfl ha hrest) hb

theorem quiet_accept (v : Verb) : Quiet [.accept v] := by
  cases v <;> decide

theorem sound_afterWord {v : Verb} {c : UInt8} {w : Bytes} : Sound (.word w) (afterWord v c) := by
  cases v
  case flushAll => exact .ite (.still (by decide) rfl rfl) (.ite (.still (by decide) rfl rfl) .none)
  all_goals exact .ite (.still (by decide) rfl rfl) .none

/-- Behind the last field, when its actions leave the text alone. -/
theorem sound_afterFields {place : Place} {actions : List Action} {v : Verb} {c : UInt8}
    (hq : Quiet (actions ++ [.clearNoreply])) (hp : place.collects = false) :
    Sound place (afterFields actions v c) := by
  refine .ite (.still hq hp rfl) (.ite ?_ .none)
  cases v <;> exact .still hq hp rfl

theorem sound_transition (place : Place) (c : UInt8) : Sound place (transition place c) := by
  cases place with
  | word w =>
    refine .ite (.still (by decide) rfl rfl) ?_
    cases verbs.find? (·.word = w) with
    | none => exact .none
    | some v => exact sound_afterWord
  | keyStart v =>
    refine .ite .none ?_
    cases v <;> exact .some (.marks [] rfl (by decide) rfl rfl) rfl
  | key v =>
    refine .ite (.take rfl (by decide) ?_) (.some (.quiet (by decide) rfl) rfl)
    cases v <;> rfl
  | lastKey v crlf =>
    have hleave : ∀ next : Place, next.inBlob = false →
        Sound (.lastKey v crlf) (.some (v.leaveKey, next)) := by
      intro next hb
      cases v <;> exact .take rfl (by decide) hb
    refine .ite (hleave _ ?_) (.ite (hleave _ rfl) (.ite (.some (.quiet (quiet_accept v) rfl) rfl)
      (.some (.quiet (by decide) rfl) rfl)))
    split <;> rfl
  | flagsStart v => exact .ite (.some (.marks [] rfl (by decide) rfl rfl) rfl) .none
  | flags v =>
    exact .ite (.some (.quiet (by decide) rfl) rfl) (.ite (.take rfl (by decide) rfl) .none)
  | expirationStart v => exact .ite (.still (by decide) rfl rfl) .none
  | expiration v =>
    exact .ite (.still (by decide) rfl rfl) (.ite (.still (by decide) rfl rfl) .none)
  | sizeStart v => exact .ite (.some (.marks _ rfl (by decide) rfl rfl) rfl) .none
  | size v =>
    refine .ite (.some (.quiet (by decide) rfl) rfl) (.ite (.ite (.take rfl (by decide) rfl) .none) ?_)
    refine .ite (.take rfl (by decide) rfl) (.ite (.take rfl (by decide) ?_) .none)
    split <;> rfl
  | versionStart => exact .ite (.still (by decide) rfl rfl) .none
  | versionField => exact .ite (.still (by decide) rfl rfl) (sound_afterFields (by decide) rfl)
  | u64Start v => exact .ite (.still (by decide) rfl rfl) .none
  | u64 v => exact .ite (.still (by decide) rfl rfl) (sound_afterFields (by decide) rfl)
  | flushArgument =>
    exact .ite (.still (by decide) rfl rfl) (.ite (.still (by decide) rfl rfl) .none)
  | flushExpiration => exact .ite (.still (by decide) rfl rfl) (sound_afterFields (by decide) rfl)
  | noreply v n =>
    exact .ite (.ite (.still (by decide) rfl rfl) (.still (by decide) rfl rfl)) .none
  | noreplyEnd v =>
    refine .ite ?_ .none
    cases v <;> exact .still (by decide) rfl rfl
  | blobCall v => exact .ite (.still (by decide) rfl rfl) .none
  | blobEnd v => exact .ite (.still (by decide) rfl rfl) .none
  | crlf v => exact .ite (.still (quiet_accept v) rfl rfl) .none
  | blobStart v => exact .none
  | blob v => exact .none
  | done => exact .none

/-! ## What a reader keeps -/

/-- Quiet actions change the registers only. -/
def applyAll (c : UInt8) (actions : List Action) (regs : Registers) : Registers :=
  actions.foldl (fun regs a => a.apply c [] regs) regs

namespace Reader

variable {r r' : Reader} {c : UInt8} {cs ds : Bytes} {n : Nat} {v : Verb}

/-- A text that is collected is not empty, and is there only in the states that collect one; in a
blob there is something left. -/
structure WellFormed (r : Reader) : Prop where
  nonempty : r.captured ≠ some []
  idle : r.place.collects = false → r.captured = none
  blob : r.place.inBlob = true → r.regs.sizeLeft ≠ 0 ∧ r.captured ≠ none

theorem perform_quiet {actions : List Action} (h : Quiet actions) (c : UInt8) (r : Reader) :
    actions.foldlM (perform c) r = .ok { r with regs := applyAll c actions r.regs } := by
  induction actions generalizing r with
  | nil => rfl
  | cons a actions ih =>
    obtain ⟨hm, ht⟩ := h a List.mem_cons_self
    have hstep : r.perform c a = .ok { r with regs := a.apply c [] r.regs } := by
      rw [perform, if_neg hm, ht, if_neg Bool.false_ne_true]
    rw [List.foldlM_cons, hstep, ok_bind, ih fun b hb => h b (List.mem_cons_of_mem _ hb)]
    rfl

theorem perform_marks {rest : List Action} (h : Quiet rest) (c : UInt8) (r : Reader) :
    (.mark :: rest).foldlM (perform c) r =
      .ok { r with captured := some [], regs := applyAll c rest r.regs } := by
  rw [List.foldlM_cons, show r.perform c .mark = .ok { r with captured := some [] } from rfl,
    ok_bind, perform_quiet h]

theorem perform_takes {a : Action} {rest : List Action} (ha : a.takes = true) (h : Quiet rest)
    (c : UInt8) (r : Reader) :
    (a :: rest).foldlM (perform c) r =
      match r.captured with
      | none => .error .sstringOverflow
      | some text =>
        .ok { r with regs := applyAll c rest (a.apply c text r.regs), captured := none } := by
  have hm : a ≠ .mark := by
    rintro rfl
    cases ha
  rw [List.foldlM_cons, perform, if_neg hm, if_pos ha]
  cases r.captured with
  | none => rfl
  | some text =>
    dsimp only
    rw [ok_bind, perform_quiet h]

/-- A character outside of a blob keeps the reader well formed. -/
theorem WellFormed.plain (h : r.WellFormed) (hp : r.plain c = .going r') : r'.WellFormed := by
  cases ht : transition r.place c with
  | none =>
    simp only [Reader.plain, ht] at hp
    cases hp
  | some result =>
    obtain ⟨actions, next⟩ := result
    obtain ⟨hkind, hblob⟩ := sound_transition r.place c actions next ht
    simp only [Reader.plain, ht] at hp
    have hmap : ∀ t : Option Bytes, t.map (· ++ [c]) ≠ some [] := by
      rintro (- | t) <;> simp
    have hnot : next.inBlob = true → ∀ {p : Prop}, p :=
      fun hb => absurd (hblob.symm.trans hb) (by decide)
    cases hkind with
    | marks rest hactions hrest hplace hnext =>
      subst hactions
      simp only [perform_marks hrest] at hp
      obtain rfl := Progress.going.inj hp
      refine ⟨hmap (some []), fun hn => ?_, fun hb => hnot hb⟩
      exact absurd (hnext.symm.trans hn) (by decide)
    | takes a rest hactions ha hrest =>
      subst hactions
      cases hc : r.captured with
      | none =>
        simp only [perform_takes ha hrest, hc] at hp
        cases hp
      | some text =>
        simp only [perform_takes ha hrest, hc] at hp
        obtain rfl := Progress.going.inj hp
        exact ⟨hmap none, fun _ => rfl, fun hb => hnot hb⟩
    | quiet hquiet hsame =>
      simp only [perform_quiet hquiet] at hp
      obtain rfl := Progress.going.inj hp
      refine ⟨hmap _, fun hn => ?_, fun hb => hnot hb⟩
      show r.captured.map _ = none
      rw [h.idle (hsame.symm.trans hn)]
      rfl

theorem WellFormed.blobByte (v : Verb) (c : UInt8) (r : Reader) : (r.blobByte v c).WellFormed := by
  rw [Reader.blobByte]
  by_cases hleft : r.regs.sizeLeft - 1 = 0
  · simp only [hleft, if_true]
    exact ⟨by simp, fun _ => rfl, fun hb => Bool.noConfusion hb⟩
  · simp only [hleft, if_false]
    exact ⟨by simp, fun hn => Bool.noConfusion hn, fun _ => ⟨hleft, by simp⟩⟩

theorem WellFormed.step (h : r.WellFormed) (hs : r.step c = .going r') : r'.WellFormed := by
  rw [Reader.step] at hs
  split at hs
  · split at hs
    · exact WellFormed.plain ⟨by simp, fun _ => rfl, fun hb => Bool.noConfusion hb⟩ hs
    · obtain rfl := Progress.going.inj hs
      exact .blobByte _ _ _
  · obtain rfl := Progress.going.inj hs
    exact .blobByte _ _ _
  · exact h.plain hs

end Reader

/-! ## A buffer -/

namespace Builder

/-- The text that is collected at a position of the buffer. -/
def text (buf : Bytes) (p : Nat) (b : Builder) : Option Bytes :=
  b.start.map fun s => b.value ++ (buf.drop s).take (p - s)

end Builder

/-- The parser at a position of the buffer and the reader that has read the bytes before it. -/
structure At (buf : Bytes) (p : Nat) (m : Machine) (r : Reader) : Prop where
  place : m.place = r.place
  regs : m.regs = r.regs
  text : m.builder.text buf p = r.captured
  start_le : ∀ s ∈ m.builder.start, s ≤ p
  value : m.builder.start = none → m.builder.value = []

variable {buf : Bytes} {p n fuel : Nat} {m m' : Machine} {r r' : Reader} {c : UInt8} {v : Verb}

/-- The next character is added to the text that is collected. -/
theorem At.text_succ (h : At buf p m r) (hc : buf[p]? = some c) :
    m.builder.text buf (p + 1) = r.captured.map (· ++ [c]) := by
  have htext := h.text
  cases hs : m.builder.start with
  | none =>
    simp only [Builder.text, hs, Option.map_none] at htext ⊢
    rw [← htext]
    rfl
  | some s =>
    have hle := h.start_le s hs
    simp only [Builder.text, hs, Option.map_some] at htext ⊢
    rw [← htext, Option.map_some, List.append_assoc, show p + 1 - s = p - s + 1 by omega,
      List.take_add_one, List.getElem?_drop, show s + (p - s) = p by omega, hc]
    rfl

/-- Going on to the next character, in another state of the automaton. -/
theorem At.succ (h : At buf p m r) (hc : buf[p]? = some c) (next : Place) :
    At buf (p + 1) { m with place := next }
      { r with place := next, captured := r.captured.map (· ++ [c]) } where
  place := rfl
  regs := h.regs
  text := h.text_succ hc
  start_le s hs := Nat.le_succ_of_le (h.start_le s hs)
  value := h.value

theorem At.perform_quiet {actions : List Action} (h : At buf p m r) (hq : Quiet actions) :
    ∃ m', actions.foldlM (Machine.perform buf p c) m = .ok m' ∧
      At buf p m' { r with regs := applyAll c actions r.regs } := by
  induction actions generalizing m r with
  | nil => exact ⟨m, rfl, h⟩
  | cons a actions ih =>
    obtain ⟨hm, ht⟩ := hq a List.mem_cons_self
    have hstep : m.perform buf p c a = .ok { m with regs := a.apply c [] m.regs } := by
      rw [Machine.perform, if_neg hm, ht, if_neg Bool.false_ne_true]
    rw [List.foldlM_cons, hstep, ok_bind]
    refine ih (r := { r with regs := a.apply c [] r.regs }) ⟨h.place, ?_, h.text, h.start_le, h.value⟩
      fun b hb => hq b (List.mem_cons_of_mem _ hb)
    exact congrArg (fun regs => a.apply c [] regs) h.regs

/-- No text is collected. -/
theorem At.start_none (h : At buf p m r) (hc : r.captured = none) : m.builder.start = none := by
  have htext := h.text
  rw [hc] at htext
  exact Option.map_eq_none_iff.mp htext

/-- `mark` where no text is collected. -/
theorem At.mark (h : At buf p m r) (hc : r.captured = none) :
    At buf p { m with builder := { m.builder with start := some p } } { r with captured := some [] } where
  place := h.place
  regs := h.regs
  text := by
    simp only [Builder.text, Option.map_some, Nat.sub_self, List.take_zero, List.append_nil,
      h.value (h.start_none hc)]
  start_le s hs := by
    obtain rfl := Option.some.inj hs
    exact Nat.le_refl _
  value hs := by cases hs

/-- `str()` where a text is collected. -/
theorem At.str {text : Bytes} (h : At buf p m r) (hc : r.captured = some text) :
    m.str buf p = .ok (text, { m with builder := {} }) := by
  have htext := h.text
  rw [hc] at htext
  obtain ⟨s, hs, htext⟩ := Option.map_eq_some_iff.mp htext
  simp only [Machine.str, Builder.markEnd, hs, ok_bind, htext]

/-- ... and where none is. -/
theorem At.str_none (h : At buf p m r) (hc : r.captured = none) :
    m.str buf p = .error .sstringOverflow := by
  simp only [Machine.str, Builder.markEnd, h.start_none hc, error_bind]

/-- Without a text. -/
theorem At.taken (h : At buf p m r) (regs : Registers) :
    At buf p { m with builder := {}, regs } { r with captured := none, regs } where
  place := h.place
  regs := rfl
  text := rfl
  start_le s hs := by cases hs
  value _ := rfl

/-- The actions of a transition do to the parser what they do to the reader. -/
theorem At.perform {actions : List Action} {next : Place} (h : At buf p m r) (hwf : r.WellFormed)
    (hkind : Kind r.place actions next) :
    (∃ f, actions.foldlM (Reader.perform c) r = .error f ∧
        actions.foldlM (Machine.perform buf p c) m = .error f) ∨
      ∃ r' m', actions.foldlM (Reader.perform c) r = .ok r' ∧
        actions.foldlM (Machine.perform buf p c) m = .ok m' ∧ At buf p m' r' := by
  cases hkind with
  | marks rest hactions hrest hplace hnext =>
    subst hactions
    obtain ⟨m', hm', hat⟩ := (h.mark (hwf.idle hplace)).perform_quiet (c := c) hrest
    refine Or.inr ⟨_, m', Reader.perform_marks hrest c r, ?_, hat⟩
    rw [List.foldlM_cons, show m.perform buf p c .mark =
      .ok { m with builder := { m.builder with start := some p } } from rfl, ok_bind, hm']
  | takes a rest hactions ha hrest =>
    subst hactions
    have hm : a ≠ .mark := by
      rintro rfl
      cases ha
    rw [Reader.perform_takes ha hrest, List.foldlM_cons, Machine.perform, if_neg hm, if_pos ha]
    cases hc : r.captured with
    | none =>
      rw [h.str_none hc]
      exact Or.inl ⟨_, rfl, rfl⟩
    | some text =>
      obtain ⟨m', hm', hat⟩ := (h.taken (a.apply c text r.regs)).perform_quiet (c := c) hrest
      rw [h.str hc, ok_bind]
      refine Or.inr ⟨_, m', rfl, ?_, hat⟩
      rw [ok_bind, h.regs, hm']
  | quiet hquiet hsame =>
    obtain ⟨m', hm', hat⟩ := h.perform_quiet (c := c) hquiet
    exact Or.inr ⟨_, m', Reader.perform_quiet hquiet c r, hm', hat⟩

namespace Reader

/-- The reader after some bytes of a blob. -/
def blobBytes (v : Verb) (ds : Bytes) (r : Reader) : Reader :=
  if r.regs.sizeLeft - UInt32.ofNat ds.length = 0 then
    { place := .blobEnd v, captured := none
      regs := { r.regs with sizeLeft := 0, blob := r.captured.getD [] ++ ds } }
  else
    { place := .blob v, captured := some (r.captured.getD [] ++ ds)
      regs := { r.regs with sizeLeft := r.regs.sizeLeft - UInt32.ofNat ds.length } }

theorem blobBytes_state (v : Verb) (ds : Bytes) (r : Reader) :
    (r.blobBytes v ds).regs.state = r.regs.state := by
  rw [blobBytes]
  split <;> rfl

/-- The bytes of a blob, up to its end at most, are read one after the other. -/
theorem read_blob {ds : Bytes} (cs : Bytes) (hplace : r.place = .blob v) (hstate : r.regs.state = .error)
    (hne : ds ≠ []) (hle : ds.length ≤ r.regs.sizeLeft.toNat) :
    r.read n (ds ++ cs) = (r.blobBytes v ds).read (n + ds.length) cs ∧
      (r.Good (ds ++ cs) → (r.blobBytes v ds).Good cs) := by
  induction ds generalizing r n with
  | nil => exact absurd rfl hne
  | cons d ds ih =>
    have hstep : r.step d = .going (r.blobByte v d) := by
      rw [step, hplace]
    have hst : (r.blobByte v d).regs.state = .error := by
      rw [blobByte]
      split <;> exact hstate
    have hread : r.read n (d :: ds ++ cs) = (r.blobByte v d).read (n + 1) (ds ++ cs) := by
      rw [List.cons_append, read, hstep]
      simp only [hst, if_true]
    have hgood : r.Good (d :: ds ++ cs) → (r.blobByte v d).Good (ds ++ cs) := by
      intro h
      have := h.2 _ hstep
      rwa [if_pos hst] at this
    cases ds with
    | nil =>
      have hsame : r.blobBytes v [d] = r.blobByte v d := rfl
      rw [hread, hsame]
      exact ⟨rfl, hgood⟩
    | cons e ds =>
      have hlen : (e :: ds).length = ds.length + 1 := rfl
      have hlt := r.regs.sizeLeft.toNat_lt
      rw [List.length_cons, hlen] at hle
      have hone : (1 : UInt32).toNat = 1 := rfl
      have hsub : (r.regs.sizeLeft - 1).toNat = r.regs.sizeLeft.toNat - 1 := by
        rw [UInt32.toNat_sub_of_le _ _ (by rw [UInt32.le_iff_toNat_le, hone]; omega), hone]
      have hleft : r.regs.sizeLeft - 1 ≠ 0 := by
        intro h0
        rw [h0] at hsub
        simp at hsub
        omega
      have hbyte : r.blobByte v d =
          { place := .blob v, captured := some (r.captured.getD [] ++ [d])
            regs := { r.regs with sizeLeft := r.regs.sizeLeft - 1 } } := by
        simp only [blobByte, hleft, if_false]
      obtain ⟨hread', hgood'⟩ := ih (r := r.blobByte v d) (n := n + 1) (by rw [hbyte]) hst
        (List.cons_ne_nil _ _) (by rw [hbyte, hlen]; dsimp only; omega)
      have hsame : (r.blobByte v d).blobBytes v (e :: ds) = r.blobBytes v (d :: e :: ds) := by
        have hnum : r.regs.sizeLeft - 1 - UInt32.ofNat (e :: ds).length =
            r.regs.sizeLeft - UInt32.ofNat (d :: e :: ds).length := by
          rw [List.length_cons (a := d), UInt32.ofNat_add, sub_sub, add_comm]
          rfl
        rw [hbyte]
        simp only [blobBytes, hnum, Option.getD_some, List.append_assoc, List.singleton_append]
      rw [hread, hread', hsame]
      refine ⟨?_, fun h => hsame ▸ hgood' (hgood h)⟩
      rw [List.length_cons (a := d)]
      congr 1
      omega

end Reader

theorem take_length_pos {k : Nat} (hp : p < buf.length) (hk : 0 < k) :
    (buf.drop p).take k ≠ [] := by
  intro h
  have := congrArg List.length h
  rw [List.length_take, List.length_drop, List.length_nil] at this
  omega

/-- `advance_blob` takes bytes of the buffer, up to the end of the blob at most, unless the number
of bytes that are left is 0 as a `uint32_t`. -/
theorem At.advance_of_ne (h : At buf p m r) (hcap : r.captured ≠ none)
    (hleft : r.regs.sizeLeft ≠ 0) (hp : p < buf.length)
    (hrest : UInt32.ofNat (buf.length - p) ≠ 0) :
    ∃ k m', 0 < k ∧ p + k ≤ buf.length ∧ k ≤ r.regs.sizeLeft.toNat ∧
      m.advanceBlob buf p v = .ok (m', p + k) ∧
      At buf (p + k) m' (r.blobBytes v ((buf.drop p).take k)) ∧
      (r.blobBytes v ((buf.drop p).take k)).WellFormed := by
  obtain ⟨text, hcap⟩ := Option.ne_none_iff_exists'.mp hcap
  have hle : (UInt32.ofNat (buf.length - p)).toNat ≤ buf.length - p := by
    rw [UInt32.toNat_ofNat']
    exact Nat.mod_le _ _
  have hpos := UInt.toNat_pos hleft
  have hrest := UInt.toNat_pos hrest
  have hmin : (min (UInt32.ofNat (buf.length - p)) r.regs.sizeLeft).toNat =
      min (UInt32.ofNat (buf.length - p)).toNat r.regs.sizeLeft.toNat := UInt.toNat_min _ _
  generalize hk : min (UInt32.ofNat (buf.length - p)) r.regs.sizeLeft = len at hmin
  have hlen : ((buf.drop p).take len.toNat).length = len.toNat := by
    rw [List.length_take, List.length_drop]
    omega
  have htext : m.builder.text buf (p + len.toNat) = some (text ++ (buf.drop p).take len.toNat) := by
    have ht := h.text
    rw [hcap] at ht
    obtain ⟨s, hs, ht⟩ := Option.map_eq_some_iff.mp ht
    have hle := h.start_le s hs
    rw [Builder.text, hs, Option.map_some, ← ht, List.append_assoc,
      show p + len.toNat - s = p - s + len.toNat by omega, List.take_add, List.drop_drop,
      show s + (p - s) = p by omega]
  refine ⟨len.toNat, ?_⟩
  by_cases hend : r.regs.sizeLeft - len = 0
  · have hblob : r.blobBytes v ((buf.drop p).take len.toNat) =
        { place := .blobEnd v, captured := none
          regs := { r.regs with sizeLeft := 0, blob := text ++ (buf.drop p).take len.toNat } } := by
      simp only [Reader.blobBytes, hlen, UInt32.ofNat_toNat, hend, if_true, hcap, Option.getD_some]
    have hstr : ({ m with regs := { m.regs with sizeLeft := m.regs.sizeLeft - len } } : Machine).str
        buf (p + len.toNat) = .ok (text ++ (buf.drop p).take len.toNat,
          { m with regs := { m.regs with sizeLeft := m.regs.sizeLeft - len }, builder := {} }) := by
      obtain ⟨s, hs, ht⟩ := Option.map_eq_some_iff.mp htext
      simp only [Machine.str, Builder.markEnd, hs, ok_bind, ht]
    rw [hblob]
    refine ⟨{ m with place := .blobEnd v, builder := {}, regs := { m.regs with
        sizeLeft := 0, blob := text ++ (buf.drop p).take len.toNat } },
      by omega, by omega, by omega, ?_, ⟨rfl, by rw [h.regs], rfl, fun s hs => absurd hs (by simp),
        fun _ => rfl⟩, ⟨by simp, fun _ => rfl, fun hb => Bool.noConfusion hb⟩⟩
    have hend' : m.regs.sizeLeft - len = 0 := by rw [h.regs, hend]
    simp only [hend'] at hstr
    simp only [Machine.advanceBlob, h.regs ▸ hk, hend', if_true, hstr, ok_bind]
  · have hblob : r.blobBytes v ((buf.drop p).take len.toNat) =
        { place := .blob v, captured := some (text ++ (buf.drop p).take len.toNat)
          regs := { r.regs with sizeLeft := r.regs.sizeLeft - len } } := by
      simp only [Reader.blobBytes, hlen, UInt32.ofNat_toNat, hend, if_false, hcap, Option.getD_some]
    rw [hblob]
    refine ⟨{ m with place := .blob v, regs := { m.regs with sizeLeft := m.regs.sizeLeft - len } },
      by omega, by omega, by omega, ?_, ⟨rfl, by rw [h.regs], htext,
        fun s hs => Nat.le_trans (h.start_le s hs) (Nat.le_add_right _ _), h.value⟩, ⟨?_, ?_, ?_⟩⟩
    · have hend' : ¬ m.regs.sizeLeft - len = 0 := by rw [h.regs]; exact hend
      simp only [Machine.advanceBlob, h.regs ▸ hk, hend', if_false]
    · intro hnil
      have := Option.some.inj hnil
      exact take_length_pos hp (by omega) (List.append_eq_nil_iff.mp this).2
    · exact fun hn => Bool.noConfusion hn
    · exact fun _ => ⟨hend, by simp⟩

/-- ... so it does with less than 2^32 bytes left. -/
theorem At.advance (h : At buf p m r) (hcap : r.captured ≠ none)
    (hleft : r.regs.sizeLeft ≠ 0) (hp : p < buf.length) (hlt : buf.length - p < 2 ^ 32) :
    ∃ k m', 0 < k ∧ p + k ≤ buf.length ∧ k ≤ r.regs.sizeLeft.toNat ∧
      m.advanceBlob buf p v = .ok (m', p + k) ∧
      At buf (p + k) m' (r.blobBytes v ((buf.drop p).take k)) ∧
      (r.blobBytes v ((buf.drop p).take k)).WellFormed := by
  apply h.advance_of_ne hcap hleft hp
  intro h0
  have := congrArg UInt32.toNat h0
  rw [UInt32.toNat_ofNat_of_lt' hlt] at this
  exact absurd this (by simp; omega)

/-! ## The execution on a buffer -/

/-- The execution of the automaton comes to what the reader comes to, `n` bytes having been consumed
before the buffer. -/
inductive Agrees (buf : Bytes) (n : Nat) :
    Except Fault (Option (Machine × Nat × Machine.Exit)) → Progress Reader → Prop
  | ended (m : Machine) (r : Reader) (hat : At buf buf.length m r) (hwf : r.WellFormed)
      (hstate : r.regs.state = .error) :
      Agrees buf n (.ok (some (m, buf.length, .ended))) (.going r)
  | stuck (m : Machine) (p : Nat) (hp : p < buf.length) (hstate : m.regs.state = .error) :
      Agrees buf n (.ok (some (m, p, .stuck))) (.stopped (.error m.regs))
  | accepted (m : Machine) (p : Nat) (exit : Machine.Exit) (hstate : m.regs.state ≠ .error) :
      Agrees buf n (.ok (some (m, p, exit))) (.stopped (.accepted m.regs (n + p)))
  | thrown (f : Fault) : Agrees buf n (.error f) (.stopped (.thrown f))

/-- Neither before a blob nor in one. -/
def Place.isPlain : Place → Bool
  | .blobStart _ => false
  | .blob _ => false
  | _ => true

theorem Reader.step_plain (h : r.place.isPlain = true) : r.step c = r.plain c := by
  rw [Reader.step]
  split
  · rename_i hp
    rw [hp] at h
    cases h
  · rename_i hp
    rw [hp] at h
    cases h
  · rfl

theorem Machine.exec_plain (hc : buf[p]? = some c) (h : m.place.isPlain = true) :
    m.exec buf (fuel + 1) p =
      match transition m.place c with
      | none => .ok (some (m, p, .stuck))
      | some (actions, next) =>
        actions.foldlM (perform buf p c) m >>= fun m =>
          exec buf fuel { m with place := next } (p + 1) := by
  rw [Machine.exec, hc]
  dsimp only
  split
  · rename_i hp
    rw [hp] at h
    cases h
  · rename_i hp
    rw [hp] at h
    cases h
  · rfl

theorem Machine.exec_blobStart (hc : buf[p]? = some c) (h : m.place = .blobStart v) :
    m.exec buf (fuel + 1) p =
      ({ m with
        builder := { m.builder with start := some p }
        regs := { m.regs with sizeLeft := m.regs.size } } : Machine).advanceBlob buf p v >>=
        fun (m, p) => exec buf fuel m p := by
  rw [exec, hc]
  dsimp only
  split
  · rename_i w hw
    obtain rfl := Place.blobStart.inj (hw.symm.trans h)
    rfl
  · rename_i hw
    cases hw.symm.trans h
  · rename_i hne _
    exact absurd h (hne v)

/-- A character outside of a blob. -/
theorem At.plain (h : At buf p m r) (hwf : r.WellFormed) (hc : buf[p]? = some c)
    (hplain : r.place.isPlain = true) (fuel : Nat) :
    (r.plain c = .stopped (.error r.regs) ∧
        m.exec buf (fuel + 1) p = .ok (some (m, p, .stuck))) ∨
      (∃ f, r.plain c = .stopped (.thrown f) ∧ m.exec buf (fuel + 1) p = .error f) ∨
      ∃ r' m', r.plain c = .going r' ∧ m.exec buf (fuel + 1) p = m'.exec buf fuel (p + 1) ∧
        At buf (p + 1) m' r' := by
  rw [Machine.exec_plain hc (h.place ▸ hplain), Reader.plain, h.place]
  cases ht : transition r.place c with
  | none => exact Or.inl ⟨rfl, rfl⟩
  | some result =>
    obtain ⟨actions, next⟩ := result
    have hkind := (sound_transition r.place c actions next ht).1
    rcases h.perform (c := c) hwf hkind with ⟨f, hr, hm⟩ | ⟨r', m', hr, hm, hat⟩
    · simp only [hr, hm, error_bind]
      exact Or.inr (Or.inl ⟨f, rfl, rfl⟩)
    · simp only [hr, hm, ok_bind]
      exact Or.inr (Or.inr ⟨_, _, rfl, rfl, hat.succ hc next⟩)

/-- `advance_blob` does not look at the state of the automaton. -/
theorem Machine.advanceBlob_place (m : Machine) (place : Place) :
    ({ m with place } : Machine).advanceBlob buf p v = m.advanceBlob buf p v := by
  simp only [advanceBlob, str]
  cases m.builder.markEnd buf (p + (min (UInt32.ofNat (buf.length - p)) m.regs.sizeLeft).toNat) <;> rfl

/-- A blob that is not empty starts with its first byte. -/
theorem Reader.read_startBlob (hplace : r.place = .blobStart v) (hsize : r.regs.size ≠ 0)
    (n : Nat) (c : UInt8) (cs : Bytes) :
    r.read n (c :: cs) = (r.startBlob v).read n (c :: cs) ∧
      (r.Good (c :: cs) → (r.startBlob v).Good (c :: cs)) := by
  have hstep : r.step c = (r.startBlob v).step c := by
    simp only [step, hplace, hsize, if_false, startBlob]
  refine ⟨by rw [read, read, hstep], fun h => ⟨fun _ => h.1 (Or.inl ⟨v, hplace, hsize⟩), ?_⟩⟩
  rw [← hstep]
  exact h.2

/-- An empty blob. -/
def Reader.emptyBlob (v : Verb) (r : Reader) : Reader :=
  { place := .blobEnd v, captured := none, regs := { r.regs with sizeLeft := 0, blob := [] } }

theorem Reader.read_emptyBlob (hplace : r.place = .blobStart v) (hsize : r.regs.size = 0)
    (n : Nat) (c : UInt8) (cs : Bytes) :
    r.read n (c :: cs) = (r.emptyBlob v).read n (c :: cs) ∧
      (r.Good (c :: cs) → (r.emptyBlob v).Good (c :: cs)) := by
  have hstep : r.step c = (r.emptyBlob v).step c := by
    simp only [step, hplace, hsize, if_true, emptyBlob]
  refine ⟨by rw [read, read, hstep], fun h => ⟨?_, ?_⟩⟩
  · rintro (⟨w, hw, -⟩ | ⟨w, hw⟩) <;> cases hw
  · rw [← hstep]
    exact h.2

/-- An empty blob takes no byte of the buffer. -/
theorem At.advance_empty (h : At buf p m r) (hcap : r.captured = none) (hsize : r.regs.size = 0) :
    ∃ m', ({ m with
        builder := { m.builder with start := some p }
        regs := { m.regs with sizeLeft := m.regs.size } } : Machine).advanceBlob buf p v =
        .ok (m', p) ∧ At buf p m' (r.emptyBlob v) := by
  have hzero : min (UInt32.ofNat (buf.length - p)) 0 = 0 := by
    apply UInt32.toNat_inj.mp
    rw [UInt.toNat_min]
    exact Nat.min_eq_right (Nat.zero_le _)
  refine ⟨{ m with place := .blobEnd v, builder := {},
                    regs := { m.regs with sizeLeft := 0, blob := [] } }, ?_,
    rfl, by rw [h.regs]; rfl, rfl, fun s hs => absurd hs (by simp), fun _ => rfl⟩
  simp only [Machine.advanceBlob, h.regs, hsize, hzero, sub_self, if_true, Machine.str,
    Builder.markEnd, ok_bind, h.value (h.start_none hcap)]
  simp

/-- A character outside of a blob, when the parser and the reader agree behind it. -/
theorem At.agrees_plain (h : At buf p m r) (hwf : r.WellFormed) (hstate : r.regs.state = .error)
    (hc : buf[p]? = some c) (hplain : r.place.isPlain = true)
    (hgood : r.Good (c :: buf.drop (p + 1))) (hfuel : 0 < fuel)
    (hrest : ∀ m' r', At buf (p + 1) m' r' → r'.WellFormed → r'.regs.state = .error →
      r'.Good (buf.drop (p + 1)) →
        Agrees buf n (m'.exec buf fuel (p + 1)) (r'.read (n + (p + 1)) (buf.drop (p + 1)))) :
    Agrees buf n (m.exec buf (fuel + 1) p) (r.read (n + p) (c :: buf.drop (p + 1))) := by
  rw [Reader.read, Reader.step_plain hplain]
  rcases h.plain hwf hc hplain fuel with ⟨hr, hm⟩ | ⟨f, hr, hm⟩ | ⟨r', m', hr, hm, hat⟩
  · rw [hr, hm, ← h.regs]
    exact .stuck m p (List.getElem?_eq_some_iff.mp hc).1 (h.regs ▸ hstate)
  · rw [hr, hm]
    exact .thrown f
  · have hnext := hgood.2 r' (by rw [Reader.step_plain hplain, hr])
    rw [hr, hm]
    dsimp only
    by_cases hs : r'.regs.state = .error
    · rw [if_pos hs] at hnext ⊢
      exact hrest m' r' hat (hwf.plain hr) hs hnext
    · rw [if_neg hs] at hnext ⊢
      obtain ⟨fuel, rfl⟩ := Nat.exists_eq_succ_of_ne_zero hfuel.ne'
      have hstop : ∃ exit, m'.exec buf (fuel + 1) (p + 1) = .ok (some (m', p + 1, exit)) := by
        cases hc' : buf[p + 1]? with
        | none => exact ⟨.ended, by rw [Machine.exec, hc']⟩
        | some d =>
          have hne : buf.drop (p + 1) ≠ [] := by
            have := (List.getElem?_eq_some_iff.mp hc').1
            intro hnil
            have := List.drop_eq_nil_iff.mp hnil
            omega
          have hdone : m'.place = .done := hat.place.trans (hnext.resolve_right hne)
          exact ⟨.stuck, by rw [Machine.exec_plain hc' (by rw [hdone]; rfl), hdone]; rfl⟩
      obtain ⟨exit, hexit⟩ := hstop
      rw [hexit, ← hat.regs]
      exact .accepted m' (p + 1) exit (hat.regs ▸ hs)

/-- A buffer is read like its bytes. -/
theorem exec_agrees (h : At buf p m r) (hwf : r.WellFormed) (hstate : r.regs.state = .error)
    (hgood : r.Good (buf.drop p)) (hp : p ≤ buf.length) (hfuel : 2 * (buf.length - p) + 2 ≤ fuel) :
    Agrees buf n (m.exec buf fuel p) (r.read (n + p) (buf.drop p)) := by
  induction fuel using Nat.strong_induction_on generalizing m r p with
  | _ fuel ih =>
    obtain ⟨fuel, rfl⟩ := Nat.exists_eq_succ_of_ne_zero (show fuel ≠ 0 by omega)
    cases hc : buf[p]? with
    | none =>
      obtain rfl : p = buf.length := Nat.le_antisymm hp (List.getElem?_eq_none_iff.mp hc)
      rw [Machine.exec, hc, List.drop_length]
      exact .ended m r h hwf hstate
    | some c =>
      have hlt := (List.getElem?_eq_some_iff.mp hc).1
      have hdrop : buf.drop p = c :: buf.drop (p + 1) := by
        rw [List.drop_eq_getElem_cons hlt, (List.getElem?_eq_some_iff.mp hc).2]
      rw [hdrop] at hgood ⊢
      have hplain : ∀ f, f < fuel.succ → 2 * (buf.length - p) ≤ f → ∀ m r, At buf p m r →
          r.WellFormed → r.regs.state = .error → r.place.isPlain = true →
          r.Good (c :: buf.drop (p + 1)) →
          Agrees buf n (m.exec buf (f + 1) p) (r.read (n + p) (c :: buf.drop (p + 1))) := by
        intro f hf hle m r h hwf hstate hplain hgood
        refine h.agrees_plain hwf hstate hc hplain hgood (by omega) fun m' r' hat hwf hs hg => ?_
        exact ih f hf hat hwf hs hg hlt (by omega)
      have hblob : ∀ m r v, At buf p m r → r.place = .blob v → r.captured ≠ none →
          r.regs.sizeLeft ≠ 0 → r.regs.state = .error → r.Good (c :: buf.drop (p + 1)) →
          Agrees buf n (m.advanceBlob buf p v >>= fun (m, p) => m.exec buf fuel p)
            (r.read (n + p) (c :: buf.drop (p + 1))) := by
        intro m r v h hplace hcap hleft hstate hgood
        have hlen := hgood.1 (Or.inr ⟨v, hplace⟩)
        rw [List.length_drop] at hlen
        obtain ⟨k, m', hk, hle, hleft', hadv, hat, hwf'⟩ :=
          h.advance hcap hleft hlt (v := v) (by omega)
        rw [hadv, ok_bind, ← hdrop]
        rw [← hdrop] at hgood
        have hsplit : buf.drop p = (buf.drop p).take k ++ buf.drop (p + k) := by
          rw [← List.drop_drop, List.take_append_drop]
        have hlen' : ((buf.drop p).take k).length = k := by
          rw [List.length_take, List.length_drop]
          omega
        obtain ⟨hread, hgood'⟩ := Reader.read_blob (n := n + p) (buf.drop (p + k)) hplace hstate
          (take_length_pos hlt hk) (by rw [hlen']; exact hleft')
        rw [← hsplit] at hread hgood'
        rw [hread, hlen', Nat.add_assoc]
        exact ih fuel (Nat.lt_succ_self _) hat hwf' ((Reader.blobBytes_state _ _ _).trans hstate)
          (hgood' hgood) hle (by omega)
      cases hplace : r.place with
      | blobStart v =>
        rw [Machine.exec_blobStart hc (h.place.trans hplace)]
        have hcap : r.captured = none := hwf.idle (by rw [hplace]; rfl)
        by_cases hsize : r.regs.size = 0
        · obtain ⟨m', hadv, hat⟩ := h.advance_empty (v := v) hcap hsize
          obtain ⟨hread, hgood'⟩ := Reader.read_emptyBlob hplace hsize (n + p) c (buf.drop (p + 1))
          rw [hadv, ok_bind, hread]
          obtain ⟨fuel, rfl⟩ := Nat.exists_eq_succ_of_ne_zero (show fuel ≠ 0 by omega)
          exact hplain fuel (by omega) (by omega) m' _ hat
            ⟨by simp [Reader.emptyBlob], fun _ => rfl, fun hb => Bool.noConfusion hb⟩ hstate rfl
            (hgood' hgood)
        · obtain ⟨hread, hgood'⟩ := Reader.read_startBlob hplace hsize (n + p) c (buf.drop (p + 1))
          rw [hread, ← Machine.advanceBlob_place _ (.blob v)]
          refine hblob _ (r.startBlob v) v ?_ rfl (by simp [Reader.startBlob]) hsize hstate
            (hgood' hgood)
          have hm := h.mark hcap
          exact ⟨rfl, by rw [h.regs]; rfl, hm.text, hm.start_le, hm.value⟩
      | blob v =>
        rw [Machine.exec, hc, h.place, hplace]
        dsimp only
        obtain ⟨hleft, hcap⟩ := hwf.blob (by rw [hplace]; rfl)
        exact hblob m r v h hplace hcap hleft hstate hgood
      | _ =>
        exact hplain fuel (Nat.lt_succ_self _) (by omega) m r h hwf hstate (by rw [hplace]; rfl) hgood

/-! ## Buffer after buffer -/

/-- The parser between two buffers. -/
def Reader.atRest (r : Reader) : Machine :=
  { place := r.place, regs := r.regs, builder := { value := r.captured.getD [] } }

namespace Progress

def map {α β : Type} (f : α → β) : Progress α → Progress β
  | going a => going (f a)
  | stopped o => stopped o

end Progress

/-- The guard at the start of a buffer. -/
theorem Reader.WellFormed.atRest_enter (h : r.WellFormed) (buf : Bytes) :
    At buf 0 { r.atRest with builder := r.atRest.builder.enter } r := by
  cases hc : r.captured with
  | none =>
    refine ⟨rfl, rfl, ?_, ?_, ?_⟩
    all_goals simp [Reader.atRest, Builder.enter, Builder.text, hc]
  | some text =>
    have hne : text ≠ [] := by
      rintro rfl
      exact h.nonempty hc
    refine ⟨rfl, rfl, ?_, ?_, ?_⟩
    all_goals simp [Reader.atRest, Builder.enter, Builder.text, hc, hne]

/-- The guard at the end of a buffer. -/
theorem At.leave (h : At buf buf.length m r) :
    m.builder.leave buf = .ok { value := r.captured.getD [] } := by
  have htext := h.text
  cases hs : m.builder.start with
  | none =>
    simp only [Builder.text, hs, Option.map_none] at htext
    have hb : m.builder = {} := by
      rw [← h.value hs, ← hs]
    rw [← htext, hb]
    rfl
  | some s =>
    simp only [Builder.text, hs, Option.map_some] at htext
    rw [← htext]
    simp only [Builder.leave, hs, Option.isSome_some, if_true, Builder.markEnd, Option.getD_some]

/-- The guard does not throw at the end of a buffer. -/
theorem Builder.leave_ok (buf : Bytes) (b : Builder) : ∃ b', b.leave buf = .ok b' := by
  rw [leave]
  split
  · rename_i h
    obtain ⟨s, hs⟩ := Option.isSome_iff_exists.mp h
    exact ⟨_, by rw [markEnd, hs]⟩
  · exact ⟨b, rfl⟩

theorem Machine.atEof_of_ne (hbuf : buf ≠ []) (m : Machine) : m.atEof buf = m := by
  rw [atEof, if_neg fun h => hbuf h.1]

/-- The parser does with a buffer what the reader does with its bytes. -/
theorem parse_agrees (hwf : r.WellFormed) (hstate : r.regs.state = .error) (hgood : r.Good buf)
    (hbuf : buf ≠ []) : r.atRest.parse n buf = (r.read n buf).map Reader.atRest := by
  have h := exec_agrees (n := n) (hwf.atRest_enter buf) hwf hstate hgood (Nat.zero_le _)
    (Nat.le_refl (2 * (buf.length - 0) + 2))
  rw [Nat.add_zero, List.drop_zero, Nat.sub_zero] at h
  rw [Machine.parse]
  generalize hx : Machine.exec buf _ _ 0 = x at h
  generalize r.read n buf = y at h
  cases h with
  | ended m r' hat hwf' hstate' =>
    simp only [hat.leave, Machine.atEof_of_ne hbuf, hstate', ne_eq, not_true_eq_false, if_false,
      Progress.map, Reader.atRest, hat.place, hat.regs]
  | stuck m p hp hs =>
    obtain ⟨b, hb⟩ := Builder.leave_ok buf m.builder
    simp only [hb, Machine.atEof_of_ne hbuf, hs, ne_eq, not_true_eq_false, if_false, hp.ne,
      not_false_eq_true, if_true, Progress.map]
  | accepted m p exit hs =>
    obtain ⟨b, hb⟩ := Builder.leave_ok buf m.builder
    simp only [hb, Machine.atEof_of_ne hbuf, hs, ne_eq, not_false_eq_true, if_true, Progress.map]
  | thrown f => rfl

namespace Reader

variable {s t : Bytes} {bufs : List Bytes}

theorem WellFormed.read (h : r.WellFormed) (hstate : r.regs.state = .error)
    (hr : r.read n s = .going r') : r'.WellFormed ∧ r'.regs.state = .error := by
  induction s generalizing r n with
  | nil =>
    obtain rfl := Progress.going.inj hr
    exact ⟨h, hstate⟩
  | cons c cs ih =>
    rw [Reader.read] at hr
    cases hs : r.step c with
    | stopped o =>
      simp only [hs] at hr
      cases hr
    | going r₁ =>
      simp only [hs] at hr
      split at hr
      · rename_i he
        exact ih (h.step hs) he hr
      · cases hr

/-- What is read of `s ++ t` when reading `s` goes through. -/
theorem outcome_append (h : r.read n s = .going r') :
    r.outcome n (s ++ t) = r'.outcome (n + s.length) t := by
  induction s generalizing r n with
  | nil =>
    obtain rfl := Progress.going.inj h
    rfl
  | cons c cs ih =>
    rw [Reader.read] at h
    cases hs : r.step c with
    | stopped o =>
      simp only [hs] at h
      cases h
    | going r₁ =>
      simp only [hs] at h
      split at h
      · rename_i he
        have := ih h
        rw [outcome] at this ⊢
        rw [List.cons_append, Reader.read, hs]
        simp only [he, if_true]
        rw [this, List.length_cons, Nat.add_assoc, Nat.add_comm 1]
      · cases h

theorem outcome_append_stopped {o : Outcome} (h : r.read n s = .stopped o) :
    r.outcome n (s ++ t) = o := by
  induction s generalizing r n with
  | nil => cases h
  | cons c cs ih =>
    rw [Reader.read] at h
    rw [outcome, List.cons_append, Reader.read]
    cases hs : r.step c with
    | stopped o' =>
      simp only [hs] at h ⊢
      exact Progress.stopped.inj h
    | going r₁ =>
      simp only [hs] at h ⊢
      split at h
      · rename_i he
        rw [if_pos he]
        exact ih h
      · rename_i he
        rw [if_neg he]
        exact Progress.stopped.inj h

/-- A buffer that reads well reads well up to every position, and on from there. -/
theorem Good.append (h : r.Good (s ++ t)) :
    r.Good s ∧ ∀ n r', r.read n s = .going r' → r'.Good t := by
  induction s generalizing r with
  | nil =>
    refine ⟨trivial, fun n r' hr => ?_⟩
    obtain rfl := Progress.going.inj hr
    exact h
  | cons c cs ih =>
    rw [List.cons_append] at h
    obtain ⟨hlen, hnext⟩ := h
    rw [List.length_append] at hlen
    refine ⟨⟨fun hw => by have := hlen hw; omega, fun r₁ hs => ?_⟩, fun n r' hr => ?_⟩
    · have := hnext r₁ hs
      by_cases he : r₁.regs.state = .error
      · rw [if_pos he] at this ⊢
        exact (ih this).1
      · rw [if_neg he] at this ⊢
        exact this.imp_right fun hnil => (List.append_eq_nil_iff.mp hnil).1
    · rw [Reader.read] at hr
      cases hs : r.step c with
      | stopped o =>
        simp only [hs] at hr
        cases hr
      | going r₁ =>
        have := hnext r₁ hs
        simp only [hs] at hr
        split at hr
        · rename_i he
          rw [if_pos he] at this
          exact (ih this).2 _ _ hr
        · cases hr

/-- The first buffer and the others. -/
theorem feed_cons (hwf : r.WellFormed) (hstate : r.regs.state = .error) (hgood : r.Good buf)
    (hbuf : buf ≠ []) (bufs : List Bytes) :
    r.atRest.feed n (buf :: bufs) =
      match r.read n buf with
      | .going r' => r'.atRest.feed (n + buf.length) bufs
      | .stopped o => o := by
  rw [Machine.feed, parse_agrees hwf hstate hgood hbuf]
  cases r.read n buf <;> rfl

/-- Buffers that read well are read like their bytes. -/
theorem feed_eq_outcome (hwf : r.WellFormed) (hstate : r.regs.state = .error)
    (hbufs : ∀ buf ∈ bufs, buf ≠ []) (hgood : r.Good bufs.flatten) :
    r.atRest.feed n bufs = r.outcome n bufs.flatten := by
  induction bufs generalizing r n with
  | nil => rfl
  | cons buf bufs ih =>
    obtain ⟨hfirst, hrest⟩ := hgood.append
    rw [feed_cons hwf hstate hfirst (hbufs buf List.mem_cons_self), List.flatten_cons]
    cases hr : r.read n buf with
    | stopped o => exact (outcome_append_stopped hr).symm
    | going r' =>
      obtain ⟨hwf', hstate'⟩ := hwf.read hstate hr
      rw [outcome_append hr]
      exact ih hwf' hstate' (fun b hb => hbufs b (List.mem_cons_of_mem _ hb)) (hrest n r' hr)

/-! ## Byte after byte -/

/-- One byte a buffer. -/
def bytewise (s : Bytes) : List Bytes := s.map fun c => [c]

theorem bytewise_flatten (s : Bytes) : (bytewise s).flatten = s := by
  induction s with
  | nil => rfl
  | cons c cs ih => exact congrArg (c :: ·) ih

theorem bytewise_ne_nil : ∀ buf ∈ bytewise s, buf ≠ [] := by
  intro buf hbuf
  obtain ⟨c, -, rfl⟩ := List.mem_map.mp hbuf
  exact List.cons_ne_nil _ _

/-- One byte always reads well. -/
theorem good_byte (r : Reader) (c : UInt8) : r.Good [c] := by
  refine ⟨fun _ => by decide, fun r' _ => ?_⟩
  split
  · trivial
  · exact Or.inr rfl

/-- Feeding byte by byte is reading. -/
theorem feed_bytewise (hwf : r.WellFormed) (hstate : r.regs.state = .error) (s : Bytes) :
    r.atRest.feed n (bytewise s) = r.outcome n s := by
  induction s generalizing r n with
  | nil => rfl
  | cons c cs ih =>
    have happ : ∀ o, r.read n [c] = .stopped o → r.outcome n (c :: cs) = o :=
      fun o h => outcome_append_stopped (s := [c]) h
    rw [bytewise, List.map_cons, feed_cons hwf hstate (good_byte r c) (List.cons_ne_nil _ _)]
    cases hr : r.read n [c] with
    | stopped o => exact (happ o hr).symm
    | going r' =>
      obtain ⟨hwf', hstate'⟩ := hwf.read hstate hr
      exact (ih hwf' hstate').trans (outcome_append (s := [c]) hr).symm

end Reader

/-! ## Buffers that are read in another way -/

/-- A position is never left backwards. -/
theorem Machine.exec_ge {exit : Machine.Exit} {q : Nat}
    (h : m.exec buf fuel p = .ok (some (m', q, exit))) : p ≤ q := by
  induction fuel generalizing m p with
  | zero => cases h
  | succ fuel ih =>
    have hblob : ∀ m : Machine, ∀ v, (m.advanceBlob buf p v >>= fun (m, p) => m.exec buf fuel p) =
        .ok (some (m', q, exit)) → p ≤ q := by
      intro m v h
      obtain ⟨⟨m₁, p₁⟩, hadv, h⟩ := bind_ok.mp h
      refine Nat.le_trans ?_ (ih h)
      rw [advanceBlob] at hadv
      split at hadv
      · obtain ⟨_, -, hadv⟩ := bind_ok.mp hadv
        obtain ⟨-, rfl⟩ := Prod.mk.inj (Except.ok.inj hadv)
        exact Nat.le_add_right _ _
      · obtain ⟨-, rfl⟩ := Prod.mk.inj (Except.ok.inj hadv)
        exact Nat.le_add_right _ _
    rw [exec] at h
    split at h
    · obtain ⟨-, rfl, -⟩ := Prod.mk.inj (Option.some.inj (Except.ok.inj h))
      exact Nat.le_refl _
    · split at h
      · exact hblob _ _ h
      · exact hblob _ _ h
      · split at h
        · obtain ⟨-, rfl, -⟩ := Prod.mk.inj (Option.some.inj (Except.ok.inj h))
          exact Nat.le_refl _
        · obtain ⟨m₁, -, h⟩ := bind_ok.mp h
          exact Nat.le_trans (Nat.le_succ p) (ih h)

theorem accept_leaveKey (v w : Verb) : .accept v ∉ w.leaveKey := by
  cases w <;> simp [Verb.leaveKey]

theorem accept_afterWord {next : Place} {actions : List Action} {w : Verb}
    (h : afterWord w c = some (actions, next)) : .accept v ∉ actions := by
  cases w <;> grind [afterWord]

/-- A command is accepted at its end, or where its last key may end. -/
theorem transition_accepts {place next : Place} {actions : List Action}
    (h : transition place c = some (actions, next)) (ha : .accept v ∈ actions) :
    next = .done ∨ ∃ w, next = .lastKey w .done := by
  cases place with
  | word w =>
    rw [transition] at h
    split at h
    · obtain ⟨rfl, -⟩ := Prod.mk.inj (Option.some.inj h)
      exact absurd ha List.not_mem_nil
    · obtain ⟨w, -, h⟩ := Option.bind_eq_some_iff.mp h
      exact absurd ha (accept_afterWord h)
  | lastKey w crlf =>
    have := accept_leaveKey v w
    grind [transition]
  | _ => grind [transition, afterFields]

namespace Reader

theorem apply_state {a : Action} (text : Bytes) (regs : Registers) (h : ∀ v, a ≠ .accept v) :
    (a.apply c text regs).state = regs.state := by
  cases a with
  | accept v => exact absurd rfl (h v)
  | _ => rfl

/-- Only `accept` changes `_state`. -/
theorem perform_state {actions : List Action} (h : ∀ v, .accept v ∉ actions)
    (hr : actions.foldlM (perform c) r = .ok r') : r'.regs.state = r.regs.state := by
  induction actions generalizing r with
  | nil =>
    obtain rfl := Except.ok.inj hr
    rfl
  | cons a actions ih =>
    rw [List.foldlM_cons] at hr
    obtain ⟨r₁, hp, hr⟩ := bind_ok.mp hr
    rw [ih (fun v hv => h v (List.mem_cons_of_mem _ hv)) hr]
    have ha : ∀ v, a ≠ .accept v := by
      rintro v rfl
      exact h v List.mem_cons_self
    rw [perform] at hp
    split at hp
    · obtain rfl := Except.ok.inj hp
      rfl
    · split at hp
      · split at hp
        · cases hp
        · obtain rfl := Except.ok.inj hp
          exact apply_state _ _ ha
      · obtain rfl := Except.ok.inj hp
        exact apply_state _ _ ha

/-- Where a command has been accepted. -/
theorem plain_accepts (hstate : r.regs.state = .error) (h : r.plain c = .going r')
    (hacc : r'.regs.state ≠ .error) : r'.place = .done ∨ ∃ w, r'.place = .lastKey w .done := by
  rw [plain] at h
  split at h
  · cases h
  · rename_i actions next ht
    split at h
    · cases h
    · rename_i r₁ hr
      obtain rfl := Progress.going.inj h
      by_cases ha : ∃ v, .accept v ∈ actions
      · obtain ⟨v, hv⟩ := ha
        exact transition_accepts ht hv
      · exact absurd ((perform_state (fun v hv => ha ⟨v, hv⟩) hr).trans hstate) hacc

/-- A command that is accepted before `done` ends with a key. -/
theorem step_accepts (hstate : r.regs.state = .error) (h : r.step c = .going r')
    (hacc : r'.regs.state ≠ .error) (hdone : r'.place ≠ .done) :
    r.place.isPlain = true ∧ ∃ w, r'.place = .lastKey w .done := by
  rw [step] at h
  split at h
  · split at h
    · have hr : r'.regs.state = .error := by
        simp only [plain, transition] at h
        split at h
        · cases h
        · rename_i actions next ht
          split at ht
          · obtain ⟨rfl, rfl⟩ := Prod.mk.inj (Option.some.inj ht)
            obtain rfl := Progress.going.inj h
            exact hstate
          · cases ht
      exact absurd hr hacc
    · obtain rfl := Progress.going.inj h
      refine absurd ?_ hacc
      rw [blobByte]
      split <;> exact hstate
  · obtain rfl := Progress.going.inj h
    refine absurd ?_ hacc
    rw [blobByte]
    split <;> exact hstate
  · rename_i hstart hblob
    refine ⟨?_, (plain_accepts hstate h hacc).resolve_left hdone⟩
    cases hp : r.place with
    | blobStart v => exact absurd hp (hstart v)
    | blob v => exact absurd hp (hblob v)
    | _ => rfl

/-- The reader stops at a character with an error or an exception. -/
theorem step_stopped {o : Outcome} (h : r.step c = .stopped o) :
    (∃ regs, o = .error regs) ∨ ∃ f, o = .thrown f := by
  have hplain : ∀ r : Reader, r.plain c = .stopped o →
      (∃ regs, o = .error regs) ∨ ∃ f, o = .thrown f := by
    intro r h
    rw [plain] at h
    split at h
    · exact Or.inl ⟨_, (Progress.stopped.inj h).symm⟩
    · split at h
      · exact Or.inr ⟨_, (Progress.stopped.inj h).symm⟩
      · cases h
  rw [step] at h
  split at h
  · split at h
    · exact hplain _ h
    · cases h
  · cases h
  · exact hplain _ h

/-- Reading comes to an end. -/
theorem outcome_ne_diverges (r : Reader) (n : Nat) (s : Bytes) : r.outcome n s ≠ .diverges := by
  induction s generalizing r n with
  | nil => exact Outcome.noConfusion
  | cons c cs ih =>
    rw [outcome, read]
    cases hs : r.step c with
    | stopped o =>
      rcases step_stopped hs with ⟨regs, rfl⟩ | ⟨f, rfl⟩
      · exact Outcome.noConfusion
      · exact Outcome.noConfusion
    | going r' =>
      dsimp only
      by_cases he : r'.regs.state = .error
      · rw [if_pos he]
        exact ih r' (n + 1)
      · rw [if_neg he]
        exact Outcome.noConfusion

end Reader

/-- A buffer that is read past position `k` is not consumed up to `k`. -/
theorem feed_past {k : Nat} (regs : Registers)
    (h : ∀ m' q exit, Machine.exec buf (2 * buf.length + 2) { m with builder := m.builder.enter } 0 =
      .ok (some (m', q, exit)) → k < q) :
    m.feed n [buf] ≠ .accepted regs (n + k) := by
  rw [Machine.feed, Machine.parse]
  generalize Machine.exec buf _ _ 0 = x at h
  match x with
  | .error f => exact Outcome.noConfusion
  | .ok none => exact Outcome.noConfusion
  | .ok (some (m', q, exit)) =>
    have hlt := h m' q exit rfl
    dsimp only
    cases m'.builder.leave buf with
    | error f => exact Outcome.noConfusion
    | ok b =>
      dsimp only
      split
      · rename_i hgoing
        split at hgoing
        · cases hgoing
        · split at hgoing
          · cases hgoing
          · exact Outcome.noConfusion
      · rename_i o hstopped
        split at hstopped
        · obtain rfl := Progress.stopped.inj hstopped
          intro hacc
          have := (Outcome.accepted.inj hacc).2
          omega
        · split at hstopped
          · obtain rfl := Progress.stopped.inj hstopped
            exact Outcome.noConfusion
          · cases hstopped

/-- In a key every character has a transition. -/
theorem transition_lastKey (v : Verb) (crlf : Crlf) (c : UInt8) :
    ∃ actions next, transition (.lastKey v crlf) c = some (actions, next) := by
  rw [transition]
  split
  · exact ⟨_, _, rfl⟩
  · split
    · exact ⟨_, _, rfl⟩
    · split
      · exact ⟨_, _, rfl⟩
      · exact ⟨_, _, rfl⟩

/-- A command that ends with a key is not the end of the buffer it ends in. -/
theorem feed_runs_on {cs : Bytes} (hwf : r.WellFormed) (hstate : r.regs.state = .error)
    (hs : r.step c = .going r') (hacc : r'.regs.state ≠ .error) (hdone : r'.place ≠ .done)
    (hcs : cs ≠ []) : r.atRest.feed n [c :: cs] ≠ r.outcome n (c :: cs) := by
  obtain ⟨hplain, w, hw⟩ := Reader.step_accepts hstate hs hacc hdone
  have hout : r.outcome n (c :: cs) = .accepted r'.regs (n + 1) := by
    rw [Reader.outcome, Reader.read, hs]
    simp only [hacc, if_false]
  rw [hout]
  apply feed_past
  intro m₂ q exit hexec
  rcases (hwf.atRest_enter (c :: cs)).plain hwf rfl hplain (2 * cs.length + 3) with
    ⟨hr, -⟩ | ⟨f, hr, -⟩ | ⟨r₁, m₁, hr, hm, hat⟩
  · cases (Reader.step_plain hplain).symm.trans hs |>.symm.trans hr
  · cases (Reader.step_plain hplain).symm.trans hs |>.symm.trans hr
  · obtain rfl := Progress.going.inj ((Reader.step_plain hplain).symm.trans hs |>.symm.trans hr)
    obtain ⟨d, ds, rfl⟩ := List.exists_cons_of_ne_nil hcs
    have hplace : m₁.place = .lastKey w .done := hat.place.trans hw
    obtain ⟨actions, next, ht⟩ := transition_lastKey w .done d
    rw [List.length_cons, show 2 * ((d :: ds).length + 1) + 2 = 2 * (d :: ds).length + 3 + 1 by omega,
      hm, Machine.exec_plain (c := d) rfl (by rw [hplace]; rfl), hplace, ht] at hexec
    obtain ⟨m₃, -, hexec⟩ := bind_ok.mp hexec
    exact Machine.exec_ge hexec

/-- With a multiple of 2^32 bytes left, `advance_blob` does not advance. -/
theorem advanceBlob_stalls (hplace : m.place = .blob v) (hleft : m.regs.sizeLeft ≠ 0)
    (hlen : UInt32.ofNat (buf.length - p) = 0) : m.advanceBlob buf p v = .ok (m, p) := by
  have hzero : min 0 m.regs.sizeLeft = 0 := by
    apply UInt32.toNat_inj.mp
    rw [UInt.toNat_min]
    exact Nat.min_eq_left (Nat.zero_le _)
  obtain ⟨place, regs, builder⟩ := m
  obtain rfl : place = .blob v := hplace
  simp only [Machine.advanceBlob, hlen, hzero, UInt32.sub_zero]
  rw [if_neg hleft]
  rfl

theorem Machine.exec_blob (hc : buf[p]? = some c) (h : m.place = .blob v) :
    m.exec buf (fuel + 1) p = m.advanceBlob buf p v >>= fun (m, p) => exec buf fuel m p := by
  rw [exec, hc]
  dsimp only
  rw [h]

theorem exec_stalls (hplace : m.place = .blob v) (hleft : m.regs.sizeLeft ≠ 0)
    (hp : p < buf.length) (hlen : UInt32.ofNat (buf.length - p) = 0) (fuel : Nat) :
    m.exec buf fuel p = .ok none := by
  induction fuel with
  | zero => rfl
  | succ fuel ih =>
    rw [Machine.exec_blob (List.getElem?_eq_getElem hp) hplace, advanceBlob_stalls hplace hleft hlen,
      ok_bind]
    exact ih

/-- A buffer of 2^32 bytes that starts in a blob is never left. -/
theorem feed_stalls {bufs : List Bytes} (hwf : r.WellFormed) (hwants : r.Wants)
    (hlen : buf.length = 2 ^ 32) : r.atRest.feed n (buf :: bufs) = .diverges := by
  have hbuf : 0 < buf.length := by rw [hlen]; decide
  have hzero : UInt32.ofNat (buf.length - 0) = 0 := by rw [hlen]; decide
  have hexec : Machine.exec buf (2 * buf.length + 2)
      { r.atRest with builder := r.atRest.builder.enter } 0 = .ok none := by
    rcases hwants with ⟨v, hplace, hsize⟩ | ⟨v, hplace⟩
    · rw [Machine.exec_blobStart (List.getElem?_eq_getElem hbuf) hplace,
        ← Machine.advanceBlob_place _ (.blob v), advanceBlob_stalls rfl hsize hzero, ok_bind]
      exact exec_stalls rfl hsize hbuf hzero _
    · exact exec_stalls hplace (hwf.blob (by rw [hplace]; rfl)).1 hbuf hzero _
  rw [Machine.feed, Machine.parse, hexec]

/-- Bytes that do not read well are read differently in some buffers. -/
theorem Reader.feed_ne_outcome {s : Bytes} (hwf : r.WellFormed) (hstate : r.regs.state = .error)
    (hbad : ¬ r.Good s) : ∃ bufs : List Bytes, (∀ buf ∈ bufs, buf ≠ []) ∧ bufs.flatten = s ∧
      r.atRest.feed n bufs ≠ r.outcome n s := by
  induction s generalizing r n with
  | nil => exact absurd trivial hbad
  | cons c cs ih =>
    by_cases hlen : r.Wants → cs.length + 1 < 2 ^ 32
    · have hnext := not_and.mp hbad hlen
      push Not at hnext
      obtain ⟨r', hs, hbad'⟩ := hnext
      by_cases he : r'.regs.state = .error
      · rw [if_pos he] at hbad'
        obtain ⟨bufs, hbufs, rfl, hne⟩ := ih (n := n + 1) (hwf.step hs) he hbad'
        have hread : r.read n [c] = .going r' := by
          rw [read, hs]
          simp only [he, if_true, read]
        refine ⟨[c] :: bufs, List.forall_mem_cons.mpr ⟨List.cons_ne_nil _ _, hbufs⟩, rfl, ?_⟩
        rw [feed_cons hwf hstate (good_byte r c) (List.cons_ne_nil _ _), hread,
          show c :: bufs.flatten = [c] ++ bufs.flatten from rfl, outcome_append hread]
        exact hne
      · rw [if_neg he] at hbad'
        push Not at hbad'
        exact ⟨[c :: cs], by simp, by simp, feed_runs_on hwf hstate hs he hbad'.1 hbad'.2⟩
    · push Not at hlen
      have hbuf : ((c :: cs).take (2 ^ 32)).length = 2 ^ 32 := by
        rw [List.length_take, List.length_cons]
        exact Nat.min_eq_left hlen.2
      refine ⟨(c :: cs).take (2 ^ 32) :: bytewise ((c :: cs).drop (2 ^ 32)), ?_, ?_, ?_⟩
      · refine List.forall_mem_cons.mpr ⟨?_, bytewise_ne_nil⟩
        rintro h
        rw [h] at hbuf
        cases hbuf
      · rw [List.flatten_cons, bytewise_flatten, List.take_append_drop]
      · rw [feed_stalls hwf hlen.1 hbuf]
        exact (outcome_ne_diverges r n _).symm

/-- `init()` for the reader. -/
def Reader.start (regs : Registers) : Reader := { regs := { regs with state := .error, keys := [] } }

/-- The outcome does not depend on how the bytes come in buffers when the bytes read well: no command
that ends with a key is complete before the last byte, and less than 2^32 bytes are left where bytes
of a blob are expected. Otherwise it does. -/
theorem feed_split_independent (regs : Registers) (s : Bytes) :
    (∀ bufs bufs' : List Bytes, (∀ buf ∈ bufs, buf ≠ []) → (∀ buf ∈ bufs', buf ≠ []) →
        bufs.flatten = s → bufs'.flatten = s → feed regs bufs = feed regs bufs') ↔
      (Reader.start regs).Good s := by
  have hwf : (Reader.start regs).WellFormed :=
    ⟨by simp [Reader.start], fun _ => rfl, fun hb => Bool.noConfusion hb⟩
  constructor
  · intro h
    by_contra hbad
    obtain ⟨bufs, hbufs, hflat, hne⟩ := Reader.feed_ne_outcome (n := 0) hwf rfl hbad
    have hbytes := h bufs (Reader.bytewise s) hbufs Reader.bytewise_ne_nil hflat
      (Reader.bytewise_flatten s)
    exact hne (hbytes.trans (Reader.feed_bytewise hwf rfl s))
  · intro hgood bufs bufs' hbufs hbufs' hflat hflat'
    have hfeed : ∀ bufs : List Bytes, (∀ buf ∈ bufs, buf ≠ []) → bufs.flatten = s →
        feed regs bufs = (Reader.start regs).outcome 0 s := by
      rintro bufs hbufs rfl
      exact Reader.feed_eq_outcome hwf rfl hbufs hgood
    rw [hfeed bufs hbufs hflat, hfeed bufs' hbufs' hflat']

/-- `"get a\r\nX"`: in one buffer eight bytes are consumed, in two the seven of the command. -/
theorem feed_split_get :
    (∀ buf ∈ [ascii "get a\r\n", ascii "X"], buf ≠ []) ∧
      [ascii "get a\r\n", ascii "X"].flatten = ascii "get a\r\nX" ∧
      feed {} [ascii "get a\r\nX"] = .accepted { state := .cmd .get, keys := [ascii "a"] } 8 ∧
      feed {} [ascii "get a\r\n", ascii "X"] =
        .accepted { state := .cmd .get, keys := [ascii "a"] } 7 := by
  decide +kernel

end Seastar.Memcached.Parser
