import Seastar.Http.Connection

/-!
What the two loops of a connection keep to. Unless the exception of a failed write ends the
response loop, it ends only after `_replies` was aborted or the read loop has pushed its last item,
so that the read loop never waits for a loop that is gone. As long as no write fails, each parsed
request is written, being written, queued or handled, in that order.
-/

namespace Seastar.Http.Connection

open Lib

/-- The read loop will push nothing any more. -/
def ReaderOver (c : Connection) : Prop := c.reader = .closing ∨ c.reader = .finished

/-- The read loop holds a future of `not_full`. -/
def AwaitsRoom (c : Connection) : Prop :=
  c.reader = .awaitingRoomForEof ∨ ∃ req, c.reader = .awaitingRoom req

/-- What holds of the queue and the loops in every state. -/
structure Inv (c : Connection) : Prop where
  max : c.replies.max = 10
  size : c.replies.q.length ≤ 10
  refused : c.refused = 0
  /-- a writer that waits has not seen an exception -/
  wait : c.replies.notFull = some .unresolved → c.replies.ex = false
  failed : c.replies.notFull = some .failed → c.replies.ex = true
  /-- there is room for the reply that the read loop is about to push -/
  room : c.replies.notFull = some .ready ∨ (∃ req, c.reader = .handling req) →
    c.replies.q.length < 10
  idle : ¬ c.AwaitsRoom → c.replies.notFull = none
  /-- there is an item for the response loop -/
  item : c.replies.notEmpty = some .ready → c.replies.q ≠ []
  noItem : c.responder ≠ .awaitingItem → c.replies.notEmpty = none
  itemFailed : c.replies.notEmpty ≠ some .failed
  /-- the mark of eof is the last that the read loop pushes -/
  eof : none ∈ c.replies.q ∨ c.responder = .popped none → c.replies.ex = true ∨ c.ReaderOver
  ended : ¬ c.Responding → c.replies.ex = true ∨ c.ReaderOver
  aborted : c.replies.ex = true → c.writeFailed = true
  cut : ∀ resp, c.responder = .streaming resp (.flush false) → c.writeFailed = true

theorem Inv.initial : Inv {} where
  max := rfl
  size := Nat.zero_le _
  refused := rfl
  wait h := by cases h
  failed h := by cases h
  room := by simp
  idle _ := rfl
  item h := by cases h
  noItem _ := rfl
  itemFailed h := by cases h
  eof := by simp
  ended h := absurd trivial h
  aborted h := by cases h
  cut resp h := by cases h

variable {c c' : Connection}

/-- No read loop waits for room when the response loop has ended. -/
theorem Inv.responding (h : Inv c) (hw : c.WaitsForRoom) : c.Responding := by
  by_contra hr
  rcases h.ended hr with hex | hover
  · rw [h.wait hw.2] at hex
    cases hex
  · rcases hw.1 with hread | ⟨req, hread⟩ <;> rcases hover with hover | hover <;>
      rw [hread] at hover <;> cases hover

theorem responding_congr (h : c'.responder = c.responder) : c'.Responding ↔ c.Responding := by
  rw [Responding, Responding, h]

theorem readerOver_congr (h : c'.reader = c.reader) : c'.ReaderOver ↔ c.ReaderOver := by
  rw [ReaderOver, ReaderOver, h]

theorem awaitsRoom_congr (h : c'.reader = c.reader) : c'.AwaitsRoom ↔ c.AwaitsRoom := by
  rw [AwaitsRoom, AwaitsRoom, h]

theorem eq_takeNotFull {s : Queue (Option Reply)} (h : s.notFull = none) :
    s = { s with notFull := none } := by
  cases s
  cases h
  rfl

theorem eq_takeNotEmpty {s : Queue (Option Reply)} (h : s.notEmpty = none) :
    s = { s with notEmpty := none } := by
  cases s
  cases h
  rfl

/-! ## The moves of the read loop -/

/-- The read loop goes on, and holds no future of `not_full` any more. -/
theorem Inv.read (h : Inv c) (hq : c'.replies = { c.replies with notFull := none })
    (hs : c'.responder = c.responder) (hf : c'.refused = c.refused)
    (hw : c'.writeFailed = c.writeFailed) (hover : c.ReaderOver → c'.ReaderOver)
    (hroom : ∀ req, c'.reader = .handling req → c.replies.q.length < 10) : Inv c' where
  max := by rw [hq]; exact h.max
  size := by rw [hq]; exact h.size
  refused := hf.trans h.refused
  wait := by rw [hq]; intro h; cases h
  failed := by rw [hq]; intro h; cases h
  room := by
    rw [hq]
    rintro (h | ⟨req, hreq⟩)
    · cases h
    · exact hroom req hreq
  idle _ := by rw [hq]
  item := by rw [hq]; exact h.item
  noItem hne := by
    rw [hq]
    rw [hs] at hne
    exact h.noItem hne
  itemFailed := by rw [hq]; exact h.itemFailed
  eof := by
    rw [hq, hs]
    exact fun he => (h.eof he).imp_right hover
  ended hr := by
    rw [hq]
    exact (h.ended (mt (responding_congr hs).mpr hr)).imp_right hover
  aborted := by rw [hq, hw]; exact h.aborted
  cut := by rw [hs, hw]; exact h.cut

/-- The read loop pushes to a queue that has room. -/
theorem Inv.push (h : Inv c) {resp : Option Reply} (hl : c.replies.q.length < 10)
    (hq : c'.replies = Queue.pushAfterWait { c.replies with notFull := none } resp)
    (hs : c'.responder = c.responder) (hf : c'.refused = c.refused)
    (hw : c'.writeFailed = c.writeFailed) (hover : c.ReaderOver ∨ resp = none → c'.ReaderOver)
    (hread : ∀ req, c'.reader ≠ .handling req) : Inv c' where
  max := by rw [hq]; exact h.max
  size := by
    rw [hq]
    show (c.replies.q ++ [resp]).length ≤ 10
    rw [List.length_append]
    exact hl
  refused := hf.trans h.refused
  wait := by rw [hq]; intro h; cases h
  failed := by rw [hq]; intro h; cases h
  room := by
    rw [hq]
    rintro (h | ⟨req, hreq⟩)
    · cases h
    · exact absurd hreq (hread req)
  idle _ := by rw [hq]; rfl
  item _ := by
    rw [hq]
    show c.replies.q ++ [resp] ≠ []
    simp
  noItem hne := by
    rw [hq]
    rw [hs] at hne
    show c.replies.notEmpty.map Pending.setValue = none
    rw [h.noItem hne]
    rfl
  itemFailed := by
    rw [hq]
    show c.replies.notEmpty.map Pending.setValue ≠ some .failed
    have hfailed := h.itemFailed
    cases hn : c.replies.notEmpty with
    | none => simp
    | some f =>
      rw [hn] at hfailed
      cases f with
      | failed => exact absurd rfl hfailed
      | unresolved => decide
      | ready => decide
  eof := by
    rw [hq, hs]
    rintro (hm | hp)
    · rcases List.mem_append.mp hm with hm | hm
      · exact (h.eof (.inl hm)).imp_right fun ho => hover (.inl ho)
      · exact .inr (hover (.inr (List.mem_singleton.mp hm).symm))
    · exact (h.eof (.inr hp)).imp_right fun ho => hover (.inl ho)
  ended hr := by
    rw [hq]
    exact (h.ended (mt (responding_congr hs).mpr hr)).imp_right fun ho => hover (.inl ho)
  aborted := by rw [hq, hw]; exact h.aborted
  cut := by rw [hs, hw]; exact h.cut

/-- The read loop asks for room. -/
theorem Inv.waitNotFull (h : Inv c) (hq : c'.replies = c.replies.waitNotFull)
    (hs : c'.responder = c.responder) (hf : c'.refused = c.refused)
    (hw : c'.writeFailed = c.writeFailed) (hover : ¬ c.ReaderOver) (hread : c'.AwaitsRoom) :
    Inv c' := by
  have hnf : c.replies.waitNotFull =
      { c.replies with notFull := c.replies.waitNotFull.notFull } := by
    unfold Queue.waitNotFull
    split
    · rfl
    · split <;> rfl
  have hcase : c.replies.waitNotFull.notFull = some .failed ∧ c.replies.ex = true ∨
      c.replies.waitNotFull.notFull = some .unresolved ∧ c.replies.ex = false ∨
      c.replies.waitNotFull.notFull = some .ready ∧ c.replies.q.length < 10 := by
    unfold Queue.waitNotFull
    by_cases hex : c.replies.ex = true
    · rw [if_pos hex]
      exact .inl ⟨rfl, hex⟩
    · rw [if_neg hex]
      by_cases hfull : c.replies.full = true
      · rw [if_pos hfull]
        exact .inr (.inl ⟨rfl, by simpa using hex⟩)
      · rw [if_neg hfull]
        refine .inr (.inr ⟨rfl, ?_⟩)
        simpa [Queue.full, h.max] using hfull
  generalize c.replies.waitNotFull.notFull = f at hnf hcase
  rw [hnf] at hq
  exact {
    max := by rw [hq]; exact h.max
    size := by rw [hq]; exact h.size
    refused := hf.trans h.refused
    wait := by
      rw [hq]
      rintro rfl
      rcases hcase with ⟨hc, -⟩ | ⟨-, hex⟩ | ⟨hc, -⟩
      · cases hc
      · exact hex
      · cases hc
    failed := by
      rw [hq]
      rintro rfl
      rcases hcase with ⟨-, hex⟩ | ⟨hc, -⟩ | ⟨hc, -⟩
      · exact hex
      · cases hc
      · cases hc
    room := by
      rw [hq]
      rintro (rfl | ⟨req, hreq⟩)
      · rcases hcase with ⟨hc, -⟩ | ⟨hc, -⟩ | ⟨-, hl⟩
        · cases hc
        · cases hc
        · exact hl
      · rcases hread with hread | ⟨req', hread⟩ <;> rw [hread] at hreq <;> cases hreq
    idle := fun hi => absurd hread hi
    item := by rw [hq]; exact h.item
    noItem := by rw [hq, hs]; exact h.noItem
    itemFailed := by rw [hq]; exact h.itemFailed
    eof := by
      rw [hq, hs]
      exact fun he => (h.eof he).imp_right fun ho => absurd ho hover
    ended := fun hr => by
      rw [hq]
      exact (h.ended (mt (responding_congr hs).mpr hr)).imp_right fun ho => absurd ho hover
    aborted := by rw [hq, hw]; exact h.aborted
    cut := by rw [hs, hw]; exact h.cut }

/-! ## The moves of the response loop -/

/-- The response loop goes on, and holds no future of `not_empty` any more. -/
theorem Inv.respond (h : Inv c) (hq : c'.replies = { c.replies with notEmpty := none })
    (hr : c'.reader = c.reader) (hf : c'.refused = c.refused)
    (hw : c.writeFailed = true → c'.writeFailed = true)
    (hended : ¬ c'.Responding ∨ c'.responder = .popped none → c.replies.ex = true ∨ c.ReaderOver)
    (hcut : ∀ resp, c'.responder ≠ .streaming resp (.flush false)) : Inv c' where
  max := by rw [hq]; exact h.max
  size := by rw [hq]; exact h.size
  refused := hf.trans h.refused
  wait := by rw [hq]; exact h.wait
  failed := by rw [hq]; exact h.failed
  room := by rw [hq, hr]; exact h.room
  idle hi := by
    rw [hq]
    exact h.idle (mt (awaitsRoom_congr hr).mpr hi)
  item := by rw [hq]; intro h; cases h
  noItem _ := by rw [hq]
  itemFailed := by rw [hq]; intro h; cases h
  eof := by
    rw [hq, readerOver_congr hr]
    rintro (hm | hp)
    · exact h.eof (.inl hm)
    · exact hended (.inr hp)
  ended he := by
    rw [hq, readerOver_congr hr]
    exact hended (.inl he)
  aborted := by rw [hq]; exact fun hex => hw (h.aborted hex)
  cut resp h := absurd h (hcut resp)

/-- The response loop pops an item. -/
theorem Inv.pop (h : Inv c) {resp : Option Reply} {q : List (Option Reply)}
    (hcons : c.replies.q = resp :: q)
    (hq : c'.replies = { (if c.replies.q.length = c.replies.max then c.replies.notifyNotFull
      else c.replies) with q, notEmpty := none })
    (hs : c'.responder = .popped resp) (hr : c'.reader = c.reader) (hf : c'.refused = c.refused)
    (hw : c'.writeFailed = c.writeFailed) : Inv c' := by
  have hlen : q.length < 10 := by
    have := h.size
    rw [hcons, List.length_cons] at this
    omega
  have hnf : c'.replies.notFull = c.replies.notFull ∨
      c'.replies.notFull = c.replies.notFull.map Pending.setValue := by
    rw [hq]
    split
    · exact .inr rfl
    · exact .inl rfl
  have hmax : c'.replies.max = c.replies.max := by rw [hq]; split <;> rfl
  have hex : c'.replies.ex = c.replies.ex := by rw [hq]; split <;> rfl
  have hq' : c'.replies.q = q := by rw [hq]
  have hne : c'.replies.notEmpty = none := by rw [hq]
  have heof : none ∈ q ∨ resp = none → c.replies.ex = true ∨ c.ReaderOver := by
    intro hm
    refine h.eof (.inl ?_)
    rw [hcons]
    rcases hm with hm | rfl
    · exact .tail _ hm
    · exact .head _
  exact {
    max := hmax.trans h.max
    size := by rw [hq']; exact Nat.le_of_lt hlen
    refused := hf.trans h.refused
    wait := by
      rw [hex]
      intro hu
      rcases hnf with hnf | hnf
      · exact h.wait (hnf ▸ hu)
      · rw [hnf] at hu
        cases hn : c.replies.notFull with
        | none => rw [hn] at hu; cases hu
        | some f => rw [hn] at hu; cases f <;> cases hu
    failed := by
      rw [hex]
      intro hu
      rcases hnf with hnf | hnf
      · exact h.failed (hnf ▸ hu)
      · rw [hnf] at hu
        cases hn : c.replies.notFull with
        | none => rw [hn] at hu; cases hu
        | some f =>
          rw [hn] at hu
          cases f with
          | failed => exact h.failed hn
          | unresolved => cases hu
          | ready => cases hu
    room := fun _ => by rw [hq']; exact hlen
    idle := fun hi => by
      have hnone := h.idle (mt (awaitsRoom_congr hr).mpr hi)
      rcases hnf with hnf | hnf
      · rw [hnf, hnone]
      · rw [hnf, hnone]
        rfl
    item := by rw [hne]; intro h; cases h
    noItem := fun _ => hne
    itemFailed := by rw [hne]; intro h; cases h
    eof := by
      rw [hq', hs, hex, readerOver_congr hr]
      rintro (hm | hp)
      · exact heof (.inl hm)
      · exact heof (.inr (Responder.popped.inj hp))
    ended := fun hnr => absurd (by rw [Responding, hs]; trivial) hnr
    aborted := by rw [hex, hw]; exact h.aborted
    cut := fun _ h => by rw [hs] at h; cases h }

/-- The response loop waits for an item. -/
theorem Inv.waitNotEmpty (h : Inv c) (hempty : c.replies.q = [])
    (hq : c'.replies = { c.replies with notEmpty := some .unresolved })
    (hs : c'.responder = .awaitingItem) (hr : c'.reader = c.reader) (hf : c'.refused = c.refused)
    (hw : c'.writeFailed = c.writeFailed) : Inv c' where
  max := by rw [hq]; exact h.max
  size := by rw [hq]; exact h.size
  refused := hf.trans h.refused
  wait := by rw [hq]; exact h.wait
  failed := by rw [hq]; exact h.failed
  room := by rw [hq, hr]; exact h.room
  idle hi := by
    rw [hq]
    exact h.idle (mt (awaitsRoom_congr hr).mpr hi)
  item := by rw [hq]; intro h; cases h
  noItem hne := absurd hs hne
  itemFailed := by rw [hq]; intro h; cases h
  eof := by
    rw [hq, hs, hempty]
    rintro (hm | hp)
    · cases hm
    · cases hp
  ended hnr := absurd (by rw [Responding, hs]; trivial) hnr
  aborted := by rw [hq, hw]; exact h.aborted
  cut _ h := by rw [hs] at h; cases h

theorem abortReplies_eq (h : Inv c) (hna : c.responder ≠ .awaitingItem) :
    c.abortReplies = { c with
      done := true
      replies := { c.replies.abort with q := [none], notEmpty := none } } := by
  have hmax : 0 < c.replies.max := by
    rw [h.max]
    decide
  rw [abortReplies, push, Queue.push]
  simp only [Queue.abort, List.length_nil, hmax, if_true, h.noItem hna, Option.map_none]
  rfl

/-- The response loop aborts `_replies` after a failed write. -/
theorem Inv.abort (h : Inv c) (hna : c.responder ≠ .awaitingItem)
    (hq : c'.replies = c.abortReplies.replies) (hr : c'.reader = c.reader)
    (hf : c'.refused = c.abortReplies.refused) (hw : c'.writeFailed = true) :
    Inv c' := by
  rw [abortReplies_eq h hna] at hq hf
  have hex : c'.replies.ex = true := by rw [hq]; rfl
  exact {
    max := by rw [hq]; exact h.max
    size := by rw [hq]; exact (by decide : 1 ≤ 10)
    refused := hf.trans h.refused
    wait := by
      rw [hq]
      show c.replies.notFull.map Pending.setException = some .unresolved → _
      cases c.replies.notFull with
      | none => intro h; cases h
      | some f => cases f <;> intro h <;> cases h
    failed := fun _ => hex
    room := fun _ => by rw [hq]; exact (by decide : 1 < 10)
    idle := fun hi => by
      rw [hq]
      show c.replies.notFull.map Pending.setException = none
      rw [h.idle (mt (awaitsRoom_congr hr).mpr hi)]
      rfl
    item := by rw [hq]; intro h; cases h
    noItem := fun _ => by rw [hq]
    itemFailed := by rw [hq]; intro h; cases h
    eof := fun _ => .inl hex
    ended := fun _ => .inl hex
    aborted := fun _ => hw
    cut := fun _ _ => hw }

/-! ## The requests -/

/-- The request that the read loop has parsed and not answered yet. -/
def reading (c : Connection) : List Nat :=
  match c.reader with
  | .awaitingRoom _ | .handling _ => [c.parsed - 1]
  | _ => []

/-- The request whose response is being written. -/
def responding (c : Connection) : List Nat :=
  match c.responder with
  | .popped (some resp) | .writing resp _ | .streaming resp _ => [resp.request]
  | _ => []

/-- The requests whose replies are queued. -/
def queued (q : List (Option Reply)) : List Nat := q.filterMap (Option.map Reply.request)

/-- Every parsed request is in one place, in the order they were parsed, and the mark of eof comes
behind them all. -/
structure Answered (c : Connection) : Prop where
  requests : c.written ++ (c.responding ++ (queued c.replies.q ++ c.reading)) = List.range c.parsed
  last : (∃ rs : List Reply, c.replies.q = rs.map some) ∨
    c.ReaderOver ∧ ∃ rs : List Reply, c.replies.q = rs.map some ++ [none]
  ended : c.responder = .popped none ∨ ¬ c.Responding → c.ReaderOver ∧ c.replies.q = []

theorem Answered.initial : Answered {} where
  requests := rfl
  last := .inl ⟨[], rfl⟩
  ended h := by
    rcases h with h | h
    · cases h
    · exact absurd trivial h

theorem responding_eq (h : c'.responder = c.responder) : c'.responding = c.responding := by
  rw [Connection.responding, Connection.responding, h]

theorem reading_eq (hr : c'.reader = c.reader) (hp : c'.parsed = c.parsed) :
    c'.reading = c.reading := by
  rw [reading, reading, hr, hp]

theorem Answered.noEof (h : Answered c) (hr : ¬ c.ReaderOver) :
    ∃ rs : List Reply, c.replies.q = rs.map some :=
  h.last.resolve_right fun hover => hr hover.1

/-- The read loop goes on with the same request. -/
theorem Answered.read (h : Answered c) (hq : c'.replies.q = c.replies.q)
    (hs : c'.responder = c.responder) (hw : c'.written = c.written) (hp : c'.parsed = c.parsed)
    (hr : c'.reading = c.reading) (hover : c.ReaderOver → c'.ReaderOver) : Answered c' where
  requests := by rw [hw, responding_eq hs, hq, hr, hp]; exact h.requests
  last := by rw [hq]; exact h.last.imp_right fun ⟨ho, hq⟩ => ⟨hover ho, hq⟩
  ended := by
    rw [hs, hq, responding_congr hs]
    exact fun he => (h.ended he).imp_left hover

/-- A request is parsed. -/
theorem Answered.parse (h : Answered c) (hq : c'.replies.q = c.replies.q)
    (hs : c'.responder = c.responder) (hw : c'.written = c.written) (hp : c'.parsed = c.parsed + 1)
    (hr : c.reading = []) (hr' : c'.reading = [c.parsed]) (hover : ¬ c.ReaderOver) :
    Answered c' where
  requests := by
    have hrange := h.requests
    rw [hr, List.append_nil] at hrange
    rw [hw, responding_eq hs, hq, hr', hp, List.range_succ, ← hrange]
    simp only [List.append_assoc]
  last := .inl (hq ▸ h.noEof hover)
  ended := by
    rw [hs, hq, responding_congr hs]
    exact fun he => absurd (h.ended he).1 hover

/-- The reply to the request is pushed. -/
theorem Answered.reply (h : Answered c) {resp : Reply}
    (hq : c'.replies.q = c.replies.q ++ [some resp])
    (hs : c'.responder = c.responder) (hw : c'.written = c.written) (hp : c'.parsed = c.parsed)
    (hr : c.reading = [resp.request]) (hr' : c'.reading = []) (hover : ¬ c.ReaderOver) :
    Answered c' where
  requests := by
    rw [hw, responding_eq hs, hq, hr', hp, ← h.requests, hr]
    simp [queued]
  last := by
    obtain ⟨rs, hrs⟩ := h.noEof hover
    exact .inl ⟨rs ++ [resp], by rw [hq, hrs, List.map_append]; rfl⟩
  ended := by
    rw [hs, responding_congr hs]
    exact fun he => absurd (h.ended he).1 hover

/-- The mark of eof is pushed. -/
theorem Answered.eof (h : Answered c) (hq : c'.replies.q = c.replies.q ++ [none])
    (hs : c'.responder = c.responder) (hw : c'.written = c.written) (hp : c'.parsed = c.parsed)
    (hr : c.reading = []) (hr' : c'.reading = []) (hover : ¬ c.ReaderOver)
    (hover' : c'.ReaderOver) : Answered c' where
  requests := by
    rw [hw, responding_eq hs, hq, hr', hp, ← h.requests, hr]
    simp [queued]
  last := by
    obtain ⟨rs, hrs⟩ := h.noEof hover
    exact .inr ⟨hover', rs, by rw [hq, hrs]⟩
  ended := by
    rw [hs, responding_congr hs]
    exact fun he => absurd (h.ended he).1 hover

/-- The response loop goes on, with the response written or still to write. -/
theorem Answered.respond (h : Answered c) (hq : c'.replies.q = c.replies.q)
    (hr : c'.reader = c.reader) (hp : c'.parsed = c.parsed)
    (hw : c'.written ++ c'.responding = c.written ++ c.responding)
    (hover : c'.responder = .popped none ∨ ¬ c'.Responding →
      c.responder = .popped none ∨ ¬ c.Responding) : Answered c' where
  requests := by
    rw [← List.append_assoc, hw, hq, reading_eq hr hp, hp, List.append_assoc]
    exact h.requests
  last := by rw [hq, readerOver_congr hr]; exact h.last
  ended he := by rw [hq, readerOver_congr hr]; exact h.ended (hover he)

/-- The response loop pops an item. -/
theorem Answered.pop (h : Answered c) {resp : Option Reply} {q : List (Option Reply)}
    (hcons : c.replies.q = resp :: q) (hq : c'.replies.q = q) (hs : c'.responder = .popped resp)
    (hr : c'.reader = c.reader) (hp : c'.parsed = c.parsed) (hw : c'.written = c.written)
    (hnone : c.responding = []) : Answered c' where
  requests := by
    rw [hw, hq, reading_eq hr hp, hp, ← h.requests, hnone, hcons]
    cases resp with
    | none => simp [Connection.responding, hs, queued]
    | some resp => simp [Connection.responding, hs, queued]
  last := by
    rw [hq, readerOver_congr hr]
    rcases h.last with ⟨rs, hrs⟩ | ⟨hover, rs, hrs⟩
    · rw [hcons] at hrs
      cases rs with
      | nil => cases hrs
      | cons r rs => exact .inl ⟨rs, (List.cons.inj hrs).2⟩
    · rw [hcons] at hrs
      cases rs with
      | nil => exact .inl ⟨[], (List.cons.inj hrs).2⟩
      | cons r rs => exact .inr ⟨hover, rs, (List.cons.inj hrs).2⟩
  ended := by
    rintro (he | he)
    · rw [hs] at he
      obtain rfl := Responder.popped.inj he
      rw [hq, readerOver_congr hr]
      rcases h.last with ⟨rs, hrs⟩ | ⟨hover, rs, hrs⟩
      · rw [hcons] at hrs
        cases rs <;> cases hrs
      · rw [hcons] at hrs
        cases rs with
        | nil => exact ⟨hover, (List.cons.inj hrs).2⟩
        | cons r rs => cases (List.cons.inj hrs).1
    · exact absurd (by rw [Responding, hs]; trivial) he

/-! ## Steps and runs -/

/-- The invariant, and the order of the requests as long as no write has failed. -/
structure Good (c : Connection) : Prop where
  inv : Inv c
  answered : c.writeFailed = false → Answered c

theorem Good.initial : Good {} := ⟨Inv.initial, fun _ => Answered.initial⟩

/-- A reply without a body writer is being written. -/
def writing (c : Connection) : Bool :=
  match c.responder with
  | .writing _ _ => true
  | _ => false

/-- No write of a reply without a body writer fails. -/
def Sound (c : Connection) (e : Event) : Prop := e = .wrote false → c.writing = false

instance (c : Connection) (e : Event) : Decidable (Sound c e) :=
  inferInstanceAs (Decidable (e = .wrote false → c.writing = false))

theorem Inv.ex_eq_false (h : Inv c) (hw : c.writeFailed = false) : c.replies.ex = false := by
  cases hex : c.replies.ex with
  | false => rfl
  | true =>
    rw [h.aborted hex] at hw
    cases hw

theorem waitNotFull_q (s : Queue (Option Reply)) : s.waitNotFull.q = s.q := by
  unfold Queue.waitNotFull
  split
  · rfl
  · split <;> rfl

/-- The read loop goes on with the same request. -/
theorem Good.read (h : Good c) (hq : c'.replies = { c.replies with notFull := none })
    (hs : c'.responder = c.responder) (hf : c'.refused = c.refused)
    (hw : c'.writeFailed = c.writeFailed) (hwritten : c'.written = c.written)
    (hp : c'.parsed = c.parsed) (hr : c'.reading = c.reading)
    (hover : c.ReaderOver → c'.ReaderOver)
    (hroom : ∀ req, c'.reader = .handling req → c.replies.q.length < 10) : Good c' where
  inv := h.inv.read hq hs hf hw hover hroom
  answered hw' := (h.answered (hw ▸ hw')).read (by rw [hq]) hs hwritten hp hr hover

/-- The read loop sees the exception of an abort. -/
theorem Good.readFailed (h : Good c) (hex : c.replies.ex = true)
    (hq : c'.replies = { c.replies with notFull := none })
    (hs : c'.responder = c.responder) (hf : c'.refused = c.refused)
    (hw : c'.writeFailed = c.writeFailed) (hover : c.ReaderOver → c'.ReaderOver)
    (hroom : ∀ req, c'.reader ≠ .handling req) : Good c' where
  inv := h.inv.read hq hs hf hw hover fun req hr => absurd hr (hroom req)
  answered hw' := by
    rw [h.inv.ex_eq_false (hw ▸ hw')] at hex
    cases hex

/-- The read loop pushes the mark of eof, waits to, or sees the exception of an abort. -/
theorem Good.readEnded (h : Good c) {failed : Bool} (hread : c.reader = .ended failed) :
    Good (c.readEnded failed) := by
  have hover : ¬ c.ReaderOver := by simp [ReaderOver, hread]
  have hreading : c.reading = [] := by simp [reading, hread]
  have hnone := h.inv.idle (by simp [AwaitsRoom, hread])
  unfold Connection.readEnded
  generalize hd : (if failed = true then { c with readErrors := c.readErrors + 1 } else c) = d
  have hdc : d.replies = c.replies ∧ d.responder = c.responder ∧ d.refused = c.refused ∧
      d.writeFailed = c.writeFailed ∧ d.written = c.written ∧ d.parsed = c.parsed := by
    subst hd
    split <;> exact ⟨rfl, rfl, rfl, rfl, rfl, rfl⟩
  obtain ⟨hdq, hds, hdf, hdw, hdwritten, hdp⟩ := hdc
  by_cases hex : c.replies.ex = true
  · have hpush : d.replies.pushEventually none = (.failed, c.replies) := by
      rw [hdq, Queue.pushEventually, if_pos hex]
    simp only [hpush]
    exact h.readFailed hex (eq_takeNotFull hnone) hds hdf hdw (fun _ => .inl rfl) (by simp)
  · by_cases hfull : c.replies.full = true
    · have hpush : d.replies.pushEventually none = (.waits, c.replies.waitNotFull) := by
        rw [hdq, Queue.pushEventually, if_neg hex, if_pos hfull]
      simp only [hpush]
      refine ⟨h.inv.waitNotFull rfl hds hdf hdw hover (.inl rfl), fun hw => ?_⟩
      exact (h.answered (hdw ▸ hw)).read (waitNotFull_q c.replies) hds hdwritten hdp
        (by simp [reading, hread]) fun ho => absurd ho hover
    · have hpush : d.replies.pushEventually none = (.done (), c.replies.pushAfterWait none) := by
        rw [hdq, Queue.pushEventually, if_neg hex, if_neg hfull]
      simp only [hpush]
      have hl : c.replies.q.length < 10 := by simpa [Queue.full, h.inv.max] using hfull
      have hq : c.replies.pushAfterWait none =
          Queue.pushAfterWait { c.replies with notFull := none } none :=
        congrArg (Queue.pushAfterWait · none) (eq_takeNotFull hnone)
      refine ⟨h.inv.push hl hq hds hdf hdw (fun _ => .inl rfl) (by simp), fun hw => ?_⟩
      exact (h.answered (hdw ▸ hw)).eof rfl hds hdwritten hdp hreading rfl hover (.inl rfl)

theorem Good.readStep (h : Good c) : Good c.readStep := by
  unfold Connection.readStep
  split
  case h_1 hread =>
    have hreading : c.reading = [] := by simp [reading, hread]
    have hnone := h.inv.idle (by simp [AwaitsRoom, hread])
    have hover : ¬ c.ReaderOver := by simp [ReaderOver, hread]
    split
    · exact h.read (eq_takeNotFull hnone) rfl rfl rfl rfl rfl hreading.symm
        (fun ho => absurd ho hover) (by simp)
    · exact h.read (eq_takeNotFull hnone) rfl rfl rfl rfl rfl hreading.symm
        (fun ho => absurd ho hover) (by simp)
  case h_2 req hread hnf =>
    have hover : ¬ c.ReaderOver := by simp [ReaderOver, hread]
    exact h.read rfl rfl rfl rfl rfl rfl (by simp [reading, hread, takeNotFull])
      (fun ho => absurd ho hover) fun _ _ => h.inv.room (.inl hnf)
  case h_3 req hread hnf =>
    have hover : ¬ c.ReaderOver := by simp [ReaderOver, hread]
    exact h.readFailed (h.inv.failed hnf) rfl rfl rfl rfl (fun ho => absurd ho hover) (by simp)
  case h_4 b hread =>
    have hreading : c.reading = [] := by simp [reading, hread]
    have hnone := h.inv.idle (by simp [AwaitsRoom, hread])
    have hover : ¬ c.ReaderOver := by simp [ReaderOver, hread]
    exact h.read (eq_takeNotFull hnone) rfl rfl rfl rfl rfl hreading.symm
      (fun ho => absurd ho hover) (by simp)
  case h_5 failed hread => exact h.readEnded hread
  case h_6 hread hnf =>
    have hover : ¬ c.ReaderOver := by simp [ReaderOver, hread]
    have hreading : c.reading = [] := by simp [reading, hread]
    refine ⟨h.inv.push (h.inv.room (.inl hnf)) rfl rfl rfl rfl (fun _ => .inl rfl) (by simp),
      fun hw => ?_⟩
    exact (h.answered hw).eof rfl rfl rfl rfl hreading rfl hover (.inl rfl)
  case h_7 hread hnf =>
    exact h.readFailed (h.inv.failed hnf) rfl rfl rfl rfl (fun _ => .inl rfl) (by simp)
  case h_8 => exact h

/-- The continuation of `consume` in `read_one`. -/
theorem Good.consumed (h : Good c) (hread : c.reader = .consuming) (o : Consumed) :
    Good (c.consumed o) := by
  have hover : ¬ c.ReaderOver := by simp [ReaderOver, hread]
  have hreading : c.reading = [] := by simp [reading, hread]
  have hnone := h.inv.idle (by simp [AwaitsRoom, hread])
  cases o with
  | eof =>
    exact h.read (eq_takeNotFull hnone) rfl rfl rfl rfl rfl hreading.symm
      (fun ho => absurd ho hover) (by simp [Connection.consumed])
  | failed =>
    exact h.read (eq_takeNotFull hnone) rfl rfl rfl rfl rfl hreading.symm
      (fun ho => absurd ho hover) (by simp [Connection.consumed])
  | request req =>
    refine ⟨h.inv.waitNotFull rfl rfl rfl rfl hover (.inr ⟨req, rfl⟩), fun hw => ?_⟩
    exact (h.answered hw).parse (waitNotFull_q c.replies) rfl rfl rfl hreading rfl hover

theorem push_eq (h : Inv c) (hl : c.replies.q.length < 10) (resp : Option Reply) :
    c.push resp = { c with replies := c.replies.pushAfterWait resp } := by
  have hlt : c.replies.q.length < c.replies.max := by rwa [h.max]
  rw [Connection.push, Queue.push, if_pos hlt]
  rfl

/-- The continuation of `generate_reply` has the room that `not_full` has promised. -/
theorem Good.handled (h : Good c) {req : Request} (hread : c.reader = .handling req)
    (headers : Nat) (bodyWriter : Bool) : Good (c.handled req headers bodyWriter) := by
  have hover : ¬ c.ReaderOver := by simp [ReaderOver, hread]
  have hl := h.inv.room (.inr ⟨req, hread⟩)
  have hnone := h.inv.idle (by simp [AwaitsRoom, hread])
  rw [Connection.handled, push_eq h.inv hl]
  have hq : ∀ resp, c.replies.pushAfterWait resp =
      Queue.pushAfterWait { c.replies with notFull := none } resp := fun resp =>
    congrArg (Queue.pushAfterWait · resp) (eq_takeNotFull hnone)
  refine ⟨h.inv.push hl (hq _) rfl rfl rfl ?_ (by simp), fun hw => ?_⟩
  · rintro (ho | hn)
    · exact absurd ho hover
    · cases hn
  · exact (h.answered hw).reply rfl rfl rfl rfl (by simp [reading, hread]) rfl hover

theorem pop_cons {s : Queue (Option Reply)} {resp : Option Reply} {q : List (Option Reply)}
    (hcons : s.q = resp :: q) :
    s.pop = .ok (resp, { (if s.q.length = s.max then s.notifyNotFull else s) with q }) := by
  rw [Queue.pop]
  have hq : (if s.q.length = s.max then s.notifyNotFull else s).q = resp :: q := by
    rw [← hcons]
    split <;> rfl
  simp only [hq]

/-- An item is popped, when the response loop holds no future of `not_empty` any more. -/
theorem Good.pop (h : Good c) (hq : c.replies.q ≠ []) (hnone : c.responding = []) :
    ∃ r, Queue.pop { c.replies with notEmpty := none } = .ok r ∧
      Good (c.gotItem (.done r.1, r.2)) := by
  obtain ⟨resp, q, hcons⟩ := List.exists_cons_of_ne_nil hq
  refine ⟨_, pop_cons hcons, h.inv.pop hcons ?_ rfl rfl rfl rfl, fun hw => ?_⟩
  · simp only [gotItem]
    split
    · rfl
    · rfl
  · exact (h.answered hw).pop hcons rfl rfl rfl rfl rfl hnone

/-- The response loop sees the exception of the abort. -/
theorem Good.respondFailed (h : Good c) (hex : c.replies.ex = true)
    (hq : c'.replies = { c.replies with notEmpty := none }) (hr : c'.reader = c.reader)
    (hf : c'.refused = c.refused) (hw : c'.writeFailed = c.writeFailed)
    (hcut : ∀ resp, c'.responder ≠ .streaming resp (.flush false)) : Good c' where
  inv := h.inv.respond hq hr hf (fun h => hw.trans h) (fun _ => .inl hex) hcut
  answered hw' := by
    rw [h.inv.ex_eq_false (hw ▸ hw')] at hex
    cases hex

/-- The response loop goes on, with the response written or still to write. -/
theorem Good.respond (h : Good c) (hna : c.responder ≠ .awaitingItem) (hq : c'.replies = c.replies)
    (hr : c'.reader = c.reader) (hf : c'.refused = c.refused) (hw : c'.writeFailed = c.writeFailed)
    (hp : c'.parsed = c.parsed)
    (hwritten : c'.written ++ c'.responding = c.written ++ c.responding)
    (hover : c'.responder = .popped none ∨ ¬ c'.Responding →
      c.responder = .popped none ∨ ¬ c.Responding)
    (hcut : ∀ resp, c'.responder ≠ .streaming resp (.flush false)) : Good c' where
  inv := by
    refine h.inv.respond (hq.trans (eq_takeNotEmpty (h.inv.noItem hna))) hr hf
      (fun h => hw.trans h) (fun he => ?_) hcut
    rcases hover he.symm with ho | ho
    · exact h.inv.eof (.inr ho)
    · exact h.inv.ended ho
  answered hw' := (h.answered (hw ▸ hw')).respond (by rw [hq]) hr hp hwritten hover

/-- The response loop takes an item, waits for one, or sees the exception of the abort. -/
theorem Good.popEventually (h : Good c) (hresp : c.responder = .popping) :
    ∃ c', c.replies.popEventually.map c.gotItem = .ok c' ∧ Good c' := by
  have hnone := h.inv.noItem (by simp [hresp])
  have hresponding : c.responding = [] := by simp [Connection.responding, hresp]
  rw [Queue.popEventually]
  by_cases hex : c.replies.ex = true
  · rw [if_pos hex]
    exact ⟨_, rfl, h.respondFailed hex (eq_takeNotEmpty hnone) rfl rfl rfl (by simp [gotItem])⟩
  · rw [if_neg hex]
    by_cases hempty : c.replies.q = []
    · have hwait : c.replies.waitNotEmpty = { c.replies with notEmpty := some .unresolved } := by
        simp [Queue.waitNotEmpty, hex, Queue.empty, hempty]
      rw [if_pos (by simp [Queue.empty, hempty]), hwait]
      refine ⟨_, rfl, h.inv.waitNotEmpty hempty rfl rfl rfl rfl rfl, fun hw => ?_⟩
      refine (h.answered hw).respond rfl rfl rfl ?_ ?_
      · rw [hresponding]
        rfl
      · rintro (ho | ho)
        · cases ho
        · exact absurd trivial ho
    · rw [if_neg (by simpa [Queue.empty] using hempty)]
      obtain ⟨r, hr, hgood⟩ := h.pop hempty hresponding
      rw [← eq_takeNotEmpty hnone] at hr
      rw [hr]
      exact ⟨_, rfl, hgood⟩

/-- The continuation of `pop_eventually` finds the item that it was promised. -/
theorem Good.popAfterWait (h : Good c) (hresp : c.responder = .awaitingItem)
    (hready : c.replies.notEmpty = some .ready) :
    ∃ c', (Queue.popAfterWait { c.replies with notEmpty := none }).map c.gotItem = .ok c' ∧
      Good c' := by
  have hresponding : c.responding = [] := by simp [Connection.responding, hresp]
  rw [Queue.popAfterWait]
  by_cases hex : c.replies.ex = true
  · rw [if_pos hex]
    exact ⟨_, rfl, h.respondFailed hex rfl rfl rfl rfl (by simp [gotItem])⟩
  · rw [if_neg hex]
    obtain ⟨r, hr, hgood⟩ := h.pop (h.inv.item hready) hresponding
    rw [hr]
    exact ⟨_, rfl, hgood⟩

theorem Good.respondStep (h : Good c) : ∃ c', c.respondStep = .ok c' ∧ Good c' := by
  unfold Connection.respondStep
  split
  case h_1 hresp => exact h.popEventually hresp
  case h_2 hresp hready => exact h.popAfterWait hresp hready
  case h_3 hresp hfailed => exact absurd hfailed h.inv.itemFailed
  case h_4 hresp =>
    refine ⟨_, rfl, h.respond (by simp [hresp]) rfl rfl rfl rfl rfl ?_ (fun _ => .inl hresp)
      (by simp)⟩
    simp [Connection.responding, hresp]
  case h_5 resp hresp =>
    refine ⟨_, rfl, ?_⟩
    unfold startResponse
    split
    · refine h.respond (by simp [hresp]) rfl rfl rfl rfl rfl ?_ ?_ (by simp)
      · simp [Connection.responding, hresp]
      · simp [Responding]
    · refine h.respond (by simp [hresp]) rfl rfl rfl rfl rfl ?_ ?_ (by simp)
      · simp [Connection.responding, hresp]
      · simp [Responding]
  case h_6 failed hresp =>
    refine ⟨_, rfl, h.respond (by simp [hresp]) rfl rfl rfl rfl rfl ?_ (fun _ => .inr ?_)
      (by simp)⟩
    · simp [Connection.responding, hresp]
    · simp [Responding, hresp]
  case h_7 => exact ⟨c, rfl, h⟩

/-- A write or flush succeeds. -/
theorem Good.wroteOk (h : Good c) : Good c.wroteOk := by
  unfold Connection.wroteOk
  split
  case h_1 resp hresp =>
    refine h.respond (by simp [hresp]) rfl rfl rfl rfl rfl ?_ ?_ (by simp [responded])
    · simp [Connection.responding, hresp, responded]
    · simp [Responding, responded]
  case h_2 resp left hresp =>
    refine h.respond (by simp [hresp]) rfl rfl rfl rfl rfl ?_ ?_ (by simp)
    · simp [Connection.responding, hresp]
    · simp [Responding]
  case h_3 resp hresp =>
    refine h.respond (by simp [hresp]) rfl rfl rfl rfl rfl ?_ ?_ (by simp)
    · simp [Connection.responding, hresp]
    · simp [Responding]
  case h_4 resp hresp =>
    refine h.respond (by simp [hresp]) rfl rfl rfl rfl rfl ?_ ?_ (by simp)
    · simp [Connection.responding, hresp]
    · simp [Responding]
  case h_5 resp hresp =>
    refine h.respond (by simp [hresp]) rfl rfl rfl rfl rfl ?_ ?_ (by simp [responded])
    · simp [Connection.responding, hresp, responded]
    · simp [Responding, responded]
  case h_6 resp hresp =>
    -- the flush that follows a failed write
    have hcut := h.inv.cut resp hresp
    have hnone := h.inv.noItem (by simp [hresp])
    refine ⟨h.inv.respond (eq_takeNotEmpty hnone) rfl rfl id ?_ (by simp), fun hw => ?_⟩
    · simp [Responding]
    · rw [show c.writeFailed = false from hw] at hcut
      cases hcut
  case h_7 => exact h

/-- A write or flush of a reply with a body writer fails. -/
theorem Good.wroteFailed (h : Good c) (hs : c.writing = false) : Good c.wroteFailed := by
  unfold Connection.wroteFailed
  split
  case h_1 resp left hresp => simp [writing, hresp] at hs
  case h_2 resp hresp =>
    exact ⟨h.inv.abort (by simp [hresp]) rfl rfl rfl rfl, by simp⟩
  case h_3 resp hresp =>
    exact ⟨h.inv.abort (by simp [hresp]) rfl rfl rfl rfl, by simp⟩
  case h_4 resp whole hresp =>
    exact ⟨h.inv.abort (by simp [hresp]) rfl rfl rfl rfl, by simp⟩
  case h_5 => exact h

theorem Good.step (h : Good c) {e : Event} (hs : Sound c e) :
    ∃ c', c.step e = .ok c' ∧ Good c' := by
  cases e with
  | read => exact ⟨_, rfl, h.readStep⟩
  | consumed o =>
    refine ⟨_, rfl, ?_⟩
    split
    · rename_i hread
      exact h.consumed hread o
    · exact h
  | handled headers bodyWriter =>
    simp only [Connection.step]
    split
    · rename_i req hread
      exact ⟨_, rfl, h.handled hread headers bodyWriter⟩
    · exact ⟨c, rfl, h⟩
  | readClosed =>
    refine ⟨_, rfl, ?_⟩
    split
    · rename_i hread
      have hnone := h.inv.idle (by simp [AwaitsRoom, hread])
      exact h.read (eq_takeNotFull hnone) rfl rfl rfl rfl rfl (by simp [reading, hread])
        (fun _ => .inr rfl) (by simp)
    · exact h
  | respond => exact h.respondStep
  | wrote ok =>
    cases ok with
    | true => exact ⟨_, rfl, h.wroteOk⟩
    | false => exact ⟨_, rfl, h.wroteFailed (hs rfl)⟩
  | writeClosed =>
    refine ⟨_, rfl, ?_⟩
    split
    · rename_i hresp
      refine h.respond (by simp [hresp]) rfl rfl rfl rfl rfl ?_ (fun _ => .inr ?_) (by simp)
      · simp [Connection.responding, hresp]
      · simp [Responding, hresp]
    · exact h

theorem Good.run (h : Good c) {es : List Event} (hs : Run.Along Connection.step Sound c es) :
    ∃ c', Run.run Connection.step c es = .ok c' ∧ Good c' := by
  induction es generalizing c with
  | nil => exact ⟨c, rfl, h⟩
  | cons e es ih =>
    obtain ⟨d, hd, hgood⟩ := h.step hs.1
    obtain ⟨c', hc', hgood'⟩ := ih hgood (hs.2 d hd)
    exact ⟨c', Run.run_cons_ok.mpr ⟨d, hd, hc'⟩, hgood'⟩

/-- The responses that were written are those of the requests parsed first, each once. -/
theorem Answered.written_eq (h : Answered c) : c.written = List.range c.written.length := by
  have hprefix : c.written <+: List.range c.parsed := ⟨_, h.requests⟩
  have hle : c.written.length ≤ c.parsed := by simpa using hprefix.length_le
  rw [List.prefix_iff_eq_take, List.take_range, Nat.min_eq_left hle] at hprefix
  exact hprefix

/-- When the response loop has ended without an exception, all requests are answered. -/
theorem Answered.written_all (h : Answered c) (hr : ¬ c.Responding) :
    c.written = List.range c.parsed := by
  obtain ⟨hover, hq⟩ := h.ended (.inr hr)
  have hreading : c.reading = [] := by
    rcases hover with hread | hread <;> simp [reading, hread]
  have hresponding : c.responding = [] := by
    unfold Connection.responding
    unfold Responding at hr
    split at hr <;> simp_all
  have hrange := h.requests
  rwa [hresponding, hq, hreading, queued, List.filterMap_nil, List.append_nil, List.append_nil,
    List.append_nil] at hrange

/-- In every run in which no write of a reply without a body writer fails, the connection never pops
from an empty queue, the read loop waits for room only while the response loop is running, and as
long as no write has failed, the responses are written in the order in which their requests were
parsed, each once, none is missing when the response loop ends, and no push is refused. -/
theorem run_never_strands (es : List Event) (hs : Run.Along step Sound {} es) :
    ∃ c : Connection, Run.run step {} es = .ok c ∧ (c.WaitsForRoom → c.Responding) ∧
      (c.writeFailed = false →
        c.written = List.range c.written.length ∧ c.written.length ≤ c.parsed ∧
        (¬ c.Responding → c.written = List.range c.parsed) ∧ c.refused = 0) := by
  obtain ⟨c, hc, hgood⟩ := Good.initial.run hs
  refine ⟨c, hc, hgood.inv.responding, fun hw => ?_⟩
  have hanswered := hgood.answered hw
  have hprefix : c.written <+: List.range c.parsed := ⟨_, hanswered.requests⟩
  exact ⟨hanswered.written_eq, by simpa using hprefix.length_le, hanswered.written_all,
    hgood.inv.refused⟩

/-- The events that answer one request with a reply of no headers. -/
def answer : List Event :=
  [.read, .consumed (.request ⟨"1.1", none⟩), .read, .handled 0 false, .read, .respond, .respond,
    .wrote true, .wrote true, .wrote true, .wrote true]

/-- Two requests are answered, and the client closes the connection. -/
theorem run_never_strands_eof :
    let es := answer ++ answer ++
      [.read, .consumed .eof, .read, .read, .respond, .respond, .respond]
    ∃ c : Connection, Run.run step {} es = .ok c ∧ ¬ c.Responding ∧ c.written = [0, 1] := by
  intro es
  have hend : (Run.run step {} es).map (fun c => (c.responder, c.writeFailed, c.parsed)) =
      .ok (.closing, false, 2) := by decide +kernel
  obtain ⟨c, hc, -, hanswered⟩ := run_never_strands es (by decide +kernel)
  rw [hc] at hend
  obtain ⟨hresp, hw⟩ := Prod.mk.inj (Except.ok.inj hend)
  obtain ⟨hw, hp⟩ := Prod.mk.inj hw
  have hover : ¬ c.Responding := by simp [Responding, hresp]
  refine ⟨c, hc, hover, ?_⟩
  rw [(hanswered hw).2.2.1 hover, hp]
  rfl

/-- The events that parse a request, and push the reply to it. -/
def reply : List Event :=
  [.read, .consumed (.request ⟨"1.1", none⟩), .read, .handled 0 false, .read]

/-- The first write of the first reply fails, which ends the response loop. The read loop pushes ten
more replies, and waits for room for the next one. -/
theorem stranded :
    let es := reply ++ [.respond, .respond, .wrote false] ++ (List.replicate 10 reply).flatten ++
      [.read, .consumed (.request ⟨"1.1", none⟩), .respond, .writeClosed]
    ¬ ∀ c : Connection, Run.run step {} es = .ok c → c.WaitsForRoom → c.Responding := by
  intro es h
  have hend : (Run.run step {} es).map
      (fun c => (c.responder, c.reader, c.replies.notFull)) =
      .ok (.finished, .awaitingRoom ⟨"1.1", none⟩, some .unresolved) := by decide +kernel
  obtain ⟨c, hc, heq⟩ := map_ok.mp hend
  obtain ⟨hresp, heq⟩ := Prod.mk.inj heq
  obtain ⟨hread, hnf⟩ := Prod.mk.inj heq
  have hr := h c hc ⟨.inr ⟨_, hread⟩, hnf⟩
  simp [Responding, hresp] at hr

end Seastar.Http.Connection
