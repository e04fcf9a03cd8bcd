import Seastar.Lib.Assoc
import Seastar.Net.Tcp.Host
import Seastar.Net.Tcp.Negotiation

/-!
The backlog of a listener: `_pending` counts the connections the listener has made that
are still in SYN_RECEIVED. It goes up with a SYN and down in `add_connected_tcb`, which
a connection calls when it becomes ESTABLISHED. A connection that leaves SYN_RECEIVED
through `cleanup` leaves its count behind.
-/

namespace Seastar.Net.Tcp

open Lib

namespace Tcb

variable {hw : HwFeatures} {s a b t : Tcb} {e : Event}

/-! ## What one event asks of the table -/

/-- What one turn asks of the table, and how it enters and leaves SYN_RECEIVED. -/
inductive Asks (s : Tcb) (e : Event) (a b : Tcb) : Prop
  | nothing : b.tableEffects = a.tableEffects →
      (b.state = .synReceived ↔ a.state = .synReceived) → Asks s e a b
  | connected {th : TcpHdr} : Acks s e th → a.state = .synReceived → b.state ≠ .synReceived →
      b.tableEffects = a.tableEffects ++ [.addConnectedTcb] → Asks s e a b
  | removed : CleansUp s e → (b.state = .synReceived → a.state = .synReceived) →
      b.tableEffects = a.tableEffects ++ [.removeFromTcbs] → Asks s e a b

theorem Asks.of_steady (h : Steady a b) : Asks s e a b :=
  .nothing h.table (by rw [h.state])

theorem ackOne_table {now : Int} {seg : UnackedSegment} {data : List UnackedSegment}
    (h : ackOne now seg data a = .ok b) : b.tableEffects = a.tableEffects := by
  obtain ⟨snd, -, h⟩ := bind_ok.mp h
  obtain rfl := Except.ok.inj h
  have hack : (ackSegment now seg a).tableEffects = a.tableEffects := by
    unfold ackSegment
    simp only
    split
    · exact (updateRto_steady now seg.txTime _).table
    · rfl
  have hfree : (freeQueueSpace seg { ackSegment now seg a with snd := snd }).tableEffects =
      (ackSegment now seg a).tableEffects := (signalSendAvailable_steady _).table
  exact hfree.trans hack

theorem dataSegmentAcked_table {now : Int} {segAck : TcpSeq} {n : UInt32}
    (h : dataSegmentAcked now segAck a = .ok (n, b)) : b.tableEffects = a.tableEffects := by
  have hwhole : ∀ (data : List UnackedSegment) {a t : Tcb} {total m : UInt32},
      ackWhole now segAck total data a = .ok (m, t) → t.tableEffects = a.tableEffects := by
    intro data
    induction data with
    | nil =>
      intro a t total m h
      obtain ⟨-, rfl⟩ := Prod.mk.inj (Except.ok.inj h)
      rfl
    | cons seg data ih =>
      intro a t total m h
      rw [ackWhole] at h
      split at h
      · obtain ⟨u, hu, h⟩ := bind_ok.mp h
        exact (ih h).trans (ackOne_table hu)
      · obtain ⟨-, rfl⟩ := Prod.mk.inj (Except.ok.inj h)
        rfl
  obtain ⟨⟨total, t⟩, ht, h⟩ := bind_ok.mp h
  have hpart : b.tableEffects = t.tableEffects := by
    have h : ackPart segAck total t = .ok (n, b) := h
    unfold ackPart at h
    split at h
    · obtain ⟨data, -, h⟩ := bind_ok.mp h
      obtain ⟨snd, -, h⟩ := bind_ok.mp h
      obtain ⟨-, rfl⟩ := Prod.mk.inj (Except.ok.inj h)
      rfl
    · obtain ⟨-, rfl⟩ := Prod.mk.inj (Except.ok.inj h)
      rfl
  exact hpart.trans (hwhole a.snd.data ht)

theorem takeWindow_table (now : Int) (th : TcpHdr) (segSeq : TcpSeq) (tcb : Tcb) :
    (takeWindow now th segSeq tcb).tableEffects = tcb.tableEffects := by
  unfold takeWindow
  split
  · obtain ⟨pt, po, hu⟩ := updateWindow_eq now th segSeq tcb
    rw [hu]
    rfl
  · rfl

/-- A turn that changes neither the effects on the table nor the state. -/
theorem Asks.quiet (ht : b.tableEffects = a.tableEffects) (hs : b.state = a.state) : Asks s e a b :=
  .nothing ht (by rw [hs])

/-- A turn between two other states than SYN_RECEIVED. -/
theorem Asks.elsewhere (ht : b.tableEffects = a.tableEffects) (ha : a.state ≠ .synReceived)
    (hb : b.state ≠ .synReceived) : Asks s e a b :=
  .nothing ht ⟨fun h => absurd h hb, fun h => absurd h ha⟩

theorem Turn.asks (hs : s.state ≠ .synSent) (h : Turn hw s e a b) : Asks s e a b := by
  cases h with
  | steady h => exact .of_steady h
  | @acked _ u th n _ _ _ h =>
    obtain ⟨⟨_, rto, ef, hu⟩, -⟩ := dataSegmentAcked_spec h
    have hstate : u.state = a.state := by rw [hu]
    exact .quiet ((takeWindow_table e.now th s.rcv.next u).trans (dataSegmentAcked_table h))
      ((takeWindow_parameters e.now th s.rcv.next u).2.trans hstate)
  | @opened _ th _ _ _ _ =>
    obtain ⟨pt, po, hu⟩ := updateWindow_eq e.now th s.rcv.next a
    rw [hu]
    exact .quiet rfl rfl
  | counted _ => exact .quiet rfl rfl
  | fresh _ hst h =>
    obtain ⟨p, clone, unsent, lt, da, rt, seg, ho, -⟩ := outputOne_fresh hw e.now hst
    obtain rfl := Except.ok.inj (ho.symm.trans h)
    exact .quiet rfl rfl
  | queued _ _ _ => exact .quiet rfl rfl
  | persisting _ _ => exact .quiet rfl rfl
  | probing _ _ _ => exact .quiet rfl rfl
  | established hacks hst =>
    refine .connected hacks hst nofun ?_
    exact tableEffects_emit .addConnectedTcb { a with state := .established }
  | finReceived st hst =>
    rcases hst with ⟨hst, rfl⟩ | ⟨hst, rfl⟩
    · exact .elsewhere rfl (by rw [hst]; nofun) nofun
    · exact .elsewhere rfl (by rw [hst]; nofun) nofun
  | finAcked st _ _ hst =>
    rcases hst with ⟨hst, rfl⟩ | ⟨-, rfl⟩
    · exact .elsewhere rfl (by rw [hst]; nofun) nofun
    · exact .quiet rfl rfl
  | closing st _ hst =>
    rcases hst with ⟨hst, rfl⟩ | ⟨hst, rfl⟩ | ⟨-, -, rfl⟩
    · exact .elsewhere rfl (by rw [hst]; nofun) nofun
    · exact .elsewhere rfl (by rw [hst]; nofun) nofun
    · exact .quiet rfl rfl
  | cleaned st hc hst =>
    refine .removed hc (fun h => ?_) ?_
    · rcases hst with rfl | rfl | ⟨rfl, -⟩
      · exact h
      · cases h
      · cases h
    · rw [cleanup, tableEffects_emit]
      rfl
  | crossed hst _ _ _ _ _ => exact absurd hst hs
  | negotiated hst _ => exact absurd hst hs

/-- A segment whose ACK field is looked at in SYN_RECEIVED does not clean up. -/
theorem Acks.not_cleansUp {th : TcpHdr} (h : Acks s e th) (hs : s.state = .synReceived) :
    ¬ CleansUp s e := by
  obtain ⟨p, he, -, hp⟩ := h
  obtain ⟨hrst, hsyn, -⟩ := hp
  intro hc
  rw [CleansUp, he] at hc
  simp only [hs, reduceCtorEq, if_false] at hc
  rcases hc.2 with (⟨hr, hsome⟩ | hr) | ⟨-, hf⟩
  · rw [hrst hr] at hsome
    cases hsome
  · rw [hsyn] at hr
    cases hr
  · simp [Finishes, hs] at hf

/-- What an event asks of the table, and how it leaves SYN_RECEIVED. -/
inductive Fate (s : Tcb) (e : Event) (t : Tcb) : Prop
  /-- a connection that stays half open -/
  | waits : s.state = .synReceived → t.state = .synReceived → ¬ CleansUp s e →
      t.tableEffects = [] → Fate s e t
  | connects : s.state = .synReceived → t.state ≠ .synReceived → ¬ CleansUp s e →
      t.tableEffects = [.addConnectedTcb] → Fate s e t
  | dies : s.state = .synReceived → CleansUp s e → .removeFromTcbs ∈ t.tableEffects →
      (∀ x ∈ t.tableEffects, x = .removeFromTcbs) → Fate s e t
  | other : s.state ≠ .synReceived → t.state ≠ .synReceived →
      (∀ x ∈ t.tableEffects, x = .removeFromTcbs) → Fate s e t

/-- As long as the event does not clean up, a connection asks for one thing: to be counted off
when it leaves SYN_RECEIVED. -/
theorem Turns.halfOpen (hs : s.state = .synReceived) (h0 : s.tableEffects = [])
    (hc : ¬ CleansUp s e) (h : Turns hw s e s t) :
    (t.state = .synReceived ∧ t.tableEffects = []) ∨
      (t.state ≠ .synReceived ∧ t.tableEffects = [.addConnectedTcb]) := by
  induction h with
  | refl => exact Or.inl ⟨hs, h0⟩
  | tail _ hturn ih =>
    cases hturn.asks (by rw [hs]; nofun) with
    | nothing ht hst =>
      rw [ht]
      exact ih.imp (fun ⟨h, h'⟩ => ⟨hst.mpr h, h'⟩) (fun ⟨h, h'⟩ => ⟨fun hb => h (hst.mp hb), h'⟩)
    | connected _ ha hb ht =>
      rcases ih with ⟨-, h'⟩ | ⟨h, -⟩
      · refine Or.inr ⟨hb, ?_⟩
        rw [ht, h']
        rfl
      · exact absurd ha h
    | removed hc' _ _ => exact absurd hc' hc

/-- An event that finds the connection elsewhere, or cleans it up, asks for nothing but its
removal. -/
theorem Turns.removes (hs : s.state ≠ .synSent) (h0 : s.tableEffects = [])
    (hc : s.state ≠ .synReceived ∨ CleansUp s e) (h : Turns hw s e s t) :
    (t.state = .synReceived → s.state = .synReceived) ∧
      ∀ x ∈ t.tableEffects, x = .removeFromTcbs := by
  induction h with
  | refl =>
    refine ⟨id, fun x hx => ?_⟩
    rw [h0] at hx
    cases hx
  | tail _ hturn ih =>
    cases hturn.asks hs with
    | nothing ht hst =>
      rw [ht]
      exact ⟨fun h => ih.1 (hst.mp h), ih.2⟩
    | connected hacks ha _ _ =>
      have hsr := ih.1 ha
      exact (hc.elim (fun h => h hsr) (hacks.not_cleansUp hsr)).elim
    | removed _ hst ht =>
      refine ⟨fun h => ih.1 (hst h), fun x hx => ?_⟩
      rw [ht, List.mem_append, List.mem_singleton] at hx
      exact hx.elim (ih.2 x) id

theorem step_fate (hs : s.state ≠ .synSent) (h0 : s.tableEffects = [])
    (h : step hw s e = .ok t) : Fate s e t := by
  have hturns := step_turns h
  by_cases hsr : s.state = .synReceived
  · by_cases hc : CleansUp s e
    · exact .dies hsr hc (step_cleanedFrom hc h).removed
        (Turns.removes hs h0 (Or.inr hc) hturns).2
    · rcases Turns.halfOpen hsr h0 hc hturns with ⟨ht, he⟩ | ⟨ht, he⟩
      · exact .waits hsr ht hc he
      · exact .connects hsr ht hc he
  · obtain ⟨hst, he⟩ := Turns.removes hs h0 (Or.inl hsr) hturns
    exact .other hsr (fun ht => hsr (hst ht)) he

end Tcb

namespace Stack

open Tcb

variable {hw : HwFeatures} {id : Connid} {s u : Tcb} {e : Event} {t t' : Stack}

/-! ## The table -/

/-- The connections of a port that are half open. -/
def halfOpen (t : Stack) (port : UInt16) : Nat :=
  t.tcbs.countP fun e => e.2.state = .synReceived && e.1.localPort = port

/-- The two stacks have the same table and the same listeners. -/
structure Same (t t' : Stack) : Prop where
  tcbs : t'.tcbs = t.tcbs
  listening : t'.listening = t.listening

theorem Same.refl (t : Stack) : Same t t := ⟨rfl, rfl⟩

theorem Same.trans {t₁ t₂ t₃ : Stack} (h : Same t₁ t₂) (h' : Same t₂ t₃) : Same t₁ t₃ :=
  ⟨h'.tcbs.trans h.tcbs, h'.listening.trans h.listening⟩

theorem Same.findListener (h : Same t t') (port : UInt16) :
    t'.findListener port = t.findListener port := by
  rw [Stack.findListener, Stack.findListener, h.listening]

theorem respondWithReset_same (hw : HwFeatures) (th : TcpHdr) (ip : UInt32) (t : Stack) :
    Same t (t.respondWithReset hw th ip) := by
  unfold respondWithReset
  split
  · exact .refl t
  split
  · exact ⟨rfl, rfl⟩
  · exact .refl t

theorem applyEffect_idle (hw : HwFeatures) (id : Connid) {x : Effect} (hx : x.idle = true)
    (t : Stack) :
    Same t (applyEffect hw id t x) := by
  cases x with
  | wake => exact .refl t
  | pollTcb => exact ⟨rfl, rfl⟩
  | respondWithReset th => exact respondWithReset_same hw th id.foreignIp t
  | addConnectedTcb => cases hx
  | removeFromTcbs => cases hx

theorem addConnectedTcb_same (h : Same t t') (id : Connid) :
    Same (t.addConnectedTcb id) (t'.addConnectedTcb id) := by
  unfold addConnectedTcb
  rw [h.findListener]
  split
  · exact h
  · refine ⟨h.tcbs, ?_⟩
    simp only [setListener, h.listening]

theorem Same.applyEffect (h : Same t t') (x : Effect) :
    Same (applyEffect hw id t x) (applyEffect hw id t' x) := by
  by_cases hx : x.idle = true
  · have ht := applyEffect_idle hw id hx t
    have ht' := applyEffect_idle hw id hx t'
    exact ⟨ht'.tcbs.trans (h.tcbs.trans ht.tcbs.symm),
      ht'.listening.trans (h.listening.trans ht.listening.symm)⟩
  · cases x with
    | addConnectedTcb => exact addConnectedTcb_same h id
    | removeFromTcbs =>
      refine ⟨?_, h.listening⟩
      simp only [Stack.applyEffect, h.tcbs]
    | wake => exact absurd rfl hx
    | pollTcb => exact absurd rfl hx
    | respondWithReset => exact absurd rfl hx

/-- Only the effects on the table matter for it. -/
theorem foldl_applyEffect (effects : List Effect) (h : Same t t') :
    Same ((effects.filter fun e => !e.idle).foldl (applyEffect hw id) t)
      (effects.foldl (applyEffect hw id) t') := by
  induction effects generalizing t t' with
  | nil => exact h
  | cons x effects ih =>
    by_cases hx : x.idle = true
    · rw [List.filter_cons_of_neg (by simp [hx])]
      exact ih (h.trans (applyEffect_idle hw id hx t'))
    · rw [List.filter_cons_of_pos (by simpa using hx)]
      exact ih (h.applyEffect x)

theorem handled_same (hw : HwFeatures) (id : Connid) (u : Tcb) (t : Stack) :
    Same (u.tableEffects.foldl (applyEffect hw id) (t.setTcb id { u with effects := [] }))
      (t.handled hw id u) :=
  foldl_applyEffect u.effects (.refl _)

/-- Effects that are all removals, if there is one, erase the connection. -/
theorem foldl_removes {effects : List Effect} (hall : ∀ x ∈ effects, x = .removeFromTcbs)
    (t : Stack) : effects.foldl (applyEffect hw id) t =
      if effects = [] then t else { t with tcbs := Assoc.erase id t.tcbs } := by
  induction effects generalizing t with
  | nil => rfl
  | cons x effects ih =>
    obtain rfl := hall x List.mem_cons_self
    have hx : applyEffect hw id t .removeFromTcbs = { t with tcbs := Assoc.erase id t.tcbs } := rfl
    rw [List.foldl_cons, ih (fun y hy => hall y (List.mem_cons_of_mem _ hy)), hx,
      if_neg (List.cons_ne_nil _ _)]
    split
    · rfl
    · simp only [Assoc.erase, List.filter_filter, Bool.and_self]

/-! ## The count -/

/-- What is kept in every run: the table has one entry for each id, its connections have no
effects left and are past SYN_SENT, and the ports of the half-open ones are listened on. -/
structure Sound (t : Stack) : Prop where
  keyed : Assoc.Keyed t.tcbs
  tcbs : ∀ e ∈ t.tcbs, e.2.effects = [] ∧ e.2.state ≠ .synSent
  served : ∀ e ∈ t.tcbs, e.2.state = .synReceived →
    (t.findListener e.1.localPort).isSome = true

/-- `_pending` of every listener counts its half-open connections. -/
def Balanced (t : Stack) : Prop :=
  ∀ port l, t.findListener port = some l → l.pending = t.halfOpen port

theorem Sound.same (ht : Sound t) (h : Same t t') : Sound t' where
  keyed := by
    rw [h.tcbs]
    exact ht.keyed
  tcbs := by
    rw [h.tcbs]
    exact ht.tcbs
  served := by
    rw [h.tcbs]
    intro e he hs
    rw [h.findListener]
    exact ht.served e he hs

theorem Same.balanced (h : Same t t') : Balanced t' ↔ Balanced t := by
  unfold Balanced halfOpen
  simp only [h.findListener, h.tcbs]

/-- One half-open connection of the port. -/
def isHalfOpen (id : Connid) (s : Tcb) (port : UInt16) : Nat :=
  if s.state = .synReceived ∧ id.localPort = port then 1 else 0

theorem halfOpen_split {l₁ l₂ : List (Connid × Tcb)} (h : Assoc.Split id s t.tcbs l₁ l₂)
    (port : UInt16) : t.halfOpen port =
      (l₁ ++ l₂).countP (fun e => e.2.state = .synReceived && e.1.localPort = port) +
        isHalfOpen id s port := by
  rw [halfOpen, h.countP]
  simp only [isHalfOpen, Bool.and_eq_true, decide_eq_true_eq]

/-- The table of `t'` has `u` where that of `t` has `s`. -/
theorem Sound.replaced {l₁ l₂ : List (Connid × Tcb)} (ht : Sound t)
    (h : Assoc.Split id s t.tcbs l₁ l₂) (h' : Assoc.Split id u t'.tcbs l₁ l₂)
    (hl : ∀ port, (t.findListener port).isSome = true → (t'.findListener port).isSome = true)
    (he : u.effects = []) (hs : u.state ≠ .synSent)
    (hserved : u.state = .synReceived → s.state = .synReceived) : Sound t' where
  keyed := by
    have hk := ht.keyed
    rw [Assoc.Keyed, h.eq, List.map_append, List.map_cons] at hk
    rw [Assoc.Keyed, h'.eq, List.map_append, List.map_cons]
    exact hk
  tcbs := h'.forall_mem.mpr ⟨⟨he, hs⟩, (h.forall_mem.mp ht.tcbs).2⟩
  served := by
    obtain ⟨hid, hrest⟩ := h.forall_mem.mp ht.served
    exact h'.forall_mem.mpr ⟨fun hu => hl _ (hid (hserved hu)), fun e he hst => hl _ (hrest e he hst)⟩

/-- The table of `t'` lacks `s`. -/
theorem Sound.erased {l₁ l₂ : List (Connid × Tcb)} (ht : Sound t)
    (h : Assoc.Split id s t.tcbs l₁ l₂) (h' : t'.tcbs = l₁ ++ l₂)
    (hl : t'.listening = t.listening) : Sound t' where
  keyed := by
    have hk := ht.keyed
    rw [Assoc.Keyed, h.eq, List.map_append, List.map_cons, List.nodup_middle] at hk
    rw [Assoc.Keyed, h', List.map_append]
    exact (List.nodup_cons.mp hk).2
  tcbs := by
    rw [h']
    exact (h.forall_mem.mp ht.tcbs).2
  served := by
    rw [h']
    intro e he hst
    rw [findListener, hl]
    exact (h.forall_mem.mp ht.served).2 e he hst

theorem findListener_setListener (t : Stack) (port q : UInt16) (l : Listener) :
    (t.setListener port l).findListener q =
      if q = port then (t.findListener port).map fun _ => l else t.findListener q :=
  Assoc.lookup_set port q l t.listening

theorem findListener_set_isSome (t : Stack) (port q : UInt16) (l : Listener) :
    ((t.setListener port l).findListener q).isSome = (t.findListener q).isSome := by
  rw [findListener_setListener]
  split
  · rename_i h
    rw [Option.isSome_map, h]
  · rfl

/-- `add_connected_tcb` takes one off the count of its listener. -/
theorem findListener_addConnected (t : Stack) (id : Connid) (port : UInt16) (l : Listener)
    (h : (t.addConnectedTcb id).findListener port = some l) :
    ∃ l', t.findListener port = some l' ∧
      l.pending = l'.pending - if id.localPort = port then 1 else 0 := by
  unfold addConnectedTcb at h
  split at h
  · rename_i hn
    refine ⟨l, h, ?_⟩
    rw [if_neg]
    · rfl
    · rintro rfl
      rw [hn] at h
      cases h
  · rename_i l' hl'
    simp only at h
    rw [findListener_setListener] at h
    split at h
    · rename_i hp
      rw [hl', Option.map_some] at h
      obtain rfl := Option.some.inj h
      exact ⟨l', hp ▸ hl', by rw [if_pos hp.symm]⟩
    · rename_i hp
      exact ⟨l, h, by rw [if_neg (Ne.symm hp)]; rfl⟩

theorem addConnected_isSome (t : Stack) (id : Connid) (port : UInt16) :
    ((t.addConnectedTcb id).findListener port).isSome = (t.findListener port).isSome := by
  unfold addConnectedTcb
  split
  · rfl
  · exact findListener_set_isSome t _ _ _

theorem addConnected_tcbs (t : Stack) (id : Connid) : (t.addConnectedTcb id).tcbs = t.tcbs := by
  unfold addConnectedTcb
  split
  · rfl
  · rfl

/-- A handler of a connection in the table has returned. The counts stay right, unless a
half-open connection was cleaned up. -/
theorem handled_balanced (hw : HwFeatures) (ht : Sound t) (hf : t.findTcb id = some s)
    (hu : u.state ≠ .synSent) (hfate : Fate s e u) :
    Sound (t.handled hw id u) ∧ (Balanced t →
      (Balanced (t.handled hw id u) ↔ ¬ (s.state = .synReceived ∧ CleansUp s e))) := by
  obtain ⟨l₁, l₂, hsplit⟩ := ht.keyed.split hf
  have hsame := handled_same hw id u t
  -- the connection with its effects taken off, and the table with it
  obtain ⟨v, hv, hve, hvs⟩ : ∃ v, { u with effects := [] } = v ∧ v.effects = [] ∧
      v.state = u.state := ⟨_, rfl, rfl, rfl⟩
  obtain ⟨t₁, ht₁, hset, hlisten⟩ : ∃ t₁, t.setTcb id { u with effects := [] } = t₁ ∧
      Assoc.Split id v t₁.tcbs l₁ l₂ ∧ t₁.listening = t.listening :=
    ⟨_, rfl, hv ▸ hsplit.set _, rfl⟩
  have hfind : ∀ port, t₁.findListener port = t.findListener port := by
    intro port
    rw [findListener, findListener, hlisten]
  rw [← hvs] at hu
  rw [ht₁] at hsame
  cases hfate with
  | waits hs hu' hc he =>
    rw [he, List.foldl_nil] at hsame
    refine ⟨(ht.replaced hsplit hset (fun port h => (hfind port).symm ▸ h) hve hu
      fun _ => hs).same hsame, fun hb => ?_⟩
    rw [hsame.balanced]
    refine ⟨fun _ h => hc h.2, fun _ port l hl => ?_⟩
    rw [hfind] at hl
    rw [hb port l hl, halfOpen_split hsplit, halfOpen_split hset, isHalfOpen, isHalfOpen, hs,
      hvs, hu']
  | connects hs hu' hc he =>
    rw [he, List.foldl_cons, List.foldl_nil] at hsame
    obtain ⟨t₂, ht₂, hset', hlisten'⟩ : ∃ t₂, applyEffect hw id t₁ .addConnectedTcb = t₂ ∧
        Assoc.Split id v t₂.tcbs l₁ l₂ ∧ ∀ port, (t₂.findListener port).isSome =
          (t.findListener port).isSome := by
      refine ⟨_, rfl, ?_, fun port => ?_⟩
      · show Assoc.Split id v (t₁.addConnectedTcb id).tcbs l₁ l₂
        rw [addConnected_tcbs]
        exact hset
      · show ((t₁.addConnectedTcb id).findListener port).isSome = _
        rw [addConnected_isSome, hfind]
    rw [ht₂] at hsame
    refine ⟨(ht.replaced hsplit hset' (fun port h => (hlisten' port).trans h) hve hu
      fun _ => hs).same hsame, fun hb => ?_⟩
    rw [hsame.balanced]
    refine ⟨fun _ h => hc h.2, fun _ port l hl => ?_⟩
    rw [← ht₂] at hl
    obtain ⟨l', hl', hpending⟩ := findListener_addConnected t₁ id port l hl
    rw [hfind] at hl'
    have hbefore := (hb port l' hl').trans (halfOpen_split hsplit port)
    have hgone : isHalfOpen id v port = 0 := if_neg fun h => hu' (hvs ▸ h.1)
    rw [hpending, hbefore, halfOpen_split hset', hgone, isHalfOpen, hs]
    simp only [true_and]
    exact Nat.add_sub_cancel _ _
  | dies hs hc hmem hall =>
    rw [foldl_removes hall, if_neg (List.ne_nil_of_mem hmem)] at hsame
    have herase : Assoc.erase id t₁.tcbs = l₁ ++ l₂ := hset.erase
    rw [herase] at hsame
    have hsound : Sound { t₁ with tcbs := l₁ ++ l₂ } := ht.erased hsplit rfl hlisten
    refine ⟨hsound.same hsame, fun hb => ?_⟩
    rw [hsame.balanced]
    refine ⟨fun hb' => ?_, fun h => absurd ⟨hs, hc⟩ h⟩
    obtain ⟨l, hl⟩ := Option.isSome_iff_exists.mp ((hsplit.forall_mem.mp ht.served).1 hs)
    have hbefore := (hb _ l hl).trans (halfOpen_split hsplit _)
    have hafter : l.pending = (l₁ ++ l₂).countP _ := hb' _ l ((hfind _).trans hl)
    rw [isHalfOpen, if_pos ⟨hs, rfl⟩] at hbefore
    omega
  | other hs hu' hall =>
    have hnone : ∀ port, isHalfOpen id s port = 0 ∧ isHalfOpen id v port = 0 := fun port =>
      ⟨if_neg fun h => hs h.1, if_neg fun h => hu' (hvs ▸ h.1)⟩
    rw [foldl_removes hall] at hsame
    by_cases hnil : u.tableEffects = []
    · rw [if_pos hnil] at hsame
      refine ⟨(ht.replaced hsplit hset (fun port h => (hfind port).symm ▸ h) hve hu
        fun h => absurd (hvs ▸ h) hu').same hsame, fun hb => ?_⟩
      rw [hsame.balanced]
      refine ⟨fun _ h => hs h.1, fun _ port l hl => ?_⟩
      rw [hfind] at hl
      rw [hb port l hl, halfOpen_split hsplit, halfOpen_split hset, (hnone port).1,
        (hnone port).2]
    · have herase : Assoc.erase id t₁.tcbs = l₁ ++ l₂ := hset.erase
      rw [if_neg hnil, herase] at hsame
      have hsound : Sound { t₁ with tcbs := l₁ ++ l₂ } := ht.erased hsplit rfl hlisten
      refine ⟨hsound.same hsame, fun hb => ?_⟩
      rw [hsame.balanced]
      refine ⟨fun _ h => hs h.1, fun _ port l hl => ?_⟩
      have hl' : t.findListener port = some l := (hfind port).symm.trans hl
      rw [hb port l hl', halfOpen_split hsplit, (hnone port).1]
      rfl

theorem inputHandleListenState_table {mem : Tcb} {now : Int} {isn : TcpSeq} {th : TcpHdr}
    {p : Packet} (h : (newTcb mem id).inputHandleListenState hw now isn th p = .ok u) :
    u.state = .synReceived ∧ u.tableEffects = [] := by
  refine ⟨(inputHandleListenState_setFrom h).1, ?_⟩
  obtain ⟨⟨hdr, q⟩, -, h⟩ := bind_ok.mp h
  obtain ⟨area, -, h⟩ := bind_ok.mp h
  obtain ⟨b, hb, h⟩ := bind_ok.mp h
  obtain rfl := Except.ok.inj h
  have hempty : b.effects = [] := by
    obtain ⟨o, -, hb⟩ := bind_ok.mp hb
    obtain rfl := Except.ok.inj hb
    rfl
  have hk := output_steady { b with state := .synReceived, snd := { b.snd with synTxTime := now } }
  have htable : (doSynReceived now b).tableEffects = b.tableEffects := hk.table
  rw [htable, tableEffects, hempty]
  rfl

/-- A listener has made a connection and counted it. -/
theorem accepted_balanced (new : Tcb) {l : Listener} (ht : Sound t) (hn : t.findTcb id = none)
    (hl : t.findListener id.localPort = some l) (hs : u.state = .synReceived)
    (he : u.tableEffects = []) (hw : HwFeatures) :
    Sound (handled hw id u (setListener { t with tcbs := t.tcbs ++ [(id, new)] } id.localPort
        { l with pending := l.pending + 1 })) ∧
      (Balanced t →
        Balanced (handled hw id u (setListener { t with tcbs := t.tcbs ++ [(id, new)] }
          id.localPort { l with pending := l.pending + 1 }))) := by
  have hnew : Assoc.Split id new (t.tcbs ++ [(id, new)]) t.tcbs [] :=
    ⟨rfl, Assoc.lookup_eq_none.mp hn, fun _ he => absurd he List.not_mem_nil⟩
  have hsame := handled_same hw id u (setListener { t with tcbs := t.tcbs ++ [(id, new)] }
    id.localPort { l with pending := l.pending + 1 })
  rw [he, List.foldl_nil] at hsame
  obtain ⟨v, hv, hve, hvs⟩ : ∃ v, { u with effects := [] } = v ∧ v.effects = [] ∧
      v.state = u.state := ⟨_, rfl, rfl, rfl⟩
  obtain ⟨t₁, ht₁, hset, hlisten⟩ : ∃ t₁, setTcb (setListener { t with
        tcbs := t.tcbs ++ [(id, new)] } id.localPort { l with pending := l.pending + 1 }) id
          { u with effects := [] } = t₁ ∧ Assoc.Split id v t₁.tcbs t.tcbs [] ∧
        ∀ port, t₁.findListener port =
          (t.setListener id.localPort { l with pending := l.pending + 1 }).findListener port :=
    ⟨_, rfl, hv ▸ hnew.set _, fun _ => rfl⟩
  rw [ht₁] at hsame
  have hstate : v.state = .synReceived := hvs.trans hs
  have hsome : ∀ port, (t₁.findListener port).isSome = (t.findListener port).isSome := by
    intro port
    rw [hlisten, findListener_set_isSome]
  have hsound : Sound t₁ := by
    refine ⟨?_, hset.forall_mem.mpr ⟨⟨hve, ?_⟩, ?_⟩, hset.forall_mem.mpr ⟨fun _ => ?_, ?_⟩⟩
    · have hk := Assoc.Keyed.concat ht.keyed hn v
      rwa [Assoc.Keyed, hset.eq]
    · rw [hstate]
      intro h
      cases h
    · rw [List.append_nil]
      exact ht.tcbs
    · rw [hsome, hl]
      rfl
    · rw [List.append_nil]
      intro e he hst
      rw [hsome]
      exact ht.served e he hst
  refine ⟨hsound.same hsame, fun hb => hsame.balanced.mpr fun port l' hl' => ?_⟩
  rw [halfOpen_split hset, List.append_nil, isHalfOpen, hstate]
  rw [hlisten, findListener_setListener] at hl'
  split at hl'
  · rename_i hp
    rw [hl, Option.map_some] at hl'
    obtain rfl := Option.some.inj hl'
    rw [if_pos ⟨rfl, hp.symm⟩, hp]
    exact congrArg (· + 1) (hb _ l hl)
  · rename_i hp
    rw [if_neg fun h => hp h.2.symm]
    exact hb port l' hl'

/-- The event cleans up a half-open connection of the table. -/
def Ends (t : Stack) (id : Connid) (e : Event) : Prop :=
  ∃ s, t.findTcb id = some s ∧ s.state = .synReceived ∧ CleansUp s e

instance (t : Stack) (id : Connid) (e : Event) : Decidable (Ends t id e) :=
  match h : t.findTcb id with
  | none => .isFalse fun ⟨_, hs, _⟩ => nomatch h.symm.trans hs
  | some s => decidable_of_iff (s.state = .synReceived ∧ CleansUp s e)
    ⟨fun hs => ⟨s, h, hs⟩, fun ⟨_, hs', hs⟩ => Option.some.inj (h.symm.trans hs') ▸ hs⟩

/-- One event of a connection in the table. -/
theorem step_balanced (ht : Sound t) (hf : t.findTcb id = some s) (h : step hw s e = .ok u) :
    Sound (t.handled hw id u) ∧
      (Balanced t → (Balanced (t.handled hw id u) ↔ ¬ Ends t id e)) := by
  obtain ⟨he, hs⟩ := ht.tcbs _ (Assoc.mem_of_lookup hf)
  have h0 : s.tableEffects = [] := by
    rw [tableEffects, he]
    rfl
  have hu : u.state ≠ .synSent := fun hu => hs ((step_settled (Or.inl hs) h).synSent hu)
  have hends : Ends t id e ↔ s.state = .synReceived ∧ CleansUp s e := by
    constructor
    · rintro ⟨s', hs', hs⟩
      obtain rfl := Option.some.inj (hf.symm.trans hs')
      exact hs
    · exact fun hs => ⟨s, hf, hs⟩
  rw [hends]
  exact handled_balanced hw ht hf hu (step_fate hs h0 h)

theorem dispatch_balanced {now : Int} {isn : TcpSeq} {mem : Tcb} {th : TcpHdr} {src dst : UInt32}
    {p : Packet} (ht : Sound t) (h : dispatch hw now isn mem th src dst p t = .ok t') :
    Sound t' ∧
      (Balanced t → (Balanced t' ↔ ¬ Ends t (connidOf th src dst) ⟨now, .segment th p⟩)) := by
  have hquiet : ∀ {t' : Stack}, Same t t' → t.findTcb (connidOf th src dst) = none →
      Sound t' ∧ (Balanced t →
        (Balanced t' ↔ ¬ Ends t (connidOf th src dst) ⟨now, .segment th p⟩)) := by
    intro t' hsame hn
    refine ⟨ht.same hsame, fun hb => ⟨fun _ ⟨s, hs, _⟩ => ?_, fun _ => hsame.balanced.mpr hb⟩⟩
    rw [hn] at hs
    cases hs
  unfold dispatch at h
  simp only at h
  split at h
  · rename_i hn
    have hreset := respondWithReset_same hw th src t
    split at h
    · obtain rfl := Except.ok.inj h
      exact hquiet hreset hn
    rename_i l hl
    split at h
    · obtain rfl := Except.ok.inj h
      exact hquiet hreset hn
    split at h
    · obtain rfl := Except.ok.inj h
      exact hquiet (.refl t) hn
    split at h
    · obtain rfl := Except.ok.inj h
      exact hquiet hreset hn
    split at h
    · obtain ⟨u, hu, h⟩ := bind_ok.mp h
      obtain rfl := Except.ok.inj h
      obtain ⟨hs, he⟩ := inputHandleListenState_table hu
      obtain ⟨hsound, hbal⟩ := accepted_balanced (newTcb mem (connidOf th src dst)) ht hn hl hs he hw
      refine ⟨hsound, fun hb => ⟨fun _ ⟨s, hs, _⟩ => ?_, fun _ => hbal hb⟩⟩
      rw [hn] at hs
      cases hs
    · obtain rfl := Except.ok.inj h
      exact hquiet (.refl t) hn
  · rename_i s hf
    obtain ⟨u, hu, h⟩ := bind_ok.mp h
    obtain rfl := Except.ok.inj h
    exact step_balanced (e := ⟨now, .segment th p⟩) ht hf hu

end Stack

namespace Host

open Stack

variable {hw : HwFeatures} {h h' : Host} {e : HostEvent}

/-! ## Runs -/

/-- The count of a listener: it is that of its half-open connections, so that a listener
without any takes a SYN again, if there is room in its queue. -/
structure Counted (t : Stack) (port : UInt16) (l : Listener) : Prop where
  pending : l.pending = t.halfOpen port
  reopens : t.halfOpen port = 0 → l.q.length < l.maxSize → l.full = false

/-- Every listener counts its half-open connections. -/
def CountsHalfOpen (h : Host) : Prop :=
  ∀ port l, h.stack.findListener port = some l → Counted h.stack port l

/-- The packet makes a half-open connection of the table clean up. -/
def PacketEnds (hw : HwFeatures) (t : Stack) (now : Int) (p : Packet) (src dst : UInt32) : Prop :=
  match segmentOf hw p src dst with
  | .ok (some (th, q)) => Ends t (connidOf th src dst) ⟨now, .segment th q⟩
  | _ => False

/-- A half-open connection of the table is cleaned up, or erased by an earlier one that had
its id. -/
def LosesHalfOpen (hw : HwFeatures) (h : Host) : HostEvent → Prop
  | .packet now _ _ p src dst => PacketEnds hw h.stack now p src dst
  | .tcb id e _ => Ends h.stack id e
  | .stale id cleans =>
    cleans = true ∧ id ∈ h.gone ∧ ∃ s, h.stack.findTcb id = some s ∧ s.state = .synReceived
  | .accept _ | .abortAccept _ => False

instance (t : Stack) (id : Connid) :
    Decidable (∃ s, t.findTcb id = some s ∧ s.state = .synReceived) :=
  match t.findTcb id with
  | none => .isFalse fun ⟨_, hs, _⟩ => nomatch hs
  | some s => decidable_of_iff (s.state = .synReceived)
    ⟨fun hs => ⟨s, rfl, hs⟩, fun ⟨_, hs', hs⟩ => Option.some.inj hs' ▸ hs⟩

instance (hw : HwFeatures) (t : Stack) (now : Int) (p : Packet) (src dst : UInt32) :
    Decidable (PacketEnds hw t now p src dst) := by
  unfold PacketEnds
  exact match segmentOf hw p src dst with
  | .ok (some (th, q)) => inferInstanceAs (Decidable (Ends t (connidOf th src dst) _))
  | .ok none => .isFalse id
  | .error _ => .isFalse id

instance (hw : HwFeatures) (h : Host) : (e : HostEvent) → Decidable (LosesHalfOpen hw h e)
  | .packet now _ _ p src dst => inferInstanceAs (Decidable (PacketEnds hw h.stack now p src dst))
  | .tcb id e _ => inferInstanceAs (Decidable (Ends h.stack id e))
  | .stale id cleans => inferInstanceAs (Decidable
      (cleans = true ∧ id ∈ h.gone ∧ ∃ s, h.stack.findTcb id = some s ∧ s.state = .synReceived))
  | .accept _ | .abortAccept _ => .isFalse id

theorem countsHalfOpen_iff : CountsHalfOpen h ↔ Balanced h.stack := by
  constructor
  · exact fun hc port l hl => (hc port l hl).pending
  · intro hb port l hl
    refine ⟨hb port l hl, fun h0 hroom => ?_⟩
    rw [Listener.full, hb port l hl, h0, Nat.zero_add]
    exact decide_eq_false (Nat.not_le.mpr hroom)

theorem unpolled_same (id : Connid) (a : Action) (t : Stack) : Same t (unpolled id a t) := by
  unfold unpolled
  split
  · exact ⟨rfl, rfl⟩
  · exact ⟨rfl, rfl⟩
  · exact ⟨rfl, rfl⟩
  · exact .refl t

/-- Changing the queue of a listener. -/
theorem requeued_balanced {t : Stack} {port : UInt16} {l : Listener} {q : List Connid}
    (ht : Sound t) (hl : t.findListener port = some l) :
    Sound (t.setListener port { l with q := q }) ∧
      (Balanced t → Balanced (t.setListener port { l with q := q })) := by
  refine ⟨⟨ht.keyed, ht.tcbs, fun e he hs => ?_⟩, fun hb p l' hl' => ?_⟩
  · rw [findListener_set_isSome]
    exact ht.served e he hs
  · rw [findListener_setListener] at hl'
    split at hl'
    · rename_i hp
      rw [hl, Option.map_some] at hl'
      obtain rfl := Option.some.inj hl'
      rw [hp]
      exact hb port l hl
    · exact hb p l' hl'

/-- The id of a connection that has left the table is erased again. -/
theorem erased_balanced {t : Stack} (id : Connid) (ht : Sound t) :
    Sound { t with tcbs := Assoc.erase id t.tcbs } ∧ (Balanced t →
      (Balanced { t with tcbs := Assoc.erase id t.tcbs } ↔
        ¬ ∃ s, t.findTcb id = some s ∧ s.state = .synReceived)) := by
  cases hf : t.findTcb id with
  | none =>
    have herase : Assoc.erase id t.tcbs = t.tcbs :=
      Assoc.erase_of_notMem (Assoc.lookup_eq_none.mp hf)
    rw [herase]
    refine ⟨ht, fun hb => ⟨?_, fun _ => hb⟩⟩
    rintro - ⟨_, hs, -⟩
    cases hs
  | some s =>
    obtain ⟨l₁, l₂, hsplit⟩ := ht.keyed.split hf
    rw [hsplit.erase]
    refine ⟨ht.erased hsplit rfl rfl, fun hb => ?_⟩
    by_cases hs : s.state = .synReceived
    · refine ⟨fun hb' => ?_, fun hn => absurd ⟨s, rfl, hs⟩ hn⟩
      obtain ⟨l, hl⟩ := Option.isSome_iff_exists.mp ((hsplit.forall_mem.mp ht.served).1 hs)
      have hbefore := (hb _ l hl).trans (halfOpen_split hsplit _)
      have hafter : l.pending = (l₁ ++ l₂).countP _ := hb' _ l hl
      rw [isHalfOpen, if_pos ⟨hs, rfl⟩] at hbefore
      omega
    · refine ⟨?_, fun _ port l hl => ?_⟩
      · rintro - ⟨_, hs', hst⟩
        exact hs (Option.some.inj hs' ▸ hst)
      have hl : t.findListener port = some l := hl
      rw [hb port l hl, halfOpen_split hsplit, isHalfOpen, if_neg fun h => hs h.1]
      rfl

theorem received_balanced {t t' : Stack} {now : Int} {isn : TcpSeq} {mem : Tcb} {p : Packet}
    {src dst : UInt32} (ht : Sound t) (hr : t.received hw now isn mem p src dst = .ok t') :
    Sound t' ∧ (Balanced t →
      (Balanced t' ↔ ¬ PacketEnds hw t now p src dst)) := by
  rw [received_eq] at hr
  obtain ⟨r, hseg, hr⟩ := bind_ok.mp hr
  unfold PacketEnds
  rw [hseg]
  cases r with
  | none =>
    obtain rfl := Except.ok.inj hr
    exact ⟨ht, fun hb => ⟨fun _ => id, fun _ => hb⟩⟩
  | some x => exact dispatch_balanced ht hr

/-- One event keeps the counts right exactly when it loses no half-open connection. -/
theorem step_counts (hs : Sound h.stack) (hstep : step hw h e = .ok h') :
    Sound h'.stack ∧ (Balanced h.stack → (Balanced h'.stack ↔ ¬ LosesHalfOpen hw h e)) := by
  have hsame : ∀ {t : Stack}, Same h.stack t → ¬ LosesHalfOpen hw h e →
      Sound t ∧ (Balanced h.stack → (Balanced t ↔ ¬ LosesHalfOpen hw h e)) := fun hk hn =>
    ⟨hs.same hk, fun hb => ⟨fun _ => hn, fun _ => hk.balanced.mpr hb⟩⟩
  cases e with
  | packet now isn mem p src dst =>
    obtain ⟨t, ht, hstep⟩ := bind_ok.mp hstep
    obtain rfl := Except.ok.inj hstep
    exact received_balanced hs ht
  | tcb id e he =>
    rw [step] at hstep
    split at hstep
    · rename_i hn
      obtain rfl := Except.ok.inj hstep
      refine hsame (.refl _) fun ⟨s, hf, _⟩ => ?_
      rw [hn] at hf
      cases hf
    · rename_i s hf
      obtain ⟨u, hu, hstep⟩ := bind_ok.mp hstep
      obtain rfl := Except.ok.inj hstep
      have hk := unpolled_same id e.act h.stack
      have hfind : (unpolled id e.act h.stack).findTcb id = h.stack.findTcb id := by
        rw [findTcb, findTcb, hk.tcbs]
      obtain ⟨hsound, hbal⟩ := step_balanced (hs.same hk) (hfind.trans hf) hu
      refine ⟨hsound, fun hb => (hbal (hk.balanced.mpr hb)).trans ?_⟩
      unfold Ends
      rw [hfind]
      rfl
  | stale id cleans =>
    rw [step] at hstep
    split at hstep
    · rename_i hgone
      obtain rfl := Except.ok.inj hstep
      cases cleans with
      | false =>
        have hk : Same h.stack (applyEffect hw id h.stack .pollTcb) := ⟨rfl, rfl⟩
        exact hsame hk fun hl => nomatch hl.1
      | true =>
        obtain ⟨hsound, hbal⟩ := erased_balanced id hs
        refine ⟨hsound, fun hb => (hbal hb).trans (not_congr ?_)⟩
        exact ⟨fun hf => ⟨rfl, hgone, hf⟩, fun hl => hl.2.2⟩
    · rename_i hgone
      obtain rfl := Except.ok.inj hstep
      exact hsame (.refl _) fun hl => hgone hl.2.1
  | accept port =>
    rw [step] at hstep
    split at hstep
    · obtain rfl := Except.ok.inj hstep
      exact hsame (.refl _) id
    rename_i l hl
    split at hstep
    · obtain rfl := Except.ok.inj hstep
      exact hsame (.refl _) id
    · obtain rfl := Except.ok.inj hstep
      obtain ⟨hsound, hbal⟩ := requeued_balanced (q := l.q.tail) hs hl
      exact ⟨hsound, fun hb => ⟨fun _ => id, fun _ => hbal hb⟩⟩
  | abortAccept port =>
    rw [step] at hstep
    split at hstep
    · obtain rfl := Except.ok.inj hstep
      exact hsame (.refl _) id
    · rename_i l hl
      obtain rfl := Except.ok.inj hstep
      obtain ⟨hsound, hbal⟩ := requeued_balanced (q := []) hs hl
      exact ⟨hsound, fun hb => ⟨fun _ => id, fun _ => hbal hb⟩⟩

theorem Fresh.sound (hf : Fresh h) : Sound h.stack := by
  constructor
  · rw [hf.tcbs]
    exact List.nodup_nil
  · rw [hf.tcbs]
    exact fun e he => absurd he List.not_mem_nil
  · rw [hf.tcbs]
    exact fun e he => absurd he List.not_mem_nil

theorem Fresh.balanced (hf : Fresh h) : Balanced h.stack := by
  intro port l hl
  rw [(hf.listening _ (Assoc.mem_of_lookup hl)).1, halfOpen, hf.tcbs]
  rfl

/-- The listeners count their half-open connections in every state of a run, exactly when no
half-open connection is lost in it. -/
theorem run_backlog (hw : HwFeatures) (es : List HostEvent) (hf : Fresh h)
    (hr : run hw h es = .ok h') :
    Along hw (fun h e => ∀ h', step hw h e = .ok h' → CountsHalfOpen h') h es ↔
      Along hw (fun h e => ¬ LosesHalfOpen hw h e) h es := by
  have hrun : ∀ (es : List HostEvent) {h : Host}, Sound h.stack → Balanced h.stack →
      run hw h es = .ok h' →
      (Along hw (fun h e => ∀ h', step hw h e = .ok h' → CountsHalfOpen h') h es ↔
        Along hw (fun h e => ¬ LosesHalfOpen hw h e) h es) := by
    intro es
    induction es with
    | nil => exact fun _ _ _ => Iff.rfl
    | cons e es ih =>
      intro h hs hb hr
      obtain ⟨u, hu, hr⟩ := Run.run_cons_ok.mp hr
      obtain ⟨hsu, hbu⟩ := step_counts hs hu
      have hone : ∀ v, step hw h e = .ok v → v = u := fun v hv => Except.ok.inj (hv.symm.trans hu)
      constructor
      · intro hc
        have hbu' : Balanced u.stack := countsHalfOpen_iff.mp (hc.1 u hu)
        refine ⟨(hbu hb).mp hbu', fun v hv => ?_⟩
        rw [hone v hv]
        exact (ih hsu hbu' hr).mp (hc.2 u hu)
      · intro hl
        have hbu' : Balanced u.stack := (hbu hb).mpr hl.1
        refine ⟨fun v hv => ?_, fun v hv => ?_⟩
        · rw [hone v hv]
          exact countsHalfOpen_iff.mpr hbu'
        · rw [hone v hv]
          exact (ih hsu hbu' hr).mpr (hl.2 u hu)
  exact hrun es hf.sound hf.balanced hr

/-- A listener on port 80 with room for one connection. -/
def oneSlot : Host := { stack := { listening := [(80, { maxSize := 1 })] } }

/-- A SYN from port 1000 with sequence number 7, and then a segment with the flags, in
sequence, that acknowledges ISS 100. -/
def synThen (flags : UInt8) : List HostEvent :=
  [.packet 0 ⟨100⟩ {} (Packet.ofFrags [[3, 232, 0, 80, 0, 0, 0, 7, 0, 0, 0, 0, 0x50, 0x02, 0, 10,
      0, 0, 0, 0]]) 1 2,
    .packet 1 ⟨0⟩ {} (Packet.ofFrags [[3, 232, 0, 80, 0, 0, 0, 8, 0, 0, 0, 101, 0x50, flags, 0, 10,
      0, 0, 0, 0]]) 1 2]

theorem oneSlot_fresh : Fresh oneSlot := ⟨rfl, rfl, rfl, by decide⟩

/-- The ACK completes the handshake, and the count is right all along. -/
theorem synThen_counts : ∃ h, run { rxCsumOffload := true } oneSlot (synThen 0x10) = .ok h ∧
    Along { rxCsumOffload := true }
      (fun h e => ∀ h', step { rxCsumOffload := true } h e = .ok h' → CountsHalfOpen h') oneSlot
      (synThen 0x10) := by
  refine ⟨_, rfl, (run_backlog { rxCsumOffload := true } (synThen 0x10) oneSlot_fresh rfl).mpr ?_⟩
  decide +kernel

/-- An RST ends the half-open connection, and its count stays: there is no connection left, and
the listener is full for good. -/
theorem synThen_reset : ∃ h, run { rxCsumOffload := true } oneSlot (synThen 0x04) = .ok h ∧
    h.stack.tcbs = [] ∧ h.stack.findListener 80 = some { maxSize := 1, pending := 1 } ∧
    Listener.full { maxSize := 1, pending := 1 } = true ∧ ¬ CountsHalfOpen h := by
  refine ⟨_, rfl, ?_, ?_, rfl, fun hc => ?_⟩
  · decide +kernel
  · decide +kernel
  · have hpending := (hc 80 { maxSize := 1, pending := 1 } (by decide +kernel)).pending
    revert hpending
    decide +kernel

end Host

end Seastar.Net.Tcp
