import Mathlib.Data.List.Range
import Mathlib.Data.List.Perm.Basic

/-!
The queue of work items between two cores: `smp_message_queue` of `core/reactor.cc`. The sending core
collects items in `pending_fifo` and pushes them into the ring `_pending`, the receiving core
processes them, collects the ones whose function has completed in `_completed_fifo` and pushes those
into the ring `_completed`, from where the sending core completes them. An item is named by the
number of its submission.
-/

namespace Seastar

namespace SmpMessageQueue

def queueLength : Nat := 128

def batchSize : Nat := 16

/-- The lock-free ring: a queue of at most `queueLength` items. -/
structure LfQueue (α : Type) where
  items : List α := []
  fits : items.length ≤ queueLength := by exact Nat.zero_le _

namespace LfQueue

variable {α : Type}

/-- How many of `xs` a `push` takes; it could take `k` of them. -/
def accepted (k : Nat) (xs : List α) (q : LfQueue α) : Nat :=
  min k (min xs.length (queueLength - q.items.length))

/-- `push`: a prefix of `xs` is taken. -/
def push (k : Nat) (xs : List α) (q : LfQueue α) : LfQueue α where
  items := q.items ++ xs.take (q.accepted k xs)
  fits := by
    have := q.fits
    simp only [List.length_append, List.length_take, accepted]
    omega

/-- `pop` of at most `k` items, the ones it returns. -/
def popped (k : Nat) (q : LfQueue α) : List α := q.items.take k

/-- What `pop` leaves. -/
def pop (k : Nat) (q : LfQueue α) : LfQueue α where
  items := q.items.drop k
  fits := by
    have := q.fits
    simp only [List.length_drop]
    omega

theorem popped_append_pop (k : Nat) (q : LfQueue α) : q.popped k ++ (q.pop k).items = q.items :=
  List.take_append_drop k q.items

theorem push_append (k : Nat) (xs : List α) (q : LfQueue α) :
    (q.push k xs).items ++ xs.drop (q.accepted k xs) = q.items ++ xs := by
  rw [push, List.append_assoc, List.take_append_drop]

theorem accepted_le (k : Nat) (xs : List α) (q : LfQueue α) : q.accepted k xs ≤ xs.length := by
  unfold accepted
  omega

end LfQueue

/-- A call of `process_queue`. -/
structure Batch (α : Type) where
  /-- `wi` and `items`, as far as they are not processed -/
  items : List α := []
  /-- the second `pop` is to come -/
  popping : Bool := false
  /-- the items this call has processed -/
  done : Nat := 0

end SmpMessageQueue

/-- The queue, with the items on both cores; `ρ` is what the function of an item can return, or the
exception. -/
structure SmpMessageQueue (ρ : Type) where
  pendingFifo : List Nat := []
  pending : SmpMessageQueue.LfQueue Nat := {}
  /-- `process_incoming` -/
  incoming : SmpMessageQueue.Batch Nat := {}
  /-- the items whose function has not completed -/
  running : List Nat := []
  completedFifo : List (Nat × ρ) := []
  completed : SmpMessageQueue.LfQueue (Nat × ρ) := {}
  /-- `process_completions` -/
  completions : SmpMessageQueue.Batch (Nat × ρ) := {}
  sent : UInt64 := 0
  compl : UInt64 := 0
  received : UInt64 := 0
  lastSntBatch : UInt64 := 0
  lastCmplBatch : UInt64 := 0
  lastRcvBatch : UInt64 := 0
  currentQueueLength : UInt64 := 0
  /-- history: the number of submitted items -/
  submitted : Nat := 0
  /-- history: the items pushed to the ring -/
  pushed : List Nat := []
  /-- history: the items whose `process` was called -/
  processed : List Nat := []
  /-- history: the items whose function has completed, and its result -/
  finished : List (Nat × ρ) := []
  /-- history: the items whose `complete` was called, with the result -/
  delivered : List (Nat × ρ) := []

namespace SmpMessageQueue

variable {ρ : Type}

/-- `move_pending`, with a ring that takes up to `k` items. -/
def movePending (k : Nat) (q : SmpMessageQueue ρ) : SmpMessageQueue ρ :=
  let nr := q.pending.accepted k q.pendingFifo
  if nr = 0 then q
  else
    { q with
      pending := q.pending.push k q.pendingFifo
      pendingFifo := q.pendingFifo.drop nr
      currentQueueLength := q.currentQueueLength + UInt64.ofNat nr
      lastSntBatch := UInt64.ofNat nr
      sent := q.sent + UInt64.ofNat nr
      pushed := q.pushed ++ q.pendingFifo.take nr }

/-- `submit_item`. -/
def submitItem (k : Nat) (q : SmpMessageQueue ρ) : SmpMessageQueue ρ :=
  let q := { q with
    pendingFifo := q.pendingFifo ++ [q.submitted]
    submitted := q.submitted + 1 }
  if batchSize ≤ q.pendingFifo.length then q.movePending k else q

/-- `flush_request_batch`. -/
def flushRequestBatch (k : Nat) (q : SmpMessageQueue ρ) : SmpMessageQueue ρ :=
  if q.pendingFifo.isEmpty then q else q.movePending k

/-- `flush_response_batch`. -/
def flushResponseBatch (k : Nat) (q : SmpMessageQueue ρ) : SmpMessageQueue ρ :=
  if q.completedFifo.isEmpty then q
  else
    let nr := q.completed.accepted k q.completedFifo
    if nr = 0 then q
    else
      { q with
        completed := q.completed.push k q.completedFifo
        completedFifo := q.completedFifo.drop nr }

/-- The function of an item completes, and its continuation calls `respond`. -/
def respond (item : Nat) (result : ρ) (stopped : Bool) (k : Nat) (q : SmpMessageQueue ρ) :
    SmpMessageQueue ρ :=
  if item ∈ q.running then
    let q := { q with
      running := q.running.erase item
      completedFifo := q.completedFifo ++ [(item, result)]
      finished := q.finished ++ [(item, result)] }
    if batchSize ≤ q.completedFifo.length ∨ stopped then q.flushResponseBatch k else q
  else q

/-- `process_queue`, its first `pop`. -/
def Batch.pop {α : Type} (ring : LfQueue α) : Batch α × LfQueue α :=
  (⟨ring.popped 1, !ring.items.isEmpty, 0⟩, ring.pop 1)

/-- `process_queue`, its second `pop`, which finds `k` items. -/
def Batch.popRest {α : Type} (k : Nat) (ring : LfQueue α) (b : Batch α) : Batch α × LfQueue α :=
  if b.popping then
    ({ b with items := b.items ++ ring.popped k, popping := false }, ring.pop k)
  else (b, ring)

/-- `process_incoming`, up to the second `pop`; nothing is done while a call is under way. -/
def popIncoming (q : SmpMessageQueue ρ) : SmpMessageQueue ρ :=
  if !q.incoming.items.isEmpty then q
  else if q.pending.items.isEmpty then { q with lastRcvBatch := 0 }
  else
    let popped := Batch.pop q.pending
    { q with incoming := popped.1, pending := popped.2 }

def popIncomingRest (k : Nat) (q : SmpMessageQueue ρ) : SmpMessageQueue ρ :=
  let popped := q.incoming.popRest k q.pending
  { q with incoming := popped.1, pending := popped.2 }

/-- `process` of the next item; after the last one the call returns. -/
def process (q : SmpMessageQueue ρ) : SmpMessageQueue ρ :=
  match q.incoming.popping, q.incoming.items with
  | false, wi :: items =>
    let q := { q with running := q.running ++ [wi], processed := q.processed ++ [wi] }
    let nr := q.incoming.done + 1
    if items.isEmpty then
      { q with
        incoming := {}
        received := q.received + UInt64.ofNat nr
        lastRcvBatch := UInt64.ofNat nr }
    else { q with incoming := ⟨items, false, nr⟩ }
  | _, _ => q

/-- `process_completions`, up to the second `pop`; nothing is done while a call is under way. -/
def popCompletions (q : SmpMessageQueue ρ) : SmpMessageQueue ρ :=
  if !q.completions.items.isEmpty then q
  else if q.completed.items.isEmpty then { q with lastCmplBatch := 0 }
  else
    let popped := Batch.pop q.completed
    { q with completions := popped.1, completed := popped.2 }

def popCompletionsRest (k : Nat) (q : SmpMessageQueue ρ) : SmpMessageQueue ρ :=
  let popped := q.completions.popRest k q.completed
  { q with completions := popped.1, completed := popped.2 }

/-- `complete` of the next item; after the last one the call returns. -/
def complete (q : SmpMessageQueue ρ) : SmpMessageQueue ρ :=
  match q.completions.popping, q.completions.items with
  | false, wi :: items =>
    let q := { q with delivered := q.delivered ++ [wi] }
    let nr := q.completions.done + 1
    if items.isEmpty then
      { q with
        completions := {}
        currentQueueLength := q.currentQueueLength - UInt64.ofNat nr
        compl := q.compl + UInt64.ofNat nr
        lastCmplBatch := UInt64.ofNat nr }
    else { q with completions := ⟨items, false, nr⟩ }
  | _, _ => q

/-- What the two cores do; `k` is how much a ring takes or gives. -/
inductive Event (ρ : Type)
  | submitItem (k : Nat)
  | flushRequestBatch (k : Nat)
  | popIncoming
  | popIncomingRest (k : Nat)
  | process
  | respond (item : Nat) (result : ρ) (stopped : Bool) (k : Nat)
  | flushResponseBatch (k : Nat)
  | popCompletions
  | popCompletionsRest (k : Nat)
  | complete

def step (q : SmpMessageQueue ρ) : Event ρ → SmpMessageQueue ρ
  | .submitItem k => q.submitItem k
  | .flushRequestBatch k => q.flushRequestBatch k
  | .popIncoming => q.popIncoming
  | .popIncomingRest k => q.popIncomingRest k
  | .process => q.process
  | .respond item result stopped k => q.respond item result stopped k
  | .flushResponseBatch k => q.flushResponseBatch k
  | .popCompletions => q.popCompletions
  | .popCompletionsRest k => q.popCompletionsRest k
  | .complete => q.complete

def run (q : SmpMessageQueue ρ) (es : List (Event ρ)) : SmpMessageQueue ρ := es.foldl step q

/-! ## What the steps keep -/

/-- The items that were submitted and not processed yet, oldest first. -/
def waiting (q : SmpMessageQueue ρ) : List Nat :=
  q.incoming.items ++ q.pending.items ++ q.pendingFifo

/-- The items on their way back to the sending core, oldest first. -/
def returning (q : SmpMessageQueue ρ) : List (Nat × ρ) :=
  q.completions.items ++ q.completed.items ++ q.completedFifo

/-- A call of `process_queue` that has no items left has returned. -/
def Batch.Idle {α : Type} (b : Batch α) : Prop := b.items = [] → b.done = 0

/-- Every item is in one place, in the order of submission on the way out and in the order of
completion on the way back, and the counters count them. -/
structure Inv (q : SmpMessageQueue ρ) : Prop where
  pushed : q.processed ++ q.incoming.items ++ q.pending.items = q.pushed
  submitted : q.pushed ++ q.pendingFifo = List.range q.submitted
  running : q.processed.Perm (q.running ++ q.finished.map Prod.fst)
  finished : q.delivered ++ q.returning = q.finished
  idle : q.completions.Idle
  sent : q.sent = UInt64.ofNat q.pushed.length
  compl : q.compl + UInt64.ofNat q.completions.done = UInt64.ofNat q.delivered.length
  current : q.currentQueueLength = q.sent - q.compl

theorem Inv.initial : Inv ({} : SmpMessageQueue ρ) :=
  ⟨rfl, rfl, .nil, rfl, fun _ => rfl, rfl, rfl, (UInt64.sub_zero 0).symm⟩

namespace Inv

variable {q : SmpMessageQueue ρ}

theorem movePending (h : Inv q) (k : Nat) : Inv (q.movePending k) := by
  rw [SmpMessageQueue.movePending]
  split
  · exact h
  · refine { h with pushed := ?_, submitted := ?_, sent := ?_, current := ?_ }
    · simp only [LfQueue.push, ← h.pushed, List.append_assoc]
    · rw [List.append_assoc, List.take_append_drop, h.submitted]
    · rw [h.sent, List.length_append, List.length_take,
        Nat.min_eq_left (q.pending.accepted_le k q.pendingFifo), UInt64.ofNat_add]
    · dsimp only
      rw [h.current]
      grind

theorem submitItem (h : Inv q) (k : Nat) : Inv (q.submitItem k) := by
  have h' : Inv { q with
      pendingFifo := q.pendingFifo ++ [q.submitted], submitted := q.submitted + 1 } := by
    refine { h with submitted := ?_ }
    rw [← List.append_assoc, h.submitted, List.range_succ]
  rw [SmpMessageQueue.submitItem]
  split
  · exact h'.movePending k
  · exact h'

theorem flushRequestBatch (h : Inv q) (k : Nat) : Inv (q.flushRequestBatch k) := by
  rw [SmpMessageQueue.flushRequestBatch]
  split
  · exact h
  · exact h.movePending k

theorem flushResponseBatch (h : Inv q) (k : Nat) : Inv (q.flushResponseBatch k) := by
  rw [SmpMessageQueue.flushResponseBatch]
  split
  · exact h
  · dsimp only
    split
    · exact h
    · refine { h with finished := ?_ }
      rw [← h.finished]
      simp only [returning, List.append_assoc, LfQueue.push_append]

theorem respond (h : Inv q) (item : Nat) (result : ρ) (stopped : Bool) (k : Nat) :
    Inv (q.respond item result stopped k) := by
  rw [SmpMessageQueue.respond]
  split
  · rename_i hmem
    have h' : Inv { q with
        running := q.running.erase item
        completedFifo := q.completedFifo ++ [(item, result)]
        finished := q.finished ++ [(item, result)] } := by
      refine { h with running := ?_, finished := ?_ }
      · rw [List.map_append, List.map_singleton, ← List.append_assoc]
        refine h.running.trans ?_
        refine ((List.perm_cons_erase hmem).append_right _).trans ?_
        exact (List.perm_append_singleton item _).symm
      · rw [← h.finished]
        simp only [returning, List.append_assoc]
    dsimp only
    split
    · exact h'.flushResponseBatch k
    · exact h'
  · exact h

theorem popIncoming (h : Inv q) : Inv q.popIncoming := by
  rw [SmpMessageQueue.popIncoming]
  split
  · exact h
  · rename_i hempty
    split
    · exact { h with }
    · refine { h with pushed := ?_ }
      rw [← h.pushed]
      simp only [Bool.not_eq_true', Bool.not_eq_false, List.isEmpty_iff] at hempty
      simp only [Batch.pop, hempty, List.append_assoc, List.nil_append, LfQueue.popped_append_pop]

theorem popIncomingRest (h : Inv q) (k : Nat) : Inv (q.popIncomingRest k) := by
  rw [SmpMessageQueue.popIncomingRest, Batch.popRest]
  split
  · refine { h with pushed := ?_ }
    rw [← h.pushed]
    simp only [List.append_assoc, LfQueue.popped_append_pop]
  · exact h

theorem process (h : Inv q) : Inv q.process := by
  rw [SmpMessageQueue.process]
  split
  · rename_i wi items _ hitems
    have hpushed : q.processed ++ [wi] ++ items ++ q.pending.items = q.pushed := by
      rw [← h.pushed, hitems]
      simp only [List.append_assoc, List.singleton_append]
    have hrunning : (q.processed ++ [wi]).Perm (q.running ++ [wi] ++ q.finished.map Prod.fst) := by
      refine (h.running.append_right [wi]).trans ?_
      rw [List.append_assoc, List.append_assoc]
      exact List.perm_append_comm.append_left _
    dsimp only
    split
    · rename_i hnil
      rw [List.isEmpty_iff.mp hnil] at hpushed
      exact { h with pushed := hpushed, running := hrunning }
    · exact { h with pushed := hpushed, running := hrunning }
  · exact h

theorem popCompletions (h : Inv q) : Inv q.popCompletions := by
  rw [SmpMessageQueue.popCompletions]
  split
  · exact h
  · rename_i hempty
    simp only [Bool.not_eq_true', Bool.not_eq_false, List.isEmpty_iff] at hempty
    split
    · exact { h with }
    · refine { h with finished := ?_, idle := fun _ => rfl, compl := ?_ }
      · rw [← h.finished]
        simp only [returning, Batch.pop, hempty, List.nil_append, LfQueue.popped_append_pop]
      · rw [← h.compl, h.idle hempty]
        rfl
 
theorem popCompletionsRest (h : Inv q) (k : Nat) : Inv (q.popCompletionsRest k) := by
  rw [SmpMessageQueue.popCompletionsRest, Batch.popRest]
  split
  · refine { h with finished := ?_, idle := ?_ }
    · rw [← h.finished]
      simp only [returning, List.append_assoc, LfQueue.popped_append_pop]
    · intro hnil
      exact h.idle (List.append_eq_nil_iff.mp hnil).1
  · exact h

theorem complete (h : Inv q) : Inv q.complete := by
  rw [SmpMessageQueue.complete]
  split
  · rename_i wi items _ hitems
    have hfinished : q.delivered ++ [wi] ++ (items ++ q.completed.items ++ q.completedFifo) =
        q.finished := by
      rw [← h.finished, returning, hitems]
      simp only [List.append_assoc, List.cons_append, List.nil_append]
    have hcompl : q.compl + UInt64.ofNat (q.completions.done + 1) =
        UInt64.ofNat (q.delivered ++ [wi]).length := by
      rw [List.length_append, UInt64.ofNat_add, UInt64.ofNat_add, ← h.compl, UInt64.add_assoc]
      rfl
    dsimp only
    split
    · rename_i hnil
      rw [List.isEmpty_iff.mp hnil] at hfinished
      refine { h with finished := hfinished, idle := fun _ => rfl, compl := ?_, current := ?_ }
      · rw [← hcompl]
        exact UInt64.add_zero _
      · dsimp only
        rw [h.current]
        grind
    · rename_i hcons
      exact { h with
        finished := hfinished
        idle := fun hnil => absurd (List.isEmpty_iff.mpr hnil) hcons
        compl := hcompl }
  · exact h

theorem step (h : Inv q) (e : Event ρ) : Inv (q.step e) := by
  cases e with
  | submitItem k => exact h.submitItem k
  | flushRequestBatch k => exact h.flushRequestBatch k
  | popIncoming => exact h.popIncoming
  | popIncomingRest k => exact h.popIncomingRest k
  | process => exact h.process
  | respond item result stopped k => exact h.respond item result stopped k
  | flushResponseBatch k => exact h.flushResponseBatch k
  | popCompletions => exact h.popCompletions
  | popCompletionsRest k => exact h.popCompletionsRest k
  | complete => exact h.complete

theorem run (h : Inv q) (es : List (Event ρ)) : Inv (q.run es) := by
  induction es generalizing q with
  | nil => exact h
  | cons e es ih => exact ih (h.step e)

end Inv

/-- The items that were pushed to the ring and not completed. -/
def outstanding (q : SmpMessageQueue ρ) : Nat :=
  q.pushed.countP fun item => item ∉ q.delivered.map Prod.fst

namespace Inv

variable {q : SmpMessageQueue ρ}

theorem processed_prefix (h : Inv q) : q.processed ++ q.waiting = List.range q.submitted := by
  rw [← h.submitted, ← h.pushed]
  simp only [waiting, List.append_assoc]

theorem nodup_processed (h : Inv q) : q.processed.Nodup :=
  (List.nodup_append.mp (h.processed_prefix ▸ List.nodup_range)).1

theorem nodup_pushed (h : Inv q) : q.pushed.Nodup :=
  (List.nodup_append.mp (h.submitted ▸ List.nodup_range)).1

theorem nodup_finished (h : Inv q) : (q.finished.map Prod.fst).Nodup :=
  (List.nodup_append.mp (h.running.nodup_iff.mp h.nodup_processed)).2.1

theorem nodup_delivered (h : Inv q) : (q.delivered.map Prod.fst).Nodup := by
  have hnodup := h.nodup_finished
  rw [← h.finished, List.map_append] at hnodup
  exact (List.nodup_append.mp hnodup).1

theorem delivered_subset (h : Inv q) : q.delivered.map Prod.fst ⊆ q.pushed := by
  intro item hitem
  have hfinished : item ∈ q.finished.map Prod.fst := by
    rw [← h.finished, List.map_append]
    exact List.mem_append_left _ hitem
  have hprocessed := h.running.mem_iff.mpr (List.mem_append_right _ hfinished)
  rw [← h.pushed]
  exact List.mem_append_left _ (List.mem_append_left _ hprocessed)

/-- The completed items are among the pushed ones, each once. -/
theorem outstanding_add (h : Inv q) : q.outstanding + q.delivered.length = q.pushed.length := by
  have hperm : (q.pushed.filter fun item => item ∈ q.delivered.map Prod.fst).Perm
      (q.delivered.map Prod.fst) := by
    rw [List.perm_ext_iff_of_nodup (h.nodup_pushed.filter _) h.nodup_delivered]
    intro item
    rw [List.mem_filter, decide_eq_true_iff]
    exact ⟨fun hmem => hmem.2, fun hmem => ⟨h.delivered_subset hmem, hmem⟩⟩
  have hlen := hperm.length_eq
  rw [List.length_map, ← List.countP_eq_length_filter] at hlen
  have hsplit := List.length_eq_countP_add_countP (l := q.pushed)
    (fun item => decide (item ∈ q.delivered.map Prod.fst))
  rw [hlen] at hsplit
  simp only [decide_eq_true_eq] at hsplit
  rw [outstanding, hsplit, Nat.add_comm]

/-- In a call of `process_completions` the counter is adjusted at the end. -/
theorem currentQueueLength_eq (h : Inv q) :
    q.currentQueueLength = UInt64.ofNat (q.outstanding + q.completions.done) := by
  rw [h.current, h.sent, ← h.outstanding_add, UInt64.ofNat_add, ← h.compl, UInt64.ofNat_add]
  grind

end Inv

/-- In every interleaving of the two cores the items are processed once and in the order of their
submission, their functions complete once, and they are completed once with what their function
returned; what is not there yet is on the way. -/
theorem run_processes_once (es : List (Event ρ)) :
    let q := run ({} : SmpMessageQueue ρ) es
    q.processed ++ q.waiting = List.range q.submitted ∧
      q.processed.Perm (q.running ++ q.finished.map Prod.fst) ∧
      q.delivered ++ q.returning = q.finished ∧
      (q.delivered.map Prod.fst).Nodup ∧
      (q.waiting = [] → q.running = [] → q.returning = [] →
        (q.delivered.map Prod.fst).Perm (List.range q.submitted)) ∧
      q.currentQueueLength = UInt64.ofNat (q.outstanding + q.completions.done) ∧
      (q.completions.items = [] → q.completions.done = 0) := by
  have h := Inv.initial.run es
  refine ⟨h.processed_prefix, h.running, h.finished, h.nodup_delivered, ?_,
    h.currentQueueLength_eq, h.idle⟩
  intro hwaiting hrunning hreturning
  have hprocessed := h.processed_prefix
  have hfinished := h.finished
  have hperm := h.running
  rw [hwaiting, List.append_nil] at hprocessed
  rw [hreturning, List.append_nil] at hfinished
  rw [hrunning, List.nil_append, ← hfinished, hprocessed] at hperm
  exact hperm.symm

end SmpMessageQueue

end Seastar
