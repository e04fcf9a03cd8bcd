import Mathlib.Data.List.Perm.Basic
import Seastar.Lib.Run

/-!
`map_reduce(begin, end, mapper, initial, reduce)` of `core/future-util.hh`. The mapper is called for
each element of the range in turn; when one of its futures becomes ready, its continuation reduces
the value into the shared state. The futures that the continuations return are chained: each waits
for the one in front of it, and the last one is returned.
-/

namespace Seastar.MapReduce

open Lib

/-- The continuation of one element: what the future that it returns does to the chain. -/
inductive Link (E : Type)
  | waiting
  /-- it returns the future of the element in front of it -/
  | passed
  /-- it waits for that future, ignores it and fails -/
  | failed (e : E)
  deriving DecidableEq, Repr

/-- `state`, and the continuations of the elements. -/
structure State (R E : Type) where
  result : R
  links : List (Link E)
  deriving DecidableEq, Repr

variable {X V R E : Type}

/-- All futures are waited for. -/
def start (initial : R) (n : Nat) : State R E where
  result := initial
  links := List.replicate n .waiting

/-- The continuation of the `i`-th future, which is ready with a value or an exception. It runs
only once. -/
def complete (reduce : R → V → R) (s : State R E) (c : Nat × Except E V) :
    Except Unit (State R E) :=
  match s.links[c.1]? with
  | some .waiting =>
    match c.2 with
    | .ok v => .ok { result := reduce s.result v, links := s.links.set c.1 .passed }
    | .error e => .ok { s with links := s.links.set c.1 (.failed e) }
  | _ => .error ()

def Link.isWaiting : Link E → Bool
  | .waiting => true
  | _ => false

def Link.exception : Link E → Option E
  | .failed e => some e
  | _ => none

/-- The future that is returned: it is ready when every continuation has run, and fails as the
last element that failed. -/
def State.returned (s : State R E) : Option (Except E R) :=
  if s.links.any Link.isWaiting then none
  else
    match s.links.reverse.findSome? Link.exception with
    | some e => some (.error e)
    | none => some (.ok s.result)

/-- The continuations in the order in which the futures of the elements become ready. -/
def completions (outcomes : List (Except E V)) (order : List Nat) : List (Nat × Except E V) :=
  order.filterMap fun i => outcomes[i]?.map fun x => (i, x)

/-- `map_reduce`, when the futures of the mapper become ready in this order. -/
def mapReduce (range : List X) (mapper : X → Except E V) (initial : R) (reduce : R → V → R)
    (order : List Nat) : Option (Except E R) :=
  match Run.run (complete reduce) (start initial range.length)
      (completions (range.map mapper) order) with
  | .ok s => s.returned
  | .error _ => none

/-- An order of completion: every element of the range once. -/
def Order (range : List X) (order : List Nat) : Prop := order.Perm (List.range range.length)

/-! ## What a run leaves -/

/-- The link that an outcome leaves. -/
def link : Except E V → Link E
  | .ok _ => .passed
  | .error e => .failed e

/-- The effect of an outcome on the result. -/
def accumulate (reduce : R → V → R) (r : R) : Except E V → R
  | .ok v => reduce r v
  | .error _ => r

theorem complete_waiting (reduce : R → V → R) {s : State R E} {i : Nat} (x : Except E V)
    (h : s.links[i]? = some .waiting) :
    complete reduce s (i, x) =
      .ok { result := accumulate reduce s.result x, links := s.links.set i (link x) } := by
  rw [complete]
  simp only [h]
  cases x with
  | ok v => rfl
  | error e => rfl

/-- Continuations of different elements that wait run one after the other. -/
theorem run_complete (reduce : R → V → R) (cs : List (Nat × Except E V)) {s : State R E}
    (hnew : (cs.map Prod.fst).Nodup) (hwait : ∀ c ∈ cs, s.links[c.1]? = some .waiting) :
    ∃ links, Run.run (complete reduce) s cs =
        .ok { result := (cs.map Prod.snd).foldl (accumulate reduce) s.result, links } ∧
      links.length = s.links.length ∧
      (∀ c ∈ cs, links[c.1]? = some (link c.2)) ∧
      ∀ i, (∀ c ∈ cs, c.1 ≠ i) → links[i]? = s.links[i]? := by
  induction cs generalizing s with
  | nil => exact ⟨s.links, rfl, rfl, by simp, fun _ _ => rfl⟩
  | cons c cs ih =>
    obtain ⟨i, x⟩ := c
    obtain ⟨hi, hnew⟩ := List.nodup_cons.mp hnew
    have hother : ∀ c ∈ cs, i ≠ c.1 := fun c hc he =>
      hi (List.mem_map.mpr ⟨c, hc, he.symm⟩)
    have hstep := complete_waiting reduce x (hwait _ List.mem_cons_self)
    obtain ⟨links, hrun, hlen, hset, hkeep⟩ := ih
      (s := { result := accumulate reduce s.result x, links := s.links.set i (link x) }) hnew
      (fun c hc => by
        rw [List.getElem?_set_ne (hother c hc)]
        exact hwait c (List.mem_cons_of_mem _ hc))
    have hlt : i < s.links.length := (List.getElem?_eq_some_iff.mp (hwait _ List.mem_cons_self)).1
    refine ⟨links, Run.run_cons_ok.mpr ⟨_, hstep, hrun⟩, ?_, ?_, ?_⟩
    · rw [hlen, List.length_set]
    · intro c hc
      rcases List.mem_cons.mp hc with rfl | hc
      · rw [hkeep i fun c hc => (hother c hc).symm, List.getElem?_set_self hlt]
      · exact hset c hc
    · intro j hj
      rw [hkeep j fun c hc => hj c (List.mem_cons_of_mem _ hc),
        List.getElem?_set_ne (hj (i, x) List.mem_cons_self)]

theorem completions_fst {outcomes : List (Except E V)} {order : List Nat}
    (h : ∀ i ∈ order, i < outcomes.length) : (completions outcomes order).map Prod.fst = order := by
  induction order with
  | nil => rfl
  | cons i order ih =>
    have hi := List.getElem?_eq_getElem (h i List.mem_cons_self)
    rw [completions, List.filterMap_cons, hi]
    exact congrArg (i :: ·) (ih fun j hj => h j (List.mem_cons_of_mem i hj))

theorem completions_snd (outcomes : List (Except E V)) (order : List Nat) :
    (completions outcomes order).map Prod.snd = order.filterMap (outcomes[·]?) := by
  rw [completions, List.map_filterMap]
  refine List.filterMap_congr fun i _ => ?_
  cases outcomes[i]? <;> rfl

/-- When all futures are ready, the values have been reduced in the order in which they became
ready; an exception takes the place of the result. -/
theorem mapReduce_eq {range : List X} {order : List Nat} (h : Order range order)
    (mapper : X → Except E V) (initial : R) (reduce : R → V → R) :
    mapReduce range mapper initial reduce order =
      match ((range.map mapper).map link).reverse.findSome? Link.exception with
      | some e => some (.error e)
      | none => some (.ok ((order.filterMap ((range.map mapper)[·]?)).foldl
          (accumulate reduce) initial)) := by
  have hlt : ∀ i ∈ order, i < (range.map mapper).length := by
    intro i hi
    rw [List.length_map]
    exact List.mem_range.mp (h.mem_iff.mp hi)
  obtain ⟨links, hrun, hlen, hset, -⟩ := run_complete reduce
    (completions (range.map mapper) order) (s := start initial range.length)
    (by rw [completions_fst hlt]; exact h.nodup_iff.mpr List.nodup_range)
    (fun c hc => by
      have hc := hlt _ (completions_fst hlt ▸ List.mem_map_of_mem hc)
      rw [List.length_map] at hc
      exact List.getElem?_replicate_of_lt hc)
  have hlinks : links = (range.map mapper).map link := by
    refine List.ext_getElem? fun i => ?_
    by_cases hi : i < range.length
    · have hmem : i ∈ order := h.mem_iff.mpr (List.mem_range.mpr hi)
      have hget : (range.map mapper)[i]? = some (mapper range[i]) := by
        rw [List.getElem?_map, List.getElem?_eq_getElem hi]
        rfl
      have hc : (i, mapper range[i]) ∈ completions (range.map mapper) order :=
        List.mem_filterMap.mpr ⟨i, hmem, by rw [hget]; rfl⟩
      rw [hset _ hc, List.getElem?_map, hget]
      rfl
    · have hle := Nat.not_lt.mp hi
      rw [List.getElem?_eq_none, List.getElem?_eq_none]
      · rw [List.length_map, List.length_map]
        exact hle
      · rw [hlen]
        exact Nat.le_trans (Nat.le_of_eq List.length_replicate) hle
  rw [mapReduce, hrun]
  simp only
  rw [State.returned, if_neg, hlinks, completions_snd]
  · rfl
  · rw [hlinks, List.any_map, Bool.not_eq_true, List.any_eq_false]
    intro x _
    cases x <;> simp [link, Link.isWaiting]

/-- When no future fails, the result is a fold over the values in the order of completion. -/
theorem mapReduce_values {range : List X} {order : List Nat} (h : Order range order)
    (mapper : X → V) (initial : R) (reduce : R → V → R) :
    mapReduce (E := E) range (fun x => .ok (mapper x)) initial reduce order =
      some (.ok ((order.filterMap ((range.map mapper)[·]?)).foldl reduce initial)) := by
  have hnone : ((range.map fun x => (.ok (mapper x) : Except E V)).map link).reverse.findSome?
      Link.exception = none := by
    rw [List.findSome?_eq_none_iff]
    intro l hl
    rw [List.mem_reverse, List.map_map, List.mem_map] at hl
    obtain ⟨x, -, rfl⟩ := hl
    rfl
  have hfold : ∀ r : R, (order.filterMap
      ((range.map fun x => (.ok (mapper x) : Except E V))[·]?)).foldl (accumulate reduce) r =
        (order.filterMap ((range.map mapper)[·]?)).foldl reduce r := by
    intro r
    have hmap : order.filterMap ((range.map fun x => (.ok (mapper x) : Except E V))[·]?) =
        (order.filterMap ((range.map mapper)[·]?)).map .ok := by
      rw [List.map_filterMap]
      refine List.filterMap_congr fun i _ => ?_
      rw [List.getElem?_map, List.getElem?_map]
      cases range[i]? <;> rfl
    rw [hmap, List.foldl_map]
    rfl
  rw [mapReduce_eq h, hnone, hfold]

theorem filterMap_getElem?_range (l : List V) : (List.range l.length).filterMap (l[·]?) = l := by
  induction l with
  | nil => rfl
  | cons v l ih =>
    rw [List.length_cons, List.range_succ_eq_map, List.filterMap_cons, List.filterMap_map]
    exact congrArg (v :: ·) ih

/-- In every order the values are those of the range. -/
theorem ordered_perm {range : List X} {order : List Nat} (h : Order range order) (mapper : X → V) :
    (order.filterMap ((range.map mapper)[·]?)).Perm (range.map mapper) := by
  refine (h.filterMap _).trans (List.Perm.of_eq ?_)
  rw [← List.length_map mapper]
  exact filterMap_getElem?_range _

/-- For every reduce function: the result is the left fold in the order of the range, for every range,
mapper and initial value and every order of completion, exactly when two values may be
reduced in either order. -/
theorem mapReduce_ordered_iff (reduce : R → V → R) :
    (∀ (X : Type) (range : List X) (mapper : X → V) (initial : R) (order : List Nat),
      Order range order → mapReduce (E := E) range (fun x => .ok (mapper x)) initial reduce order =
        some (.ok ((range.map mapper).foldl reduce initial))) ↔
      ∀ r v w, reduce (reduce r v) w = reduce (reduce r w) v := by
  constructor
  · intro h r v w
    have horder : Order [v, w] [1, 0] := List.Perm.swap 0 1 []
    have heq := h V [v, w] id r [1, 0] horder
    rw [mapReduce_values horder] at heq
    exact (Except.ok.inj (Option.some.inj heq)).symm
  · intro hcomm X range mapper initial order horder
    rw [mapReduce_values horder]
    congr 2
    exact (ordered_perm horder mapper).foldl_eq' (fun v _ w _ r => hcomm r v w) initial

/-- Two values, the second one ready first. -/
theorem mapReduce_swapped :
    ¬ (∀ (X : Type) (range : List X) (mapper : X → Nat) (initial : Nat) (order : List Nat),
      Order range order →
        mapReduce (E := Unit) range (fun x => .ok (mapper x)) initial (fun r v => 10 * r + v) order =
          some (.ok ((range.map mapper).foldl (fun r v => 10 * r + v) initial))) := by
  intro h
  have heq := h Nat [1, 2] id 0 [1, 0] (List.Perm.swap 0 1 [])
  revert heq
  decide

end Seastar.MapReduce
