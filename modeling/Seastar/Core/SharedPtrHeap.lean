import Seastar.Core.SharedPtr

/-!
The heap of the shared pointers in order: the count of an object is the number of the live pointers
to it, and an object is destroyed exactly when there are none. What the destructor of a pointer
destroys is what only this pointer keeps alive.
-/

namespace Seastar.SharedPtr

open Lib

namespace Heap

variable {h h' : Heap} {o o' i : Nat} {x x' : Obj} {l l' : Loc} {c c' : Cell} {p : Option Nat}

/-! ## Counting the pointers -/

@[simp] theorem setObj_roots (h : Heap) (o : Nat) (y : Option Obj) : (h.setObj o y).roots = h.roots :=
  rfl

@[simp] theorem setObj_destroyed (h : Heap) (o : Nat) (y : Option Obj) :
    (h.setObj o y).destroyed = h.destroyed := rfl

@[simp] theorem length_setObj (h : Heap) (o : Nat) (y : Option Obj) :
    (h.setObj o y).objs.length = h.objs.length := List.length_set

theorem obj_lt (hx : h.obj o = some x) : o < h.objs.length :=
  (List.getElem?_eq_some_iff.mp (objs_of_obj hx)).1

theorem obj_setObj_self (ho : o < h.objs.length) (y : Option Obj) : (h.setObj o y).obj o = y := by
  rw [obj, setObj, List.getElem?_set_self ho, Option.join_some]

theorem obj_setObj_of_ne (hne : o' ≠ o) (y : Option Obj) : (h.setObj o y).obj o' = h.obj o' := by
  rw [obj, setObj, List.getElem?_set_ne (Ne.symm hne), obj]

theorem pointers_eq (h : Heap) (o : Nat) : h.pointers o = h.roots.count (.ptr (some o)) +
    (h.objs.map fun x => (fieldsOf x).count (.ptr (some o))).sum := by
  rw [pointers, cells, List.count_append, List.count_flatMap]
  rfl

/-- The pointers of an object are counted with the others. -/
theorem pointers_setObj (hx : h.obj o = some x) (y : Option Obj) (o' : Nat) :
    (h.setObj o y).pointers o' + x.fields.count (.ptr (some o')) =
      h.pointers o' + (fieldsOf y).count (.ptr (some o')) := by
  have hsum := Counting.sum_map_set (fun x => (fieldsOf x).count (.ptr (some o'))) (objs_of_obj hx) y
  have hfields : fieldsOf (some x) = x.fields := rfl
  rw [hfields] at hsum
  rw [pointers_eq, pointers_eq]
  change _ + ((h.objs.set o y).map _).sum + _ = _
  rw [setObj_roots]
  omega

theorem pointers_setCell (hc : h.cell l = some c) (c' : Cell) (o : Nat) :
    (h.setCell c' l).pointers o + (if c = .ptr (some o) then 1 else 0) =
      h.pointers o + if c' = .ptr (some o) then 1 else 0 := by
  cases l with
  | root r =>
    have := Counting.count_set_add (.ptr (some o)) hc c'
    simp only [beq_iff_eq] at this
    rw [pointers_eq, pointers_eq, setCell]
    dsimp only
    omega
  | field n i =>
    rw [cell, Option.bind_eq_some_iff] at hc
    obtain ⟨x, hx, hi⟩ := hc
    have hfield := Counting.count_set_add (.ptr (some o)) hi c'
    simp only [beq_iff_eq] at hfield
    have hobj := pointers_setObj hx (some { x with fields := x.fields.set i c' }) o
    have hfields : fieldsOf (some { x with fields := x.fields.set i c' }) = x.fields.set i c' := rfl
    rw [hfields] at hobj
    rw [setCell, hx, Option.elim_some]
    omega

/-- A pointer that is counted is somewhere. -/
theorem exists_cell (hpos : 0 < h.pointers o) : ∃ l, h.cell l = some (.ptr (some o)) := by
  have hmem := List.count_pos_iff.mp hpos
  rcases List.mem_append.mp hmem with hroot | hfield
  · obtain ⟨r, hr⟩ := List.mem_iff_getElem?.mp hroot
    exact ⟨.root r, hr⟩
  · obtain ⟨y, hy, hin⟩ := List.mem_flatMap.mp hfield
    obtain ⟨n, hn⟩ := List.mem_iff_getElem?.mp hy
    cases y with
    | none => cases hin
    | some x =>
      obtain ⟨i, hi⟩ := List.mem_iff_getElem?.mp hin
      refine ⟨.field n i, ?_⟩
      rw [cell, obj, hn, Option.join_some]
      exact hi

theorem pointers_pos (hc : h.cell l = some (.ptr (some o))) : 0 < h.pointers o := by
  have hdead := pointers_setCell hc .dead o
  rw [if_pos rfl, if_neg (by intro h; cases h)] at hdead
  omega

theorem cell_setCell_self (hc : h.cell l = some c) (c' : Cell) :
    (h.setCell c' l).cell l = some c' := by
  cases l with
  | root r => exact List.getElem?_set_self (List.getElem?_eq_some_iff.mp hc).1
  | field n i =>
    rw [cell, Option.bind_eq_some_iff] at hc
    obtain ⟨x, hx, hi⟩ := hc
    rw [setCell, hx, Option.elim_some, cell, obj_setObj_self (obj_lt hx), Option.bind_some]
    exact List.getElem?_set_self (List.getElem?_eq_some_iff.mp hi).1

theorem cell_setCell_of_ne (hne : l' ≠ l) (c' : Cell) : (h.setCell c' l).cell l' = h.cell l' := by
  cases l with
  | root r =>
    cases l' with
    | root r' => exact List.getElem?_set_ne fun heq => hne (by rw [heq])
    | field n' i' => rfl
  | field n i =>
    rw [setCell]
    cases hx : h.obj n with
    | none => rfl
    | some x =>
      rw [Option.elim_some]
      cases l' with
      | root r' => rfl
      | field n' i' =>
        rw [cell, cell]
        by_cases hn : n' = n
        · subst hn
          rw [obj_setObj_self (obj_lt hx), hx, Option.bind_some, Option.bind_some]
          exact List.getElem?_set_ne fun heq => hne (by rw [heq])
        · rw [obj_setObj_of_ne hn]

/-- Setting a pointer leaves the objects, and their counts. -/
theorem obj_setCell (h : Heap) (c' : Cell) (l : Loc) (o : Nat) :
    ((h.setCell c' l).obj o).map Obj.count = (h.obj o).map Obj.count := by
  cases l with
  | root r => rfl
  | field n i =>
    rw [setCell]
    cases hx : h.obj n with
    | none => rfl
    | some x =>
      rw [Option.elim_some]
      by_cases hn : o = n
      · subst hn
        rw [obj_setObj_self (obj_lt hx), hx]
        rfl
      · rw [obj_setObj_of_ne hn]

/-- Counting leaves the pointers. -/
theorem cell_retain (hr : h.retain p = .ok h') (l : Loc) : h'.cell l = h.cell l := by
  cases p with
  | none =>
    obtain rfl := Except.ok.inj hr
    rfl
  | some o =>
    cases hx : h.obj o with
    | none =>
      rw [retain, hx] at hr
      cases hr
    | some x =>
      rw [retain, hx] at hr
      obtain rfl := Except.ok.inj hr
      cases l with
      | root r => rfl
      | field n i =>
        rw [cell, cell]
        by_cases hn : n = o
        · subst hn
          rw [obj_setObj_self (obj_lt hx), hx]
          rfl
        · rw [obj_setObj_of_ne hn]

@[simp] theorem setCell_destroyed (h : Heap) (c' : Cell) (l : Loc) :
    (h.setCell c' l).destroyed = h.destroyed := by
  cases l with
  | root r => rfl
  | field n i => cases hx : h.obj n <;> simp [setCell, hx]

@[simp] theorem length_setCell (h : Heap) (c' : Cell) (l : Loc) :
    (h.setCell c' l).objs.length = h.objs.length := by
  cases l with
  | root r => rfl
  | field n i => cases hx : h.obj n <;> simp [setCell, hx]

end Heap

/-! ## The counts -/

/-- With the pointers `ps` besides those in the heap, every object has its count, and those that are
destroyed, each of them once, are the ones without a pointer. -/
structure Counts (ps : List Cell) (h : Heap) : Prop where
  count : ∀ {o x}, h.obj o = some x → x.count = ps.count (.ptr (some o)) + h.pointers o ∧ 0 < x.count
  dangling : ∀ {o}, h.obj o = none → ps.count (.ptr (some o)) + h.pointers o = 0
  gone : ∀ o, o ∈ h.destroyed ↔ o < h.objs.length ∧ h.obj o = none
  once : h.destroyed.Nodup

namespace Counts

variable {h h' : Heap} {o : Nat} {x : Obj} {l : Loc} {c : Cell} {p : Option Nat} {ps qs : List Cell}

/-- Only the numbers of the pointers count. -/
theorem congr (hc : Counts ps h)
    (hps : ∀ o, qs.count (.ptr (some o)) = ps.count (.ptr (some o))) : Counts qs h where
  count hx := by
    rw [hps]
    exact hc.count hx
  dangling hx := by
    rw [hps]
    exact hc.dangling hx
  gone := hc.gone
  once := hc.once

theorem obj_of_pos (hc : Counts ps h) (hpos : 0 < ps.count (.ptr (some o)) + h.pointers o) :
    ∃ x, h.obj o = some x := by
  cases hx : h.obj o with
  | none =>
    have := hc.dangling hx
    omega
  | some x => exact ⟨x, rfl⟩

/-- The pointers in the heap change with the others. -/
theorem recell {c' : Cell} (hc : Counts ps h) (hl : h.cell l = some c)
    (hps : ∀ o, qs.count (.ptr (some o)) + (if c' = .ptr (some o) then 1 else 0) =
      ps.count (.ptr (some o)) + if c = .ptr (some o) then 1 else 0) :
    Counts qs (h.setCell c' l) := by
  have hsum (o : Nat) : qs.count (.ptr (some o)) + (h.setCell c' l).pointers o =
      ps.count (.ptr (some o)) + h.pointers o := by
    have h₁ := Heap.pointers_setCell hl c' o
    have h₂ := hps o
    omega
  have hobj := Heap.obj_setCell h c' l
  constructor
  · intro o x hx
    have ho := hobj o
    rw [hx, Option.map_some] at ho
    obtain ⟨y, hy, hcount⟩ := Option.map_eq_some_iff.mp ho.symm
    rw [hsum, ← hcount]
    exact hc.count hy
  · intro o hx
    have ho := hobj o
    rw [hx, Option.map_none] at ho
    rw [hsum]
    exact hc.dangling (Option.map_eq_none_iff.mp ho.symm)
  · intro o
    have hnone : (h.setCell c' l).obj o = none ↔ h.obj o = none := by
      rw [← Option.map_eq_none_iff (f := Obj.count), hobj, Option.map_eq_none_iff]
    rw [Heap.setCell_destroyed, Heap.length_setCell, hnone]
    exact hc.gone o
  · rw [Heap.setCell_destroyed]
    exact hc.once

theorem count_cons (p : Option Nat) (ps : List Cell) (o : Nat) :
    (Cell.ptr p :: ps).count (.ptr (some o)) =
      ps.count (.ptr (some o)) + if p = some o then 1 else 0 := by
  rw [List.count_cons]
  simp

/-- A pointer is taken out of its place. -/
theorem take {c' : Cell} (hc : Counts ps h) (hl : h.cell l = some (.ptr p))
    (hc' : ∀ o, c' ≠ .ptr (some o)) : Counts (.ptr p :: ps) (h.setCell c' l) := by
  apply hc.recell hl
  intro o
  rw [count_cons, if_neg (hc' o)]
  simp

/-- ... and put into one. -/
theorem put (hc : Counts (.ptr p :: ps) h) (hl : h.cell l = some c) (hfree : ∀ o, c ≠ .ptr (some o)) :
    Counts ps (h.setCell (.ptr p) l) := by
  apply hc.recell hl
  intro o
  rw [count_cons, if_neg (hfree o)]
  simp

/-- ... or into a new one outside of objects. -/
theorem push (hc : Counts (.ptr p :: ps) h) : Counts ps { h with roots := h.roots ++ [.ptr p] } := by
  have hsum (o : Nat) : ps.count (.ptr (some o)) +
      ({ h with roots := h.roots ++ [.ptr p] } : Heap).pointers o =
        (Cell.ptr p :: ps).count (.ptr (some o)) + h.pointers o := by
    have hroots : ({ h with roots := h.roots ++ [.ptr p] } : Heap).pointers o =
        h.pointers o + if p = some o then 1 else 0 := by
      rw [Heap.pointers_eq, Heap.pointers_eq]
      dsimp only
      rw [List.count_append, count_cons, List.count_nil]
      omega
    rw [hroots, count_cons]
    omega
  constructor
  · intro o x hx
    rw [hsum]
    exact hc.count hx
  · intro o hx
    rw [hsum]
    exact hc.dangling hx
  · exact hc.gone
  · exact hc.once

/-- A new object holds null pointers only, and has the pointer that made it. -/
theorem make (hc : Counts [] h) (k : Nat) : Counts [.ptr (some h.objs.length)]
    { h with objs := h.objs ++ [some ⟨1, List.replicate k (.ptr none)⟩] } := by
  have hout : h.obj h.objs.length = none := by
    rw [Heap.obj, List.getElem?_eq_none (Nat.le_refl _)]
    rfl
  have hnone := hc.dangling hout
  have hpointers (o : Nat) : ({ h with objs := h.objs ++
      [some ⟨1, List.replicate k (.ptr none)⟩] } : Heap).pointers o = h.pointers o := by
    have hnull : (List.replicate k (Cell.ptr none)).count (.ptr (some o)) = 0 := by
      rw [List.count_eq_zero]
      intro hmem
      cases List.eq_of_mem_replicate hmem
    rw [Heap.pointers_eq, Heap.pointers_eq]
    dsimp only
    rw [List.map_append, List.sum_append, List.map_singleton, List.sum_singleton]
    change _ + (_ + (List.replicate k (Cell.ptr none)).count _) = _
    rw [hnull, Nat.add_zero]
  have hself : ({ h with objs := h.objs ++ [some ⟨1, List.replicate k (.ptr none)⟩] } : Heap).obj
      h.objs.length = some ⟨1, List.replicate k (.ptr none)⟩ := by
    rw [Heap.obj, List.getElem?_append_right (Nat.le_refl _), Nat.sub_self]
    rfl
  have hother (o : Nat) (hne : o ≠ h.objs.length) : ({ h with objs := h.objs ++
      [some ⟨1, List.replicate k (.ptr none)⟩] } : Heap).obj o = h.obj o := by
    rw [Heap.obj, Heap.obj]
    dsimp only
    by_cases hlt : o < h.objs.length
    · rw [List.getElem?_append_left hlt]
    · rw [List.getElem?_eq_none (by rw [List.length_append, List.length_singleton]; omega),
        List.getElem?_eq_none (by omega)]
  have hcount (o : Nat) (hne : o ≠ h.objs.length) :
      [Cell.ptr (some h.objs.length)].count (.ptr (some o)) = 0 := by
    rw [count_cons, if_neg fun heq => hne (Option.some.inj heq).symm, List.count_nil]
  rw [List.count_nil, Nat.zero_add] at hnone
  constructor
  · intro o x hx
    by_cases hne : o = h.objs.length
    · subst hne
      rw [hself] at hx
      obtain rfl := Option.some.inj hx
      rw [hpointers, hnone, count_cons, if_pos rfl, List.count_nil]
      exact ⟨rfl, Nat.one_pos⟩
    · rw [hother o hne] at hx
      rw [hpointers, hcount o hne]
      exact hc.count hx
  · intro o hx
    have hne : o ≠ h.objs.length := by
      rintro rfl
      rw [hself] at hx
      cases hx
    rw [hother o hne] at hx
    rw [hpointers, hcount o hne]
    exact hc.dangling hx
  · intro o
    change o ∈ h.destroyed ↔ _
    rw [hc.gone, List.length_append, List.length_singleton]
    by_cases hne : o = h.objs.length
    · subst hne
      rw [hself]
      simp
    · rw [hother o hne]
      exact and_congr_left fun _ => by omega
  · exact hc.once

/-- The count of an object is set, with a number of pointers that fits it. -/
theorem recount (hc : Counts ps h) (hx : h.obj o = some x) {n : Nat} (hn : 0 < n)
    (hcount : n + ps.count (.ptr (some o)) = x.count + qs.count (.ptr (some o)))
    (hps : ∀ o', o' ≠ o → qs.count (.ptr (some o')) = ps.count (.ptr (some o'))) :
    Counts qs (h.setObj o (some { x with count := n })) := by
  have hpointers (o' : Nat) : (h.setObj o (some { x with count := n })).pointers o' =
      h.pointers o' := by
    have hsum := Heap.pointers_setObj hx (some { x with count := n }) o'
    have hfields : Heap.fieldsOf (some { x with count := n }) = x.fields := rfl
    rw [hfields] at hsum
    omega
  have hlt := Heap.obj_lt hx
  constructor
  · intro o' y hy
    by_cases hne : o' = o
    · subst hne
      rw [Heap.obj_setObj_self hlt] at hy
      obtain rfl := Option.some.inj hy
      have hold := (hc.count hx).1
      rw [hpointers]
      exact ⟨by dsimp only; omega, hn⟩
    · rw [Heap.obj_setObj_of_ne hne] at hy
      rw [hpointers, hps o' hne]
      exact hc.count hy
  · intro o' hy
    have hne : o' ≠ o := by
      rintro rfl
      rw [Heap.obj_setObj_self hlt] at hy
      cases hy
    rw [Heap.obj_setObj_of_ne hne] at hy
    rw [hpointers, hps o' hne]
    exact hc.dangling hy
  · intro o'
    rw [Heap.setObj_destroyed, Heap.length_setObj, hc.gone o']
    by_cases hne : o' = o
    · subst hne
      rw [Heap.obj_setObj_self hlt, hx]
      simp
    · rw [Heap.obj_setObj_of_ne hne]
  · exact hc.once

/-- A pointer is copied. -/
theorem retain (hc : Counts ps h) (hp : ∀ o, p = some o → ∃ x, h.obj o = some x) :
    ∃ h', h.retain p = .ok h' ∧ Counts (.ptr p :: ps) h' := by
  cases p with
  | none =>
    refine ⟨h, rfl, hc.congr fun o => ?_⟩
    rw [count_cons, if_neg (by intro h; cases h), Nat.add_zero]
  | some o =>
    obtain ⟨x, hx⟩ := hp o rfl
    refine ⟨h.setObj o (some { x with count := x.count + 1 }), ?_, ?_⟩
    · rw [Heap.retain, hx]
    · apply hc.recount hx (Nat.succ_pos _)
      · rw [count_cons, if_pos rfl]
        omega
      · intro o' hne
        rw [count_cons, if_neg fun heq => hne (Option.some.inj heq).symm, Nat.add_zero]

/-- A pointer that is not the last one is destroyed. -/
theorem release (hc : Counts (.ptr (some o) :: ps) h) (hx : h.obj o = some x)
    (hlast : x.count - 1 ≠ 0) : Counts ps (h.setObj o (some { x with count := x.count - 1 })) := by
  apply hc.recount hx (Nat.pos_of_ne_zero hlast)
  · rw [count_cons, if_pos rfl]
    omega
  · intro o' hne
    rw [count_cons, if_neg fun heq => hne (Option.some.inj heq).symm, Nat.add_zero]

/-- The last pointer to an object is destroyed, and with the object the pointers in it. -/
theorem dispose (hc : Counts (.ptr (some o) :: ps) h) (hx : h.obj o = some x)
    (hlast : x.count - 1 = 0) :
    Counts (x.fields.reverse ++ ps) (h.dispose o) ∧
      ps.count (.ptr (some o)) + h.pointers o = 0 := by
  have hlt := Heap.obj_lt hx
  have hself := hc.count hx
  rw [count_cons, if_pos rfl] at hself
  have hnone : ps.count (.ptr (some o)) + h.pointers o = 0 := by omega
  have hobj (o' : Nat) (hne : o' ≠ o) : (h.dispose o).obj o' = h.obj o' :=
    Heap.obj_setObj_of_ne hne none
  have hgone : (h.dispose o).obj o = none := Heap.obj_setObj_self hlt none
  have hsum (o' : Nat) : (x.fields.reverse ++ ps).count (.ptr (some o')) + (h.dispose o).pointers o' =
      ps.count (.ptr (some o')) + h.pointers o' := by
    have hpointers := Heap.pointers_setObj hx none o'
    have hempty : (Heap.fieldsOf none).count (.ptr (some o')) = 0 := rfl
    rw [hempty] at hpointers
    have hsame : (h.dispose o).pointers o' = (h.setObj o none).pointers o' := rfl
    rw [List.count_append, List.count_reverse, hsame]
    omega
  have hother (o' : Nat) (hne : o' ≠ o) :
      (Cell.ptr (some o) :: ps).count (.ptr (some o')) = ps.count (.ptr (some o')) := by
    rw [count_cons, if_neg fun heq => hne (Option.some.inj heq).symm, Nat.add_zero]
  refine ⟨?_, hnone⟩
  constructor
  · intro o' y hy
    have hne : o' ≠ o := by
      rintro rfl
      rw [hgone] at hy
      cases hy
    rw [hobj o' hne] at hy
    rw [hsum, ← hother o' hne]
    exact hc.count hy
  · intro o' hy
    rw [hsum]
    by_cases hne : o' = o
    · subst hne
      exact hnone
    · rw [hobj o' hne] at hy
      rw [← hother o' hne]
      exact hc.dangling hy
  · intro o'
    have hlen : (h.dispose o).objs.length = h.objs.length := h.length_setObj o none
    have hmem : o' ∈ (h.dispose o).destroyed ↔ o' ∈ h.destroyed ∨ o' = o := by
      simp [Heap.dispose]
    rw [hmem, hlen]
    by_cases hne : o' = o
    · subst hne
      rw [hgone]
      simp [hlt]
    · rw [hobj o' hne, hc.gone o']
      simp [hne]
  · have hfresh : o ∉ h.destroyed := by
      intro hin
      have := ((hc.gone o).mp hin).2
      rw [hx] at this
      cases this
    have hnodup := List.nodup_append.mpr ⟨hc.once, List.nodup_cons.mpr ⟨List.not_mem_nil, List.nodup_nil⟩, by
      rintro a ha b hb rfl
      rw [List.mem_singleton.mp hb] at ha
      exact hfresh ha⟩
    exact hnodup

end Counts

end Seastar.SharedPtr
