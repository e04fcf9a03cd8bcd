import Seastar.Core.SharedPtrHeap

/-!
The destructor of a shared pointer: it destroys exactly what only this pointer keeps alive, and does
not return if the pointer itself is stored there.
-/

namespace Seastar.SharedPtr

variable {h h' : Heap} {o n i : Nat} {x : Obj} {l dst src : Loc} {c : Cell} {p : Option Nat}
  {ps : List Cell}

/-! ## What a pointer keeps alive -/

/-- Only `dst` keeps the object alive: every other pointer to it is stored in an object that only
`dst` keeps alive. -/
inductive Doomed (h : Heap) (dst : Loc) : Nat → Prop
  | mk {o : Nat} {x : Obj} (hx : h.obj o = some x)
    (hroot : ∀ r, h.cell (.root r) = some (.ptr (some o)) → .root r = dst)
    (hfield : ∀ n i, h.cell (.field n i) = some (.ptr (some o)) → .field n i ≠ dst →
      Doomed h dst n) : Doomed h dst o

/-- The pointer is stored in such an object. -/
def Within (h : Heap) (dst l : Loc) : Prop := ∃ o i, l = .field o i ∧ Doomed h dst o

/-- What is left of a heap: pointers outside of objects, and objects with the same pointers. -/
structure Remains (h h' : Heap) : Prop where
  roots : h'.roots = h.roots
  length : h'.objs.length = h.objs.length
  fields : ∀ {o x'}, h'.obj o = some x' → ∃ x, h.obj o = some x ∧ x'.fields = x.fields

theorem Remains.refl (h : Heap) : Remains h h := ⟨rfl, rfl, fun hx => ⟨_, hx, rfl⟩⟩

theorem Remains.trans {h'' : Heap} (h₁ : Remains h h') (h₂ : Remains h' h'') : Remains h h'' where
  roots := h₂.roots.trans h₁.roots
  length := h₂.length.trans h₁.length
  fields hx := by
    obtain ⟨y, hy, hfields⟩ := h₂.fields hx
    obtain ⟨z, hz, hfields'⟩ := h₁.fields hy
    exact ⟨z, hz, hfields.trans hfields'⟩

theorem Remains.cell (hr : Remains h h') (hc : h'.cell l = some c) : h.cell l = some c := by
  cases l with
  | root r =>
    rw [Heap.cell, hr.roots] at hc
    exact hc
  | field n i =>
    rw [Heap.cell, Option.bind_eq_some_iff] at hc
    obtain ⟨x', hx', hi⟩ := hc
    obtain ⟨x, hx, hfields⟩ := hr.fields hx'
    rw [Heap.cell, hx, Option.bind_some, ← hfields]
    exact hi

theorem Remains.setObj {n : Nat} (hx : h.obj o = some x) :
    Remains h (h.setObj o (some { x with count := n })) where
  roots := rfl
  length := h.length_setObj o _
  fields {o' x'} hx' := by
    by_cases hne : o' = o
    · subst hne
      rw [Heap.obj_setObj_self (Heap.obj_lt hx)] at hx'
      obtain rfl := Option.some.inj hx'
      exact ⟨x, hx, rfl⟩
    · rw [Heap.obj_setObj_of_ne hne] at hx'
      exact ⟨x', hx', rfl⟩

theorem Remains.dispose (hx : h.obj o = some x) : Remains h (h.dispose o) where
  roots := rfl
  length := h.length_setObj o none
  fields {o' x'} hx' := by
    have hne : o' ≠ o := by
      rintro rfl
      rw [Heap.dispose] at hx'
      have : (h.setObj o' none).obj o' = some x' := hx'
      rw [Heap.obj_setObj_self (Heap.obj_lt hx)] at this
      cases this
    have hold : (h.setObj o none).obj o' = some x' := hx'
    rw [Heap.obj_setObj_of_ne hne] at hold
    exact ⟨x', hold, rfl⟩

/-! ## The destructor -/

/-- The destructors on the way: `h` is the heap when that of `dst` began, `h'` the heap now. -/
structure Falling (h : Heap) (dst : Loc) (ps : List Cell) (h' : Heap) : Prop where
  counts : Counts ps h'
  remains : Remains (h.setCell .dead dst) h'
  doomed : ∀ {o x}, h.obj o = some x → h'.obj o = none → Doomed h dst o
  dead : .dead ∈ ps → Within h dst dst

/-- No field is dead: every pointer in an object is alive. -/
def AllAlive (h : Heap) : Prop := ∀ o i, h.cell (.field o i) ≠ some .dead

/-- While `dst` falls it is the only dead field. -/
theorem dead_only (hd : AllAlive h) (hc : (h.setCell .dead dst).cell (.field o i) = some .dead) :
    .field o i = dst := by
  by_contra hne
  rw [Heap.cell_setCell_of_ne hne] at hc
  exact hd o i hc

/-- An object that loses its last pointer is one that only `dst` kept alive. -/
theorem Falling.last (hf : Falling h dst (.ptr (some o) :: ps) h') (hx : h'.obj o = some x)
    (hnone : h'.pointers o = 0) : Doomed h dst o := by
  have hcell (l : Loc) (hc : h.cell l = some (.ptr (some o))) (hne : l ≠ dst) :
      h'.cell l ≠ some (.ptr (some o)) := by
    intro hc'
    have := Heap.pointers_pos hc'
    omega
  have hobj : ∃ y, h.obj o = some y := by
    obtain ⟨y, hy, -⟩ := hf.remains.fields hx
    have hcount := Heap.obj_setCell h .dead dst o
    rw [hy, Option.map_some] at hcount
    obtain ⟨z, hz, -⟩ := Option.map_eq_some_iff.mp hcount.symm
    exact ⟨z, hz⟩
  obtain ⟨y, hy⟩ := hobj
  refine .mk hy (fun r hr => ?_) (fun n i hfield hne => ?_)
  · by_contra hne
    apply hcell _ hr hne
    rw [Heap.cell, hf.remains.roots]
    rw [← Heap.cell_setCell_of_ne hne .dead] at hr
    exact hr
  · have hne' := hcell _ hfield hne
    cases hn : h'.obj n with
    | none =>
      rw [Heap.cell, Option.bind_eq_some_iff] at hfield
      obtain ⟨z, hz, -⟩ := hfield
      exact hf.doomed hz hn
    | some z =>
      obtain ⟨w, hw, hfields⟩ := hf.remains.fields hn
      rw [← Heap.cell_setCell_of_ne hne .dead, Heap.cell, hw, Option.bind_some, ← hfields] at hfield
      refine absurd ?_ hne'
      rw [Heap.cell, hn, Option.bind_some]
      exact hfield

theorem destroyAll_none (hnone : h.obj o = none) :
    destroyAll h (.ptr (some o) :: ps) = .error .destroyed := by
  rw [destroyAll]
  split
  · rfl
  · rename_i hx
    rw [hnone] at hx
    cases hx

theorem destroyAll_dispose (hx : h.obj o = some x) (hlast : x.count - 1 = 0) :
    destroyAll h (.ptr (some o) :: ps) = destroyAll (h.dispose o) (x.fields.reverse ++ ps) := by
  rw [destroyAll]
  split
  · rename_i hnone
    rw [hx] at hnone
    cases hnone
  · rename_i y hy
    obtain rfl := Option.some.inj (hx.symm.trans hy)
    rw [if_pos hlast]

theorem destroyAll_release (hx : h.obj o = some x) (hlast : x.count - 1 ≠ 0) :
    destroyAll h (.ptr (some o) :: ps) =
      destroyAll (h.setObj o (some { x with count := x.count - 1 })) ps := by
  rw [destroyAll]
  split
  · rename_i hnone
    rw [hx] at hnone
    cases hnone
  · rename_i y hy
    obtain rfl := Option.some.inj (hx.symm.trans hy)
    rw [if_neg hlast]

/-- The destructors run to the end, unless they come to `dst` itself. -/
theorem destroyAll_spec (hd : AllAlive h) (hf : Falling h dst ps h') :
    (∃ h'', destroyAll h' ps = .ok h'' ∧ Falling h dst [] h'') ∨
      (∃ f, destroyAll h' ps = .error f) ∧ Within h dst dst := by
  induction h', ps using destroyAll.induct with
  | case1 h' =>
    left
    exact ⟨h', by rw [destroyAll], hf⟩
  | case2 h' ps =>
    right
    exact ⟨⟨_, by rw [destroyAll]⟩, hf.dead List.mem_cons_self⟩
  | case3 h' ps ih =>
    rw [destroyAll]
    refine ih ⟨hf.counts.congr fun o => ?_, hf.remains, hf.doomed, fun hmem => ?_⟩
    · rw [Counts.count_cons, if_neg (by intro h; cases h), Nat.add_zero]
    · exact hf.dead (List.mem_cons_of_mem _ hmem)
  | case4 h' o ps hnone =>
    have hpos := hf.counts.dangling hnone
    rw [Counts.count_cons, if_pos rfl] at hpos
    omega
  | case5 h' o ps x hx hlast ih =>
    obtain ⟨hcounts, hzero⟩ := hf.counts.dispose hx hlast
    have hdoomed := hf.last hx (by omega)
    rw [destroyAll_dispose hx hlast]
    refine ih ⟨hcounts, hf.remains.trans (Remains.dispose hx), fun {n y} hy hn => ?_, fun hmem => ?_⟩
    · by_cases hne : n = o
      · rwa [hne]
      · apply hf.doomed hy
        rw [← hn]
        exact (Heap.obj_setObj_of_ne hne none).symm
    · rcases List.mem_append.mp hmem with hin | hin
      · obtain ⟨i, hi⟩ := List.mem_iff_getElem?.mp (List.mem_reverse.mp hin)
        have hcell : h'.cell (.field o i) = some .dead := by
          rw [Heap.cell, hx, Option.bind_some]
          exact hi
        exact ⟨o, i, (dead_only hd (hf.remains.cell hcell)).symm, hdoomed⟩
      · exact hf.dead (List.mem_cons_of_mem _ hin)
  | case6 h' o ps x hx hlast ih =>
    rw [destroyAll_release hx hlast]
    refine ih ⟨hf.counts.release hx hlast, hf.remains.trans (Remains.setObj hx),
      fun {n y} hy hn => ?_, fun hmem => hf.dead (List.mem_cons_of_mem _ hmem)⟩
    by_cases hne : n = o
    · subst hne
      rw [Heap.obj_setObj_self (Heap.obj_lt hx)] at hn
      cases hn
    · rw [Heap.obj_setObj_of_ne hne] at hn
      exact hf.doomed hy hn

/-- In the end all that only `dst` kept alive is destroyed. -/
theorem Falling.gone (hf : Falling h dst [] h') (hl : h.cell dst = some c) (hdoomed : Doomed h dst o) :
    h'.obj o = none := by
  induction hdoomed with
  | @mk o x hx hroot hfield ih =>
    cases hx' : h'.obj o with
    | none => rfl
    | some x' =>
      obtain ⟨hcount, hpos⟩ := hf.counts.count hx'
      have hnil : ([] : List Cell).count (.ptr (some o)) = 0 := rfl
      obtain ⟨l, hcell⟩ := Heap.exists_cell (show 0 < h'.pointers o by omega)
      have hold := hf.remains.cell hcell
      have hne : l ≠ dst := by
        rintro rfl
        rw [Heap.cell_setCell_self hl] at hold
        cases hold
      rw [Heap.cell_setCell_of_ne hne] at hold
      cases l with
      | root r => exact absurd (hroot r hold) hne
      | field n i =>
        rw [Heap.cell, ih n i hold hne] at hcell
        cases hcell

/-- A destructor that comes to a dead pointer does not return. -/
theorem destroyAll_dead (hmem : .dead ∈ ps) : destroyAll h ps ≠ .ok h' := by
  intro hok
  induction h, ps using destroyAll.induct with
  | case1 h => cases hmem
  | case2 h ps =>
    rw [destroyAll] at hok
    cases hok
  | case3 h ps ih =>
    rw [destroyAll] at hok
    exact ih ((List.mem_cons.mp hmem).resolve_left (by intro h; cases h)) hok
  | case4 h o ps hnone =>
    rw [destroyAll_none hnone] at hok
    cases hok
  | case5 h o ps x hx hlast ih =>
    rw [destroyAll_dispose hx hlast] at hok
    exact ih (List.mem_append_right _ ((List.mem_cons.mp hmem).resolve_left
      (by intro h; cases h))) hok
  | case6 h o ps x hx hlast ih =>
    rw [destroyAll_release hx hlast] at hok
    exact ih ((List.mem_cons.mp hmem).resolve_left (by intro h; cases h)) hok

/-- ... so that an object with a dead pointer is never destroyed. -/
theorem destroyAll_owner (hx : h.obj o = some x) (hmem : .dead ∈ x.fields)
    (hok : destroyAll h ps = .ok h') : ∃ x', h'.obj o = some x' := by
  induction h, ps using destroyAll.induct generalizing x with
  | case1 h =>
    rw [destroyAll] at hok
    obtain rfl := Except.ok.inj hok
    exact ⟨x, hx⟩
  | case2 h ps =>
    rw [destroyAll] at hok
    cases hok
  | case3 h ps ih =>
    rw [destroyAll] at hok
    exact ih hx hmem hok
  | case4 h n ps hnone =>
    rw [destroyAll_none hnone] at hok
    cases hok
  | case5 h n ps y hy hlast ih =>
    rw [destroyAll_dispose hy hlast] at hok
    by_cases hne : o = n
    · subst hne
      obtain rfl := Option.some.inj (hx.symm.trans hy)
      exact absurd hok (destroyAll_dead (List.mem_append_left _ (List.mem_reverse.mpr hmem)))
    · apply ih _ hmem hok
      rw [← hx]
      exact Heap.obj_setObj_of_ne hne none
  | case6 h n ps y hy hlast ih =>
    rw [destroyAll_release hy hlast] at hok
    by_cases hne : o = n
    · subst hne
      obtain rfl := Option.some.inj (hx.symm.trans hy)
      exact ih (Heap.obj_setObj_self (Heap.obj_lt hy) _) hmem hok
    · apply ih _ hmem hok
      rw [← hx]
      exact Heap.obj_setObj_of_ne hne _

/-! ## What is left -/

/-- A pointer that is not in an object that falls is left. -/
theorem Falling.cell (hf : Falling h dst [] h') (hc : (h.setCell .dead dst).cell l = some c)
    (hw : ¬ Within h dst l) : h'.cell l = some c := by
  cases l with
  | root r =>
    rw [Heap.cell, hf.remains.roots]
    exact hc
  | field n i =>
    rw [Heap.cell, Option.bind_eq_some_iff] at hc
    obtain ⟨x, hx, hi⟩ := hc
    cases hx' : h'.obj n with
    | none =>
      have hcount := Heap.obj_setCell h .dead dst n
      rw [hx, Option.map_some] at hcount
      obtain ⟨y, hy, -⟩ := Option.map_eq_some_iff.mp hcount.symm
      exact absurd ⟨n, i, rfl, hf.doomed hy hx'⟩ hw
    | some x' =>
      obtain ⟨y, hy, hfields⟩ := hf.remains.fields hx'
      obtain rfl := Option.some.inj (hx.symm.trans hy)
      rw [Heap.cell, hx', Option.bind_some, hfields]
      exact hi

/-- ... and one that is in such an object is not. -/
theorem Falling.cell_none (hf : Falling h dst [] h') (hl : h.cell dst = some c)
    (hw : Within h dst l) : h'.cell l = none := by
  obtain ⟨o, i, rfl, hdoomed⟩ := hw
  rw [Heap.cell, hf.gone hl hdoomed, Option.bind_none]

/-- The destructor of a pointer that does not keep itself alive returns. -/
theorem destruct_cases (hc : Counts [] h) (hd : AllAlive h) (hl : h.cell dst = some (.ptr p)) :
    (¬ Within h dst dst ∧ ∃ h', destruct h dst = .ok h' ∧ Falling h dst [] h') ∨
      Within h dst dst ∧ ∃ f, destruct h dst = .error f := by
  have hdestruct : destruct h dst = destroyAll (h.setCell .dead dst) [.ptr p] := by
    rw [destruct, Heap.read, hl]
    rfl
  have hstart : Falling h dst [.ptr p] (h.setCell .dead dst) := by
    refine ⟨hc.take hl (by intro o h; cases h), Remains.refl _, fun {o x} hx hnone => ?_, fun hmem => ?_⟩
    · have hcount := Heap.obj_setCell h .dead dst o
      rw [hx, hnone] at hcount
      cases hcount
    · cases List.mem_singleton.mp hmem
  rw [hdestruct]
  rcases destroyAll_spec hd hstart with ⟨h', hok, hf⟩ | ⟨herr, hw⟩
  · left
    refine ⟨?_, h', hok, hf⟩
    rintro ⟨o, i, rfl, hdoomed⟩
    rw [Heap.cell, Option.bind_eq_some_iff] at hl
    obtain ⟨x, hx, hi⟩ := hl
    have hset : h.setCell .dead (.field o i) =
        h.setObj o (some { x with fields := x.fields.set i .dead }) := by
      rw [Heap.setCell, hx, Option.elim_some]
    have hx' := Heap.obj_setObj_self (Heap.obj_lt hx) (some { x with fields := x.fields.set i .dead })
    rw [← hset] at hx'
    have hmem : Cell.dead ∈ x.fields.set i .dead :=
      List.mem_set (List.getElem?_eq_some_iff.mp hi).1 _
    obtain ⟨y, hy⟩ := destroyAll_owner hx' hmem hok
    have hcell : h.cell (.field o i) = some (.ptr p) := by
      rw [Heap.cell, hx, Option.bind_some, hi]
    rw [hf.gone hcell hdoomed] at hy
    cases hy
  · right
    exact ⟨hw, herr⟩

end Seastar.SharedPtr
