import Seastar.Core.SharedPtrDestroy
import Seastar.Lib.Run

/-!
Runs of the shared pointers. An assignment goes wrong exactly where its source, or its target, is
stored in an object that only the target keeps alive; all other operations keep the heap in order.
-/

namespace Seastar.SharedPtr

open Lib

variable {k : Kind} {h h' h'' : Heap} {o r : Nat} {l dst src : Loc} {p q : Option Nat} {b : Bool}

/-! ## The invariant -/

/-- Every object has the count of the live pointers to it, those that are destroyed, each of them
once, are the ones without a pointer, and no object holds a destroyed pointer. -/
structure Inv (h : Heap) : Prop where
  counts : Counts [] h
  alive : AllAlive h

/-- The pointer is there and not destroyed. -/
def Live (h : Heap) (l : Loc) : Prop := h.cell l ≠ none ∧ h.cell l ≠ some .dead

instance (h : Heap) (l : Loc) : Decidable (Live h l) := inferInstanceAs (Decidable (_ ∧ _))

theorem Live.exists_ptr (hl : Live h l) : ∃ p, h.cell l = some (.ptr p) := by
  cases hc : h.cell l with
  | none => exact absurd hc hl.1
  | some c =>
    cases c with
    | dead => exact absurd hc hl.2
    | ptr p => exact ⟨p, rfl⟩

/-- The operation is one on live pointers. -/
def Allowed (h : Heap) : Op → Prop
  | .make _ => True
  | .copy src => Live h src
  | .move src => Live h src
  | .assignCopy dst src => Live h dst ∧ Live h src
  | .assignMove dst src => Live h dst ∧ Live h src
  | .destroy r => Live h (.root r)

instance (h : Heap) : (op : Op) → Decidable (Allowed h op)
  | .make _ => inferInstanceAs (Decidable True)
  | .copy src | .move src => inferInstanceAs (Decidable (Live h src))
  | .assignCopy dst src | .assignMove dst src =>
    inferInstanceAs (Decidable (Live h dst ∧ Live h src))
  | .destroy r => inferInstanceAs (Decidable (Live h (.root r)))

/-- The assignment does nothing, or neither of the pointers is stored in an object that only the
target keeps alive. -/
def Apart (k : Kind) (h : Heap) (dst src : Loc) : Prop :=
  same k h dst src = .ok true ∨ ¬ Within h dst dst ∧ ¬ Within h dst src

/-- The operation is no assignment, or one of this kind. -/
def Proper (k : Kind) (h : Heap) : Op → Prop
  | .assignCopy dst src => Apart k h dst src
  | .assignMove dst src => Apart k h dst src
  | _ => True

theorem inv_empty : Inv {} where
  counts := by
    constructor
    · intro o x hx
      cases hx
    · intro o _
      rfl
    · intro o
      simp
    · exact List.nodup_nil
  alive := by
    intro o i hc
    cases hc

/-! ## The operations -/

theorem Heap.read_ok (hl : h.cell l = some (.ptr p)) : h.read l = .ok p := by
  rw [Heap.read, hl]

/-- The object of a pointer is there. -/
theorem Counts.pointee {ps : List Cell} (hc : Counts ps h) (hl : h.cell l = some (.ptr p)) :
    ∀ o, p = some o → ∃ x, h.obj o = some x := by
  rintro o rfl
  apply hc.obj_of_pos
  have := Heap.pointers_pos hl
  omega

/-- A new pointer outside of objects keeps the order. -/
theorem Inv.push (hc : Counts [.ptr p] h) (hd : AllAlive h) :
    Inv { h with roots := h.roots ++ [.ptr p] } :=
  ⟨hc.push, hd⟩

/-- The target is constructed again. -/
theorem Inv.construct (hc : Counts [.ptr q] h) (hdead : h.cell dst = some .dead)
    (hd : ∀ o i, h.cell (.field o i) = some .dead → .field o i = dst) :
    ∃ h', h.construct q dst = .ok h' ∧ Inv h' := by
  refine ⟨h.setCell (.ptr q) dst, ?_, hc.put hdead (by intro o h; cases h), fun o i hi => ?_⟩
  · rw [Heap.construct, hdead]
  · by_cases hne : .field o i = dst
    · rw [hne, Heap.cell_setCell_self hdead] at hi
      cases hi
    · rw [Heap.cell_setCell_of_ne hne] at hi
      exact hne (hd o i hi)

/-- After the destructor of the target no other pointer is dead. -/
theorem Falling.dead_only {ps : List Cell} (hf : Falling h dst ps h') (hd : AllAlive h) (o i : Nat)
    (hi : h'.cell (.field o i) = some .dead) : .field o i = dst :=
  SharedPtr.dead_only hd (hf.remains.cell hi)

theorem same_ok (hdst : h.cell dst = some (.ptr p)) (hsrc : h.cell src = some (.ptr q)) :
    ∃ b, same k h dst src = .ok b ∧ (b = false → dst ≠ src) := by
  cases k with
  | lw =>
    refine ⟨decide (p = q), ?_, fun hb heq => ?_⟩
    · rw [same, Heap.read_ok hdst, Heap.read_ok hsrc]
      rfl
    · subst heq
      rw [hdst] at hsrc
      cases hsrc
      simp at hb
  | shared => exact ⟨decide (dst = src), rfl, fun hb => of_decide_eq_false hb⟩

/-- The first half of an assignment that does something: the source is still there exactly if it
is not stored in an object that only the target keeps alive. -/
theorem destruct_read (hI : Inv h) (hdst : h.cell dst = some (.ptr p))
    (hsrc : h.cell src = some (.ptr q)) (hne : dst ≠ src) :
    (∃ h', destruct h dst = .ok h' ∧ Falling h dst [] h' ∧ h'.cell dst = some .dead ∧
      h'.cell src = some (.ptr q) ∧ ¬ Within h dst dst ∧ ¬ Within h dst src) ∨
    ((∃ f, destruct h dst = .error f) ∨ ∃ h' f, destruct h dst = .ok h' ∧
      h'.read src = .error f) ∧ (Within h dst dst ∨ Within h dst src) := by
  rcases destruct_cases hI.counts hI.alive hdst with ⟨hw, h', hok, hf⟩ | ⟨hw, herr⟩
  · by_cases hws : Within h dst src
    · right
      refine ⟨.inr ⟨h', .destroyed, hok, ?_⟩, .inr hws⟩
      rw [Heap.read, hf.cell_none hdst hws]
    · left
      refine ⟨h', hok, hf, hf.cell (Heap.cell_setCell_self hdst _) hw, hf.cell ?_ hws, hw, hws⟩
      rw [Heap.cell_setCell_of_ne (Ne.symm hne)]
      exact hsrc
  · right
    exact ⟨.inl herr, .inl hw⟩

/-- The second half: the copy of a source that is still there. -/
theorem copy_construct (hf : Falling h dst [] h') (hd : AllAlive h)
    (hdst : h'.cell dst = some .dead) (hsrc : h'.cell src = some (.ptr q)) :
    ∃ h₂, (h'.retain q >>= fun h => h.construct q dst) = .ok h₂ ∧ Inv h₂ := by
  obtain ⟨h₁, hretain, hcounts⟩ := hf.counts.retain (hf.counts.pointee hsrc)
  rw [hretain, ok_bind]
  apply Inv.construct hcounts
  · rw [Heap.cell_retain hretain, hdst]
  · intro o i hi
    rw [Heap.cell_retain hretain] at hi
    exact hf.dead_only hd o i hi

/-- ... and the move of one. -/
theorem move_construct (hf : Falling h dst [] h') (hd : AllAlive h) (hne : dst ≠ src)
    (hdst : h'.cell dst = some .dead) (hsrc : h'.cell src = some (.ptr q)) :
    ∃ h₂, (h'.setCell (.ptr none) src).construct q dst = .ok h₂ ∧ Inv h₂ := by
  apply Inv.construct (hf.counts.take hsrc (by intro o h; cases h))
  · rw [Heap.cell_setCell_of_ne hne, hdst]
  · intro o i hi
    by_cases heq : .field o i = src
    · rw [heq, Heap.cell_setCell_self hsrc] at hi
      cases hi
    · rw [Heap.cell_setCell_of_ne heq] at hi
      exact hf.dead_only hd o i hi

/-- An assignment, with the second half as `place`, returns with the heap in order or is not
proper. -/
theorem assign_cases {place : Heap → Option Nat → Except Fault Heap} (hI : Inv h)
    (hdst : Live h dst) (hsrc : Live h src)
    (hplace : ∀ h' q, Falling h dst [] h' → dst ≠ src → h'.cell dst = some .dead →
      h'.cell src = some (.ptr q) → ∃ h₂, place h' q = .ok h₂ ∧ Inv h₂) :
    (∃ h₂, (do
        if ← same k h dst src then .ok h else
        let h ← destruct h dst
        let p ← h.read src
        place h p) = .ok h₂ ∧ Inv h₂ ∧ Apart k h dst src) ∨
      (∃ f, (do
        if ← same k h dst src then .ok h else
        let h ← destruct h dst
        let p ← h.read src
        place h p) = .error f) ∧ ¬ Apart k h dst src := by
  obtain ⟨p, hp⟩ := hdst.exists_ptr
  obtain ⟨q, hq⟩ := hsrc.exists_ptr
  obtain ⟨b, hb, hne⟩ := same_ok (k := k) hp hq
  rw [hb, ok_bind]
  cases b with
  | true =>
    left
    exact ⟨h, rfl, hI, .inl hb⟩
  | false =>
    rw [if_neg Bool.false_ne_true]
    rcases destruct_read hI hp hq (hne rfl) with ⟨h', hok, hf, hdead, hthere, hw, hws⟩ | ⟨herr, hw⟩
    · left
      obtain ⟨h₂, hconstruct, hI'⟩ := hplace h' q hf (hne rfl) hdead hthere
      refine ⟨h₂, ?_, hI', .inr ⟨hw, hws⟩⟩
      rw [hok, ok_bind, Heap.read_ok hthere, ok_bind, hconstruct]
    · right
      constructor
      · rcases herr with ⟨f, herr⟩ | ⟨h', f, hok, herr⟩
        · exact ⟨f, by rw [herr, error_bind]⟩
        · exact ⟨f, by rw [hok, ok_bind, herr, error_bind]⟩
      · rintro (hsame | ⟨hdst, hsrc⟩)
        · rw [hb] at hsame
          cases hsame
        · exact hw.elim hdst hsrc

/-- An operation on live pointers returns, with the heap in order, or it is an assignment that is
not proper. -/
theorem step_cases (hI : Inv h) {op : Op} (hA : Allowed h op) :
    (∃ h', step k h op = .ok h' ∧ Inv h' ∧ Proper k h op) ∨
      (∃ f, step k h op = .error f) ∧ ¬ Proper k h op := by
  cases op with
  | make fields =>
    left
    refine ⟨_, rfl, Inv.push (hI.counts.make fields) fun o i hi => ?_, trivial⟩
    rw [Heap.cell, Option.bind_eq_some_iff] at hi
    obtain ⟨x, hx, hi⟩ := hi
    have hobjs := Heap.objs_of_obj hx
    dsimp only at hobjs
    rw [List.getElem?_append] at hobjs
    split at hobjs
    · apply hI.alive o i
      rw [Heap.cell, Heap.obj, hobjs]
      exact hi
    · obtain rfl := Option.some.inj (List.mem_singleton.mp (List.mem_of_getElem? hobjs))
      cases List.eq_of_mem_replicate (List.mem_of_getElem? hi)
  | copy src =>
    left
    obtain ⟨p, hp⟩ := Live.exists_ptr hA
    obtain ⟨h₁, hretain, hcounts⟩ := hI.counts.retain (hI.counts.pointee hp)
    refine ⟨_, ?_, Inv.push hcounts fun o i hi => ?_, trivial⟩
    · rw [step, Heap.read_ok hp, ok_bind, hretain, ok_bind]
    · rw [Heap.cell_retain hretain] at hi
      exact hI.alive o i hi
  | move src =>
    left
    obtain ⟨p, hp⟩ := Live.exists_ptr hA
    have hcounts : Counts [.ptr p] (h.setCell (.ptr none) src) :=
      hI.counts.take hp (by intro o h; cases h)
    refine ⟨_, ?_, Inv.push hcounts fun o i hi => ?_, trivial⟩
    · rw [step, Heap.read_ok hp, ok_bind]
    · by_cases heq : .field o i = src
      · rw [heq, Heap.cell_setCell_self hp] at hi
        cases hi
      · rw [Heap.cell_setCell_of_ne heq] at hi
        exact hI.alive o i hi
  | assignCopy dst src =>
    exact assign_cases hI hA.1 hA.2 fun h' q hf _ hdst hsrc =>
      copy_construct hf hI.alive hdst hsrc
  | assignMove dst src =>
    exact assign_cases hI hA.1 hA.2 fun h' q hf hne hdst hsrc =>
      move_construct hf hI.alive hne hdst hsrc
  | destroy r =>
    left
    obtain ⟨p, hp⟩ := Live.exists_ptr hA
    rcases destruct_cases hI.counts hI.alive hp with ⟨-, h', hok, hf⟩ | ⟨hw, -⟩
    · refine ⟨h', hok, ⟨hf.counts, fun o i hi => ?_⟩, trivial⟩
      cases hf.dead_only hI.alive o i hi
    · obtain ⟨o, i, heq, -⟩ := hw
      cases heq

/-! ## Runs -/

/-- A run on live pointers keeps the heap in order, and reads nothing that was destroyed, exactly if
in no assignment of it that does something the source or the target is stored in an object that only
the target keeps alive. -/
theorem run_in_order_iff {ops : List Op} (hI : Inv h) (hA : Run.Along (step k) Allowed h ops) :
    ((∃ h', Run.run (step k) h ops = .ok h') ∧ Run.Throughout (step k) Inv h ops) ↔
      Run.Along (step k) (Proper k) h ops := by
  constructor
  · rintro ⟨⟨h', hok⟩, -⟩
    induction ops generalizing h with
    | nil => trivial
    | cons op ops ih =>
      obtain ⟨h₁, hop, hrest⟩ := Run.run_cons_ok.mp hok
      rcases step_cases (k := k) hI hA.1 with ⟨h₂, hop', hI', hproper⟩ | ⟨⟨f, herr⟩, -⟩
      · refine ⟨hproper, fun h₃ hop₃ => ?_⟩
        obtain rfl := Except.ok.inj (hop.symm.trans hop')
        obtain rfl := Except.ok.inj (hop.symm.trans hop₃)
        exact ih hI' (hA.2 _ hop) hrest
      · rw [hop] at herr
        cases herr
  · intro hproper
    have hboth := hA.and hproper
    have hstep (h : Heap) (op : Op) (hI : Inv h) (hP : Allowed h op ∧ Proper k h op) :
        ∃ h', step k h op = .ok h' ∧ Inv h' := by
      rcases step_cases (k := k) hI hP.1 with ⟨h', hok, hI', -⟩ | ⟨-, hnot⟩
      · exact ⟨h', hok, hI'⟩
      · exact absurd hP.2 hnot
    obtain ⟨h', hok, -⟩ := Run.run_ok hstep hI hboth
    refine ⟨⟨h', hok⟩, Run.Throughout.of_along (fun h op h'' hI hP hok => ?_) (fun _ hI => hI) hI hboth⟩
    obtain ⟨h₁, hok₁, hI₁⟩ := hstep h op hI hP
    obtain rfl := Except.ok.inj (hok.symm.trans hok₁)
    exact hI₁

/-- A new object, one more pointer to it, and the first pointer assigned from the second. -/
theorem run_in_order_iff_shared : ((∃ h', Run.run (step .shared) {}
      [.make 1, .copy (.root 0), .assignCopy (.root 0) (.root 1)] = .ok h') ∧
    Run.Throughout (step .shared) Inv {}
      [.make 1, .copy (.root 0), .assignCopy (.root 0) (.root 1)]) ↔
    Run.Along (step .shared) (Proper .shared) {}
      [.make 1, .copy (.root 0), .assignCopy (.root 0) (.root 1)] := by
  refine run_in_order_iff inv_empty ⟨trivial, fun h hh => ?_⟩
  obtain rfl := Except.ok.inj hh
  refine ⟨by decide, fun h hh => ?_⟩
  obtain rfl := Except.ok.inj hh
  exact ⟨by decide, fun _ _ => trivial⟩

/-- `p = p->next`: two objects, the second one moved into the pointer of the first. -/
def nextOps : List Op :=
  [.make 1, .make 1, .assignMove (.field 0 0) (.root 1), .assignCopy (.root 0) (.field 0 0)]

/-- The two objects. -/
def chain : Heap where
  roots := [.ptr (some 0), .ptr none]
  objs := [some ⟨1, [.ptr (some 1)]⟩, some ⟨1, [.ptr none]⟩]

theorem step_chain (k : Kind) : step k
    ⟨[.ptr (some 0), .ptr (some 1)], [some ⟨1, [.ptr none]⟩, some ⟨1, [.ptr none]⟩], []⟩
    (.assignMove (.field 0 0) (.root 1)) = .ok chain := by
  have hdestruct : destruct
      ⟨[.ptr (some 0), .ptr (some 1)], [some ⟨1, [.ptr none]⟩, some ⟨1, [.ptr none]⟩], []⟩
      (.field 0 0) = .ok
      ⟨[.ptr (some 0), .ptr (some 1)], [some ⟨1, [.dead]⟩, some ⟨1, [.ptr none]⟩], []⟩ := by
    change destroyAll _ [.ptr none] = _
    rw [destroyAll, destroyAll]
    rfl
  rw [step, hdestruct]
  cases k <;> rfl

/-- The first object and with it the pointer to the second are destroyed before the pointer is
read. -/
theorem step_chain_next (k : Kind) :
    step k chain (.assignCopy (.root 0) (.field 0 0)) = .error .destroyed := by
  have hdestruct : destruct chain (.root 0) = .ok
      ⟨[.dead, .ptr none], [none, none], [0, 1]⟩ := by
    change destroyAll _ [.ptr (some 0)] = _
    rw [destroyAll_dispose rfl rfl]
    change destroyAll _ [.ptr (some 1)] = _
    rw [destroyAll_dispose rfl rfl]
    change destroyAll _ [.ptr none] = _
    rw [destroyAll, destroyAll]
    rfl
  rw [step, hdestruct]
  cases k <;> rfl

theorem run_next : Run.Along (step .lw) Allowed {} nextOps ∧
    Run.run (step .lw) {} nextOps = .error .destroyed ∧
    Run.Along (step .shared) Allowed {} nextOps ∧
    Run.run (step .shared) {} nextOps = .error .destroyed := by
  have halong (k : Kind) : Run.Along (step k) Allowed {} nextOps := by
    refine ⟨trivial, fun h hh => ?_⟩
    obtain rfl := Except.ok.inj hh
    refine ⟨trivial, fun h hh => ?_⟩
    obtain rfl := Except.ok.inj hh
    refine ⟨by decide, fun h hh => ?_⟩
    obtain rfl := Except.ok.inj ((step_chain k).symm.trans hh)
    exact ⟨by decide, fun _ _ => trivial⟩
  have hrun (k : Kind) : Run.run (step k) {} nextOps = .error .destroyed := by
    change Run.run (step k)
      ⟨[.ptr (some 0), .ptr (some 1)], [some ⟨1, [.ptr none]⟩, some ⟨1, [.ptr none]⟩], []⟩
      [.assignMove (.field 0 0) (.root 1), .assignCopy (.root 0) (.field 0 0)] = _
    rw [Run.run_cons, step_chain, ok_bind, Run.run_cons, step_chain_next, error_bind]
  exact ⟨halong .lw, hrun .lw, halong .shared, hrun .shared⟩

end Seastar.SharedPtr
