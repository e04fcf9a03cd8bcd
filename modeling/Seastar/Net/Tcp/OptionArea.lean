import Seastar.Net.Tcp.Header

/-!
What `tcp_option::parse` reads of an option area. Its loop always ends; it stays in the area when
every option that it comes to has its length byte there, and a body of fixed size all of it.
-/

namespace Seastar.Net.Tcp

open Lib

namespace TcpOption

/-- The options of an area, one after the other, without leaving it. -/
inductive Contained : Bytes → Prop
  | nil : Contained []
  | eol (bs : Bytes) : Contained (0 :: bs)
  | nop {bs : Bytes} (rest : Contained bs) : Contained (1 :: bs)
  /-- an option that announces more than remains ends the loop -/
  | tooLong {kind len : Byte} {bs : Bytes} (hkind : kind ≠ 1) (hlen : bs.length + 2 < len.toNat) :
    Contained (kind :: len :: bs)
  | mss (len hi lo : Byte) {bs : Bytes} (rest : Contained bs) :
    Contained (2 :: len :: hi :: lo :: bs)
  | winScale (len shift : Byte) {bs : Bytes} (rest : Contained bs) :
    Contained (3 :: len :: shift :: bs)
  | sack (len : Byte) {bs : Bytes} (rest : Contained bs) : Contained (4 :: len :: bs)
  /-- an option that is not understood, of length 0, ends the loop as well -/
  | zero {kind : Byte} (bs : Bytes) (hkind : Kind.ofByte kind = .other) :
    Contained (kind :: 0 :: bs)
  | other {kind len : Byte} {bs : Bytes} (hkind : Kind.ofByte kind = .other)
      (rest : Contained ((kind :: len :: bs).drop len.toNat)) : Contained (kind :: len :: bs)

variable {mem bs : Bytes} {i fuel : Nat} {o : TcpOption} {kind len : Byte}

/-! ## One turn of the loop -/

theorem readByte_drop (h : mem.drop i = kind :: bs) : readByte mem i = .ok kind := by
  have hget : mem[i]? = some kind := by
    rw [← List.head?_drop, h]
    rfl
  rw [readByte, hget]

theorem readByte_drop_nil (h : mem.drop i = []) : readByte mem i = .error .readPast := by
  have hget : mem[i]? = none := by
    rw [← List.head?_drop, h]
    rfl
  rw [readByte, hget]

theorem drop_succ (h : mem.drop i = kind :: bs) : mem.drop (i + 1) = bs := by
  rw [← List.drop_drop, h]
  rfl

theorem length_drop_cons (h : mem.drop i = bs) (hi : i ≤ mem.length) :
    mem.length = i + bs.length := by
  have hlen := congrArg List.length h
  rw [List.length_drop] at hlen
  omega

theorem lt_of_drop (h : mem.drop i = kind :: bs) : i < mem.length := by
  by_contra hge
  rw [List.drop_eq_nil_of_le (Nat.le_of_not_lt hge)] at h
  cases h

/-- The loop is at the end of the area. -/
theorem parseLoop_nil (h : mem.drop i = []) : parseLoop mem mem.length fuel i o = .ok o := by
  have hge : ¬i < mem.length := Nat.not_lt.mpr (List.drop_eq_nil_iff.mp h)
  cases fuel with
  | zero => rfl
  | succ fuel => rw [parseLoop, if_neg hge]

theorem parseLoop_eol (h : mem.drop i = 0 :: bs) :
    parseLoop mem mem.length (fuel + 1) i o = .ok o := by
  rw [parseLoop, if_pos (lt_of_drop h), readByte_drop h]
  rfl

theorem parseLoop_nop (h : mem.drop i = 1 :: bs) :
    parseLoop mem mem.length (fuel + 1) i o = parseLoop mem mem.length fuel (i + 1) o := by
  rw [parseLoop, if_pos (lt_of_drop h), readByte_drop h]
  rfl

/-- The kind byte is the last one. -/
theorem parseLoop_last (h : mem.drop i = [kind]) (heol : Kind.ofByte kind ≠ .eol)
    (hnop : Kind.ofByte kind ≠ .nop) :
    parseLoop mem mem.length (fuel + 1) i o = .error .readPast := by
  rw [parseLoop, if_pos (lt_of_drop h), readByte_drop h, ok_bind]
  dsimp only
  rw [readByte_drop_nil (drop_succ h)]
  cases hkind : Kind.ofByte kind <;> first | exact absurd hkind heol | exact absurd hkind hnop | rfl

/-- An option with its length byte. -/
theorem parseLoop_option (h : mem.drop i = kind :: len :: bs) (heol : Kind.ofByte kind ≠ .eol)
    (hnop : Kind.ofByte kind ≠ .nop) :
    parseLoop mem mem.length (fuel + 1) i o =
      if bs.length + 2 < len.toNat then .ok o
      else
        match Kind.ofByte kind with
        | .mss => do
          let hi ← readByte mem (i + 2)
          let lo ← readByte mem (i + 3)
          parseLoop mem mem.length fuel (i + 4)
            { o with mssReceived := true, remoteMss := UInt16.ofNat (beNat [hi, lo]) }
        | .winScale => do
          let shift ← readByte mem (i + 2)
          parseLoop mem mem.length fuel (i + 3)
            { o with winScaleReceived := true, remoteWinScale := shift, localWinScale := 7 }
        | .sack => parseLoop mem mem.length fuel (i + 2) { o with sackReceived := true }
        | _ =>
          if len.toNat = 0 then .ok o else parseLoop mem mem.length fuel (i + len.toNat) o := by
  have hlength := length_drop_cons h (Nat.le_of_lt (lt_of_drop h))
  have hroom : (mem.length < i + len.toNat) ↔ bs.length + 2 < len.toNat := by
    rw [hlength, List.length_cons, List.length_cons]
    omega
  rw [parseLoop, if_pos (lt_of_drop h), readByte_drop h, ok_bind]
  dsimp only
  rw [readByte_drop (drop_succ h)]
  cases hkind : Kind.ofByte kind <;>
    first
    | exact absurd hkind heol
    | exact absurd hkind hnop
    | simp only [ok_bind, gt_iff_lt, hroom]

/-! ## The loop -/

theorem ofByte_eol (h : Kind.ofByte kind = .eol) : kind = 0 := by
  unfold Kind.ofByte at h
  split at h
  · assumption
  · repeat' split at h
    all_goals cases h

theorem ofByte_nop (h : Kind.ofByte kind = .nop) : kind = 1 := by
  unfold Kind.ofByte at h
  repeat' split at h
  all_goals first | assumption | cases h

theorem ofByte_mss (h : Kind.ofByte kind = .mss) : kind = 2 := by
  unfold Kind.ofByte at h
  repeat' split at h
  all_goals first | assumption | cases h

theorem ofByte_winScale (h : Kind.ofByte kind = .winScale) : kind = 3 := by
  unfold Kind.ofByte at h
  repeat' split at h
  all_goals first | assumption | cases h

theorem ofByte_sack (h : Kind.ofByte kind = .sack) : kind = 4 := by
  unfold Kind.ofByte at h
  repeat' split at h
  all_goals first | assumption | cases h

/-- No option without a length byte. -/
theorem Contained.length (h : Contained [kind]) :
    Kind.ofByte kind = .eol ∨ Kind.ofByte kind = .nop := by
  generalize hbs : [kind] = bs at h
  cases h with
  | nil => cases hbs
  | eol bs => exact Or.inl ((List.cons.inj hbs).1 ▸ rfl)
  | nop rest => exact Or.inr ((List.cons.inj hbs).1 ▸ rfl)
  | tooLong hkind hlen => cases (List.cons.inj hbs).2
  | mss len hi lo rest => cases (List.cons.inj hbs).2
  | winScale len shift rest => cases (List.cons.inj hbs).2
  | sack len rest => cases (List.cons.inj hbs).2
  | zero bs hkind => cases (List.cons.inj hbs).2
  | other hkind rest => cases (List.cons.inj hbs).2

/-- What follows a NOP. -/
theorem Contained.of_nop (h : Contained (1 :: bs)) : Contained bs := by
  generalize hbs : (1 : Byte) :: bs = cs at h
  cases h with
  | nil => cases hbs
  | eol ds => exact absurd (List.cons.inj hbs).1 (by decide)
  | nop rest => exact (List.cons.inj hbs).2 ▸ rest
  | tooLong hkind hlen => exact absurd (List.cons.inj hbs).1.symm hkind
  | mss len hi lo rest => exact absurd (List.cons.inj hbs).1 (by decide)
  | winScale len shift rest => exact absurd (List.cons.inj hbs).1 (by decide)
  | sack len rest => exact absurd (List.cons.inj hbs).1 (by decide)
  | zero ds hkind =>
    rw [← (List.cons.inj hbs).1] at hkind
    cases hkind
  | other hkind rest =>
    rw [← (List.cons.inj hbs).1] at hkind
    cases hkind

/-- What follows another option. -/
theorem Contained.option (h : Contained (kind :: len :: bs)) (hlen : ¬bs.length + 2 < len.toNat) :
    match Kind.ofByte kind with
    | .eol => True
    | .nop => True
    | .mss => ∃ hi lo rest, bs = hi :: lo :: rest ∧ Contained rest
    | .winScale => ∃ shift rest, bs = shift :: rest ∧ Contained rest
    | .sack => Contained bs
    | .other => len.toNat = 0 ∨ Contained ((kind :: len :: bs).drop len.toNat) := by
  generalize hbs : kind :: len :: bs = cs at h
  cases h with
  | nil => cases hbs
  | eol ds =>
    obtain ⟨rfl, -⟩ := List.cons.inj hbs
    trivial
  | nop rest =>
    obtain ⟨rfl, -⟩ := List.cons.inj hbs
    trivial
  | tooLong hkind hlong =>
    obtain ⟨rfl, htail⟩ := List.cons.inj hbs
    obtain ⟨rfl, rfl⟩ := List.cons.inj htail
    exact absurd hlong hlen
  | mss len hi lo rest =>
    obtain ⟨rfl, htail⟩ := List.cons.inj hbs
    obtain ⟨rfl, rfl⟩ := List.cons.inj htail
    exact ⟨hi, lo, _, rfl, rest⟩
  | winScale len shift rest =>
    obtain ⟨rfl, htail⟩ := List.cons.inj hbs
    obtain ⟨rfl, rfl⟩ := List.cons.inj htail
    exact ⟨shift, _, rfl, rest⟩
  | sack len rest =>
    obtain ⟨rfl, htail⟩ := List.cons.inj hbs
    obtain ⟨rfl, rfl⟩ := List.cons.inj htail
    exact rest
  | zero ds hkind =>
    obtain ⟨rfl, htail⟩ := List.cons.inj hbs
    obtain ⟨rfl, rfl⟩ := List.cons.inj htail
    rw [hkind]
    exact Or.inl rfl
  | other hkind rest =>
    obtain ⟨rfl, htail⟩ := List.cons.inj hbs
    obtain ⟨rfl, rfl⟩ := List.cons.inj htail
    rw [hkind]
    exact Or.inr rest

/-- The loop reads nothing outside of the area exactly when the options from where it is on are
contained in it. -/
theorem parseLoop_ok_iff (hd : mem.drop i = bs) (hfuel : bs.length ≤ fuel) :
    (∃ o', parseLoop mem mem.length fuel i o = .ok o') ↔ Contained bs := by
  induction fuel generalizing i o bs with
  | zero =>
    obtain rfl := List.eq_nil_of_length_eq_zero (Nat.le_zero.mp hfuel)
    exact iff_of_true ⟨o, rfl⟩ .nil
  | succ fuel ih =>
    rcases bs with _ | ⟨kind, bs⟩
    · exact iff_of_true ⟨o, parseLoop_nil hd⟩ .nil
    by_cases heol : Kind.ofByte kind = .eol
    · obtain rfl := ofByte_eol heol
      exact iff_of_true ⟨o, parseLoop_eol hd⟩ (.eol bs)
    by_cases hnop : Kind.ofByte kind = .nop
    · obtain rfl := ofByte_nop hnop
      rw [parseLoop_nop hd, ih (drop_succ hd) (Nat.le_of_succ_le_succ hfuel)]
      exact ⟨.nop, .of_nop⟩
    rcases bs with _ | ⟨len, bs⟩
    · rw [parseLoop_last hd heol hnop]
      refine iff_of_false (fun ⟨o', ho⟩ => nomatch ho) fun h => ?_
      exact h.length.elim heol hnop
    rw [parseLoop_option hd heol hnop]
    by_cases hlen : bs.length + 2 < len.toNat
    · rw [if_pos hlen]
      exact iff_of_true ⟨o, rfl⟩ (.tooLong (fun hone => hnop (hone ▸ rfl)) hlen)
    rw [if_neg hlen]
    have hsucc := drop_succ (drop_succ hd)
    have hroom : bs.length + 1 ≤ fuel := Nat.le_of_succ_le_succ hfuel
    cases hkind : Kind.ofByte kind with
    | eol => exact absurd hkind heol
    | nop => exact absurd hkind hnop
    | mss =>
      obtain rfl := ofByte_mss hkind
      rcases bs with _ | ⟨hi, _ | ⟨lo, bs⟩⟩
      · simp only [readByte_drop_nil hsucc, error_bind]
        refine iff_of_false (fun ⟨o', ho⟩ => nomatch ho) fun h => ?_
        obtain ⟨hi, lo, rest, hnil, -⟩ := h.option hlen
        cases hnil
      · simp only [readByte_drop hsucc, ok_bind, readByte_drop_nil (drop_succ hsucc), error_bind]
        refine iff_of_false (fun ⟨o', ho⟩ => nomatch ho) fun h => ?_
        obtain ⟨hi, lo, rest, hone, -⟩ := h.option hlen
        cases hone
      · simp only [readByte_drop hsucc, ok_bind, readByte_drop (drop_succ hsucc)]
        rw [List.length_cons, List.length_cons] at hroom
        rw [ih (drop_succ (drop_succ hsucc)) (by omega)]
        constructor
        · exact .mss len hi lo
        · intro h
          obtain ⟨hi', lo', rest, heq, hrest⟩ := h.option hlen
          obtain ⟨-, htail⟩ := List.cons.inj heq
          exact (List.cons.inj htail).2 ▸ hrest
    | winScale =>
      obtain rfl := ofByte_winScale hkind
      rcases bs with _ | ⟨shift, bs⟩
      · simp only [readByte_drop_nil hsucc, error_bind]
        refine iff_of_false (fun ⟨o', ho⟩ => nomatch ho) fun h => ?_
        obtain ⟨shift, rest, hnil, -⟩ := h.option hlen
        cases hnil
      · simp only [readByte_drop hsucc, ok_bind]
        rw [List.length_cons] at hroom
        rw [ih (drop_succ hsucc) (by omega)]
        constructor
        · exact .winScale len shift
        · intro h
          obtain ⟨shift', rest, heq, hrest⟩ := h.option hlen
          exact (List.cons.inj heq).2 ▸ hrest
    | sack =>
      obtain rfl := ofByte_sack hkind
      dsimp only
      rw [ih hsucc (Nat.le_of_succ_le hroom)]
      exact ⟨.sack len, fun h => h.option hlen⟩
    | other =>
      dsimp only
      by_cases hzero : len.toNat = 0
      · rw [if_pos hzero]
        obtain rfl : len = 0 := UInt8.toNat_inj.mp hzero
        exact iff_of_true ⟨o, rfl⟩ (.zero bs hkind)
      · rw [if_neg hzero]
        have hnext : mem.drop (i + len.toNat) = (kind :: len :: bs).drop len.toNat := by
          rw [← List.drop_drop, hd]
        have hshort : ((kind :: len :: bs).drop len.toNat).length ≤ fuel := by
          rw [List.length_drop, List.length_cons, List.length_cons]
          omega
        rw [ih hnext hshort]
        constructor
        · exact .other hkind
        · intro h
          have hoption := h.option hlen
          rw [hkind] at hoption
          exact hoption.resolve_left hzero

/-- Every turn moves on, so that more turns than bytes change nothing. -/
theorem parseLoop_fuel {optLen fuel' : Nat} (h : optLen - i ≤ fuel) (h' : optLen - i ≤ fuel') :
    parseLoop mem optLen fuel i o = parseLoop mem optLen fuel' i o := by
  induction fuel generalizing i o fuel' with
  | zero =>
    have hi : ¬i < optLen := by omega
    cases fuel' with
    | zero => rfl
    | succ fuel' => rw [parseLoop, parseLoop, if_neg hi]
  | succ fuel ih =>
    cases fuel' with
    | zero =>
      have hi : ¬i < optLen := by omega
      rw [parseLoop, parseLoop, if_neg hi]
    | succ fuel' =>
      rw [parseLoop, parseLoop]
      by_cases hi : i < optLen
      · have hnext : ∀ n o, 0 < n →
            parseLoop mem optLen fuel (i + n) o = parseLoop mem optLen fuel' (i + n) o :=
          fun n o hn => ih (by omega) (by omega)
        rw [if_pos hi, if_pos hi]
        cases hread : readByte mem i with
        | error e => rfl
        | ok kind =>
          simp only [ok_bind, hnext 1 _ (by decide), hnext 2 _ (by decide), hnext 3 _ (by decide),
            hnext 4 _ (by decide)]
          cases Kind.ofByte kind with
          | other =>
            cases hlen : readByte mem (i + 1) with
            | error e => rfl
            | ok len =>
              simp only [ok_bind]
              by_cases hzero : len.toNat = 0
              · simp only [hzero, if_true]
              · rw [hnext len.toNat o (Nat.pos_of_ne_zero hzero)]
          | _ => rfl
      · rw [if_neg hi, if_neg hi]

/-- For every option area: the loop ends within a turn for each byte, and it reads only bytes of the
area exactly when the options are contained in it. -/
theorem parse_contained_iff (o : TcpOption) (area : Bytes) :
    (∀ turns, area.length ≤ turns →
        parseLoop area area.length turns 0 o = o.parse area area.length) ∧
      ((∃ o', o.parse area area.length = .ok o') ↔ Contained area) :=
  ⟨fun _ h => parseLoop_fuel h (Nat.le_refl _), parseLoop_ok_iff rfl (Nat.le_refl _)⟩

/-- The kind byte of a window scale option is the last byte of the area. -/
theorem parse_leaves_area : ({} : TcpOption).parse [1, 1, 1, 3] 4 = .error .readPast := by decide

end TcpOption

end Seastar.Net.Tcp
