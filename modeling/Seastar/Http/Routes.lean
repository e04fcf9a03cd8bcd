import Seastar.Http.QueryParams

/-!
The routing of `http/routes.cc`: exact routes, and rules that are tried in the order in which they
were added. A rule is a list of matchers; each takes a piece of the URL, from a position on, and
leaves the position behind it.

`Pieces` says how a URL splits into one piece for each matcher, and `Answers` which rule is the
first that the URL splits for. The matchers of the code miss a split in which an empty string
stands behind the end of the URL, or which ends at `npos`; and a rule without matchers takes any
URL of one character.
-/

namespace Seastar.Httpd

open Lib
open Http (Bytes text)

/-- `operation_type`. -/
inductive OperationType
  | get
  | post
  | put
  | delete
  deriving DecidableEq, Repr

/-- `str2type`. -/
def str2type (type : Bytes) : OperationType :=
  if type = text "DELETE" then .delete
  else if type = text "POST" then .post
  else if type = text "PUT" then .put
  else .get

/-- `parameters`. -/
abbrev Params := List (Bytes × Bytes)

/-- `str_matcher` and `param_matcher`. -/
inductive Matcher
  | str (cmp : SString)
  | param (name : Bytes) (entirePath : Bool)
  deriving DecidableEq

/-- `find_end_param`. -/
def findEndParam (url : SString) (ind : Nat) (entirePath : Bool) : Nat :=
  let pos := if entirePath then url.size else url.find 47 (ind + 1)
  if pos = SString.npos then url.size else pos

/-- `match`: the end of the matched part, or `npos`, and the parameters. -/
def Matcher.matchUrl (url : SString) (ind : Nat) (params : Params) :
    Matcher → Except Fault (Nat × Params)
  | .str cmp =>
    if url.size ≥ cmp.size + ind ∧ url.findStr cmp ind = ind ∧
        (url.size = cmp.size + ind ∨ url.bytes[cmp.size + ind]? = some 47) then
      .ok (cmp.size + ind, params)
    else .ok (SString.npos, params)
  | .param name entirePath =>
    let last := findEndParam url ind entirePath
    if last = ind then
      if entirePath then .ok (ind, Assoc.insert name [] params)
      else .ok (SString.npos, params)
    else do
      let value ← url.substr ind (last - ind)
      .ok (last, Assoc.insert name value.bytes params)

/-- `match_rule`. -/
structure MatchRule (H : Type) where
  matchList : List Matcher
  handler : H
  deriving DecidableEq

/-- The loop of `match_rule::get`: `none` when a matcher returns `npos`. -/
def matchAll (url : SString) : List Matcher → Nat → Params → Except Fault (Option Nat × Params)
  | [], ind, params => .ok (some ind, params)
  | m :: ms, ind, params => do
    let (ind, params) ← m.matchUrl url ind params
    if ind = SString.npos then .ok (none, params) else matchAll url ms ind params

/-- `match_rule::get`. -/
def MatchRule.get {H : Type} (rule : MatchRule H) (url : SString) (params : Params) :
    Except Fault (Option H × Params) := do
  match ← matchAll url rule.matchList 0 params with
  | (none, params) => .ok (none, params)
  | (some ind, params) => .ok (if ind + 1 ≥ url.size then some rule.handler else none, params)

/-- `routes`. A rule deletes its handler, so no two rules have the same. -/
structure Routes (H : Type) where
  map : OperationType → List (Bytes × H)
  rules : OperationType → List (MatchRule H)
  owned : ∀ type, ((rules type).map MatchRule.handler).Nodup

namespace Routes

variable {H : Type}

/-- The loop of `get_handler` over the rules. -/
def tryRules (url : SString) : List (MatchRule H) → Params → Except Fault (Option H × Params)
  | [], params => .ok (none, params)
  | rule :: rules, params => do
    match ← rule.get url params with
    | (some handler, params) => .ok (some handler, params)
    | (none, _) => tryRules url rules []

/-- `get_handler`. -/
def getHandler (routes : Routes H) (type : OperationType) (url : SString) (params : Params) :
    Except Fault (Option H × Params) :=
  match (routes.map type).lookup url.bytes with
  | some handler => .ok (some handler, params)
  | none => tryRules url (routes.rules type) params

/-- `normalize_url`. -/
def normalizeUrl (url : SString) : Except Fault SString :=
  if url.size < 2 ∨ url.bytes[url.size - 1]? ≠ some 47 then .ok url
  else url.substr 0 (url.size - 1)

end Routes

/-! ## How a URL splits -/

/-- A piece is followed by a slash or by nothing. -/
def EndsPiece (rest : Bytes) : Prop := rest = [] ∨ rest.head? = some 47

/-- A piece that a matcher is for, with the text behind it. -/
inductive Matcher.Piece : Matcher → Bytes → Bytes → Prop
  | str {cmp : SString} {rest : Bytes} (h : EndsPiece rest) : Piece (.str cmp) cmp.bytes rest
  | param {name : Bytes} {c : UInt8} {cs rest : Bytes} (hcs : 47 ∉ cs) (h : EndsPiece rest) :
      Piece (.param name false) (c :: cs) rest
  | entire {name piece : Bytes} : Piece (.param name true) piece []

/-- What a piece says about the parameters. -/
def Matcher.binding (piece : Bytes) : Matcher → Params
  | .str _ => []
  | .param name _ => [(name, piece)]

/-- A text is split into one piece for each matcher, with these parameters and this rest. -/
inductive Pieces : List Matcher → Bytes → Params → Bytes → Prop
  | nil {text : Bytes} : Pieces [] text [] text
  | cons {m : Matcher} {ms : List Matcher} {p text rest : Bytes} {ps : Params}
      (h : m.Piece p text) (hs : Pieces ms text ps rest) :
      Pieces (m :: ms) (p ++ text) (m.binding p ++ ps) rest

/-- A rule matches when at most a slash is left over. -/
def MatchRule.Matches {H : Type} (rule : MatchRule H) (url : SString) (ps : Params) : Prop :=
  ∃ rest, Pieces rule.matchList url.bytes ps rest ∧ (rest = [] ∨ rest = [47])

/-- The handler of the first rule that matches, with the parameters of its pieces. -/
inductive Answers {H : Type} (url : SString) : List (MatchRule H) → Option H → Params → Prop
  | none : Answers url [] none []
  | here {rule : MatchRule H} {rules : List (MatchRule H)} {ps : Params}
      (h : rule.Matches url ps) : Answers url (rule :: rules) (some rule.handler) ps
  | later {rule : MatchRule H} {rules : List (MatchRule H)} {handler : Option H} {ps : Params}
      (h : ∀ qs, ¬ rule.Matches url qs) (hs : Answers url rules handler ps) :
      Answers url (rule :: rules) handler ps

/-- The exact route if there is one, and the first rule otherwise. -/
def Routes.Routed {H : Type} (routes : Routes H) (type : OperationType) (url : SString)
    (handler : Option H) (ps : Params) : Prop :=
  match (routes.map type).lookup url.bytes with
  | some h => handler = some h ∧ ps = []
  | none => Answers url (routes.rules type) handler ps

/-! ## Where the matchers of the code differ -/

/-- An empty string is looked for behind the end of the URL, or a URL of `npos` characters is
used up. -/
inductive Lost (url : SString) : List Matcher → Bytes → Prop
  | blank {cmp : SString} {ms : List Matcher} (h : cmp.bytes = []) : Lost url (.str cmp :: ms) []
  | npos {m : Matcher} {ms : List Matcher} {p : Bytes} (h : m.Piece p [])
      (hsize : url.size = SString.npos) : Lost url (m :: ms) p
  | later {m : Matcher} {ms : List Matcher} {p text : Bytes} (h : m.Piece p text)
      (hs : Lost url ms text) : Lost url (m :: ms) (p ++ text)

/-- A rule that the code does not read as it is meant: one without matchers takes any character,
and one whose split is lost is passed over. -/
def MatchRule.Misread {H : Type} (rule : MatchRule H) (url : SString) : Prop :=
  (rule.matchList = [] ∧ ∃ c, c ≠ 47 ∧ url.bytes = [c]) ∨
    (∃ ps, rule.Matches url ps) ∧ Lost url rule.matchList url.bytes

/-- No rule up to the first that matches is misread. -/
def ReadsRules {H : Type} (url : SString) : List (MatchRule H) → Prop
  | [] => True
  | rule :: rules => ¬ rule.Misread url ∧ ((∃ ps, rule.Matches url ps) ∨ ReadsRules url rules)

/-! ## One matcher -/

theorem EndsPiece.takeWhile {cs rest : Bytes} (h : EndsPiece rest) (hcs : 47 ∉ cs) :
    (cs ++ rest).takeWhile (· ≠ 47) = cs := by
  rw [List.takeWhile_append_of_pos]
  swap
  · intro c hc
    exact decide_eq_true (p := c ≠ 47) fun e => hcs (e ▸ hc)
  rcases h with rfl | h
  · simp
  · obtain ⟨rest, rfl⟩ := List.head?_eq_some_iff.mp h
    simp

/-- A text has at most one piece for a matcher. -/
theorem Matcher.Piece.unique {m : Matcher} {p q v w : Bytes} (hp : m.Piece p v)
    (hq : m.Piece q w) (h : p ++ v = q ++ w) : p = q ∧ v = w := by
  cases hp with
  | str _ =>
    cases hq with
    | str _ => exact List.append_inj h rfl
  | @param _ c cs _ hcs hv =>
    cases hq with
    | @param _ d ds _ hds hw =>
      obtain ⟨rfl, ht⟩ := List.cons.inj h
      change cs ++ v = ds ++ w at ht
      obtain rfl : cs = ds := by
        rw [← hv.takeWhile hcs, ht, hw.takeWhile hds]
      exact ⟨rfl, List.append_cancel_left ht⟩
  | entire =>
    cases hq with
    | entire => simpa using h

/-- An empty string is looked for where the URL has ended. -/
def Matcher.Blank (text : Bytes) (m : Matcher) : Prop :=
  text = [] ∧ ∃ cmp, m = .str cmp ∧ cmp.bytes = []

/-- What the condition of a string matcher says about the text at the position. -/
theorem str_cond_iff {url cmp : SString} {ind : Nat} (hind : ind ≤ url.size)
    (hn : ind ≠ SString.npos) :
    (url.size ≥ cmp.size + ind ∧ url.findStr cmp ind = ind ∧
        (url.size = cmp.size + ind ∨ url.bytes[cmp.size + ind]? = some 47)) ↔
      url.bytes.drop ind ≠ [] ∧
        ∃ rest, url.bytes.drop ind = cmp.bytes ++ rest ∧ EndsPiece rest := by
  have hlen : (url.bytes.drop ind).length = url.size - ind := List.length_drop
  rw [SString.findStr, SString.findStrFrom_eq_self hn]
  have hrest : ∀ rest, url.bytes.drop ind = cmp.bytes ++ rest →
      ((url.size = cmp.size + ind ∨ url.bytes[cmp.size + ind]? = some 47) ↔ EndsPiece rest) := by
    intro rest hr
    have hget : url.bytes[cmp.size + ind]? = rest.head? := by
      rw [Nat.add_comm, ← List.getElem?_drop, hr, SString.size, List.getElem?_append_right
        (Nat.le_refl _), Nat.sub_self, List.head?_eq_getElem?]
    rw [hr, List.length_append] at hlen
    rw [hget, EndsPiece, ← List.length_eq_zero_iff]
    refine or_congr_left ?_
    change cmp.size + rest.length = url.size - ind at hlen
    omega
  constructor
  · rintro ⟨-, ⟨hne, rest, hr⟩, hend⟩
    exact ⟨hne, rest, hr.symm, (hrest rest hr.symm).mp hend⟩
  · rintro ⟨hne, rest, hr, hend⟩
    refine ⟨?_, ⟨hne, rest, hr.symm⟩, (hrest rest hr).mpr hend⟩
    rw [hr, List.length_append] at hlen
    change cmp.size + rest.length = url.size - ind at hlen
    omega

theorem findEndParam_end {url : SString} {ind : Nat} (h : url.bytes.drop ind = [])
    (entirePath : Bool) : findEndParam url ind entirePath = url.size := by
  have hpos : url.find 47 (ind + 1) = SString.npos := by
    rw [SString.find, ← List.drop_drop, h]
    rfl
  unfold findEndParam
  cases entirePath with
  | true => simp
  | false => simp [hpos]

theorem findEndParam_entire (url : SString) (ind : Nat) : findEndParam url ind true = url.size := by
  simp [findEndParam]

/-- A parameter ends at the next slash behind its first character. -/
theorem findEndParam_slash {url : SString} {ind : Nat} {c : UInt8} {cs rest : Bytes}
    (h : url.bytes.drop ind = c :: cs ++ rest) (hcs : 47 ∉ cs) (hrest : EndsPiece rest) :
    findEndParam url ind false = ind + (c :: cs).length := by
  have hsize := url.size_lt
  have hlen : url.bytes.length - ind = cs.length + 1 + rest.length := by
    rw [← List.length_drop, h, List.length_append, List.length_cons]
  have hpos : url.find 47 (ind + 1) = SString.findFrom 47 (cs ++ rest) (ind + 1) := by
    rw [SString.find, ← List.drop_drop, h]
    rfl
  rw [List.length_cons]
  unfold findEndParam
  rcases hrest with rfl | hrest
  · rw [List.append_nil, SString.findFrom_of_notMem hcs] at hpos
    rw [hpos]
    simp only [Bool.false_eq_true, if_false, if_true]
    rw [List.length_nil] at hlen
    change url.bytes.length = _
    omega
  · obtain ⟨rest, rfl⟩ := List.head?_eq_some_iff.mp hrest
    rw [SString.findFrom_append hcs] at hpos
    rw [List.length_cons] at hlen
    rw [hpos]
    simp only [Bool.false_eq_true, if_false]
    rw [if_neg]
    · omega
    · unfold SString.npos
      omega

/-- The value that a parameter matcher takes. -/
theorem param_value {url : SString} {ind : Nat} {p rest : Bytes} (hind : ind ≤ url.size)
    (h : url.bytes.drop ind = p ++ rest) :
    ∃ value, url.substr ind p.length = .ok value ∧ value.bytes = p := by
  obtain ⟨value, hv, hbytes⟩ := url.substr_ok hind p.length
  exact ⟨value, hv, by rw [hbytes, h, List.take_left]⟩

/-- A matcher takes the piece that is there, and returns `npos` if there is none or if it is an
empty string at the end. -/
theorem Matcher.matchUrl_cases {url : SString} {ind : Nat} (hind : ind ≤ url.size)
    (hn : ind ≠ SString.npos) (params : Params) (m : Matcher) :
    (∃ p rest, url.bytes.drop ind = p ++ rest ∧ m.Piece p rest ∧
      ¬ m.Blank (url.bytes.drop ind) ∧ m.matchUrl url ind params =
        .ok (ind + p.length, Assoc.insertAll (m.binding p) params)) ∨
    ((∀ p rest, url.bytes.drop ind = p ++ rest → m.Piece p rest → m.Blank (url.bytes.drop ind)) ∧
      m.matchUrl url ind params = .ok (SString.npos, params)) := by
  have hsize := url.size_lt
  have hlen : (url.bytes.drop ind).length = url.size - ind := List.length_drop
  cases m with
  | str cmp =>
    rw [matchUrl]
    by_cases hc : url.bytes.drop ind ≠ [] ∧
        ∃ rest, url.bytes.drop ind = cmp.bytes ++ rest ∧ EndsPiece rest
    · rw [if_pos ((str_cond_iff hind hn).mpr hc)]
      obtain ⟨hne, rest, hr, hend⟩ := hc
      refine Or.inl ⟨cmp.bytes, rest, hr, .str hend, fun hb => hne hb.1, ?_⟩
      rw [Nat.add_comm]
      rfl
    · rw [if_neg fun h => hc ((str_cond_iff hind hn).mp h)]
      refine Or.inr ⟨fun p rest hr hp => ?_, rfl⟩
      cases hp with
      | str hend =>
        have hnil : url.bytes.drop ind = [] := by
          by_contra hne
          exact hc ⟨hne, rest, hr, hend⟩
        rw [hnil] at hr ⊢
        exact ⟨rfl, cmp, rfl, (List.append_eq_nil_iff.mp hr.symm).1⟩
  | param name entirePath =>
    -- a piece that ends behind the position is stored
    have htake : ∀ p rest, url.bytes.drop ind = p ++ rest → p ≠ [] →
        findEndParam url ind entirePath = ind + p.length →
        (Matcher.param name entirePath).matchUrl url ind params =
          .ok (ind + p.length, Assoc.insert name p params) := by
      intro p rest hr hne hlast
      have hpos := List.length_pos_of_ne_nil hne
      obtain ⟨value, hv, hbytes⟩ := param_value hind hr
      rw [matchUrl, hlast]
      rw [if_neg (by omega), Nat.add_sub_cancel_left, hv, ok_bind, hbytes]
    have hblank : ¬ (Matcher.param name entirePath).Blank (url.bytes.drop ind) := by
      rintro ⟨-, cmp, hm, -⟩
      cases hm
    cases htext : url.bytes.drop ind with
    | nil =>
      have hlast := findEndParam_end htext entirePath
      have hend : url.size = ind := by
        rw [htext, List.length_nil] at hlen
        omega
      cases entirePath with
      | true =>
        refine Or.inl ⟨[], [], rfl, .entire, htext ▸ hblank, ?_⟩
        rw [matchUrl, hlast, hend, if_pos rfl, if_pos rfl]
        rfl
      | false =>
        refine Or.inr ⟨fun p rest hr hp => ?_, ?_⟩
        · cases hp with
          | param _ _ => cases hr
        · rw [matchUrl, hlast, hend]
          simp
    | cons c text =>
      rw [htext, List.length_cons] at hlen
      cases entirePath with
      | true =>
        refine Or.inl ⟨c :: text, [], by rw [List.append_nil], .entire, htext ▸ hblank, ?_⟩
        refine htake _ [] (by rw [htext, List.append_nil]) (List.cons_ne_nil c text) ?_
        rw [findEndParam_entire, List.length_cons]
        omega
      | false =>
        obtain ⟨cs, rest, rfl, hcs, hend⟩ : ∃ cs rest, text = cs ++ rest ∧ 47 ∉ cs ∧
            EndsPiece rest := by
          by_cases hm : 47 ∈ text
          · obtain ⟨cs, rest, rfl, hcs⟩ := List.eq_append_cons_of_mem hm
            exact ⟨cs, 47 :: rest, rfl, hcs, Or.inr rfl⟩
          · exact ⟨text, [], (List.append_nil text).symm, hm, Or.inl rfl⟩
        refine Or.inl ⟨c :: cs, rest, rfl, .param hcs hend, htext ▸ hblank, ?_⟩
        exact htake _ rest htext (List.cons_ne_nil c cs) (findEndParam_slash htext hcs hend)

/-! ## The matchers of a rule -/

/-- The matchers take the pieces of a split that is not lost, and no others. -/
theorem matchAll_cases {url : SString} {ind : Nat} (hind : ind ≤ url.size)
    (hn : ind ≠ SString.npos) (params : Params) (ms : List Matcher) :
    (∃ ps rest, Pieces ms (url.bytes.drop ind) ps rest ∧ ¬ Lost url ms (url.bytes.drop ind) ∧
      rest.length ≤ url.size ∧ matchAll url ms ind params =
        .ok (some (url.size - rest.length), Assoc.insertAll ps params)) ∨
    ((∀ ps rest, Pieces ms (url.bytes.drop ind) ps rest → Lost url ms (url.bytes.drop ind)) ∧
      ∃ params', matchAll url ms ind params = .ok (none, params')) := by
  induction ms generalizing ind params with
  | nil =>
    refine Or.inl ⟨[], _, .nil, fun h => ?_, ?_, ?_⟩
    · cases h
    · rw [List.length_drop]
      exact Nat.sub_le _ _
    · rw [List.length_drop, matchAll]
      change _ = Except.ok (some (url.size - (url.size - ind)), params)
      rw [Nat.sub_sub_self hind]
  | cons m ms ih =>
    rcases m.matchUrl_cases hind hn params with ⟨p, rest, htext, hp, hblank, hm⟩ | ⟨hno, hm⟩
    swap
    · refine Or.inr ⟨fun ps rest hps => ?_, params, ?_⟩
      · generalize htext : url.bytes.drop ind = text at hps hno
        cases hps with
        | cons h hs =>
          obtain ⟨hnil, cmp, rfl, hcmp⟩ := hno _ _ rfl h
          rw [hnil]
          exact .blank hcmp
      · rw [matchAll, hm, ok_bind]
        exact if_pos rfl
    have hnext : url.bytes.drop (ind + p.length) = rest := by
      rw [← List.drop_drop, htext, List.drop_left]
    have hsum : url.size = ind + p.length + rest.length := by
      have := congrArg List.length htext
      rw [List.length_drop, List.length_append] at this
      change url.size - ind = _ at this
      omega
    by_cases hnpos : ind + p.length = SString.npos
    · -- the whole URL is used up and the position is taken for `npos`
      have hnil : rest = [] := by
        have := url.size_lt
        change url.size < 2 ^ 32 at this
        unfold SString.npos at hnpos
        rw [← List.length_eq_zero_iff]
        omega
      rw [hnil] at hp hsum htext
      refine Or.inr ⟨fun ps rest' _ => ?_, Assoc.insertAll (m.binding p) params, ?_⟩
      · rw [htext, List.append_nil]
        exact .npos hp (by rw [hsum]; exact hnpos)
      · rw [matchAll, hm, ok_bind]
        exact if_pos hnpos
    have hstep : matchAll url (m :: ms) ind params = matchAll url ms (ind + p.length)
        (Assoc.insertAll (m.binding p) params) := by
      rw [matchAll, hm, ok_bind]
      exact if_neg hnpos
    have hrest := ih (by omega) hnpos
      (Assoc.insertAll (m.binding p) params)
    rw [hnext] at hrest
    rw [hstep, htext]
    -- what the matcher takes and loses is the same for every split
    have hlost : Lost url (m :: ms) (p ++ rest) → Lost url ms rest := by
      intro h
      generalize htext' : p ++ rest = text at h
      cases h with
      | blank hcmp => exact absurd ⟨by rw [htext, htext'], _, rfl, hcmp⟩ hblank
      | npos h hsize =>
        obtain ⟨rfl, rfl⟩ := hp.unique h (by rw [htext', List.append_nil])
        rw [List.length_nil, Nat.add_zero, hsize] at hsum
        exact absurd hsum.symm hnpos
      | later h hs =>
        obtain ⟨rfl, rfl⟩ := hp.unique h htext'
        exact hs
    rcases hrest with ⟨ps, rest', hps, hkept, hle, hrun⟩ | ⟨hno, hrun⟩
    · refine Or.inl ⟨m.binding p ++ ps, rest', .cons hp hps, fun h => hkept (hlost h), hle, ?_⟩
      rw [Assoc.insertAll_append, hrun]
    · refine Or.inr ⟨fun ps rest' hps => ?_, hrun⟩
      generalize htext' : p ++ rest = text at hps
      cases hps with
      | cons h hs =>
        obtain ⟨rfl, rfl⟩ := hp.unique h htext'
        exact .later h (hno _ _ hs)

/-! ## Splits -/

theorem Matcher.Piece.ends {m : Matcher} {p rest : Bytes} (h : m.Piece p rest) :
    EndsPiece rest := by
  cases h with
  | str h => exact h
  | param _ h => exact h
  | entire => exact Or.inl rfl

/-- Behind the piece of a matcher there is a slash or nothing. -/
theorem Pieces.ends {m : Matcher} {ms : List Matcher} {text rest : Bytes} {ps : Params}
    (h : Pieces (m :: ms) text ps rest) : EndsPiece rest := by
  induction ms generalizing m text ps with
  | nil =>
    cases h with
    | cons h hs =>
      cases hs
      exact h.ends
  | cons n ms ih =>
    cases h with
    | cons _ hs => exact ih hs

/-- A text splits in at most one way. -/
theorem Pieces.unique {ms : List Matcher} {text rest rest' : Bytes} {ps ps' : Params}
    (h : Pieces ms text ps rest) (h' : Pieces ms text ps' rest') : ps = ps' ∧ rest = rest' := by
  induction h generalizing ps' rest' with
  | nil =>
    cases h'
    exact ⟨rfl, rfl⟩
  | @cons m ms p text rest ps hp _ ih =>
    generalize htext : p ++ text = whole at h'
    cases h' with
    | cons hq hs =>
      obtain ⟨rfl, rfl⟩ := hp.unique hq htext
      obtain ⟨rfl, rfl⟩ := ih hs
      exact ⟨rfl, rfl⟩

/-- The names of the parameters of a rule. -/
def Matcher.names : Matcher → List Bytes
  | .str _ => []
  | .param name _ => [name]

theorem Pieces.keys {ms : List Matcher} {text rest : Bytes} {ps : Params}
    (h : Pieces ms text ps rest) : ps.map Prod.fst = ms.flatMap Matcher.names := by
  induction h with
  | nil => rfl
  | @cons m ms p text rest ps _ _ ih =>
    rw [List.map_append, ih, List.flatMap_cons]
    cases m with
    | str cmp => rfl
    | param name entirePath => rfl

/-! ## A rule -/

namespace MatchRule

variable {H : Type} {rule : MatchRule H} {url : SString}

/-- The parameters of a rule have different names. -/
def Named (rule : MatchRule H) : Prop := (rule.matchList.flatMap Matcher.names).Nodup

/-- A rule that matches leaves exactly its pieces. -/
theorem insertAll_pieces (hnamed : rule.Named) {text rest : Bytes} {ps : Params}
    (h : Pieces rule.matchList text ps rest) : Assoc.insertAll ps [] = ps := by
  refine Assoc.Keyed.insertAll (l := []) ?_
  rw [List.nil_append, Assoc.Keyed, h.keys]
  exact hnamed

/-- What `get` does, when the rule is read as it is meant and when it is not. -/
inductive Got (rule : MatchRule H) (url : SString) : Option H → Params → Prop
  | matched {ps : Params} (h : rule.Matches url ps) (hread : ¬ rule.Misread url) :
      Got rule url (some rule.handler) ps
  | passed {params : Params} (h : ∀ ps, ¬ rule.Matches url ps) (hread : ¬ rule.Misread url) :
      Got rule url none params
  | spurious {params : Params} (h : ∀ ps, ¬ rule.Matches url ps) (hread : rule.Misread url) :
      Got rule url (some rule.handler) params
  | missed {ps params : Params} (h : rule.Matches url ps) (hread : rule.Misread url) :
      Got rule url none params

theorem get_got (hnamed : rule.Named) (url : SString) :
    ∃ handler params, rule.get url [] = .ok (handler, params) ∧ rule.Got url handler params := by
  have hcases := matchAll_cases (Nat.zero_le url.size) (by decide) [] rule.matchList
  rw [List.drop_zero] at hcases
  rcases hcases with ⟨ps, rest, hps, hkept, hle, hrun⟩ | ⟨hlost, params, hrun⟩
  · have hget : rule.get url [] =
        .ok (if url.size - rest.length + 1 ≥ url.size then some rule.handler else none, ps) := by
      rw [get, hrun, insertAll_pieces hnamed hps]
      rfl
    refine ⟨_, _, hget, ?_⟩
    -- a rule without matchers leaves the whole URL
    have hchar : ∀ c, rule.matchList = [] → url.bytes = [c] → rest = [c] := by
      intro c hms hu
      rw [hms] at hps
      cases hps
      exact hu
    by_cases hend : rest = [] ∨ rest = [47]
    · have hlen : rest.length ≤ 1 := by
        rcases hend with rfl | rfl
        · exact Nat.zero_le 1
        · exact Nat.le_refl 1
      rw [if_pos (by omega)]
      refine .matched ⟨rest, hps, hend⟩ ?_
      rintro (⟨hms, c, hc, hu⟩ | ⟨-, h⟩)
      · obtain rfl := hchar c hms hu
        rcases hend with h | h
        · cases h
        · exact hc (List.cons.inj h).1
      · exact hkept h
    · have hno : ∀ qs, ¬ rule.Matches url qs := by
        rintro qs ⟨rest', hqs, hend'⟩
        rw [← (hps.unique hqs).2] at hend'
        exact hend hend'
      split
      · rename_i hge
        refine .spurious hno (Or.inl ?_)
        cases hms : rule.matchList with
        | nil =>
          refine ⟨rfl, ?_⟩
          rw [hms] at hps
          cases hps
          change url.size - url.size + 1 ≥ url.size at hge
          cases hu : url.bytes with
          | nil => exact absurd (Or.inl hu) hend
          | cons c cs =>
            rw [SString.size, hu, List.length_cons] at hge
            obtain rfl : cs = [] := List.length_eq_zero_iff.mp (by omega)
            refine ⟨c, fun hc => hend (Or.inr ?_), rfl⟩
            rw [hu, hc]
        | cons m ms =>
          rw [hms] at hps
          rcases hps.ends with h | h
          · exact absurd (Or.inl h) hend
          · obtain ⟨tail, rfl⟩ := List.head?_eq_some_iff.mp h
            rw [List.length_cons] at hge hle
            obtain rfl : tail = [] := List.length_eq_zero_iff.mp (by omega)
            exact absurd (Or.inr rfl) hend
      · rename_i hge
        refine .passed hno ?_
        rintro (⟨hms, c, hc, hu⟩ | ⟨⟨qs, hq⟩, -⟩)
        · obtain rfl := hchar c hms hu
          rw [List.length_singleton] at hge hle
          omega
        · exact hno qs hq
  · have hget : rule.get url [] = .ok (none, params) := by
      rw [get, hrun]
      rfl
    refine ⟨_, _, hget, ?_⟩
    by_cases hm : ∃ ps, rule.Matches url ps
    · obtain ⟨ps, rest, hps, hend⟩ := hm
      exact .missed ⟨rest, hps, hend⟩ (Or.inr ⟨⟨ps, rest, hps, hend⟩, hlost _ _ hps⟩)
    · refine .passed (fun ps h => hm ⟨ps, h⟩) ?_
      rintro (⟨hms, -⟩ | ⟨h, -⟩)
      · rw [hms] at hlost
        cases hlost _ _ .nil
      · exact hm h

/-- A handler that is returned is the one of the rule. -/
theorem get_handler {params params' : Params} {h : H}
    (hget : rule.get url params = .ok (some h, params')) : h = rule.handler := by
  obtain ⟨⟨ind, q⟩, -, hr⟩ := bind_ok.mp hget
  cases ind with
  | none => cases hr
  | some ind =>
    simp only at hr
    split at hr
    · exact (Option.some.inj (Prod.mk.inj (Except.ok.inj hr)).1).symm
    · cases hr

end MatchRule

/-! ## All rules -/

section Routing

variable {H : Type} {url : SString} {rules : List (MatchRule H)}

theorem Answers.mem {h : H} {ps : Params} (ha : Answers url rules (some h) ps) :
    h ∈ rules.map MatchRule.handler := by
  generalize hh : some h = handler at ha
  induction ha with
  | none => cases hh
  | here _ =>
    obtain rfl := Option.some.inj hh
    exact List.mem_cons_self
  | later _ _ ih => exact List.mem_cons_of_mem _ (ih hh)

namespace Routes

theorem tryRules_mem {params params' : Params} {h : H}
    (ht : tryRules url rules params = .ok (some h, params')) :
    h ∈ rules.map MatchRule.handler := by
  induction rules generalizing params with
  | nil => cases ht
  | cons rule rules ih =>
    obtain ⟨⟨handler, q⟩, hget, hr⟩ := bind_ok.mp ht
    cases handler with
    | none => exact List.mem_cons_of_mem _ (ih hr)
    | some k =>
      obtain ⟨hk, -⟩ := Prod.mk.inj (Except.ok.inj hr)
      obtain rfl := Option.some.inj hk
      obtain rfl := MatchRule.get_handler hget
      exact List.mem_cons_self

theorem tryRules_some {rule : MatchRule H} {params params' : Params} {h : H}
    (hget : rule.get url params = .ok (some h, params')) :
    tryRules url (rule :: rules) params = .ok (some h, params') := by
  rw [tryRules, hget]
  rfl

theorem tryRules_none {rule : MatchRule H} {params params' : Params}
    (hget : rule.get url params = .ok (none, params')) :
    tryRules url (rule :: rules) params = tryRules url rules [] := by
  rw [tryRules, hget]
  rfl

/-- The rules are tried without a parameter left over: the answer is the one of the first that
matches, exactly when no rule up to it is misread. -/
theorem tryRules_iff (hnamed : ∀ rule ∈ rules, rule.Named)
    (howned : (rules.map MatchRule.handler).Nodup) :
    (∃ handler params ps, tryRules url rules [] = .ok (handler, params) ∧
      Answers url rules handler ps ∧ ∀ key, params.lookup key = ps.lookup key) ↔
      ReadsRules url rules := by
  induction rules with
  | nil => exact iff_of_true ⟨none, [], [], rfl, .none, fun _ => rfl⟩ trivial
  | cons rule rules ih =>
    obtain ⟨hnew, howned⟩ := List.nodup_cons.mp howned
    have ih := ih (fun r hr => hnamed r (List.mem_cons_of_mem _ hr)) howned
    obtain ⟨handler, params, hget, hgot⟩ := rule.get_got (hnamed rule List.mem_cons_self) url
    rw [ReadsRules]
    cases hgot with
    | matched h hread =>
      refine iff_of_true ⟨_, _, _, tryRules_some hget, .here h, fun _ => rfl⟩ ⟨hread, Or.inl ⟨_, h⟩⟩
    | passed h hread =>
      rw [tryRules_none hget, and_iff_right hread, or_iff_right fun ⟨ps, hm⟩ => h ps hm, ← ih]
      constructor
      · rintro ⟨handler, params, ps, ht, ha, hkeys⟩
        cases ha with
        | here hm => exact absurd hm (h _)
        | later _ ha => exact ⟨_, _, _, ht, ha, hkeys⟩
      · rintro ⟨handler, params, ps, ht, ha, hkeys⟩
        exact ⟨_, _, _, ht, .later h ha, hkeys⟩
    | spurious h hread =>
      refine iff_of_false ?_ fun hr => hr.1 hread
      rintro ⟨handler, params, ps, ht, ha, -⟩
      rw [tryRules_some hget] at ht
      obtain ⟨rfl, -⟩ := Prod.mk.inj (Except.ok.inj ht)
      cases ha with
      | here hm => exact h _ hm
      | later _ ha => exact hnew ha.mem
    | missed h hread =>
      refine iff_of_false ?_ fun hr => hr.1 hread
      rintro ⟨handler, params, ps, ht, ha, -⟩
      rw [tryRules_none hget] at ht
      cases ha with
      | here hm => exact hnew (tryRules_mem ht)
      | later hno _ => exact hno _ h

/-- A handler comes with the parameters that its own rule leaves. -/
theorem tryRules_get {rule : MatchRule H} {params : Params} (hmem : rule ∈ rules)
    (howned : (rules.map MatchRule.handler).Nodup)
    (ht : tryRules url rules [] = .ok (some rule.handler, params)) :
    rule.get url [] = .ok (some rule.handler, params) := by
  induction rules with
  | nil => cases hmem
  | cons r rules ih =>
    obtain ⟨hnew, howned⟩ := List.nodup_cons.mp howned
    obtain ⟨⟨handler, q⟩, hget, hr⟩ := bind_ok.mp ht
    cases handler with
    | some h =>
      obtain ⟨hh, rfl⟩ := Prod.mk.inj (Except.ok.inj hr)
      obtain rfl := Option.some.inj hh
      rcases List.mem_cons.mp hmem with rfl | hmem
      · exact hget
      · have hsame := MatchRule.get_handler hget
        exact absurd (List.mem_map_of_mem hmem) (hsame ▸ hnew)
    | none =>
      rcases List.mem_cons.mp hmem with rfl | hmem
      · exact absurd (tryRules_mem hr) hnew
      · exact ih hmem howned hr

/-- When the handler of a rule is returned for a URL that the rule matches, the parameters are
the pieces of its split. -/
theorem getHandler_pieces (routes : Routes H) {type : OperationType} {rule : MatchRule H}
    {params ps : Params} (hexact : (routes.map type).lookup url.bytes = none)
    (hmem : rule ∈ routes.rules type) (hnamed : rule.Named) (hm : rule.Matches url ps)
    (hget : routes.getHandler type url [] = .ok (some rule.handler, params)) : params = ps := by
  rw [getHandler, hexact] at hget
  have hrule := tryRules_get hmem (routes.owned type) hget
  obtain ⟨handler, params', hget', hgot⟩ := rule.get_got hnamed url
  obtain ⟨rfl, rfl⟩ := Prod.mk.inj (Except.ok.inj (hget'.symm.trans hrule))
  cases hgot with
  | matched h _ =>
    obtain ⟨rest, hps, -⟩ := h
    obtain ⟨rest', hqs, -⟩ := hm
    exact (hps.unique hqs).1
  | spurious h _ => exact absurd hm (h ps)

/-- For every exact routes, rules and URL: the handler and the parameters are those of the exact
route or of the first rule that matches, exactly when there is an exact route or no rule up to
the first that matches is misread. -/
theorem getHandler_routed_iff (routes : Routes H) (type : OperationType) (url : SString)
    (hnamed : ∀ rule ∈ routes.rules type, rule.Named) :
    (∃ handler params ps, routes.getHandler type url [] = .ok (handler, params) ∧
      routes.Routed type url handler ps ∧ ∀ key, params.lookup key = ps.lookup key) ↔
      ((routes.map type).lookup url.bytes).isSome ∨ ReadsRules url (routes.rules type) := by
  unfold getHandler Routed
  cases (routes.map type).lookup url.bytes with
  | some h =>
    exact iff_of_true ⟨some h, [], [], rfl, ⟨rfl, rfl⟩, fun _ => rfl⟩ (Or.inl rfl)
  | none =>
    rw [tryRules_iff hnamed (routes.owned type)]
    simp

/-- Routes with one rule, `url(path).remainder("path")`, for `GET`. -/
def remainder (path : SString) (handler : H) : Routes H where
  map _ := []
  rules
    | .get => [{ matchList := [.str path, .param (text "path") true], handler }]
    | _ => []
  owned type := by cases type <;> simp

/-- `GET /a/b` and `url("/a").remainder("path")`. -/
theorem getHandler_remainder :
    (∃ handler params ps,
      (remainder ⟨text "/a", by decide⟩ 7).getHandler .get ⟨text "/a/b", by decide⟩ [] =
        .ok (handler, params) ∧
      (remainder ⟨text "/a", by decide⟩ 7).Routed .get ⟨text "/a/b", by decide⟩ handler ps ∧
      ∀ key, params.lookup key = ps.lookup key) ↔
      ReadsRules ⟨text "/a/b", by decide⟩ ((remainder ⟨text "/a", by decide⟩ 7).rules .get) :=
  (getHandler_routed_iff (remainder ⟨text "/a", by decide⟩ 7) .get ⟨text "/a/b", by decide⟩
    (by unfold MatchRule.Named; decide)).trans (or_iff_right (by decide))

/-- `url("").remainder("path")` and the URL that is left of `?x`: an empty string and an empty rest
make up the URL, and the handler is not found. -/
theorem getHandler_emptyUrl :
    ¬ ∃ handler params ps,
      (remainder ⟨[], by decide⟩ 7).getHandler .get ⟨[], by decide⟩ [] = .ok (handler, params) ∧
      (remainder ⟨[], by decide⟩ 7).Routed .get ⟨[], by decide⟩ handler ps ∧
      ∀ key, params.lookup key = ps.lookup key := by
  rintro ⟨handler, params, ps, hget, hrouted, -⟩
  have hnone : (remainder ⟨[], by decide⟩ 7).getHandler .get ⟨[], by decide⟩ [] =
      .ok (none, []) := rfl
  obtain ⟨rfl, -⟩ := Prod.mk.inj (Except.ok.inj (hnone.symm.trans hget))
  cases hrouted with
  | later hno _ =>
    have hstr : (Matcher.str ⟨[], by decide⟩).Piece [] [] := .str (Or.inl rfl)
    exact hno _ ⟨[], .cons hstr (.cons (p := []) .entire .nil), Or.inl rfl⟩

end Routes

end Routing

end Seastar.Httpd
