import Seastar.Lib.JsonText

/-!
`json_base` of `json/json_elements.hh` and `json_elements.cc`: an object that is made a string by
`json_builder`, or written to a stream by `json_stream_builder`. The stream gets the bytes in the
order in which they are written.
-/

namespace Seastar.JsonBase

open Lib Lib.Json

/-- `json_base_element` with what `to_string` returns and what `write` sends, both of which are
JSON texts of its value. -/
structure Element where
  name : List Char
  set : Bool
  value : Json
  toString : List Char
  written : List Char
  toString_ok : parse toString = some value
  written_ok : parse written = some value

/-- `json_builder`. -/
structure Builder where
  result : List Char := ['\x7b']
  first : Bool := true

/-- `json_builder::add` of a name and a formatted value. -/
def Builder.addNamed (b : Builder) (name str : List Char) : Builder where
  result := b.result ++ (if b.first then [] else [',', ' ']) ++
    '"' :: (name ++ ['"', ':', ' '] ++ str)
  first := false

/-- `json_builder::add` of an element. -/
def Builder.add (b : Builder) : Option Element → Builder
  | none => b
  | some element => if element.set = false then b else b.addNamed element.name element.toString

/-- `json_builder::as_json`. -/
def Builder.asJson (b : Builder) : List Char := b.result ++ ['\x7d']

/-- `json_stream_builder` with what the stream `_s` got. -/
structure StreamBuilder where
  first : Bool := true
  isOpen : Bool := false
  stream : List Char := []

/-- `_s.write`. -/
def StreamBuilder.send (b : StreamBuilder) (cs : List Char) : StreamBuilder :=
  { b with stream := b.stream ++ cs }

/-- The part of `json_stream_builder::add` that opens the object. -/
def StreamBuilder.opened (b : StreamBuilder) : StreamBuilder :=
  if b.isOpen then b else { b with isOpen := true }.send ['\x7b']

/-- `json_stream_builder::add` of a name and an element. -/
def StreamBuilder.addNamed (b : StreamBuilder) (name : List Char) (element : Element) :
    StreamBuilder :=
  let b := b.opened
  let b := b.send ((if b.first then '"' :: name else ',' :: '\'' :: name) ++ ['"', ':'])
  { b with first := false }.send element.written

/-- `json_stream_builder::add` of an element. -/
def StreamBuilder.add (b : StreamBuilder) : Option Element → StreamBuilder
  | none => b
  | some element => if element.set = false then b else b.addNamed element.name element

/-- `json_stream_builder::done`. -/
def StreamBuilder.done (b : StreamBuilder) : StreamBuilder := b.send ['\x7d']

/-- `json_base::to_json`, of the registered elements. -/
def toJson (elements : List (Option Element)) : List Char :=
  (elements.foldl Builder.add {}).asJson

/-- What `json_base::write` sends. -/
def write (elements : List (Option Element)) : List Char :=
  (elements.foldl StreamBuilder.add {}).done.stream

/-- The elements that are set. -/
def setElements (elements : List (Option Element)) : List Element :=
  (elements.filterMap id).filter (·.set)

/-- An element as a member of an object. -/
def Element.member (e : Element) : List Char × Json := (e.name, e.value)

/-- The object with the elements that are set. -/
def object (elements : List (Option Element)) : Json := .obj ((setElements elements).map (·.member))

variable {e : Element} {es : List Element} {elements : List (Option Element)}
  {r X t u name : List Char} {n : Nat}

/-! ## The texts -/

/-- The first member as the string has it. -/
def Element.text (e : Element) : List Char := '"' :: (e.name ++ '"' :: ':' :: ' ' :: e.toString)

/-- What comes after the first member of the string. -/
def moreText (es : List Element) : List Char := es.flatMap fun e => ',' :: ' ' :: e.text

theorem moreText_cons (e : Element) (es : List Element) :
    moreText (e :: es) = ',' :: ' ' :: (e.text ++ moreText es) := by
  rw [moreText, List.flatMap_cons, moreText]
  rfl

/-- A member that is not the first as the stream has it. -/
def Element.later (e : Element) : List Char :=
  ',' :: '\'' :: (e.name ++ '"' :: ':' :: e.written)

theorem setElements_unset (h : e.set = false) :
    setElements (some e :: elements) = setElements elements := by
  rw [setElements, List.filterMap_cons]
  exact List.filter_cons_of_neg (by simp [h])

theorem setElements_set (h : e.set = true) :
    setElements (some e :: elements) = e :: setElements elements := by
  rw [setElements, List.filterMap_cons]
  exact List.filter_cons_of_pos h

/-- The builder ignores all but the elements that are set. -/
theorem foldl_add (b : Builder) : elements.foldl Builder.add b =
    (setElements elements).foldl (fun b e => b.addNamed e.name e.toString) b := by
  induction elements generalizing b with
  | nil => rfl
  | cons e? elements ih =>
    cases e? with
    | none => exact ih b
    | some e =>
      rw [List.foldl_cons, Builder.add]
      cases hset : e.set with
      | false =>
        rw [setElements_unset hset, if_pos rfl]
        exact ih b
      | true =>
        rw [setElements_set hset, List.foldl_cons]
        exact ih _

theorem foldl_add_stream (b : StreamBuilder) : elements.foldl StreamBuilder.add b =
    (setElements elements).foldl (fun b e => b.addNamed e.name e) b := by
  induction elements generalizing b with
  | nil => rfl
  | cons e? elements ih =>
    cases e? with
    | none => exact ih b
    | some e =>
      rw [List.foldl_cons, StreamBuilder.add]
      cases hset : e.set with
      | false =>
        rw [setElements_unset hset, if_pos rfl]
        exact ih b
      | true =>
        rw [setElements_set hset, List.foldl_cons]
        exact ih _

/-- Members behind the first are added after a comma. -/
theorem foldl_later (b : Builder) (hfirst : b.first = false) :
    (es.foldl (fun b e => b.addNamed e.name e.toString) b).result =
      b.result ++ moreText es := by
  induction es generalizing b with
  | nil => rw [List.foldl_nil, moreText, List.flatMap_nil, List.append_nil]
  | cons e es ih =>
    rw [List.foldl_cons, ih _ rfl, moreText_cons, Builder.addNamed, hfirst, Element.text]
    simp

theorem foldl_later_stream (b : StreamBuilder) (hfirst : b.first = false)
    (hopen : b.isOpen = true) : (es.foldl (fun b e => b.addNamed e.name e) b).stream =
      b.stream ++ es.flatMap Element.later := by
  induction es generalizing b with
  | nil => rw [List.foldl_nil, List.flatMap_nil, List.append_nil]
  | cons e es ih =>
    have hadd : (b.addNamed e.name e).stream = b.stream ++ e.later := by
      simp [StreamBuilder.addNamed, StreamBuilder.opened, StreamBuilder.send, hfirst, hopen,
        Element.later]
    have hopen' : (b.addNamed e.name e).isOpen = true := by
      simp [StreamBuilder.addNamed, StreamBuilder.opened, StreamBuilder.send, hopen]
    rw [List.foldl_cons, ih _ rfl hopen', hadd, List.flatMap_cons, List.append_assoc]

theorem toJson_nil (h : setElements elements = []) : toJson elements = ['\x7b', '\x7d'] := by
  rw [toJson, foldl_add, h]
  rfl

theorem toJson_cons (h : setElements elements = e :: es) : toJson elements =
    '\x7b' :: (e.text ++ (moreText es ++ ['\x7d'])) := by
  rw [toJson, foldl_add, h, List.foldl_cons, Builder.asJson, foldl_later _ rfl, Builder.addNamed,
    Element.text]
  simp

theorem write_nil (h : setElements elements = []) : write elements = ['\x7d'] := by
  rw [write, foldl_add_stream, h]
  rfl

theorem write_cons (h : setElements elements = e :: es) : write elements =
    '\x7b' :: '"' :: (e.name ++ '"' :: ':' ::
      (e.written ++ (es.flatMap Element.later ++ ['\x7d']))) := by
  rw [write, foldl_add_stream, h, List.foldl_cons, StreamBuilder.done, StreamBuilder.send,
    foldl_later_stream _ rfl rfl]
  simp [StreamBuilder.addNamed, StreamBuilder.opened, StreamBuilder.send]

/-! ## What they denote -/

/-- A member whose name needs no escapes is read, before what follows it. -/
theorem members_plain {v : Json} (hname : Plain name) (ht : skipWs t = [])
    (hu : parse u = some v) (hX : Stops X) (hn : 2 * u.length < n) : ∃ w, skipWs w = [] ∧
      members (n + 1) ('"' :: (name ++ '"' :: ':' :: (t ++ (u ++ X)))) =
        following '\x7d' (members n) (name, v) (w ++ X) := by
  obtain ⟨w, hw, hvalue⟩ := parse_value hu
  obtain ⟨n, rfl⟩ := Nat.exists_eq_succ_of_ne_zero (show n ≠ 0 by omega)
  have hread := hvalue (n + 1) X (by omega) hX
  refine ⟨w, hw, ?_⟩
  rw [members, expect_cons (by decide), Option.bind_some, string_plain hname, Option.bind_some,
    expect_cons (by decide), Option.bind_some, value_ws ht, hread, Option.bind_some]

/-- The first member of the string, before what follows it. -/
theorem members_first (hname : Plain e.name) (hX : Stops X) (hn : 2 * e.text.length ≤ n) :
    ∃ w, skipWs w = [] ∧ members (n + 1) (e.text ++ X) =
      following '\x7d' (members n) e.member (w ++ X) := by
  rw [Element.text] at hn ⊢
  simp only [List.length_append, List.length_cons] at hn
  obtain ⟨w, hw, hread⟩ := members_plain (n := n) (t := [' ']) hname rfl e.toString_ok hX
    (by omega)
  refine ⟨w, hw, ?_⟩
  rw [← Element.member] at hread
  simpa only [List.cons_append, List.append_assoc, List.nil_append] using hread

/-- The members of the string, up to the end. -/
theorem members_text (hnames : ∀ e' ∈ e :: es, Plain e'.name)
    (hn : 2 * (e.text ++ moreText es).length < n) :
    members n (e.text ++ (moreText es ++ '\x7d' :: r)) =
      some ((e :: es).map (·.member), r) := by
  induction es generalizing e n with
  | nil =>
    obtain ⟨n, rfl⟩ := Nat.exists_eq_succ_of_ne_zero (show n ≠ 0 by omega)
    rw [moreText, List.flatMap_nil, List.append_nil] at hn
    rw [moreText, List.flatMap_nil, List.nil_append]
    obtain ⟨w, hw, hread⟩ := members_first (n := n) (X := '\x7d' :: r)
      (hnames e List.mem_cons_self) (stops_cons (by decide) _) (by omega)
    rw [hread, following, expect_other hw (by decide) (by decide)]
    dsimp only
    rw [expect_ws hw (by decide)]
    rfl
  | cons e' es ih =>
    obtain ⟨n, rfl⟩ := Nat.exists_eq_succ_of_ne_zero (show n ≠ 0 by omega)
    have hrest := ih (e := e') (n := n) (fun x hx => hnames x (List.mem_cons_of_mem _ hx))
    rw [moreText_cons, List.cons_append, List.cons_append, List.append_assoc]
    rw [moreText_cons] at hn
    simp only [List.length_append, List.length_cons] at hn hrest
    obtain ⟨w, hw, hread⟩ := members_first (n := n)
      (X := ',' :: ' ' :: (e'.text ++ (moreText es ++ '\x7d' :: r)))
      (hnames e List.mem_cons_self) (stops_cons (by decide) _) (by omega)
    obtain ⟨n, rfl⟩ := Nat.exists_eq_succ_of_ne_zero (show n ≠ 0 by omega)
    rw [hread, following, expect_ws hw (by decide)]
    dsimp only
    rw [← List.singleton_append, members_ws (w := [' ']) rfl, hrest (by omega)]
    rfl

/-- The string is an object with the elements that are set, if no name needs an escape. -/
theorem toJson_denotes (hnames : ∀ e ∈ setElements elements, Plain e.name) :
    parse (toJson elements) = some (object elements) := by
  rw [object]
  cases hes : setElements elements with
  | nil =>
    rw [toJson_nil hes]
    rfl
  | cons e es =>
    rw [hes] at hnames
    rw [toJson_cons hes, parse, List.length_cons]
    have hquote : expect '\x7d' (e.text ++ (moreText es ++ ['\x7d'])) = none := rfl
    rw [show 2 * ((e.text ++ (moreText es ++ ['\x7d'])).length + 1) =
        2 * (e.text ++ (moreText es ++ ['\x7d'])).length + 1 + 1 by omega,
      value_cons (by decide), if_neg (by decide), if_pos rfl, bracketed, hquote]
    dsimp only
    rw [members_text hnames (by simp only [List.length_append, List.length_cons]; omega)]
    rfl

/-- The stream of one element with a name that needs no escapes is an object. -/
theorem write_denotes (hes : setElements elements = [e]) (hname : Plain e.name) :
    parse (write elements) = some (object elements) := by
  rw [object, hes, write_cons hes, parse, List.length_cons, List.flatMap_nil, List.nil_append]
  have hquote : expect '\x7d' ('"' :: (e.name ++ '"' :: ':' :: (e.written ++ ['\x7d']))) = none :=
    rfl
  have hlen : 2 * e.written.length <
      2 * ('"' :: (e.name ++ '"' :: ':' :: (e.written ++ ['\x7d']))).length := by
    simp only [List.length_append, List.length_cons]
    omega
  obtain ⟨w, hw, hread⟩ := members_plain (t := []) (X := ['\x7d']) hname rfl e.written_ok
    (stops_cons (by decide) []) hlen
  rw [List.nil_append] at hread
  rw [Nat.mul_add_one, value_cons (by decide), if_neg (by decide), if_pos rfl, bracketed, hquote]
  dsimp only
  rw [hread, following, expect_other hw (by decide) (by decide)]
  dsimp only
  rw [expect_ws hw (by decide)]
  rfl

/-- A name that is read as what it is needs no escapes, and its value is followed by the rest. -/
theorem members_raw {v v' : Json} {ms : List (List Char × Json)} (hu : parse u = some v)
    (hX : Stops X) (hn : 2 * u.length ≤ n)
    (h : members (n + 1) ('"' :: (name ++ '"' :: ':' :: (u ++ X))) = some ((name, v') :: ms, r)) :
    Plain name ∧ ∃ w, skipWs w = [] ∧
      following '\x7d' (members n) (name, v) (w ++ X) = some ((name, v') :: ms, r) := by
  rw [members, expect_cons (by decide), Option.bind_some, Option.bind_eq_some_iff] at h
  obtain ⟨⟨s, r₁⟩, hstring, h⟩ := h
  obtain ⟨r₂, hcolon, h⟩ := Option.bind_eq_some_iff.mp h
  obtain ⟨⟨x, r₃⟩, hvalue, h⟩ := Option.bind_eq_some_iff.mp h
  obtain rfl : s = name := (Prod.mk.inj (following_some h).1).1
  obtain ⟨hplain, -, rfl⟩ := string_raw hstring (List.prefix_refl _)
  rw [expect_cons (by decide)] at hcolon
  obtain rfl := Option.some.inj hcolon
  obtain ⟨w, hw, hlocal⟩ := parse_value hu
  obtain ⟨rfl, rfl⟩ := Prod.mk.inj (Option.some.inj ((hlocal n X hn hX).symm.trans hvalue))
  exact ⟨hplain, w, hw, h⟩

/-- What the stream has after its first member is not followed by another. -/
theorem members_later (n : Nat) (cs : List Char) : members n ('\'' :: cs) = none := by
  cases n with
  | zero => rw [members]
  | succ n =>
    rw [members]
    rfl

/-- A stream that is an object has one member, since no other can follow the first. -/
theorem single_of_write (h : parse (write elements) = some (object elements)) :
    ∃ e, setElements elements = [e] ∧ Plain e.name := by
  rw [object] at h
  cases hes : setElements elements with
  | nil =>
    rw [write_nil hes] at h
    cases h
  | cons e es =>
    rw [hes, write_cons hes, parse, Option.bind_eq_some_iff, List.length_cons, Nat.mul_add_one] at h
    obtain ⟨⟨v, r⟩, hv, h⟩ := h
    split at h
    · obtain rfl := Option.some.inj h
      rw [value_cons (by decide), if_neg (by decide), if_pos rfl] at hv
      obtain ⟨⟨ms, r₁⟩, hms, hobj⟩ := Option.map_eq_some_iff.mp hv
      obtain ⟨hcons, rfl⟩ := Prod.mk.inj hobj
      obtain rfl := Json.obj.inj hcons
      have hX : Stops (es.flatMap Element.later ++ ['\x7d']) := by
        cases es with
        | nil => exact stops_cons (by decide) []
        | cons e' es => exact stops_cons (by decide) _
      obtain ⟨hplain, w, hw, hrest⟩ := members_raw e.written_ok hX
        (by simp only [List.length_append, List.length_cons]; omega) hms
      obtain ⟨-, hrest⟩ := following_some hrest
      cases es with
      | nil => exact ⟨e, rfl, hplain⟩
      | cons e' es =>
        exfalso
        rw [List.flatMap_cons, Element.later, List.cons_append, List.cons_append,
          expect_ws hw (by decide)] at hrest
        rcases hrest with ⟨r₂, hcomma, hlater⟩ | ⟨hcomma, -⟩
        · obtain rfl := Option.some.inj hcomma
          cases (members_later _ _).symm.trans hlater
        · cases hcomma
    · cases h

/-- Both texts are the object with the elements that are set exactly when one element is set, and
its name needs no escapes. -/
theorem texts_agree_iff (elements : List (Option Element)) :
    parse (toJson elements) = some (object elements) ∧
        parse (write elements) = some (object elements) ↔
      ∃ e, setElements elements = [e] ∧ Plain e.name := by
  constructor
  · rintro ⟨-, hwrite⟩
    exact single_of_write hwrite
  · rintro ⟨e, hes, hname⟩
    refine ⟨toJson_denotes ?_, write_denotes hes hname⟩
    rw [hes]
    exact List.forall_mem_singleton.mpr hname

/-- The stream of an object without elements that are set is not opened. -/
theorem write_empty : ¬ ∀ elements : List (Option Element),
    parse (toJson elements) = some (object elements) ∧
      parse (write elements) = some (object elements) := by
  intro h
  have hwrite : parse (write []) = none := by decide +kernel
  cases hwrite.symm.trans (h []).2

end Seastar.JsonBase
