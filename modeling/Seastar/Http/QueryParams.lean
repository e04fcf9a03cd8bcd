import Seastar.Core.SString
import Seastar.Http.Transformers
import Seastar.Lib.Assoc
import Seastar.Lib.Separated

/-!
The query string of a request: `set_query_param` of `http/httpd.hh` cuts it off the URL, splits it
at `'&'` and at the first `'='` of each piece, and undoes the percent encoding of the pieces.

A client may encode a byte in more than one way. `Encodes` says which texts stand for a list of
bytes, and the theorem is about all of them.
-/

namespace Seastar.Httpd

open Lib
open Http (Bytes text)

/-- `request`: what of it the routing and the handlers read. -/
structure Request where
  method : Bytes := []
  url : SString
  queryParameters : List (Bytes × Bytes) := []
  param : List (Bytes × Bytes) := []
  deriving DecidableEq

/-- `string_view::npos`. -/
def viewNpos : Nat := 2 ^ 64 - 1

/-- `string_view::find`. -/
def viewFind (v : Bytes) (c : UInt8) : Nat := if c ∈ v then v.idxOf c else viewNpos

/-- `string_view::substr`. -/
def viewSubstr (v : Bytes) (pos n : Nat) : Except Fault Bytes :=
  if pos > v.length then .error .outOfRange else .ok ((v.drop pos).take n)

/-- `hex_to_byte`. The `short` is only used modulo 256. -/
def hexToByte (c : UInt8) : UInt8 :=
  if 97 ≤ c ∧ c ≤ 122 then c - 97 + 10
  else if 65 ≤ c ∧ c ≤ 90 then c - 65 + 10
  else c - 48

/-- `hexstr_to_char`, of the two characters. -/
def hexstrToChar (c d : UInt8) : UInt8 := hexToByte c * 16 + hexToByte d

/-- `url_decode`: `none` when a `'%'` has less than two characters behind it. -/
def urlDecode : Bytes → Option Bytes
  | [] => some []
  | c :: rest =>
    if c = 37 then
      match rest with
      | a :: b :: rest => (urlDecode rest).map (hexstrToChar a b :: ·)
      | _ => none
    else if c = 43 then (urlDecode rest).map (32 :: ·)
    else (urlDecode rest).map (c :: ·)

namespace Request

/-- `query_parameters[key] = value`. -/
def setQuery (key value : Bytes) (req : Request) : Request :=
  { req with queryParameters := Assoc.insert key value req.queryParameters }

/-- `add_param`. The length of an empty piece wraps around. -/
def addParam (param : Bytes) (req : Request) : Except Fault Request :=
  let split := viewFind param 61
  if split ≥ (param.length + (2 ^ 64 - 1)) % 2 ^ 64 then do
    let name ← viewSubstr param 0 split
    match urlDecode name with
    | some key => .ok (req.setQuery key [])
    | none => .ok req
  else do
    let name ← viewSubstr param 0 split
    match urlDecode name with
    | none => .ok req
    | some key => do
      let text ← viewSubstr param (split + 1) viewNpos
      match urlDecode text with
      | some value => .ok (req.setQuery key value)
      | none => .ok req

/-- The loop of `set_query_param`, when the URL has `n` ampersands from `curr` on. -/
def addParams (url : SString) : Nat → Nat → Request → Except Fault Request
  | 0, curr, req => do req.addParam (← viewSubstr url.bytes curr viewNpos)
  | n + 1, curr, req => do
    let endParam := url.find 38 curr
    let req ← req.addParam (← viewSubstr url.bytes curr (endParam - curr))
    addParams url n (endParam + 1) req

/-- `set_query_param`: the path, and the request with its parameters. -/
def setQueryParam (req : Request) : Except Fault (SString × Request) :=
  let pos := req.url.find 63 0
  if pos = SString.npos then .ok (req.url, req)
  else do
    let curr := pos + 1
    let req' ← req.addParams req.url ((req.url.bytes.drop curr).count 38) curr
    let path ← req.url.substr 0 pos
    .ok (path, req')

end Request

/-! ## Percent encoding -/

/-- A hexadecimal digit, of either case, and its value. -/
inductive HexDigit (c n : UInt8) : Prop
  | digit (h : 48 ≤ c) (h' : c ≤ 57) (hn : n = c - 48)
  | lower (h : 97 ≤ c) (h' : c ≤ 102) (hn : n = c - 97 + 10)
  | upper (h : 65 ≤ c) (h' : c ≤ 70) (hn : n = c - 65 + 10)

/-- Letters, digits and `-._~`: what a client need not encode. -/
def isUnreserved (c : UInt8) : Bool :=
  (97 ≤ c && c ≤ 122) || (65 ≤ c && c ≤ 90) || (48 ≤ c && c ≤ 57) ||
    c == 45 || c == 46 || c == 95 || c == 126

/-- The texts that stand for a byte. -/
inductive EncodesByte : UInt8 → Bytes → Prop
  | literal {c : UInt8} (h : isUnreserved c = true) : EncodesByte c [c]
  | space : EncodesByte 32 [43]
  | percent {c a b : UInt8} (ha : HexDigit a (c / 16)) (hb : HexDigit b (c % 16)) :
      EncodesByte c [37, a, b]

/-- The texts that stand for a list of bytes. -/
inductive Encodes : Bytes → Bytes → Prop
  | nil : Encodes [] []
  | cons {c : UInt8} {cs t ts : Bytes} (h : EncodesByte c t) (hs : Encodes cs ts) :
      Encodes (c :: cs) (t ++ ts)

/-- The texts that stand for a parameter. -/
inductive EncodesParam : Bytes × Bytes → Bytes → Prop
  | mk {key value k v : Bytes} (hk : Encodes key k) (hv : Encodes value v) :
      EncodesParam (key, value) (k ++ 61 :: v)

theorem HexDigit.hexToByte {c n : UInt8} (h : HexDigit c n) : hexToByte c = n := by
  unfold Httpd.hexToByte
  cases h with
  | digit h h' hn =>
    rw [if_neg, if_neg, hn]
    · rintro ⟨h₁, -⟩
      exact absurd (UInt8.le_trans h₁ h') (by decide)
    · rintro ⟨h₁, -⟩
      exact absurd (UInt8.le_trans h₁ h') (by decide)
  | lower h h' hn =>
    rw [if_pos ⟨h, UInt8.le_trans h' (by decide)⟩, hn]
  | upper h h' hn =>
    rw [if_neg, if_pos ⟨h, UInt8.le_trans h' (by decide)⟩, hn]
    rintro ⟨h₁, -⟩
    exact absurd (UInt8.le_trans h₁ h') (by decide)

/-- Neither separator is a hexadecimal digit. -/
theorem HexDigit.ne {c n : UInt8} (h : HexDigit c n) : c ≠ 38 ∧ c ≠ 61 := by
  constructor
  · rintro rfl
    rcases h with ⟨h, _, _⟩ | ⟨h, _, _⟩ | ⟨h, _, _⟩ <;> exact absurd h (by decide)
  · rintro rfl
    rcases h with ⟨_, h, _⟩ | ⟨h, _, _⟩ | ⟨h, _, _⟩ <;> exact absurd h (by decide)

theorem hexstrToChar_digits {c a b : UInt8} (ha : HexDigit a (c / 16)) (hb : HexDigit b (c % 16)) :
    hexstrToChar a b = c := by
  rw [hexstrToChar, ha.hexToByte, hb.hexToByte]
  apply UInt8.toNat_inj.mp
  rw [UInt8.toNat_add, UInt8.toNat_mul, UInt8.toNat_div, UInt8.toNat_mod]
  have := c.toNat_lt
  simp only [UInt8.reduceToNat]
  omega

theorem urlDecode_plain {c : UInt8} (h : c ≠ 37) (h' : c ≠ 43) (rest : Bytes) :
    urlDecode (c :: rest) = (urlDecode rest).map (c :: ·) := by
  rw [urlDecode.eq_def]
  simp only [if_neg h, if_neg h']

theorem urlDecode_plus (rest : Bytes) :
    urlDecode (43 :: rest) = (urlDecode rest).map (32 :: ·) := by
  rw [urlDecode.eq_def]
  rfl

theorem urlDecode_percent (a b : UInt8) (rest : Bytes) :
    urlDecode (37 :: a :: b :: rest) = (urlDecode rest).map (hexstrToChar a b :: ·) := by
  rw [urlDecode.eq_def]
  rfl

/-- One encoded byte in front of any text. -/
theorem EncodesByte.urlDecode {c : UInt8} {t : Bytes} (h : EncodesByte c t) (rest : Bytes) :
    urlDecode (t ++ rest) = (urlDecode rest).map (c :: ·) := by
  cases h with
  | literal h =>
    refine urlDecode_plain ?_ ?_ rest
    · rintro rfl
      exact absurd h (by decide)
    · rintro rfl
      exact absurd h (by decide)
  | space => exact urlDecode_plus rest
  | percent ha hb =>
    rw [← hexstrToChar_digits ha hb]
    exact urlDecode_percent _ _ rest

theorem EncodesByte.notMem {c : UInt8} {t : Bytes} (h : EncodesByte c t) :
    38 ∉ t ∧ 61 ∉ t := by
  cases h with
  | literal h =>
    constructor
    · intro hm
      obtain rfl := List.mem_singleton.mp hm
      exact absurd h (by decide)
    · intro hm
      obtain rfl := List.mem_singleton.mp hm
      exact absurd h (by decide)
  | space => decide
  | percent ha hb => simp [ha.ne.1.symm, ha.ne.2.symm, hb.ne.1.symm, hb.ne.2.symm]

theorem Encodes.urlDecode {bytes t : Bytes} (h : Encodes bytes t) : urlDecode t = some bytes := by
  induction h with
  | nil => rfl
  | cons h _ ih => rw [h.urlDecode, ih, Option.map_some]

/-- An encoded text has neither separator in it. -/
theorem Encodes.notMem {bytes t : Bytes} (h : Encodes bytes t) : 38 ∉ t ∧ 61 ∉ t := by
  induction h with
  | nil => decide
  | cons h _ ih =>
    simp only [List.mem_append, not_or]
    exact ⟨⟨h.notMem.1, ih.1⟩, h.notMem.2, ih.2⟩

theorem Encodes.eq_nil {bytes : Bytes} (h : Encodes bytes []) : bytes = [] := by
  cases bytes with
  | nil => rfl
  | cons c cs =>
    have hd := h.urlDecode
    cases hd

theorem EncodesParam.notMem {param : Bytes × Bytes} {t : Bytes} (h : EncodesParam param t) :
    38 ∉ t := by
  cases h with
  | mk hk hv =>
    simp only [List.mem_append, List.mem_cons, not_or]
    exact ⟨hk.notMem.1, by decide, hv.notMem.1⟩

namespace Request

/-- The piece of one parameter stores it. -/
theorem addParam_encoded {param : Bytes × Bytes} {t : Bytes} (h : EncodesParam param t)
    (hlen : t.length < 2 ^ 64) (req : Request) :
    req.addParam t = .ok (req.setQuery param.1 param.2) := by
  cases h with
  | @mk key value k v hk hv =>
    have hfind : viewFind (k ++ 61 :: v) 61 = k.length := by
      rw [viewFind, if_pos (by simp), List.idxOf_append_of_notMem hk.notMem.2,
        List.idxOf_cons_self, Nat.add_zero]
    have hwrap : ((k ++ 61 :: v).length + (2 ^ 64 - 1)) % 2 ^ 64 = k.length + v.length := by
      rw [List.length_append, List.length_cons] at hlen ⊢
      omega
    have hname : viewSubstr (k ++ 61 :: v) 0 k.length = .ok k := by
      simp [viewSubstr]
    rw [addParam, hfind, hwrap]
    simp only [hname, ok_bind, hk.urlDecode]
    cases v with
    | nil =>
      obtain rfl := hv.eq_nil
      rw [if_pos (by simp)]
    | cons c v =>
      have htext : viewSubstr (k ++ 61 :: c :: v) (k.length + 1) viewNpos = .ok (c :: v) := by
        rw [viewSubstr, if_neg (by simp), List.append_cons, List.drop_left' (by simp),
          List.take_of_length_le]
        rw [List.length_append, List.length_cons] at hlen
        exact Nat.le_of_lt_succ (Nat.lt_of_le_of_lt (by omega) hlen)
      rw [if_neg (by simp), htext]
      simp only [ok_bind, hv.urlDecode]

theorem notMem_of_encoded {params : List (Bytes × Bytes)} {texts : List Bytes}
    (h : List.Forall₂ EncodesParam params texts) : ∀ t ∈ texts, 38 ∉ t := by
  induction h with
  | nil => simp
  | cons hp _ ih =>
    intro t ht
    rcases List.mem_cons.mp ht with rfl | ht
    · exact hp.notMem
    · exact ih t ht

/-- A request with other query parameters. -/
def SameButQuery (req req' : Request) : Prop :=
  req'.method = req.method ∧ req'.url = req.url ∧ req'.param = req.param

theorem addParam_same {param : Bytes} {req req' : Request} (h : req.addParam param = .ok req') :
    req.SameButQuery req' := by
  have hset : ∀ key value, req.SameButQuery (req.setQuery key value) := fun _ _ => ⟨rfl, rfl, rfl⟩
  unfold addParam at h
  simp only at h
  split at h
  · obtain ⟨name, -, h⟩ := bind_ok.mp h
    split at h
    · obtain rfl := Except.ok.inj h
      exact hset _ _
    · obtain rfl := Except.ok.inj h
      exact ⟨rfl, rfl, rfl⟩
  · obtain ⟨name, -, h⟩ := bind_ok.mp h
    split at h
    · obtain rfl := Except.ok.inj h
      exact ⟨rfl, rfl, rfl⟩
    · obtain ⟨value, -, h⟩ := bind_ok.mp h
      split at h
      · obtain rfl := Except.ok.inj h
        exact hset _ _
      · obtain rfl := Except.ok.inj h
        exact ⟨rfl, rfl, rfl⟩

theorem addParams_same {url : SString} {n curr : Nat} {req req' : Request}
    (h : req.addParams url n curr = .ok req') : req.SameButQuery req' := by
  induction n generalizing curr req with
  | zero =>
    obtain ⟨piece, -, h⟩ := bind_ok.mp h
    exact addParam_same h
  | succ n ih =>
    obtain ⟨piece, -, h⟩ := bind_ok.mp h
    obtain ⟨next, hnext, h⟩ := bind_ok.mp h
    obtain ⟨h₁, h₂, h₃⟩ := addParam_same hnext
    obtain ⟨g₁, g₂, g₃⟩ := ih h
    exact ⟨g₁.trans h₁, g₂.trans h₂, g₃.trans h₃⟩

/-- Cutting the query string off changes nothing else. -/
theorem setQueryParam_same {req req' : Request} {path : SString}
    (h : req.setQueryParam = .ok (path, req')) : req.SameButQuery req' := by
  unfold setQueryParam at h
  simp only at h
  split at h
  · obtain ⟨-, rfl⟩ := Prod.mk.inj (Except.ok.inj h)
    exact ⟨rfl, rfl, rfl⟩
  · obtain ⟨next, hnext, h⟩ := bind_ok.mp h
    obtain ⟨path', -, h⟩ := bind_ok.mp h
    obtain ⟨-, rfl⟩ := Prod.mk.inj (Except.ok.inj h)
    exact addParams_same hnext

/-- What the parameters leave in the request. -/
def storeAll (params : List (Bytes × Bytes)) (req : Request) : Request :=
  { req with queryParameters := Assoc.insertAll params req.queryParameters }

/-- The loop stores the parameters that the URL has from `curr` on. -/
theorem addParams_encoded {url : SString} {params : List (Bytes × Bytes)} {texts : List Bytes}
    (h : List.Forall₂ EncodesParam params texts) (hne : params ≠ []) {before : Bytes}
    (hurl : url.bytes = before ++ Separated.join 38 texts) (req : Request) :
    addParams url (params.length - 1) before.length req = .ok (req.storeAll params) := by
  have hsize := url.size_lt
  induction h generalizing before req with
  | nil => exact absurd rfl hne
  | @cons param t params texts hp hrest ih =>
    cases hrest with
    | nil =>
      rw [Separated.join] at hurl
      have hpiece : viewSubstr url.bytes before.length viewNpos = .ok t := by
        rw [hurl, List.length_append] at hsize
        rw [hurl, viewSubstr, if_neg (by simp), List.drop_left, List.take_of_length_le]
        exact Nat.le_of_lt_succ (Nat.lt_of_le_of_lt (Nat.le_add_left _ _)
          (Nat.lt_trans hsize (by decide)))
      rw [hurl, List.length_append] at hsize
      change (viewSubstr url.bytes before.length viewNpos >>= fun t => req.addParam t) = _
      rw [hpiece, ok_bind, addParam_encoded hp (by omega)]
      rfl
    | @cons next u params texts hnext hrest =>
      have hjoin : url.bytes = before ++ (t ++ 38 :: Separated.join 38 (u :: texts)) := hurl
      have hend : url.find 38 before.length = before.length + t.length := by
        rw [SString.find, hjoin, List.drop_left, SString.findFrom_append hp.notMem]
      have hpiece : viewSubstr url.bytes before.length t.length = .ok t := by
        rw [hjoin, viewSubstr, if_neg (by rw [List.length_append]; omega), List.drop_left,
          List.take_left]
      have hcurr : before.length + t.length + 1 = (before ++ t ++ [38]).length := by
        simp [Nat.add_assoc]
      rw [hjoin, List.length_append, List.length_append] at hsize
      rw [List.length_cons, Nat.add_sub_cancel, List.length_cons, addParams, hend,
        Nat.add_sub_cancel_left, hpiece, ok_bind, addParam_encoded hp (by omega), ok_bind, hcurr]
      refine (ih (by simp) ?_ _).trans rfl
      rw [hjoin]
      simp

/-- For every path and every parameters with different names, in any encoding: the query
string gives back the parameters, and what is left is the path. -/
theorem setQueryParam_encoded (req : Request) (path : Bytes) (params : List (Bytes × Bytes))
    (texts : List Bytes) (hpath : 63 ∉ path) (hne : params ≠ []) (hkeys : Assoc.Keyed params)
    (htexts : List.Forall₂ EncodesParam params texts)
    (hurl : req.url.bytes = path ++ 63 :: Separated.join 38 texts)
    (hreq : req.queryParameters = []) :
    ∃ rest req', req.setQueryParam = .ok (rest, req') ∧ rest.bytes = path ∧
      ∀ key, req'.queryParameters.lookup key = params.lookup key := by
  have hsize := req.url.size_lt
  have hpos : req.url.find 63 0 = path.length := by
    rw [SString.find, List.drop_zero, hurl, SString.findFrom_append hpath, Nat.zero_add]
  have hfound : path.length ≠ SString.npos := by
    rw [hurl, List.length_append, List.length_cons] at hsize
    unfold SString.npos
    omega
  have hcount : (req.url.bytes.drop (path.length + 1)).count 38 = params.length - 1 := by
    rw [hurl, List.append_cons, List.drop_left' (by simp),
      Separated.count_join (notMem_of_encoded htexts), htexts.length_eq]
  have hloop : req.addParams req.url (params.length - 1) (path.length + 1) =
      .ok (req.storeAll params) := by
    have hcurr : path.length + 1 = (path ++ [63]).length := by simp
    rw [hcurr]
    exact addParams_encoded htexts hne (by rw [hurl]; simp) req
  obtain ⟨rest, hrest, hbytes⟩ : ∃ rest, req.url.substr 0 path.length = .ok rest ∧
      rest.bytes = path := by
    obtain ⟨rest, hrest, hbytes⟩ := req.url.substr_ok (Nat.zero_le _) path.length
    exact ⟨rest, hrest, by rw [hbytes, List.drop_zero, hurl, List.take_left]⟩
  refine ⟨rest, req.storeAll params, ?_, hbytes, fun key => ?_⟩
  · rw [setQueryParam, hpos, if_neg hfound]
    simp only
    rw [hcount, hloop, ok_bind, hrest, ok_bind]
  · change (Assoc.insertAll params req.queryParameters).lookup key = _
    rw [hreq, Assoc.Keyed.insertAll (l := []) hkeys, List.nil_append]

/-- `/f?a%3D=%e4+&b=`: an encoded separator, a byte with bit 7, a space and an empty value. -/
theorem setQueryParam_two :
    ∃ rest req',
      ({ url := ⟨text "/f?a%3D=%e4+&b=", by decide⟩ } : Request).setQueryParam = .ok (rest, req') ∧
      rest.bytes = text "/f" ∧
      ∀ key, req'.queryParameters.lookup key =
        [(text "a=", [228, 32]), (text "b", [])].lookup key :=
  setQueryParam_encoded { url := ⟨text "/f?a%3D=%e4+&b=", by decide⟩ } (text "/f")
    [(text "a=", [228, 32]), (text "b", [])] [text "a%3D=%e4+", text "b="] (by decide) (by simp)
    (by unfold Assoc.Keyed; decide)
    (.cons
      (.mk (.cons (.literal (by decide)) (.cons (.percent (.digit (by decide) (by decide) rfl)
        (.upper (by decide) (by decide) rfl)) .nil))
        (.cons (.percent (.lower (by decide) (by decide) rfl) (.digit (by decide) (by decide) rfl))
          (.cons .space .nil)))
      (.cons (.mk (.cons (.literal (by decide)) .nil) .nil) .nil))
    (by decide) rfl

end Request

end Seastar.Httpd
