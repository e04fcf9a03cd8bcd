import Seastar.Http.Routes
import Seastar.Lib.LexicalPath

/-!
`directory_handler` of `http/file_handler.cc`, and how a request gets to it: `generate_reply` cuts
the query string off, `routes::handle` finds the handler, and the handler opens the file whose name
is the root with the value of the parameter `path`, less its first character, behind it.

Nothing is checked on the way. What the client sends follows the last component of the root
without a slash between them, and goes up as often as it says.
-/

namespace Seastar.Httpd

open Lib Lib.LexicalPath
open Http (Bytes text)

/-! ## Paths -/

/-- What a component of a path does. -/
def toMove (component : Bytes) : Move Bytes :=
  if component = [] ∨ component = text "." then .stay
  else if component = text ".." then .up
  else .down component

/-- The components of a path. -/
def components (path : Bytes) : List (Move Bytes) := (Separated.split 47 path).map toMove

/-- Where a path starts. -/
def origin (path : Bytes) : LexicalPath.Place Bytes := { absolute := path.head? = some 47 }

/-- The place that a path names, by its components alone. -/
def resolve (path : Bytes) : LexicalPath.Place Bytes := (origin path).follow (components path)

/-- The name that the system is given: up to the first null. -/
def cStr (name : Bytes) : Bytes := name.takeWhile (· ≠ 0)

/-! ## The handler -/

/-- `directory_entry_type`. -/
inductive DirectoryEntryType
  | blockDevice
  | charDevice
  | directory
  | fifo
  | link
  | regular
  | socket
  deriving DecidableEq, Repr

/-- `directory_handler`. -/
structure DirectoryHandler where
  docRoot : SString
  mandatoryParam : List Bytes := []
  deriving DecidableEq

/-- `"/index.html"`. -/
def indexHtml : SString := { bytes := text "/index.html", size_lt := by decide }

/-- `redirect_if_needed`. -/
def redirectIfNeeded (req : Request) : Bool := req.url.bytes.getLast? ≠ some 47

/-- `req->param[key]`: the value without its first character. -/
def Request.getParam (key : Bytes) (req : Request) : Except Fault Bytes :=
  match req.param.lookup key with
  | none => .error .outOfRange
  | some value => if value.length < 1 then .error .outOfRange else .ok (value.drop 1)

/-- `verify_param`, of all mandatory parameters. -/
def Request.verifyParams (req : Request) (params : List Bytes) : Bool :=
  params.all fun p => (req.queryParameters.lookup p).getD [] ≠ []

/-- `directory_handler::handle`: the name of the file that is opened, in a file system that has
entries of these types. -/
def DirectoryHandler.handle (d : DirectoryHandler) (fileType : Bytes → Option DirectoryEntryType)
    (req : Request) : Except Fault (Option Bytes) := do
  let path ← req.getParam (text "path")
  let fullPath ← SString.make (d.docRoot.bytes ++ path)
  match fileType (cStr fullPath.bytes) with
  | none => .ok none
  | some .directory =>
    if redirectIfNeeded req then .ok none
    else do
      let fullPath ← SString.make (fullPath.bytes ++ text "/index.html")
      .ok (some (cStr fullPath.bytes))
  | some _ => .ok (some (cStr fullPath.bytes))

variable {H : Type}

/-- `routes::handle`, of a request for a file: `kind` says which handlers are directory handlers.
What the handler throws is answered with an error. -/
def Routes.handle (routes : Routes H) (kind : H → Option DirectoryHandler)
    (fileType : Bytes → Option DirectoryEntryType) (path : SString) (req : Request) :
    Except Fault (Option Bytes) := do
  let url ← normalizeUrl path
  let (handler, param) ← routes.getHandler (str2type req.method) url req.param
  match handler.bind kind with
  | none => .ok none
  | some d =>
    if req.verifyParams d.mandatoryParam then
      match d.handle fileType { req with param } with
      | .ok file => .ok file
      | .error _ => .ok none
    else .ok none

/-- `generate_reply`: the name of the file that a request opens. -/
def Routes.generateReply (routes : Routes H) (kind : H → Option DirectoryHandler)
    (fileType : Bytes → Option DirectoryEntryType) (req : Request) :
    Except Fault (Option Bytes) := do
  let (path, req) ← req.setQueryParam
  routes.handle kind fileType path req

/-! ## Below the root -/

/-- The place of a root without its last component. -/
def parent (root : Bytes) : LexicalPath.Place Bytes :=
  (origin root).follow ((Separated.split 47 root).dropLast.map toMove)

/-- The last component of a root. -/
def lastComponent (root : Bytes) : Bytes := (Separated.split 47 root).getLastD []

/-- What follows a root leads to it or below it: with the last component of the root in front, it
comes back to that component as often as it goes up from it. -/
def Stays (root rest : Bytes) : Prop :=
  (root ≠ [] ∨ rest.head? ≠ some 47) ∧
    Returns (parent root) (toMove (lastComponent root)) (components (lastComponent root ++ rest))

instance (root rest : Bytes) : Decidable (Stays root rest) := inferInstanceAs (Decidable (_ ∧ _))

theorem split_last (root : Bytes) :
    Separated.split 47 root = (Separated.split 47 root).dropLast ++ [lastComponent root] := by
  rw [lastComponent, List.getLastD_eq_getLast?, List.getLast?_eq_some_getLast
    (Separated.split_ne_nil root)]
  exact (List.dropLast_append_getLast _).symm

theorem components_append (root rest : Bytes) :
    components (root ++ rest) = (Separated.split 47 root).dropLast.map toMove ++
      components (lastComponent root ++ rest) := by
  cases hr : Separated.split (47 : UInt8) rest with
  | nil => exact absurd hr (Separated.split_ne_nil rest)
  | cons next nexts =>
    have hlast : (47 : UInt8) ∉ lastComponent root :=
      Separated.notMem_of_mem_split (by rw [split_last root]; simp)
    rw [components, components, Separated.split_append (split_last root) hr,
      @Separated.split_append _ _ _ _ _ _ _ [] _ (Separated.split_part hlast) hr, List.map_append]
    rfl

theorem resolve_root (root : Bytes) :
    resolve root = (parent root).move (toMove (lastComponent root)) := by
  rw [resolve, components, split_last root, List.map_append, LexicalPath.Place.follow_append]
  rfl

theorem below_iff_stays (root rest : Bytes) :
    (resolve root).Below (resolve (root ++ rest)) ↔ Stays root rest := by
  by_cases hroot : root = [] ∧ rest.head? = some 47
  · obtain ⟨rfl, hrest⟩ := hroot
    refine iff_of_false (fun h => ?_) fun h => h.1.elim (absurd rfl) (absurd hrest)
    have habs := h.1
    rw [resolve, resolve, LexicalPath.Place.follow_absolute, LexicalPath.Place.follow_absolute,
      origin, origin,
      List.nil_append, hrest] at habs
    simp at habs
  · have horigin : origin (root ++ rest) = origin root := by
      cases root with
      | nil =>
        have hne : rest.head? ≠ some 47 := fun h => hroot ⟨rfl, h⟩
        simp [origin, hne]
      | cons c root => rfl
    rw [resolve_root, resolve, horigin, components_append, LexicalPath.Place.follow_append]
    rw [Stays, and_iff_right (not_and_or.mp hroot)]
    exact below_follow_iff _ _ _

/-- The index file of a directory below the root is below the root. -/
theorem below_index {root path : Bytes} (hne : path ≠ [])
    (h : (resolve root).Below (resolve path)) :
    (resolve root).Below (resolve (path ++ text "/index.html")) := by
  have hlast : (47 : UInt8) ∉ lastComponent path :=
    Separated.notMem_of_mem_split (by rw [split_last path]; simp)
  have horigin : origin (path ++ text "/index.html") = origin path := by
    cases path with
    | nil => exact absurd rfl hne
    | cons c path => rfl
  have hcomps : components (path ++ text "/index.html") =
      components path ++ [.down (text "index.html")] := by
    have hslash : text "/index.html" = 47 :: text "index.html" := by decide
    have hindex : Separated.split 47 (text "index.html") = [text "index.html"] := by decide
    rw [components_append, components, hslash, Separated.split_append_sep hlast, hindex, components]
    conv_rhs => rw [split_last path]
    simp [toMove, text]
  have hresolve : resolve (path ++ text "/index.html") =
      (resolve path).move (.down (text "index.html")) := by
    rw [resolve, horigin, hcomps, LexicalPath.Place.follow_append]
    rfl
  rw [hresolve]
  exact h.down _

theorem cStr_append (a b : Bytes) :
    cStr (a ++ b) = cStr a ++ if 0 ∈ a then [] else cStr b := by
  unfold cStr
  induction a with
  | nil => simp
  | cons c a ih =>
    rw [List.cons_append, List.takeWhile_cons, List.takeWhile_cons]
    by_cases hc : c = 0
    · simp [hc]
    · have hmem : (0 ∈ c :: a) = (0 ∈ a) := by simp [Ne.symm hc]
      rw [if_pos (by simpa using hc), if_pos (by simpa using hc), ih, List.cons_append]
      simp only [hmem]

/-! ## What a request opens -/

/-- A file system: what types its entries have. An empty name is no entry. -/
structure FileSystem where
  fileType : Bytes → Option DirectoryEntryType
  noName : fileType [] = none

/-- The value of `path` stays below the root, if a file is opened for it. -/
def DirectoryHandler.Confines (d : DirectoryHandler) (req : Request) (ps : Params) : Prop :=
  ∀ value, ps.lookup (text "path") = some value → value ≠ [] →
    (d.docRoot.bytes ++ value.drop 1).length < 2 ^ 32 →
    req.verifyParams d.mandatoryParam = true →
    Stays (cStr d.docRoot.bytes) (if 0 ∈ d.docRoot.bytes then [] else cStr (value.drop 1))

/-- A request is routed to a directory handler: what is left without the query string, the
normalised URL, the rule, and the parameters of its pieces. -/
structure Served (routes : Routes H) (kind : H → Option DirectoryHandler) (req : Request)
    (path : SString) (req' : Request) (url : SString) (rule : MatchRule H) (ps : Params)
    (d : DirectoryHandler) : Prop where
  fresh : req.param = []
  query : req.setQueryParam = .ok (path, req')
  normal : Routes.normalizeUrl path = .ok url
  exact : (routes.map (str2type req.method)).lookup url.bytes = none
  mem : rule ∈ routes.rules (str2type req.method)
  named : rule.Named
  hits : rule.Matches url ps
  routed : ∃ params,
    routes.getHandler (str2type req.method) url [] = .ok (some rule.handler, params)
  directory : kind rule.handler = some d

variable {routes : Routes H} {kind : H → Option DirectoryHandler} {req req' : Request}
  {path url : SString} {rule : MatchRule H} {ps : Params} {d : DirectoryHandler}

/-- The handler gets the pieces of the rule. -/
theorem Served.generateReply (h : Served routes kind req path req' url rule ps d)
    (fileType : Bytes → Option DirectoryEntryType) :
    routes.generateReply kind fileType req =
      if req'.verifyParams d.mandatoryParam then
        match d.handle fileType { req' with param := ps } with
        | .ok file => .ok file
        | .error _ => .ok none
      else .ok none := by
  obtain ⟨params, hget⟩ := h.routed
  obtain rfl := routes.getHandler_pieces h.exact h.mem h.named h.hits hget
  obtain ⟨hmethod, -, hparam⟩ := Request.setQueryParam_same h.query
  rw [Routes.generateReply, h.query, ok_bind]
  change routes.handle kind fileType path req' = _
  rw [Routes.handle, h.normal, ok_bind, hmethod, hparam, h.fresh, hget, ok_bind]
  simp only [Option.bind_some, h.directory]

/-- What the handler opens: the root with the value of `path`, or the index file in it. -/
inductive Opens (d : DirectoryHandler) (ps : Params) : Bytes → Prop
  | file {value : Bytes} (hvalue : ps.lookup (text "path") = some value) (hne : value ≠ [])
      (hlen : (d.docRoot.bytes ++ value.drop 1).length < 2 ^ 32) :
      Opens d ps (cStr (d.docRoot.bytes ++ value.drop 1))
  | index {value : Bytes} (hvalue : ps.lookup (text "path") = some value) (hne : value ≠ [])
      (hlen : (d.docRoot.bytes ++ value.drop 1).length < 2 ^ 32)
      (hname : cStr (d.docRoot.bytes ++ value.drop 1) ≠ []) :
      Opens d ps (cStr (d.docRoot.bytes ++ value.drop 1 ++ text "/index.html"))

theorem getParam_ok {key rest : Bytes} :
    ({ req with param := ps } : Request).getParam key = .ok rest ↔
      ∃ value, ps.lookup key = some value ∧ value ≠ [] ∧ rest = value.drop 1 := by
  unfold Request.getParam
  simp only
  cases ps.lookup key with
  | none => simp
  | some value =>
    cases value with
    | nil => simp
    | cons c value => simp [eq_comm]

theorem DirectoryHandler.handle_opens {fs : FileSystem} {file : Bytes}
    (h : d.handle fs.fileType { req with param := ps } = .ok (some file)) : Opens d ps file := by
  obtain ⟨rest, hrest, h⟩ := bind_ok.mp h
  obtain ⟨value, hvalue, hne, rfl⟩ := getParam_ok.mp hrest
  obtain ⟨full, hfull, h⟩ := bind_ok.mp h
  obtain hbytes := SString.make_ok.mp hfull
  have hlen := hbytes ▸ full.size_lt
  rw [hbytes] at h
  split at h
  · cases h
  · rename_i htype
    split at h
    · cases h
    · obtain ⟨index, hindex, h⟩ := bind_ok.mp h
      rw [SString.make_ok.mp hindex] at h
      obtain rfl := Option.some.inj (Except.ok.inj h)
      refine .index hvalue hne hlen fun hname => ?_
      rw [hname, fs.noName] at htype
      cases htype
  · obtain rfl := Option.some.inj (Except.ok.inj h)
    exact .file hvalue hne hlen

/-- Every name that can be opened is opened in some file system. -/
theorem DirectoryHandler.handle_regular {value : Bytes}
    (hvalue : ps.lookup (text "path") = some value) (hne : value ≠ [])
    (hlen : (d.docRoot.bytes ++ value.drop 1).length < 2 ^ 32)
    {fileType : Bytes → Option DirectoryEntryType}
    (htype : fileType (cStr (d.docRoot.bytes ++ value.drop 1)) = some .regular) :
    d.handle fileType { req with param := ps } =
      .ok (some (cStr (d.docRoot.bytes ++ value.drop 1))) := by
  have hrest : ({ req with param := ps } : Request).getParam (text "path") =
      .ok (value.drop 1) := getParam_ok.mpr ⟨value, hvalue, hne, rfl⟩
  have hfull : SString.make (d.docRoot.bytes ++ value.drop 1) =
      .ok { bytes := d.docRoot.bytes ++ value.drop 1, size_lt := hlen } := SString.make_ok.mpr rfl
  rw [handle, hrest, ok_bind, hfull, ok_bind]
  simp only [htype]

/-- For every request that is routed to a directory handler: whatever the file system is, only
files below the root are opened exactly when what the client sends stays there. -/
theorem generateReply_below_iff (h : Served routes kind req path req' url rule ps d) :
    (∀ (fs : FileSystem) (file : Bytes),
      routes.generateReply kind fs.fileType req = .ok (some file) →
        (resolve (cStr d.docRoot.bytes)).Below (resolve file)) ↔ d.Confines req' ps := by
  have hbelow : ∀ rest, (resolve (cStr d.docRoot.bytes)).Below
      (resolve (cStr (d.docRoot.bytes ++ rest))) ↔ Stays (cStr d.docRoot.bytes)
        (if 0 ∈ d.docRoot.bytes then [] else cStr rest) := by
    intro rest
    rw [cStr_append]
    exact below_iff_stays _ _
  constructor
  · intro hall value hvalue hne hlen hparams
    rw [← hbelow]
    by_cases hname : cStr (d.docRoot.bytes ++ value.drop 1) = []
    · have hroot : cStr d.docRoot.bytes = [] := by
        rw [cStr_append] at hname
        exact (List.append_eq_nil_iff.mp hname).1
      rw [hname, hroot]
      exact .refl _
    · let fs : FileSystem :=
        { fileType := fun name => if name = [] then none else some .regular, noName := rfl }
      refine hall fs _ ?_
      rw [h.generateReply, if_pos hparams, d.handle_regular hvalue hne hlen (if_neg hname)]
  · intro hconf fs file hfile
    rw [h.generateReply] at hfile
    split at hfile
    swap
    · cases hfile
    rename_i hparams
    have hopens : Opens d ps file := by
      cases hhandle : d.handle fs.fileType { req' with param := ps } with
      | error f =>
        rw [hhandle] at hfile
        cases hfile
      | ok opened =>
        rw [hhandle] at hfile
        obtain rfl := Except.ok.inj hfile
        exact DirectoryHandler.handle_opens hhandle
    cases hopens with
    | file hvalue hne hlen => exact (hbelow _).mpr (hconf _ hvalue hne hlen hparams)
    | @index value hvalue hne hlen hname =>
      have hfull := (hbelow _).mpr (hconf _ hvalue hne hlen hparams)
      rw [cStr_append]
      split
      · rwa [List.append_nil]
      · exact below_index hname hfull

/-- `/srv/www/` served under `/file`. -/
def wwwRoutes : Routes Nat := .remainder { bytes := text "/file", size_lt := by decide } 7

def wwwHandler : DirectoryHandler :=
  { docRoot := { bytes := text "/srv/www/", size_lt := by decide } }

/-- `GET /file/css/a.css`. -/
def cssRequest : Request := { url := { bytes := text "/file/css/a.css", size_lt := by decide } }

theorem served_css :
    Served wwwRoutes (fun _ => some wwwHandler) cssRequest cssRequest.url cssRequest cssRequest.url
      { matchList := [.str { bytes := text "/file", size_lt := by decide },
          .param (text "path") true]
        handler := 7 }
      [(text "path", text "/css/a.css")] wwwHandler where
  fresh := rfl
  query := rfl
  normal := rfl
  exact := rfl
  mem := List.mem_cons_self
  named := by unfold MatchRule.Named; decide
  hits := ⟨[], .cons (p := text "/file") (.str (Or.inr rfl))
    (.cons (p := text "/css/a.css") .entire .nil), Or.inl rfl⟩
  routed := ⟨_, rfl⟩
  directory := rfl

theorem generateReply_css :
    (∀ (fs : FileSystem) (file : Bytes),
      wwwRoutes.generateReply (fun _ => some wwwHandler) fs.fileType cssRequest = .ok (some file) →
        (resolve (cStr wwwHandler.docRoot.bytes)).Below (resolve file)) ↔
      wwwHandler.Confines cssRequest [(text "path", text "/css/a.css")] :=
  generateReply_below_iff served_css

/-- `GET /file/../secret` opens `/srv/www/../secret`. -/
theorem generateReply_dotdot :
    ¬ ∀ (fs : FileSystem) (file : Bytes),
      wwwRoutes.generateReply (fun _ => some wwwHandler) fs.fileType
        { url := { bytes := text "/file/../secret", size_lt := by decide } } = .ok (some file) →
        (resolve (cStr wwwHandler.docRoot.bytes)).Below (resolve file) := by
  intro h
  let fs : FileSystem :=
    { fileType := fun name => if name = [] then none else some .regular, noName := rfl }
  have hopened := h fs (text "/srv/www/../secret") rfl
  revert hopened
  decide

end Seastar.Httpd
