import Seastar.Lib.Separated
import Seastar.Rpc.FeatureNegotiation

/-!
How a compressor is negotiated: `multi_algo_compressor_factory` of
`rpc/multi_algo_compressor_factory.hh`, and what the two ends of a connection do with the
features in `rpc/rpc.cc`. The client asks with the list of its algorithms, the server takes one
and answers with the list of its own, and the client takes one from that.
-/

namespace Seastar.Rpc

open Lib

/-- `compressor::factory`. A compressor is known by the name of its algorithm. -/
structure Factory where
  supported : Bytes
  negotiate : Bytes → Bool → Option Bytes

/-- A factory of a single algorithm, as `lz4_compressor::factory` is one. -/
def algorithmFactory (name : Bytes) : Factory where
  supported := name
  negotiate feature _ := if feature = name then some name else none

/-- The separator of `_features`. -/
def comma : UInt8 := 44

/-- `multi_algo_compressor_factory`. -/
def multiAlgoCompressorFactory (factories : List Factory) : Factory where
  supported := Separated.join comma (factories.map Factory.supported)
  negotiate feature isServer :=
    let names := Separated.split comma feature
    if isServer then
      names.findSome? fun n => factories.findSome? fun f => f.negotiate n isServer
    else factories.findSome? fun f => names.findSome? fun n => f.negotiate n isServer

/-! ## The features of a connection -/

/-- `protocol_features::COMPRESS` and the others. -/
def compressFeature : UInt32 := 0
def timeoutFeature : UInt32 := 1
def connectionIdFeature : UInt32 := 2
def streamParentFeature : UInt32 := 3

/-- `client_options`, as far as it is negotiated. -/
structure ClientOptions where
  compressorFactory : Option Factory := none
  sendTimeoutData : Bool := true
  streamParent : UInt64 := 0

/-- `server_options`, as far as it is negotiated. -/
structure ServerOptions where
  compressorFactory : Option Factory := none
  streamingDomain : Option UInt64 := none

/-- What a connection keeps of the negotiation. -/
structure Negotiated where
  compressor : Option Bytes := none
  timeoutNegotiated : Bool := false
  isStream : Bool := false
  parentId : UInt64 := 0
  id : UInt64 := 0
  deriving DecidableEq

/-- The features the constructor of `client` asks for. -/
def clientFeatures (options : ClientOptions) : FeatureMap :=
  let features := match options.compressorFactory with
    | some f => FeatureMap.empty.emplace compressFeature f.supported
    | none => .empty
  let features := if options.sendTimeoutData then features.emplace timeoutFeature [] else features
  if options.streamParent ≠ 0 then
    features.emplace streamParentFeature (le64 options.streamParent)
  else features

/-- One feature in `server::connection::negotiate`. `register` gives the exception when a stream
cannot be registered with its parent; the last part is the exception that the request fails with. -/
def serverFeature (options : ServerOptions) (register : UInt64 → Option String)
    (s : Negotiated × FeatureMap × Option String) (e : UInt32 × Bytes) :
    Except Fault (Negotiated × FeatureMap × Option String) :=
  let (c, ret, failed) := s
  if e.1 = compressFeature then
    match options.compressorFactory with
    | some f =>
      .ok ({ c with compressor := f.negotiate e.2 true }, ret.emplace compressFeature f.supported,
        failed)
    | none => .ok s
  else if e.1 = timeoutFeature then
    .ok ({ c with timeoutNegotiated := true }, ret.emplace timeoutFeature [], failed)
  else if e.1 = streamParentFeature then
    match options.streamingDomain with
    | none => .ok (c, ret, some "streaming is not configured for the server")
    | some _ => do
      let parentId ← readLe64 e.2 0
      .ok ({ c with parentId, isStream := true }, ret, register parentId)
  else .ok s

/-- The loop of `server::connection::negotiate`. -/
def serverFeatures (options : ServerOptions) (register : UInt64 → Option String) :
    Negotiated × FeatureMap × Option String → List (UInt32 × Bytes) →
      Except Fault (Negotiated × FeatureMap × Option String)
  | s, [] => .ok s
  | s, e :: es => do
    let s ← serverFeature options register s e
    serverFeatures options register s es

/-- `server::connection::negotiate`: the connection, and the features it answers with unless it
fails. -/
def serverNegotiate (options : ServerOptions) (register : UInt64 → Option String) (c : Negotiated)
    (requested : FeatureMap) : Except Fault (Negotiated × Except String FeatureMap) := do
  let (c, ret, failed) ← serverFeatures options register (c, .empty, none) requested.entries
  let ret := match options.streamingDomain with
    | some _ => ret.emplace connectionIdFeature (le64 c.id)
    | none => ret
  match failed with
  | some err => .ok (c, .error err)
  | none => .ok (c, .ok ret)

/-- One feature in `client::negotiate`. -/
def clientFeature (options : ClientOptions) (c : Negotiated) (e : UInt32 × Bytes) :
    Except Fault Negotiated :=
  if e.1 = compressFeature then
    match options.compressorFactory with
    | some f => .ok { c with compressor := f.negotiate e.2 false }
    | none => .ok c
  else if e.1 = timeoutFeature then .ok { c with timeoutNegotiated := true }
  else if e.1 = connectionIdFeature then do
    let id ← readLe64 e.2 0
    .ok { c with id }
  else .ok c

/-- `client::negotiate`. -/
def clientNegotiate (options : ClientOptions) : Negotiated → List (UInt32 × Bytes) →
    Except Fault Negotiated
  | c, [] => .ok c
  | c, e :: es => do
    let c ← clientFeature options c e
    clientNegotiate options c es

/-- The handshake: what the client asks for is negotiated by the server, and its answer by the
client. Without an answer the client has nothing to negotiate. -/
def handshake (co : ClientOptions) (so : ServerOptions) (register : UInt64 → Option String)
    (id : UInt64) : Except Fault (Except String Negotiated × Negotiated) := do
  let (server, answer) ← serverNegotiate so register { id } (clientFeatures co)
  match answer with
  | .error err => .ok (.error err, server)
  | .ok provided => do
    let client ← clientNegotiate co {} provided.entries
    .ok (.ok client, server)

/-! ## What the two ends take -/

theorem negotiate_first (names : List Bytes) (n : Bytes) (isServer : Bool) :
    (names.findSome? fun m => (algorithmFactory m).negotiate n isServer) =
      if n ∈ names then some n else none := by
  induction names with
  | nil => simp
  | cons m names ih =>
    by_cases h : n = m
    · simp [algorithmFactory, h]
    · simp [algorithmFactory, h, ← ih]

/-- Of the names it reads the server takes the first that it has a factory for. -/
theorem server_takes (ss names : List Bytes) :
    (names.findSome? fun n => (ss.map algorithmFactory).findSome? fun f => f.negotiate n true) =
      names.find? (· ∈ ss) := by
  induction names with
  | nil => simp
  | cons n names ih =>
    rw [List.findSome?_cons, List.findSome?_map, List.find?_cons]
    have hn := negotiate_first ss n true
    by_cases h : n ∈ ss
    · rw [if_pos h] at hn
      simp [Function.comp_def, hn, h]
    · rw [if_neg h] at hn
      simp only [Function.comp_def, hn, h, decide_false]
      exact ih

/-- Of its factories the client takes the first whose name it reads. -/
theorem client_takes (cs names : List Bytes) :
    ((cs.map algorithmFactory).findSome? fun f => names.findSome? fun n => f.negotiate n false) =
      cs.find? (· ∈ names) := by
  have hone : ∀ (c : Bytes) (names : List Bytes),
      (names.findSome? fun n => (algorithmFactory c).negotiate n false) =
        if c ∈ names then some c else none := by
    intro c names
    induction names with
    | nil => simp
    | cons n names ih =>
      by_cases h : n = c
      · simp [algorithmFactory, h]
      · simp [algorithmFactory, h, Ne.symm h, ← ih]
  induction cs with
  | nil => simp
  | cons c cs ih =>
    rw [List.map_cons, List.findSome?_cons, hone, List.find?_cons]
    by_cases h : c ∈ names
    · simp [h]
    · simp only [h, if_false, decide_false]
      exact ih

/-- The names that are read from a list of names: an empty list reads as one empty name. -/
theorem split_supported {names : List Bytes} (h : ∀ n ∈ names, comma ∉ n) (hne : names ≠ []) :
    Separated.split comma (multiAlgoCompressorFactory (names.map algorithmFactory)).supported =
      names := by
  have hmap : (names.map algorithmFactory).map Factory.supported = names := by
    simp [algorithmFactory, Function.comp_def]
  rw [multiAlgoCompressorFactory, hmap]
  exact Separated.split_join h hne

variable {cs ss : List Bytes}

/-- The server's choice from the list of the client. -/
theorem server_choice (hc : ∀ n ∈ cs, comma ∉ n) (hempty : cs = [] → [] ∉ ss) :
    (multiAlgoCompressorFactory (ss.map algorithmFactory)).negotiate
      (multiAlgoCompressorFactory (cs.map algorithmFactory)).supported true =
        cs.find? (· ∈ ss) := by
  show (List.findSome? _ (Separated.split comma _)) = _
  rw [server_takes]
  by_cases h : cs = []
  · subst h
    have hnil : Separated.split comma
        (multiAlgoCompressorFactory (([] : List Bytes).map algorithmFactory)).supported = [[]] :=
      rfl
    rw [hnil]
    simp [hempty rfl]
  · rw [split_supported hc h]

/-- The client's choice from the list of the server. -/
theorem client_choice (hs : ∀ n ∈ ss, comma ∉ n) (hempty : ss = [] → [] ∉ cs) :
    (multiAlgoCompressorFactory (cs.map algorithmFactory)).negotiate
      (multiAlgoCompressorFactory (ss.map algorithmFactory)).supported false =
        cs.find? (· ∈ ss) := by
  show (List.findSome? _ (cs.map algorithmFactory)) = _
  rw [client_takes]
  by_cases h : ss = []
  · subst h
    have hnil : Separated.split comma
        (multiAlgoCompressorFactory (([] : List Bytes).map algorithmFactory)).supported = [[]] :=
      rfl
    rw [hnil]
    have hnone : ∀ c ∈ cs, c ≠ [] := fun c hc hnil => hempty rfl (hnil ▸ hc)
    rw [List.find?_eq_none.mpr (by simpa using hnone), List.find?_eq_none.mpr (by simp)]
  · rw [split_supported hs h]

/-! ## The handshake -/

theorem readLe64_le64 (v : UInt64) : readLe64 (le64 v) 0 = .ok v := by
  have h := readLe64_append [] v []
  rwa [List.append_nil] at h

variable {co : ClientOptions} {so : ServerOptions} {cf sf : Factory}

/-- Both ends negotiate from what the other end supports. -/
theorem handshake_eq (hc : co.compressorFactory = some cf) (hs : so.compressorFactory = some sf)
    (register : UInt64 → Option String) (id : UInt64) :
    ∃ answer server, handshake co so register id = .ok (answer, server) ∧
      server.compressor = sf.negotiate cf.supported true ∧
      ∀ client, answer = .ok client → client.compressor = cf.negotiate sf.supported false := by
  obtain ⟨compressorFactory, sendTimeoutData, streamParent⟩ := co
  obtain ⟨compressorFactory', streamingDomain⟩ := so
  obtain rfl : compressorFactory = some cf := hc
  obtain rfl : compressorFactory' = some sf := hs
  by_cases hparent : streamParent = 0
  · subst hparent
    cases sendTimeoutData <;> cases streamingDomain <;>
      simp [handshake, serverNegotiate, clientFeatures, serverFeatures, serverFeature,
        clientNegotiate, clientFeature, FeatureMap.emplace, FeatureMap.empty,
        FeatureMap.insertNew, compressFeature, timeoutFeature, connectionIdFeature,
        readLe64_le64]
  · cases sendTimeoutData <;> cases streamingDomain <;>
      cases hreg : register streamParent <;>
      simp [handshake, serverNegotiate, clientFeatures, serverFeatures, serverFeature,
        clientNegotiate, clientFeature, FeatureMap.emplace, FeatureMap.empty,
        FeatureMap.insertNew, compressFeature, timeoutFeature, connectionIdFeature,
        streamParentFeature, readLe64_le64, hparent, hreg]

/-- Whatever algorithms the two ends have, none of them with the separator in its name, they take
the same compressor: the first of the client's that the server has too. -/
theorem handshake_agrees (cs ss : List Bytes) (hc : ∀ n ∈ cs, comma ∉ n)
    (hs : ∀ n ∈ ss, comma ∉ n)
    (hcs : cs = [] → [] ∉ ss) (hss : ss = [] → [] ∉ cs)
    (hco : co.compressorFactory = some (multiAlgoCompressorFactory (cs.map algorithmFactory)))
    (hso : so.compressorFactory = some (multiAlgoCompressorFactory (ss.map algorithmFactory)))
    (register : UInt64 → Option String) (id : UInt64) :
    ∃ answer server, handshake co so register id = .ok (answer, server) ∧
      server.compressor = cs.find? (· ∈ ss) ∧
      ∀ client, answer = .ok client → client.compressor = cs.find? (· ∈ ss) := by
  obtain ⟨answer, server, hrun, hserver, hclient⟩ := handshake_eq hco hso register id
  refine ⟨answer, server, hrun, hserver.trans (server_choice hc hcs), fun client h => ?_⟩
  exact (hclient client h).trans (client_choice hs hss)

/-- The client prefers the second algorithm of the server, and has one the server does not know. -/
theorem handshake_lz4new : ∃ answer server,
    handshake ⟨some (multiAlgoCompressorFactory ([[90], [76, 90, 52, 78], [76, 90, 52]].map
        algorithmFactory)), true, 0⟩
      ⟨some (multiAlgoCompressorFactory ([[76, 90, 52], [76, 90, 52, 78]].map algorithmFactory)),
        none⟩ (fun _ => none) 7 = .ok (answer, server) ∧ server.compressor = some [76, 90, 52, 78] ∧
      ∀ client, answer = .ok client → client.compressor = some [76, 90, 52, 78] :=
  handshake_agrees [[90], [76, 90, 52, 78], [76, 90, 52]] [[76, 90, 52], [76, 90, 52, 78]]
    (by decide) (by decide) (by decide) (by decide) rfl rfl
    (fun _ => none) 7

/-- A name with the separator in it: the server takes the algorithm "a" from the client's "a,b",
which the client does not have. -/
theorem handshake_comma : ∃ client server,
    handshake ⟨some (multiAlgoCompressorFactory ([[97, 44, 98]].map algorithmFactory)), true, 0⟩
      ⟨some (multiAlgoCompressorFactory ([[97]].map algorithmFactory)), none⟩ (fun _ => none) 7 =
        .ok (.ok client, server) ∧ server.compressor = some [97] ∧ client.compressor = none :=
  ⟨_, _, rfl, rfl, rfl⟩

end Seastar.Rpc
