import Seastar.Core.Fault
import Seastar.Memcached.Item

/-!
The parser of `apps/memcached/ascii.rl`: the automaton that Ragel makes of the grammar, its
actions, and `sstring_builder`, which collects a text that is scattered over several buffers. A text
is a pointer into the current buffer; when the buffer ends, the guard copies what there is of it.

A key goes on up to a space, so in the commands that end with a key the automaton reads
`"\r\n"` as the end of the command and as more of the key at once.
-/

namespace Seastar.Memcached.Parser

open Lib

/-- The bytes of a keyword. -/
def ascii (s : String) : Bytes := s.toList.map fun c => UInt8.ofNat c.toNat

/-- The commands. -/
inductive Verb
  | set
  | add
  | replace
  | cas
  | get
  | gets
  | delete
  | flushAll
  | version
  | stats
  | statsHash
  | incr
  | decr
  deriving DecidableEq, Repr

/-- The keyword of a command. -/
def Verb.word : Verb → Bytes
  | .set => ascii "set"
  | .add => ascii "add"
  | .replace => ascii "replace"
  | .cas => ascii "cas"
  | .get => ascii "get"
  | .gets => ascii "gets"
  | .delete => ascii "delete"
  | .flushAll => ascii "flush_all"
  | .version => ascii "version"
  | .stats => ascii "stats"
  | .statsHash => ascii "stats hash"
  | .incr => ascii "incr"
  | .decr => ascii "decr"

def verbs : List Verb :=
  [.add, .replace, .set, .get, .gets, .delete, .flushAll, .version, .cas, .stats, .incr, .decr,
    .statsHash]

/-- `enum class state`. -/
inductive State
  | error
  | eof
  | cmd (v : Verb)
  deriving DecidableEq, Repr

/-- The registers of `memcache_ascii_parser`. -/
structure Registers where
  state : State := .error
  u32 : UInt32 := 0
  u64 : UInt64 := 0
  key : Bytes := []
  flagsStr : Bytes := []
  expiration : UInt32 := 0
  size : UInt32 := 0
  sizeStr : Bytes := []
  sizeLeft : UInt32 := 0
  version : UInt64 := 0
  blob : Bytes := []
  noreply : Bool := false
  keys : List Bytes := []
  deriving DecidableEq, Repr

/-- How far the `crlf` behind a key has been read, while the key goes on. -/
inductive Crlf
  | none
  | cr
  | done
  deriving DecidableEq, Repr

/-- The states of the automaton: where it is in the grammar. -/
inductive Place
  /-- in a keyword, of which `read` is read -/
  | word (read : Bytes)
  | keyStart (v : Verb)
  /-- in a key with a space behind it -/
  | key (v : Verb)
  /-- in a key that may end the command -/
  | lastKey (v : Verb) (crlf : Crlf)
  | flagsStart (v : Verb)
  | flags (v : Verb)
  | expirationStart (v : Verb)
  | expiration (v : Verb)
  | sizeStart (v : Verb)
  | size (v : Verb)
  | versionStart
  | versionField
  | u64Start (v : Verb)
  | u64 (v : Verb)
  /-- behind the space of `flush_all`: an expiration or `noreply` -/
  | flushArgument
  | flushExpiration
  /-- in `noreply`, of which `n` letters are read -/
  | noreply (v : Verb) (n : Nat)
  | noreplyEnd (v : Verb)
  /-- before the line feed that calls `blob` -/
  | blobCall (v : Verb)
  | blobStart (v : Verb)
  | blob (v : Verb)
  | blobEnd (v : Verb)
  /-- before the last line feed -/
  | crlf (v : Verb)
  | done
  deriving DecidableEq, Repr

/-- The actions of the grammar. -/
inductive Action
  /-- `mark` -/
  | mark
  /-- `_key = item_key(str())` -/
  | takeKey
  /-- `_keys.emplace_back(std::move(_key))` -/
  | pushKey
  /-- `_flags_str = str()` -/
  | takeFlags
  /-- `_size = _u32; _size_str = str()` -/
  | takeSize
  /-- `_expiration = _u32` -/
  | setExpiration
  | zeroExpiration
  /-- `_version = _u64` -/
  | setVersion
  | setNoreply
  | clearNoreply
  | zeroU32
  | digitU32
  | zeroU64
  | digitU64
  /-- `_state = state::cmd_..` -/
  | accept (v : Verb)
  deriving DecidableEq, Repr

/-- The commands that store a blob. -/
def Verb.stores : Verb → Bool
  | .set => true
  | .add => true
  | .replace => true
  | .cas => true
  | _ => false

/-- The commands that end with a key, or with a key and `noreply`. -/
def Verb.endsWithKey : Verb → Bool
  | .get => true
  | .gets => true
  | .delete => true
  | _ => false

/-- The leaving actions of a last key. -/
def Verb.leaveKey : Verb → List Action
  | .delete => [.takeKey, .clearNoreply]
  | _ => [.takeKey, .pushKey]

/-- Behind a keyword. -/
def afterWord (v : Verb) (c : UInt8) : Option (List Action × Place) :=
  match v with
  | .flushAll =>
    if c = 32 then some ([.zeroExpiration, .clearNoreply], .flushArgument)
    else if c = 13 then some ([.zeroExpiration, .clearNoreply], .crlf v)
    else none
  | .version | .stats | .statsHash => if c = 13 then some ([], .crlf v) else none
  | _ => if c = 32 then some ([], .keyStart v) else none

/-- Behind the last field of a command: a space and `noreply`, or the line end. -/
def afterFields (actions : List Action) (v : Verb) (c : UInt8) : Option (List Action × Place) :=
  if c = 32 then some (actions ++ [.clearNoreply], .noreply v 0)
  else if c = 13 then
    some (actions ++ [.clearNoreply], if v.stores then .blobCall v else .crlf v)
  else none

/-- The transitions of the automaton outside of a blob, with their actions. -/
def transition : Place → UInt8 → Option (List Action × Place)
  | .word w, c =>
    if verbs.any fun v => (w ++ [c]).isPrefixOf v.word then some ([], .word (w ++ [c]))
    else (verbs.find? (·.word = w)).bind fun v => afterWord v c
  | .keyStart v, c =>
    if c = 32 then none
    else some ([.mark], if v.endsWithKey then .lastKey v .none else .key v)
  | .key v, c =>
    if c = 32 then some ([.takeKey], if v.stores then .flagsStart v else .u64Start v)
    else some ([], .key v)
  | .lastKey v crlf, c =>
    if c = 32 then some (v.leaveKey, if v = .delete then .noreply v 0 else .keyStart v)
    else if c = 13 then some (v.leaveKey, .lastKey v .cr)
    else if c = 10 && crlf = .cr then some ([.accept v], .lastKey v .done)
    else some ([], .lastKey v .none)
  | .flagsStart v, c => if isDigit c then some ([.mark], .flags v) else none
  | .flags v, c =>
    if isDigit c then some ([], .flags v)
    else if c = 32 then some ([.takeFlags], .expirationStart v)
    else none
  | .expirationStart v, c =>
    if isDigit c then some ([.zeroU32, .digitU32], .expiration v) else none
  | .expiration v, c =>
    if isDigit c then some ([.digitU32], .expiration v)
    else if c = 32 then some ([.setExpiration], .sizeStart v)
    else none
  | .sizeStart v, c => if isDigit c then some ([.mark, .zeroU32, .digitU32], .size v) else none
  | .size v, c =>
    if isDigit c then some ([.digitU32], .size v)
    else if v = .cas then if c = 32 then some ([.takeSize], .versionStart) else none
    else afterFields [.takeSize] v c
  | .versionStart, c => if isDigit c then some ([.zeroU64, .digitU64], .versionField) else none
  | .versionField, c =>
    if isDigit c then some ([.digitU64], .versionField) else afterFields [.setVersion] .cas c
  | .u64Start v, c => if isDigit c then some ([.zeroU64, .digitU64], .u64 v) else none
  | .u64 v, c => if isDigit c then some ([.digitU64], .u64 v) else afterFields [] v c
  | .flushArgument, c =>
    if isDigit c then some ([.zeroU32, .digitU32], .flushExpiration)
    else if c = 110 then some ([], .noreply .flushAll 1)
    else none
  | .flushExpiration, c =>
    if isDigit c then some ([.digitU32], .flushExpiration)
    else afterFields [.setExpiration] .flushAll c
  | .noreply v n, c =>
    if (ascii "noreply")[n]? = some c then
      if n = 6 then some ([.setNoreply], .noreplyEnd v) else some ([], .noreply v (n + 1))
    else none
  | .noreplyEnd v, c =>
    if c = 13 then some ([], if v.stores then .blobCall v else .crlf v) else none
  | .blobCall v, c => if c = 10 then some ([], .blobStart v) else none
  | .blobEnd v, c => if c = 13 then some ([], .crlf v) else none
  | .crlf v, c => if c = 10 then some ([.accept v], .done) else none
  | .blobStart _, _ => none
  | .blob _, _ => none
  | .done, _ => none

/-- The actions that use `str()`. -/
def Action.takes : Action → Bool
  | .takeKey => true
  | .takeFlags => true
  | .takeSize => true
  | _ => false

/-- What an action does to the registers, the character being `c` and the text of `str()` being
`text`. -/
def Action.apply (c : UInt8) (text : Bytes) (regs : Registers) : Action → Registers
  | .mark => regs
  | .takeKey => { regs with key := text }
  | .pushKey => { regs with keys := regs.keys ++ [regs.key], key := [] }
  | .takeFlags => { regs with flagsStr := text }
  | .takeSize => { regs with size := regs.u32, sizeStr := text }
  | .setExpiration => { regs with expiration := regs.u32 }
  | .zeroExpiration => { regs with expiration := 0 }
  | .setVersion => { regs with version := regs.u64 }
  | .setNoreply => { regs with noreply := true }
  | .clearNoreply => { regs with noreply := false }
  | .zeroU32 => { regs with u32 := 0 }
  | .digitU32 => { regs with u32 := regs.u32 * 10 + (c - 48).toUInt32 }
  | .zeroU64 => { regs with u64 := 0 }
  | .digitU64 => { regs with u64 := regs.u64 * 10 + (c - 48).toUInt64 }
  | .accept v => { regs with state := .cmd v }

/-! ## The parser on buffers -/

/-- `sstring_builder`; `_start` is a position in the current buffer. -/
structure Builder where
  value : Bytes := []
  start : Option Nat := none
  deriving DecidableEq, Repr

namespace Builder

/-- `guard(..)`, at the start of a buffer. -/
def enter (b : Builder) : Builder := if b.value ≠ [] then { b with start := some 0 } else b

/-- `mark_end`. A null `_start` makes a string that is too long. -/
def markEnd (buf : Bytes) (p : Nat) (b : Builder) : Except Fault Builder :=
  match b.start with
  | none => .error .sstringOverflow
  | some s => .ok { value := b.value ++ (buf.drop s).take (p - s), start := none }

/-- `~guard()`, at the end of a buffer. -/
def leave (buf : Bytes) (b : Builder) : Except Fault Builder :=
  if b.start.isSome then b.markEnd buf buf.length else .ok b

end Builder

/-- The parser: the state of the automaton, the registers and the builder. -/
structure Machine where
  place : Place := .word []
  regs : Registers := {}
  builder : Builder := {}
  deriving DecidableEq, Repr

namespace Machine

/-- `str()`. -/
def str (buf : Bytes) (p : Nat) (m : Machine) : Except Fault (Bytes × Machine) := do
  let b ← m.builder.markEnd buf p
  .ok (b.value, { m with builder := {} })

/-- One action at the character `c` of position `p`. -/
def perform (buf : Bytes) (p : Nat) (c : UInt8) (m : Machine) (a : Action) :
    Except Fault Machine :=
  if a = .mark then .ok { m with builder := { m.builder with start := some p } }
  else if a.takes then do
    let (text, m) ← m.str buf p
    .ok { m with regs := a.apply c text m.regs }
  else .ok { m with regs := a.apply c [] m.regs }

/-- `advance_blob`, with the position it leaves. -/
def advanceBlob (buf : Bytes) (p : Nat) (v : Verb) (m : Machine) :
    Except Fault (Machine × Nat) := do
  let len := min (UInt32.ofNat (buf.length - p)) m.regs.sizeLeft
  let m := { m with regs := { m.regs with sizeLeft := m.regs.sizeLeft - len } }
  let p := p + len.toNat
  if m.regs.sizeLeft = 0 then do
    let (text, m) ← m.str buf p
    .ok ({ m with regs := { m.regs with blob := text }, place := .blobEnd v }, p)
  else .ok ({ m with place := .blob v }, p)

/-- How the execution of the automaton on a buffer ends. -/
inductive Exit
  /-- at the end of the buffer -/
  | ended
  /-- at a character that has no transition -/
  | stuck
  deriving DecidableEq, Repr

/-- The execution of the automaton from position `p` on; `none` when it takes more than the
steps it is given. -/
def exec (buf : Bytes) : Nat → Machine → Nat → Except Fault (Option (Machine × Nat × Exit))
  | 0, _, _ => .ok none
  | fuel + 1, m, p =>
    match buf[p]? with
    | none => .ok (some (m, p, .ended))
    | some c =>
      match m.place with
      | .blobStart v => do
        let m := { m with
          builder := { m.builder with start := some p }
          regs := { m.regs with sizeLeft := m.regs.size } }
        let (m, p) ← m.advanceBlob buf p v
        exec buf fuel m p
      | .blob v => do
        let (m, p) ← m.advanceBlob buf p v
        exec buf fuel m p
      | place =>
        match transition place c with
        | none => .ok (some (m, p, .stuck))
        | some (actions, next) => do
          let m ← actions.foldlM (perform buf p c) m
          exec buf fuel { m with place := next } (p + 1)

end Machine

/-- What feeding the parser comes to. -/
inductive Outcome
  /-- the buffers end before the command does -/
  | more (regs : Registers)
  /-- a command, with the number of bytes consumed -/
  | accepted (regs : Registers) (consumed : Nat)
  | error (regs : Registers)
  | thrown (fault : Fault)
  /-- the automaton does not stop -/
  | diverges
  deriving DecidableEq, Repr

/-- Where a buffer leaves the parser. -/
inductive Progress (α : Type)
  | going (a : α)
  | stopped (o : Outcome)
  deriving DecidableEq, Repr

namespace Machine

/-- The action of the end of the input, which is an empty buffer. -/
def atEof (buf : Bytes) (m : Machine) : Machine :=
  if buf = [] ∧ m.place = .word [] then { m with regs := { m.regs with state := .eof } } else m

/-- `parse`, `n` bytes having been consumed before: every character takes at most two steps. -/
def parse (m : Machine) (n : Nat) (buf : Bytes) : Progress Machine :=
  match exec buf (2 * buf.length + 2) { m with builder := m.builder.enter } 0 with
  | .error f => .stopped (.thrown f)
  | .ok none => .stopped .diverges
  | .ok (some (m, p, _)) =>
    match m.builder.leave buf with
    | .error f => .stopped (.thrown f)
    | .ok builder =>
      let m := { m.atEof buf with builder }
      if m.regs.state ≠ .error then .stopped (.accepted m.regs (n + p))
      else if p ≠ buf.length then .stopped (.error m.regs)
      else .going m

/-- Feed the buffers, one by one. -/
def feed : Machine → Nat → List Bytes → Outcome
  | m, _, [] => .more m.regs
  | m, n, buf :: bufs =>
    match m.parse n buf with
    | .going m => feed m (n + buf.length) bufs
    | .stopped o => o

end Machine

/-- `init()`, the registers being as the commands before left them. -/
def init (regs : Registers) : Machine := { regs := { regs with state := .error, keys := [] } }

/-- The outcome of `init()` and the buffers. -/
def feed (regs : Registers) (bufs : List Bytes) : Outcome := (init regs).feed 0 bufs

example : feed {} [ascii "set a 1 0 2", ascii "\r\nx", ascii "y\r", ascii "\nget"] =
    .accepted { state := .cmd .set, u32 := 2, key := ascii "a", flagsStr := ascii "1", size := 2,
                sizeStr := ascii "2", blob := ascii "xy" } 17 := by decide +kernel

end Seastar.Memcached.Parser
