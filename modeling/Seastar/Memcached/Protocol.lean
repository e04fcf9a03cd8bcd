import Seastar.Memcached.CompareAndSwap

/-!
`class ascii_protocol` of `apps/memcached/memcache.cc`. The ascii prefix of an item is made from
the texts of the command that stored it, and `get` writes it in front of the value; `incr` and `decr`
keep it and write a value of their own.
-/

namespace Seastar.Memcached

open Lib

/-- The bytes of a message. -/
def ascii (s : String) : Bytes := s.toList.map fun c => UInt8.ofNat c.toNat

def msgCrlf : Bytes := ascii "\r\n"
def msgStored : Bytes := ascii "STORED\r\n"
def msgNotStored : Bytes := ascii "NOT_STORED\r\n"
def msgEnd : Bytes := ascii "END\r\n"
def msgValue : Bytes := ascii "VALUE "
def msgDeleted : Bytes := ascii "DELETED\r\n"
def msgNotFound : Bytes := ascii "NOT_FOUND\r\n"
def msgOk : Bytes := ascii "OK\r\n"
def msgExists : Bytes := ascii "EXISTS\r\n"
def msgErrorNonNumericValue : Bytes :=
  ascii "CLIENT_ERROR cannot increment or decrement non-numeric value\r\n"

/-- The text is a number. -/
def IsNumber (text : Bytes) : Prop := text ≠ [] ∧ text.all isDigit = true

instance (text : Bytes) : Decidable (IsNumber text) := inferInstanceAs (Decidable (_ ∧ _))

/-- What the parser leaves for a command that stores: `flags` and `size` are numbers, and the blob
has as many bytes as the `uint32_t` that `size` is read into says. -/
structure StoreRequest where
  key : Bytes
  flagsStr : Bytes
  sizeStr : Bytes
  expiration : UInt32
  blob : Bytes
  key_lt : key.length < 2 ^ 32
  flags : IsNumber flagsStr
  size : IsNumber sizeStr
  length_blob : blob.length = decimalValue sizeStr % 2 ^ 32
  deriving DecidableEq, Repr

/-- `prepare_insertion`. -/
def StoreRequest.prepareInsertion (r : StoreRequest) (c : Cache) : Insertion :=
  { key := r.key
    asciiPrefix := 32 :: r.flagsStr ++ 32 :: r.sizeStr
    data := r.blob
    expiry := Expiration.ofSeconds c.now c.wcToClockTypeDelta r.expiration }

/-- The commands that work on items. -/
inductive Command
  | set (r : StoreRequest)
  | add (r : StoreRequest)
  | replace (r : StoreRequest)
  | cas (r : StoreRequest) (version : UInt64)
  | get (keys : List Bytes)
  | gets (keys : List Bytes)
  | delete (key : Bytes)
  | flushAll (expiration : UInt32)
  | incr (key : Bytes) (u64 : UInt64)
  | decr (key : Bytes) (u64 : UInt64)
  deriving DecidableEq, Repr

namespace Protocol

/-- `append_item<WithVersion>`. -/
def appendItem (withVersion : Bool) (it : Item) : Bytes :=
  msgValue ++ it.key ++ it.asciiPrefix ++
    (if withVersion then 32 :: toSstring it.version else []) ++ msgCrlf ++ it.value ++ msgCrlf

/-- The answer to a command that is not a `get`. -/
def answer : Reply Item → Bytes
  | .set _ => msgStored
  | .add added => if added then msgStored else msgNotStored
  | .replace replaced => if replaced then msgStored else msgNotStored
  | .remove removed => if removed then msgDeleted else msgNotFound
  | .cas .stored => msgStored
  | .cas .notFound => msgNotFound
  | .cas .badVersion => msgExists
  | .counter none _ => msgNotFound
  | .counter (some _) false => msgErrorNonNumericValue
  | .counter (some it) true => it.value ++ msgCrlf
  | .get _ => []
  | .done => msgOk

/-- The item of a reply. -/
def found : Reply Item → List Item
  | .get (some it) => [it]
  | _ => []

/-- The items of the keys that are found. -/
def getItems (cfg : Config) : List Bytes → Cache → Except Fault (List Item × Cache)
  | [], c => .ok ([], c)
  | key :: keys, c => do
    let (r, c) ← c.get cfg key
    let (items, c) ← getItems cfg keys c
    .ok (found r ++ items, c)

/-- `handle_get<WithVersion>`. -/
def handleGet (withVersion : Bool) (cfg : Config) (keys : List Bytes) (c : Cache) :
    Except Fault (Bytes × Cache) := do
  let (items, c) ← getItems cfg keys c
  .ok (items.flatMap (appendItem withVersion) ++ msgEnd, c)

/-- A command on the cache, answered unless it says `noreply`. -/
def perform (noreply : Bool) (cfg : Config) (e : Cache.Event) (c : Cache) :
    Except Fault (Bytes × Cache) := do
  let (r, c) ← c.step cfg e
  .ok (if noreply then [] else answer r, c)

/-- `handle`, for a command that was parsed. -/
def handle (cfg : Config) (noreply : Bool) (c : Cache) : Command → Except Fault (Bytes × Cache)
  | .set r => perform noreply cfg (.set (r.prepareInsertion c)) c
  | .add r => perform noreply cfg (.add (r.prepareInsertion c)) c
  | .replace r => perform noreply cfg (.replace (r.prepareInsertion c)) c
  | .cas r version => perform noreply cfg (.cas (r.prepareInsertion c) version) c
  | .get keys => handleGet false cfg keys c
  | .gets keys => handleGet true cfg keys c
  | .delete key => perform noreply cfg (.remove key) c
  | .flushAll expiration =>
    if expiration ≠ 0 then perform noreply cfg (.flushAt expiration) c
    else perform noreply cfg .flushAll c
  | .incr key u64 => perform noreply cfg (.incr key u64) c
  | .decr key u64 => perform noreply cfg (.decr key u64) c

/-- What reaches the server: commands, and what its cache sees of the time. -/
inductive Input
  | command (cmd : Command) (noreply : Bool)
  | timer (wall : Int64)
  | flushTimer
  | clock (now : Int64)
  deriving DecidableEq, Repr

/-- One input, with the text that is written for it. -/
def serve (cfg : Config) (c : Cache) : Input → Except Fault (Bytes × Cache)
  | .command cmd noreply => handle cfg noreply c cmd
  | .timer wall => do
    let (_, c) ← c.step cfg (.timer wall)
    .ok ([], c)
  | .flushTimer => do
    let (_, c) ← c.step cfg .flushTimer
    .ok ([], c)
  | .clock now => do
    let (_, c) ← c.step cfg (.clock now)
    .ok ([], c)

/-- The cache after an input. -/
def next (cfg : Config) (c : Cache) (i : Input) : Except Fault Cache := (serve cfg c i).map Prod.snd

end Protocol

/-! ## The byte count of a value -/

/-- The byte count of an ascii prefix: the text behind the last space. -/
def sizeText (asciiPrefix : Bytes) : Bytes := asciiPrefix.rtakeWhile (· ≠ 32)

/-- The byte count is the size of the value. -/
def SaysSize (asciiPrefix value : Bytes) : Prop :=
  IsNumber (sizeText asciiPrefix) ∧ decimalValue (sizeText asciiPrefix) = value.length

instance (asciiPrefix value : Bytes) : Decidable (SaysSize asciiPrefix value) :=
  inferInstanceAs (Decidable (_ ∧ _))

theorem IsNumber.ne_space {text : Bytes} (h : IsNumber text) : ∀ c ∈ text, c ≠ 32 := by
  rintro c hc rfl
  exact absurd (List.all_eq_true.mp h.2 32 hc) (by decide)

theorem sizeText_append (front : Bytes) {size : Bytes} (h : IsNumber size) :
    sizeText (front ++ 32 :: size) = size := by
  have hall : ∀ c ∈ size.reverse, decide (c ≠ 32) = true := by
    intro c hc
    exact decide_eq_true (h.ne_space c (List.mem_reverse.mp hc))
  rw [sizeText, List.rtakeWhile, List.reverse_append, List.reverse_cons, List.append_assoc,
    List.takeWhile_append_of_pos hall, List.singleton_append, List.takeWhile_cons_of_neg (by simp),
    List.append_nil, List.reverse_reverse]

/-- An item that announces the size of its value; a prefix that wraps around has no value. -/
structure Item.Announced (it : Item) : Prop where
  small : it.asciiPrefixSize.toNat ≤ 248 ∨ it.valueSize = 0
  text : SaysSize it.asciiPrefix it.value

/-- An insertion that makes such an item. -/
structure Insertion.Announces (ins : Insertion) : Prop where
  key_lt : ins.key.length < 2 ^ 32
  small : ins.asciiPrefix.length ≤ 248 ∨ ins.asciiPrefix.length ≤ 255 ∧ ins.data = []
  text : SaysSize ins.asciiPrefix ins.data

/-- The number has as many digits as there are bytes. -/
def FillsDigits (n len : Nat) : Prop := n < 10 ^ len ∧ (len = 1 ∨ 10 ^ (len - 1) ≤ n)

instance (n len : Nat) : Decidable (FillsDigits n len) := inferInstanceAs (Decidable (_ ∧ _))

theorem length_toSstring {n : UInt64} {len : Nat} (h : FillsDigits n.toNat len) :
    (toSstring n).length = len := by
  obtain ⟨hlt, hge⟩ := h
  rw [toSstring, List.length_map]
  have hpos : 0 < (Nat.toDigits 10 n.toNat).length := Nat.length_toDigits_pos
  by_cases hlen : len = 0
  · subst hlen
    rcases hge with h | h
    · cases h
    · simp at hlt
      simp [hlt] at h
  · have hle := (Nat.length_toDigits_le_iff (b := 10) (by decide) (Nat.pos_of_ne_zero hlen)).mpr hlt
    rcases hge with rfl | hge
    · omega
    · by_cases h1 : len = 1
      · omega
      · have hnot : ¬ (Nat.toDigits 10 n.toNat).length ≤ len - 1 := by
          rw [Nat.length_toDigits_le_iff (by decide) (by omega)]
          omega
        omega

theorem announced_create {cfg : Config} {id : Nat} {ins : Insertion} {version : UInt64}
    (h : ins.Announces) : (Item.create cfg id ins version).Announced := by
  obtain ⟨hpre, hval⟩ := Item.tail_create cfg id version h.key_lt h.small
  refine ⟨?_, by rw [hpre, hval]; exact h.text⟩
  rcases h.small with hle | ⟨-, hnil⟩
  · refine Or.inl ?_
    show (UInt8.ofNat ins.asciiPrefix.length).toNat ≤ 248
    rw [toNat_size (by omega)]
    exact hle
  · exact Or.inr (by rw [Item.create, hnil]; rfl)

namespace Cache

/-- Every item announces the size of its value. -/
def AllAnnounced (c : Cache) : Prop := ∀ it ∈ c.items, it.Announced

/-- If the item of the key is a number, its new value has as many digits as it has bytes. -/
def SameDigits (cfg : Config) (f : UInt64 → UInt64) (key : Bytes) (c : Cache) : Prop :=
  ∀ it v, c.find cfg key = some it → dataAsIntegral it.value = some v →
    FillsDigits (f v).toNat it.value.length

/-- What keeps the sizes announced. -/
def KeepsSizes (cfg : Config) (c : Cache) : Event → Prop
  | .set ins => ins.Announces
  | .add ins => ins.Announces
  | .replace ins => ins.Announces
  | .cas ins _ => ins.Announces
  | .incr key delta => SameDigits cfg (· + delta) key c
  | .decr key delta => SameDigits cfg (fun v => v - min v delta) key c
  | _ => True

variable {cfg : Config} {key : Bytes} {c c' : Cache} {it old : Item} {ins : Insertion} {e : Event}
  {r : Reply Item}

theorem AllAnnounced.sublist (h : AllAnnounced c) (hs : c'.items.Sublist c.items) :
    AllAnnounced c' := fun it hit => h it (hs.subset hit)

theorem AllAnnounced.addOverriding (h : AllAnnounced c) (hins : ins.Announces)
    (hok : c.addOverriding cfg old ins = .ok (it, c')) : AllAnnounced c' := by
  obtain ⟨hit, hitems, -⟩ := addOverriding_ok hok
  intro b hb
  rw [hitems, List.mem_append, List.mem_singleton] at hb
  rcases hb with hb | rfl
  · exact h b (erase_sublist.subset hb)
  · rw [hit]
    exact announced_create hins

theorem AllAnnounced.addNew (h : AllAnnounced c) (hins : ins.Announces) :
    AllAnnounced (c.addNew cfg ins) := by
  intro b hb
  obtain ⟨-, hitems | hitems⟩ := addNew_ok cfg ins c
  · rw [hitems, List.mem_append, List.mem_singleton] at hb
    rcases hb with hb | rfl
    · exact h b hb
    · exact announced_create hins
  · rw [hitems] at hb
    exact h b hb

/-- A counter keeps its prefix, so its new value has to have the old size. -/
theorem AllAnnounced.modify {f : UInt64 → UInt64} (h : AllAnnounced c) (hkey : key.length < 2 ^ 32)
    (hf : c.find cfg key = some it) (hsame : SameDigits cfg f key c)
    (hok : c.modify cfg f key it = .ok (r, c')) : AllAnnounced c' := by
  cases hv : dataAsIntegral it.value with
  | none =>
    simp only [Cache.modify, hv] at hok
    obtain ⟨-, rfl⟩ := Prod.mk.inj (Except.ok.inj hok)
    exact h
  | some v =>
    simp only [Cache.modify, hv] at hok
    obtain ⟨⟨it', c₁⟩, hover, hret⟩ := bind_ok.mp hok
    obtain ⟨-, rfl⟩ := Prod.mk.inj (Except.ok.inj hret)
    have hit : it ∈ c.items := List.mem_of_find?_eq_some hf
    obtain ⟨hsmall, hnum, hval⟩ := h it hit
    refine h.addOverriding ⟨hkey, Or.inl ?_, hnum, ?_⟩ hover
    · have hle : it.asciiPrefix.length ≤ it.asciiPrefixSize.toNat := List.length_take_le _ _
      show it.asciiPrefix.length ≤ 248
      rcases hsmall with hsmall | hzero
      · omega
      · rw [Item.value, hzero, readAt, List.take_zero, show dataAsIntegral [] = none by decide] at hv
        cases hv
    · show decimalValue (sizeText it.asciiPrefix) = (toSstring (f v)).length
      rw [length_toSstring (hsame it v hf hv), hval]

theorem length_of_find (hf : c.find cfg key = some it) : key.length < 2 ^ 32 := by
  obtain ⟨-, hsize, -⟩ := compare_true.mp (List.find?_some hf)
  have := it.keySize.toNat_lt
  omega

theorem AllAnnounced.step (h : AllAnnounced c) (hok : c.step cfg e = .ok (r, c'))
    (hkeep : KeepsSizes cfg c e) : AllAnnounced c' := by
  cases e with
  | set ins =>
    cases hf : c.find cfg ins.key with
    | none =>
      simp only [Cache.step, Cache.set, hf] at hok
      obtain ⟨-, rfl⟩ := Prod.mk.inj (Except.ok.inj hok)
      exact h.addNew hkeep
    | some old =>
      simp only [Cache.step, Cache.set, hf] at hok
      obtain ⟨⟨it, c₁⟩, hover, hret⟩ := bind_ok.mp hok
      obtain ⟨-, rfl⟩ := Prod.mk.inj (Except.ok.inj hret)
      show AllAnnounced c₁
      exact h.addOverriding hkeep hover
  | add ins =>
    cases hf : c.find cfg ins.key with
    | none =>
      simp only [Cache.step, Cache.add, hf] at hok
      obtain ⟨-, rfl⟩ := Prod.mk.inj (Except.ok.inj hok)
      exact AllAnnounced.addNew (c := c.count _) h hkeep
    | some old =>
      simp only [Cache.step, Cache.add, hf] at hok
      obtain ⟨-, rfl⟩ := Prod.mk.inj (Except.ok.inj hok)
      exact h
  | replace ins =>
    cases hf : c.find cfg ins.key with
    | none =>
      simp only [Cache.step, Cache.replace, hf] at hok
      obtain ⟨-, rfl⟩ := Prod.mk.inj (Except.ok.inj hok)
      exact h
    | some old =>
      simp only [Cache.step, Cache.replace, hf] at hok
      obtain ⟨⟨it, c₁⟩, hover, hret⟩ := bind_ok.mp hok
      obtain ⟨-, rfl⟩ := Prod.mk.inj (Except.ok.inj hret)
      exact AllAnnounced.addOverriding (c := c.count _) h hkeep hover
  | cas ins v =>
    cases hf : c.find cfg ins.key with
    | none =>
      simp only [Cache.step, Cache.cas, hf] at hok
      obtain ⟨-, rfl⟩ := Prod.mk.inj (Except.ok.inj hok)
      exact h
    | some old =>
      by_cases hver : old.version = v
      · simp only [Cache.step, Cache.cas, hf, hver, ne_eq, not_true_eq_false, if_false] at hok
        obtain ⟨⟨it, c₁⟩, hover, hret⟩ := bind_ok.mp hok
        obtain ⟨-, rfl⟩ := Prod.mk.inj (Except.ok.inj hret)
        exact AllAnnounced.addOverriding (c := c.count _) h hkeep hover
      · simp only [Cache.step, Cache.cas, hf, hver, ne_eq, not_false_eq_true, if_true] at hok
        obtain ⟨-, rfl⟩ := Prod.mk.inj (Except.ok.inj hok)
        exact h
  | get key =>
    cases hf : c.find cfg key with
    | none =>
      simp only [Cache.step, Cache.get, hf] at hok
      obtain ⟨-, rfl⟩ := Prod.mk.inj (Except.ok.inj hok)
      exact h
    | some it =>
      simp only [Cache.step, Cache.get, hf] at hok
      obtain ⟨-, rfl⟩ := Prod.mk.inj (Except.ok.inj hok)
      exact h
  | remove key =>
    cases hf : c.find cfg key with
    | none =>
      simp only [Cache.step, Cache.remove, hf] at hok
      obtain ⟨-, rfl⟩ := Prod.mk.inj (Except.ok.inj hok)
      exact h
    | some it =>
      simp only [Cache.step, Cache.remove, hf] at hok
      obtain ⟨-, rfl⟩ := Prod.mk.inj (Except.ok.inj hok)
      exact h.sublist List.filter_sublist
  | incr key delta =>
    cases hf : c.find cfg key with
    | none =>
      simp only [Cache.step, Cache.incr, hf] at hok
      obtain ⟨-, rfl⟩ := Prod.mk.inj (Except.ok.inj hok)
      exact h
    | some it =>
      simp only [Cache.step, Cache.incr, hf] at hok
      exact AllAnnounced.modify (c := c.count _) h (length_of_find hf) hf hkeep hok
  | decr key delta =>
    cases hf : c.find cfg key with
    | none =>
      simp only [Cache.step, Cache.decr, hf] at hok
      obtain ⟨-, rfl⟩ := Prod.mk.inj (Except.ok.inj hok)
      exact h
    | some it =>
      simp only [Cache.step, Cache.decr, hf] at hok
      exact AllAnnounced.modify (c := c.count _) h (length_of_find hf) hf hkeep hok
  | flushAll =>
    obtain ⟨-, rfl⟩ := Prod.mk.inj (Except.ok.inj hok)
    exact h.sublist (by rw [flushAll_items]; exact List.nil_sublist _)
  | flushAt time =>
    obtain ⟨-, rfl⟩ := Prod.mk.inj (Except.ok.inj hok)
    exact h
  | timer wall =>
    obtain ⟨c₁, hexp, hret⟩ := bind_ok.mp hok
    obtain ⟨-, rfl⟩ := Prod.mk.inj (Except.ok.inj hret)
    exact h.sublist (expire_sublist hexp).1
  | flushTimer =>
    obtain ⟨-, rfl⟩ := Prod.mk.inj (Except.ok.inj hok)
    exact h.sublist (by rw [flushAll_items]; exact List.nil_sublist _)
  | clock now =>
    obtain ⟨-, rfl⟩ := Prod.mk.inj (Except.ok.inj hok)
    exact h

end Cache

namespace Protocol

/-- The texts of the request fit into an item, and its size is not cut off by `uint32_t`. -/
structure Announceable (r : StoreRequest) : Prop where
  small : r.flagsStr.length + r.sizeStr.length + 2 ≤ 248 ∨
    r.flagsStr.length + r.sizeStr.length + 2 ≤ 255 ∧ r.blob = []
  size_lt : decimalValue r.sizeStr < 2 ^ 32

instance (r : StoreRequest) : Decidable (Announceable r) :=
  decidable_of_iff ((r.flagsStr.length + r.sizeStr.length + 2 ≤ 248 ∨
      r.flagsStr.length + r.sizeStr.length + 2 ≤ 255 ∧ r.blob = []) ∧
      decimalValue r.sizeStr < 2 ^ 32) ⟨fun h => ⟨h.1, h.2⟩, fun h => ⟨h.1, h.2⟩⟩

/-- What keeps the sizes announced: a stored text fits, and a counter keeps its number of digits. -/
def KeepsSizes (cfg : Config) (c : Cache) : Input → Prop
  | .command (.set r) _ => Announceable r
  | .command (.add r) _ => Announceable r
  | .command (.replace r) _ => Announceable r
  | .command (.cas r _) _ => Announceable r
  | .command (.incr key u64) _ => c.SameDigits cfg (· + u64) key
  | .command (.decr key u64) _ => c.SameDigits cfg (fun v => v - min v u64) key
  | _ => True

variable {cfg : Config} {c c' : Cache} {items : List Item} {out : Bytes}

theorem announces_prepare {r : StoreRequest} (h : Announceable r) :
    (r.prepareInsertion c).Announces := by
  have hlen : (r.prepareInsertion c).asciiPrefix.length =
      r.flagsStr.length + r.sizeStr.length + 2 := by
    simp only [StoreRequest.prepareInsertion, List.cons_append, List.length_cons, List.length_append]
    omega
  have hsize : sizeText (r.prepareInsertion c).asciiPrefix = r.sizeStr :=
    sizeText_append (32 :: r.flagsStr) r.size
  refine ⟨r.key_lt, ?_, ?_, ?_⟩
  · rw [hlen]
    exact h.small
  · rw [hsize]
    exact r.size
  · rw [hsize]
    show _ = r.blob.length
    rw [r.length_blob, Nat.mod_eq_of_lt h.size_lt]

theorem perform_ok {noreply : Bool} {e : Cache.Event} (h : perform noreply cfg e c = .ok (out, c')) :
    ∃ r, c.step cfg e = .ok (r, c') := by
  obtain ⟨⟨r, c₁⟩, hs, hret⟩ := bind_ok.mp h
  obtain ⟨-, rfl⟩ := Prod.mk.inj (Except.ok.inj hret)
  exact ⟨r, hs⟩

/-- What `get` finds is in the cache, and stays there. -/
theorem getItems_ok {keys : List Bytes} (h : getItems cfg keys c = .ok (items, c')) :
    c'.items = c.items ∧ ∀ it ∈ items, it ∈ c.items := by
  induction keys generalizing c c' items with
  | nil =>
    obtain ⟨rfl, rfl⟩ := Prod.mk.inj (Except.ok.inj h)
    exact ⟨rfl, fun it hit => absurd hit List.not_mem_nil⟩
  | cons key keys ih =>
    obtain ⟨⟨r, c₁⟩, hget, h⟩ := bind_ok.mp h
    obtain ⟨⟨rest, c₂⟩, hrest, h⟩ := bind_ok.mp h
    obtain ⟨rfl, rfl⟩ := Prod.mk.inj (Except.ok.inj h)
    obtain ⟨hsame, hin⟩ := ih hrest
    cases hf : c.find cfg key with
    | none =>
      simp only [Cache.get, hf] at hget
      obtain ⟨rfl, rfl⟩ := Prod.mk.inj (Except.ok.inj hget)
      exact ⟨hsame, hin⟩
    | some it =>
      simp only [Cache.get, hf] at hget
      obtain ⟨rfl, rfl⟩ := Prod.mk.inj (Except.ok.inj hget)
      refine ⟨hsame, fun b hb => ?_⟩
      rcases List.mem_cons.mp hb with rfl | hb
      · exact List.mem_of_find?_eq_some hf
      · exact hin b hb

theorem handleGet_ok {withVersion : Bool} {keys : List Bytes}
    (h : handleGet withVersion cfg keys c = .ok (out, c')) :
    c'.items = c.items ∧ ∃ items : List Item, out = items.flatMap (appendItem withVersion) ++ msgEnd ∧
      ∀ it ∈ items, it ∈ c.items := by
  obtain ⟨⟨items, c₁⟩, hitems, hret⟩ := bind_ok.mp h
  obtain ⟨rfl, rfl⟩ := Prod.mk.inj (Except.ok.inj hret)
  obtain ⟨hsame, hin⟩ := getItems_ok hitems
  exact ⟨hsame, items, rfl, hin⟩

/-- Every input that keeps the sizes leaves them announced. -/
theorem next_announced {i : Input} (h : c.AllAnnounced) (hkeep : KeepsSizes cfg c i)
    (hok : next cfg c i = .ok c') : c'.AllAnnounced := by
  obtain ⟨⟨out, c₁⟩, hserve, rfl⟩ := map_ok.mp hok
  cases i with
  | command cmd noreply =>
    cases cmd with
    | set r =>
      obtain ⟨x, hs⟩ := perform_ok hserve
      exact h.step hs (announces_prepare hkeep)
    | add r =>
      obtain ⟨x, hs⟩ := perform_ok hserve
      exact h.step hs (announces_prepare hkeep)
    | replace r =>
      obtain ⟨x, hs⟩ := perform_ok hserve
      exact h.step hs (announces_prepare hkeep)
    | cas r version =>
      obtain ⟨x, hs⟩ := perform_ok hserve
      exact h.step hs (announces_prepare hkeep)
    | get keys =>
      intro it hit
      rw [(handleGet_ok hserve).1] at hit
      exact h it hit
    | gets keys =>
      intro it hit
      rw [(handleGet_ok hserve).1] at hit
      exact h it hit
    | delete key =>
      obtain ⟨x, hs⟩ := perform_ok hserve
      exact h.step hs trivial
    | flushAll expiration =>
      simp only [serve, handle] at hserve
      split at hserve
      · obtain ⟨x, hs⟩ := perform_ok hserve
        exact h.step hs trivial
      · obtain ⟨x, hs⟩ := perform_ok hserve
        exact h.step hs trivial
    | incr key u64 =>
      obtain ⟨x, hs⟩ := perform_ok hserve
      exact h.step hs hkeep
    | decr key u64 =>
      obtain ⟨x, hs⟩ := perform_ok hserve
      exact h.step hs hkeep
  | timer wall =>
    obtain ⟨⟨r, c₂⟩, hs, hret⟩ := bind_ok.mp hserve
    obtain ⟨-, rfl⟩ := Prod.mk.inj (Except.ok.inj hret)
    exact h.step hs trivial
  | flushTimer =>
    obtain ⟨⟨r, c₂⟩, hs, hret⟩ := bind_ok.mp hserve
    obtain ⟨-, rfl⟩ := Prod.mk.inj (Except.ok.inj hret)
    exact h.step hs trivial
  | clock now =>
    obtain ⟨⟨r, c₂⟩, hs, hret⟩ := bind_ok.mp hserve
    obtain ⟨-, rfl⟩ := Prod.mk.inj (Except.ok.inj hret)
    exact h.step hs trivial

/-- In every run whose inputs keep the sizes, the byte count of every item is the size of its value,
and so it is for every item that a `get` or `gets` writes. -/
theorem values_announced (cfg : Config) (now wall : Int64) (is : List Input) (c : Cache)
    (hrun : Run.run (next cfg) (Cache.init now wall) is = .ok c)
    (hkeep : Run.Along (next cfg) (KeepsSizes cfg) (Cache.init now wall) is) :
    (∀ it ∈ c.items, SaysSize it.asciiPrefix it.value) ∧
      ∀ withVersion keys out c', handleGet withVersion cfg keys c = .ok (out, c') →
        ∃ items : List Item, out = items.flatMap (appendItem withVersion) ++ msgEnd ∧
          ∀ it ∈ items, SaysSize it.asciiPrefix it.value := by
  have hall : c.AllAnnounced := by
    refine Run.run_inv (I := Cache.AllAnnounced) ?_ ?_ hkeep hrun
    · intro s i s' hs hp hok
      exact next_announced hs hp hok
    · intro it hit
      exact absurd hit List.not_mem_nil
  refine ⟨fun it hit => (hall it hit).text, ?_⟩
  intro withVersion keys out c' hget
  obtain ⟨-, items, hout, hin⟩ := handleGet_ok hget
  exact ⟨items, hout, fun it hit => (hall it (hin it hit)).text⟩

/-- `set n 0 0 2` with the value 10. -/
def storeTen : StoreRequest where
  key := ascii "n"
  flagsStr := ascii "0"
  sizeStr := ascii "2"
  expiration := 0
  blob := ascii "10"
  key_lt := by decide
  flags := by decide
  size := by decide
  length_blob := by decide

/-- A counter that keeps its two digits. -/
theorem values_announced_eleven :
    ∃ c, Run.run (next ⟨fun _ => 0, 80⟩) (Cache.init 0 0)
        [.command (.set storeTen) false, .command (.incr (ascii "n") 1) false] = .ok c ∧
      (handleGet false ⟨fun _ => 0, 80⟩ [ascii "n"] c).map Prod.fst =
        .ok (ascii "VALUE n 0 2\r\n11\r\nEND\r\n") ∧
      ∀ it ∈ c.items, SaysSize it.asciiPrefix it.value := by
  refine ⟨_, rfl, by decide +kernel, (values_announced ⟨fun _ => 0, 80⟩ 0 0
    [.command (.set storeTen) false, .command (.incr (ascii "n") 1) false] _ rfl ?_).1⟩
  refine ⟨show Announceable storeTen by decide, fun c hc => ?_⟩
  obtain rfl := Except.ok.inj hc
  refine ⟨?_, fun _ _ => trivial⟩
  intro it v hf hv
  obtain rfl := Option.some.inj hf
  obtain rfl := Option.some.inj hv
  decide

/-- 10 is decremented to 9, and `get` announces two bytes of it. -/
theorem decr_keeps_size :
    ∃ c, Run.run (next ⟨fun _ => 0, 80⟩) (Cache.init 0 0)
        [.command (.set storeTen) false, .command (.decr (ascii "n") 1) false] = .ok c ∧
      (handleGet false ⟨fun _ => 0, 80⟩ [ascii "n"] c).map Prod.fst =
        .ok (ascii "VALUE n 0 2\r\n9\r\nEND\r\n") ∧
      ∃ it ∈ c.items, ¬ SaysSize it.asciiPrefix it.value := by
  refine ⟨_, rfl, by decide +kernel, _, List.mem_singleton_self _, by decide +kernel⟩

end Protocol

end Seastar.Memcached
