import Mathlib.Data.UInt
import Seastar.Lib.Keyed
import Seastar.Memcached.Cache

/-!
The cache as a map from keys to entries. As long as the texts of every insertion fit,
each event on the cache returns what it returns on the map, `_bytes` is the sum of the sizes of
the items, and the timer set holds the items that expire.
-/

namespace Seastar.Memcached

open Lib

/-! ## The map -/

/-- A map from keys to entries, with the time at which it is to be cleared. -/
structure PlainMap where
  entries : Bytes → Option Entry := fun _ => none
  flushAt : Option Int64 := none
  wcToClockTypeDelta : Int64 := 0
  now : Int64 := 0

/-- The entry of an insertion. -/
def Insertion.entry (ins : Insertion) (version : UInt64) : Entry :=
  { asciiPrefix := ins.asciiPrefix, data := ins.data, version, expiry := ins.expiry }

/-- The entry is due. -/
def Entry.due (now : Int64) (e : Entry) : Bool := e.expiry.everExpires && e.expiry.time ≤ now

namespace PlainMap

def assign (key : Bytes) (e : Option Entry) (m : PlainMap) : PlainMap :=
  { m with entries := Function.update m.entries key e }

@[simp] theorem assign_entries (key k : Bytes) (e : Option Entry) (m : PlainMap) :
    (m.assign key e).entries k = if k = key then e else m.entries k := by
  simp only [assign, Function.update_apply]

@[simp] theorem assign_assign (key : Bytes) (e e' : Option Entry) (m : PlainMap) :
    (m.assign key e).assign key e' = m.assign key e' := by
  simp [assign]

/-- Replace the number of an entry. -/
def modify (f : UInt64 → UInt64) (key : Bytes) (m : PlainMap) : Reply Entry × PlainMap :=
  match m.entries key with
  | none => (.counter none false, m)
  | some e =>
    match dataAsIntegral e.data with
    | none => (.counter (some e) false, m)
    | some v =>
      let e := { e with data := toSstring (f v), version := e.version + 1 }
      (.counter (some e) true, m.assign key (some e))

/-- One event on the map. -/
def step (m : PlainMap) : Cache.Event → Reply Entry × PlainMap
  | .set ins =>
    match m.entries ins.key with
    | some e => (.set true, m.assign ins.key (some (ins.entry (e.version + 1))))
    | none => (.set false, m.assign ins.key (some (ins.entry 1)))
  | .add ins =>
    match m.entries ins.key with
    | some _ => (.add false, m)
    | none => (.add true, m.assign ins.key (some (ins.entry 1)))
  | .replace ins =>
    match m.entries ins.key with
    | some e => (.replace true, m.assign ins.key (some (ins.entry (e.version + 1))))
    | none => (.replace false, m)
  | .cas ins version =>
    match m.entries ins.key with
    | none => (.cas .notFound, m)
    | some e =>
      if e.version = version then
        (.cas .stored, m.assign ins.key (some (ins.entry (e.version + 1))))
      else (.cas .badVersion, m)
  | .get key => (.get (m.entries key), m)
  | .remove key =>
    match m.entries key with
    | some _ => (.remove true, m.assign key none)
    | none => (.remove false, m)
  | .incr key delta => m.modify (· + delta) key
  | .decr key delta => m.modify (fun v => v - min v delta) key
  | .flushAll => (.done, { m with entries := fun _ => none, flushAt := none })
  | .flushAt time =>
    (.done, { m with
      flushAt := some (Expiration.ofSeconds m.now m.wcToClockTypeDelta time).time })
  | .timer wall =>
    (.done, { m with
      entries := fun key => (m.entries key).filter fun e => !e.due m.now
      wcToClockTypeDelta := Cache.clockDelta m.now wall })
  | .flushTimer => (.done, { m with entries := fun _ => none, flushAt := none })
  | .clock now => (.done, { m with now })

end PlainMap

/-! ## Well-formed caches -/

/-- The texts of an item, as an insertion. -/
def Item.insertion (it : Item) : Insertion :=
  { key := it.key, asciiPrefix := it.asciiPrefix, data := it.value, expiry := it.expiry }

/-- The item holds what was stored in it. -/
structure Item.Stored (cfg : Config) (it : Item) : Prop where
  fits : it.insertion.Fits
  hash : it.keyHash = cfg.hash it.key
  keySize : it.keySize.toNat = it.key.length
  asciiPrefixSize : it.asciiPrefixSize.toNat = it.asciiPrefix.length
  valueSize : it.valueSize = it.value.length

namespace Cache

variable {cfg : Config} {c : Cache} {it : Item} {ins : Insertion} {key : Bytes} {t : Bool}

/-- The items of the hash table: one for each key, and their sizes are accounted. -/
structure Linked (cfg : Config) (c : Cache) : Prop where
  ids : (c.items.map Item.id).Nodup
  fresh : ∀ it ∈ c.items, it.id < c.nextId
  keys : (c.items.map Item.key).Nodup
  stored : ∀ it ∈ c.items, it.Stored cfg
  bytes : c.stats.bytes = (c.items.map (itemSize cfg)).sum

/-- The timer set holds those of the items that expire. -/
structure Armed (items : List Item) (c : Cache) : Prop where
  wellFormed : c.alive.WellFormed
  last_le : c.alive.last ≤ c.now
  mem : ∀ t, TimerSet.Mem t c.alive ↔ ∃ it ∈ items, it.expiry.everExpires ∧ it.timer = t

structure Inv (cfg : Config) (c : Cache) : Prop where
  linked : Linked cfg c
  armed : Armed c.items c

/-- The map a cache stands for. -/
def abs (c : Cache) : PlainMap :=
  { entries := fun key => (c.items.find? (·.key = key)).map Item.entry
    flushAt := c.flushTimer, wcToClockTypeDelta := c.wcToClockTypeDelta, now := c.now }

theorem Inv.init (cfg : Config) {now wall : Int64} (hnow : 0 ≤ now) : Inv cfg (Cache.init now wall) where
  linked := by
    refine ⟨List.nodup_nil, ?_, List.nodup_nil, ?_, rfl⟩
    · exact fun it hit => absurd hit List.not_mem_nil
    · exact fun it hit => absurd hit List.not_mem_nil
  armed := by
    refine ⟨TimerSet.WellFormed.empty, hnow, fun t => ⟨?_, ?_⟩⟩
    · rintro ⟨i, -, ht⟩
      exact absurd ht List.not_mem_nil
    · rintro ⟨it, hit, -⟩
      exact absurd hit List.not_mem_nil

/-! ## What is found -/

/-- An item that holds what was stored in it answers to its key only. -/
theorem compare_iff (h : it.Stored cfg) : it.compare cfg key = true ↔ it.key = key := by
  simp only [Item.compare, Bool.and_eq_true, beq_iff_eq]
  constructor
  · rintro ⟨⟨-, hsize⟩, hkey⟩
    rw [hkey, hsize, List.take_length]
  · rintro rfl
    exact ⟨⟨h.hash, h.keySize⟩, by rw [h.keySize, List.take_length]⟩

theorem Linked.find_eq (h : Linked cfg c) : c.find cfg key = c.items.find? (·.key = key) := by
  apply List.find?_congr
  intro it hit
  rw [Bool.eq_iff_iff, decide_eq_true_iff]
  exact compare_iff (h.stored it hit)

/-- What `find` returns, in the map. -/
theorem Linked.abs_find (h : Linked cfg c) :
    c.abs.entries key = (c.find cfg key).map Item.entry := by
  rw [h.find_eq]
  rfl

theorem Linked.find_some (h : Linked cfg c) :
    c.find cfg key = some it ↔ it ∈ c.items ∧ it.key = key := by
  rw [h.find_eq, Keyed.find?_eq_some h.keys]

theorem Linked.find_none (h : Linked cfg c) :
    c.find cfg key = none ↔ ∀ it ∈ c.items, it.key ≠ key := by
  rw [h.find_eq, Keyed.find?_eq_none]

theorem Linked.abs_iff (h : Linked cfg c) {e : Entry} :
    c.abs.entries key = some e ↔ ∃ it ∈ c.items, it.key = key ∧ it.entry = e := by
  simp only [abs, Option.map_eq_some_iff, Keyed.find?_eq_some h.keys, and_assoc]

theorem Linked.eq_of_id (h : Linked cfg c) {a b : Item} (ha : a ∈ c.items) (hb : b ∈ c.items)
    (hid : a.id = b.id) : a = b := List.inj_on_of_nodup_map h.ids ha hb hid

theorem Linked.eq_of_key (h : Linked cfg c) {a b : Item} (ha : a ∈ c.items) (hb : b ∈ c.items)
    (hkey : a.key = b.key) : a = b := List.inj_on_of_nodup_map h.keys ha hb hkey

/-- The items decide the entries. -/
theorem Linked.abs_entries (h : Linked cfg c) {entries : Bytes → Option Entry}
    (he : ∀ key e, entries key = some e ↔ ∃ it ∈ c.items, it.key = key ∧ it.entry = e) :
    c.abs.entries = entries := by
  funext key
  apply Option.ext
  intro e
  rw [h.abs_iff, he]

/-! ## Erasing -/

theorem mem_erase {b : Item} : b ∈ (c.erase true t cfg it).items ↔ b ∈ c.items ∧ b.id ≠ it.id :=
  Keyed.mem_filter_ne

theorem Linked.erase (h : Linked cfg c) (hit : it ∈ c.items) :
    Linked cfg (c.erase true t cfg it) where
  ids := Keyed.nodup_filter _ h.ids
  fresh b hb := h.fresh b (mem_erase.mp hb).1
  keys := Keyed.nodup_filter _ h.keys
  stored b hb := h.stored b (mem_erase.mp hb).1
  bytes := by
    have hsum := Keyed.sum_filter_ne h.ids hit (itemSize cfg)
    show c.stats.bytes - itemSize cfg it = _
    rw [h.bytes, hsum]
    exact add_sub_cancel_right _ _

theorem Armed.erase {items : List Item} (cfg : Config) (t : Bool) (h : Armed items c) (hids : (items.map Item.id).Nodup)
    (hit : it ∈ items) :
    Armed (items.filter (·.id ≠ it.id)) (c.erase t true cfg it) := by
  have heq : ∀ b ∈ items, b.id = it.id → b = it := by
    intro b hb hid
    exact List.inj_on_of_nodup_map hids hb hit hid
  have hrest : ∀ t, (∃ b ∈ items.filter (·.id ≠ it.id), b.expiry.everExpires ∧ b.timer = t) ↔
      (∃ b ∈ items, b.expiry.everExpires ∧ b.timer = t) ∧ t.id ≠ it.id := by
    intro t
    constructor
    · rintro ⟨b, hb, hexp, rfl⟩
      obtain ⟨hb, hid⟩ := Keyed.mem_filter_ne.mp hb
      exact ⟨⟨b, hb, hexp, rfl⟩, hid⟩
    · rintro ⟨⟨b, hb, hexp, rfl⟩, hid⟩
      exact ⟨b, Keyed.mem_filter_ne.mpr ⟨hb, hid⟩, hexp, rfl⟩
  by_cases hexp : it.expiry.everExpires
  · have halive : (c.erase t true cfg it).alive = c.alive.remove it.timer := by
      simp [Cache.erase, hexp]
    refine ⟨?_, ?_, fun t => ?_⟩
    · rw [halive]
      exact h.wellFormed.remove _
    · rw [halive]
      exact h.last_le
    · rw [halive, h.wellFormed.mem_remove, h.mem, hrest]
      apply and_congr_right
      rintro ⟨b, hb, -, rfl⟩
      constructor
      · intro hne hid
        exact hne (by rw [heq b hb hid])
      · intro hid htimer
        exact hid (congrArg Timer.id htimer)
  · have halive : (c.erase t true cfg it).alive = c.alive := by
      simp [Cache.erase, hexp]
    refine ⟨?_, ?_, fun t => ?_⟩
    · rw [halive]
      exact h.wellFormed
    · rw [halive]
      exact h.last_le
    · rw [halive, h.mem, hrest]
      refine (and_iff_left_of_imp ?_).symm
      rintro ⟨b, hb, hexp', rfl⟩ hid
      rw [heq b hb hid] at hexp'
      exact hexp hexp'

theorem Inv.erase (h : Inv cfg c) (hit : it ∈ c.items) : Inv cfg (c.erase true true cfg it) :=
  ⟨h.linked.erase hit, h.armed.erase cfg true h.linked.ids hit⟩

/-- Erasing an item takes its key out of the map. -/
theorem abs_erase (h : Linked cfg c) (hit : it ∈ c.items) :
    (c.erase true t cfg it).abs = c.abs.assign it.key none := by
  have hentries : (c.erase true t cfg it).abs.entries = (c.abs.assign it.key none).entries := by
    refine (h.erase hit).abs_entries fun key e => ?_
    rw [PlainMap.assign_entries]
    split
    · rename_i hkey
      simp only [reduceCtorEq, false_iff, not_exists, not_and]
      intro b hb hbk
      obtain ⟨hb, hid⟩ := mem_erase.mp hb
      exact absurd (congrArg Item.id (h.eq_of_key hb hit (hbk.trans hkey))) hid
    · rename_i hkey
      rw [h.abs_iff]
      constructor
      · rintro ⟨b, hb, hbk, rfl⟩
        refine ⟨b, mem_erase.mpr ⟨hb, ?_⟩, hbk, rfl⟩
        intro hid
        exact hkey (by rw [← hbk, h.eq_of_id hb hit hid])
      · rintro ⟨b, hb, hbk, rfl⟩
        exact ⟨b, (mem_erase.mp hb).1, hbk, rfl⟩
  rw [PlainMap.mk.injEq]
  exact ⟨hentries, rfl, rfl, rfl⟩

/-! ## Inserting -/

theorem stored_create {id : Nat} {version : UInt64} (h : ins.Fits) :
    (Item.create cfg id ins version).Stored cfg := by
  obtain ⟨hkey, hpre, hval⟩ := Item.reads_create cfg id version h
  have heq : (Item.create cfg id ins version).insertion = ins := by
    rw [Item.insertion, hkey, hpre, hval]
    rfl
  refine ⟨heq.symm ▸ h, ?_, ?_, ?_, ?_⟩
  · rw [hkey]
    rfl
  · rw [hkey]
    exact toNat_size h.key_le
  · rw [hpre]
    exact toNat_size h.prefix_le
  · rw [hval]
    rfl

theorem itemSize_create {id : Nat} {version : UInt64} (h : ins.Fits) :
    itemSize cfg (Item.create cfg id ins version) = insertionSize cfg ins := by
  show cfg.sizeofItem + alignUp (UInt64.ofNat (UInt8.ofNat _).toNat) 8 +
    alignUp (UInt64.ofNat (UInt8.ofNat _).toNat) 8 + _ = _
  rw [toNat_size h.key_le, toNat_size h.prefix_le]
  rfl

/-- The cache after a new item was linked and accounted. -/
def placed (cfg : Config) (ins : Insertion) (version : UInt64) (c : Cache) : Cache :=
  { c with
    items := c.items ++ [Item.create cfg c.nextId ins version]
    nextId := c.nextId + 1 }.account cfg ins (Item.create cfg c.nextId ins version)

theorem placed_items (version : UInt64) :
    (c.placed cfg ins version).items = c.items ++ [Item.create cfg c.nextId ins version] :=
  arm_items _

theorem Linked.placed {version : UInt64} (h : Linked cfg c) (hfit : ins.Fits)
    (hnew : ∀ b ∈ c.items, b.key ≠ ins.key) : Linked cfg (c.placed cfg ins version) where
  ids := by
    rw [placed_items]
    exact Keyed.nodup_snoc h.ids fun b hb => Nat.ne_of_lt (h.fresh b hb)
  fresh b hb := by
    rw [placed_items, List.mem_append, List.mem_singleton] at hb
    show b.id < (Cache.arm _ _ _).nextId
    rw [arm_nextId]
    rcases hb with hb | rfl
    · exact Nat.lt_succ_of_lt (h.fresh b hb)
    · exact Nat.lt_succ_self _
  keys := by
    rw [placed_items]
    refine Keyed.nodup_snoc h.keys fun b hb => ?_
    rw [(Item.reads_create _ _ _ hfit).1]
    exact hnew b hb
  stored b hb := by
    rw [placed_items, List.mem_append, List.mem_singleton] at hb
    rcases hb with hb | rfl
    · exact h.stored b hb
    · exact stored_create hfit
  bytes := by
    show (Cache.arm _ _ _).stats.bytes + insertionSize cfg ins = _
    rw [placed_items, arm_bytes, List.map_append, List.sum_append, List.map_singleton,
      List.sum_singleton, itemSize_create hfit, h.bytes]

theorem Armed.placed {version : UInt64} (h : Armed c.items c) (hl : Linked cfg c) :
    Armed (c.placed cfg ins version).items (c.placed cfg ins version) := by
  have hnot : ¬ TimerSet.Mem (Item.create cfg c.nextId ins version).timer c.alive := by
    intro hmem
    obtain ⟨b, hb, -, htimer⟩ := (h.mem _).mp hmem
    exact absurd (congrArg Timer.id htimer) (Nat.ne_of_lt (hl.fresh b hb))
  have hrest : ∀ t, (∃ b ∈ (c.placed cfg ins version).items, b.expiry.everExpires ∧ b.timer = t) ↔
      (∃ b ∈ c.items, b.expiry.everExpires ∧ b.timer = t) ∨
        ins.expiry.everExpires ∧ (Item.create cfg c.nextId ins version).timer = t := by
    intro t
    rw [placed_items]
    constructor
    · rintro ⟨b, hb, hexp⟩
      rw [List.mem_append, List.mem_singleton] at hb
      rcases hb with hb | rfl
      · exact Or.inl ⟨b, hb, hexp⟩
      · exact Or.inr hexp
    · rintro (⟨b, hb, hexp⟩ | hexp)
      · exact ⟨b, List.mem_append_left _ hb, hexp⟩
      · exact ⟨_, List.mem_append_right _ (List.mem_singleton_self _), hexp⟩
  by_cases hexp : ins.expiry.everExpires
  · have halive : (c.placed cfg ins version).alive =
        (c.alive.insert (Item.create cfg c.nextId ins version).timer).2 := by
      simp [Cache.placed, account, count, arm, hexp]
    have hnow : (c.placed cfg ins version).now = c.now := arm_now _
    refine ⟨?_, ?_, fun t => ?_⟩
    · rw [halive]
      exact h.wellFormed.insert hnot
    · rw [halive, hnow, TimerSet.insert_last]
      exact h.last_le
    · rw [halive, TimerSet.mem_insert, h.mem, hrest, or_comm, eq_comm]
      simp [hexp]
  · have halive : (c.placed cfg ins version).alive = c.alive := by
      simp [Cache.placed, account, count, arm, hexp]
    have hnow : (c.placed cfg ins version).now = c.now := arm_now _
    refine ⟨?_, ?_, fun t => ?_⟩
    · rw [halive]
      exact h.wellFormed
    · rw [halive, hnow]
      exact h.last_le
    · rw [halive, h.mem, hrest]
      simp [hexp]

theorem Inv.placed {version : UInt64} (h : Inv cfg c) (hfit : ins.Fits)
    (hnew : ∀ b ∈ c.items, b.key ≠ ins.key) : Inv cfg (c.placed cfg ins version) :=
  ⟨h.linked.placed hfit hnew, h.armed.placed h.linked⟩

/-- A new item is a new entry of the map. -/
theorem abs_placed {version : UInt64} (h : Linked cfg c) (hfit : ins.Fits)
    (hnew : ∀ b ∈ c.items, b.key ≠ ins.key) :
    (c.placed cfg ins version).abs = c.abs.assign ins.key (some (ins.entry version)) := by
  obtain ⟨hkey, hpre, hval⟩ := Item.reads_create cfg c.nextId version hfit
  have hentry : (Item.create cfg c.nextId ins version).entry = ins.entry version := by
    rw [Item.entry, hpre, hval]
    rfl
  have hentries : (c.placed cfg ins version).abs.entries =
      (c.abs.assign ins.key (some (ins.entry version))).entries := by
    refine (h.placed hfit hnew).abs_entries fun key e => ?_
    rw [PlainMap.assign_entries, placed_items]
    split
    · rename_i hk
      rw [Option.some.injEq]
      constructor
      · rintro rfl
        exact ⟨_, List.mem_append_right _ (List.mem_singleton_self _), hkey.trans hk.symm, hentry⟩
      · rintro ⟨b, hb, hbk, rfl⟩
        rw [List.mem_append, List.mem_singleton] at hb
        rcases hb with hb | rfl
        · exact absurd (hbk.trans hk) (hnew b hb)
        · exact hentry.symm
    · rename_i hk
      rw [h.abs_iff]
      constructor
      · rintro ⟨b, hb, hbk⟩
        exact ⟨b, List.mem_append_left _ hb, hbk⟩
      · rintro ⟨b, hb, hbk, he⟩
        rw [List.mem_append, List.mem_singleton] at hb
        rcases hb with hb | rfl
        · exact ⟨b, hb, hbk, he⟩
        · exact absurd (hbk.symm.trans hkey) hk
  have hrest : (c.placed cfg ins version).abs.flushAt = c.abs.flushAt ∧
      (c.placed cfg ins version).abs.wcToClockTypeDelta = c.abs.wcToClockTypeDelta ∧
      (c.placed cfg ins version).abs.now = c.abs.now := by
    simp only [Cache.placed, account, count, arm]
    split <;> exact ⟨rfl, rfl, rfl⟩
  rw [PlainMap.mk.injEq]
  exact ⟨hentries, hrest⟩

theorem entry_create {id : Nat} {version : UInt64} (h : ins.Fits) :
    (Item.create cfg id ins version).entry = ins.entry version := by
  obtain ⟨-, hpre, hval⟩ := Item.reads_create cfg id version h
  rw [Item.entry, hpre, hval]
  rfl

/-- An item with a new key is linked. -/
theorem link_new (c : Cache) (it : Item) (hnew : ∀ b ∈ c.items, b.key ≠ it.key) :
    c.link it = (true, { c with items := c.items ++ [it] }) := by
  have hany : c.items.any (·.equal it) = false := by
    rw [List.any_eq_false]
    intro b hb heq
    simp only [Item.equal, Bool.and_eq_true, beq_iff_eq] at heq
    exact hnew b hb heq.2
  rw [link, hany]
  rfl

theorem addNew_eq (hfit : ins.Fits) (hnew : ∀ b ∈ c.items, b.key ≠ ins.key) :
    c.addNew cfg ins = c.placed cfg ins 1 := by
  have hkey := (Item.reads_create cfg c.nextId 1 hfit).1
  have hlink := link_new (c.createItem cfg ins 1).2 (c.createItem cfg ins 1).1
    fun b hb => hkey.symm ▸ hnew b hb
  simp only [addNew, hlink]
  rfl

/-- What `add_overriding` does to the item of a key. -/
theorem Inv.addOverriding {old : Item} (h : Inv cfg c) (hold : old ∈ c.items)
    (hkey : old.key = ins.key) (hfit : ins.Fits) :
    ∃ it c', c.addOverriding cfg old ins = .ok (it, c') ∧ Inv cfg c' ∧
      it.entry = ins.entry (old.version + 1) ∧
      c'.abs = c.abs.assign ins.key (some (ins.entry (old.version + 1))) := by
  have herased := h.erase hold
  have hnew : ∀ b ∈ (c.erase true true cfg old).items, b.key ≠ ins.key := by
    intro b hb hbk
    obtain ⟨hb, hid⟩ := mem_erase.mp hb
    exact hid (congrArg Item.id (h.linked.eq_of_key hb hold (hbk.trans hkey.symm)))
  have hcreated := (Item.reads_create cfg c.nextId (old.version + 1) hfit).1
  refine ⟨Item.create cfg c.nextId ins (old.version + 1),
    (c.erase true true cfg old).placed cfg ins (old.version + 1), ?_, herased.placed hfit hnew,
    entry_create hfit, ?_⟩
  · have hlink := link_new ((c.erase true true cfg old).createItem cfg ins (old.version + 1)).2
      (Item.create cfg c.nextId ins (old.version + 1)) fun b hb => hcreated.symm ▸ hnew b hb
    simp only [Cache.addOverriding]
    rw [show ((c.erase true true cfg old).createItem cfg ins (old.version + 1)).1 =
      Item.create cfg c.nextId ins (old.version + 1) from rfl, hlink]
    rfl
  · rw [abs_placed herased.linked hfit hnew, abs_erase h.linked hold, hkey,
      PlainMap.assign_assign]

theorem Inv.addNew (h : Inv cfg c) (hfit : ins.Fits) (hnew : ∀ b ∈ c.items, b.key ≠ ins.key) :
    Inv cfg (c.addNew cfg ins) ∧
      (c.addNew cfg ins).abs = c.abs.assign ins.key (some (ins.entry 1)) := by
  rw [addNew_eq hfit hnew]
  exact ⟨h.placed hfit hnew, abs_placed h.linked hfit hnew⟩

/-! ## The operations -/

/-- Counting anything but the bytes changes nothing else. -/
theorem Inv.count (h : Inv cfg c) {f : CacheStats → CacheStats} (hf : ∀ s, (f s).bytes = s.bytes) :
    Inv cfg (c.count f) where
  linked := ⟨h.linked.ids, h.linked.fresh, h.linked.keys, h.linked.stored,
    (hf c.stats).trans h.linked.bytes⟩
  armed := ⟨h.armed.wellFormed, h.armed.last_le, h.armed.mem⟩

@[simp] theorem abs_count (f : CacheStats → CacheStats) : (c.count f).abs = c.abs := rfl

/-- The step keeps the invariant, and the map takes the same step. -/
def Simulates (cfg : Config) (c : Cache) (e : Event)
    (result : Except Fault (Reply Item × Cache)) : Prop :=
  ∃ r c', result = .ok (r, c') ∧ Inv cfg c' ∧ c.abs.step e = (r.map Item.entry, c'.abs)

/-- What `find` does, and what the map says. -/
theorem Inv.find_cases (h : Inv cfg c) (key : Bytes) :
    (c.find cfg key = none ∧ c.abs.entries key = none ∧ ∀ b ∈ c.items, b.key ≠ key) ∨
      ∃ it ∈ c.items, it.key = key ∧ c.find cfg key = some it ∧
        c.abs.entries key = some it.entry := by
  cases hf : c.find cfg key with
  | none =>
    refine Or.inl ⟨rfl, ?_, h.linked.find_none.mp hf⟩
    rw [h.linked.abs_find, hf]
    rfl
  | some it =>
    obtain ⟨hit, hkey⟩ := h.linked.find_some.mp hf
    refine Or.inr ⟨it, hit, hkey, rfl, ?_⟩
    rw [h.linked.abs_find, hf]
    rfl

theorem Inv.set (h : Inv cfg c) (hfit : ins.Fits) : Simulates cfg c (.set ins) (c.set cfg ins) := by
  rcases h.find_cases ins.key with ⟨hf, habs, hnew⟩ | ⟨old, hold, hkey, hf, habs⟩
  · obtain ⟨hinv, hadd⟩ := h.addNew hfit hnew
    simp only [Simulates, Cache.set, hf]
    refine ⟨_, _, rfl, hinv.count fun _ => rfl, ?_⟩
    simp [PlainMap.step, habs, hadd, Reply.map]
  · obtain ⟨it, c', hover, hinv, -, hadd⟩ := h.addOverriding hold hkey hfit
    simp only [Simulates, Cache.set, hf, hover, ok_bind]
    refine ⟨_, _, rfl, hinv.count fun _ => rfl, ?_⟩
    simp [PlainMap.step, habs, hadd, Reply.map, Item.entry]

theorem Inv.add (h : Inv cfg c) (hfit : ins.Fits) : Simulates cfg c (.add ins) (c.add cfg ins) := by
  rcases h.find_cases ins.key with ⟨hf, habs, hnew⟩ | ⟨old, hold, hkey, hf, habs⟩
  · obtain ⟨hinv, hadd⟩ := (h.count (f := fun s => { s with setAdds := s.setAdds + 1 })
      fun _ => rfl).addNew hfit hnew
    simp only [Simulates, Cache.add, hf]
    refine ⟨_, _, rfl, hinv, ?_⟩
    simp [PlainMap.step, habs, hadd, Reply.map]
  · simp only [Simulates, Cache.add, hf]
    refine ⟨_, _, rfl, h, ?_⟩
    simp [PlainMap.step, habs, Reply.map]

theorem Inv.replace (h : Inv cfg c) (hfit : ins.Fits) :
    Simulates cfg c (.replace ins) (c.replace cfg ins) := by
  rcases h.find_cases ins.key with ⟨hf, habs, -⟩ | ⟨old, hold, hkey, hf, habs⟩
  · simp only [Simulates, Cache.replace, hf]
    refine ⟨_, _, rfl, h, ?_⟩
    simp [PlainMap.step, habs, Reply.map]
  · obtain ⟨it, c', hover, hinv, -, hadd⟩ := (h.count
      (f := fun s => { s with setReplaces := s.setReplaces + 1 })
      fun _ => rfl).addOverriding hold hkey hfit
    simp only [Simulates, Cache.replace, hf, hover, ok_bind]
    refine ⟨_, _, rfl, hinv, ?_⟩
    simp [PlainMap.step, habs, hadd, Reply.map, Item.entry]

theorem Inv.remove (h : Inv cfg c) : Simulates cfg c (.remove key) (c.remove cfg key) := by
  rcases h.find_cases key with ⟨hf, habs, -⟩ | ⟨old, hold, hkey, hf, habs⟩
  · simp only [Simulates, Cache.remove, hf]
    refine ⟨_, _, rfl, h.count fun _ => rfl, ?_⟩
    simp [PlainMap.step, habs, Reply.map]
  · have hc := h.count (f := fun s => { s with deleteHits := s.deleteHits + 1 }) fun _ => rfl
    simp only [Simulates, Cache.remove, hf]
    refine ⟨_, _, rfl, hc.erase hold, ?_⟩
    rw [abs_erase hc.linked hold]
    simp [PlainMap.step, habs, Reply.map, hkey]

theorem Inv.get (h : Inv cfg c) : Simulates cfg c (.get key) (c.get cfg key) := by
  rcases h.find_cases key with ⟨hf, habs, -⟩ | ⟨old, hold, hkey, hf, habs⟩
  · simp only [Simulates, Cache.get, hf]
    refine ⟨_, _, rfl, h.count fun _ => rfl, ?_⟩
    simp [PlainMap.step, habs, Reply.map]
  · simp only [Simulates, Cache.get, hf]
    refine ⟨_, _, rfl, h.count fun _ => rfl, ?_⟩
    simp [PlainMap.step, habs, Reply.map]

theorem Inv.cas {version : UInt64} (h : Inv cfg c) (hfit : ins.Fits) :
    Simulates cfg c (.cas ins version) (c.cas cfg ins version) := by
  rcases h.find_cases ins.key with ⟨hf, habs, -⟩ | ⟨old, hold, hkey, hf, habs⟩
  · simp only [Simulates, Cache.cas, hf]
    refine ⟨_, _, rfl, h.count fun _ => rfl, ?_⟩
    simp [PlainMap.step, habs, Reply.map]
  · by_cases hver : old.version = version
    · obtain ⟨it, c', hover, hinv, -, hadd⟩ := (h.count
        (f := fun s => { s with casHits := s.casHits + 1 })
        fun _ => rfl).addOverriding hold hkey hfit
      simp only [Simulates, Cache.cas, hf, hver, ne_eq, not_true_eq_false, if_false, hover, ok_bind]
      refine ⟨_, _, rfl, hinv, ?_⟩
      simp [PlainMap.step, habs, hadd, Reply.map, Item.entry, hver]
    · simp only [Simulates, Cache.cas, hf, hver, ne_eq, not_false_eq_true, if_true]
      refine ⟨_, _, rfl, h.count fun _ => rfl, ?_⟩
      simp [PlainMap.step, habs, Reply.map, Item.entry, hver]

/-- A value that is a number is not empty, so nothing wraps around in its item. -/
theorem fits_counter {v n : UInt64} (h : it.Stored cfg) (hv : dataAsIntegral it.value = some v)
    (hkey : it.key = key) :
    ({ key, asciiPrefix := it.asciiPrefix, data := toSstring n, expiry := it.expiry } :
      Insertion).Fits := by
  have hne : it.value ≠ [] := by
    intro hnil
    rw [hnil, show dataAsIntegral [] = none by decide] at hv
    cases hv
  obtain ⟨hk, hp, hk', hp'⟩ := h.fits
  subst hkey
  refine ⟨hk, hp, ?_, ?_⟩
  · exact Or.inl (hk'.resolve_right fun h => hne h.2)
  · exact Or.inl (hp'.resolve_right hne)

theorem Inv.modify {f : UInt64 → UInt64} (h : Inv cfg c) (hit : it ∈ c.items)
    (hkey : it.key = key) (habs : c.abs.entries key = some it.entry) :
    ∃ r c', c.modify cfg f key it = .ok (r, c') ∧ Inv cfg c' ∧
      c.abs.modify f key = (r.map Item.entry, c'.abs) := by
  cases hv : dataAsIntegral it.value with
  | none =>
    simp only [Cache.modify, hv]
    refine ⟨_, _, rfl, h, ?_⟩
    have hv' : dataAsIntegral it.entry.data = none := hv
    simp [PlainMap.modify, habs, hv', Reply.map]
  | some v =>
    obtain ⟨it', c', hover, hinv, hentry, hadd⟩ := h.addOverriding hit hkey
      (fits_counter (n := f v) (h.linked.stored it hit) hv hkey)
    simp only [Cache.modify, hv, hover, ok_bind]
    refine ⟨_, _, rfl, hinv, ?_⟩
    have hv' : dataAsIntegral it.entry.data = some v := hv
    simp only [PlainMap.modify, habs, hv', hadd, Reply.map, Option.map_some, hentry]
    rfl

theorem Inv.incr {delta : UInt64} (h : Inv cfg c) :
    Simulates cfg c (.incr key delta) (c.incr cfg key delta) := by
  rcases h.find_cases key with ⟨hf, habs, -⟩ | ⟨it, hit, hkey, hf, habs⟩
  · simp only [Simulates, Cache.incr, hf]
    refine ⟨_, _, rfl, h.count fun _ => rfl, ?_⟩
    simp [PlainMap.step, PlainMap.modify, habs, Reply.map]
  · have hc := h.count (f := fun s => { s with incrHits := s.incrHits + 1 }) fun _ => rfl
    simp only [Simulates, Cache.incr, hf]
    exact hc.modify hit hkey habs

theorem Inv.decr {delta : UInt64} (h : Inv cfg c) :
    Simulates cfg c (.decr key delta) (c.decr cfg key delta) := by
  rcases h.find_cases key with ⟨hf, habs, -⟩ | ⟨it, hit, hkey, hf, habs⟩
  · simp only [Simulates, Cache.decr, hf]
    refine ⟨_, _, rfl, h.count fun _ => rfl, ?_⟩
    simp [PlainMap.step, PlainMap.modify, habs, Reply.map]
  · have hc := h.count (f := fun s => { s with decrHits := s.decrHits + 1 }) fun _ => rfl
    simp only [Simulates, Cache.decr, hf]
    exact hc.modify hit hkey habs

/-! ## Flushing and expiring -/

/-- The disposer of `flush_all`, on the items that are left. -/
theorem Armed.flush {items : List Item} (h : Armed items c) (hids : (items.map Item.id).Nodup)
    (hbytes : c.stats.bytes = (items.map (itemSize cfg)).sum) :
    ∃ c', items.foldl (fun c it => c.erase false true cfg it) c = c' ∧ Armed [] c' ∧
      c'.stats.bytes = 0 ∧ c'.items = c.items ∧ c'.abs = c.abs := by
  induction items generalizing c with
  | nil => exact ⟨c, rfl, h, hbytes, rfl, rfl⟩
  | cons it items ih =>
    have hrest : (it :: items).filter (·.id ≠ it.id) = items := by
      obtain ⟨hit, -⟩ := List.nodup_cons.mp hids
      rw [List.filter_cons_of_neg (by simp), List.filter_eq_self]
      intro b hb
      rw [decide_eq_true_iff]
      intro hid
      exact hit (hid ▸ List.mem_map_of_mem hb)
    have herase := h.erase cfg false hids List.mem_cons_self
    rw [hrest] at herase
    obtain ⟨c', hc', harmed, hzero, hitems, habs⟩ := ih herase (List.nodup_cons.mp hids).2 (by
      show c.stats.bytes - itemSize cfg it = _
      rw [hbytes, List.map_cons, List.sum_cons]
      exact add_sub_cancel_left _ _)
    exact ⟨c', hc', harmed, hzero, hitems, habs⟩

theorem Inv.flushAll (h : Inv cfg c) :
    Inv cfg (c.flushAll cfg) ∧
      (c.flushAll cfg).abs = { c.abs with entries := fun _ => none, flushAt := none } := by
  obtain ⟨c', hc', harmed, hzero, hitems, habs⟩ := (⟨h.armed.1, h.armed.2, h.armed.3⟩ :
    Armed c.items { c with items := [], flushTimer := none }).flush h.linked.ids h.linked.bytes
  rw [Cache.flushAll, hc', habs]
  have hnil : c'.items = [] := hitems
  refine ⟨⟨?_, ?_⟩, rfl⟩
  · refine ⟨?_, ?_, ?_, ?_, ?_⟩
    · rw [hnil]
      exact List.nodup_nil
    · rw [hnil]
      exact fun it hit => absurd hit List.not_mem_nil
    · rw [hnil]
      exact List.nodup_nil
    · rw [hnil]
      exact fun it hit => absurd hit List.not_mem_nil
    · rw [hnil, hzero]
      rfl
  · rw [hnil]
    exact harmed

/-- The loop of `expire` erases the items of the timers. -/
theorem Linked.expireLoop {exp : List Timer} (h : Linked cfg c) (hnd : exp.Nodup)
    (hexp : ∀ t ∈ exp, ∃ it ∈ c.items, it.timer = t) :
    ∃ c', Cache.expireLoop cfg exp c = .ok c' ∧ Linked cfg c' ∧
      (∀ b, b ∈ c'.items ↔ b ∈ c.items ∧ b.timer ∉ exp) ∧ c'.alive = c.alive ∧
      c'.flushTimer = c.flushTimer ∧ c'.wcToClockTypeDelta = c.wcToClockTypeDelta ∧
      c'.now = c.now := by
  induction exp generalizing c with
  | nil => exact ⟨c, rfl, h, by simp, rfl, rfl, rfl, rfl⟩
  | cons timer exp ih =>
    obtain ⟨hnot, hnd⟩ := List.nodup_cons.mp hnd
    obtain ⟨it, hit, htimer⟩ := hexp timer List.mem_cons_self
    have hid : it.id = timer.id := congrArg Timer.id htimer
    have hfind : c.items.find? (·.id = timer.id) = some it :=
      (Keyed.find?_eq_some h.ids).mpr ⟨hit, hid⟩
    have herase : Linked cfg ((c.erase true false cfg it).count fun s =>
        { s with expired := s.expired + 1 }) := by
      have hl := h.erase (t := false) hit
      exact ⟨hl.ids, hl.fresh, hl.keys, hl.stored, hl.bytes⟩
    have hsame : ∀ b ∈ c.items, b.id = it.id ↔ b.timer = timer := by
      intro b hb
      constructor
      · intro hbid
        rw [h.eq_of_id hb hit hbid, htimer]
      · intro hbt
        rw [hid, ← hbt]
        rfl
    have hleft : ∀ t ∈ exp, ∃ b ∈ (c.erase true false cfg it).items, b.timer = t := by
      intro t ht
      obtain ⟨b, hb, rfl⟩ := hexp t (List.mem_cons_of_mem _ ht)
      refine ⟨b, mem_erase.mpr ⟨hb, fun hbid => ?_⟩, rfl⟩
      rw [(hsame b hb).mp hbid] at ht
      exact hnot ht
    obtain ⟨c', hc', hl, hitems, hrest⟩ := ih herase hnd hleft
    refine ⟨c', by rw [Cache.expireLoop, hfind]; exact hc', hl, fun b => ?_, hrest⟩
    rw [hitems, List.mem_cons, not_or]
    show b ∈ (c.erase true false cfg it).items ∧ b.timer ∉ exp ↔ _
    rw [mem_erase]
    constructor
    · rintro ⟨⟨hb, hbid⟩, hbexp⟩
      exact ⟨hb, fun hbt => hbid ((hsame b hb).mpr hbt), hbexp⟩
    · rintro ⟨hb, hbt, hbexp⟩
      exact ⟨⟨hb, fun hbid => hbt ((hsame b hb).mp hbid)⟩, hbexp⟩

theorem Inv.expire (h : Inv cfg c) (wall : Int64) :
    ∃ c', c.expire cfg wall = .ok c' ∧ Inv cfg c' ∧
      c'.abs = (c.abs.step (.timer wall)).2 := by
  obtain ⟨exp, alive, halive, hexp⟩ := h.armed.wellFormed.expire h.armed.last_le
  have hitem : ∀ t ∈ exp, ∃ it ∈ c.items, it.timer = t := by
    intro t ht
    obtain ⟨it, hit, -, htimer⟩ := (h.armed.mem t).mp ((hexp.expired t).mp ht).1
    exact ⟨it, hit, htimer⟩
  -- an item is taken by the timer set exactly when its entry is due
  have hdue : ∀ b ∈ c.items, b.timer ∈ exp ↔ b.entry.due c.now = true := by
    intro b hb
    rw [hexp.expired, h.armed.mem, Entry.due, Bool.and_eq_true, decide_eq_true_iff]
    refine and_congr_left fun _ => ?_
    constructor
    · rintro ⟨b', hb', hexp', htimer⟩
      rw [← h.linked.eq_of_id hb' hb (congrArg Timer.id htimer)]
      exact hexp'
    · intro hexp'
      exact ⟨b, hb, hexp', rfl⟩
  have hlinked : Linked cfg { c with wcToClockTypeDelta := clockDelta c.now wall, alive } :=
    ⟨h.linked.ids, h.linked.fresh, h.linked.keys, h.linked.stored, h.linked.bytes⟩
  obtain ⟨c', hc', hl, hitems, ha, hf, hw, hn⟩ := hlinked.expireLoop hexp.nodup hitem
  refine ⟨{ c' with timer := some c'.alive.getNextTimeout }, ?_, ⟨?_, ?_⟩, ?_⟩
  · simp only [Cache.expire, halive, ok_bind, hc']
  · exact ⟨hl.ids, hl.fresh, hl.keys, hl.stored, hl.bytes⟩
  · refine ⟨?_, ?_, fun t => ?_⟩
    · show c'.alive.WellFormed
      rw [ha]
      exact hexp.wellFormed
    · show c'.alive.last ≤ c'.now
      rw [ha, hn, hexp.last]
      exact Int64.le_refl _
    · show TimerSet.Mem t c'.alive ↔ ∃ it ∈ c'.items, _
      rw [ha, hexp.kept, h.armed.mem]
      constructor
      · rintro ⟨⟨b, hb, hexp', rfl⟩, hlate⟩
        refine ⟨b, (hitems b).mpr ⟨hb, fun hbexp => ?_⟩, hexp', rfl⟩
        exact TimerSet.not_le_of_lt hlate ((hexp.expired _).mp hbexp).2
      · rintro ⟨b, hb, hexp', rfl⟩
        obtain ⟨hb, hbexp⟩ := (hitems b).mp hb
        refine ⟨⟨b, hb, hexp', rfl⟩, TimerSet.lt_of_not_le fun hle => hbexp ?_⟩
        exact (hexp.expired _).mpr ⟨(h.armed.mem _).mpr ⟨b, hb, hexp', rfl⟩, hle⟩
  · have hentries : c'.abs.entries = ((c.abs.step (.timer wall)).2).entries := by
      refine hl.abs_entries fun key e => ?_
      show (c.abs.entries key).filter (fun e => !e.due c.now) = some e ↔ _
      rw [Option.filter_eq_some_iff, h.linked.abs_iff]
      constructor
      · rintro ⟨⟨b, hb, hbk, rfl⟩, hlate⟩
        refine ⟨b, (hitems b).mpr ⟨hb, fun hbexp => ?_⟩, hbk, rfl⟩
        rw [(hdue b hb).mp hbexp] at hlate
        cases hlate
      · rintro ⟨b, hb, hbk, rfl⟩
        obtain ⟨hb, hbexp⟩ := (hitems b).mp hb
        refine ⟨⟨b, hb, hbk, rfl⟩, ?_⟩
        rw [Bool.not_eq_true', ← Bool.not_eq_true]
        exact fun hd => hbexp ((hdue b hb).mpr hd)
    rw [PlainMap.mk.injEq]
    exact ⟨hentries, hf, hw, hn⟩

/-! ## Runs -/

/-- What a command stores fits into an item. -/
def Event.Fits (e : Event) : Prop := ∀ ins ∈ e.insertion?, ins.Fits

instance (e : Event) : Decidable e.Fits := by
  unfold Event.Fits
  infer_instance

/-- The map takes every step of the cache, and returns the same. -/
theorem Inv.step {e : Event} (h : Inv cfg c) (hfit : e.Fits) (hen : Enabled c e) :
    Simulates cfg c e (c.step cfg e) := by
  cases e with
  | set ins => exact h.set (hfit ins rfl)
  | add ins => exact h.add (hfit ins rfl)
  | replace ins => exact h.replace (hfit ins rfl)
  | cas ins version => exact h.cas (hfit ins rfl)
  | get key => exact h.get
  | remove key => exact h.remove
  | incr key delta => exact h.incr
  | decr key delta => exact h.decr
  | flushAll => exact ⟨.done, _, rfl, h.flushAll.1, by rw [h.flushAll.2]; rfl⟩
  | flushAt time =>
    exact ⟨.done, _, rfl, ⟨⟨h.linked.1, h.linked.2, h.linked.3, h.linked.4, h.linked.5⟩,
      ⟨h.armed.1, h.armed.2, h.armed.3⟩⟩, rfl⟩
  | timer wall =>
    have h' : Inv cfg { c with timer := none } :=
      ⟨⟨h.linked.1, h.linked.2, h.linked.3, h.linked.4, h.linked.5⟩,
        ⟨h.armed.1, h.armed.2, h.armed.3⟩⟩
    obtain ⟨c', hc', hinv, habs⟩ := h'.expire wall
    refine ⟨.done, c', ?_, hinv, ?_⟩
    · simp only [Cache.step, hc', ok_bind]
    · rw [habs]
      rfl
  | flushTimer =>
    have h' : Inv cfg { c with flushTimer := none } :=
      ⟨⟨h.linked.1, h.linked.2, h.linked.3, h.linked.4, h.linked.5⟩,
        ⟨h.armed.1, h.armed.2, h.armed.3⟩⟩
    exact ⟨.done, _, rfl, h'.flushAll.1, by rw [h'.flushAll.2]; rfl⟩
  | clock now =>
    exact ⟨.done, _, rfl, ⟨⟨h.linked.1, h.linked.2, h.linked.3, h.linked.4, h.linked.5⟩,
      ⟨h.armed.1, Int64.le_trans h.armed.2 hen, h.armed.3⟩⟩, rfl⟩

end Cache

/-- A cache, with everything it has returned. -/
structure Session where
  cache : Cache
  /-- history: what the events returned, oldest first -/
  replies : List (Reply Entry) := []

namespace Session

/-- One event. -/
def step (cfg : Config) (s : Session) (e : Cache.Event) : Except Fault Session := do
  let (r, c) ← s.cache.step cfg e
  .ok ⟨c, s.replies ++ [r.map Item.entry]⟩

/-- The events of the run can happen where they do. -/
def Enabled (cfg : Config) (s : Session) (es : List Cache.Event) : Prop :=
  Run.Along (step cfg) (fun s e => Cache.Enabled s.cache e) s es

instance (cfg : Config) (s : Session) (es : List Cache.Event) : Decidable (Enabled cfg s es) := by
  unfold Enabled
  infer_instance

end Session

/-- What the map returns, event by event, and the map after them. -/
def PlainMap.run : PlainMap → List Cache.Event → List (Reply Entry) × PlainMap
  | m, [] => ([], m)
  | m, e :: es =>
    let (r, m) := m.step e
    let (rs, m) := m.run es
    (r :: rs, m)

/-- The run of the cache is the run of the map. -/
theorem Cache.Inv.run {cfg : Config} {s : Session} {es : List Cache.Event}
    (h : Cache.Inv cfg s.cache) (hfit : ∀ e ∈ es, e.Fits) (hen : Session.Enabled cfg s es) :
    ∃ s', Run.run (Session.step cfg) s es = .ok s' ∧ Cache.Inv cfg s'.cache ∧
      s'.replies = s.replies ++ (s.cache.abs.run es).1 ∧ s'.cache.abs = (s.cache.abs.run es).2 := by
  induction es generalizing s with
  | nil => exact ⟨s, rfl, h, (List.append_nil _).symm, rfl⟩
  | cons e es ih =>
    obtain ⟨r, c, hc, hinv, hmap⟩ := h.step (hfit e List.mem_cons_self) hen.1
    have hstep : Session.step cfg s e = .ok ⟨c, s.replies ++ [r.map Item.entry]⟩ := by
      rw [Session.step, hc, ok_bind]
    obtain ⟨s', hr, hinv', hreplies, habs⟩ :=
      ih hinv (fun e' he' => hfit e' (List.mem_cons_of_mem _ he')) (hen.2 _ hstep)
    refine ⟨s', Run.run_cons_ok.mpr ⟨_, hstep, hr⟩, hinv', ?_, ?_⟩
    · rw [hreplies, PlainMap.run, hmap, List.append_assoc]
      rfl
    · rw [habs, PlainMap.run, hmap]

/-- In every run whose insertions fit, the cache returns what the map returns, `_bytes` is the sum
of the sizes of the items, and the timer set holds exactly the items that expire. -/
theorem cache_refines_map (cfg : Config) (now wall : Int64) (es : List Cache.Event) (hnow : 0 ≤ now)
    (hen : Session.Enabled cfg { cache := Cache.init now wall } es) (hfit : ∀ e ∈ es, e.Fits) :
    ∃ s, Run.run (Session.step cfg) { cache := Cache.init now wall } es = .ok s ∧
      s.replies =
        (PlainMap.run { now, wcToClockTypeDelta := Cache.clockDelta now wall } es).1 ∧
      s.cache.stats.bytes = (s.cache.items.map (itemSize cfg)).sum ∧
      ∀ t, TimerSet.Mem t s.cache.alive ↔
        ∃ it ∈ s.cache.items, it.expiry.everExpires ∧ it.timer = t := by
  obtain ⟨s, hr, hinv, hreplies, -⟩ := (Cache.Inv.init cfg hnow).run
    (s := { cache := Cache.init now wall }) hfit hen
  exact ⟨s, hr, hreplies, hinv.linked.bytes, hinv.armed.mem⟩

/-- A number is stored, incremented and read, and expires. -/
theorem cache_refines_map_counter :
    Session.Enabled ⟨fun _ => 0, 80⟩ { cache := Cache.init 0 0 }
      [.set ⟨[110], [32, 48, 32, 49], [57], ⟨5⟩⟩, .incr [110] 1, .get [110], .clock 10, .timer 0,
        .get [110]] ∧
    ∃ s, Run.run (Session.step ⟨fun _ => 0, 80⟩) { cache := Cache.init 0 0 }
      [.set ⟨[110], [32, 48, 32, 49], [57], ⟨5⟩⟩, .incr [110] 1, .get [110], .clock 10, .timer 0,
        .get [110]] = .ok s ∧ s.replies.getLast? = some (.get none) := by
  have hen : Session.Enabled ⟨fun _ => 0, 80⟩ { cache := Cache.init 0 0 }
      [.set ⟨[110], [32, 48, 32, 49], [57], ⟨5⟩⟩, .incr [110] 1, .get [110], .clock 10, .timer 0,
        .get [110]] := by decide +kernel
  obtain ⟨s, hr, hreplies, -⟩ := cache_refines_map ⟨fun _ => 0, 80⟩ 0 0 _ (by decide) hen
    (by decide)
  refine ⟨hen, s, hr, ?_⟩
  rw [hreplies]
  decide +kernel

/-- A key of 250 bytes: its ascii prefix is written over it, and it is not found again. -/
theorem cache_loses_key :
    ∃ es : List Cache.Event, (∀ e ∈ es, ∀ key ∈ e.key?, key.length ≤ 255) ∧
      Session.Enabled ⟨fun _ => 0, 80⟩ { cache := Cache.init 0 0 } es ∧
      ∃ s, Run.run (Session.step ⟨fun _ => 0, 80⟩) { cache := Cache.init 0 0 } es = .ok s ∧
        s.replies = [.set false, .get none] ∧
        (PlainMap.run {} es).1 = [.set false,
          .get (some ⟨[32, 48, 32, 49], [120], 1, {}⟩)] := by
  have hrun : (Run.run (Session.step ⟨fun _ => 0, 80⟩) { cache := Cache.init 0 0 }
      [.set ⟨List.replicate 250 97, [32, 48, 32, 49], [120], {}⟩,
        .get (List.replicate 250 97)]).map Session.replies = .ok [.set false, .get none] := by
    decide +kernel
  obtain ⟨s, hr, hreplies⟩ := map_ok.mp hrun
  refine ⟨_, ?_, ?_, s, hr, hreplies, ?_⟩
  · decide +kernel
  · decide +kernel
  · decide +kernel

end Seastar.Memcached
