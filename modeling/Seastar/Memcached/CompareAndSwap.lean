import Mathlib.Data.UInt
import Seastar.Memcached.Cache
import Seastar.Lib.Keyed

/-!
`gets` and `cas`. Overwriting an item counts its version up, so a version that is still there was
never overwritten, unless the key was made anew in between: a new item starts from version 1.
-/

namespace Seastar.Memcached.Cache

open Lib

/-- The cache after an event. -/
def next (cfg : Config) (c : Cache) (e : Event) : Except Fault Cache := (c.step cfg e).map Prod.snd

/-- The command makes an item for the key, which has none before. -/
def Creates (key : Bytes) (before : Option Item) : Event → Prop
  | .set ins => ins.key = key ∧ before = none
  | .add ins => ins.key = key ∧ before = none
  | _ => False

/-- The event, with what it returned, was a successful mutation of the key, whose item was `before`
and is `after`. -/
def Mutates (key : Bytes) (before after : Option Item) : Event → Reply Item → Prop
  | .set ins, _ => ins.key = key
  | .add ins, .add true => ins.key = key
  | .replace ins, .replace true => ins.key = key
  | .cas ins _, .cas .stored => ins.key = key
  | .remove k, .remove true => k = key
  | .incr k _, .counter _ true => k = key
  | .decr k _, .counter _ true => k = key
  | .flushAll, _ => before ≠ none ∧ after = none
  | .flushTimer, _ => before ≠ none ∧ after = none
  | .timer _, _ => before ≠ none ∧ after = none
  | _, _ => False

/-- A stored key with the hash of this one is stored as it is. -/
def KeyFits (cfg : Config) (key : Bytes) (e : Event) : Prop :=
  ∀ ins ∈ e.insertion?, cfg.hash ins.key = cfg.hash key → ins.KeyFits

instance (cfg : Config) (key : Bytes) (e : Event) : Decidable (KeyFits cfg key e) := by
  unfold KeyFits
  infer_instance

/-- At most one item answers to the key, and a key that wraps around has no value. -/
structure Indexed (cfg : Config) (key : Bytes) (c : Cache) : Prop where
  ids : (c.items.map Item.id).Nodup
  fresh : ∀ it ∈ c.items, it.id < c.nextId
  unique : ∀ a ∈ c.items, ∀ b ∈ c.items,
    a.compare cfg key = true → b.compare cfg key = true → a = b
  small : ∀ it ∈ c.items, it.keyHash = cfg.hash key → it.keySize.toNat ≤ 248 ∨ it.valueSize = 0

variable {cfg : Config} {key k : Bytes} {c c' : Cache} {it old : Item} {ins : Insertion} {t : Bool}

/-- What a step does to the item of a key that it does not make. -/
inductive Touched (key : Bytes) (before after : Option Item) (e : Event) (r : Reply Item) : Prop
  | same (hfind : after = before) (hmut : ¬ Mutates key before after e r)
  | bumped (v : UInt64) (hv : before.map Item.version = some v)
      (hv' : after.map Item.version = some (v + 1))
  | gone (hnone : after = none)

/-! ## What is found -/

theorem compare_true : it.compare cfg key = true ↔
    it.keyHash = cfg.hash key ∧ it.keySize.toNat = key.length ∧ it.key = key := by
  simp only [Item.compare, Bool.and_eq_true, beq_iff_eq, and_assoc]
  refine and_congr_right fun _ => and_congr_right fun hsize => ?_
  rw [hsize, List.take_length]

theorem eq_of_compare (h : it.compare cfg key = true) (h' : it.compare cfg k = true) : key = k :=
  (compare_true.mp h).2.2.symm.trans (compare_true.mp h').2.2

/-- A new item answers to its own key only. -/
theorem compare_create {id : Nat} {v : UInt64}
    (hfit : cfg.hash ins.key = cfg.hash key → ins.KeyFits) :
    (Item.create cfg id ins v).compare cfg key = true ↔ ins.key = key := by
  rw [compare_true]
  constructor
  · rintro ⟨hhash, -, hkey⟩
    rw [← hkey, Item.key_create cfg id v (hfit hhash)]
  · rintro rfl
    have hfit := hfit rfl
    have hle : ins.key.length ≤ 255 := by
      rcases hfit with h | h
      · omega
      · exact h.1
    exact ⟨rfl, toNat_size hle, Item.key_create cfg id v hfit⟩

theorem Indexed.find_some (h : Indexed cfg key c) :
    c.find cfg key = some it ↔ it ∈ c.items ∧ it.compare cfg key = true := by
  constructor
  · intro hf
    exact ⟨List.mem_of_find?_eq_some hf, List.find?_some hf⟩
  · rintro ⟨hit, hcmp⟩
    cases hf : c.find cfg key with
    | none =>
      rw [find, List.find?_eq_none] at hf
      exact absurd hcmp (hf it hit)
    | some b =>
      rw [h.unique b (List.mem_of_find?_eq_some hf) it hit (List.find?_some hf) hcmp]

theorem find_none : c.find cfg key = none ↔ ∀ it ∈ c.items, ¬ it.compare cfg key = true := by
  rw [find, List.find?_eq_none]

/-- Taking items out leaves one item of the key at most. -/
theorem Indexed.sublist (h : Indexed cfg key c) (hs : c'.items.Sublist c.items)
    (hn : c'.nextId = c.nextId) : Indexed cfg key c' where
  ids := h.ids.sublist (hs.map _)
  fresh b hb := by
    rw [hn]
    exact h.fresh b (hs.subset hb)
  unique a ha b hb := h.unique a (hs.subset ha) b (hs.subset hb)
  small b hb := h.small b (hs.subset hb)

/-- ... and leaves it as it was, or takes it. -/
theorem Indexed.find_sublist (h : Indexed cfg key c) (hs : c'.items.Sublist c.items)
    (hn : c'.nextId = c.nextId) : c'.find cfg key = c.find cfg key ∨ c'.find cfg key = none := by
  cases hf : c'.find cfg key with
  | none => exact Or.inr rfl
  | some it =>
    obtain ⟨hit, hcmp⟩ := (h.sublist hs hn).find_some.mp hf
    exact Or.inl (h.find_some.mpr ⟨hs.subset hit, hcmp⟩).symm

theorem erase_sublist : (c.erase true t cfg it).items.Sublist c.items := List.filter_sublist

/-- Erasing another item leaves the item of the key. -/
theorem Indexed.find_erase (h : Indexed cfg key c) (hit : it ∈ c.items)
    (hne : ¬ it.compare cfg key = true) :
    (c.erase true t cfg it).find cfg key = c.find cfg key := by
  apply Option.ext
  intro b
  rw [(h.sublist erase_sublist rfl).find_some, h.find_some]
  constructor
  · rintro ⟨hb, hcmp⟩
    exact ⟨erase_sublist.subset hb, hcmp⟩
  · rintro ⟨hb, hcmp⟩
    refine ⟨Keyed.mem_filter_ne.mpr ⟨hb, fun hid => ?_⟩, hcmp⟩
    rw [List.inj_on_of_nodup_map h.ids hb hit hid] at hcmp
    exact hne hcmp

theorem Indexed.find_erase_self (h : Indexed cfg key c) (hit : it ∈ c.items)
    (hcmp : it.compare cfg key = true) : (c.erase true t cfg it).find cfg key = none := by
  rw [find_none]
  intro b hb hb'
  obtain ⟨hb, hid⟩ := Keyed.mem_filter_ne.mp hb
  exact hid (by rw [h.unique b hb it hit hb' hcmp])

/-! ## What is stored -/

/-- A new item whose key is not there yet. -/
theorem Indexed.snoc (h : Indexed cfg key c) {v : UInt64} (hit : it = Item.create cfg c.nextId ins v)
    (hfit : cfg.hash ins.key = cfg.hash key → ins.KeyFits)
    (hnew : ins.key = key → c.find cfg key = none) (hitems : c'.items = c.items ++ [it])
    (hn : c'.nextId = c.nextId + 1) : Indexed cfg key c' where
  ids := by
    rw [hitems, hit]
    exact Keyed.nodup_snoc h.ids fun b hb => Nat.ne_of_lt (h.fresh b hb)
  fresh b hb := by
    rw [hitems, List.mem_append, List.mem_singleton] at hb
    rw [hn]
    rcases hb with hb | rfl
    · exact Nat.lt_succ_of_lt (h.fresh b hb)
    · rw [hit]
      exact Nat.lt_succ_self _
  unique a ha b hb hac hbc := by
    have hnone : ∀ x ∈ c.items, it.compare cfg key = true → ¬ x.compare cfg key = true := by
      intro x hx hcmp
      rw [hit, compare_create hfit] at hcmp
      exact find_none.mp (hnew hcmp) x hx
    rw [hitems, List.mem_append, List.mem_singleton] at ha hb
    rcases ha with ha | rfl
    · rcases hb with hb | rfl
      · exact h.unique a ha b hb hac hbc
      · exact absurd hac (hnone a ha hbc)
    · rcases hb with hb | rfl
      · exact absurd hbc (hnone b hb hac)
      · rfl
  small b hb hhash := by
    rw [hitems, List.mem_append, List.mem_singleton] at hb
    rcases hb with hb | rfl
    · exact h.small b hb hhash
    · subst hit
      rcases hfit hhash with hle | ⟨-, -, hnil⟩
      · refine Or.inl ?_
        show (UInt8.ofNat ins.key.length).toNat ≤ 248
        rw [toNat_size (by omega)]
        exact hle
      · exact Or.inr (by rw [Item.create, hnil]; rfl)

theorem find_snoc (cfg : Config) (key : Bytes) (hitems : c'.items = c.items ++ [it]) :
    c'.find cfg key = (c.find cfg key).or (if it.compare cfg key then some it else none) := by
  rw [find, hitems, List.find?_append, List.find?_singleton]
  rfl

/-- `_cache.insert` links the item, or leaves all as it is. -/
theorem link_cases (it : Item) (c : Cache) :
    c.link it = (false, c) ∨ c.link it = (true, { c with items := c.items ++ [it] }) := by
  rw [link]
  split
  · exact Or.inl rfl
  · exact Or.inr rfl

/-- What `add_overriding` leaves. -/
theorem addOverriding_ok (h : c.addOverriding cfg old ins = .ok (it, c')) :
    it = Item.create cfg c.nextId ins (old.version + 1) ∧
      c'.items = (c.erase true true cfg old).items ++ [it] ∧ c'.nextId = c.nextId + 1 := by
  rcases link_cases ((c.erase true true cfg old).createItem cfg ins (old.version + 1)).1
    ((c.erase true true cfg old).createItem cfg ins (old.version + 1)).2 with hl | hl
  · simp only [addOverriding, hl] at h
    cases h
  · simp only [addOverriding, hl, if_true] at h
    obtain ⟨rfl, rfl⟩ := Prod.mk.inj (Except.ok.inj h)
    exact ⟨rfl, arm_items _, arm_nextId _⟩

/-- What `add_new` leaves. -/
theorem addNew_ok (cfg : Config) (ins : Insertion) (c : Cache) :
    (c.addNew cfg ins).nextId = c.nextId + 1 ∧
      ((c.addNew cfg ins).items = c.items ++ [Item.create cfg c.nextId ins 1] ∨
        (c.addNew cfg ins).items = c.items) := by
  rcases link_cases (c.createItem cfg ins 1).1 (c.createItem cfg ins 1).2 with hl | hl
  · simp only [addNew, hl]
    exact ⟨arm_nextId _, Or.inr (arm_items _)⟩
  · simp only [addNew, hl]
    exact ⟨arm_nextId _, Or.inl (arm_items _)⟩

/-- Overwriting the item of a key counts its version up, and leaves the items of other keys. -/
theorem Indexed.addOverriding (h : Indexed cfg key c) (hf : c.find cfg ins.key = some old)
    (hfit : cfg.hash ins.key = cfg.hash key → ins.KeyFits)
    (hok : c.addOverriding cfg old ins = .ok (it, c')) :
    Indexed cfg key c' ∧
      (ins.key = key → ∃ v, (c.find cfg key).map Item.version = some v ∧
        (c'.find cfg key).map Item.version = some (v + 1)) ∧
      (ins.key ≠ key → c'.find cfg key = c.find cfg key) := by
  obtain ⟨hit, hitems, hn⟩ := addOverriding_ok hok
  have hold : old ∈ c.items := List.mem_of_find?_eq_some hf
  have hcmp : old.compare cfg ins.key = true := List.find?_some hf
  have herased : Indexed cfg key (c.erase true true cfg old) := h.sublist erase_sublist rfl
  have hself : ins.key = key → (c.erase true true cfg old).find cfg key = none := by
    rintro rfl
    exact h.find_erase_self hold hcmp
  have hfind := find_snoc cfg key hitems
  refine ⟨herased.snoc hit hfit hself hitems hn, ?_, ?_⟩
  · intro hk
    have hnew : it.compare cfg key = true := by
      rw [hit]
      exact (compare_create hfit).mpr hk
    rw [hself hk, if_pos hnew] at hfind
    subst hk
    refine ⟨old.version, by rw [hf]; rfl, ?_⟩
    rw [hfind, hit]
    rfl
  · intro hk
    have hnew : ¬ it.compare cfg key = true := by
      rw [hit]
      exact fun hc => hk ((compare_create hfit).mp hc)
    have hother : ¬ old.compare cfg key = true := fun hc => hk (eq_of_compare hcmp hc)
    rw [hfind, if_neg hnew, Option.or_none, h.find_erase hold hother]

/-- A new item for a key that has none leaves the items of other keys. -/
theorem Indexed.addNew (h : Indexed cfg key c) (hf : c.find cfg ins.key = none)
    (hfit : cfg.hash ins.key = cfg.hash key → ins.KeyFits) :
    Indexed cfg key (c.addNew cfg ins) ∧
      (ins.key ≠ key → (c.addNew cfg ins).find cfg key = c.find cfg key) := by
  obtain ⟨hn, hitems | hitems⟩ := addNew_ok cfg ins c
  · refine ⟨h.snoc rfl hfit (fun hk => hk ▸ hf) hitems hn, fun hk => ?_⟩
    have hnew : ¬ (Item.create cfg c.nextId ins 1).compare cfg key = true :=
      fun hc => hk ((compare_create hfit).mp hc)
    rw [find_snoc cfg key hitems, if_neg hnew, Option.or_none]
  · refine ⟨⟨?_, ?_, ?_, ?_⟩, fun _ => by rw [find, hitems]; rfl⟩
    · rw [hitems]
      exact h.ids
    · rw [hitems, hn]
      exact fun b hb => Nat.lt_succ_of_lt (h.fresh b hb)
    · rw [hitems]
      exact h.unique
    · rw [hitems]
      exact h.small

/-! ## Steps -/

variable {e : Event} {r : Reply Item}

theorem Indexed.count (h : Indexed cfg key c) (f : CacheStats → CacheStats) :
    Indexed cfg key (c.count f) := ⟨h.ids, h.fresh, h.unique, h.small⟩

/-- What a step that overwrites the item of `ins.key` does to `key`. -/
theorem Indexed.overridden (h : Indexed cfg key c) (hf : c.find cfg ins.key = some old)
    (hfit : cfg.hash ins.key = cfg.hash key → ins.KeyFits)
    (hok : c.addOverriding cfg old ins = .ok (it, c'))
    (hmut : Mutates key (c.find cfg key) (c'.find cfg key) e r → ins.key = key) :
    Indexed cfg key c' ∧ Touched key (c.find cfg key) (c'.find cfg key) e r := by
  obtain ⟨hidx, hsame, hother⟩ := h.addOverriding hf hfit hok
  refine ⟨hidx, ?_⟩
  by_cases hk : ins.key = key
  · obtain ⟨v, hv, hv'⟩ := hsame hk
    exact .bumped v hv hv'
  · exact .same (hother hk) fun hm => hk (hmut hm)

/-- ... and one that makes an item for `ins.key`. -/
theorem Indexed.made (h : Indexed cfg key c) (hf : c.find cfg ins.key = none)
    (hfit : cfg.hash ins.key = cfg.hash key → ins.KeyFits)
    (hmut : Mutates key (c.find cfg key) ((c.addNew cfg ins).find cfg key) e r → ins.key = key)
    (hcre : ins.key = key → c.find cfg key = none → Creates key (c.find cfg key) e) :
    Indexed cfg key (c.addNew cfg ins) ∧ (Creates key (c.find cfg key) e ∨
      Touched key (c.find cfg key) ((c.addNew cfg ins).find cfg key) e r) := by
  obtain ⟨hidx, hother⟩ := h.addNew hf hfit
  refine ⟨hidx, ?_⟩
  by_cases hk : ins.key = key
  · exact Or.inl (hcre hk (hk ▸ hf))
  · exact Or.inr (.same (hother hk) fun hm => hk (hmut hm))

theorem Indexed.set (h : Indexed cfg key c)
    (hfit : cfg.hash ins.key = cfg.hash key → ins.KeyFits) (hok : c.set cfg ins = .ok (r, c')) :
    Indexed cfg key c' ∧ (Creates key (c.find cfg key) (.set ins) ∨
      Touched key (c.find cfg key) (c'.find cfg key) (.set ins) r) := by
  cases hf : c.find cfg ins.key with
  | none =>
    simp only [Cache.set, hf] at hok
    obtain ⟨rfl, rfl⟩ := Prod.mk.inj (Except.ok.inj hok)
    obtain ⟨hidx, htouch⟩ := h.made (e := .set ins) (r := .set false) hf hfit id fun hk hn => ⟨hk, hn⟩
    exact ⟨hidx.count _, htouch⟩
  | some old =>
    simp only [Cache.set, hf] at hok
    obtain ⟨⟨it, c₁⟩, hover, hret⟩ := bind_ok.mp hok
    obtain ⟨rfl, rfl⟩ := Prod.mk.inj (Except.ok.inj hret)
    obtain ⟨hidx, htouch⟩ := h.overridden (e := .set ins) (r := .set true) hf hfit hover id
    exact ⟨hidx.count _, Or.inr htouch⟩

theorem Indexed.add (h : Indexed cfg key c)
    (hfit : cfg.hash ins.key = cfg.hash key → ins.KeyFits) (hok : c.add cfg ins = .ok (r, c')) :
    Indexed cfg key c' ∧ (Creates key (c.find cfg key) (.add ins) ∨
      Touched key (c.find cfg key) (c'.find cfg key) (.add ins) r) := by
  cases hf : c.find cfg ins.key with
  | none =>
    simp only [Cache.add, hf] at hok
    obtain ⟨rfl, rfl⟩ := Prod.mk.inj (Except.ok.inj hok)
    exact (h.count _).made (e := .add ins) (r := .add true) hf hfit id fun hk hn => ⟨hk, hn⟩
  | some old =>
    simp only [Cache.add, hf] at hok
    obtain ⟨rfl, rfl⟩ := Prod.mk.inj (Except.ok.inj hok)
    exact ⟨h, Or.inr (.same rfl id)⟩

theorem Indexed.replace (h : Indexed cfg key c)
    (hfit : cfg.hash ins.key = cfg.hash key → ins.KeyFits) (hok : c.replace cfg ins = .ok (r, c')) :
    Indexed cfg key c' ∧ Touched key (c.find cfg key) (c'.find cfg key) (.replace ins) r := by
  cases hf : c.find cfg ins.key with
  | none =>
    simp only [Cache.replace, hf] at hok
    obtain ⟨rfl, rfl⟩ := Prod.mk.inj (Except.ok.inj hok)
    exact ⟨h, .same rfl id⟩
  | some old =>
    simp only [Cache.replace, hf] at hok
    obtain ⟨⟨it, c₁⟩, hover, hret⟩ := bind_ok.mp hok
    obtain ⟨rfl, rfl⟩ := Prod.mk.inj (Except.ok.inj hret)
    exact (h.count _).overridden (e := .replace ins) (r := .replace true) hf hfit hover id

theorem Indexed.cas {v : UInt64} (h : Indexed cfg key c)
    (hfit : cfg.hash ins.key = cfg.hash key → ins.KeyFits) (hok : c.cas cfg ins v = .ok (r, c')) :
    Indexed cfg key c' ∧ Touched key (c.find cfg key) (c'.find cfg key) (.cas ins v) r := by
  cases hf : c.find cfg ins.key with
  | none =>
    simp only [Cache.cas, hf] at hok
    obtain ⟨rfl, rfl⟩ := Prod.mk.inj (Except.ok.inj hok)
    exact ⟨h.count _, .same rfl id⟩
  | some old =>
    by_cases hver : old.version = v
    · simp only [Cache.cas, hf, hver, ne_eq, not_true_eq_false, if_false] at hok
      obtain ⟨⟨it, c₁⟩, hover, hret⟩ := bind_ok.mp hok
      obtain ⟨rfl, rfl⟩ := Prod.mk.inj (Except.ok.inj hret)
      exact (h.count _).overridden (e := .cas ins v) (r := .cas .stored) hf hfit hover id
    · simp only [Cache.cas, hf, hver, ne_eq, not_false_eq_true, if_true] at hok
      obtain ⟨rfl, rfl⟩ := Prod.mk.inj (Except.ok.inj hok)
      exact ⟨h.count _, .same rfl id⟩

theorem Indexed.get (h : Indexed cfg key c) (hok : c.get cfg k = .ok (r, c')) :
    Indexed cfg key c' ∧ Touched key (c.find cfg key) (c'.find cfg key) (.get k) r := by
  cases hf : c.find cfg k with
  | none =>
    simp only [Cache.get, hf] at hok
    obtain ⟨rfl, rfl⟩ := Prod.mk.inj (Except.ok.inj hok)
    exact ⟨h.count _, .same rfl id⟩
  | some it =>
    simp only [Cache.get, hf] at hok
    obtain ⟨rfl, rfl⟩ := Prod.mk.inj (Except.ok.inj hok)
    exact ⟨h.count _, .same rfl id⟩

theorem Indexed.remove (h : Indexed cfg key c) (hok : c.remove cfg k = .ok (r, c')) :
    Indexed cfg key c' ∧ Touched key (c.find cfg key) (c'.find cfg key) (.remove k) r := by
  cases hf : c.find cfg k with
  | none =>
    simp only [Cache.remove, hf] at hok
    obtain ⟨rfl, rfl⟩ := Prod.mk.inj (Except.ok.inj hok)
    exact ⟨h.count _, .same rfl id⟩
  | some it =>
    have hit : it ∈ c.items := List.mem_of_find?_eq_some hf
    have hcmp : it.compare cfg k = true := List.find?_some hf
    simp only [Cache.remove, hf] at hok
    obtain ⟨rfl, rfl⟩ := Prod.mk.inj (Except.ok.inj hok)
    refine ⟨(h.count _).sublist erase_sublist rfl, ?_⟩
    by_cases hk : k = key
    · exact .gone ((h.count _).find_erase_self hit (hk ▸ hcmp))
    · exact .same ((h.count _).find_erase hit fun hc => hk (eq_of_compare hcmp hc)) hk

/-- A counter that is overwritten has a value, so its key fits. -/
theorem Indexed.modify {f : UInt64 → UInt64} (h : Indexed cfg key c) (hf : c.find cfg k = some it)
    (hmut : ∀ x y it', Mutates key x y e (.counter (some it') true) → k = key)
    (hmut' : ∀ x y it', ¬ Mutates key x y e (.counter (some it') false))
    (hok : c.modify cfg f k it = .ok (r, c')) :
    Indexed cfg key c' ∧ Touched key (c.find cfg key) (c'.find cfg key) e r := by
  cases hv : dataAsIntegral it.value with
  | none =>
    simp only [Cache.modify, hv] at hok
    obtain ⟨rfl, rfl⟩ := Prod.mk.inj (Except.ok.inj hok)
    exact ⟨h, .same rfl (hmut' _ _ it)⟩
  | some v =>
    simp only [Cache.modify, hv] at hok
    obtain ⟨⟨it', c₁⟩, hover, hret⟩ := bind_ok.mp hok
    obtain ⟨rfl, rfl⟩ := Prod.mk.inj (Except.ok.inj hret)
    refine h.overridden hf (fun hhash => Or.inl ?_) hover (hmut _ _ it')
    have hit : it ∈ c.items := List.mem_of_find?_eq_some hf
    obtain ⟨hkh, hsize, -⟩ := compare_true.mp (List.find?_some hf)
    show k.length ≤ 248
    rcases h.small it hit (hkh.trans hhash) with hle | hzero
    · omega
    · rw [Item.value, hzero, readAt, List.take_zero, show dataAsIntegral [] = none by decide] at hv
      cases hv

theorem Indexed.incr {delta : UInt64} (h : Indexed cfg key c)
    (hok : c.incr cfg k delta = .ok (r, c')) :
    Indexed cfg key c' ∧ Touched key (c.find cfg key) (c'.find cfg key) (.incr k delta) r := by
  cases hf : c.find cfg k with
  | none =>
    simp only [Cache.incr, hf] at hok
    obtain ⟨rfl, rfl⟩ := Prod.mk.inj (Except.ok.inj hok)
    exact ⟨h.count _, .same rfl id⟩
  | some it =>
    simp only [Cache.incr, hf] at hok
    exact (h.count _).modify (e := .incr k delta) hf (fun _ _ _ => id) (fun _ _ _ => id) hok

theorem Indexed.decr {delta : UInt64} (h : Indexed cfg key c)
    (hok : c.decr cfg k delta = .ok (r, c')) :
    Indexed cfg key c' ∧ Touched key (c.find cfg key) (c'.find cfg key) (.decr k delta) r := by
  cases hf : c.find cfg k with
  | none =>
    simp only [Cache.decr, hf] at hok
    obtain ⟨rfl, rfl⟩ := Prod.mk.inj (Except.ok.inj hok)
    exact ⟨h.count _, .same rfl id⟩
  | some it =>
    simp only [Cache.decr, hf] at hok
    exact (h.count _).modify (e := .decr k delta) hf (fun _ _ _ => id) (fun _ _ _ => id) hok

theorem foldl_erase (cfg : Config) (l : List Item) (c : Cache) :
    (l.foldl (fun c it => c.erase false true cfg it) c).items = c.items ∧
      (l.foldl (fun c it => c.erase false true cfg it) c).nextId = c.nextId := by
  induction l generalizing c with
  | nil => exact ⟨rfl, rfl⟩
  | cons it l ih => exact ih _

theorem flushAll_items (cfg : Config) (c : Cache) : (c.flushAll cfg).items = [] :=
  (foldl_erase cfg c.items { c with items := [], flushTimer := none }).1

theorem Indexed.flushAll (h : Indexed cfg key c) :
    Indexed cfg key (c.flushAll cfg) ∧ (c.flushAll cfg).find cfg key = none := by
  obtain ⟨-, hn⟩ := foldl_erase cfg c.items { c with items := [], flushTimer := none }
  refine ⟨h.sublist ?_ hn, ?_⟩
  · rw [flushAll_items]
    exact List.nil_sublist _
  · rw [find, flushAll_items]
    rfl

theorem expireLoop_sublist {exp : List Timer} (h : expireLoop cfg exp c = .ok c') :
    c'.items.Sublist c.items ∧ c'.nextId = c.nextId := by
  induction exp generalizing c with
  | nil =>
    obtain rfl := Except.ok.inj h
    exact ⟨List.Sublist.refl _, rfl⟩
  | cons t exp ih =>
    rw [expireLoop] at h
    cases hf : c.items.find? (·.id = t.id) with
    | none =>
      rw [hf] at h
      cases h
    | some it =>
      rw [hf] at h
      obtain ⟨hs, hn⟩ := ih h
      exact ⟨hs.trans List.filter_sublist, hn⟩

theorem expire_sublist {wall : Int64} (h : c.expire cfg wall = .ok c') :
    c'.items.Sublist c.items ∧ c'.nextId = c.nextId := by
  obtain ⟨⟨exp, alive⟩, -, h⟩ := bind_ok.mp h
  obtain ⟨c₁, hloop, hret⟩ := bind_ok.mp h
  obtain rfl := Except.ok.inj hret
  obtain ⟨hs, hn⟩ := expireLoop_sublist hloop
  exact ⟨hs, hn⟩

/-- What one step does to the item of a key. -/
theorem Indexed.step (h : Indexed cfg key c) (hfit : KeyFits cfg key e)
    (hok : c.step cfg e = .ok (r, c')) :
    Indexed cfg key c' ∧ (Creates key (c.find cfg key) e ∨
      Touched key (c.find cfg key) (c'.find cfg key) e r) := by
  cases e with
  | set ins => exact h.set (hfit ins rfl) hok
  | add ins => exact h.add (hfit ins rfl) hok
  | replace ins => exact (h.replace (hfit ins rfl) hok).imp_right Or.inr
  | cas ins v => exact (h.cas (hfit ins rfl) hok).imp_right Or.inr
  | get k => exact (h.get hok).imp_right Or.inr
  | remove k => exact (h.remove hok).imp_right Or.inr
  | incr k delta => exact (h.incr hok).imp_right Or.inr
  | decr k delta => exact (h.decr hok).imp_right Or.inr
  | flushAll =>
    obtain ⟨-, rfl⟩ := Prod.mk.inj (Except.ok.inj hok)
    exact ⟨h.flushAll.1, Or.inr (.gone h.flushAll.2)⟩
  | flushAt time =>
    obtain ⟨-, rfl⟩ := Prod.mk.inj (Except.ok.inj hok)
    exact ⟨h.sublist (List.Sublist.refl _) rfl, Or.inr (.same rfl id)⟩
  | timer wall =>
    obtain ⟨c₁, hexp, hret⟩ := bind_ok.mp hok
    obtain ⟨-, rfl⟩ := Prod.mk.inj (Except.ok.inj hret)
    obtain ⟨hs, hn⟩ := expire_sublist hexp
    refine ⟨h.sublist hs hn, Or.inr ?_⟩
    rcases h.find_sublist hs hn with hsame | hnone
    · refine .same hsame ?_
      rintro ⟨hbefore, hafter⟩
      exact hbefore (hsame.symm.trans hafter)
    · exact .gone hnone
  | flushTimer =>
    obtain ⟨-, rfl⟩ := Prod.mk.inj (Except.ok.inj hok)
    have h' : Indexed cfg key { c with flushTimer := none } :=
      h.sublist (List.Sublist.refl _) rfl
    exact ⟨h'.flushAll.1, Or.inr (.gone h'.flushAll.2)⟩
  | clock now =>
    obtain ⟨-, rfl⟩ := Prod.mk.inj (Except.ok.inj hok)
    exact ⟨h.sublist (List.Sublist.refl _) rfl, Or.inr (.same rfl id)⟩

/-! ## Runs -/

theorem Indexed.init (now wall : Int64) : Indexed cfg key (Cache.init now wall) where
  ids := List.nodup_nil
  fresh b hb := absurd hb List.not_mem_nil
  unique a ha := absurd ha List.not_mem_nil
  small b hb := absurd hb List.not_mem_nil

theorem next_ok : c.next cfg e = .ok c' ↔ ∃ r, c.step cfg e = .ok (r, c') := by
  rw [next, map_ok]
  constructor
  · rintro ⟨⟨r, c₁⟩, hs, rfl⟩
    exact ⟨r, hs⟩
  · rintro ⟨r, hs⟩
    exact ⟨(r, c'), hs, rfl⟩

theorem Indexed.run {es : List Event} (h : Indexed cfg key c) (hfit : ∀ e ∈ es, KeyFits cfg key e)
    (hr : Run.run (next cfg) c es = .ok c') : Indexed cfg key c' := by
  induction es generalizing c with
  | nil =>
    obtain rfl := Except.ok.inj hr
    exact h
  | cons e es ih =>
    obtain ⟨c₁, hs, hr⟩ := Run.run_cons_ok.mp hr
    obtain ⟨r, hs⟩ := next_ok.mp hs
    exact ih (h.step (hfit e List.mem_cons_self) hs).1
      (fun e' he => hfit e' (List.mem_cons_of_mem _ he)) hr

/-- No step of the run was a successful mutation of the key. -/
def Untouched (cfg : Config) (key : Bytes) (c : Cache) (es : List Event) : Prop :=
  Run.Along (next cfg) (fun c e => ∀ r c', c.step cfg e = .ok (r, c') →
    ¬ Mutates key (c.find cfg key) (c'.find cfg key) e r) c es

/-- No command of the run makes an item for the key. -/
def Uncreated (cfg : Config) (key : Bytes) (c : Cache) (es : List Event) : Prop :=
  Run.Along (next cfg) (fun c e => ¬ Creates key (c.find cfg key) e) c es

/-- Along a run that makes no item for the key, the version counts the mutations up, until the item
is gone. -/
theorem Indexed.versions {es : List Event} (h : Indexed cfg key c)
    (hfit : ∀ e ∈ es, KeyFits cfg key e) (hkeep : Uncreated cfg key c es)
    (hr : Run.run (next cfg) c es = .ok c') :
    c'.find cfg key = none ∨
      ∃ v m, (c.find cfg key).map Item.version = some v ∧
        (c'.find cfg key).map Item.version = some (v + UInt64.ofNat m) ∧ m ≤ es.length ∧
        (m = 0 → Untouched cfg key c es) := by
  induction es generalizing c with
  | nil =>
    obtain rfl := Except.ok.inj hr
    cases hf : c.find cfg key with
    | none => exact Or.inl rfl
    | some it =>
      exact Or.inr ⟨it.version, 0, rfl, by simp, Nat.zero_le _, fun _ => trivial⟩
  | cons e es ih =>
    obtain ⟨c₁, hs, hr⟩ := Run.run_cons_ok.mp hr
    have hkeep' := hkeep.2 c₁ hs
    obtain ⟨r, hstep⟩ := next_ok.mp hs
    obtain ⟨hidx, htouch⟩ := h.step (hfit e List.mem_cons_self) hstep
    rcases ih hidx (fun e' he => hfit e' (List.mem_cons_of_mem _ he)) hkeep' hr with
      hnone | ⟨v, m, hv, hv', hm, hun⟩
    · exact Or.inl hnone
    · refine Or.inr ?_
      rcases htouch.resolve_left hkeep.1 with ⟨hsame, hmut⟩ | ⟨w, hw, hw'⟩ | hgone
      · refine ⟨v, m, hsame ▸ hv, hv', Nat.le_succ_of_le hm, fun h0 => ⟨?_, ?_⟩⟩
        · intro r' c₂ hs'
          obtain ⟨rfl, rfl⟩ := Prod.mk.inj (Except.ok.inj (hstep.symm.trans hs'))
          exact hmut
        · intro c₂ hs'
          obtain rfl := Except.ok.inj (hs.symm.trans hs')
          exact hun h0
      · refine ⟨w, m + 1, hw, ?_, Nat.succ_le_succ hm, fun h0 => absurd h0 (Nat.succ_ne_zero m)⟩
        obtain rfl := Option.some.inj (hw'.symm.trans hv)
        rw [hv', UInt64.ofNat_add, add_comm (UInt64.ofNat m), add_assoc]
        rfl
      · rw [hgone] at hv
        cases hv

/-- When `get` returned an item, and `cas` with its version stores, then no event in between was a
successful mutation of the key, as long as the events in between make no item for the key and are
fewer than 2^64. -/
theorem cas_stored_untouched (cfg : Config) (now wall : Int64) (key : Bytes) (ins : Insertion)
    (before between : List Event) (c₀ c₁ c₂ c₃ : Cache) (it : Item)
    (hbefore : Run.run (next cfg) (Cache.init now wall) before = .ok c₀)
    (hget : c₀.step cfg (.get key) = .ok (.get (some it), c₁))
    (hbetween : Run.run (next cfg) c₁ between = .ok c₂)
    (hcas : c₂.step cfg (.cas ins it.version) = .ok (.cas .stored, c₃)) (hkey : ins.key = key)
    (hfit : ∀ e ∈ before ++ between, KeyFits cfg key e)
    (hkeep : Uncreated cfg key c₁ between) (hlen : between.length < 2 ^ 64) :
    Untouched cfg key c₁ between := by
  have h₀ : Indexed cfg key c₀ :=
    (Indexed.init now wall).run (fun e he => hfit e (List.mem_append_left _ he)) hbefore
  have h₁ : Indexed cfg key c₁ := (h₀.get hget).1
  have hv₁ : (c₁.find cfg key).map Item.version = some it.version := by
    cases hf : c₀.find cfg key with
    | none =>
      simp only [Cache.step, Cache.get, hf] at hget
      cases hget
    | some it' =>
      simp only [Cache.step, Cache.get, hf] at hget
      obtain ⟨hr, rfl⟩ := Prod.mk.inj (Except.ok.inj hget)
      obtain rfl := Option.some.inj (Reply.get.inj hr)
      rw [find_count, hf]
      rfl
  have hv₂ : (c₂.find cfg key).map Item.version = some it.version := by
    subst hkey
    cases hf : c₂.find cfg ins.key with
    | none =>
      simp only [Cache.step, Cache.cas, hf] at hcas
      cases hcas
    | some it' =>
      by_cases hver : it'.version = it.version
      · rw [Option.map_some, hver]
      · simp only [Cache.step, Cache.cas, hf, hver, ne_eq, not_false_eq_true, if_true] at hcas
        cases hcas
  rcases h₁.versions (fun e he => hfit e (List.mem_append_right _ he)) hkeep hbetween with
    hnone | ⟨v, m, hv, hv', hm, hun⟩
  · rw [hnone] at hv₂
    cases hv₂
  · obtain rfl := Option.some.inj (hv.symm.trans hv₁)
    have hzero : UInt64.ofNat m = 0 := by
      have heq := Option.some.inj (hv'.symm.trans hv₂)
      exact add_eq_left.mp heq
    apply hun
    have hmod := congrArg UInt64.toNat hzero
    rw [UInt64.toNat_ofNat_of_lt' (Nat.lt_of_le_of_lt hm hlen)] at hmod
    exact hmod

/-- Another key is stored in between. -/
theorem cas_stored_untouched_other :
    ∃ c₁ c₂ : Cache, Run.run (next ⟨fun _ => 0, 80⟩) c₁ [.set ⟨[98], [], [50], {}⟩] = .ok c₂ ∧
      Untouched ⟨fun _ => 0, 80⟩ [97] c₁ [.set ⟨[98], [], [50], {}⟩] := by
  refine ⟨_, _, rfl, cas_stored_untouched ⟨fun _ => 0, 80⟩ 0 0 [97] ⟨[97], [], [51], {}⟩
    [.set ⟨[97], [], [49], {}⟩] [.set ⟨[98], [], [50], {}⟩] _ _ _ _ _ rfl rfl rfl rfl rfl ?_ ?_ ?_⟩
  · decide
  · exact ⟨fun h => absurd h.1 (by decide), fun c hc => trivial⟩
  · decide

/-- A key that is deleted and added again has version 1 again, so the `cas` of a client that has
seen the old item stores. -/
theorem cas_stored_after_add :
    ∃ c₀ c₁ c₂ c₃ it,
      Run.run (next ⟨fun _ => 0, 80⟩) (Cache.init 0 0) [.set ⟨[97], [], [49], {}⟩] = .ok c₀ ∧
      c₀.step ⟨fun _ => 0, 80⟩ (.get [97]) = .ok (.get (some it), c₁) ∧
      Run.run (next ⟨fun _ => 0, 80⟩) c₁ [.remove [97], .add ⟨[97], [], [50], {}⟩] = .ok c₂ ∧
      c₂.step ⟨fun _ => 0, 80⟩ (.cas ⟨[97], [], [51], {}⟩ it.version) = .ok (.cas .stored, c₃) ∧
      ¬ Untouched ⟨fun _ => 0, 80⟩ [97] c₁ [.remove [97], .add ⟨[97], [], [50], {}⟩] := by
  refine ⟨_, _, _, _, _, rfl, rfl, rfl, rfl, ?_⟩
  intro h
  exact h.1 _ _ rfl rfl

end Seastar.Memcached.Cache
