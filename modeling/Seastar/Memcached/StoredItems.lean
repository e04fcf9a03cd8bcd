import Seastar.Memcached.StoreLine

/-!
What the parser accepts and the cache keeps. The sizes of the key and of the ascii prefix are stored
in `uint8_t`s and their offsets computed in `uint8_t`s, while the grammar bounds neither. A key of
more than 248 bytes is not found again, and a prefix of more than 255 bytes is cut off. A prefix of
249 to 255 bytes has the value written over it, so it is kept if one of the two starts with the other.
-/

namespace Seastar.Memcached

open Lib

/-! ## The texts of an item -/

section Memory

variable {mem p v : Bytes} {i : Nat}

/-- Writing the front of a text over it changes nothing. -/
theorem memcpy_memcpy_longer (hv : v <+: p) (hi : i ≤ mem.length) :
    memcpy (memcpy mem i p) i v = memcpy mem i p := by
  obtain ⟨t, rfl⟩ := hv
  have hlen : (mem.take i).length = i := List.length_take_of_le hi
  have htake : (memcpy mem i (v ++ t)).take i = mem.take i := by
    rw [memcpy, List.append_assoc, List.take_left' hlen]
  have hdrop : (memcpy mem i (v ++ t)).drop (i + v.length) = t ++ mem.drop (i + (v ++ t).length) := by
    rw [memcpy, List.append_assoc, ← List.drop_drop, List.drop_left' hlen, List.append_assoc,
      List.drop_left]
  rw [memcpy, htake, hdrop, memcpy]
  simp only [List.append_assoc]

/-- What is read at one position are two texts that start alike. -/
theorem readAt_comparable (mem : Bytes) (i m n : Nat) :
    readAt mem i m <+: readAt mem i n ∨ readAt mem i n <+: readAt mem i m :=
  List.prefix_or_prefix_of_prefix (List.take_prefix _ _) (List.take_prefix _ _)

/-- Two texts that start alike and are written at one position are both read back. -/
theorem readAt_same (hi : i + p.length ≤ mem.length) (hv : i + v.length ≤ mem.length)
    (h : v <+: p ∨ p <+: v) :
    readAt (memcpy (memcpy mem i p) i v) i p.length = p ∧
      readAt (memcpy (memcpy mem i p) i v) i v.length = v := by
  have hlen : (memcpy mem i p).length = mem.length := length_memcpy hi
  have hval : readAt (memcpy (memcpy mem i p) i v) i v.length = v :=
    readAt_memcpy_same (by rw [hlen]; exact hv)
  refine ⟨?_, hval⟩
  rcases h with h | h
  · rw [memcpy_memcpy_longer h (by omega)]
    exact readAt_memcpy_same hi
  · have htake : readAt (memcpy (memcpy mem i p) i v) i p.length =
        (readAt (memcpy (memcpy mem i p) i v) i v.length).take p.length := by
      rw [readAt, readAt, List.take_take, Nat.min_eq_left h.length_le]
    rw [htake, hval]
    exact (List.prefix_iff_eq_take.mp h).symm

end Memory

/-- The offset behind a text of 249 to 255 bytes wraps around to 0. -/
theorem toNat_alignUp8_wraps {n : Nat} (hlo : 248 < n) (hhi : n ≤ 255) :
    (alignUp8 (UInt8.ofNat n) fieldAlignment).toNat = 0 := by
  have hall : ∀ m : Fin 256, 248 < (m : Nat) →
      (alignUp8 (UInt8.ofNat m) fieldAlignment).toNat = 0 := by decide +kernel
  exact hall ⟨n, Nat.lt_succ_of_le hhi⟩ hlo

/-- The texts of the insertion are kept in an item. -/
structure Insertion.Kept (ins : Insertion) : Prop where
  key_le : ins.key.length ≤ 248
  prefix_le : ins.asciiPrefix.length ≤ 255
  apart : ins.asciiPrefix.length ≤ 248 ∨ ins.data <+: ins.asciiPrefix ∨ ins.asciiPrefix <+: ins.data

namespace Item

variable {cfg : Config} {ins : Insertion} {id : Nat} {version : UInt64}

/-- What is kept is read back. -/
theorem create_kept (cfg : Config) (id : Nat) (version : UInt64) (h : ins.Kept) :
    (create cfg id ins version).key = ins.key ∧
      (create cfg id ins version).asciiPrefix = ins.asciiPrefix ∧
      (create cfg id ins version).value = ins.data := by
  have hkey : ins.key.length < 2 ^ 32 := Nat.lt_of_le_of_lt h.key_le (by decide)
  refine ⟨key_create cfg id version (Or.inl h.key_le), ?_⟩
  rcases Nat.lt_or_ge 248 ins.asciiPrefix.length with hlong | hle
  · have hwraps := toNat_alignUp8_wraps hlong h.prefix_le
    have hpos : prefixPos (UInt8.ofNat ins.key.length) ≤ (ins.key.length + 7) / 8 * 8 :=
      toNat_alignUp8_le _
    have hsize : ins.dataSize = (ins.key.length + 7) / 8 * 8 +
        (ins.asciiPrefix.length + 7) / 8 * 8 + ins.data.length := by
      rw [Insertion.dataSize, toNat_alignUp_size hkey,
        toNat_alignUp_size (Nat.lt_of_le_of_lt h.prefix_le (by decide))]
    have hmem : (memcpy (List.replicate ins.dataSize 0) 0 ins.key).length = ins.dataSize := by
      rw [length_memcpy, List.length_replicate]
      rw [List.length_replicate]
      omega
    have hkeySize : (UInt8.ofNat ins.key.length).toNat = ins.key.length :=
      toNat_size (by have := h.key_le; omega)
    simp only [asciiPrefix, value, create, toNat_size h.prefix_le, hkeySize, List.take_length, valuePos,
      hwraps, Nat.add_zero]
    apply readAt_same
    · rw [hmem]
      omega
    · rw [hmem]
      omega
    · exact h.apart.resolve_left (by omega)
  · exact tail_create cfg id version hkey (Or.inl hle)

/-- An item that answers to its key and has its texts keeps them. -/
theorem kept_of_create (hcmp : (create cfg id ins version).compare cfg ins.key = true)
    (hpre : (create cfg id ins version).asciiPrefix = ins.asciiPrefix)
    (hval : (create cfg id ins version).value = ins.data) (hkey : 32 ∉ ins.key)
    (hspace : ins.asciiPrefix.head? = some 32) : ins.Kept := by
  obtain ⟨-, hsize, hread⟩ := Cache.compare_true.mp hcmp
  have hkeySize : (UInt8.ofNat ins.key.length).toNat = ins.key.length := hsize
  have hle : ins.key.length ≤ 255 := by
    have := (UInt8.ofNat ins.key.length).toNat_lt
    omega
  have hprefix : ins.asciiPrefix.length ≤ 255 := by
    have hlen := congrArg List.length hpre
    have := (UInt8.ofNat ins.asciiPrefix.length).toNat_lt
    rw [asciiPrefix, readAt, List.length_take] at hlen
    have hfield : (create cfg id ins version).asciiPrefixSize =
      UInt8.ofNat ins.asciiPrefix.length := rfl
    rw [hfield] at hlen
    omega
  refine ⟨?_, hprefix, ?_⟩
  · by_contra hlong
    have hpos : prefixPos (create cfg id ins version).keySize = 0 :=
      toNat_alignUp8_wraps (by omega) hle
    rw [asciiPrefix, hpos] at hpre
    rw [key] at hread
    -- the key and the prefix start alike, and only the prefix starts with a space
    have hhead : ins.key.head? = ins.asciiPrefix.head? := by
      have hne : ins.key ≠ [] := by
        rintro h
        rw [h] at hlong
        exact hlong (by decide)
      have hne' : ins.asciiPrefix ≠ [] := by
        rintro h
        rw [h] at hspace
        cases hspace
      have hcomp := readAt_comparable (create cfg id ins version).data 0
        (create cfg id ins version).keySize.toNat (create cfg id ins version).asciiPrefixSize.toNat
      rw [hread, hpre] at hcomp
      rcases hcomp with ⟨t, ht⟩ | ⟨t, ht⟩
      · rw [← ht, List.head?_append_of_ne_nil _ hne]
      · rw [← ht, List.head?_append_of_ne_nil _ hne']
    rw [hspace] at hhead
    exact hkey (List.mem_of_mem_head? hhead)
  · rcases Nat.lt_or_ge 248 ins.asciiPrefix.length with hlong | hshort
    · refine Or.inr ?_
      have hpos : valuePos (create cfg id ins version).keySize
          (create cfg id ins version).asciiPrefixSize =
            prefixPos (create cfg id ins version).keySize := by
        rw [valuePos]
        show _ + (alignUp8 (UInt8.ofNat ins.asciiPrefix.length) fieldAlignment).toNat = _
        rw [toNat_alignUp8_wraps hlong hprefix, Nat.add_zero]
      rw [value, hpos] at hval
      rw [← hval, ← hpre]
      exact readAt_comparable _ _ _ _
    · exact Or.inl hshort

end Item

namespace Cache

variable {cfg : Config} {c c' : Cache} {it old a b : Item} {ins : Insertion} {key : Bytes} {e : Event}
  {r : Reply Item}

/-! ## The items of a cache -/

/-- No two items are equal, and none is there twice. -/
structure Distinct (c : Cache) : Prop where
  ids : (c.items.map Item.id).Nodup
  fresh : ∀ it ∈ c.items, it.id < c.nextId
  apart : ∀ a ∈ c.items, ∀ b ∈ c.items, a.equal b = true → a = b

/-- Two items that answer to one key are equal. -/
theorem equal_of_compare (ha : a.compare cfg key = true) (hb : b.compare cfg key = true) :
    a.equal b = true := by
  obtain ⟨hhash, hsize, hkey⟩ := compare_true.mp ha
  obtain ⟨hhash', hsize', hkey'⟩ := compare_true.mp hb
  simp only [Item.equal, Bool.and_eq_true, beq_iff_eq]
  exact ⟨⟨hhash.trans hhash'.symm, UInt8.toNat_inj.mp (hsize.trans hsize'.symm)⟩,
    hkey.trans hkey'.symm⟩

theorem compare_of_equal (hab : a.equal b = true) (hb : b.compare cfg key = true) :
    a.compare cfg key = true := by
  simp only [Item.equal, Bool.and_eq_true, beq_iff_eq] at hab
  obtain ⟨⟨hhash, hsize⟩, hkey⟩ := hab
  obtain ⟨hhash', hsize', hkey'⟩ := compare_true.mp hb
  exact compare_true.mpr ⟨hhash.trans hhash', by rw [hsize, hsize'], hkey.trans hkey'⟩

theorem equal_symm (hab : a.equal b = true) : b.equal a = true := by
  simp only [Item.equal, Bool.and_eq_true, beq_iff_eq] at hab ⊢
  exact ⟨⟨hab.1.1.symm, hab.1.2.symm⟩, hab.2.symm⟩

theorem Distinct.sublist (h : Distinct c) (hs : c'.items.Sublist c.items)
    (hn : c.nextId ≤ c'.nextId) : Distinct c' where
  ids := h.ids.sublist (hs.map _)
  fresh b hb := Nat.lt_of_lt_of_le (h.fresh b (hs.subset hb)) hn
  apart a ha b hb := h.apart a (hs.subset ha) b (hs.subset hb)

theorem Distinct.find_some (h : Distinct c) (hit : it ∈ c.items) (hcmp : it.compare cfg key = true) :
    c.find cfg key = some it := by
  cases hf : c.find cfg key with
  | none => exact absurd hcmp (find_none.mp hf it hit)
  | some b =>
    have hb : b.compare cfg key = true := List.find?_some hf
    rw [h.apart b (List.mem_of_find?_eq_some hf) it hit (equal_of_compare hb hcmp)]

/-- A new item that is equal to none. -/
theorem Distinct.snoc (h : Distinct c) (hid : it.id = c.nextId)
    (hnew : ∀ b ∈ c.items, ¬ b.equal it = true) (hitems : c'.items = c.items ++ [it])
    (hn : c'.nextId = c.nextId + 1) : Distinct c' where
  ids := by
    rw [hitems]
    exact Keyed.nodup_snoc h.ids fun b hb => hid ▸ Nat.ne_of_lt (h.fresh b hb)
  fresh b hb := by
    rw [hitems, List.mem_append, List.mem_singleton] at hb
    rw [hn]
    rcases hb with hb | rfl
    · exact Nat.lt_succ_of_lt (h.fresh b hb)
    · rw [hid]
      exact Nat.lt_succ_self _
  apart a ha b hb hab := by
    rw [hitems, List.mem_append, List.mem_singleton] at ha hb
    rcases ha with ha | rfl
    · rcases hb with hb | rfl
      · exact h.apart a ha b hb hab
      · exact absurd hab (hnew a ha)
    · rcases hb with hb | rfl
      · exact absurd (equal_symm hab) (hnew b hb)
      · rfl

/-- An item that is linked is equal to none before. -/
theorem link_true (h : c.link it = (true, c')) : ∀ b ∈ c.items, ¬ b.equal it = true := by
  rw [link] at h
  split at h
  · cases h
  · rename_i hany
    intro b hb heq
    exact hany (List.any_eq_true.mpr ⟨b, hb, heq⟩)

theorem link_apart (h : ∀ b ∈ c.items, ¬ b.equal it = true) :
    c.link it = (true, { c with items := c.items ++ [it] }) := by
  have hany : ¬ (c.items.any (·.equal it)) = true := by
    rw [List.any_eq_true]
    rintro ⟨b, hb, heq⟩
    exact h b hb heq
  rw [link, if_neg hany]

theorem Distinct.addOverriding (h : Distinct c) (hok : c.addOverriding cfg old ins = .ok (it, c')) :
    Distinct c' := by
  obtain ⟨hit, hitems, hn⟩ := addOverriding_ok hok
  have herased : Distinct (c.erase true true cfg old) := h.sublist erase_sublist (Nat.le_refl _)
  refine herased.snoc (by rw [hit]; rfl) ?_ hitems hn
  rcases link_cases ((c.erase true true cfg old).createItem cfg ins (old.version + 1)).1
    ((c.erase true true cfg old).createItem cfg ins (old.version + 1)).2 with hl | hl
  · simp only [Cache.addOverriding, hl] at hok
    cases hok
  · have hnew := link_true hl
    rw [hit]
    exact hnew

theorem Distinct.addNew (h : Distinct c) : Distinct (c.addNew cfg ins) := by
  obtain ⟨hn, hitems⟩ := addNew_ok cfg ins c
  rcases link_cases (c.createItem cfg ins 1).1 (c.createItem cfg ins 1).2 with hl | hl
  · refine h.sublist ?_ (by omega)
    simp only [Cache.addNew, hl, account, Cache.count, arm_items]
    exact List.Sublist.refl _
  · have hnew := link_true hl
    refine @Distinct.snoc c _ (Item.create cfg c.nextId ins 1) h rfl hnew ?_ hn
    simp only [Cache.addNew, hl, account, Cache.count, arm_items]
    rfl

theorem Distinct.count (h : Distinct c) (f : CacheStats → CacheStats) : Distinct (c.count f) :=
  ⟨h.ids, h.fresh, h.apart⟩

theorem Distinct.set (h : Distinct c) (hok : c.set cfg ins = .ok (r, c')) : Distinct c' := by
  cases hf : c.find cfg ins.key with
  | none =>
    simp only [Cache.set, hf] at hok
    obtain ⟨-, rfl⟩ := Prod.mk.inj (Except.ok.inj hok)
    exact h.addNew.count _
  | some old =>
    simp only [Cache.set, hf] at hok
    obtain ⟨⟨it, c₁⟩, hover, hret⟩ := bind_ok.mp hok
    obtain ⟨-, rfl⟩ := Prod.mk.inj (Except.ok.inj hret)
    exact (h.addOverriding hover).count _

theorem Distinct.modify {f : UInt64 → UInt64} (h : Distinct c)
    (hok : c.modify cfg f key it = .ok (r, c')) : Distinct c' := by
  rw [Cache.modify] at hok
  split at hok
  · obtain ⟨-, rfl⟩ := Prod.mk.inj (Except.ok.inj hok)
    exact h
  · obtain ⟨⟨it', c₁⟩, hover, hret⟩ := bind_ok.mp hok
    obtain ⟨-, rfl⟩ := Prod.mk.inj (Except.ok.inj hret)
    exact h.addOverriding hover

/-- No step makes two items equal. -/
theorem Distinct.step (h : Distinct c) (hok : c.step cfg e = .ok (r, c')) : Distinct c' := by
  have hflush : ∀ c : Cache, Distinct c → Distinct (c.flushAll cfg) := by
    intro c h
    obtain ⟨-, hn⟩ := foldl_erase cfg c.items { c with items := [], flushTimer := none }
    refine h.sublist ?_ (Nat.le_of_eq hn.symm)
    rw [flushAll_items]
    exact List.nil_sublist _
  cases e with
  | set ins => exact h.set hok
  | add ins =>
    rw [Cache.step, Cache.add] at hok
    split at hok
    · obtain ⟨-, rfl⟩ := Prod.mk.inj (Except.ok.inj hok)
      exact h
    · obtain ⟨-, rfl⟩ := Prod.mk.inj (Except.ok.inj hok)
      exact (h.count _).addNew
  | replace ins =>
    rw [Cache.step, Cache.replace] at hok
    split at hok
    · obtain ⟨-, rfl⟩ := Prod.mk.inj (Except.ok.inj hok)
      exact h
    · obtain ⟨⟨it, c₁⟩, hover, hret⟩ := bind_ok.mp hok
      obtain ⟨-, rfl⟩ := Prod.mk.inj (Except.ok.inj hret)
      exact (h.count _).addOverriding hover
  | cas ins v =>
    rw [Cache.step, Cache.cas] at hok
    split at hok
    · obtain ⟨-, rfl⟩ := Prod.mk.inj (Except.ok.inj hok)
      exact h.count _
    · split at hok
      · obtain ⟨-, rfl⟩ := Prod.mk.inj (Except.ok.inj hok)
        exact h.count _
      · obtain ⟨⟨it, c₁⟩, hover, hret⟩ := bind_ok.mp hok
        obtain ⟨-, rfl⟩ := Prod.mk.inj (Except.ok.inj hret)
        exact (h.count _).addOverriding hover
  | get k =>
    rw [Cache.step, Cache.get] at hok
    split at hok
    all_goals
      obtain ⟨-, rfl⟩ := Prod.mk.inj (Except.ok.inj hok)
      exact h.count _
  | remove k =>
    rw [Cache.step, Cache.remove] at hok
    split at hok
    · obtain ⟨-, rfl⟩ := Prod.mk.inj (Except.ok.inj hok)
      exact h.count _
    · obtain ⟨-, rfl⟩ := Prod.mk.inj (Except.ok.inj hok)
      exact (h.count _).sublist erase_sublist (Nat.le_refl _)
  | incr k delta =>
    rw [Cache.step, Cache.incr] at hok
    split at hok
    · obtain ⟨-, rfl⟩ := Prod.mk.inj (Except.ok.inj hok)
      exact h.count _
    · exact (h.count _).modify hok
  | decr k delta =>
    rw [Cache.step, Cache.decr] at hok
    split at hok
    · obtain ⟨-, rfl⟩ := Prod.mk.inj (Except.ok.inj hok)
      exact h.count _
    · exact (h.count _).modify hok
  | flushAll =>
    obtain ⟨-, rfl⟩ := Prod.mk.inj (Except.ok.inj hok)
    exact hflush c h
  | flushAt time =>
    obtain ⟨-, rfl⟩ := Prod.mk.inj (Except.ok.inj hok)
    exact ⟨h.ids, h.fresh, h.apart⟩
  | timer wall =>
    obtain ⟨c₁, hexp, hret⟩ := bind_ok.mp hok
    obtain ⟨-, rfl⟩ := Prod.mk.inj (Except.ok.inj hret)
    obtain ⟨hs, hn⟩ := expire_sublist hexp
    exact h.sublist hs (Nat.le_of_eq hn.symm)
  | flushTimer =>
    obtain ⟨-, rfl⟩ := Prod.mk.inj (Except.ok.inj hok)
    exact hflush _ ⟨h.ids, h.fresh, h.apart⟩
  | clock now =>
    obtain ⟨-, rfl⟩ := Prod.mk.inj (Except.ok.inj hok)
    exact ⟨h.ids, h.fresh, h.apart⟩

theorem Distinct.init (now wall : Int64) : Distinct (Cache.init now wall) where
  ids := List.nodup_nil
  fresh _ hb := absurd hb List.not_mem_nil
  apart _ ha := absurd ha List.not_mem_nil

theorem Distinct.run {es : List Event} (h : Distinct c) (hr : Run.run (next cfg) c es = .ok c') :
    Distinct c' := by
  refine Run.run_keeps (fun c e c' h hs => ?_) h hr
  obtain ⟨r, hs⟩ := next_ok.mp hs
  exact h.step hs

/-! ## A set -/

/-- What `set` leaves: the items that answer to the key are made from the insertion. -/
theorem Distinct.set_made (h : Distinct c) (hok : c.set cfg ins = .ok (r, c')) (hit : it ∈ c'.items)
    (hcmp : it.compare cfg ins.key = true) : ∃ id v, it = Item.create cfg id ins v := by
  cases hf : c.find cfg ins.key with
  | none =>
    simp only [Cache.set, hf] at hok
    obtain ⟨-, rfl⟩ := Prod.mk.inj (Except.ok.inj hok)
    have hold : it ∉ c.items := fun h => find_none.mp hf it h hcmp
    replace hit : it ∈ (c.addNew cfg ins).items := hit
    rcases (addNew_ok cfg ins c).2 with hitems | hitems
    · rw [hitems, List.mem_append, List.mem_singleton] at hit
      exact ⟨_, _, hit.resolve_left hold⟩
    · rw [hitems] at hit
      exact absurd hit hold
  | some old =>
    simp only [Cache.set, hf] at hok
    obtain ⟨⟨it', c₁⟩, hover, hret⟩ := bind_ok.mp hok
    obtain ⟨-, rfl⟩ := Prod.mk.inj (Except.ok.inj hret)
    obtain ⟨hit', hitems, -⟩ := addOverriding_ok hover
    have hold : old.compare cfg ins.key = true := List.find?_some hf
    replace hit : it ∈ c₁.items := hit
    rw [hitems, List.mem_append, List.mem_singleton] at hit
    rcases hit with hit | rfl
    · obtain ⟨hit, hid⟩ := Keyed.mem_filter_ne.mp hit
      rw [h.apart it hit old (List.mem_of_find?_eq_some hf) (equal_of_compare hcmp hold)] at hid
      exact absurd rfl hid
    · exact ⟨_, _, hit'⟩

theorem length_erase (h : Distinct c) (hit : it ∈ c.items) (t : Bool) :
    (c.erase true t cfg it).items.length + 1 = c.items.length := by
  obtain ⟨l₁, l₂, hl, hfilter⟩ := Keyed.split h.ids hit
  show (c.items.filter _).length + 1 = _
  rw [hfilter, hl]
  simp only [List.length_append, List.length_cons]
  omega

/-- A set whose item answers to its key. -/
theorem Distinct.set_ok (h : Distinct c)
    (hcmp : ∀ id v, (Item.create cfg id ins v).compare cfg ins.key = true) :
    ∃ replaced c' v, c.set cfg ins = .ok (.set replaced, c') ∧
      Item.create cfg c.nextId ins v ∈ c'.items ∧
      (∀ old, c.find cfg ins.key = some old → replaced = true ∧
        c'.items.length = c.items.length) ∧
      (c.find cfg ins.key = none → replaced = false ∧
        c'.stats.bytes = c.stats.bytes + insertionSize cfg ins) := by
  cases hf : c.find cfg ins.key with
  | none =>
    have hnew : ∀ b ∈ c.items, ¬ b.equal (Item.create cfg c.nextId ins 1) = true :=
      fun b hb heq => find_none.mp hf b hb (compare_of_equal heq (hcmp _ _))
    have hlink : (c.createItem cfg ins 1).2.link (c.createItem cfg ins 1).1 = _ :=
      link_apart (c := (c.createItem cfg ins 1).2) hnew
    refine ⟨false, _, 1, by simp only [Cache.set, hf]; rfl, ?_, ?_, ?_⟩
    · simp only [Cache.addNew, hlink, account, Cache.count, arm_items]
      exact List.mem_append_right _ (List.mem_singleton_self _)
    · intro old hold
      cases hold
    · intro _
      refine ⟨rfl, ?_⟩
      simp only [Cache.addNew, hlink, account, Cache.count, arm_bytes]
      rfl
  | some old =>
    have hold : old ∈ c.items := List.mem_of_find?_eq_some hf
    have holdc : old.compare cfg ins.key = true := List.find?_some hf
    have hnew : ∀ b ∈ (c.erase true true cfg old).items,
        ¬ b.equal (Item.create cfg c.nextId ins (old.version + 1)) = true := by
      intro b hb heq
      obtain ⟨hb, hid⟩ := Keyed.mem_filter_ne.mp hb
      have hbc : b.compare cfg ins.key = true := compare_of_equal heq (hcmp _ _)
      rw [h.apart b hb old hold (equal_of_compare hbc holdc)] at hid
      exact hid rfl
    have hlink : ((c.erase true true cfg old).createItem cfg ins (old.version + 1)).2.link
        ((c.erase true true cfg old).createItem cfg ins (old.version + 1)).1 = _ :=
      link_apart (c := ((c.erase true true cfg old).createItem cfg ins (old.version + 1)).2) hnew
    have hitems : ∀ c₁ : Cache, c₁.items = (c.erase true true cfg old).items ++
        [Item.create cfg c.nextId ins (old.version + 1)] → c₁.items.length = c.items.length := by
      intro c₁ hc₁
      rw [hc₁, List.length_append, List.length_singleton, length_erase h hold]
    refine ⟨true, _, old.version + 1, by
      simp only [Cache.set, hf, Cache.addOverriding, hlink, if_true, ok_bind]; rfl, ?_, ?_, ?_⟩
    · simp only [account, Cache.count, arm_items]
      exact List.mem_append_right _ (List.mem_singleton_self _)
    · intro old' hold'
      refine ⟨rfl, hitems _ ?_⟩
      simp only [account, Cache.count, arm_items]
      rfl
    · intro hnone
      cases hnone

/-! ## What is stored is there -/

/-- `set`, with the slab allocator: it throws for an item that is larger than a slab page. -/
def setInSlab (slabPageSize : UInt64) (cfg : Config) (ins : Insertion) (c : Cache) :
    Except Fault (Reply Item × Cache) :=
  if insertionSize cfg ins ≤ slabPageSize then c.set cfg ins else .error .badAlloc

/-- The event changes no item. -/
def Event.isQuiet : Event → Bool
  | .get _ => true
  | .clock _ => true
  | _ => false

/-- The insertion is set, and is there until something is changed: it is read as it is, setting it
again replaces it, and removing it releases what it was charged for. -/
def Stores (slabPageSize : UInt64) (cfg : Config) (ins : Insertion) (c : Cache) : Prop :=
  ∃ replaced c₁, c.setInSlab slabPageSize cfg ins = .ok (.set replaced, c₁) ∧
    ∀ es c₂, (∀ e ∈ es, e.isQuiet = true) → Run.run (next cfg) c₁ es = .ok c₂ →
      (∃ it c₃, c₂.get cfg ins.key = .ok (.get (some it), c₃) ∧
        it.key = ins.key ∧ it.asciiPrefix = ins.asciiPrefix ∧ it.value = ins.data) ∧
      (∀ expiry, ∃ c₃, c₂.setInSlab slabPageSize cfg { ins with expiry } = .ok (.set true, c₃) ∧
        c₃.items.length = c₂.items.length) ∧
      ∃ c₃, c₂.remove cfg ins.key = .ok (.remove true, c₃) ∧
        c₃.items.length + 1 = c₂.items.length ∧
        c₃.stats.bytes = c₂.stats.bytes - insertionSize cfg ins ∧
        (replaced = false → c₃.stats.bytes = c.stats.bytes)

/-- Quiet events leave the items and `_bytes`. -/
theorem run_quiet {es : List Event} (hquiet : ∀ e ∈ es, e.isQuiet = true)
    (hr : Run.run (next cfg) c es = .ok c') :
    c'.items = c.items ∧ c'.stats.bytes = c.stats.bytes := by
  induction es generalizing c with
  | nil =>
    obtain rfl := Except.ok.inj hr
    exact ⟨rfl, rfl⟩
  | cons e es ih =>
    obtain ⟨c₁, hs, hr⟩ := Run.run_cons_ok.mp hr
    obtain ⟨r, hs⟩ := next_ok.mp hs
    obtain ⟨hitems, hbytes⟩ := ih (fun e' he' => hquiet e' (List.mem_cons_of_mem _ he')) hr
    have hstep : c₁.items = c.items ∧ c₁.stats.bytes = c.stats.bytes := by
      have hq := hquiet e List.mem_cons_self
      cases e with
      | get key =>
        rw [step, get] at hs
        split at hs
        all_goals
          obtain ⟨-, rfl⟩ := Prod.mk.inj (Except.ok.inj hs)
          exact ⟨rfl, rfl⟩
      | clock now =>
        obtain ⟨-, rfl⟩ := Prod.mk.inj (Except.ok.inj hs)
        exact ⟨rfl, rfl⟩
      | _ => cases hq
    exact ⟨hitems.trans hstep.1, hbytes.trans hstep.2⟩

/-- An item that keeps its texts is charged for what was asked for. -/
theorem itemSize_kept {id : Nat} {v : UInt64} (h : ins.Kept) :
    itemSize cfg (Item.create cfg id ins v) = insertionSize cfg ins := by
  have hkey : (UInt8.ofNat ins.key.length).toNat = ins.key.length :=
    toNat_size (by have := h.key_le; omega)
  show cfg.sizeofItem + alignUp (UInt64.ofNat (UInt8.ofNat _).toNat) 8 +
    alignUp (UInt64.ofNat (UInt8.ofNat _).toNat) 8 + _ = _
  rw [hkey, toNat_size h.prefix_le]
  rfl

theorem compare_kept {id : Nat} {v : UInt64} (h : ins.Kept) :
    (Item.create cfg id ins v).compare cfg ins.key = true :=
  (compare_create fun _ => Or.inl h.key_le).mpr rfl

/-- Removing a key erases the item that is found. -/
theorem remove_found (hf : c.find cfg key = some it) :
    ∃ c', c.remove cfg key = .ok (.remove true, c') ∧
      c'.items = (c.erase true true cfg it).items ∧
      c'.stats.bytes = c.stats.bytes - itemSize cfg it := by
  refine ⟨(c.count fun s => { s with deleteHits := s.deleteHits + 1 }).erase true true cfg it,
    ?_, rfl, rfl⟩
  simp only [remove, hf]

/-- What is kept is stored. -/
theorem Distinct.stores {slabPageSize : UInt64} (h : Distinct c) (hkept : ins.Kept)
    (hpage : insertionSize cfg ins ≤ slabPageSize) : Stores slabPageSize cfg ins c := by
  obtain ⟨replaced, c₁, v, hset, hnew, hsome, hnone⟩ := @Distinct.set_ok cfg c ins h fun _ _ => compare_kept hkept
  refine ⟨replaced, c₁, by rw [setInSlab, if_pos hpage, hset], fun es c₂ hquiet hr => ?_⟩
  obtain ⟨hitems, hbytes⟩ := run_quiet hquiet hr
  have h₂ : Distinct c₂ := (h.set hset).run hr
  rw [← hitems] at hnew
  have hfind : c₂.find cfg ins.key = some _ := h₂.find_some hnew (compare_kept hkept)
  obtain ⟨hkey, hpre, hval⟩ := Item.create_kept cfg c.nextId v hkept
  refine ⟨⟨_, _, by rw [get, hfind], hkey, hpre, hval⟩, fun expiry => ?_, ?_⟩
  · have hkept' : Insertion.Kept { ins with expiry } := ⟨hkept.key_le, hkept.prefix_le, hkept.apart⟩
    obtain ⟨replaced', c₃, v', hset', -, hsome', -⟩ :=
      @Distinct.set_ok cfg c₂ { ins with expiry } h₂ fun _ _ => compare_kept hkept'
    obtain ⟨rfl, hlen⟩ := hsome' _ hfind
    exact ⟨c₃, by rw [setInSlab, ← hset']; exact if_pos hpage, hlen⟩
  · obtain ⟨c₃, hremove, hitems₃, hbytes₃⟩ := remove_found hfind
    rw [itemSize_kept hkept] at hbytes₃
    refine ⟨c₃, hremove, ?_, hbytes₃, fun hfalse => ?_⟩
    · rw [hitems₃]
      exact length_erase h₂ hnew true
    · rw [hbytes₃, hbytes]
      cases hf : c.find cfg ins.key with
      | none => rw [(hnone hf).2, add_sub_cancel_right]
      | some old => cases hfalse.symm.trans (hsome old hf).1

/-- What is stored is kept. -/
theorem Distinct.kept {slabPageSize : UInt64} (h : Distinct c) (hkey : 32 ∉ ins.key)
    (hspace : ins.asciiPrefix.head? = some 32) (hstores : Stores slabPageSize cfg ins c) :
    ins.Kept ∧ insertionSize cfg ins ≤ slabPageSize := by
  obtain ⟨replaced, c₁, hset, hafter⟩ := hstores
  obtain ⟨⟨it, c₂, hget, -, hpre, hval⟩, -⟩ := hafter [] c₁ (by simp) rfl
  rw [setInSlab] at hset
  split at hset
  · rename_i hpage
    refine ⟨?_, hpage⟩
    cases hf : c₁.find cfg ins.key with
    | none =>
      rw [get, hf] at hget
      cases hget
    | some it' =>
      rw [get, hf] at hget
      obtain rfl := Option.some.inj (Reply.get.inj (Prod.mk.inj (Except.ok.inj hget)).1)
      have hcmp : it'.compare cfg ins.key = true := List.find?_some hf
      obtain ⟨id, v, rfl⟩ := h.set_made hset (List.mem_of_find?_eq_some hf) hcmp
      exact Item.kept_of_create hcmp hpre hval hkey hspace
  · cases hset

end Cache

/-! ## What is parsed is stored -/

/-- `prepare_insertion`, with what the parser leaves in its registers. -/
def Parser.Registers.prepareInsertion (c : Cache) (regs : Parser.Registers) : Insertion :=
  { key := regs.key
    asciiPrefix := 32 :: regs.flagsStr ++ 32 :: regs.sizeStr
    data := regs.blob
    expiry := Expiration.ofSeconds c.now c.wcToClockTypeDelta regs.expiration }

/-- In every cache that a run leaves, an item that the parser accepts is stored if and only if the
key has at most 248 bytes, the ascii prefix at most 255, and more than 248 only where it starts with
the value or the value starts with it, and the item fits into a slab page. -/
theorem parsed_stores_iff (cfg : Config) (slabPageSize : UInt64) (now wall : Int64)
    (es : List Cache.Event) (c : Cache) (regs regs' : Parser.Registers) (bufs : List Bytes) (n : Nat)
    (v : Parser.Verb) (hrun : Run.run (Cache.next cfg) (Cache.init now wall) es = .ok c)
    (h : Parser.feed regs bufs = .accepted regs' n) (hcmd : regs'.state = .cmd v)
    (hstores : v.stores = true) :
    Cache.Stores slabPageSize cfg (regs'.prepareInsertion c) c ↔
      (regs'.prepareInsertion c).Kept ∧
        insertionSize cfg (regs'.prepareInsertion c) ≤ slabPageSize := by
  have hc : Cache.Distinct c := (Cache.Distinct.init now wall).run hrun
  obtain ⟨line, -, hagrees, -⟩ := Parser.feed_line h hcmd hstores
  have hkey : 32 ∉ regs'.key := hagrees.key ▸ line.isKey.2
  constructor
  · intro hst
    exact hc.kept hkey rfl hst
  · rintro ⟨hkept, hpage⟩
    exact hc.stores hkept hpage

/-- `"set a 5 0 2\r\nxy\r\n"` is stored. -/
theorem parsed_stores_short :
    Cache.Stores 1048576 ⟨fun _ => 0, 80⟩
      (Parser.Registers.prepareInsertion (Cache.init 0 0)
        { state := .cmd .set, u32 := 2, key := ascii "a", flagsStr := ascii "5", size := 2
          sizeStr := ascii "2", blob := ascii "xy" }) (Cache.init 0 0) :=
  (parsed_stores_iff ⟨fun _ => 0, 80⟩ 1048576 0 0 [] (Cache.init 0 0) {}
    { state := .cmd .set, u32 := 2, key := ascii "a", flagsStr := ascii "5", size := 2
      sizeStr := ascii "2", blob := ascii "xy" } [ascii "set a 5 0 2\r\nxy\r\n"] 17 .set rfl
    (by decide +kernel) rfl rfl).mpr
    ⟨⟨by decide, by decide, Or.inl (by decide)⟩, by decide⟩

/-- A key of 250 bytes is accepted by the parser, and a `get` after the `set` does not find it. -/
theorem parsed_long_key :
    Parser.feed {} [ascii "set " ++ List.replicate 250 97 ++ ascii " 0 0 1\r\nx\r\n"] =
        .accepted { state := .cmd .set, u32 := 1, key := List.replicate 250 97, flagsStr := ascii "0"
                    size := 1, sizeStr := ascii "1", blob := ascii "x" } 265 ∧
      ((Cache.init 0 0).setInSlab 1048576 ⟨fun _ => 0, 80⟩
          (Parser.Registers.prepareInsertion (Cache.init 0 0)
            { state := .cmd .set, u32 := 1, key := List.replicate 250 97, flagsStr := ascii "0"
              size := 1, sizeStr := ascii "1", blob := ascii "x" }) >>= fun stored =>
        stored.2.get ⟨fun _ => 0, 80⟩ (List.replicate 250 97)).map Prod.fst = .ok (.get none) := by
  decide +kernel

end Seastar.Memcached
