import Mathlib.Algebra.Group.Nat.Defs
import Seastar.Core.Fault
import Seastar.Lib.Fragments
import Seastar.Lib.Run

/-!
Where an `sstring` of `core/sstring.hh` keeps its bytes, in the object or in a block it owns, run
beside a plain byte string. The two agree as long as no terminated string is shortened in place, no
block is released and no string of the largest size is copied; shortening in place forgets the
terminator, and a released string is not `empty()`.
-/

namespace Seastar.SStringStorage

open Lib.Fragments

/-- The template arguments of `basic_sstring<char, uint32_t, max_size, NulTerminate>`, and what is in
memory that nobody has written. -/
structure Layout where
  maxSize : Nat
  nulTerminate : Bool
  junk : UInt8
  external_fits : 15 ≤ maxSize
  size_fits : maxSize ≤ 127

namespace Layout

/-- What stands behind the bytes. -/
def terminator (L : Layout) : List UInt8 := if L.nulTerminate then [0] else []

def padding (L : Layout) : Nat := L.terminator.length

end Layout

/-- `contents`: `u.internal`, of `max_size` bytes, or `u.external`, whose pointer may be null. -/
inductive Storage
  | internal (str : List UInt8) (size : Nat)
  | external (str : Option (List UInt8)) (size : Nat)
  deriving DecidableEq

namespace Storage

def isInternal : Storage → Bool
  | internal _ _ => true
  | external _ _ => false

def size : Storage → Nat
  | internal _ n => n
  | external _ n => n

/-- `u.internal.size == 0`: of an external string that field is -1. -/
def empty : Storage → Bool
  | internal _ n => n == 0
  | external _ _ => false

/-- The memory `str()` points to. -/
def str : Storage → Option (List UInt8)
  | internal str _ => some str
  | external str _ => str

/-- `n` bytes from `str() + pos` on. -/
def load (s : Storage) (pos n : Nat) : Except Fault (List UInt8) :=
  if n = 0 then .ok []
  else match s.str with
    | none => .error .nullPointer
    | some m => if pos + n ≤ m.length then .ok ((m.drop pos).take n) else .error .readPast

/-- The bytes `xs` are copied to `str() + pos`. -/
def store (s : Storage) (pos : Nat) (xs : List UInt8) : Except Fault Storage :=
  if xs = [] then .ok s
  else match s with
    | internal m n =>
      if pos + xs.length ≤ m.length then .ok (internal (overwrite m pos xs) n)
      else .error .writePast
    | external (some m) n =>
      if pos + xs.length ≤ m.length then .ok (external (some (overwrite m pos xs)) n)
      else .error .writePast
    | external none _ => .error .nullPointer

/-- `std::copy` of one part after another, the next to where the last one ended. -/
def storeAll (s : Storage) (pos : Nat) : List (List UInt8) → Except Fault Storage
  | [] => .ok s
  | xs :: rest => do
    let s ← s.store pos xs
    s.storeAll (pos + xs.length) rest

end Storage

open Storage

variable (L : Layout)

/-- `basic_sstring(initialized_later, size_t)`. -/
def initializedLater (n : Nat) : Except Fault Storage :=
  if 2 ^ 32 ≤ n then .error .sstringOverflow
  else if n + L.padding ≤ L.maxSize then
    .ok (internal (overwrite (List.replicate L.maxSize L.junk) n L.terminator) n)
  else
    .ok (external (some (overwrite (List.replicate (n + L.padding) L.junk) n L.terminator)) n)

/-- `basic_sstring(const char_type*, size_t)`. -/
def make (xs : List UInt8) : Except Fault Storage := do
  let s ← initializedLater L xs.length
  s.storeAll 0 [xs]

/-- `basic_sstring(size_t, char_type)`. -/
def fill (n : Nat) (c : UInt8) : Except Fault Storage := do
  let s ← initializedLater L n
  s.storeAll 0 [List.replicate n c]

/-- `basic_sstring(const basic_sstring&)`. The length that is allocated and copied is an `unsigned`. -/
def copy : Storage → Except Fault Storage
  | internal m n => .ok (internal m n)
  | external m n => do
    let block ← (external m n).load 0 ((n + L.padding) % 2 ^ 32)
    .ok (external (some block) n)

/-- `u.internal.str`. -/
def inlineStr : Storage → List UInt8
  | internal m _ => m
  | external _ _ => List.replicate L.maxSize L.junk

/-- What the move constructor leaves. -/
def moved (s : Storage) : Storage := internal (overwrite (inlineStr L s) 0 [0]) 0

def reset (s : Storage) : Storage := internal (overwrite (inlineStr L s) 0 L.terminator) 0

/-- `release`: the bytes of the buffer, and what is left. -/
def release : Storage → List UInt8 × Storage
  | external m n => ((m.getD []).take n, external none 0)
  | internal m n => (m.take n, internal (overwrite m 0 L.terminator) 0)

/-- `operator+`. -/
def plus (s x : Storage) : Except Fault Storage := do
  let ret ← initializedLater L (s.size + x.size)
  let a ← s.load 0 s.size
  let b ← x.load 0 x.size
  ret.storeAll 0 [a, b]

def append (s : Storage) (xs : List UInt8) : Except Fault Storage := do
  let ret ← initializedLater L (s.size + xs.length)
  let a ← s.load 0 s.size
  ret.storeAll 0 [a, xs]

def resize (s : Storage) (n : Nat) (c : UInt8) : Except Fault Storage :=
  if s.size < n then do
    let x ← fill L (n - s.size) c
    plus L s x
  else if n < s.size then
    match s with
    | internal m _ => .ok (internal m n)
    | external m k =>
      if n + L.padding ≤ L.maxSize then do
        let a ← (external m k).load 0 n
        make L a
      else .ok (external m n)
  else .ok s

/-- `replace(pos, n1, s, n2)`. -/
def replace (s : Storage) (pos n1 : Nat) (xs : List UInt8) : Except Fault Storage :=
  if s.size < pos then .error .outOfRange
  else
    let n1 := min n1 (s.size - pos)
    if n1 = xs.length then s.store pos xs
    else do
      let ret ← initializedLater L (s.size + xs.length - n1)
      let a ← s.load 0 pos
      let b ← s.load (pos + n1) (s.size - (pos + n1))
      ret.storeAll 0 [a, xs, b]

/-- `replace(i1, i2, first, last)`; the iterators `i1` and `i2` as offsets from `begin()`. -/
def replaceRange (s : Storage) (i1 i2 : Int) (xs : List UInt8) : Except Fault Storage :=
  if i1 < 0 ∨ s.size < i1 ∨ i2 < 0 then .error .outOfRange
  else
    let i2 := min i2 s.size
    -- in place replacement
    if i2 - i1 = xs.length then s.store i1.toNat xs
    else do
      let ret ← initializedLater L (s.size + xs.length - (i2 - i1)).toNat
      let a ← s.load 0 i1.toNat
      let b ← s.load i2.toNat (s.size - i2).toNat
      ret.storeAll 0 [a, xs, b]

/-- `erase(first, last)` of the `n` bytes from `begin() + pos` on. -/
def erase (s : Storage) (pos n : Nat) : Except Fault Storage := replace L s pos n []

def insert (s : Storage) (p : Int) (xs : List UInt8) : Except Fault Storage :=
  replaceRange L s p p xs

/-- `substr(from, len)`. -/
def substr (s : Storage) (start len : Nat) : Except Fault Storage :=
  if s.size < start then .error .outOfRange
  else
    let len := min len (s.size - start)
    if len = 0 then make L []
    else do
      let a ← s.load start len
      make L a

/-! The calls, for any kind of strings. -/

/-- A call that changes the string it is made on. -/
inductive Edit
  | append (xs : List UInt8)
  | resize (n : Nat) (c : UInt8)
  | replace (pos n1 : Nat) (xs : List UInt8)
  | replaceRange (i1 i2 : Int) (xs : List UInt8)
  | erase (pos n : Nat)
  | insert (p : Int) (xs : List UInt8)

/-- The strings are numbered; one that is made or taken from another is the next. -/
inductive Op
  | make (xs : List UInt8)
  | fill (n : Nat) (c : UInt8)
  | edit (i : Nat) (e : Edit)
  | substr (i start len : Nat)
  | copy (i : Nat)
  | assign (i j : Nat)
  | move (i : Nat)
  | moveAssign (i j : Nat)
  | release (i : Nat)

/-- A kind of strings. -/
structure Impl (σ : Type) where
  make : List UInt8 → Except Fault σ
  fill : Nat → UInt8 → Except Fault σ
  edit : Edit → σ → Except Fault σ
  substr : σ → Nat → Nat → Except Fault σ
  copy : σ → Except Fault σ
  moved : σ → σ
  reset : σ → σ
  release : σ → List UInt8 × σ

/-- The strings there are, the buffers that were released and the exceptions that were thrown. -/
structure State (σ : Type) where
  strings : List σ
  released : List (List UInt8)
  thrown : List Fault

namespace State

variable {σ : Type}

def start : State σ := ⟨[], [], []⟩

def push (S : State σ) (s : σ) : State σ := { S with strings := S.strings ++ [s] }

def set (S : State σ) (i : Nat) (s : σ) : State σ := { S with strings := S.strings.set i s }

/-- What a call that throws leaves: all strings as they were. -/
def throwing (S : State σ) (e : Fault) : Except Fault (State σ) :=
  if e = .outOfRange ∨ e = .sstringOverflow then .ok { S with thrown := S.thrown ++ [e] }
  else .error e

/-- The result of a call is put into the state. -/
def call (S : State σ) (r : Except Fault σ) (put : σ → State σ) : Except Fault (State σ) :=
  match r with
  | .ok s => .ok (put s)
  | .error e => S.throwing e

/-- A call on a string that there is. -/
def on (S : State σ) (i : Nat) (f : σ → Except Fault (State σ)) : Except Fault (State σ) :=
  match S.strings[i]? with
  | some s => f s
  | none => .ok S

end State

variable {σ : Type}

def step (I : Impl σ) (S : State σ) : Op → Except Fault (State σ)
  | .make xs => S.call (I.make xs) S.push
  | .fill n c => S.call (I.fill n c) S.push
  | .edit i e => S.on i fun s => S.call (I.edit e s) (S.set i)
  | .substr i start len => S.on i fun s => S.call (I.substr s start len) S.push
  | .copy i => S.on i fun s => S.call (I.copy s) S.push
  -- a copy is made, and swapped with the string
  | .assign i j => S.on i fun _ => S.on j fun x => S.call (I.copy x) (S.set i)
  | .move i => S.on i fun s => .ok ((S.set i (I.moved s)).push s)
  | .moveAssign i j =>
    if i = j then .ok S
    else S.on i fun s => S.on j fun x => .ok ((S.set i x).set j (I.reset s))
  | .release i => S.on i fun s =>
    .ok { S.set i (I.release s).2 with released := S.released ++ [(I.release s).1] }

/-- `basic_sstring`. -/
def basicSString : Impl Storage where
  make := make L
  fill := fill L
  edit
    | .append xs, s => append L s xs
    | .resize n c, s => resize L s n c
    | .replace pos n1 xs, s => replace L s pos n1 xs
    | .replaceRange i1 i2 xs, s => replaceRange L s i1 i2 xs
    | .erase pos n, s => erase L s pos n
    | .insert p xs, s => insert L s p xs
  substr := substr L
  copy := copy L
  moved := moved L
  reset := reset L
  release := release L

/-! Plain byte strings, of which no operation says where they are kept. -/

namespace Plain

/-- A byte string that is too long is refused. -/
def checked (b : List UInt8) : Except Fault (List UInt8) :=
  if b.length < 2 ^ 32 then .ok b else .error .sstringOverflow

def replace (b : List UInt8) (pos n1 : Nat) (xs : List UInt8) : Except Fault (List UInt8) :=
  if b.length < pos then .error .outOfRange
  else checked (b.take pos ++ xs ++ b.drop (pos + n1))

def replaceRange (b : List UInt8) (i1 i2 : Int) (xs : List UInt8) : Except Fault (List UInt8) :=
  if i1 < 0 ∨ b.length < i1 ∨ i2 < 0 then .error .outOfRange
  else checked (b.take i1.toNat ++ xs ++ b.drop i2.toNat)

def edit : Edit → List UInt8 → Except Fault (List UInt8)
  | .append xs, b => checked (b ++ xs)
  | .resize n c, b => checked (b.take n ++ List.replicate (n - b.length) c)
  | .replace pos n1 xs, b => replace b pos n1 xs
  | .replaceRange i1 i2 xs, b => replaceRange b i1 i2 xs
  | .erase pos n, b => replace b pos n []
  | .insert p xs, b => replaceRange b p p xs

def substr (b : List UInt8) (start len : Nat) : Except Fault (List UInt8) :=
  if b.length < start then .error .outOfRange else .ok ((b.drop start).take len)

/-- Plain byte strings. -/
def impl : Impl (List UInt8) where
  make := checked
  fill n c := checked (List.replicate n c)
  edit := edit
  substr := substr
  copy := .ok
  moved _ := []
  reset _ := []
  release b := (b, [])

end Plain

/-- The `sstring`s and the plain byte strings under the same calls. -/
def both (p : State Storage × State (List UInt8)) (op : Op) :
    Except Fault (State Storage × State (List UInt8)) := do
  let S ← step (basicSString L) p.1 op
  let T ← step Plain.impl p.2 op
  .ok (S, T)

/-- A string says what the plain one does: its bytes, whether there are any, and what ends them. -/
structure Agrees (s : Storage) (b : List UInt8) : Prop where
  bytes : s.load 0 s.size = .ok b
  empty_iff : s.empty = true ↔ s.size = 0
  nul : L.nulTerminate = true → s.load s.size 1 = .ok [0]

/-- All strings do, and the same was released and thrown. -/
structure Agree (p : State Storage × State (List UInt8)) : Prop where
  strings : ∀ i : Nat, Option.Rel (Agrees L) p.1.strings[i]? p.2.strings[i]?
  released : p.1.released = p.2.released
  thrown : p.1.thrown = p.2.thrown

/-- `resize` to `n` keeps a terminator: when it does not shorten in place, or the byte there is NUL. -/
def GentleEdit (b : List UInt8) : Edit → Prop
  | .resize n _ => L.nulTerminate = true → n < b.length →
      L.maxSize < b.length + L.padding ∧ n + L.padding ≤ L.maxSize ∨ b[n]? = some 0
  | _ => True

/-- A copy does not have the one size whose allocation wraps to nothing. -/
def GentleCopy (b : List UInt8) : Prop := b.length + L.padding < 2 ^ 32

/-- The calls that `basic_sstring` does right. -/
def Gentle (p : State Storage × State (List UInt8)) : Op → Prop
  | .edit i e => ∀ b, p.2.strings[i]? = some b → GentleEdit L b e
  | .copy i => ∀ b, p.2.strings[i]? = some b → GentleCopy L b
  | .assign i j => ∀ a, p.2.strings[i]? = some a → ∀ b, p.2.strings[j]? = some b → GentleCopy L b
  | .release i => ∀ b, p.2.strings[i]? = some b → b.length + L.padding ≤ L.maxSize
  | _ => True

/-! What is known of a string that says what the plain one does. -/

namespace Storage

/-- What no call breaks: inside the object is what fits there. -/
def Wf : Storage → Prop
  | internal m n => m.length = L.maxSize ∧ n + L.padding ≤ L.maxSize
  | external (some _) n => L.maxSize < n + L.padding ∧ n < 2 ^ 32
  | external none n => n = 0

/-- The memory of a string begins with its bytes and their terminator. -/
structure Good (s : Storage) (b : List UInt8) : Prop where
  wf : s.Wf L
  size_eq : s.size = b.length
  str_eq : ∃ rest, s.str = some (b ++ L.terminator ++ rest)

end Storage

variable {L} {s x : Storage} {b m xs : List UInt8} {n pos : Nat}

theorem padding_le_one (L : Layout) : L.padding ≤ 1 := by
  rw [Layout.padding, Layout.terminator]
  split
  · exact Nat.le_refl 1
  · exact Nat.zero_le 1

theorem load_some (hs : s.str = some m) (h : pos + n ≤ m.length) :
    s.load pos n = .ok ((m.drop pos).take n) := by
  rw [load, hs]
  by_cases hn : n = 0
  · simp [hn]
  · rw [if_neg hn]
    exact if_pos h

theorem le_of_load_ok (hs : s.str = some m) (hn : n ≠ 0) (h : s.load pos n = .ok xs) :
    pos + n ≤ m.length := by
  rw [load, hs, if_neg hn] at h
  by_contra hlt
  have : (Except.error Fault.readPast : Except Fault (List UInt8)) = .ok xs :=
    (if_neg hlt).symm.trans h
  cases this

namespace Storage.Good

theorem size_lt (h : Good L s b) : b.length < 2 ^ 32 := by
  have hwf := h.wf
  have hsize := h.size_eq
  obtain ⟨rest, hstr⟩ := h.str_eq
  have := L.size_fits
  cases s with
  | internal m n =>
    obtain ⟨-, hn⟩ := hwf
    obtain rfl : n = b.length := hsize
    omega
  | external m n =>
    obtain rfl : m = _ := hstr
    obtain rfl : n = b.length := hsize
    exact hwf.2

/-- The bytes are in the object exactly when they fit. -/
theorem isInternal_iff (h : Good L s b) :
    s.isInternal = true ↔ b.length + L.padding ≤ L.maxSize := by
  have hwf := h.wf
  have hsize := h.size_eq
  obtain ⟨rest, hstr⟩ := h.str_eq
  cases s with
  | internal m n =>
    obtain rfl : n = b.length := hsize
    exact iff_of_true rfl hwf.2
  | external m n =>
    obtain rfl : m = _ := hstr
    obtain rfl : n = b.length := hsize
    refine iff_of_false (fun he => by cases he) ?_
    have := hwf.1
    omega

/-- Reading within the bytes reads the plain ones. -/
theorem load_eq (h : Good L s b) (pos n : Nat) (hle : pos + n ≤ b.length) :
    s.load pos n = .ok ((b.drop pos).take n) := by
  obtain ⟨rest, hstr⟩ := h.str_eq
  rw [load_some hstr (by simp only [List.length_append]; omega), List.append_assoc,
    List.drop_append_of_le_length (by omega),
    List.take_append_of_le_length (by rw [List.length_drop]; omega)]

theorem load_all (h : Good L s b) : s.load 0 s.size = .ok b := by
  rw [h.size_eq, h.load_eq 0 _ (by omega), List.drop_zero, List.take_length]

/-- A string that keeps its bytes in memory agrees with the plain one. -/
theorem agrees (h : Good L s b) : Agrees L s b where
  bytes := h.load_all
  empty_iff := by
    have hwf := h.wf
    have hsize := h.size_eq
    obtain ⟨rest, hstr⟩ := h.str_eq
    have := padding_le_one L
    have := L.external_fits
    cases s with
    | internal m n => simp [empty, size]
    | external m n =>
      obtain rfl : m = _ := hstr
      have := hwf.1
      refine iff_of_false (fun he => by cases he) fun he => ?_
      obtain rfl : n = 0 := he
      omega
  nul := by
    intro hnul
    obtain ⟨rest, hstr⟩ := h.str_eq
    have hterm : L.terminator = [0] := by rw [Layout.terminator, if_pos hnul]
    rw [hterm] at hstr
    rw [h.size_eq, load_some hstr (by simp)]
    simp

end Storage.Good

/-- ... and no other does. -/
theorem good_iff : Good L s b ↔ s.Wf L ∧ Agrees L s b := by
  constructor
  · intro h
    exact ⟨h.wf, h.agrees⟩
  · rintro ⟨hwf, h⟩
    have hbytes := h.bytes
    have hpad := padding_le_one L
    have := L.external_fits
    obtain ⟨m, hm, hle⟩ : ∃ m, s.str = some m ∧ s.size ≤ m.length := by
      cases s with
      | internal m n =>
        obtain ⟨hlen, hn⟩ := hwf
        refine ⟨m, rfl, ?_⟩
        rw [size]
        omega
      | external m n =>
        cases m with
        | none =>
          have := h.empty_iff.mpr hwf
          cases this
        | some m =>
          have := hwf.1
          have := le_of_load_ok rfl (by rw [size]; omega) hbytes
          exact ⟨m, rfl, by rwa [Nat.zero_add] at this⟩
    rw [load_some hm (by rwa [Nat.zero_add]), List.drop_zero] at hbytes
    have hb := Except.ok.inj hbytes
    have hlen : s.size = b.length := by rw [← hb, List.length_take, Nat.min_eq_left hle]
    refine ⟨hwf, hlen, ?_⟩
    by_cases hnul : L.nulTerminate = true
    · have hzero := h.nul hnul
      have hlt := le_of_load_ok hm Nat.one_ne_zero hzero
      rw [load_some hm hlt] at hzero
      refine ⟨(m.drop s.size).drop 1, ?_⟩
      rw [hm, Layout.terminator, if_pos hnul, List.append_assoc, ← Except.ok.inj hzero,
        List.take_append_drop, ← hb, List.take_append_drop]
    · refine ⟨m.drop s.size, ?_⟩
      rw [hm, Layout.terminator, if_neg hnul, List.append_nil, ← hb, List.take_append_drop]

/-! What the constructors make. -/

theorem initializedLater_ok (hn : n < 2 ^ 32) :
    ∃ s, initializedLater L n = .ok s ∧ Good L s (List.replicate n L.junk) := by
  rw [initializedLater, if_neg (Nat.not_le.mpr hn)]
  split
  · rename_i hle
    refine ⟨_, rfl, ⟨?_, hle⟩, by simp [size], ?_⟩
    · rw [length_overwrite (by simpa [Layout.padding] using hle), List.length_replicate]
    · refine ⟨(List.replicate L.maxSize L.junk).drop (n + L.terminator.length), congrArg some ?_⟩
      rw [overwrite, List.take_replicate, Nat.min_eq_left (by omega)]
  · rename_i hlt
    refine ⟨_, rfl, ⟨by omega, hn⟩, by simp [size], [], congrArg some ?_⟩
    rw [overwrite, List.take_replicate, Nat.min_eq_left (by omega), List.drop_eq_nil_of_le]
    simp [Layout.padding]

theorem initializedLater_overflow (hn : 2 ^ 32 ≤ n) :
    initializedLater L n = .error .sstringOverflow := if_pos hn

theorem store_ok (h : Good L s b) (pos : Nat) (xs : List UInt8) (hle : pos + xs.length ≤ b.length) :
    ∃ s', s.store pos xs = .ok s' ∧ Good L s' (overwrite b pos xs) := by
  have hwf := h.wf
  have hsize := h.size_eq
  obtain ⟨rest, hstr⟩ := h.str_eq
  have hb := length_overwrite hle
  have hm : pos + xs.length ≤ (b ++ L.terminator ++ rest).length := by
    simp only [List.length_append]
    omega
  have hstr' : overwrite (b ++ L.terminator ++ rest) pos xs =
      overwrite b pos xs ++ L.terminator ++ rest := by
    rw [List.append_assoc, overwrite_append_left hle, List.append_assoc]
  unfold store
  split
  · rename_i hxs
    refine ⟨s, rfl, ?_⟩
    rwa [hxs, overwrite_nil]
  · cases s with
    | internal m n =>
      obtain rfl : m = _ := Option.some.inj hstr
      refine ⟨_, if_pos hm, ⟨?_, hwf.2⟩, hsize.trans hb.symm, rest, congrArg some hstr'⟩
      rw [length_overwrite hm, hwf.1]
    | external m n =>
      obtain rfl : m = _ := hstr
      exact ⟨_, if_pos hm, hwf, hsize.trans hb.symm, rest, congrArg some hstr'⟩

theorem storeAll_ok (h : Good L s b) (pos : Nat) (parts : List (List UInt8))
    (hle : pos + parts.flatten.length ≤ b.length) :
    ∃ s', s.storeAll pos parts = .ok s' ∧ Good L s' (overwrite b pos parts.flatten) := by
  induction parts generalizing s b pos with
  | nil => exact ⟨s, rfl, by rwa [List.flatten_nil, overwrite_nil]⟩
  | cons xs parts ih =>
    rw [List.flatten_cons, List.length_append] at hle
    have hxs : pos + xs.length ≤ b.length := by omega
    obtain ⟨t, ht, hgood⟩ := store_ok h pos xs hxs
    obtain ⟨s', hs', hgood'⟩ := ih hgood (pos + xs.length) (by
      rw [length_overwrite hxs]
      omega)
    refine ⟨s', ?_, ?_⟩
    · rw [storeAll, ht, Lib.ok_bind, hs']
    · rwa [overwrite_append hxs] at hgood'

/-- A new string, written from its first byte to its last. -/
theorem build_ok {parts : List (List UInt8)} (hb : parts.flatten = b) (hn : n = b.length)
    (hlt : b.length < 2 ^ 32) :
    ∃ s, (initializedLater L n >>= fun s => s.storeAll 0 parts) = .ok s ∧ Good L s b := by
  subst hn
  obtain ⟨t, ht, hgood⟩ := initializedLater_ok (L := L) hlt
  obtain ⟨s, hs, hgood'⟩ := storeAll_ok hgood 0 parts (by simp [hb])
  refine ⟨s, by rw [ht, Lib.ok_bind, hs], ?_⟩
  rw [hb, overwrite, List.take_zero, List.nil_append,
    List.drop_eq_nil_of_le (by simp), List.append_nil] at hgood'
  exact hgood'

/-- A call leads to what the plain one leads to, and to agreement under the condition `c`. -/
def Matches (L : Layout) (c : Prop) : Except Fault Storage → Except Fault (List UInt8) → Prop
  | .ok s, .ok b => s.Wf L ∧ (c ↔ Agrees L s b)
  | .error e, .error f => e = f ∧ (e = .outOfRange ∨ e = .sstringOverflow) ∧ c
  | _, _ => False

variable {c : Prop}

theorem Storage.Good.matches (h : Good L s b) (hc : c) : Matches L c (.ok s) (.ok b) :=
  ⟨h.wf, iff_of_true hc h.agrees⟩

theorem build_matches {parts : List (List UInt8)} (hc : c) (hb : parts.flatten = b)
    (hn : n = b.length) :
    Matches L c (initializedLater L n >>= fun s => s.storeAll 0 parts) (Plain.checked b) := by
  by_cases hlt : b.length < 2 ^ 32
  · obtain ⟨s, hs, hgood⟩ := build_ok (L := L) hb hn hlt
    rw [hs, Plain.checked, if_pos hlt]
    exact hgood.matches hc
  · rw [initializedLater_overflow (by omega), Plain.checked, if_neg hlt]
    exact ⟨rfl, Or.inr rfl, hc⟩

theorem make_matches (xs : List UInt8) : Matches L True (make L xs) (Plain.checked xs) :=
  build_matches trivial (by simp) rfl

theorem make_ok (L : Layout) (xs : List UInt8) (h : xs.length < 2 ^ 32) :
    ∃ s, make L xs = .ok s ∧ Good L s xs :=
  build_ok (by simp) rfl h

theorem fill_matches (n : Nat) (c : UInt8) :
    Matches L True (fill L n c) (Plain.checked (List.replicate n c)) :=
  build_matches trivial (by simp) (by simp)

theorem checked_ok (h : b.length < 2 ^ 32) : Plain.checked b = .ok b := if_pos h

theorem checked_overflow (h : 2 ^ 32 ≤ b.length) :
    Plain.checked b = .error .sstringOverflow := if_neg (Nat.not_lt.mpr h)

end Seastar.SStringStorage
