import Mathlib

/-!
JSON texts and what they denote. A text is a sequence of characters; a parser takes a value from its
beginning and leaves the rest. How much it takes, and what it makes of it, does not depend on what
follows, as long as a number is not continued.
-/

namespace Lib

/-- What a JSON text denotes; the members of an object in the order of the text. -/
inductive Json
  | null
  | bool (b : Bool)
  | num (q : ℚ)
  | str (s : List Char)
  | arr (vs : List Json)
  | obj (ms : List (List Char × Json))

namespace Json

/-! ## Tokens -/

def isWs (c : Char) : Bool := c == ' ' || c == '\t' || c == '\n' || c == '\r'

def skipWs (cs : List Char) : List Char := cs.dropWhile isWs

/-- The character `c`, behind white space. -/
def expect (c : Char) (cs : List Char) : Option (List Char) :=
  match skipWs cs with
  | [] => none
  | d :: cs => if d = c then some cs else none

/-- The characters that a string holds as they are. -/
def isPlain (c : Char) : Bool := c != '"' && c != '\\' && 0x20 ≤ c.toNat

/-- The escapes of one character. -/
def simpleEscape (c : Char) : Option Char :=
  if c = '"' ∨ c = '\\' ∨ c = '/' then some c
  else if c = 'b' then some (Char.ofNat 8)
  else if c = 'f' then some (Char.ofNat 12)
  else if c = 'n' then some '\n'
  else if c = 'r' then some '\r'
  else if c = 't' then some '\t'
  else none

def hexDigit (c : Char) : Option Nat :=
  if '0' ≤ c ∧ c ≤ '9' then some (c.toNat - '0'.toNat)
  else if 'a' ≤ c ∧ c ≤ 'f' then some (c.toNat - 'a'.toNat + 10)
  else if 'A' ≤ c ∧ c ≤ 'F' then some (c.toNat - 'A'.toNat + 10)
  else none

def hexDigits : Nat → Nat → List Char → Option (Nat × List Char)
  | 0, u, cs => some (u, cs)
  | _ + 1, _, [] => none
  | k + 1, u, c :: cs =>
    match hexDigit c with
    | none => none
    | some d => hexDigits k (16 * u + d) cs

/-- The second half of a surrogate pair. -/
def lowSurrogate (u : Nat) : List Char → Option (Char × List Char)
  | a :: b :: cs =>
    if a = '\\' ∧ b = 'u' then
      (hexDigits 4 0 cs).bind fun x =>
        if u < 0xdc00 ∧ 0xdc00 ≤ x.1 ∧ x.1 < 0xe000 then
          some (Char.ofNat (0x10000 + (u - 0xd800) * 0x400 + (x.1 - 0xdc00)), x.2)
        else none
    else none
  | _ => none

/-- `\u` and four digits; two such escapes for a character that needs a surrogate pair. -/
def unicodeEscape (cs : List Char) : Option (Char × List Char) :=
  (hexDigits 4 0 cs).bind fun x =>
    if x.1 < 0xd800 ∨ 0xe000 ≤ x.1 then some (Char.ofNat x.1, x.2) else lowSurrogate x.1 x.2

/-- An escape, behind its backslash. -/
def escape : List Char → Option (Char × List Char)
  | [] => none
  | c :: cs => if c = 'u' then unicodeEscape cs else (simpleEscape c).map fun d => (d, cs)

/-- A character of a string, or an escape. -/
def nextChar : List Char → Option (Char × List Char)
  | [] => none
  | c :: cs => if c = '\\' then escape cs else if isPlain c then some (c, cs) else none

/-- A string behind its first quote, of at most `n` characters with the last quote. -/
def chars : Nat → List Char → Option (List Char × List Char)
  | 0, _ => none
  | _ + 1, [] => none
  | n + 1, c :: cs =>
    if c = '"' then some ([], cs)
    else (nextChar (c :: cs)).bind fun x => (chars n x.2).map fun y => (x.1 :: y.1, y.2)

def string (cs : List Char) : Option (List Char × List Char) := chars cs.length cs

def isNumChar (c : Char) : Bool :=
  c.isDigit || c == '-' || c == '+' || c == '.' || c == 'e' || c == 'E'

/-- The digits at the beginning, of which there is one at least. -/
def digits (cs : List Char) : Option (List Char × List Char) :=
  if cs.takeWhile Char.isDigit = [] then none
  else some (cs.takeWhile Char.isDigit, cs.dropWhile Char.isDigit)

/-- The sign of an exponent. -/
def expSign : List Char → ℤ × List Char
  | '-' :: cs => (-1, cs)
  | '+' :: cs => (1, cs)
  | cs => (1, cs)

/-- The fraction and the exponent of a number, behind its digits. -/
def fraction : List Char → Option (List Char × List Char)
  | '.' :: cs => digits cs
  | cs => some ([], cs)

def exponent : List Char → Option (ℤ × List Char)
  | c :: cs =>
    if c = 'e' ∨ c = 'E' then
      (digits (expSign cs).2).map fun x =>
        ((expSign cs).1 * (Nat.ofDigitChars 10 x.1 0 : ℤ), x.2)
    else some (0, c :: cs)
  | [] => some (0, [])

/-- A number without its sign. -/
def unsignedValue (cs : List Char) : Option ℚ :=
  (digits cs).bind fun (ds, cs) =>
    -- no number starts with a zero that is not its only digit
    if ds.head? = some '0' ∧ ds ≠ ['0'] then none
    else (fraction cs).bind fun (fs, cs) =>
      (exponent cs).bind fun (e, cs) =>
        if cs = [] then some ((Nat.ofDigitChars 10 (ds ++ fs) 0 : ℚ) * 10 ^ (e - fs.length : ℤ))
        else none

def numberValue : List Char → Option ℚ
  | [] => none
  | c :: cs => if c = '-' then (unsignedValue cs).map (- ·) else unsignedValue (c :: cs)

def literal (cs : List Char) : Option (Json × List Char) :=
  if ['t', 'r', 'u', 'e'].isPrefixOf cs then some (.bool true, cs.drop 4)
  else if ['f', 'a', 'l', 's', 'e'].isPrefixOf cs then some (.bool false, cs.drop 5)
  else if ['n', 'u', 'l', 'l'].isPrefixOf cs then some (.null, cs.drop 4)
  else none

/-! ## Values -/

/-- The value of a token, behind white space. -/
def scalar (c : Char) (cs : List Char) : Option (Json × List Char) :=
  if c = '"' then (string cs).map fun x => (.str x.1, x.2)
  else if isNumChar c then
    (numberValue ((c :: cs).takeWhile isNumChar)).map fun q =>
      (.num q, (c :: cs).dropWhile isNumChar)
  else literal (c :: cs)

/-- What is between brackets: nothing, or what `p` finds. -/
def bracketed {α : Type} (close : Char) (p : List Char → Option (List α × List Char))
    (cs : List Char) : Option (List α × List Char) :=
  match expect close cs with
  | some r => some ([], r)
  | none => p cs

/-- What comes after an element of a list: a comma and more of them, or the end. -/
def following {α : Type} (close : Char) (p : List Char → Option (List α × List Char)) (a : α)
    (cs : List Char) : Option (List α × List Char) :=
  match expect ',' cs with
  | some r => (p r).map fun x => (a :: x.1, x.2)
  | none => (expect close cs).map fun r => ([a], r)

mutual

def value : Nat → List Char → Option (Json × List Char)
  | 0, _ => none
  | n + 1, cs =>
    match skipWs cs with
    | [] => none
    | c :: cs =>
      if c = '[' then (bracketed ']' (elements n) cs).map fun x => (.arr x.1, x.2)
      else if c = '\x7b' then (bracketed '\x7d' (members n) cs).map fun x => (.obj x.1, x.2)
      else scalar c cs

/-- The values of an array, up to its end. -/
def elements : Nat → List Char → Option (List Json × List Char)
  | 0, _ => none
  | n + 1, cs => (value n cs).bind fun x => following ']' (elements n) x.1 x.2

/-- The members of an object, up to its end. -/
def members : Nat → List Char → Option (List (List Char × Json) × List Char)
  | 0, _ => none
  | n + 1, cs =>
    (expect '"' cs).bind fun r => (string r).bind fun k => (expect ':' k.2).bind fun r =>
      (value n r).bind fun x => following '\x7d' (members n) (k.1, x.1) x.2

end

/-- The value of a whole text, if it is a JSON text. -/
def parse (cs : List Char) : Option Json :=
  (value (2 * cs.length) cs).bind fun x => if skipWs x.2 = [] then some x.1 else none

end Json

end Lib
