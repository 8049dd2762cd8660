/-
# Library.PyJson — `json.dumps` and `json.loads`

The values Python's `json` module reads and writes, with its compact ASCII output and
its scanner.  A Python string is a list of code points and may hold lone surrogates: an
escape can put one there.  Text is a list of characters; a `str` with a surrogate has
no UTF-8 form.

Floats are a parameter: what `float(token)` and `float.__repr__` do, and the values of
the constants `NaN`, `Infinity` and `-Infinity`.  The interpreter's limits on recursion
depth and on the digits of an integer are left out.
-/
import OneLink.Library.OrderedDict

namespace OneLink.Library.PyJson

set_option autoImplicit false

abbrev Text := List Char

/-- Code points. -/
abbrev PyStr := List Nat

def pyStr (s : String) : PyStr := s.toList.map Char.toNat

inductive Value (F : Type) where
  | null
  | bool (b : Bool)
  | int (n : Int)
  | float (x : F)
  | str (s : PyStr)
  | list (items : List (Value F))
  | dict (members : List (PyStr × Value F))

structure Floats (F : Type) where
  /-- `float(token)` -/
  ofToken : Text → F
  /-- `float.__repr__`, or the constant's name -/
  toToken : F → Text
  nan : F
  infinity : F
  negInfinity : F
  /-- The integer a float compares equal to. -/
  toInt? : F → Option Int

variable {F : Type} (fl : Floats F)

/-! ## `dumps` -/

def isHigh (n : Nat) : Bool := 0xd800 ≤ n && n ≤ 0xdbff

def isLow (n : Nat) : Bool := 0xdc00 ≤ n && n ≤ 0xdfff

def hexChar (d : Nat) : Char :=
  if d < 10 then Char.ofNat (48 + d) else Char.ofNat (87 + d)

/-- `'\\u{0:04x}'` -/
def escapeHex (n : Nat) : Text :=
  ['\\', 'u', hexChar (n / 4096 % 16), hexChar (n / 256 % 16), hexChar (n / 16 % 16),
    hexChar (n % 16)]

/-- One code point under `ensure_ascii`. -/
def escapePoint (n : Nat) : Text :=
  if n = 34 then ['\\', '"']
  else if n = 92 then ['\\', '\\']
  else if n = 10 then ['\\', 'n']
  else if n = 13 then ['\\', 'r']
  else if n = 9 then ['\\', 't']
  else if n = 12 then ['\\', 'f']
  else if n = 8 then ['\\', 'b']
  else if 32 ≤ n ∧ n ≤ 126 then [Char.ofNat n]
  else if n < 0x10000 then escapeHex n
  else escapeHex (0xd800 + (n - 0x10000) / 1024 % 1024) ++ escapeHex (0xdc00 + (n - 0x10000) % 1024)

def dumpsStr (s : PyStr) : Text := '"' :: (s.flatMap escapePoint ++ ['"'])

def dumpsInt : Int → Text
  | .ofNat n => Nat.toDigits 10 n
  | .negSucc n => '-' :: Nat.toDigits 10 (n + 1)

mutual

/-- `json.dumps(value, separators=(",", ":"))` -/
def dumps : Value F → Text
  | .null => ['n', 'u', 'l', 'l']
  | .bool true => ['t', 'r', 'u', 'e']
  | .bool false => ['f', 'a', 'l', 's', 'e']
  | .int n => dumpsInt n
  | .float x => fl.toToken x
  | .str s => dumpsStr s
  | .list items => '[' :: (dumpsItems items ++ [']'])
  | .dict members => '{' :: (dumpsMembers members ++ ['}'])

def dumpsItems : List (Value F) → Text
  | [] => []
  | [item] => dumps item
  | item :: next :: rest => dumps item ++ ',' :: dumpsItems (next :: rest)

def dumpsMembers : List (PyStr × Value F) → Text
  | [] => []
  | [(key, value)] => dumpsStr key ++ ':' :: dumps value
  | (key, value) :: next :: rest =>
    dumpsStr key ++ ':' :: (dumps value ++ ',' :: dumpsMembers (next :: rest))

end

/-- Insertion of a member before the first with a larger key. -/
def insertSorted (member : PyStr × Value F) : List (PyStr × Value F) → List (PyStr × Value F)
  | [] => [member]
  | next :: rest =>
    if member.1 < next.1 then member :: next :: rest else next :: insertSorted member rest

mutual

/-- The value with the members of every dictionary in the order of their keys. -/
def sortKeys : Value F → Value F
  | .list items => .list (sortItems items)
  | .dict members => .dict (sortMembers members)
  | value => value

def sortItems : List (Value F) → List (Value F)
  | [] => []
  | item :: rest => sortKeys item :: sortItems rest

def sortMembers : List (PyStr × Value F) → List (PyStr × Value F)
  | [] => []
  | (key, value) :: rest => insertSorted (key, sortKeys value) (sortMembers rest)

end

/-- `json.dumps(value, separators=(",", ":"), sort_keys=True)` -/
def dumpsSorted (value : Value F) : Text := dumps fl (sortKeys value)

/-! ## `loads` -/

def isWhitespace (c : Char) : Bool := c = ' ' || c = '\t' || c = '\n' || c = '\r'

def skipWhitespace (text : Text) : Text := text.dropWhile isWhitespace

def hexValue (c : Char) : Option Nat :=
  if 48 ≤ c.toNat ∧ c.toNat ≤ 57 then some (c.toNat - 48)
  else if 97 ≤ c.toNat ∧ c.toNat ≤ 102 then some (c.toNat - 87)
  else if 65 ≤ c.toNat ∧ c.toNat ≤ 70 then some (c.toNat - 55)
  else none

def scanHex : Text → Option (Nat × Text)
  | a :: b :: c :: d :: rest => do
    let a ← hexValue a
    let b ← hexValue b
    let c ← hexValue c
    let d ← hexValue d
    return (((a * 16 + b) * 16 + c) * 16 + d, rest)
  | _ => none

/-- Behind `\u`: a high surrogate joins the low one escaped right after it. -/
def scanUnicode (text : Text) : Option (Nat × Text) := do
  let (n, rest) ← scanHex text
  if isHigh n then
    match rest with
    | '\\' :: 'u' :: more =>
      match scanHex more with
      | some (m, after) =>
        if isLow m then return (0x10000 + (n - 0xd800) * 1024 + (m - 0xdc00), after)
        else return (n, rest)
      | none => return (n, rest)
    | _ => return (n, rest)
  else return (n, rest)

/-- One code point of a string literal; control characters are refused. -/
def scanPoint : Text → Option (Nat × Text)
  | '\\' :: '"' :: rest => some (34, rest)
  | '\\' :: '\\' :: rest => some (92, rest)
  | '\\' :: '/' :: rest => some (47, rest)
  | '\\' :: 'b' :: rest => some (8, rest)
  | '\\' :: 'f' :: rest => some (12, rest)
  | '\\' :: 'n' :: rest => some (10, rest)
  | '\\' :: 'r' :: rest => some (13, rest)
  | '\\' :: 't' :: rest => some (9, rest)
  | '\\' :: 'u' :: rest => scanUnicode rest
  | '\\' :: _ => none
  | c :: rest => if c.toNat < 32 then none else some (c.toNat, rest)
  | [] => none

/-- A string literal behind its opening quote. -/
def scanString : (fuel : Nat) → Text → Option (PyStr × Text)
  | 0, _ => none
  | _ + 1, '"' :: rest => some ([], rest)
  | fuel + 1, text => do
    let (n, rest) ← scanPoint text
    let (s, rest) ← scanString fuel rest
    return (n :: s, rest)

/-- The digits of an integer: a zero stands alone. -/
def scanInteger : Text → Option (Text × Text)
  | '0' :: rest => some (['0'], rest)
  | text =>
    let digits := text.takeWhile Char.isDigit
    if digits = [] then none else some (digits, text.dropWhile Char.isDigit)

def scanFraction : Text → Text × Text
  | '.' :: rest =>
    let digits := rest.takeWhile Char.isDigit
    if digits = [] then ([], '.' :: rest) else ('.' :: digits, rest.dropWhile Char.isDigit)
  | text => ([], text)

def scanExponent : Text → Text × Text
  | c :: rest =>
    if c = 'e' ∨ c = 'E' then
      let (sign, digits) : Text × Text :=
        match rest with
        | '+' :: more => (['+'], more)
        | '-' :: more => (['-'], more)
        | more => ([], more)
      if digits.takeWhile Char.isDigit = [] then ([], c :: rest)
      else (c :: (sign ++ digits.takeWhile Char.isDigit), digits.dropWhile Char.isDigit)
    else ([], c :: rest)
  | [] => ([], [])

def scanUnsigned (negative : Bool) (text : Text) : Option (Value F × Text) := do
  let (digits, rest) ← scanInteger text
  let (fraction, rest) := scanFraction rest
  let (exponent, rest) := scanExponent rest
  let sign : Text := if negative then ['-'] else []
  if fraction = [] ∧ exponent = [] then
    let n := Nat.ofDigitChars 10 digits 0
    return (.int (if negative then -n else n), rest)
  else return (.float (fl.ofToken (sign ++ digits ++ fraction ++ exponent)), rest)

/-- A constant or a number. -/
def scanAtom : Text → Option (Value F × Text)
  | 'n' :: 'u' :: 'l' :: 'l' :: rest => some (.null, rest)
  | 't' :: 'r' :: 'u' :: 'e' :: rest => some (.bool true, rest)
  | 'f' :: 'a' :: 'l' :: 's' :: 'e' :: rest => some (.bool false, rest)
  | 'N' :: 'a' :: 'N' :: rest => some (.float fl.nan, rest)
  | 'I' :: 'n' :: 'f' :: 'i' :: 'n' :: 'i' :: 't' :: 'y' :: rest => some (.float fl.infinity, rest)
  | '-' :: 'I' :: 'n' :: 'f' :: 'i' :: 'n' :: 'i' :: 't' :: 'y' :: rest =>
    some (.float fl.negInfinity, rest)
  | '-' :: rest => scanUnsigned fl true rest
  | text => scanUnsigned fl false text

/-- The members of a JSON object as a dictionary: a repeated key keeps its place and
takes the later value. -/
def dictOf (members : List (PyStr × Value F)) : List (PyStr × Value F) :=
  (members.foldl (fun d member => d.set member.1 member.2) OrderedDict.empty).items

mutual

def scanValue : (fuel : Nat) → Text → Option (Value F × Text)
  | 0, _ => none
  | fuel + 1, '"' :: rest => do
    let (s, rest) ← scanString fuel rest
    return (.str s, rest)
  | fuel + 1, '[' :: rest =>
    match skipWhitespace rest with
    | ']' :: rest => some (.list [], rest)
    | text => do
      let (items, rest) ← scanItems fuel text
      return (.list items, rest)
  | fuel + 1, '{' :: rest =>
    match skipWhitespace rest with
    | '}' :: rest => some (.dict [], rest)
    | text => do
      let (members, rest) ← scanMembers fuel text
      return (.dict (dictOf members), rest)
  | _ + 1, text => scanAtom fl text

def scanItems : (fuel : Nat) → Text → Option (List (Value F) × Text)
  | 0, _ => none
  | fuel + 1, text => do
    let (item, rest) ← scanValue fuel text
    match skipWhitespace rest with
    | ']' :: rest => return ([item], rest)
    | ',' :: rest =>
      let (items, rest) ← scanItems fuel (skipWhitespace rest)
      return (item :: items, rest)
    | _ => none

def scanMembers : (fuel : Nat) → Text → Option (List (PyStr × Value F) × Text)
  | fuel + 1, '"' :: rest => do
    let (key, rest) ← scanString fuel rest
    match skipWhitespace rest with
    | ':' :: rest =>
      let (value, rest) ← scanValue fuel (skipWhitespace rest)
      match skipWhitespace rest with
      | '}' :: rest => return ([(key, value)], rest)
      | ',' :: rest =>
        let (members, rest) ← scanMembers fuel (skipWhitespace rest)
        return ((key, value) :: members, rest)
      | _ => none
    | _ => none
  | _, _ => none

end

/-- `json.loads(text)`; a byte order mark and trailing text are refused. -/
def loads (text : Text) : Option (Value F) :=
  if text.head? = some '\ufeff' then none
  else do
    let (value, rest) ← scanValue fl (text.length + 1) (skipWhitespace text)
    if skipWhitespace rest = [] then return value else none

/-- `text.encode("utf-8")` -/
def utf8Encode (text : Text) : List UInt8 := text.flatMap String.utf8EncodeChar

end OneLink.Library.PyJson
