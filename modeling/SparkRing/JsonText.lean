import Mathlib.Data.List.Sort
import Mathlib.Data.Nat.Digits.Defs
import SparkRing.OrderedDict

/-!
# JSON texts

Values are written without spaces and with sorted names, in ASCII. They are read from
bytes in any of the encodings of a JSON text: of a name that stands twice the last value
counts, and a surrogate that has no other half is a character of its own. An interpreter
limits the digits of an integer and how deep values nest.
-/

namespace SparkRing.JsonText

open OrderedDict

/-- Bytes as on the wire. -/
abbrev Bytes := List UInt8

/-- A text as its code points. -/
abbrev Text := List ℕ

/-- The code points of a string. -/
def text (s : String) : Text := s.toList.map Char.toNat

/-- A character that is not half of a surrogate pair. -/
def Scalar (c : ℕ) : Prop := c < 55296 ∨ 57344 ≤ c ∧ c < 1114112

instance (c : ℕ) : Decidable (Scalar c) := inferInstanceAs (Decidable (_ ∨ _))

/-- A value. -/
inductive Json
  /-- No value. -/
  | null
  | bool (value : Bool)
  /-- An integer. -/
  | int (value : ℤ)
  /-- A number with a fraction or an exponent, or one that is not finite, as it is spelled. -/
  | float (spelling : Text)
  | str (characters : Text)
  | arr (items : List Json)
  /-- An object with distinct names. -/
  | obj (fields : List (Text × Json))

/-- What limits an interpreter. -/
structure Interpreter where
  /-- The digits of an integer that is written or read, or 0 for any number of them. -/
  maxStrDigits : ℕ
  /-- How many lists and objects nest, beyond an object of lists. -/
  depth : ℕ
  /-- How a float that was spelled like this is written. -/
  floatText : Text → Text

/-- An integer has too many digits. -/
def Interpreter.tooLong (p : Interpreter) (digits : ℕ) : Bool := decide (p.maxStrDigits ≠ 0 ∧ p.maxStrDigits < digits)

/-- A hexadecimal digit in lower case. -/
def hexDigit (n : ℕ) : ℕ := if n < 10 then n + 48 else n + 87

/-- Four hexadecimal digits. -/
def hex4 (n : ℕ) : Text := [hexDigit (n / 4096 % 16), hexDigit (n / 256 % 16), hexDigit (n / 16 % 16), hexDigit (n % 16)]

/-- A character of a string: a quotation mark, a backslash and five control characters have
escapes of their own, and what is not printable ASCII is written in hexadecimal. -/
def escape (c : ℕ) : Text :=
  if c = 34 then [92, 34]
  else if c = 92 then [92, 92]
  else if c = 10 then [92, 110]
  else if c = 13 then [92, 114]
  else if c = 9 then [92, 116]
  else if c = 8 then [92, 98]
  else if c = 12 then [92, 102]
  else if 32 ≤ c ∧ c < 127 then [c]
  else if c < 65536 then 92 :: 117 :: hex4 c
  else 92 :: 117 :: hex4 (55296 + (c - 65536) / 1024) ++ 92 :: 117 :: hex4 (56320 + (c - 65536) % 1024)

/-- A string between quotation marks. -/
def quote (characters : Text) : Text := 34 :: characters.flatMap escape ++ [34]

/-- A natural number in decimal. -/
def decimal (n : ℕ) : Text := if n = 0 then [48] else (Nat.digits 10 n).reverse.map (· + 48)

def integer : ℤ → Text
  | .ofNat n => decimal n
  | .negSucc n => 45 :: decimal (n + 1)

/-- An integer of a value has few enough digits to be written. -/
def Interpreter.writable (p : Interpreter) : Json → Bool
  | .int n => !p.tooLong (decimal n.natAbs).length
  | _ => true

/-- Texts with commas between them. -/
def commas : List Text → Text := [44].intercalate

/-- A text comes before another one, or is the same. -/
def ordered : Text → Text → Bool
  | [], _ => true
  | _ :: _, [] => false
  | a :: s, b :: t => if a < b then true else if b < a then false else ordered s t

/-- Fields in the order of their names. -/
def sortNames {α : Type*} (fields : List (Text × α)) : List (Text × α) := fields.insertionSort fun a b => ordered a.1 b.1 = true

def toBytes (input : Text) : Bytes := input.map Nat.toUInt8

/-- Written fields as an object. -/
def braces (fields : List (Text × Text)) : Text :=
  123 :: commas ((sortNames fields).map fun field => quote field.1 ++ 58 :: field.2) ++ [125]

variable (p : Interpreter)

mutual

/-- A value as a canonical text. -/
def dumps : Json → Text
  | .null => text "null"
  | .bool value => if value then text "true" else text "false"
  | .int value => integer value
  | .float spelling => p.floatText spelling
  | .str characters => quote characters
  | .arr items => 91 :: commas (dumpsItems items) ++ [93]
  | .obj fields => braces (dumpsFields fields)

/-- The items of a list as canonical texts. -/
def dumpsItems : List Json → List Text
  | [] => []
  | item :: items => dumps item :: dumpsItems items

/-- The fields of an object with their values as canonical texts. -/
def dumpsFields : List (Text × Json) → List (Text × Text)
  | [] => []
  | (name, value) :: fields => (name, dumps value) :: dumpsFields fields

end

/-- How reading fails. -/
inductive Fault
  /-- The bytes or the text are malformed. -/
  | malformed
  /-- Another exception, as for an integer of too many digits or values that nest too deep. -/
  | raises
  deriving DecidableEq

/-- A part of a text that is read, and what follows it. -/
abbrev Scan (α : Type) := Except Fault (α × Text)

/-- White space. -/
def isSpace (c : ℕ) : Bool := c = 32 || c = 9 || c = 10 || c = 13

/-- What follows white space. -/
def skipSpace (input : Text) : Text := input.dropWhile isSpace

/-- A hexadecimal digit in either case. -/
def hexValue (c : ℕ) : Option ℕ :=
  if 48 ≤ c ∧ c ≤ 57 then some (c - 48)
  else if 97 ≤ c ∧ c ≤ 102 then some (c - 87)
  else if 65 ≤ c ∧ c ≤ 70 then some (c - 55)
  else none

/-- Four hexadecimal digits. -/
def readHex4 : Text → Option (ℕ × Text)
  | a :: b :: c :: d :: rest => do
    let a ← hexValue a
    let b ← hexValue b
    let c ← hexValue c
    let d ← hexValue d
    some (a * 4096 + b * 256 + c * 16 + d, rest)
  | _ => none

/-- The first half of a surrogate pair. -/
def isHigh (unit : ℕ) : Bool := 55296 ≤ unit && unit < 56320

/-- The second half of a surrogate pair. -/
def isLow (unit : ℕ) : Bool := 56320 ≤ unit && unit < 57344

/-- The character of a surrogate pair. -/
def join (high low : ℕ) : ℕ := 65536 + (high - 55296) * 1024 + (low - 56320)

/-- The character of an escape letter. -/
def unescape (c : ℕ) : Option ℕ :=
  if c = 34 ∨ c = 92 ∨ c = 47 then some c
  else if c = 98 then some 8
  else if c = 102 then some 12
  else if c = 110 then some 10
  else if c = 114 then some 13
  else if c = 116 then some 9
  else none

/-- The second half that follows a first half, if one does. -/
def scanLow (unit : ℕ) (rest : Text) : Option (ℕ × Text) :=
  match rest with
  | a :: b :: digits =>
    if a = 92 ∧ b = 117 then
      match readHex4 digits with
      | none => none
      | some (second, after) => if isLow second then some (join unit second, after) else some (unit, rest)
    else some (unit, rest)
  | _ => some (unit, rest)

/-- The character of an escape, behind its backslash. -/
def scanEscape : Text → Option (ℕ × Text)
  | [] => none
  | c :: rest =>
    if c = 117 then
      match readHex4 rest with
      | none => none
      | some (unit, rest) => if isHigh unit then scanLow unit rest else some (unit, rest)
    else (unescape c).map fun value => (value, rest)

/-- The characters of a string, behind its quotation mark. -/
def scanString : ℕ → Text → Option (Text × Text)
  | 0, _ => none
  | _ + 1, [] => none
  | fuel + 1, c :: rest =>
    if c = 34 then some ([], rest)
    else if c < 32 then none
    else if c = 92 then
      (scanEscape rest).bind fun next => (scanString fuel next.2).map fun found => (next.1 :: found.1, found.2)
    else (scanString fuel rest).map fun found => (c :: found.1, found.2)

/-- A decimal digit. -/
def isDigit (c : ℕ) : Bool := 48 ≤ c && c ≤ 57

/-- The number of decimal digits. -/
def ofDecimal (digits : Text) : ℕ := digits.foldl (fun n c => n * 10 + (c - 48)) 0

/-- The digits before a fraction: no other one follows a zero. -/
def scanDigits : Text → Option (Text × Text)
  | [] => none
  | c :: rest =>
    if c = 48 then some ([c], rest)
    else if isDigit c then some (c :: rest.takeWhile isDigit, rest.dropWhile isDigit)
    else none

/-- A fraction, if there is one. -/
def scanFraction : Text → Text × Text
  | [] => ([], [])
  | c :: rest =>
    if c = 46 ∧ rest.takeWhile isDigit ≠ [] then (c :: rest.takeWhile isDigit, rest.dropWhile isDigit)
    else ([], c :: rest)

/-- The sign of an exponent. -/
def scanSign : Text → Text × Text
  | [] => ([], [])
  | c :: rest => if c = 43 ∨ c = 45 then ([c], rest) else ([], c :: rest)

/-- An exponent, if there is one. -/
def scanExponent : Text → Text × Text
  | [] => ([], [])
  | c :: rest =>
    let sign := scanSign rest
    if (c = 69 ∨ c = 101) ∧ sign.2.takeWhile isDigit ≠ [] then
      (c :: sign.1 ++ sign.2.takeWhile isDigit, sign.2.dropWhile isDigit)
    else ([], c :: rest)

/-- A number without its sign. -/
def scanUnsigned (negative : Bool) (input : Text) : Scan Json :=
  match scanDigits input with
  | none => .error .malformed
  | some (digits, rest) =>
    let fraction := scanFraction rest
    let exponent := scanExponent fraction.2
    if fraction.1 = [] ∧ exponent.1 = [] then
      if p.tooLong digits.length then .error .raises
      else .ok (.int (if negative then -(ofDecimal digits : ℤ) else ofDecimal digits), rest)
    else .ok (.float ((if negative then [45] else []) ++ digits ++ fraction.1 ++ exponent.1), exponent.2)

/-- Words that are values. -/
def words : List (Text × Json) :=
  [(text "null", .null), (text "true", .bool true), (text "false", .bool false), (text "NaN", .float (text "NaN")),
    (text "Infinity", .float (text "Infinity")), (text "-Infinity", .float (text "-Infinity"))]

/-- A word or a number. -/
def scanScalar (input : Text) : Scan Json :=
  match words.find? fun word => word.1.isPrefixOf input with
  | some word => .ok (word.2, input.drop word.1.length)
  | none =>
    match input with
    | [] => .error .malformed
    | c :: rest => if c = 45 then scanUnsigned p true rest else scanUnsigned p false input

/-- The dictionary of fields, of which the last one of a name counts. -/
def ofFields (fields : List (Text × Json)) : Dict Text Json :=
  fields.foldl (fun found field => found.set field.1 field.2) Dict.empty

/-- Fields with distinct names. -/
def distinct (fields : List (Text × Json)) : List (Text × Json) := (ofFields fields).items

mutual

/-- A value. -/
def scan : ℕ → ℕ → Text → Scan Json
  | 0, _, _ => .error .raises
  | _ + 1, _, [] => .error .malformed
  | fuel + 1, depth, c :: rest =>
    if c = 34 then
      match scanString rest.length rest with
      | none => .error .malformed
      | some (characters, rest) => .ok (.str characters, rest)
    else if c = 123 then
      match depth with
      | 0 => .error .raises
      | depth + 1 =>
        match skipSpace rest with
        | [] => .error .malformed
        | c :: after =>
          if c = 125 then .ok (.obj [], after)
          else (scanFields fuel depth (c :: after)).map fun found => (.obj (distinct found.1), found.2)
    else if c = 91 then
      match depth with
      | 0 => .error .raises
      | depth + 1 =>
        match skipSpace rest with
        | [] => .error .malformed
        | c :: after =>
          if c = 93 then .ok (.arr [], after)
          else (scanItems fuel depth (c :: after)).map fun found => (.arr found.1, found.2)
    else scanScalar p (c :: rest)

/-- The items of a list, with the bracket that ends it. -/
def scanItems : ℕ → ℕ → Text → Scan (List Json)
  | 0, _, _ => .error .raises
  | fuel + 1, depth, input =>
    (scan fuel depth input).bind fun item =>
      match skipSpace item.2 with
      | [] => .error .malformed
      | c :: after =>
        if c = 93 then .ok ([item.1], after)
        else if c = 44 then (scanItems fuel depth (skipSpace after)).map fun items => (item.1 :: items.1, items.2)
        else .error .malformed

/-- The fields of an object, with the brace that ends it. -/
def scanFields : ℕ → ℕ → Text → Scan (List (Text × Json))
  | 0, _, _ => .error .raises
  | _ + 1, _, [] => .error .malformed
  | fuel + 1, depth, c :: rest =>
    if c ≠ 34 then .error .malformed
    else
      match scanString rest.length rest with
      | none => .error .malformed
      | some (name, rest) =>
        match skipSpace rest with
        | [] => .error .malformed
        | c :: after =>
          if c ≠ 58 then .error .malformed
          else
            (scan fuel depth (skipSpace after)).bind fun value =>
              match skipSpace value.2 with
              | [] => .error .malformed
              | c :: after =>
                if c = 125 then .ok ([(name, value.1)], after)
                else if c = 44 then
                  (scanFields fuel depth (skipSpace after)).map fun fields => ((name, value.1) :: fields.1, fields.2)
                else .error .malformed

end

/-- A byte that continues a character of UTF-8. -/
def isTail (b : ℕ) : Bool := 128 ≤ b && b < 192

/-- The characters of UTF-8, surrogates among them. -/
def utf8 : List ℕ → Option Text
  | [] => some []
  | a :: rest =>
    if a < 128 then (utf8 rest).map fun found => a :: found
    else
      match rest with
      | [] => none
      | b :: rest =>
        if 194 ≤ a ∧ a < 224 then
          if isTail b then (utf8 rest).map fun found => ((a - 192) * 64 + (b - 128)) :: found else none
        else
          match rest with
          | [] => none
          | c :: rest =>
            if 224 ≤ a ∧ a < 240 then
              let value := (a - 224) * 4096 + (b - 128) * 64 + (c - 128)
              if isTail b && isTail c && 2048 ≤ value then (utf8 rest).map fun found => value :: found else none
            else
              match rest with
              | [] => none
              | d :: rest =>
                let value := (a - 240) * 262144 + (b - 128) * 4096 + (c - 128) * 64 + (d - 128)
                if 240 ≤ a && isTail b && isTail c && isTail d && 65536 ≤ value && value < 1114112 then (utf8 rest).map fun found => value :: found
                else none

/-- Numbers of two bytes. -/
def pairs (bigEndian : Bool) : List ℕ → Option (List ℕ)
  | [] => some []
  | a :: b :: rest => (pairs bigEndian rest).map fun found => (if bigEndian then a * 256 + b else b * 256 + a) :: found
  | [_] => none

/-- The characters of UTF-16. -/
def utf16 : List ℕ → Text
  | [] => []
  | [unit] => [unit]
  | unit :: second :: rest =>
    if isHigh unit && isLow second then join unit second :: utf16 rest else unit :: utf16 (second :: rest)

/-- The characters of UTF-32, from numbers of two bytes. -/
def utf32 (bigEndian : Bool) : List ℕ → Option Text
  | [] => some []
  | a :: b :: rest =>
    let value := if bigEndian then a * 65536 + b else b * 65536 + a
    if value < 1114112 then (utf32 bigEndian rest).map fun found => value :: found else none
  | [_] => none

/-- The text of bytes, in the encoding that its mark or its first zeros tell. -/
def decode (bytes : Bytes) : Option Text :=
  let input := bytes.map UInt8.toNat
  match input with
  | 0 :: 0 :: 254 :: 255 :: rest => (pairs true rest).bind (utf32 true)
  | 255 :: 254 :: 0 :: 0 :: rest => (pairs false rest).bind (utf32 false)
  | 254 :: 255 :: rest => (pairs true rest).map utf16
  | 255 :: 254 :: rest => (pairs false rest).map utf16
  | 239 :: 187 :: 191 :: rest => utf8 rest
  | 0 :: 0 :: _ :: _ :: _ => (pairs true input).bind (utf32 true)
  | 0 :: _ :: _ :: _ :: _ => (pairs true input).map utf16
  | _ :: 0 :: 0 :: 0 :: _ => (pairs false input).bind (utf32 false)
  | _ :: 0 :: _ :: _ :: _ => (pairs false input).map utf16
  | [0, _] => (pairs true input).map utf16
  | [_, 0] => (pairs false input).map utf16
  | _ => utf8 input

/-- Read a text that is one value. -/
def loads (bytes : Bytes) : Except Fault Json :=
  match decode bytes with
  | none => .error .malformed
  | some input =>
    (scan p (2 * input.length + 1) (p.depth + 2) (skipSpace input)).bind fun value =>
      if skipSpace value.2 = [] then .ok value.1 else .error .malformed

end SparkRing.JsonText
