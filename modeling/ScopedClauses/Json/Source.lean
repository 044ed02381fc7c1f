/-!
JSON texts as they are written: every member is kept, also one whose key repeats, numbers
are still literals and escapes are not yet resolved. Any nesting depth is accepted.
-/

namespace ScopedClauses

inductive Glyph where
  | char (value : Char)
  | unit (code : Nat)
deriving Repr, DecidableEq

structure NumberLiteral where
  negative : Bool
  whole : List Char
  fraction : List Char
  exponent : Option (Bool × List Char)
deriving Repr, DecidableEq

inductive Source where
  | null
  | bool (value : Bool)
  | number (literal : NumberLiteral)
  | string (glyphs : List Glyph)
  | array (items : List Source)
  | object (members : List (List Glyph × Source))

namespace Source

def isBlank (char : Char) : Bool :=
  char == ' ' || char == '\t' || char == '\n' || char == '\r'

def skipBlanks (text : List Char) : List Char := text.dropWhile isBlank

def hexValue? (char : Char) : Option Nat :=
  if '0' ≤ char ∧ char ≤ '9' then some (char.toNat - '0'.toNat)
  else if 'a' ≤ char ∧ char ≤ 'f' then some (char.toNat - 'a'.toNat + 10)
  else if 'A' ≤ char ∧ char ≤ 'F' then some (char.toNat - 'A'.toNat + 10)
  else none

def stringBody : List Char → Option (List Glyph × List Char)
  | '"' :: rest => some ([], rest)
  | '\\' :: 'u' :: first :: second :: third :: fourth :: rest => do
      let code := ((← hexValue? first) * 16 + (← hexValue? second)) * 256 +
        ((← hexValue? third) * 16 + (← hexValue? fourth))
      let (glyphs, after) ← stringBody rest
      some (.unit code :: glyphs, after)
  | '\\' :: char :: rest => do
      let value ← match char with
        | '"' => some '"'
        | '\\' => some '\\'
        | '/' => some '/'
        | 'b' => some '\x08'
        | 'f' => some '\x0c'
        | 'n' => some '\n'
        | 'r' => some '\r'
        | 't' => some '\t'
        | _ => none
      let (glyphs, after) ← stringBody rest
      some (.char value :: glyphs, after)
  | char :: rest => do
      guard (0x20 ≤ char.toNat)
      let (glyphs, after) ← stringBody rest
      some (.char char :: glyphs, after)
  | [] => none

def splitDigits (text : List Char) : List Char × List Char :=
  (text.takeWhile Char.isDigit, text.dropWhile Char.isDigit)

def someDigits? (text : List Char) : Option (List Char × List Char) :=
  match splitDigits text with
  | ([], _) => none
  | found => some found

def wholePart? : List Char → Option (List Char × List Char)
  | '0' :: rest => some (['0'], rest)
  | text => someDigits? text

def fractionPart? : List Char → Option (List Char × List Char)
  | '.' :: rest => someDigits? rest
  | text => some ([], text)

def exponentDigits? (negative : Bool) (text : List Char) :
    Option (Option (Bool × List Char) × List Char) := do
  let (digits, rest) ← someDigits? text
  some (some (negative, digits), rest)

def exponentPart? : List Char → Option (Option (Bool × List Char) × List Char)
  | char :: rest =>
      if char == 'e' || char == 'E' then
        match rest with
        | '+' :: digits => exponentDigits? false digits
        | '-' :: digits => exponentDigits? true digits
        | digits => exponentDigits? false digits
      else some (none, char :: rest)
  | [] => some (none, [])

def unsignedNumber? (negative : Bool) (text : List Char) : Option (Source × List Char) := do
  let (whole, rest) ← wholePart? text
  let (fraction, rest) ← fractionPart? rest
  let (exponent, rest) ← exponentPart? rest
  some (.number ⟨negative, whole, fraction, exponent⟩, rest)

def number? : List Char → Option (Source × List Char)
  | '-' :: rest => unsignedNumber? true rest
  | text => unsignedNumber? false text

mutual

def value? : Nat → List Char → Option (Source × List Char)
  | 0, _ => none
  | fuel + 1, text =>
      match skipBlanks text with
      | 'n' :: 'u' :: 'l' :: 'l' :: rest => some (.null, rest)
      | 't' :: 'r' :: 'u' :: 'e' :: rest => some (.bool true, rest)
      | 'f' :: 'a' :: 'l' :: 's' :: 'e' :: rest => some (.bool false, rest)
      | '"' :: rest => do
          let (glyphs, rest) ← stringBody rest
          some (.string glyphs, rest)
      | '[' :: rest =>
          match skipBlanks rest with
          | ']' :: rest => some (.array [], rest)
          | _ => do
              let (items, rest) ← items? fuel rest
              some (.array items, rest)
      | '\x7b' :: rest =>
          match skipBlanks rest with
          | '\x7d' :: rest => some (.object [], rest)
          | _ => do
              let (members, rest) ← members? fuel rest
              some (.object members, rest)
      | text => number? text

def items? : Nat → List Char → Option (List Source × List Char)
  | 0, _ => none
  | fuel + 1, text => do
      let (item, rest) ← value? fuel text
      match skipBlanks rest with
      | ',' :: rest => do
          let (items, rest) ← items? fuel rest
          some (item :: items, rest)
      | ']' :: rest => some ([item], rest)
      | _ => none

def members? : Nat → List Char → Option (List (List Glyph × Source) × List Char)
  | 0, _ => none
  | fuel + 1, text =>
      match skipBlanks text with
      | '"' :: rest => do
          let (key, rest) ← stringBody rest
          match skipBlanks rest with
          | ':' :: rest => do
              let (value, rest) ← value? fuel rest
              match skipBlanks rest with
              | ',' :: rest => do
                  let (members, rest) ← members? fuel rest
                  some ((key, value) :: members, rest)
              | '\x7d' :: rest => some ([(key, value)], rest)
              | _ => none
          | _ => none
      | _ => none

end

def parse? (text : String) : Option Source := do
  let chars := text.toList
  let (source, rest) ← value? (2 * chars.length + 2) chars
  guard (skipBlanks rest).isEmpty
  some source

end Source

end ScopedClauses
