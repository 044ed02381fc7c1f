import ScopedClauses.Json.Basic
import ScopedClauses.Decimal.Shortest

/-!
The compact text of a JSON value: no blanks, members in order, and the fewest digits that
read a float back.
-/

namespace ScopedClauses

namespace Number

def plainLeast : Int := -5

def plainMost : Int := 15

def zeros (count : Nat) : String := String.ofList (List.replicate count '0')

def decimalText (decimal : Decimal) : String :=
  let digits := Nat.toDigits 10 decimal.digits
  let places := digits.length
  let leading : Int := decimal.exponent + places - 1
  if plainLeast ≤ leading && leading ≤ plainMost then
    if 0 ≤ decimal.exponent then
      String.ofList digits ++ zeros decimal.exponent.toNat ++ ".0"
    else if 0 ≤ leading then
      let whole := leading.toNat + 1
      String.ofList (digits.take whole) ++ "." ++ String.ofList (digits.drop whole)
    else
      "0." ++ zeros (-leading - 1).toNat ++ String.ofList digits
  else
    let mantissa := match digits with
      | [] => "0"
      | [digit] => String.ofList [digit]
      | digit :: rest => String.ofList [digit] ++ "." ++ String.ofList rest
    mantissa ++ (if leading < 0 then "e-" else "e+") ++ toString leading.natAbs

def floatText (value : Float) : String :=
  let bits := value.toBits
  let sign := if bits >>> 63 = 1 then "-" else ""
  let magnitude := Binary.ofBits bits
  if magnitude.significand = 0 then sign ++ "0.0"
  else sign ++ decimalText (Decimal.shortest magnitude)

def text : Number → String
  | .int value => toString value
  | .float value => floatText value

end Number

namespace Json

def hexDigit (value : Nat) : Char := Nat.digitChar (value % 16)

def escapeChar : Char → List Char
  | '"' => ['\\', '"']
  | '\\' => ['\\', '\\']
  | '\x08' => ['\\', 'b']
  | '\t' => ['\\', 't']
  | '\n' => ['\\', 'n']
  | '\x0c' => ['\\', 'f']
  | '\r' => ['\\', 'r']
  | char =>
      if char.toNat < 0x20 then
        ['\\', 'u', '0', '0', hexDigit (char.toNat / 16), hexDigit char.toNat]
      else [char]

def quote (value : String) : String :=
  "\"" ++ String.ofList (value.toList.flatMap escapeChar) ++ "\""

mutual

def compact : Json → String
  | .null => "null"
  | .bool value => if value then "true" else "false"
  | .number value => value.text
  | .string value => quote value
  | .array items => "[" ++ ",".intercalate (compactItems items) ++ "]"
  | .object members => "\x7b" ++ ",".intercalate (compactMembers members) ++ "\x7d"

def compactItems : List Json → List String
  | [] => []
  | item :: rest => compact item :: compactItems rest

def compactMembers : List (String × Json) → List String
  | [] => []
  | (key, value) :: rest => (quote key ++ ":" ++ compact value) :: compactMembers rest

end

end Json

end ScopedClauses
