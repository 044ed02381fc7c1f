import ScopedClauses.Json.Basic
import ScopedClauses.Json.Source

/-!
Reading JSON texts as values: surrogate escapes are paired, numbers become integers or
floats, a repeated key keeps its first place and its last value, and nesting is bounded.
-/

namespace ScopedClauses

namespace Glyph

def isLeading (code : Nat) : Bool := 0xD800 ≤ code && code ≤ 0xDBFF

def isTrailing (code : Nat) : Bool := 0xDC00 ≤ code && code ≤ 0xDFFF

def chars? : List Glyph → Option (List Char)
  | [] => some []
  | .char value :: rest => (value :: ·) <$> chars? rest
  | .unit leading :: .unit trailing :: rest =>
      if isTrailing leading then none
      else if isLeading leading then
        if isTrailing trailing then
          (Char.ofNat (0x10000 + (leading - 0xD800) * 0x400 + (trailing - 0xDC00)) :: ·) <$>
            chars? rest
        else none
      else (Char.ofNat leading :: ·) <$> chars? (.unit trailing :: rest)
  | .unit code :: rest =>
      if isLeading code || isTrailing code then none
      else (Char.ofNat code :: ·) <$> chars? rest

def text? (glyphs : List Glyph) : Option String := String.ofList <$> chars? glyphs

end Glyph

namespace NumberLiteral

def wordMost : Nat := UInt64.size - 1

def appendDigits (word : Nat) : List Char → Nat × Nat
  | [] => (word, 0)
  | digit :: rest =>
      let longer := word * 10 + (digit.toNat - '0'.toNat)
      if longer ≤ wordMost then
        let (final, count) := appendDigits longer rest
        (final, count + 1)
      else (word, 0)

def natural (digits : List Char) : Nat :=
  digits.foldl (fun value digit => value * 10 + (digit.toNat - '0'.toNat)) 0

def powerMost : Nat := 308

def powerOfTen (exponent : Nat) : Float := Float.ofScientific 1 false exponent

def scale (value : Float) (exponent : Int) : Nat → Option Float
  | 0 => some value
  | steps + 1 =>
      if exponent.natAbs ≤ powerMost then
        if 0 ≤ exponent then
          let scaled := value * powerOfTen exponent.natAbs
          if scaled.isInf then none else some scaled
        else some (value / powerOfTen exponent.natAbs)
      else if value == 0 then some value
      else if 0 ≤ exponent then none
      else scale (value / powerOfTen powerMost) (exponent + powerMost) steps

def float? (literal : NumberLiteral) : Option Float := do
  let (whole, taken) := appendDigits 0 literal.whole
  let (word, places) := appendDigits whole literal.fraction
  let dropped : Int := (literal.whole.length - taken : Nat)
  let written : Int := match literal.exponent with
    | none => 0
    | some (negative, digits) =>
        if negative then -(natural digits : Int) else natural digits
  let exponent := dropped - places + written
  let magnitude ← scale word.toUInt64.toFloat exponent (exponent.natAbs / powerMost + 1)
  some (if literal.negative then -magnitude else magnitude)

/-- A literal of digits alone is an integer where a 64-bit word holds it; minus zero, and
every other literal, is a float. -/
def number? (literal : NumberLiteral) : Option Number :=
  let value := natural literal.whole
  if literal.fraction.isEmpty && literal.exponent.isNone && value ≤ wordMost then
    if !literal.negative then some (.int value)
    else if value = 0 || Number.signedBound < value then some (.float (-(value.toUInt64.toFloat)))
    else some (.int (-(value : Int)))
  else Number.float <$> literal.float?

end NumberLiteral

namespace Source

mutual

def value : Nat → Source → Option Json
  | _, .null => some .null
  | _, .bool flag => some (.bool flag)
  | _, .number literal => Json.number <$> literal.number?
  | _, .string glyphs => Json.string <$> Glyph.text? glyphs
  | 0, .array _ => none
  | depth + 1, .array items => Json.array <$> itemValues depth items
  | 0, .object _ => none
  | depth + 1, .object members =>
      (fun entries => Json.object (Members.merge [] entries)) <$> memberValues depth members

def itemValues (depth : Nat) : List Source → Option (List Json)
  | [] => some []
  | item :: rest => do
      let first ← value depth item
      let others ← itemValues depth rest
      some (first :: others)

def memberValues (depth : Nat) : List (List Glyph × Source) → Option (List (String × Json))
  | [] => some []
  | (key, content) :: rest => do
      let name ← Glyph.text? key
      let first ← value depth content
      let others ← memberValues depth rest
      some ((name, first) :: others)

end

end Source

namespace Json

def depthMost : Nat := 127

def parse? (text : String) : Option Json := do
  (← Source.parse? text).value depthMost

end Json

end ScopedClauses
