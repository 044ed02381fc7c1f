/-!
JSON values whose objects keep the order in which their members were written.
An integer and a float are different numbers, even where they are equal in value.
-/

namespace ScopedClauses

inductive Number where
  | int (value : Int)
  | float (value : Float)
deriving Repr, DecidableEq

inductive Json where
  | null
  | bool (value : Bool)
  | number (value : Number)
  | string (value : String)
  | array (items : List Json)
  | object (members : List (String × Json))
deriving Inhabited

abbrev Members := List (String × Json)

namespace Number

def signedBound : Int := 9223372036854775808

def signed? : Number → Option Int
  | .int value => if value < signedBound then some value else none
  | .float _ => none

def natural? : Number → Option Nat
  | .int value => if 0 ≤ value then some value.toNat else none
  | .float _ => none

def nearest (value : Int) : Float :=
  if value < 0 then -(value.natAbs.toUInt64.toFloat) else value.natAbs.toUInt64.toFloat

def toFloat : Number → Float
  | .int value => nearest value
  | .float value => value

def agrees : Number → Number → Bool
  | .int left, .int right => left == right
  | .float left, .float right => left == right
  | _, _ => false

end Number

namespace Members

def put (key : String) (value : Json) : Members → Members
  | [] => [(key, value)]
  | (name, old) :: rest =>
      if name = key then (key, value) :: rest else (name, old) :: put key value rest

def merge (members extra : Members) : Members :=
  extra.foldl (fun merged (key, value) => put key value merged) members

/-- Takes a member out; the last member moves into its place. -/
def takeOut (key : String) (members : Members) : Members :=
  match members.findIdx? (·.1 = key), members.getLast? with
  | some index, some last => (members.set index last).dropLast
  | _, _ => members

end Members

namespace Json

def get? (key : String) : Json → Option Json
  | .object members => members.lookup key
  | _ => none

def string? : Json → Option String
  | .string value => some value
  | _ => none

def bool? : Json → Option Bool
  | .bool value => some value
  | _ => none

def number? : Json → Option Number
  | .number value => some value
  | _ => none

def array? : Json → Option (List Json)
  | .array items => some items
  | _ => none

def object? : Json → Option Members
  | .object members => some members
  | _ => none

def isNull : Json → Bool
  | .null => true
  | _ => false

def isObject (json : Json) : Bool := json.object?.isSome

def ofNat (value : Nat) : Json := .number (.int value)

def ofOption : Option Json → Json
  | some json => json
  | none => .null

def ofFloat (value : Float) : Json :=
  if value.isFinite then .number (.float value) else .null

mutual

def agrees : Json → Json → Bool
  | .null, .null => true
  | .bool left, .bool right => left == right
  | .number left, .number right => left.agrees right
  | .string left, .string right => left == right
  | .array left, .array right => itemsAgree left right
  | .object left, .object right => left.length == right.length && membersAgree left right
  | _, _ => false

def itemsAgree : List Json → List Json → Bool
  | [], [] => true
  | left :: lefts, right :: rights => agrees left right && itemsAgree lefts rights
  | _, _ => false

def membersAgree : List (String × Json) → Members → Bool
  | [], _ => true
  | (key, value) :: rest, others =>
      (match others.lookup key with
        | some other => agrees value other
        | none => false) && membersAgree rest others

end

end Json

end ScopedClauses
