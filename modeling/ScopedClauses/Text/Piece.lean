/-!
Cutting texts at a separator.
-/

namespace ScopedClauses

namespace Text

def splitLast? (separator : Char) (text : String) : Option (String × String) :=
  let backwards := text.toList.reverse
  match backwards.dropWhile (· != separator) with
  | [] => none
  | _ :: before =>
      let after := backwards.takeWhile (· != separator)
      some (String.ofList before.reverse, String.ofList after.reverse)

def dropLeading? : List Char → List Char → Option (List Char)
  | [], text => some text
  | _ :: _, [] => none
  | char :: separator, first :: text =>
      if char = first then dropLeading? separator text else none

/-- The pieces between the occurrences of a separator, found from left to right. The first
argument holds the current piece backwards, the second counts characters of a separator
already found that are still to be passed over. -/
def pieces (separator : List Char) : List Char → Nat → List Char → List (List Char)
  | piece, _, [] => [piece.reverse]
  | piece, passing + 1, _ :: text => pieces separator piece passing text
  | piece, 0, first :: text =>
      match dropLeading? separator (first :: text) with
      | some _ => piece.reverse :: pieces separator [] (separator.length - 1) text
      | none => pieces separator (first :: piece) 0 text

def split (separator text : String) : List String :=
  match separator.toList with
  | [] => "" :: (text.toList.map fun char => String.ofList [char]) ++ [""]
  | chars => (pieces chars [] 0 text.toList).map String.ofList

end Text

end ScopedClauses
