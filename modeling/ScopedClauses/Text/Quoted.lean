import ScopedClauses.Text.Hidden

/-!
Texts shown between quotes, with escapes for the characters that would not show.
-/

namespace ScopedClauses

namespace Text

def escapeChar : Char → List Char
  | '"' => ['\\', '"']
  | '\\' => ['\\', '\\']
  | '\t' => ['\\', 't']
  | '\n' => ['\\', 'n']
  | '\r' => ['\\', 'r']
  | '\x00' => ['\\', '0']
  | char =>
      if isHidden char then
        ['\\', 'u', '\x7b'] ++ Nat.toDigits 16 char.toNat ++ ['\x7d']
      else [char]

def quoted (text : String) : String :=
  "\"" ++ String.ofList (text.toList.flatMap escapeChar) ++ "\""

def quotedOption : Option String → String
  | none => "None"
  | some text => "Some(" ++ quoted text ++ ")"

end Text

end ScopedClauses
