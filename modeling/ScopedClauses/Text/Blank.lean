/-!
White space as the Unicode property of that name has it.
-/

namespace ScopedClauses

namespace Text

def isBlankChar (char : Char) : Bool :=
  let code := char.toNat
  (0x09 ≤ code && code ≤ 0x0D) || code == 0x20 || code == 0x85 || code == 0xA0 ||
    code == 0x1680 || (0x2000 ≤ code && code ≤ 0x200A) || code == 0x2028 || code == 0x2029 ||
    code == 0x202F || code == 0x205F || code == 0x3000

def isBlank (text : String) : Bool := text.toList.all isBlankChar

end Text

end ScopedClauses
