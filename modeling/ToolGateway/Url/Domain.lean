import ToolGateway.Text.Basic
import ToolGateway.Text.Unicode.Lowercase
import ToolGateway.Text.Utf8
import ToolGateway.Url.Punycode

/-!
# Domain names

A domain name is compared and sent in ASCII: letters are lowered, and a label with other characters
is written in Punycode after the marker `xn--`.
-/

namespace ToolGateway.Url.Domain

/-- The characters that a domain name may not hold. -/
def isForbidden (c : Char) : Bool :=
  c.toNat ≤ 32 || c.toNat = 127 || "%#/:<>?@[\\]^|".toList.contains c

/-- The marker of a label in Punycode. -/
def marker : List Char := "xn--".toList

/-- The characters that end a label. -/
def isDot (c : Char) : Bool := ['.', '。', '．', '｡'].contains c

/-- Whether a character may stand in a label that is not ASCII. -/
def isLabelChar (c : Char) : Bool :=
  let n := c.toNat
  n < 128 || (0xA0 < n && !(0xE000 ≤ n && n ≤ 0xF8FF) && !(0xFDD0 ≤ n && n ≤ 0xFDEF) &&
    n % 0x10000 < 0xFFFE && n < 0xE0000 && !(0x2000 ≤ n && n ≤ 0x200D) &&
    !(0x2028 ≤ n && n ≤ 0x202F) && n ≠ 0x3000 && n ≠ 0xFFFD)

/-- The form of a character in a label: fullwidth forms become ASCII, and letters are lowered. -/
def fold (c : Char) : List Char :=
  if 0xFF01 ≤ c.toNat ∧ c.toNat ≤ 0xFF5E then [Text.lowerChar (Char.ofNat (c.toNat - 0xFEE0))]
  else Unicode.lowercase c

/-- The characters that a name is read without. -/
def isIgnored (c : Char) : Bool := c.toNat = 0xAD || c.toNat = 0x200B || c.toNat = 0x2060 ||
  c.toNat = 0xFEFF || (0xFE00 ≤ c.toNat && c.toNat ≤ 0xFE0F)

/-- The ASCII form of a label; none when it is not a label. -/
def label? (cs : List Char) : Option (List Char) :=
  if cs.all (·.toNat < 128) then
    if marker.isPrefixOf cs then
      match Punycode.decode? (cs.drop marker.length) with
      | some decoded =>
        if decoded.any (128 ≤ ·.toNat) && decoded.all (fun c => isLabelChar c && fold c == [c]) then
          some cs
        else none
      | none => none
    else some cs
  else if cs.all isLabelChar && !(marker.isPrefixOf cs) then some (marker ++ Punycode.encode cs)
  else none

/-- The ASCII form of a name given as bytes; none when it is not a name. -/
def toAscii? (bytes : List UInt8) : Option (List Char) := do
  let text ← Utf8.decode? bytes
  let labels ← (Text.pieces isDot ((text.toList.filter (!isIgnored ·)).flatMap fold)).mapM label?
  let name := List.intercalate ['.'] labels
  if name.any isForbidden then none else some name

end ToolGateway.Url.Domain
