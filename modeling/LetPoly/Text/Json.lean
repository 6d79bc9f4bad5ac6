import LetPoly.Text.Quoted

/-!
# JSON texts

Texts and flat objects as JSON, in ASCII only: a character outside ASCII is written by its
UTF-16 units.
-/

namespace LetPoly
namespace Text

/-- The UTF-16 units of a character. -/
def utf16Units (c : Char) : List Nat :=
  let n := c.toNat
  if n < 0x10000 then [n]
  else [0xD800 + (n - 0x10000) / 0x400, 0xDC00 + (n - 0x10000) % 0x400]

/-- One character of a JSON text. -/
def jsonChar (c : Char) : List Char :=
  if c = '"' || c = '\\' then ['\\', c]
  else if c = '\n' then ['\\', 'n']
  else if c = '\r' then ['\\', 'r']
  else if c = '\t' then ['\\', 't']
  else if 0x20 ≤ c.toNat && c.toNat < 0x7F then [c]
  else (utf16Units c).flatMap fun unit => '\\' :: 'u' :: hexDigits 4 unit

/-- A text as a JSON text. -/
def jsonText (text : String) : String :=
  String.ofList ('"' :: text.toList.flatMap jsonChar ++ ['"'])

/-- A JSON object whose members are texts. -/
def jsonObject (members : List (String × String)) : String :=
  "\x7b" ++ ", ".intercalate (members.map fun (k, v) => jsonText k ++ ": " ++ jsonText v) ++
    "\x7d"

end Text
end LetPoly
