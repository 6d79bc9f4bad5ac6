/-!
# Code point order

Texts in the order of a dictionary over code points: a text comes before its extensions.
-/

namespace LetPoly
namespace Text

/-- Whether some characters come before others, or are the same. -/
def charsPrecede : List Char → List Char → Bool
  | [], _ => true
  | _ :: _, [] => false
  | a :: as, b :: bs =>
      if a = b then charsPrecede as bs else decide (a.toNat < b.toNat)

/-- Whether a text comes before another, or is the same. -/
def precedes (a b : String) : Bool :=
  charsPrecede a.toList b.toList

/-- Puts a text into sorted texts, in front of those that it precedes. -/
def insertText (text : String) : List String → List String
  | [] => [text]
  | first :: rest =>
      if precedes text first then text :: first :: rest else first :: insertText text rest

/-- Texts in code point order. -/
def sortTexts (texts : List String) : List String :=
  texts.foldr insertText []

end Text
end LetPoly
