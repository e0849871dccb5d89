/-!
# Pieces of a line

Lines are cut at separators. The pieces lose the blanks around them, and empty pieces do not count,
so separators may repeat and may stand at either end.

BLANK is the property `White_Space` of the Unicode character database. It has characters outside
ASCII, and leaves out the joiners and the byte order mark, which only look empty.
-/

namespace LogicNet

namespace Text

/-- The characters of the property `White_Space`. -/
def isBlank (c : Char) : Bool :=
  let n := c.toNat
  (0x9 ≤ n && n ≤ 0xd) || n == 0x20 || n == 0x85 || n == 0xa0 || n == 0x1680
    || (0x2000 ≤ n && n ≤ 0x200a) || n == 0x2028 || n == 0x2029 || n == 0x202f || n == 0x205f
    || n == 0x3000

/-- What is left without the blanks at both ends. -/
def trim (cs : List Char) : List Char :=
  ((cs.dropWhile isBlank).reverse.dropWhile isBlank).reverse

/-- The parts before, between and after the separators. -/
def cut {α : Type} (separates : α → Bool) (xs : List α) : List (List α) :=
  let (first, others) := xs.foldr
    (fun x (first, others) =>
      if separates x then ([], first :: others) else (x :: first, others))
    ([], [])
  first :: others

/-- The first line of a text. A carriage return right before the line feed is part of the end of the
line. -/
def firstLine : List Char → List Char
  | [] => []
  | '\n' :: _ => []
  | '\x0d' :: '\n' :: _ => []
  | c :: cs => c :: firstLine cs

/-- The pieces of a line that hold something. -/
def pieces (separators : List Char) (cs : List Char) : List String :=
  (((cut separators.contains cs).map trim).filter (!·.isEmpty)).map String.ofList

end Text

end LogicNet
