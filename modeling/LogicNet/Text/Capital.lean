/-!
# Capitals

Keywords are compared in capitals. The capitals of a letter may be several: those of a sharp s and
of the ligatures are. Only the letters whose capitals are ASCII are of interest here, because all
keywords are; every other character stands for itself.
-/

namespace LogicNet

namespace Text

/-- The capitals of a character, where they are ASCII letters. -/
def capitalsOf (c : Char) : List Char :=
  match c with
  | 'ß' => ['S', 'S']
  | 'ı' => ['I']
  | 'ſ' => ['S']
  | 'ﬀ' => ['F', 'F']
  | 'ﬁ' => ['F', 'I']
  | 'ﬂ' => ['F', 'L']
  | 'ﬃ' => ['F', 'F', 'I']
  | 'ﬄ' => ['F', 'F', 'L']
  | 'ﬅ' | 'ﬆ' => ['S', 'T']
  | c => [c.toUpper]

/-- A word in capitals. -/
def capitals (word : String) : String := String.ofList (word.toList.flatMap capitalsOf)

end Text

end LogicNet
