/-!
# What a log shows of a text

Control characters are left out of a log, except for white space. Left out as well are the SEQUENCES
that a terminal acts on: they begin with the escape character, and what follows it tells where they
end.

* `escape [` begins a control sequence. It ends with a letter or a sign, and what comes before that
  are digits and other signs.
* `escape ]` begins a command, which ends with the bell.
* `escape X`, `escape ^` and `escape _` begin a string, which ends with the string terminator. This
  is the byte `9C`, and it counts also as part of a longer character.
* `escape P` begins the header of such a string: digits and other signs up to a letter, with which
  the string itself begins. A header out of order counts as a string from there on. The terminator
  means nothing in a header.
* Any other character after `escape` is a sequence of its own, possibly with signs in between.

A new escape character begins another sequence, and the two cancel characters end any sequence. White
space interrupts an escape or a control sequence: it is shown, and so is all that follows, up to the
next control character. There the sequence goes on.
-/

namespace LogicNet

namespace Text

/-- The white space among the control characters. -/
def isControlSpace (c : Char) : Bool := c == '\t' || c == '\n' || c == '\x0c' || c == '\x0d'

/-- The character is shown outside of sequences. -/
def isShown (c : Char) : Bool := isControlSpace c || (' ' ≤ c && c != '\x7f')

/-- How far the header of a string has come. -/
inductive Header where
  | start
  /-- After a digit, a divider or a sign of privacy. -/
  | parameters
  /-- After a sign that leads to the letter. -/
  | signs
deriving DecidableEq, Repr

/-- The sequence that is under way. -/
inductive Sequence where
  | none
  /-- After the escape character. -/
  | escape
  /-- After the escape character and a sign. -/
  | sign
  | control
  | command
  | header (h : Header)
  | string
deriving DecidableEq, Repr

namespace Sequence

/-- White space interrupts the sequence. -/
def isInterruptible : Sequence → Bool
  | .escape | .sign | .control => true
  | .none | .command | .header _ | .string => false

/-- The sequence after a character that follows the escape character. -/
def afterEscape (c : Char) : Sequence :=
  if c == '[' then .control
  else if c == ']' then .command
  else if c == 'P' then .header .start
  else if c == 'X' || c == '^' || c == '_' then .string
  else if c < ' ' || '~' < c then .escape
  else if c < '0' then .sign
  else .none

/-- The sequence after a character within a header. Parameters come before signs, and only the first
of them may be a sign of privacy. -/
def afterHeader (h : Header) (c : Char) : Sequence :=
  if c < ' ' || '~' < c then .header h
  else if c < '0' then .header .signs
  else if '@' ≤ c then .string
  else if h == .start || (h == .parameters && c < '<') then .header .parameters
  else .string

/-- The sequence after a character that is not shown. -/
def next (s : Sequence) (c : Char) : Sequence :=
  if c == '\x1b' then .escape
  else if c == '\x18' || c == '\x1a' then .none
  else
    match s with
    | .none => .none
    | .escape => afterEscape c
    | .sign => if '0' ≤ c && c ≤ '~' then .none else .sign
    | .control => if '@' ≤ c && c ≤ '~' then .none else .control
    | .command => if c == '\x07' then .none else .command
    | .header h => afterHeader h c
    | .string => if (String.singleton c).toUTF8.toList.contains 0x9c then .none else .string

end Sequence

/-- Show what is left of a text, in the middle of a sequence. With `isOpen` the last character was
shown. -/
def showAfter (isOpen : Bool) (s : Sequence) : List Char → List Char
  | [] => []
  | c :: cs =>
    let shows := if isOpen || s == .none then isShown c else s.isInterruptible && isControlSpace c
    if shows then c :: showAfter true (if c ≤ '\x7f' then s else .none) cs
    else showAfter false (s.next c) cs

/-- What a log shows of a text. -/
def shown (text : String) : String := String.ofList (showAfter true .none text.toList)

end Text

end LogicNet
