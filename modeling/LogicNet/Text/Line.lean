import LogicNet.Text.Piece

/-!
# Lines of a file

A file is bytes, and a line is the bytes up to a line feed. Each line is decoded for itself, so that
what stands before a broken line can still be read. No byte of a longer UTF-8 sequence is a line
feed, so cutting before decoding and decoding before cutting agree on texts.
-/

namespace LogicNet

namespace Text

/-- The lines of a file, each without its line feed. -/
def lines (bytes : ByteArray) : List ByteArray :=
  (cut (· == 10) bytes.toList).map fun line => ⟨line.toArray⟩

/-- The characters of a line, `none` if its bytes are not UTF-8. -/
def decode? (line : ByteArray) : Option (List Char) := (String.fromUTF8? line).map String.toList

end Text

end LogicNet
