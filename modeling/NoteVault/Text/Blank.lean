import NoteVault.Text.Ranges

/-!
White space of all scripts, and the trimming of a text by it.
-/
namespace NoteVault.Text

/-- The code points that separate words or lines. -/
def blankRanges : Ranges :=
  [(9, 13), (28, 32), (133, 133), (160, 160), (5760, 5760), (8192, 8202), (8232, 8233), (8239, 8239),
   (8287, 8287), (12288, 12288)]

/-- White space in the sense of the character database, with the four separators U+001C to U+001F. -/
def isBlank (c : Char) : Bool := blankRanges.has c

/-- Drops the characters of one class from both ends. -/
def trimBy (p : Char → Bool) (s : List Char) : List Char :=
  ((s.dropWhile p).reverse.dropWhile p).reverse

/-- The text without white space at its ends. -/
def trim (s : String) : String := String.ofList (trimBy isBlank s.toList)

/-- The text holds nothing but white space. -/
def isAllBlank (s : String) : Bool := s.toList.all isBlank

end NoteVault.Text
