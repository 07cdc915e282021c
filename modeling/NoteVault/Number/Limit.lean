/-!
The limit on the length of decimal integers, and the wording of its violations.
-/
namespace NoteVault.Number

/-- The most digits that a decimal integer may have. -/
def maxDigits : Nat := 4300

/-- How the limit is described. -/
def limitText : String := "Exceeds the limit (" ++ toString maxDigits ++ " digits) for integer string conversion"

def limitAdvice : String := "use sys.set_int_max_str_digits() to increase the limit"

/-- An integer of this many digits cannot be read. -/
def tooLongToRead (digits : Nat) : String :=
  limitText ++ ": value has " ++ toString digits ++ " digits; " ++ limitAdvice

/-- An integer has too many digits to be written. -/
def tooLongToWrite : String := limitText ++ "; " ++ limitAdvice

end NoteVault.Number
