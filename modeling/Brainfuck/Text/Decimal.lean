/-!
# Decimal words

Numbers in settings and options are unsigned 64-bit words, written as decimal digits with an
optional plus sign in front. Blanks, signs of other kinds and separators are refused.
-/
namespace Brainfuck.Text

/-- The first number that does not fit a word, 2 to the power 64. -/
def wordBound : Nat := 18446744073709551616

/-- The number that a row of digits writes, if every character is a digit. -/
def ofDigits? (digits : List Char) : Option Nat :=
  digits.foldlM (fun n c => if c.isDigit then some (10 * n + (c.toNat - '0'.toNat)) else none) 0

/-- A text without one leading plus sign. -/
def dropPlus : List Char → List Char
  | '+' :: rest => rest
  | text => text

def word? (text : List Char) : Option Nat :=
  match dropPlus text with
  | [] => none
  | digits => (ofDigits? digits).filter (· < wordBound)

end Brainfuck.Text
