/-!
# Lines of a text

A line ends with a line feed, which may have one carriage return in front of it. A last line
without a line feed counts too, unless it is empty.
-/
namespace Brainfuck.Text

/-- A line that was read backwards, without the carriage return that ended it. -/
def closeLine : List Char → List Char
  | '\r' :: reversed => reversed.reverse
  | reversed => reversed.reverse

/-- Go through a text with the finished lines and the current line, both backwards. -/
def linesFrom (done : List (List Char)) (current : List Char) : List Char → List (List Char)
  | [] => (if current.isEmpty then done else current.reverse :: done).reverse
  | '\n' :: rest => linesFrom (closeLine current :: done) [] rest
  | c :: rest => linesFrom done (c :: current) rest

def lines (text : List Char) : List (List Char) := linesFrom [] [] text

end Brainfuck.Text
