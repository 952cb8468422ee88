import Brainfuck.Fault
import Brainfuck.Program

/-!
# Diagnostics

A fault is reported on one line. When it points at a place in the source, the line of the
source with that place follows, cut to a window, and under it a caret in the right column.
-/
namespace Brainfuck.Diagnostic

/-- How many characters are shown on either side of the place in question. -/
def reach : Nat := 32

/-- A place of a text: positions past the end stand for the last character. -/
def clamp (text : List Char) (position : Nat) : Nat := min position (text.length - 1)

/-- The characters of the same line in front of a position, as far as they are shown. -/
def leftOf (text : List Char) (position : Nat) : List Char :=
  (((text.take position).reverse.takeWhile (· != '\n')).take reach).reverse

/-- The character at a position and those after it on the same line, as far as they are
shown. -/
def rightFrom (text : List Char) (position : Nat) : List Char :=
  ((text.drop position).takeWhile (· != '\n')).take (reach + 1)

/-- A tab is shown as one blank, so that columns agree. -/
def untab (c : Char) : Char := if c = '\t' then ' ' else c

def excerpt (text : List Char) (position : Nat) : List Char :=
  (leftOf text position ++ rightFrom text position).map untab

/-- The caret in the column of a position. -/
def caret (text : List Char) (position : Nat) : List Char :=
  List.replicate (leftOf text position).length ' ' ++ ['^']

/-- The source line of a position and the caret under it, both indented. -/
def context (source : String) (position : Nat) : String :=
  let text := source.toList
  let place := clamp text position
  String.ofList ([' ', ' '] ++ excerpt text place ++ ['\n', ' ', ' '] ++ caret text place ++ ['\n'])

def withContext (heading source : String) (position : Nat) : String :=
  heading ++ "\n" ++ context source position

/-- The place in the source that a fault points at. Bracket faults carry theirs. -/
def place? (program : Program) : Fault → Option Nat
  | .unclosedLoop _ offset | .unopenedLoop _ offset => some offset
  | fault => fault.instruction?.bind program.offset?

def heading (tool : String) (fault : Fault) : String :=
  tool ++ ": " ++ fault.kind.label ++ ": " ++ fault.message

def render (tool source : String) (program : Program) (fault : Fault) : String :=
  match place? program fault with
  | some position => withContext (heading tool fault) source position
  | none => heading tool fault ++ "\n"

end Brainfuck.Diagnostic
