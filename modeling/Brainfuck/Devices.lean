import Brainfuck.Console
import Brainfuck.FileTree

/-!
# The devices of a session

Standard input, standard output and the keyboard, as far as they matter to a session. Standard
input is also a file: reading it as one uses it up.
-/
namespace Brainfuck

/-- The devices of a session, and what is done to it from outside. -/
structure Devices where
  input : List ReadEvent
  inputEnd : ReadEnd
  /-- Why standard output takes nothing, if it does not. -/
  refusal : Option String
  /-- Ctrl+C is pressed when so many bytes have arrived at standard output. -/
  interruptAfter : Option Nat

namespace Devices

def console (d : Devices) : Console :=
  ⟨d.input, d.inputEnd, .buffered (.empty d.refusal), false, []⟩

/-- Read all that there is, after the bytes read so far, and tell what is left. There is no
result if the end never comes. -/
def drainFrom (inputEnd : ReadEnd) (bytes : ByteArray) :
    List ReadEvent → Option (Except ReadFailure ByteArray × List ReadEvent)
  | [] =>
    match inputEnd with
    | .closed => some (.ok bytes, [])
    | .failing message => some (.error (.other message), [])
    | .waiting => none
  | .byte value :: rest => drainFrom inputEnd (bytes.push value) rest
  | .nothing :: rest => some (.ok bytes, rest)
  | .cancel :: rest => drainFrom inputEnd bytes rest
  | .fail failure :: rest =>
    if failure.interrupted then drainFrom inputEnd bytes rest
    else some (.error (.other failure.message), rest)

def drain (d : Devices) : Option (Except ReadFailure ByteArray × Devices) :=
  (drainFrom d.inputEnd ByteArray.empty d.input).map fun (bytes, input) =>
    (bytes, { d with input })

/-- The bytes of a file, which may be standard input. -/
def fetch (d : Devices) :
    Except ReadFailure FileContent → Option (Except ReadFailure ByteArray × Devices)
  | .error failure => some (.error failure, d)
  | .ok (.bytes content) => some (.ok content, d)
  | .ok .standardInput => d.drain

end Devices
end Brainfuck
