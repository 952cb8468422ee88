import Brainfuck.Settings

/-!
# Arguments of the command line

A subcommand takes options and then code. The first argument that is not a known option begins
the code, and everything after it is code too, whatever it looks like. An argument `--` in
front of all code is dropped.
-/
namespace Brainfuck

inductive Subcommand where
  | run | check
  deriving DecidableEq

namespace Subcommand

def ofName? : String → Option Subcommand
  | "run" => some .run
  | "check" => some .check
  | _ => none

end Subcommand

namespace Arguments

/-- An option without a value. -/
inductive Switch where
  | help | bounded | growable
  deriving DecidableEq

/-- An option with a value. -/
inductive Parameter where
  | file | timeout | stepLimit | memory
  deriving DecidableEq

/-- The switch with a given long name. Only `run` knows the tape policies. -/
def Switch.ofName? (sub : Subcommand) (name : String) : Option Switch :=
  match sub, name with
  | _, "help" => some .help
  | .run, "bounded" => some .bounded
  | .run, "growable" => some .growable
  | _, _ => none

def Parameter.ofName? (sub : Subcommand) (name : String) : Option Parameter :=
  match sub, name with
  | _, "file" => some .file
  | .run, "timeout" => some .timeout
  | .run, "max-steps" => some .stepLimit
  | .run, "memory" => some .memory
  | _, _ => none

inductive Item where
  | switch (s : Switch)
  | assigned (p : Parameter) (value : List Char)
  /-- The value is the next argument. -/
  | awaiting (p : Parameter)
  deriving DecidableEq

/-- What an argument in front of the code is. -/
inductive Word where
  | items (items : List Item)
  | separator
  /-- A switch with a value. -/
  | malformed
  | code
  deriving DecidableEq

/-- The options in a row of short names. A value may be attached to the last one. -/
def cluster : List Char → List Item
  | [] => []
  | ['f'] => [.awaiting .file]
  | 'f' :: value => [.assigned .file value]
  | _ :: rest => .switch .help :: cluster rest

def isShort (c : Char) : Bool := c == 'f' || c == 'h'

/-- Read a long option, given without its two hyphens. -/
def long (sub : Subcommand) (text : List Char) : Word :=
  let name := String.ofList (text.takeWhile (· != '='))
  match text.dropWhile (· != '=') with
  | [] =>
    match Switch.ofName? sub name, Parameter.ofName? sub name with
    | some s, _ => .items [.switch s]
    | none, some p => .items [.awaiting p]
    | none, none => .code
  | _ :: value =>
    match Switch.ofName? sub name, Parameter.ofName? sub name with
    | some _, _ => .malformed
    | none, some p => .items [.assigned p value]
    | none, none => .code

/-- Recognise an argument. Short names count only when all of them are known. -/
def word (sub : Subcommand) (text : List Char) : Word :=
  match text with
  | ['-', '-'] => .separator
  | '-' :: '-' :: rest => long sub rest
  | '-' :: c :: rest => if (c :: rest).all isShort then .items (cluster (c :: rest)) else .code
  | _ => .code

structure Options where
  help : Bool := false
  bounded : Bool := false
  growable : Bool := false
  file : Option String := none
  timeout : Option Nat := none
  stepLimit : Option Nat := none
  memory : Option Nat := none
  code : List String := []
  deriving DecidableEq

namespace Options

/-- Turn a switch on. No switch is given twice, and the two policies exclude each other. -/
def turnOn (o : Options) : Switch → Option Options
  | .help => if o.help then none else some { o with help := true }
  | .bounded => if o.bounded || o.growable then none else some { o with bounded := true }
  | .growable => if o.bounded || o.growable then none else some { o with growable := true }

/-- Give a parameter its value. No parameter is given twice, no value is empty, and numbers must
be numbers. -/
def assign (o : Options) (p : Parameter) (value : List Char) : Option Options :=
  if value.isEmpty then none
  else
    match p with
    | .file => if o.file.isSome then none else some { o with file := some (String.ofList value) }
    | .timeout =>
      if o.timeout.isSome then none
      else (Text.word? value).map fun n => { o with timeout := some n }
    | .stepLimit =>
      if o.stepLimit.isSome then none
      else (Text.word? value).map fun n => { o with stepLimit := some n }
    | .memory =>
      if o.memory.isSome then none
      else (Settings.positive? value).map fun n => { o with memory := some n }

/-- Take up the options of one argument. The result names the parameter whose value is still
to come. -/
def take (o : Options) : List Item → Option (Options × Option Parameter)
  | [] => some (o, none)
  | .switch s :: rest => (o.turnOn s).bind (take · rest)
  | .assigned p value :: rest => (o.assign p value).bind (take · rest)
  | .awaiting p :: _ => some (o, some p)

/-- Read the arguments of a subcommand, after the options in `o`. The argument after a parameter
is its value, unless it is itself an option or `--`. -/
def parseFrom (sub : Subcommand) : List String → Options → Option Options
  | [], o => some o
  | argument :: rest, o =>
    match word sub argument.toList with
    | .separator => some { o with code := rest }
    | .code => some { o with code := argument :: rest }
    | .malformed => none
    | .items items =>
      match o.take items, rest with
      | none, _ => none
      | some (o, none), rest => parseFrom sub rest o
      | some (_, some _), [] => none
      | some (o, some p), value :: rest =>
        if word sub value.toList = .code then
          match o.assign p value.toList with
          | none => none
          | some o => parseFrom sub rest o
        else none

def parse (sub : Subcommand) (arguments : List String) : Option Options :=
  parseFrom sub arguments {}

def settings (o : Options) : Settings :=
  { memory := o.memory
    policy := if o.bounded then some .bounded else if o.growable then some .growable else none
    timeout := o.timeout
    stepLimit := o.stepLimit }

end Options

inductive Request where
  /-- Show how the tool is used; asked for, or for want of a subcommand. -/
  | usage (asked : Bool)
  | perform (sub : Subcommand) (options : Options)
  deriving DecidableEq

/-- Read the arguments from the subcommand on. Help in front of it wins, but the arguments of
the subcommand have to be right all the same. Nothing may follow a `--`. -/
def parseFrom (asked : Bool) : List String → Option Request
  | [] => some (.usage asked)
  | argument :: rest =>
    if argument = "-h" ∨ argument = "--help" then
      if asked then none else parseFrom true rest
    else if argument = "--" then
      if rest.isEmpty then some (.usage asked) else none
    else
      (Subcommand.ofName? argument).bind fun sub =>
        (Options.parse sub rest).map fun options =>
          if asked then .usage true else .perform sub options

/-- Read a command line, the name of the tool left out. There is no result if it is wrong. -/
def parse (arguments : List String) : Option Request := parseFrom false arguments

end Arguments
end Brainfuck
