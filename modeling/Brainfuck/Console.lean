/-!
# The console

A run reads and writes single bytes on a console. What the console answers is laid down in
advance: a list of events for its reader, and either a list of events or a line buffer in
front of a device for its writer. The console remembers every call that was made on it and
carries the flag by which a run is asked to stop, since a call may raise it.

A call that was merely interrupted is made again, except for a flush.
-/
namespace Brainfuck

structure Failure where
  /-- Whether the call was interrupted before it did anything. -/
  interrupted : Bool
  message : String
  deriving DecidableEq

/-- What one read meets. -/
inductive ReadEvent where
  | byte (value : UInt8)
  /-- The input is at its end for this one read. -/
  | nothing
  /-- The stop flag is raised while the read waits; the next event answers it. -/
  | cancel
  | fail (failure : Failure)
  deriving DecidableEq

/-- What reads meet when all events are used up. -/
inductive ReadEnd where
  | closed
  | failing (message : String)
  | waiting
  deriving DecidableEq

/-- What one write meets. Without an event a write is accepted. -/
inductive WriteEvent where
  | accept
  /-- The write succeeds with no byte taken. -/
  | acceptNothing
  /-- The byte is taken and the stop flag is raised. -/
  | cancel
  /-- The stop flag is raised while the write waits; the next event answers it. -/
  | raise
  | fail (failure : Failure)
  deriving DecidableEq

/-- What one flush meets. Without an event a flush succeeds. A flush is tried once, so one event
says all of it. -/
inductive FlushEvent where
  | succeed
  /-- The flush succeeds and the stop flag is raised. -/
  | cancel
  | fail (failure : Failure)
  /-- The stop flag is raised and the flush fails. -/
  | cancelFail (failure : Failure)
  deriving DecidableEq

/-- Bytes on their way to a device. They are handed over at a line feed, at a flush, and when
another byte finds the buffer full. -/
structure LineBuffer where
  pending : Nat
  arrived : Nat
  /-- Why the device takes nothing, if it does not. -/
  refusal : Option String
  deriving DecidableEq

namespace LineBuffer

def capacity : Nat := 1024

/-- A buffer in front of a device that works, or that refuses everything. -/
def empty (refusal : Option String) : LineBuffer := ⟨0, 0, refusal⟩

/-- Hand over what waits. With nothing waiting the device is not asked. -/
def deliver (b : LineBuffer) : LineBuffer × Option Failure :=
  if b.pending = 0 then (b, none)
  else
    match b.refusal with
    | some reason => (b, some ⟨false, reason⟩)
    | none => (⟨0, b.arrived + b.pending, none⟩, none)

def makeRoom (b : LineBuffer) : LineBuffer × Option Failure :=
  if b.pending < capacity then (b, none) else b.deliver

def put (b : LineBuffer) (byte : UInt8) : LineBuffer × Option Failure :=
  match b.makeRoom with
  | (b, some failure) => (b, some failure)
  | (b, none) =>
    let b := { b with pending := b.pending + 1 }
    if byte = 10 then b.deliver else (b, none)

end LineBuffer

inductive Writer where
  /-- Calls are answered by events, in order. -/
  | scripted (writes : List WriteEvent) (flushes : List FlushEvent)
  | buffered (buffer : LineBuffer)
  deriving DecidableEq

/-- A call on the console and how it ended. -/
inductive Call where
  | wrote (byte : UInt8)
  | wroteNothing
  | writeFailed (failure : Failure)
  | flushed
  | flushFailed (failure : Failure)
  | received (byte : UInt8)
  | receivedNothing
  | readFailed (failure : Failure)
  deriving DecidableEq

namespace Call

def isWrite : Call → Bool
  | .wrote _ | .wroteNothing | .writeFailed _ => true
  | _ => false

def isFlush : Call → Bool
  | .flushed | .flushFailed _ => true
  | _ => false

def isRead : Call → Bool
  | .received _ | .receivedNothing | .readFailed _ => true
  | _ => false

def byte? : Call → Option UInt8
  | .wrote byte => some byte
  | _ => none

end Call

structure Console where
  reader : List ReadEvent
  readEnd : ReadEnd
  writer : Writer
  /-- The flag by which a run is asked to stop. -/
  cancelled : Bool
  /-- The calls made so far, the last one first. -/
  calls : List Call
  deriving DecidableEq

inductive Reading where
  | byte (value : UInt8)
  | nothing
  | failed (failure : Failure)
  | waiting
  deriving DecidableEq

namespace Console

/-- A console whose output is always accepted and on which no call was made. -/
def ofInput (reader : List ReadEvent) (readEnd : ReadEnd) : Console :=
  ⟨reader, readEnd, .scripted [] [], false, []⟩

/-- The failure of a write that takes no byte. -/
def writeZero : Failure := ⟨false, "failed to write whole buffer"⟩

/-- Write a byte to a script: interrupted writes are made again. -/
def putScripted (byte : UInt8) (flushes : List FlushEvent) :
    List WriteEvent → Console → Console × Option Failure
  | [], c => ({ c with writer := .scripted [] flushes, calls := .wrote byte :: c.calls }, none)
  | .accept :: rest, c =>
    ({ c with writer := .scripted rest flushes, calls := .wrote byte :: c.calls }, none)
  | .acceptNothing :: rest, c =>
    ({ c with writer := .scripted rest flushes, calls := .wroteNothing :: c.calls }, some writeZero)
  | .cancel :: rest, c =>
    ({ c with
        writer := .scripted rest flushes, cancelled := true, calls := .wrote byte :: c.calls },
      none)
  | .raise :: rest, c => putScripted byte flushes rest { c with cancelled := true }
  | .fail failure :: rest, c =>
    if failure.interrupted then
      putScripted byte flushes rest { c with calls := .writeFailed failure :: c.calls }
    else
      ({ c with writer := .scripted rest flushes, calls := .writeFailed failure :: c.calls },
        some failure)

def put (c : Console) (byte : UInt8) : Console × Option Failure :=
  match c.writer with
  | .scripted writes flushes => putScripted byte flushes writes c
  | .buffered buffer =>
    match buffer.put byte with
    | (buffer, none) =>
      ({ c with writer := .buffered buffer, calls := .wrote byte :: c.calls }, none)
    | (buffer, some failure) =>
      ({ c with writer := .buffered buffer, calls := .writeFailed failure :: c.calls },
        some failure)

/-- Hand over all output. -/
def flush (c : Console) : Console × Option Failure :=
  match c.writer with
  | .scripted writes [] =>
    ({ c with writer := .scripted writes [], calls := .flushed :: c.calls }, none)
  | .scripted writes (.succeed :: rest) =>
    ({ c with writer := .scripted writes rest, calls := .flushed :: c.calls }, none)
  | .scripted writes (.cancel :: rest) =>
    ({ c with
        writer := .scripted writes rest, cancelled := true, calls := .flushed :: c.calls }, none)
  | .scripted writes (.fail failure :: rest) =>
    ({ c with writer := .scripted writes rest, calls := .flushFailed failure :: c.calls },
      some failure)
  | .scripted writes (.cancelFail failure :: rest) =>
    ({ c with
        writer := .scripted writes rest, cancelled := true,
        calls := .flushFailed failure :: c.calls },
      some failure)
  | .buffered buffer =>
    match buffer.deliver with
    | (buffer, none) => ({ c with writer := .buffered buffer, calls := .flushed :: c.calls }, none)
    | (buffer, some failure) =>
      ({ c with writer := .buffered buffer, calls := .flushFailed failure :: c.calls },
        some failure)

/-- Read from a list of events: interrupted reads are made again. -/
def takeFrom : List ReadEvent → Console → Console × Reading
  | [], c =>
    match c.readEnd with
    | .closed => ({ c with reader := [], calls := .receivedNothing :: c.calls }, .nothing)
    | .failing message =>
      ({ c with reader := [], calls := .readFailed ⟨false, message⟩ :: c.calls },
        .failed ⟨false, message⟩)
    | .waiting => ({ c with reader := [] }, .waiting)
  | .byte value :: rest, c =>
    ({ c with reader := rest, calls := .received value :: c.calls }, .byte value)
  | .nothing :: rest, c =>
    ({ c with reader := rest, calls := .receivedNothing :: c.calls }, .nothing)
  | .cancel :: rest, c => takeFrom rest { c with cancelled := true }
  | .fail failure :: rest, c =>
    if failure.interrupted then takeFrom rest { c with calls := .readFailed failure :: c.calls }
    else ({ c with reader := rest, calls := .readFailed failure :: c.calls }, .failed failure)

def take (c : Console) : Console × Reading := takeFrom c.reader c

/-- The bytes put out so far, in order. -/
def output (c : Console) : List UInt8 := (c.calls.filterMap Call.byte?).reverse

def writeCount (c : Console) : Nat := c.calls.countP Call.isWrite

def readCount (c : Console) : Nat := c.calls.countP Call.isRead

/-- Count an output byte, or note the count at a flush. The notes stand last first. -/
def markFlush (call : Call) (seen : Nat × List Nat) : Nat × List Nat :=
  if call.isFlush then (seen.1, seen.1 :: seen.2)
  else if call.byte?.isSome then (seen.1 + 1, seen.2)
  else seen

/-- For each flush, in order, how many bytes had been put out when it was made. -/
def flushMarks (c : Console) : List Nat := (c.calls.foldr markFlush (0, [])).2.reverse

/-- How many bytes have reached the device behind the console. -/
def arrived (c : Console) : Nat :=
  match c.writer with
  | .scripted _ _ => c.output.length
  | .buffered buffer => buffer.arrived

/-- The bytes that have reached the device behind the console, in order. -/
def delivered (c : Console) : List UInt8 := c.output.take c.arrived

end Console
end Brainfuck
