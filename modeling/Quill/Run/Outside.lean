-- What a running program asks of the outside: a line of input, and files
-- to read and write. What answers is either known in full, or it is the
-- list of the answers given so far. The outside also takes what is printed.
import Quill.Run.Disk

namespace Quill

/-- What a program asks for. -/
inductive Request where
  | line
  | read (path : String)
  | write (path : String) (bytes : ByteArray)

/-- What it gets: the bytes that were read, or none for a file that was
written. -/
abbrev Answer := Except FileError ByteArray

/-- What answers requests. -/
inductive Supply where
  | known (input : List UInt8) (disk : Disk)
  | replay (answers : List Answer)

/-- What becomes of output: all of it is taken, or so many more characters
and then an error is met. -/
inductive Sink where
  | endless
  | limited (room : Nat) (error : FileError)
deriving DecidableEq, Repr

/-- The outside of a program. -/
structure Outside where
  supply : Supply
  sink : Sink

namespace Supply

/-- The bytes of the first line with its line feed, and those after
it. -/
def splitLine : List UInt8 → List UInt8 × List UInt8
  | [] => ([], [])
  | b :: bs =>
    if b = 10 then ([b], bs)
    else
      let (line, rest) := splitLine bs
      (b :: line, rest)

/-- The answer to a request and what is left to answer others. There is
none if the answers given so far are used up. -/
def ask : Supply → Request → Option (Answer × Supply)
  | known input disk, .line =>
    let (line, rest) := splitLine input
    some (.ok ⟨line.toArray⟩, known rest disk)
  | known input disk, .read path => some (disk.read path, known input disk)
  | known input disk, .write path bytes =>
    match disk.write path bytes with
    | .ok after => some (.ok .empty, known input after)
    | .error e => some (.error e, known input disk)
  | replay (a :: answers), _ => some (a, replay answers)
  | replay [], _ => none

end Supply

namespace Sink

/-- Takes a text as a whole, or not at all. -/
def take : Sink → String → Except FileError Sink
  | endless, _ => return endless
  | limited room error, text =>
    if text.length ≤ room then return limited (room - text.length) error else .error error

/-- Makes sure that all output has been taken, which a sink without any room
cannot. -/
def flush : Sink → Except FileError Unit
  | limited 0 error => .error error
  | _ => return

end Sink

namespace Outside

/-- An outside that is known in full, and takes all output. -/
def known (input : List UInt8) (disk : Disk) : Outside := ⟨.known input disk, .endless⟩

/-- An outside that has given these answers so far, and takes all output. -/
def replay (answers : List Answer) : Outside := ⟨.replay answers, .endless⟩

/-- The answer to a request and the outside after it, if there is an
answer. -/
def ask (o : Outside) (r : Request) : Option (Answer × Outside) :=
  (o.supply.ask r).map fun (answer, supply) => (answer, { o with supply })

end Outside

end Quill
