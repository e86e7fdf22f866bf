-- Messages about a source text, each with its place, and the reporter
-- that gathers them in one pass and holds back those that only follow
-- from an error just reported.
import Quill.Source.Span

namespace Quill

/-- An error message and where it belongs. -/
structure Diagnostic where
  message : String
  span : Span
deriving DecidableEq, Repr

namespace Diagnostic

/-- The message on one line. -/
def text (d : Diagnostic) : String := s!"Error: {d.message} ({d.span.describe})"

/-- All messages, each on a line of its own. -/
def plain (ds : List Diagnostic) : String := String.join (ds.map fun d => d.text ++ "\n")

end Diagnostic

/-- What has been reported so far, and whether an error waits to be
handled. -/
structure Reporter where
  kept : List Diagnostic
  pending : Bool

namespace Reporter

/-- Nothing reported. -/
def empty : Reporter := ⟨[], false⟩

/-- Takes a report. While an error is pending only forced reports count,
and a message that is already kept is not kept twice. -/
def report (r : Reporter) (d : Diagnostic) (force : Bool) : Reporter :=
  if r.pending && !force then r
  else if d ∈ r.kept then { r with pending := true }
  else ⟨r.kept ++ [d], true⟩

/-- The last error has been dealt with, so that the next report counts
again. -/
def handled (r : Reporter) : Reporter := { r with pending := false }

/-- Whether anything was kept. -/
def hasErrors (r : Reporter) : Bool := !r.kept.isEmpty

end Reporter

end Quill
