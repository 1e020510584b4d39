import Mathlib.Tactic.DeprecateTo
import Admission.Command

/-!
# The command line

Reads lines from standard input until it ends and writes a decision for each.  Files are looked at
and stores are swept between lines, as soon as their time has come.
-/

namespace Admission

/-- The reading of the wall clock, which may be set back. -/
def currentInstant : IO Instant := do
  let now ← Std.Time.Timestamp.now
  return ⟨now.toNanosecondsSinceUnixEpoch.val⟩

/-- The time since the machine was started, which intervals are measured by. -/
def currentUptime : IO Span := do
  let nanos ← IO.monoNanosNow
  return ⟨nanos⟩

/-- The bytes of a file, if it can be read. -/
def readFile (path : String) : IO FileContent := do
  try
    return some (← IO.FS.readBinFile path)
  catch _ =>
    return none

def environment : IO (List (String × String)) := do
  let some bytes ← readFile "/proc/self/environ" | return []
  let text := (String.fromUTF8? bytes).getD ""
  let entries := (text.splitOn "\x00").filter fun entry => entry ≠ ""
  return entries.map fun entry =>
    match entry.splitOn "=" with
    | name :: value => (name, "=".intercalate value)
    | [] => ("", "")

/-- When rules were last looked at and stores last swept. -/
structure Upkeep where
  looked : Span
  swept : Span

/-- What has fallen due beside the input: a look at the rule file, and a sweep of each store. -/
def dueOccurrences (session : Session) (upkeep : Upkeep) :
    IO (List (Occurrence (List UInt8)) × Upkeep) := do
  let uptime ← currentUptime
  let mut due := []
  let mut upkeep := upkeep
  if session.settings.reloadInterval ≤ uptime.minus upkeep.looked then
    due := [.look (← readFile session.rulesPath) (← currentInstant)]
    upkeep := { upkeep with looked := uptime }
  if session.settings.sweepInterval ≤ uptime.minus upkeep.swept then
    due := due ++ [.sweepRules (← currentInstant), .sweepBuckets (← currentInstant)]
    upkeep := { upkeep with swept := uptime }
  return (due, upkeep)

/-- One line of a stream without its end, after what was read of it already.  There is none at the
end of the stream. -/
partial def readLine (stream : IO.FS.Stream) (read : ByteArray) : IO (Option (List UInt8)) := do
  let byte ← stream.read 1
  if byte.isEmpty then return if read.isEmpty then none else some read.toList
  else if byte.toList = [10] then return some read.toList
  else readLine stream (read ++ byte)

def printLine (output : IO.FS.Stream) (line : String) : IO Unit := do
  output.putStrLn line
  output.flush

partial def serveLines (input output : IO.FS.Stream) (session : Session) (upkeep : Upkeep) :
    IO UInt32 := do
  match ← readLine input .empty with
  | none => return 0
  | some bytes =>
    let (due, upkeep) ← dueOccurrences session upkeep
    let readings := ⟨← currentInstant, ← currentInstant, ← currentInstant⟩
    match ← session.takeSteps (printLine output) (due ++ [.line bytes readings]) with
    | none =>
      IO.eprintln "Error: stream did not contain valid UTF-8"
      return .ofNat Command.failure
    | some session => serveLines input output session upkeep

end Admission

open Admission

def main (args : List String) : IO UInt32 := do
  match Formats.arguments args with
  | .error refusal =>
    let outcome := Command.refuse refusal
    for line in outcome.lines do
      IO.println line
    if refusal = .usage then
      IO.eprintln "error: unusable arguments, see --help"
    return .ofNat outcome.exit
  | .ok arguments =>
    match ← Session.start readFile (← environment) arguments with
    | .error fault =>
      IO.eprintln ("Error: " ++ fault.message)
      return .ofNat Command.failure
    | .ok session =>
      let uptime ← currentUptime
      serveLines (← IO.getStdin) (← IO.getStdout) session ⟨uptime, uptime⟩
