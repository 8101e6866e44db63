import BlockScript.CommandLine

/-! # The program

The only part that reads files and the standard input, and writes to the standard streams. -/
namespace BlockScript.Main

def fileContent (path : String) : IO (Except ReadFault ByteArray) := do
  try
    return .ok (← IO.FS.readBinFile path)
  catch
    | .noFileOrDirectory .. => return .error .notFound
    | .inappropriateType _ code _ => return .error (if code = 21 then .isDirectory else .notDirectory)
    | error => return .error (.other (toString error))

/-- The next line of the input with its newline; no bytes at the end of the input. -/
partial def nextLine (input : IO.FS.Stream) (line : ByteArray) : IO ByteArray := do
  let byte ← input.read 1
  if byte.isEmpty || byte.data.contains 10 then
    return line ++ byte
  else
    nextLine input (line ++ byte)

def emit (o : Outcome) : IO Unit := do
  let output ← IO.getStdout
  output.write o.output
  output.flush
  (← IO.getStderr).write o.errors

/-- Emits what a session has written so far, and forgets it. -/
def drain (s : Session) : IO Session := do
  emit (Outcome.ofSession s)
  return { s with errors := {}, machine := { s.machine with output := {}, log := #[] } }

partial def runPrompt (s : Session) : IO Outcome := do
  let s ← drain s
  let line ← nextLine (← IO.getStdin) .empty
  if line.isEmpty then
    return Prompt.finish s
  else
    match Prompt.answer s line with
    | .ok s => runPrompt s
    | .error outcome => return outcome

def outcome (request : Request) : IO Outcome := do
  match request with
  | .prompt dump => runPrompt (Prompt.start dump)
  | .file path dump => return CommandLine.runFile path dump (← fileContent path)
  | _ => return CommandLine.run (fun _ => .error .notFound) .empty request

end BlockScript.Main

def main (arguments : List String) : IO UInt32 := do
  let outcome ← BlockScript.Main.outcome (BlockScript.Arguments.read arguments)
  BlockScript.Main.emit outcome
  return outcome.exitCode.toUInt32
