import BlockScript.Arguments
import BlockScript.Prompt

/-! # The command line

What the program does for a request, given the files that it can read and its standard input. -/
namespace BlockScript.CommandLine

def usage : String :=
  "Usage: finch [OPTIONS] [SCRIPT]\n\n" ++
  "Arguments:\n" ++
  "  [SCRIPT]  Script to run; an interactive prompt starts without one\n\n" ++
  "Options:\n" ++
  "      --dump-ast <FORM>      Show each expression before it runs: prefix or rpn\n" ++
  "      --log-filter <FILTER>  Choose the log events to show\n" ++
  "  -h, --help                 Show this help\n" ++
  "  -V, --version              Show the version\n"

def version : String := "finch 0.1.0\n"

/-- Runs the script in a file with the given content. -/
def runFile (path : String) (dump : Option DumpForm) (content : Except ReadFault ByteArray) : Outcome :=
  match content >>= decode with
  | .ok source =>
    let (status, s) := Session.run { dump } source
    { Outcome.ofSession s with exitCode := status.exitCode }
  | .error fault => Outcome.nothing.failReading path fault

def run (files : String → Except ReadFault ByteArray) (input : ByteArray) : Request → Outcome
  | .help => ⟨0, usage.toUTF8, .empty⟩
  | .version => ⟨0, version.toUTF8, .empty⟩
  | .refusal => ⟨64, .empty, usage.toUTF8⟩
  | .file path dump => runFile path dump (files path)
  | .prompt dump => Prompt.run dump input

end BlockScript.CommandLine
