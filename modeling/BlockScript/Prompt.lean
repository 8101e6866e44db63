import BlockScript.Session
import BlockScript.Outcome

/-! # The prompt

An interactive run: each line of the standard input, its newline included, is a unit of one session, and a
mark stands before each line is read. The end of the input ends the run well, whatever the units did; a line
that is not text ends it badly, and the lines after it are not read. -/
namespace BlockScript.Prompt

def welcome : String := "Welcome to the interactive prompt for the finch interpreter.\n\n"

def mark : String := "> "

def say (s : Session) (text : String) : Session :=
  { s with machine := { s.machine with output := (s.machine.output.write text.toUTF8).1 } }

/-- Before the first line. -/
def start (dump : Option DumpForm) : Session :=
  say (say { dump } welcome) mark

/-- Runs a line and asks for the next; a line that is not text has an outcome instead. -/
def answer (s : Session) (line : ByteArray) : Except Outcome Session :=
  match decode line with
  | .ok source => .ok (say (s.run source).2 mark)
  | .error fault => .error ((Outcome.ofSession s).failReading "stdin" fault)

/-- The outcome at the end of the input. -/
def finish (s : Session) : Outcome :=
  Outcome.ofSession (say s "\n")

/-- Cuts the bytes after each newline. -/
def lines : List UInt8 → List (List UInt8)
  | [] => []
  | b :: rest =>
    if b = 10 then [b] :: lines rest
    else match lines rest with
      | [] => [[b]]
      | line :: more => (b :: line) :: more

def run (dump : Option DumpForm) (input : ByteArray) : Outcome :=
  match ((lines input.data.toList).map fun line => ByteArray.mk line.toArray).foldlM answer (start dump) with
  | .ok s => finish s
  | .error outcome => outcome

/-- The lines put together are the input. -/
theorem flatten_lines (bytes : List UInt8) : (lines bytes).flatten = bytes := by
  induction bytes with
  | nil => rfl
  | cons b rest ih =>
    rw [lines]
    split
    · simp [ih]
    · cases h : lines rest with
      | nil => simp_all
      | cons line more => simp_all

end BlockScript.Prompt
