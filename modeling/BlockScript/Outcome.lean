import BlockScript.Session

/-! # Outcomes

What a run of the program leaves behind: an exit code and what it wrote. -/
namespace BlockScript

/-- Why an input could not be read as text. -/
inductive ReadFault where
  | notFound
  | isDirectory
  | notDirectory
  | nameTooLong
  | notText
  | other (cause : String)
deriving DecidableEq, Repr

def ReadFault.text : ReadFault → String
  | .notFound => "No such file or directory (os error 2)"
  | .isDirectory => "Is a directory (os error 21)"
  | .notDirectory => "Not a directory (os error 20)"
  | .nameTooLong => "File name too long (os error 36)"
  | .notText => "stream did not contain valid UTF-8"
  | .other cause => cause

def decode (bytes : ByteArray) : Except ReadFault String :=
  match String.fromUTF8? bytes with
  | some text => .ok text
  | none => .error .notText

structure Outcome where
  exitCode : UInt8
  output : ByteArray
  errors : ByteArray

namespace Outcome

/-- A run that ended well. -/
def ofSession (s : Session) : Outcome :=
  ⟨0, s.machine.output.content, s.errors.content⟩

def nothing : Outcome := ⟨0, .empty, .empty⟩

/-- Ends the run because the input of the given name could not be read. -/
def failReading (o : Outcome) (name : String) (fault : ReadFault) : Outcome :=
  let message := "Error: Reading " ++ name ++ "\n\nCaused by:\n    " ++ fault.text ++ "\n"
  { o with exitCode := 1, errors := o.errors ++ message.toUTF8 }

end Outcome
end BlockScript
