/-! # Sinks

Where a program writes to. A sink keeps what it is given until it is full; of a write that does not fit it
keeps the part that does. -/
namespace BlockScript

namespace Sink

/-- How many bytes a sink still takes, and what it answers to the first one beyond. -/
inductive Capacity where
  | unlimited
  | limited (room : Nat) (cause : String)

/-- The answer of a sink that takes no bytes and gives no reason. -/
def noProgress : String := "failed to write whole buffer"

end Sink

structure Sink where
  content : ByteArray := .empty
  capacity : Sink.Capacity := .unlimited

namespace Sink

/-- Writes the bytes; the second part is the cause why some are missing. -/
def write (s : Sink) (bytes : ByteArray) : Sink × Option String :=
  match s.capacity with
  | .unlimited => ({ s with content := s.content ++ bytes }, none)
  | .limited room cause =>
    ({ content := s.content ++ bytes.extract 0 room
       capacity := .limited (room - bytes.size) cause },
     if bytes.size ≤ room then none else some cause)

theorem write_of_unlimited {s : Sink} (h : s.capacity = .unlimited) (bytes : ByteArray) :
    s.write bytes = ({ s with content := s.content ++ bytes }, none) := by
  simp [write, h]

theorem write_of_limited {s : Sink} {room : Nat} {cause : String} (h : s.capacity = .limited room cause)
    (bytes : ByteArray) :
    s.write bytes = ({ content := s.content ++ bytes.extract 0 room
                       capacity := .limited (room - bytes.size) cause },
                     if bytes.size ≤ room then none else some cause) := by
  simp [write, h]

def writeLine (s : Sink) (text : String) : Sink × Option String :=
  s.write (text ++ "\n").toUTF8

end Sink
end BlockScript
