import BlockScript.Outcome

/-! # Directories

A working directory given by the files in it, and how a path is followed there. A path is followed name by
name: an empty name and `.` stay where they are, `..` goes up, and any other name goes down, if it is there.
Nothing is known of what else the directories above hold. -/
namespace BlockScript

/-- The files, each with the names that lead to it. The directories in between exist with their files. -/
structure Directory where
  files : List (List String × ByteArray)

namespace Directory

/-- Where following a path has led: to a directory above the working directory, to one within it, or to a
file. -/
inductive Place where
  | above
  | within (names : List String)
  | file (content : ByteArray)

/-- The names of a path, cut at each `/`. -/
def names (path : String) : List String :=
  (path.toList.splitOn '/').map String.ofList

/-- The directory that holds the files at the given paths. -/
def ofFiles (files : List (String × ByteArray)) : Directory :=
  ⟨files.map fun (path, content) => ((names path).filter fun name => name != "" && name != ".", content)⟩

/-- Names of more bytes than this are refused. -/
def maxName : Nat := 255

/-- Paths of more bytes than this are refused. -/
def maxPath : Nat := 4095

/-- Follows one name. It must be followed in a directory, even when it stays there. -/
def follow (d : Directory) (place : Place) (name : String) : Except ReadFault Place :=
  match place, name with
  | .file _, _ => .error .notDirectory
  | place, "" | place, "." => .ok place
  | .above, ".." => .ok .above
  | .within [], ".." => .ok .above
  | .within names, ".." => .ok (.within names.dropLast)
  | place, name =>
    if maxName < name.utf8ByteSize then .error .nameTooLong
    else match place with
      | .within names =>
        let names := names ++ [name]
        match d.files.lookup names with
        | some content => .ok (.file content)
        | none =>
          if d.files.any fun file => names.isPrefixOf file.1 then .ok (.within names)
          else .error .notFound
      | _ => .error .notFound

/-- A path that begins with `/` starts at the top, any other in the working directory. -/
def start (path : String) : Place :=
  if path.toList.head? = some '/' then .above else .within []

/-- The content of the file at the end of the path. -/
def read (d : Directory) (path : String) : Except ReadFault ByteArray := do
  if maxPath < path.utf8ByteSize then .error .nameTooLong
  match ← (names path).foldlM d.follow (start path) with
  | .file content => .ok content
  | .above | .within _ => .error .isDirectory

end Directory
end BlockScript
