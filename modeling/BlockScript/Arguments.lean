import BlockScript.Session

/-! # Command line arguments

The arguments are read from left to right, and the first that decides the matter does so: a request for help
or for the version is granted at once, and an argument that makes no sense refuses the whole line. Options
stand before or after the script, with their value in the same argument or in the next one; after `--` there
are no options. -/
namespace BlockScript

/-- What the command line asks for. -/
inductive Request where
  | help
  | version
  | refusal
  | file (path : String) (dump : Option DumpForm)
  | prompt (dump : Option DumpForm)
deriving DecidableEq, Repr

namespace Arguments

/-- What has been given so far. -/
structure Given where
  script : Option String := none
  dump : Option DumpForm := none
  logFilter : Option String := none

def Given.request (g : Given) : Request :=
  match g.script with
  | some path => .file path g.dump
  | none => .prompt g.dump

/-- The one script, which must have a path. -/
def Given.addScript? (g : Given) (path : String) : Option Given :=
  if path.isEmpty || g.script.isSome then none else some { g with script := some path }

inductive Setting where
  | dump
  | logFilter
deriving DecidableEq, Repr

def dumpForm? : String → Option DumpForm
  | "prefix" => some .parenthesized
  | "rpn" => some .reversePolish
  | _ => none

/-- A setting may be given once. -/
def Given.set? (g : Given) (setting : Setting) (value : String) : Option Given :=
  match setting, g.dump, g.logFilter with
  | .dump, none, _ => (dumpForm? value).map fun form => { g with dump := some form }
  | .logFilter, _, none => some { g with logFilter := some value }
  | _, _, _ => none

/-- What a single argument is, before `--`. -/
inductive Word where
  | endOfOptions
  | help
  | version
  | setting (setting : Setting) (value : Option String)
  | plain (text : String)
  | unknown

def setting? : String → Option Setting
  | "dump-ast" => some .dump
  | "log-filter" => some .logFilter
  | _ => none

/-- Whether an argument can be the value of the option before it. A dash alone can. -/
def isValue (argument : String) : Bool :=
  argument == "-" || argument.toList.head? != some '-'

/-- A long option may carry a value after `=`, but help and version take none. Short options can be run
together, and then the first of them decides. -/
def Word.ofArgument (argument : String) : Word :=
  match argument.toList with
  | ['-'] => .plain argument
  | ['-', '-'] => .endOfOptions
  | '-' :: '-' :: long =>
    let name := String.ofList (long.takeWhile (· != '='))
    let value := (long.dropWhile (· != '=')).tail?.map String.ofList
    match setting? name, name, value with
    | some chosen, _, value => .setting chosen value
    | none, "help", none => .help
    | none, "version", none => .version
    | _, _, _ => .unknown
  | '-' :: 'h' :: _ => .help
  | '-' :: 'V' :: _ => .version
  | '-' :: _ => .unknown
  | _ => .plain argument

/-- Reads the arguments after those already given. -/
def readFrom (g : Given) : List String → Request
  | [] => g.request
  | argument :: rest =>
    match Word.ofArgument argument with
    | .help => .help
    | .version => .version
    | .unknown => .refusal
    | .plain path =>
      match g.addScript? path with
      | some g => readFrom g rest
      | none => .refusal
    | .endOfOptions =>
      match rest.foldlM Given.addScript? g with
      | some g => g.request
      | none => .refusal
    | .setting setting (some value) =>
      match g.set? setting value with
      | some g => readFrom g rest
      | none => .refusal
    | .setting setting none =>
      match rest with
      | [] => .refusal
      | value :: rest =>
        match if isValue value then g.set? setting value else none with
        | some g => readFrom g rest
        | none => .refusal

def read (arguments : List String) : Request := readFrom {} arguments

end Arguments
end BlockScript
