import Reckon.Engine

/-!
The command line: its options, and what a run writes and returns. Sources come from an argument,
from a file that the argument names, or line by line from the standard input.
-/
namespace Reckon.CommandLine

inductive Flag where
  | file | exact | verbose
  deriving DecidableEq, Repr

inductive Switch where
  | flag (flag : Flag)
  | epsilon
  deriving DecidableEq, Repr

def ofLetter? : Char → Option Switch
  | 'f' => some (.flag .file)
  | 'b' => some (.flag .exact)
  | 'v' => some (.flag .verbose)
  | 'e' => some .epsilon
  | _ => none

def ofWord? : String → Option Switch
  | "file" => some (.flag .file)
  | "bignumber" => some (.flag .exact)
  | "verbose" => some (.flag .verbose)
  | "epsilon" => some .epsilon
  | _ => none

structure Arguments where
  flags : List Flag
  epsilon : Option Float
  contents : Option String

def Arguments.empty : Arguments := ⟨[], none, none⟩

def Arguments.addFlag (a : Arguments) (f : Flag) : Option Arguments :=
  if f ∈ a.flags then none else some { a with flags := f :: a.flags }

def Arguments.addEpsilon (a : Arguments) (text : List Char) : Option Arguments :=
  if a.epsilon.isSome then none
  else (Binary64.read? text).map fun x => { a with epsilon := some x }

def Arguments.addContents (a : Arguments) (text : String) : Option Arguments :=
  if a.contents.isSome then none else some { a with contents := some text }

/-- The value that follows a letter in the same argument, an equals sign before it left out. -/
def attached : List Char → List Char
  | '=' :: r => r
  | r => r

/-- The letters of one argument. `true` tells that the value of the last one is the next
argument. -/
def readLetters (a : Arguments) : List Char → Option (Arguments × Bool)
  | [] => some (a, false)
  | c :: r =>
    match ofLetter? c with
    | some (.flag f) => (a.addFlag f).bind fun a' => readLetters a' r
    | some .epsilon =>
      if r.isEmpty then some (a, true) else (a.addEpsilon (attached r)).map fun a' => (a', false)
    | none => none

def readWord (a : Arguments) (body : List Char) : Option (Arguments × Bool) :=
  let (word, value) := Numeral.splitAt? (· == '=') body
  match ofWord? (String.ofList word), value with
  | some (.flag f), none => (a.addFlag f).map fun a' => (a', false)
  | some .epsilon, some text => (a.addEpsilon text).map fun a' => (a', false)
  | some .epsilon, none => some (a, true)
  | _, _ => none

/-- The options in one argument, or its text if it is none. A hyphen alone is none. -/
def readArgument (a : Arguments) (argument : String) : Option (Arguments × Bool) :=
  match argument.toList with
  | '-' :: '-' :: body => readWord a body
  | '-' :: c :: r => readLetters a (c :: r)
  | _ => (a.addContents argument).map fun a' => (a', false)

/-- A value of its own may not look like an option. -/
def isValue (argument : String) : Bool :=
  match argument.toList with
  | '-' :: _ :: _ => false
  | _ => true

def addAll (a : Arguments) : List String → Option Arguments
  | [] => some a
  | text :: texts => (a.addContents text).bind fun a' => addAll a' texts

/-- All arguments, or nothing if they are misused. Behind two hyphens there are no options.
`awaiting` tells that the next argument is the tolerance. -/
def readAll (a : Arguments) (awaiting : Bool) : List String → Option Arguments
  | [] => if awaiting then none else some a
  | argument :: others =>
    if awaiting then
      if isValue argument then
        (a.addEpsilon argument.toList).bind fun a' => readAll a' false others
      else none
    else if argument = "--" then addAll a others
    else (readArgument a argument).bind fun r => readAll r.1 r.2 others

def exactVariable : String := "MATHEXPR_BIGNUMBER"

def epsilonVariable : String := "MATHEXPR_EPSILON"

abbrev Environment := List (String × String)

def exactLiterals? (a : Arguments) (env : Environment) : Option Bool :=
  if Flag.exact ∈ a.flags then some true
  else
    match env.lookup exactVariable with
    | none => some false
    | some "true" => some true
    | some "false" => some false
    | some _ => none

def epsilon? (a : Arguments) (env : Environment) : Option Float :=
  match a.epsilon, env.lookup epsilonVariable with
  | some x, _ => some x
  | none, some text => Binary64.read? text.toList
  | none, none => some ({} : Settings).epsilon

def settings? (a : Arguments) (env : Environment) : Option Settings :=
  match exactLiterals? a env, epsilon? a env with
  | some true, some x => some ⟨x, .exact⟩
  | some false, some x => some ⟨x, .plain⟩
  | _, _ => none

structure Report where
  code : Nat
  out : List String
  err : List String
  deriving DecidableEq, Repr

def brokenOffCode : Nat := 101

def exitCode (f : Failure) : Nat := if f.breaksOff then brokenOffCode else 1

def runSource (e : Engine) (source : String) : Report × Engine :=
  match e.eval .none source with
  | (.ok (some v), e') => (⟨0, [v.render], []⟩, e')
  | (.ok none, e') => (⟨0, [], []⟩, e')
  | (.error f, e') => (⟨exitCode f, [], [f.message]⟩, e')

/-- A run goes on after a line that fails, and ends with one that breaks off. -/
def runLines (e : Engine) : List String → Report
  | [] => ⟨0, [], []⟩
  | line :: lines =>
    let (first, e') := runSource e line
    let others := if first.code = brokenOffCode then ⟨0, [], []⟩ else runLines e' lines
    ⟨max first.code others.code, first.out ++ others.out, first.err ++ others.err⟩

/-- One line without its end, which is a line feed with or without a carriage return. -/
def trimReturn (line : List Char) : List Char :=
  match line.reverse with
  | '\r' :: r => r.reverse
  | _ => line

/-- The lines of a text. A line feed at the end begins no further line. -/
def splitLines (cs : List Char) : List String :=
  match h : cs.dropWhile (· != '\n') with
  | [] => if cs.isEmpty then [] else [String.ofList cs]
  | _ :: rest =>
    have : rest.length < cs.length := by
      have := (List.dropWhile_sublist (l := cs) (· != '\n')).length_le
      rw [h] at this
      exact this
    String.ofList (trimReturn (cs.takeWhile (· != '\n'))) :: splitLines rest
termination_by cs.length
decreasing_by exact this

inductive Origin where
  | input
  | text (source : String)
  | file (name : String)
  deriving DecidableEq, Repr

def origin (a : Arguments) : Origin :=
  match a.contents with
  | none => .input
  | some text => if Flag.file ∈ a.flags then .file text else .text text

structure Invocation where
  settings : Settings
  origin : Origin

def invocation? (arguments : List String) (env : Environment) : Option Invocation := do
  let a ← readAll .empty false arguments
  let s ← settings? a env
  return ⟨s, origin a⟩

def usageReport : Report := ⟨2, [], []⟩

inductive ReadError where
  | missing
  | directory
  | other (reason : String)
  deriving DecidableEq, Repr

def ReadError.message : ReadError → String
  | missing => "No such file or directory (os error 2)"
  | directory => "Is a directory (os error 21)"
  | other reason => reason

def unreadable (name : String) (e : ReadError) : Report :=
  ⟨1, [], ["Failed to read the input file '" ++ name ++ "': " ++ e.message]⟩

def Invocation.run (i : Invocation) (input : String) (file : String → Except ReadError String) :
    Report :=
  let e := Engine.new i.settings
  match i.origin with
  | .input => runLines e (splitLines input.toList)
  | .text source => (runSource e source).1
  | .file name =>
    match file name with
    | .ok source => (runSource e source).1
    | .error reason => unreadable name reason

end Reckon.CommandLine
