import MapInference.Decimal.Reader
import MapInference.Options
import MapInference.Word

/-!
# Arguments of the command line

An argument list names one file and any number of options. An option is a switch or takes a value,
which follows as the next argument or, after `=`, in the same one; the value of a one-letter option
may also follow the letter. One-letter options may be joined. What follows `--` is no option. Every
option but the one that asks for more output occurs at most once.
-/

namespace MapInference.CommandLine

inductive Switch where
  | noAdapt
  | exact
  /-- Asks for projections at the same time, which changes no result. -/
  | parallel
  | verbose
  | logStatistics
  deriving Repr, DecidableEq

inductive Setting where
  | stepSize
  | maxIterations
  | residualThreshold
  | maxActiveSetIterations
  | nodeLimit
  | timeLimit
  | variableSelection
  deriving Repr, DecidableEq

inductive Name where
  | switch (s : Switch)
  | setting (s : Setting)
  deriving Repr, DecidableEq

def longNames : List (String × Name) :=
  [("eta", .setting .stepSize), ("no-adapt", .switch .noAdapt),
    ("max-iterations", .setting .maxIterations),
    ("residual-threshold", .setting .residualThreshold),
    ("max-active-set-iterations", .setting .maxActiveSetIterations), ("exact", .switch .exact),
    ("node-limit", .setting .nodeLimit), ("time-limit", .setting .timeLimit),
    ("parallel", .switch .parallel), ("variable-selection", .setting .variableSelection),
    ("verbose", .switch .verbose), ("log-statistics", .switch .logStatistics)]

def shortNames : List (Char × Name) :=
  [('t', .setting .timeLimit), ('v', .switch .verbose), ('s', .switch .logStatistics)]

inductive ArgumentError where
  | unknownOption (argument : String)
  | missingValue (option : String)
  | unexpectedValue (argument : String)
  | invalidValue (setting : Setting) (value : String)
  | repeatedSwitch (s : Switch)
  | repeatedSetting (s : Setting)
  | missingFile
  | unexpectedFile (argument : String)
  deriving Repr, DecidableEq

def Name.text (n : Name) : String :=
  "--" ++ ((longNames.find? fun p => p.2 == n).map (·.1)).getD ""

def ArgumentError.message : ArgumentError → String
  | unknownOption argument => s!"unknown option in '{argument}'"
  | missingValue option => s!"'{option}' needs a value"
  | unexpectedValue argument => s!"the option in '{argument}' takes no value"
  | invalidValue setting value => s!"'{value}' is no value of " ++ (Name.setting setting).text
  | repeatedSwitch s => (Name.switch s).text ++ " occurs more than once"
  | repeatedSetting s => (Name.setting s).text ++ " occurs more than once"
  | missingFile => "a file is needed"
  | unexpectedFile argument => s!"unexpected argument '{argument}'"

inductive Item where
  | switch (s : Switch)
  | setting (s : Setting) (value : String)
  | file (path : String)
  deriving Repr, DecidableEq

/-- The items that a single argument holds, or those before a setting whose value is the next
argument. -/
inductive Reading where
  | items (xs : List Item)
  | awaitsValue (xs : List Item) (s : Setting)
  deriving Repr, DecidableEq

def splitValue (cs : List Char) : String × Option String :=
  match cs.span (· ≠ '=') with
  | (name, []) => (String.ofList name, none)
  | (name, _ :: value) => (String.ofList name, some (String.ofList value))

def readLong (argument : String) (cs : List Char) : Except ArgumentError Reading :=
  let (name, value) := splitValue cs
  match longNames.lookup name, value with
  | none, _ => .error (.unknownOption argument)
  | some (.switch s), none => .ok (.items [.switch s])
  | some (.switch _), some _ => .error (.unexpectedValue argument)
  | some (.setting s), some value => .ok (.items [.setting s value])
  | some (.setting s), none => .ok (.awaitsValue [] s)

def readShort (argument : String) (before : List Item) :
    List Char → Except ArgumentError Reading
  | [] => .ok (.items before.reverse)
  | c :: rest =>
    match shortNames.lookup c, rest with
    | none, _ => .error (.unknownOption argument)
    | some (.switch s), rest => readShort argument (.switch s :: before) rest
    | some (.setting s), [] => .ok (.awaitsValue before.reverse s)
    | some (.setting s), '=' :: value | some (.setting s), value =>
      .ok (.items (before.reverse ++ [.setting s (String.ofList value)]))

/-- Reads an argument that is not the value of the one before it. A dash alone is a file. -/
def readArgument (argument : String) : Except ArgumentError Reading :=
  match argument.toList with
  | '-' :: '-' :: cs => readLong argument cs
  | '-' :: c :: cs => readShort argument [] (c :: cs)
  | _ => .ok (.items [.file argument])

def isValue (argument : String) : Bool :=
  match argument.toList with
  | '-' :: _ :: _ => false
  | _ => true

def readItems : List String → Except ArgumentError (List Item)
  | [] => .ok []
  | argument :: rest =>
    if argument == "--" then .ok (rest.map Item.file)
    else
      match readArgument argument, rest with
      | .error e, _ => .error e
      | .ok (.items xs), rest => do return xs ++ (← readItems rest)
      | .ok (.awaitsValue xs s), value :: rest =>
        if isValue value then do return xs ++ .setting s value :: (← readItems rest)
        else .error (.missingValue argument)
      | .ok (.awaitsValue _ _), [] => .error (.missingValue argument)

structure Arguments where
  path : String
  options : Options Float := .standard
  /-- A bound of the time of the search in milliseconds. -/
  timeLimit : Option Nat := none
  verbosity : Nat := 0
  logStatistics : Bool := false
  deriving Repr

namespace Arguments

def apply (a : Arguments) : Switch → Arguments
  | .noAdapt => { a with options := { a.options with adaptive := false } }
  | .exact => { a with options := { a.options with exact := true } }
  | .parallel => a
  | .verbose => { a with verbosity := a.verbosity + 1 }
  | .logStatistics => { a with logStatistics := true }

def natural? (value : String) : Option Nat := Decimal.readNatural? Word.limit value.toList

def set? (a : Arguments) (s : Setting) (value : String) : Option Arguments :=
  match s with
  | .stepSize => (Decimal.readDouble? value.toList).map fun x =>
    { a with options := { a.options with stepSize := x } }
  | .maxIterations => (natural? value).map fun n =>
    { a with options := { a.options with maxIterations := n } }
  | .residualThreshold => (Decimal.readDouble? value.toList).map fun x =>
    { a with options := { a.options with residualThreshold := x } }
  | .maxActiveSetIterations => (natural? value).map fun n =>
    { a with options := { a.options with maxActiveSetIterations := n } }
  | .nodeLimit => (natural? value).map fun n =>
    { a with options := { a.options with maxNodes := n } }
  | .timeLimit => (natural? value).map fun n => { a with timeLimit := some n }
  | .variableSelection => (VariableSelection.ofName? value).map fun s =>
    { a with options := { a.options with selection := s } }

def applyOptions (a : Arguments) : List Item → Except ArgumentError Arguments
  | [] => .ok a
  | .switch s :: rest =>
    if s ≠ .verbose ∧ .switch s ∈ rest then .error (.repeatedSwitch s)
    else (a.apply s).applyOptions rest
  | .setting s value :: rest =>
    match a.set? s value with
    | none => .error (.invalidValue s value)
    | some b =>
      if rest.any fun | .setting t _ => s == t | _ => false then .error (.repeatedSetting s)
      else b.applyOptions rest
  | .file _ :: rest => a.applyOptions rest

def files (items : List Item) : List String :=
  items.filterMap fun | .file path => some path | _ => none

def ofItems (items : List Item) : Except ArgumentError Arguments :=
  match files items with
  | [] => .error .missingFile
  | [path] => if path.isEmpty then .error .missingFile else applyOptions { path } items
  | _ :: second :: _ => .error (.unexpectedFile second)

def read (arguments : List String) : Except ArgumentError Arguments := do
  ofItems (← readItems arguments)

end Arguments
end MapInference.CommandLine
