import MapInference.CommandLine.Arguments
import MapInference.CommandLine.Line
import MapInference.Event.Text
import MapInference.Graph.Solve
import MapInference.GraphFile.Parser
import MapInference.Statistics.Listing

/-!
# Runs of the command line

A run reads its arguments and the file they name, solves the graph of the file and reports the
solution. The stages of a run are functions of their own; `run` puts them together for a search
that takes no time, and a program with a clock puts them together otherwise.
-/

namespace MapInference.CommandLine

/-- Why a run has no solution to report. -/
inductive Fault where
  /-- The file does not have the extension of graph files. -/
  | unsupported (path : String)
  /-- The file cannot be opened, for the given reason. -/
  | unavailable (reason : String)
  | invalid (cause : GraphFile.ParseError Float)
  deriving Repr, DecidableEq

def Fault.message : Fault → String
  | unsupported path => s!"The file {path} is not supported."
  | unavailable reason => s!"IO error, more details: {reason}"
  | invalid cause =>
    "The factor graph was invalid, more details: " ++ cause.message Decimal.plain

def missingFile : String := "No such file or directory (os error 2)"

def fileName? (path : String) : Option (List Char) :=
  match ((path.toList.splitOn '/').filter fun name => name ≠ [] ∧ name ≠ ['.']).getLast? with
  | some name => if name = ['.', '.'] then none else some name
  | none => none

/-- What follows the last point of the name of a file, unless it is the only one and begins the
name. -/
def fileExtension? (path : String) : Option (List Char) :=
  (fileName? path).bind fun name =>
    match GraphFile.splitAtLast? '.' name with
    | some ([], _) | none => none
    | some (_, ending) => some ending

def isSupported (path : String) : Bool := fileExtension? path == some ['f', 'g']

def Arguments.shows (a : Arguments) : EventLevel → Bool
  | .warning => true
  | .info => decide (1 ≤ a.verbosity)
  | .debug => decide (2 ≤ a.verbosity)

def Arguments.comment (a : Arguments) (level : EventLevel) (text : String) : List Line :=
  if a.shows level then [.comment text] else []

def Arguments.comments (a : Arguments) (events : List (Event Float)) : List Line :=
  (events.filter fun e => a.shows e.level).map fun e => .comment e.text

/-- Whether the file asks for a factor of a size that does not fit into machine words. Nothing is
said about it. -/
def Fault.isBreakdown : Fault → Bool
  | invalid (.line _ (.declaration .sizeOverflow)) => true
  | _ => false

def Fault.lines (f : Fault) : List Line :=
  if f.isBreakdown then [] else [.comment ("Execution failed, error: " ++ f.message)]

def openingLines (a : Arguments) : List Line :=
  a.comment .info "Logging successfully configured"
    ++ if isSupported a.path && !a.options.exact && a.timeLimit.isSome then
        [.comment "The time limit only bounds the branch-and-bound search, which is not enabled."]
      else []

/-- The graph in the contents of a file, which are a reason when the file cannot be opened. -/
def load (a : Arguments) (contents : Except String (List UInt8)) :
    List Line × Except Fault (GraphFile.State Float) :=
  if !isSupported a.path then ([], .error (.unsupported a.path))
  else
    match contents with
    | .error reason => ([], .error (.unavailable reason))
    | .ok bytes =>
      match GraphFile.read GraphFile.doubles bytes with
      | (s, some cause) => (a.comments s.events.reverse, .error (.invalid cause))
      | (s, none) =>
        (a.comments s.events.reverse
            ++ a.comment .info
              (s!"Parsed {s.graph.numBinary} binary variables "
                ++ s!"and {s.graph.factors.size} factors"),
          .ok s)

def Arguments.condition (a : Arguments) : Condition :=
  .optional (a.timeLimit.map Condition.timeBudget)

def statisticFormat : StatisticFormat where
  mark := "STAT"
  camelCase := true

def statisticLines (a : Arguments) (g : FactorGraph Float) : List Line :=
  if a.logStatistics then
    (statisticFormat.listing Decimal.plain g.numBinary g.factors.size g.statistics).map
      Line.comment
  else []

structure Outcome where
  exitCode : Nat
  lines : List Line

namespace Outcome

def refused : Outcome := ⟨2, []⟩

def breakdownCode : Nat := 101

def ofFault (f : Fault) : Outcome := ⟨if f.isBreakdown then breakdownCode else 1, f.lines⟩

def ofSolved (a : Arguments) (names : GraphFile.Names) (x : FactorGraph.Solved Float) : Outcome :=
  match x.answer? with
  | none => ⟨breakdownCode, a.comments x.events⟩
  | some s => ⟨0, a.comments x.events ++ statisticLines a x.graph ++ solutionLines names s⟩

/-- The end of a run whose graph has no solution to wait for. -/
def broken : Outcome := ⟨breakdownCode, []⟩

def after (lines : List Line) (o : Outcome) : Outcome := ⟨o.exitCode, lines ++ o.lines⟩

end Outcome

/-- A run with the given arguments and contents of the file, whose search takes no time. -/
def run (arguments : List String) (contents : Except String (List UInt8)) : Outcome :=
  match Arguments.read arguments with
  | .error _ => .refused
  | .ok a =>
    let (lines, loaded) := load a contents
    .after (openingLines a ++ lines) <|
      match loaded with
      | .error fault => .ofFault fault
      | .ok s =>
        if s.graph.breaksDown a.options then .broken
        else .ofSolved a s.names (s.graph.solve a.options (Condition.monitor 0) a.condition).1

end MapInference.CommandLine
