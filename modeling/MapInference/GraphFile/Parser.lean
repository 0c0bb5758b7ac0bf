import MapInference.GraphFile.Declaration
import MapInference.Text.Blank
import MapInference.Text.Lines

/-!
# Reading graph files

A graph file is read line by line; what follows a `#` is a comment. Every declaration is carried
out on the graph at once, and the first line that is wrong ends the reading.
-/

namespace MapInference.GraphFile

variable {α : Type} [Scalar α]

structure State (α : Type) where
  graph : FactorGraph α
  names : Names := []
  /-- The latest event first. -/
  events : List (Event α) := []

def State.empty : State α := { graph := .empty }

namespace State

def addName (s : State α) (graph : FactorGraph α) (name : String) (v : NamedVariable) :
    Except (LineError α) (State α) :=
  match s.names.find? name with
  | some _ => .error (.duplicateName name)
  | none => .ok { s with graph, names := s.names ++ [(name, v)] }

def declare (s : State α) : Declaration α → Except (LineError α) (State α)
  | .binary name logPotential => do
    let (v, graph) := s.graph.addBinary
    let graph ← (graph.setLogPotential v logPotential).mapError .declaration
    s.addName graph name (.binary v)
  | .multi name logPotentials => do
    let (m, graph) ← (s.graph.addMulti logPotentials.length).mapError .declaration
    let graph ← (graph.setStateLogPotentials m 0 logPotentials).mapError .declaration
    s.addName graph name (.multi m)
  | .factor spec => do
    let (id, graph) ← (s.graph.declare spec).mapError .declaration
    return { s with
      graph
      events := (FactorGraph.declarationEvents id graph spec).reverse ++ s.events }

def content (cs : List Char) : List Char := cs.takeWhile (· ≠ '#')

def readLine (reader : NumberReader α) (s : State α) (cs : List Char) :
    Except (LineError α) (State α) := do
  match ← readDeclaration reader s.names (Text.words (content cs)) with
  | some d => s.declare d
  | none => return s

/-- Reads the lines from the one with the given number on. Returns the state before the first line
that is wrong, with its error. -/
def readLines (reader : NumberReader α) (s : State α) (number : Nat) :
    List (List UInt8) → State α × Option (ParseError α)
  | [] => (s, none)
  | line :: rest =>
    match Text.decode? line with
    | none => (s, some .unreadable)
    | some cs =>
      match s.readLine reader cs with
      | .error cause => (s, some (.line number cause))
      | .ok t => t.readLines reader (number + 1) rest

end State

def read (reader : NumberReader α) (bytes : List UInt8) : State α × Option (ParseError α) :=
  State.empty.readLines reader 1 (Text.lines bytes)

def parse (reader : NumberReader α) (bytes : List UInt8) : Except (ParseError α) (State α) :=
  match read reader bytes with
  | (s, none) => .ok s
  | (_, some e) => .error e

def doubles : NumberReader Float where
  scalar? := Decimal.readDouble?
  natural? := Decimal.readNatural? Word.limit

end MapInference.GraphFile
