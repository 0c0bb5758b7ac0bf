import MapInference.Decimal.Reader
import MapInference.Graph
import MapInference.GraphFile.Error

/-!
# Declarations in graph files

Every line of a graph file declares a variable or a factor by a keyword and its arguments. This
module reads one line. The arguments are looked at from left to right, so that the first one that
is wrong decides the error.
-/

namespace MapInference.GraphFile

/-- What a name in a file stands for. -/
inductive NamedVariable where
  | binary (v : BinaryVariable)
  | multi (m : MultiVariable)
  deriving Repr, DecidableEq

abbrev Names := List (String × NamedVariable)

def Names.find? (names : Names) (name : String) : Option NamedVariable := names.lookup name

inductive Declaration (α : Type) where
  | binary (name : String) (logPotential : α)
  | multi (name : String) (logPotentials : List α)
  | factor (spec : FactorSpec α)
  deriving Repr, DecidableEq

abbrev Token := List Char

structure NumberReader (α : Type) where
  scalar? : Token → Option α
  natural? : Token → Option Nat

variable {α : Type}

abbrev Read (α β : Type) := Except (LineError α) β

def readScalar (reader : NumberReader α) (t : Token) : Read α α :=
  match reader.scalar? t with
  | some x => .ok x
  | none => .error (.invalidNumber (String.ofList t) .scalar)

def readNatural (reader : NumberReader α) (t : Token) : Read α Nat :=
  match reader.natural? t with
  | some n => .ok n
  | none => .error (.invalidNumber (String.ofList t) .natural)

def lookUp (names : Names) (t : Token) : Read α NamedVariable :=
  match names.find? (String.ofList t) with
  | some v => .ok v
  | none => .error (.unknownVariable (String.ofList t))

def readMulti (names : Names) (t : Token) : Read α MultiVariable := do
  match ← lookUp names t with
  | .multi m => return m
  | .binary _ => .error (.invalidLiteral (String.ofList t))

def splitAtFirst? (mark : Char) : Token → Option (Token × Token)
  | [] => none
  | c :: rest =>
    if c = mark then some ([], rest)
    else (splitAtFirst? mark rest).map fun (before, after) => (c :: before, after)

def splitAtLast? (mark : Char) (t : Token) : Option (Token × Token) :=
  (splitAtFirst? mark t.reverse).map fun (after, before) => (before.reverse, after.reverse)

def stateReference? (t : Token) : Option (Token × Token) :=
  if t.getLast? = some ']' then splitAtFirst? '[' t.dropLast else none

def splitNegation : Token → Bool × Token
  | '!' :: rest => (true, rest)
  | t => (false, t)

def readLiteral (reader : NumberReader α) (names : Names) (t : Token) : Read α Literal := do
  let (negated, reference) := splitNegation t
  match stateReference? reference with
  | some (name, state) =>
    let state ← readNatural reader state
    let m ← readMulti names name
    match m.state? state with
    | some v => return ⟨v, negated⟩
    | none => .error (.declaration (.stateOutOfRange state m.numStates))
  | none =>
    match ← lookUp names reference with
    | .binary v => return ⟨v, negated⟩
    | .multi _ => .error (.invalidLiteral (String.ofList t))

def readBinary (reader : NumberReader α) (names : Names) (t : Token) : Read α BinaryVariable := do
  let l ← readLiteral reader names t
  if l.negated then .error (.invalidLiteral (String.ofList t)) else return l.atom

def readItem (reader : NumberReader α) (names : Names) (t : Token) : Read α (Literal × α) := do
  match splitAtLast? ':' t with
  | none => .error (.invalidLiteral (String.ofList t))
  | some (literal, cost) =>
    let literal ← readLiteral reader names literal
    let cost ← readScalar reader cost
    return (literal, cost)

def splitAtColon (ts : List Token) : Read α (List Token × List Token) :=
  match ts.idxOf? [':'] with
  | some i => .ok (ts.take i, ts.drop (i + 1))
  | none => .error (.invalidLiteral (String.ofList ([' '].intercalate ts)))

inductive Keyword where
  | binary
  | multi
  | pair
  | budget
  | knapsack
  | dense
  | matching
  | segmentation
  | operator (op : LogicOperator)
  deriving Repr, DecidableEq

/-- The keyword of a token. Only operators may be written in upper case. -/
def Keyword.ofText? (text : String) : Option Keyword :=
  match text with
  | "binary" => some binary
  | "multi" => some multi
  | "pair" => some pair
  | "budget" => some budget
  | "knapsack" => some knapsack
  | "dense" => some dense
  | "matching" => some matching
  | "segmentation" => some segmentation
  | text => (LogicOperator.ofKeyword? text).map operator

def readArguments (reader : NumberReader α) (names : Names) (keyword : Keyword)
    (ts : List Token) : Read α (Declaration α) :=
  match keyword, ts with
  | .binary, [name, logPotential] => do
    return .binary (String.ofList name) (← readScalar reader logPotential)
  | .binary, ts => .error (.argumentCount (.exactly 2) ts.length)
  | .multi, name :: logPotentials => do
    return .multi (String.ofList name) (← logPotentials.mapM (readScalar reader))
  | .multi, [] => .error (.argumentCount (.atLeast 2) 0)
  | .pair, [first, second, logPotential] => do
    let first ← readLiteral reader names first
    let second ← readLiteral reader names second
    return .factor (.pair first second (← readScalar reader logPotential))
  | .pair, ts => .error (.argumentCount (.exactly 3) ts.length)
  | .budget, limit :: literals => do
    let limit ← readNatural reader limit
    return .factor (.budget (← literals.mapM (readLiteral reader names)) limit)
  | .budget, [] => .error (.argumentCount (.atLeast 1) 0)
  | .knapsack, limit :: items => do
    let limit ← readScalar reader limit
    let items ← items.mapM (readItem reader names)
    return .factor (.knapsack (items.map (·.1)) (items.map (·.2)) limit)
  | .knapsack, [] => .error (.argumentCount (.atLeast 1) 0)
  | .dense, ts => do
    let (vars, logPotentials) ← splitAtColon ts
    let vars ← vars.mapM (readMulti names)
    return .factor (.dense vars (← logPotentials.mapM (readScalar reader)))
  | .matching, numRows :: numColumns :: vars => do
    let numRows ← readNatural reader numRows
    let numColumns ← readNatural reader numColumns
    return .factor (.matching (← vars.mapM (readBinary reader names)) numRows numColumns)
  | .matching, ts => .error (.argumentCount (.atLeast 2) ts.length)
  | .segmentation, length :: ts => do
    let length ← readNatural reader length
    let (vars, transitions) ← splitAtColon ts
    let vars ← vars.mapM (readBinary reader names)
    return .factor (.segmentation vars length (← transitions.mapM (readScalar reader)))
  | .segmentation, [] => .error (.argumentCount (.atLeast 1) 0)
  | .operator op, ts => do
    return .factor (.logic op (← ts.mapM (readLiteral reader names)))

/-- Reads the tokens of a line; `none` when there are none. -/
def readDeclaration (reader : NumberReader α) (names : Names) :
    List Token → Read α (Option (Declaration α))
  | [] => .ok none
  | keyword :: ts =>
    match Keyword.ofText? (String.ofList keyword) with
    | some k => (readArguments reader names k ts).map some
    | none => .error (.unknownDeclaration (String.ofList keyword))

end MapInference.GraphFile
