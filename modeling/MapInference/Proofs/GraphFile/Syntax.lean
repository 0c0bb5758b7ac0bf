import MapInference.Proofs.Graph.Declaration
import MapInference.GraphFile.Parser

/-!
# The language of graph files

A graph file as its author sees it: commands that refer to variables by their names, written as
tokens, and lines on which the tokens stand between blanks. A file is well-formed when every name
is new where it is declared and every reference is to a variable that has been declared before. Its
meaning is what the calls do that its commands stand for, one after another.
-/

namespace MapInference.GraphFile

variable {α β : Type}

structure Written (β : Type) where
  token : Token
  value : β

def Written.IsReadBy (read? : Token → Option β) (w : Written β) : Prop :=
  read? w.token = some w.value

/-- A binary variable, by its name or as a state of a multi-state variable. -/
inductive Reference where
  | named (name : Token)
  | state (name : Token) (index : Written ℕ)

structure Mention where
  reference : Reference
  negated : Bool := false

inductive Command (α : Type) where
  | binary (name : Token) (logPotential : Written α)
  | multi (name : Token) (logPotentials : List (Written α))
  | logic (operator : LogicOperator) (literals : List Mention)
  | pair (first second : Mention) (logPotential : Written α)
  | budget (limit : Written ℕ) (literals : List Mention)
  | knapsack (budget : Written α) (items : List (Mention × Written α))
  | dense (vars : List Token) (logPotentials : List (Written α))
  | matching (numRows numColumns : Written ℕ) (vars : List Reference)
  | segmentation (length : Written ℕ) (vars : List Reference) (transitions : List (Written α))

def Reference.token : Reference → Token
  | .named name => name
  | .state name index => name ++ '[' :: (index.token ++ [']'])

def Mention.token (l : Mention) : Token :=
  if l.negated then '!' :: l.reference.token else l.reference.token

def Keyword.token : Keyword → Token
  | .binary => "binary".toList
  | .multi => "multi".toList
  | .pair => "pair".toList
  | .budget => "budget".toList
  | .knapsack => "knapsack".toList
  | .dense => "dense".toList
  | .matching => "matching".toList
  | .segmentation => "segmentation".toList
  | .operator op => op.keyword.toList.map Char.toLower

namespace Command

def keyword : Command α → Keyword
  | binary _ _ => .binary
  | multi _ _ => .multi
  | logic op _ => .operator op
  | pair _ _ _ => .pair
  | budget _ _ => .budget
  | knapsack _ _ => .knapsack
  | dense _ _ => .dense
  | matching _ _ _ => .matching
  | segmentation _ _ _ => .segmentation

def arguments : Command α → List Token
  | binary name logPotential => [name, logPotential.token]
  | multi name logPotentials => name :: logPotentials.map (·.token)
  | logic _ literals => literals.map (·.token)
  | pair first second logPotential => [first.token, second.token, logPotential.token]
  | budget limit literals => limit.token :: literals.map (·.token)
  | knapsack total items =>
    total.token :: items.map fun (literal, cost) => literal.token ++ ':' :: cost.token
  | dense vars logPotentials => vars ++ [':'] :: logPotentials.map (·.token)
  | matching numRows numColumns vars =>
    numRows.token :: numColumns.token :: vars.map (·.token)
  | segmentation length vars transitions =>
    length.token :: (vars.map (·.token) ++ [':'] :: transitions.map (·.token))

def tokens (c : Command α) : List Token := c.keyword.token :: c.arguments

end Command

def marks : List Char := ['#', '!', '[', ']', ':']

def IsName (t : Token) : Prop := t ≠ [] ∧ ∀ c ∈ t, Text.isBlank c = false ∧ c ∉ marks

/-- The names declared so far, those of multi-state variables with their numbers of states. -/
abbrev Scope := List (Token × Option ℕ)

def Reference.IsIn (reader : NumberReader α) (scope : Scope) : Reference → Prop
  | .named name => (name, none) ∈ scope
  | .state name index =>
    index.IsReadBy reader.natural? ∧ ∃ numStates, (name, some numStates) ∈ scope ∧
      index.value < numStates

namespace Command

def declared : Command α → Scope
  | binary name _ => [(name, none)]
  | multi name logPotentials => [(name, some logPotentials.length)]
  | _ => []

/-- All names that the command declares are new, all its references are to variables in scope, and
its numbers are written as they are read. -/
def IsWellFormed (reader : NumberReader α) (scope : Scope) : Command α → Prop
  | binary name logPotential =>
    (IsName name ∧ name ∉ scope.map (·.1)) ∧ logPotential.IsReadBy reader.scalar?
  | multi name logPotentials =>
    (IsName name ∧ name ∉ scope.map (·.1)) ∧ ∀ x ∈ logPotentials, x.IsReadBy reader.scalar?
  | logic _ literals => ∀ l ∈ literals, l.reference.IsIn reader scope
  | pair first second logPotential =>
    first.reference.IsIn reader scope ∧ second.reference.IsIn reader scope ∧
      logPotential.IsReadBy reader.scalar?
  | budget limit literals =>
    limit.IsReadBy reader.natural? ∧ ∀ l ∈ literals, l.reference.IsIn reader scope
  | knapsack total items =>
    total.IsReadBy reader.scalar? ∧
      ∀ item ∈ items, item.1.reference.IsIn reader scope ∧ item.2.IsReadBy reader.scalar?
  | dense vars logPotentials =>
    (∀ name ∈ vars, ∃ numStates, (name, some numStates) ∈ scope) ∧
      ∀ x ∈ logPotentials, x.IsReadBy reader.scalar?
  | matching numRows numColumns vars =>
    numRows.IsReadBy reader.natural? ∧ numColumns.IsReadBy reader.natural? ∧
      ∀ r ∈ vars, r.IsIn reader scope
  | segmentation length vars transitions =>
    length.IsReadBy reader.natural? ∧ (∀ r ∈ vars, r.IsIn reader scope) ∧
      ∀ x ∈ transitions, x.IsReadBy reader.scalar?

end Command

/-- Every command is well-formed behind the ones before it. -/
def AreWellFormed (reader : NumberReader α) (scope : Scope) : List (Command α) → Prop
  | [] => True
  | c :: rest => c.IsWellFormed reader scope ∧ AreWellFormed reader (scope ++ c.declared) rest

def Names.binary? (names : Names) (name : Token) : Option BinaryVariable :=
  match names.find? (String.ofList name) with
  | some (.binary v) => some v
  | _ => none

def Names.multi? (names : Names) (name : Token) : Option MultiVariable :=
  match names.find? (String.ofList name) with
  | some (.multi m) => some m
  | _ => none

def Reference.atom? (names : Names) : Reference → Option BinaryVariable
  | .named name => names.binary? name
  | .state name index => (names.multi? name).bind (·.state? index.value)

def Mention.literal? (names : Names) (l : Mention) : Option Literal :=
  (l.reference.atom? names).map (⟨·, l.negated⟩)

def Command.declaration? (names : Names) : Command α → Option (Declaration α)
  | binary name logPotential => some (.binary (String.ofList name) logPotential.value)
  | multi name logPotentials =>
    some (.multi (String.ofList name) (logPotentials.map (·.value)))
  | logic op literals => do
    return .factor (.logic op (← literals.mapM (·.literal? names)))
  | pair first second logPotential => do
    return .factor (.pair (← first.literal? names) (← second.literal? names) logPotential.value)
  | budget limit literals => do
    return .factor (.budget (← literals.mapM (·.literal? names)) limit.value)
  | knapsack total items => do
    let items ← items.mapM fun (l, cost) => return (← l.literal? names, cost.value)
    return .factor (.knapsack (items.map (·.1)) (items.map (·.2)) total.value)
  | dense vars logPotentials => do
    return .factor (.dense (← vars.mapM names.multi?) (logPotentials.map (·.value)))
  | matching numRows numColumns vars => do
    return .factor
      (.matching (← vars.mapM (·.atom? names)) numRows.value numColumns.value)
  | segmentation length vars transitions => do
    return .factor
      (.segmentation (← vars.mapM (·.atom? names)) length.value (transitions.map (·.value)))

variable [Scalar α]

def Declaration.perform (g : FactorGraph α) (names : Names) :
    Declaration α → Except (ConstructionError α) (FactorGraph α × Names)
  | .binary name logPotential => do
    let (v, g) := g.addBinary
    let g ← g.setLogPotential v logPotential
    return (g, names ++ [(name, .binary v)])
  | .multi name logPotentials => do
    let (m, g) ← g.addMulti logPotentials.length
    let g ← g.setStateLogPotentials m 0 logPotentials
    return (g, names ++ [(name, .multi m)])
  | .factor spec => do
    let (_, g) ← g.declare spec
    return (g, names)

/-- Performs the calls of the commands on the lines from the one with the given number on. The
first call that fails ends this with the number of its line. There is no result when a reference
stands for no variable. -/
def performLines (g : FactorGraph α) (names : Names) (number : ℕ) :
    List (Option (Command α)) →
      Option (Except (ℕ × ConstructionError α) (FactorGraph α × Names))
  | [] => some (.ok (g, names))
  | none :: rest => performLines g names (number + 1) rest
  | some c :: rest =>
    (c.declaration? names).bind fun d =>
      match d.perform g names with
      | .error cause => some (.error (number, cause))
      | .ok (g', names') => performLines g' names' (number + 1) rest

def spread : List Token → List (List Char) → List Char
  | t :: ts, gap :: gaps => t ++ (gap ++ spread ts gaps)
  | _, _ => []

/-- A line with at most one command, blanks around its tokens, and possibly a comment. -/
structure SourceLine (α : Type) where
  command? : Option (Command α)
  indent : List Char := []
  gaps : List (List Char) := []
  comment? : Option (List Char) := none

namespace SourceLine

def tokens (line : SourceLine α) : List Token := (line.command?.map (·.tokens)).getD []

def body (line : SourceLine α) : List Char := line.indent ++ spread line.tokens line.gaps

def text (line : SourceLine α) : List Char :=
  line.body ++ (line.comment?.map ('#' :: ·)).getD []

def AreBlanks (cs : List Char) : Prop := ∀ c ∈ cs, Text.isBlank c = true ∧ c ≠ '\n'

/-- The tokens are separated by blanks, and only they and the comment are not blank. -/
structure IsLaidOut (line : SourceLine α) : Prop where
  length_gaps : line.gaps.length = line.tokens.length
  indent : AreBlanks line.indent
  gaps : ∀ gap ∈ line.gaps, AreBlanks gap
  gaps_ne_nil : ∀ gap ∈ line.gaps.dropLast, gap ≠ []
  comment : ∀ comment ∈ line.comment?, '\n' ∉ comment

end SourceLine

/-- The text of a file. It ends with a newline when its last line is empty. -/
def fileText (file : List (SourceLine α)) : String :=
  String.ofList (['\n'].intercalate (file.map (·.text)))

def fileBytes (file : List (SourceLine α)) : List UInt8 := (fileText file).toUTF8.data.toList

end MapInference.GraphFile
