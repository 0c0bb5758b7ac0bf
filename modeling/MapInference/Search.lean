import MapInference.Event
import MapInference.Statistics
import MapInference.Termination

/-!
# Branch and bound

The search for an assignment of greatest value goes depth first through nodes, each of which fixes
some variables. A node is discarded when its bound cannot improve on the incumbent, when a factor
admits nothing that agrees with it, or when its relaxation is certified; otherwise its relaxation
is solved and the node is split on a variable that it leaves open. `step` treats one node; a monitor
may end the search before any of them.
-/

namespace MapInference

open Scalar

namespace Search

/-- A bound improves on the incumbent only if it exceeds its value by more than this, relatively. -/
def pruningTolerance {α : Type} [Scalar α] : α := tenthPower 9

structure Node (α : Type) where
  fixed : List (Option Bool)
  /-- A bound that is inherited from the parent. -/
  bound : Extended α

structure State (α σ : Type) where
  /-- The open nodes, the next one first. -/
  frontier : List (Node α)
  incumbent : Option (Integral α)
  monitorState : σ
  /-- Whether the monitor has ended the search. -/
  stopped : Bool := false
  statistics : SearchStatistics := {}
  engine : EngineStatistics α
  /-- The workers of the relaxation that was solved last. -/
  workers : List (Worker α)
  /-- Whether a relaxation has no answer, or a table has left the machine words. -/
  emptied : Bool := false
  /-- The latest event first. -/
  events : List (Event α) := []

variable {α σ : Type} [Scalar α]

def cannotImprove (bound : Extended α) (incumbent : Option (Integral α)) : Bool :=
  match incumbent with
  | none => false
  | some a => bound.atMost (a.value + pruningTolerance * larger (abs a.value) 1)

def improves (a : Integral α) : Option (Integral α) → Bool
  | none => true
  | some b => decide (b.value < a.value)

/-- The variable to branch on: one that is fractional, or else the first one that is open. -/
def branchingVariable? (options : Options α) (consensus : List α) (fixed : List (Option Bool)) :
    Option Nat :=
  (options.selection.select? consensus fixed Relaxation.integralityTolerance).or
    (fixed.findIdx? Option.isNone)

/-- The two children of a node; the one that agrees with the consensus comes first. -/
def children (consensus : List α) (fixed : List (Option Bool)) (bound : Extended α) (i : Nat) :
    List (Node α) :=
  let preferred := decide (half ≤ coordinate consensus i)
  [⟨fixed.set i (some preferred), bound⟩, ⟨fixed.set i (some !preferred), bound⟩]

def split (options : Options α) (consensus : List α) (fixed : List (Option Bool))
    (bound : Extended α) : List (Node α) :=
  match branchingVariable? options consensus fixed with
  | some i => children consensus fixed bound i
  | none => []

namespace State

def offer (s : State α σ) (a : Integral α) : State α σ :=
  if improves a s.incumbent then
    { s with
      incumbent := some a
      statistics := { s.statistics with incumbentUpdates := s.statistics.incumbentUpdates + 1 }
      events := .incumbentFound a.value :: s.events }
  else s

def offer? (s : State α σ) : Option (Integral α) → State α σ
  | some a => s.offer a
  | none => s

def prune (s : State α σ) : State α σ :=
  { s with statistics := { s.statistics with pruned := s.statistics.pruned + 1 } }

def record (s : State α σ) (monitor : Monitor σ) (x : Relaxation α) : State α σ :=
  { s with
    monitorState := monitor.nodeExplored s.monitorState
    statistics := { s.statistics with explored := s.statistics.explored + 1 }
    engine := s.engine.record x
    workers := x.workers
    emptied := s.emptied || x.emptied
    events := x.events.reverse ++ s.events }

def explore (s : State α σ) (monitor : Monitor σ) (problem : Problem α) (options : Options α)
    (node : Node α) : State α σ :=
  let x := Relaxation.solve problem node.fixed options
  let bound := Extended.min x.bound node.bound
  let t := (s.record monitor x).offer? x.integral
  if x.certified || cannotImprove bound t.incumbent then t.prune
  else { t with frontier := split options x.consensus node.fixed bound ++ t.frontier }

/-- Treats a node that has been taken from the open ones. An assignment that every factor admits costs
no more than the capacities allow, so no value leaves the machine words when it is evaluated. -/
def process (s : State α σ) (monitor : Monitor σ) (problem : Problem α) (options : Options α)
    (node : Node α) : State α σ :=
  if cannotImprove node.bound s.incumbent then s.prune
  else if !problem.factors.all fun f => f.admits node.fixed then s.prune
  else if node.fixed.all Option.isSome then
    s.offer? (problem.integral? (node.fixed.map fun value => value.getD false))
  else s.explore monitor problem options node

/-- Records whether a table leaves the machine words when the factors are asked about a node, which
they are unless its bound cannot improve on the incumbent. -/
def noteTables (s : State α σ) (problem : Problem α) (node : Node α) : State α σ :=
  { s with
    emptied :=
      s.emptied
        || !cannotImprove node.bound s.incumbent && problem.outgrowsAt node.fixed }

def step (s : State α σ) (monitor : Monitor σ) (problem : Problem α) (options : Options α) :
    State α σ :=
  match s.frontier with
  | [] => s
  | node :: rest =>
    let (stop, monitorState) := monitor.shouldStop s.monitorState
    if stop then { s with monitorState, stopped := true }
    else
      ({ s with monitorState, frontier := rest }.noteTables problem node).process monitor problem
        options node

def isFinished (s : State α σ) : Bool := s.stopped || s.frontier.isEmpty

def run (monitor : Monitor σ) (problem : Problem α) (options : Options α) (s : State α σ) :
    (limit : Nat) → State α σ
  | 0 => s
  | limit + 1 =>
    if s.isFinished then s else run monitor problem options (s.step monitor problem options) limit

def start (problem : Problem α) (options : Options α) (root : Relaxation α) (monitorState : σ) :
    State α σ where
  frontier :=
    if root.certified then []
    else split options root.consensus (List.replicate problem.numVariables none) root.bound
  incumbent := root.integral
  monitorState
  engine := .zero
  workers := root.workers

end State

/-- A number of steps that no search over `n` variables exceeds. -/
def stepLimit (n : Nat) : Nat := twoTo (n + 1)

structure Outcome (α : Type) where
  incumbent : Option (Integral α)
  /-- Whether no node is left open, which proves the incumbent optimal, or the problem infeasible
  when there is none. -/
  exhausted : Bool
  /-- An upper bound of the value of every assignment. -/
  bound : Extended α
  statistics : SearchStatistics
  engine : EngineStatistics α
  workers : List (Worker α)
  emptied : Bool
  events : List (Event α)

/-- The bound that a search has proved: the incumbent when it is exhausted, and the best open bound
otherwise. -/
def provedBound (s : State α σ) (root : Relaxation α) : Extended α :=
  let incumbentValue := Extended.ofOption (s.incumbent.map (·.value))
  if root.certified then root.bound
  else if s.stopped then
    let openBound := s.frontier.foldl (fun b node => Extended.max b node.bound) .bottom
    Extended.min (Extended.max openBound incumbentValue) root.bound
  else incumbentValue

def finish (s : State α σ) (root : Relaxation α) : Outcome α where
  incumbent := s.incumbent
  exhausted := !s.stopped
  bound := provedBound s root
  statistics := s.statistics
  engine := s.engine
  workers := s.workers
  emptied := s.emptied
  events := s.events.reverse ++ if s.stopped then [.searchStopped s.incumbent.isSome] else []

def boundedMonitor (options : Options α) (monitor : Monitor σ) : Monitor (Nat × σ) :=
  monitor.withNodeBudget options.maxNodes

def finalState (problem : Problem α) (options : Options α) (root : Relaxation α)
    (monitor : Monitor σ) (monitorState : σ) : State α (Nat × σ) :=
  (State.start problem options root (0, monitorState)).run (boundedMonitor options monitor) problem
    options (stepLimit problem.numVariables)

end Search
end MapInference
