import MapInference.CommandLine.Run

/-!
# The program

Runs the stages of a command line one after the other, prints the lines of each and polls a clock
before every step of the search.
-/

namespace MapInference.CommandLine

def printLines (lines : List Line) : IO Unit := lines.forM fun l => IO.println l.text

def readContents (path : String) : IO (Except String (List UInt8)) := do
  match ← (IO.FS.readBinFile path).toBaseIO with
  | .ok bytes => return .ok bytes.toList
  | .error (.noFileOrDirectory _ _ _) => return .error missingFile
  | .error e => return .error (toString e)

def searchWithClock (a : Arguments) (x : FactorGraph.Solving Float) (start : Nat)
    (s : Search.State Float (Nat × Condition)) :
    (limit : Nat) → IO (Search.State Float (Nat × Condition))
  | 0 => return s
  | limit + 1 => do
    if s.isFinished then return s
    else
      let elapsed := (← IO.monoMsNow) - start
      let monitor := Search.boundedMonitor a.options (Condition.monitor elapsed)
      searchWithClock a x start (s.step monitor x.graph.problem a.options) limit

def solveWithClock (a : Arguments) (g : FactorGraph Float) (start : Nat) :
    IO (FactorGraph.Solved Float) := do
  let x := g.begin a.options
  if x.needsSearch then
    let problem := x.graph.problem
    let s := Search.State.start problem a.options x.root (0, a.condition)
    let last ← searchWithClock a x start s (Search.stepLimit problem.numVariables)
    return x.searched (Search.finish last x.root)
  else return x.relaxed

def conclude (o : Outcome) : IO UInt32 := do
  printLines o.lines
  return UInt32.ofNat o.exitCode

def runWithClock (a : Arguments) : IO UInt32 := do
  let start ← IO.monoMsNow
  printLines (openingLines a)
  let (lines, loaded) := load a (← readContents a.path)
  printLines lines
  match loaded with
  | .error fault => conclude (.ofFault fault)
  | .ok s =>
    if s.graph.breaksDown a.options then conclude .broken
    else conclude (.ofSolved a s.names (← solveWithClock a s.graph start))

end MapInference.CommandLine

def main (arguments : List String) : IO UInt32 :=
  match MapInference.CommandLine.Arguments.read arguments with
  | .error e => do
    IO.eprintln s!"error: {e.message}"
    return 2
  | .ok a => MapInference.CommandLine.runWithClock a
