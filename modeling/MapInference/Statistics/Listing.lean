import MapInference.Statistics
import MapInference.Text.Case

/-!
# Listing statistics

Statistics are listed as lines `<mark> <name>=<value>`. The name of a statistic joins the names of
the groups that it belongs to with its own.
-/

namespace MapInference

structure StatisticName where
  text : String := ""
  deriving Repr, DecidableEq

namespace StatisticName

def ofParts (parts : List String) : StatisticName := ⟨"_".intercalate parts⟩

def member (n : StatisticName) (part : String) : StatisticName :=
  if n.text.isEmpty then ⟨part⟩ else ⟨n.text ++ "_" ++ part⟩

end StatisticName

structure StatisticFormat where
  /-- The beginning of every line. -/
  mark : String
  /-- The line after the last statistic. -/
  closing : Option String := none
  camelCase : Bool := false

namespace StatisticFormat

def line (f : StatisticFormat) (name : StatisticName) (value : String) : String :=
  let text := if f.camelCase then Text.camelCase name.text else name.text
  f.mark ++ " " ++ text ++ "=" ++ value

end StatisticFormat

variable {α : Type}

def EngineStatistics.entries (showScalar : α → String) (s : EngineStatistics α) :
    List (String × String) :=
  [("num_relaxations", toString s.relaxations), ("num_iterations", toString s.iterations),
    ("num_inner_iterations", toString s.innerIterations),
    ("num_eta_adaptations", toString s.adaptations), ("final_eta", showScalar s.finalStepSize)]

def SearchStatistics.entries (s : SearchStatistics) : List (String × String) :=
  [("num_nodes_explored", toString s.explored), ("num_nodes_pruned", toString s.pruned),
    ("num_incumbent_updates", toString s.incumbentUpdates)]

def Statistics.entries (showScalar : α → String) (s : Statistics α) :
    List (StatisticName × String) :=
  let group (name : String) (entries : List (String × String)) : List (StatisticName × String) :=
    entries.map fun (part, value) => ((⟨name⟩ : StatisticName).member part, value)
  group "engine_statistics" (s.engine.entries showScalar)
    ++ group "search_statistics" s.search.entries

def StatisticFormat.listing (f : StatisticFormat) (showScalar : α → String)
    (numVariables numFactors : Nat) (s : Statistics α) : List String :=
  let sizes : List (StatisticName × String) :=
    [(⟨"num_binary_variables"⟩, toString numVariables), (⟨"num_factors"⟩, toString numFactors)]
  (sizes ++ s.entries showScalar).map (fun (name, value) => f.line name value) ++ f.closing.toList

end MapInference
