/-!
# Letter case of names
-/

namespace MapInference.Text

def capitalized (part : List Char) : List Char :=
  match part with
  | [] => []
  | c :: rest => c.toUpper :: rest

/-- Joins the parts of a name that is separated by underscores; all but the first begin with a
capital letter. -/
def camelCase (name : String) : String :=
  match name.toList.splitOn '_' with
  | [] => ""
  | first :: rest => String.ofList (first ++ rest.flatMap capitalized)

end MapInference.Text
