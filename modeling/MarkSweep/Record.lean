/-!
# Records — a value written as its name and its named fields
-/
namespace MarkSweep

def fieldText (f : String × String) : String := f.1 ++ ": " ++ f.2

/-- A name, and the fields between braces. -/
def recordText (name : String) (fields : List (String × String)) : String :=
  let body := ", ".intercalate (fields.map fieldText)
  s!"{name} \x7b {body} \x7d"

def countFields (counts : List (String × Nat)) : List (String × String) := counts.map fun (k, n) => (k, toString n)

end MarkSweep
