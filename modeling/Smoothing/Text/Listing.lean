/-!
# Listings

Texts made of other texts: a title with one line below it for each entry, and entries between
brackets.
-/

namespace Smoothing.Text

def commas (ts : List String) : String := ", ".intercalate ts

def lines (ts : List String) : String := String.join (ts.map (· ++ "\n"))

/-- A title and below it the entries, indented by two. -/
def listing (title : String) (entries : List String) : String :=
  lines (title :: entries.map ("  " ++ ·))

def numbered (entries : List String) : List String :=
  entries.zipIdx.map fun (t, i) => s!"#{i}: {t}"

def padRight (width : Nat) (t : String) : String := t.pushn ' ' (width - t.length)

end Smoothing.Text
