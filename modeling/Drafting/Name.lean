import Drafting.Text.Blank

/-!
# Names and dotted references

Nodes and anchors are named by nonempty texts of ASCII letters, digits, `_` and
`-` that do not start with `-`. A dotted reference `node.anchor` names an anchor
of a node; it is cut at its first dot, and everything after that dot belongs to
the anchor key.
-/

namespace Drafting
namespace Name

def isInitial (c : Char) : Bool := c.isAlphanum || c == '_'

def isConstituent (c : Char) : Bool := isInitial c || c == '-'

def isValidList : List Char → Bool
  | [] => false
  | c :: cs => isInitial c && cs.all isConstituent

/-- Whether a text is a name. Blanks are not ignored. -/
def isValid (s : String) : Bool := isValidList s.toList

/-- The longest run of name characters at the front, and what follows it. -/
def splitRun (cs : List Char) : List Char × List Char :=
  (cs.takeWhile isConstituent, cs.dropWhile isConstituent)

/-- Cut a dotted reference into the node's name and the anchor key. -/
def splitReference? (s : String) : Option (String × String) :=
  match splitRun (Text.trim s.toList) with
  | (name, '.' :: key) =>
    if isValidList name && !key.isEmpty then some (String.ofList name, String.ofList key) else none
  | _ => none

end Name
end Drafting
