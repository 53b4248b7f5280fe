import Std.Data.ExtTreeMap

/-!
# Styles

A style is a set of attributes, each a text under a key. Drawings carry styles
along without reading them. Two styles are equal when they hold the same
attributes.
-/

namespace Drafting

/-- Values under text keys, in the order of the keys. -/
abbrev NameMap (α : Type) := Std.ExtTreeMap String α

structure Style where
  attributes : NameMap String

namespace Style

def empty : Style := ⟨∅⟩

def set (s : Style) (key value : String) : Style := ⟨s.attributes.insert key value⟩

def get? (s : Style) (key : String) : Option String := s.attributes[key]?

def isEmpty (s : Style) : Bool := s.attributes.isEmpty

def toList (s : Style) : List (String × String) := s.attributes.toList

def ofList (l : List (String × String)) : Style := ⟨(∅ : NameMap String).insertMany l⟩

/-- The first style with every attribute of the second written over it. -/
def overlay (s top : Style) : Style := ⟨s.attributes.insertMany top.toList⟩

end Style

end Drafting
