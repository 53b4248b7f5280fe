import Drafting.Path
import Drafting.Style

/-!
# Sinks

A sink receives styled paths and gives back a handle for each, by which the path
can be taken out again. The drawing context knows nothing else of its sink.

A recording is the sink that keeps what it is given, in the order of its handles.
Handles are 64-bit words that count upwards, so none is used twice before all of
them have been, and taking a path out leaves every other one where it is.
-/

namespace Drafting

variable {K : Type}

/-- What a sink calls something registered with it. -/
@[ext] structure Handle where
  id : UInt64
deriving DecidableEq, Repr

/-- States of a consumer of styled paths. -/
class Sink (K : outParam Type) (S : Type) where
  register : S → Path K → Style → S × Handle
  remove : S → Handle → S

/-- What a recording keeps of something registered. -/
@[ext] structure Recorded (K : Type) where
  path : Path K
  style : Style

/-- A sink that keeps everything it is given. -/
structure Recording (K : Type) where
  /-- The number of the next handle. After the last word comes zero again. -/
  next : UInt64
  /-- What is kept, by the number of its handle. -/
  entries : Std.ExtTreeMap UInt64 (Recorded K)

namespace Recording

def empty : Recording K := ⟨0, ∅⟩

def register (s : Recording K) (path : Path K) (style : Style) : Recording K × Handle :=
  (⟨s.next + 1, s.entries.insert s.next ⟨path, style⟩⟩, ⟨s.next⟩)

def remove (s : Recording K) (h : Handle) : Recording K :=
  { s with entries := s.entries.erase h.id }

def get? (s : Recording K) (h : Handle) : Option (Recorded K) := s.entries[h.id]?

def size (s : Recording K) : Nat := s.entries.size

def isEmpty (s : Recording K) : Bool := s.entries.isEmpty

/-- The entries with their handles, in the order of the handles. -/
def toList (s : Recording K) : List (Handle × Recorded K) :=
  s.entries.toList.map fun (id, e) => (⟨id⟩, e)

instance : Sink K (Recording K) := ⟨register, remove⟩

@[simp] theorem get?_empty (h : Handle) : (empty : Recording K).get? h = none := by
  simp [empty, get?]

/-- Registering answers for the new handle and changes no other answer. -/
theorem get?_register (s : Recording K) (path : Path K) (style : Style) (h : Handle) :
    (s.register path style).1.get? h = if s.next = h.id then some ⟨path, style⟩ else s.get? h := by
  simp [register, get?, Std.ExtTreeMap.getElem?_insert]

/-- Removing forgets the handle and changes no other answer. -/
theorem get?_remove (s : Recording K) (h h' : Handle) :
    (s.remove h).get? h' = if h = h' then none else s.get? h' := by
  simp [remove, get?, Std.ExtTreeMap.getElem?_erase, Handle.ext_iff]

end Recording

end Drafting
