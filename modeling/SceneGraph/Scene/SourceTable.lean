import SceneGraph.Scene.Step

/-!
Which cells feed a model's inputs.
-/

namespace SceneGraph

/-- A place that does not exist. -/
structure OutOfRange where
  length : Nat
  index : Nat
  deriving DecidableEq

def OutOfRange.message (e : OutOfRange) : String :=
  "index out of bounds: the len is " ++ toString e.length ++
    " but the index is " ++ toString e.index

/-- Why a source cannot be registered. -/
inductive RegisterFailure where
  | outOfRange (e : OutOfRange)
  /-- The table would need more places than fit into memory. -/
  | tooManyPlaces
  deriving DecidableEq

def RegisterFailure.message : RegisterFailure → String
  | .outOfRange e => e.message
  | .tooManyPlaces => "capacity overflow"

/-- The sources by input index, smallest index first. -/
abbrev SourceTable := List (InputIndex × NodeId)

namespace SourceTable

/-- The source of an index. -/
def source? (t : SourceTable) (index : InputIndex) : Option NodeId :=
  t.lookup index

/-- Sets the source of an index and leaves all others. -/
def insert : SourceTable → InputIndex → NodeId → SourceTable
  | [], index, source => [(index, source)]
  | (i, cell) :: rest, index, source =>
    if index < i then
      (index, source) :: (i, cell) :: rest
    else if index = i then
      (index, source) :: rest
    else
      (i, cell) :: insert rest index source

/-- An index keeps its source unless it is the one that is set. -/
theorem source?_insert (t : SourceTable) (index other : InputIndex) (source : NodeId) :
    (t.insert index source).source? other =
      if other = index then some source else t.source? other := by
  induction t with
  | nil => by_cases h : other = index <;> grind [insert, source?]
  | cons entry rest ih =>
    simp only [source?] at ih ⊢
    simp only [insert]
    by_cases h : other = index <;> split <;> grind

/-- No table has this many places: at sixteen bytes each they would fill half of what a
machine word can address. -/
def placeLimit : Nat := Nat.pow 2 59

/-- Sets the source of an index.  A table that is to hold an index has one place more than
the index says, counted in machine words: to hold the last index it would have no place at
all. -/
def register (t : SourceTable) (index : InputIndex) (source : NodeId) :
    Except RegisterFailure SourceTable :=
  let places := index + 1
  if places = 0 then
    .error (.outOfRange ⟨0, index.toNat⟩)
  else if places.toNat < placeLimit then
    .ok (t.insert index source)
  else
    .error .tooManyPlaces

end SourceTable

end SceneGraph
