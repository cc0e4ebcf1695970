import KeywordEngine.Keyword.Spec

/-!
# Keywords

A keyword is a specification together with its place: the forest it belongs to and the path to it
from the top of that forest. Keywords of different forests are different even if their
specifications are equal, and a keyword is a child of exactly one keyword.
-/

namespace KeywordEngine

/-- The place of a keyword: its forest and the indices that lead to it from the top. -/
structure KeywordId where
  forest : Nat
  path : List Nat
  deriving DecidableEq, Repr

/-- The place of the child with the given index. -/
def KeywordId.child (id : KeywordId) (index : Nat) : KeywordId := ⟨id.forest, id.path ++ [index]⟩

/-- A keyword in its place. -/
structure Keyword where
  id : KeywordId
  spec : KeywordSpec

namespace Keyword

/-- The name of the keyword. -/
abbrev name (k : Keyword) : String := k.spec.name

/-- The keywords nested in this one. -/
def children (k : Keyword) : List Keyword :=
  k.spec.children.mapIdx fun index spec => ⟨k.id.child index, spec⟩

/-- The first nested keyword of that name. -/
def child? (k : Keyword) (name : String) : Option Keyword :=
  k.children.find? (Text.sameName ·.name name)

end Keyword

/-- The keywords of one discovery; `id` sets them apart from those of every other. -/
structure Forest where
  id : Nat
  specs : List KeywordSpec

namespace Forest

/-- The keywords at the top of the forest. -/
def keywords (f : Forest) : List Keyword :=
  f.specs.mapIdx fun index spec => ⟨⟨f.id, [index]⟩, spec⟩

end Forest

/-- The first of some keywords that has that name. -/
def findKeyword? (keywords : List Keyword) (name : String) : Option Keyword :=
  keywords.find? (Text.sameName ·.name name)

/-- The keyword that a list of names leads to: the first name among `keywords`, each other one among
the children of the keyword before it. -/
def Keyword.follow? (keywords : List Keyword) : List String → Option Keyword
  | [] => none
  | first :: rest => rest.foldl (fun k name => k.bind (·.child? name)) (findKeyword? keywords first)

end KeywordEngine
