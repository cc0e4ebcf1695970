import KeywordEngine.Store

/-!
# Rows of a store

The number of stored rows of each kind.
-/

namespace KeywordEngine

open Store

/-- How many rows of each kind a store holds. -/
structure RowCounts where
  modules : Nat
  /-- Types of all levels. -/
  types : Nat
  members : Nat
  /-- Attributes of types and of members. -/
  attributes : Nat
  arguments : Nat
  enumFields : Nat
  deriving DecidableEq, Repr

namespace RowCounts

/-- No rows. -/
def zero : RowCounts := ⟨0, 0, 0, 0, 0, 0⟩

/-- The sum of two counts. -/
protected def add (a b : RowCounts) : RowCounts :=
  ⟨a.modules + b.modules, a.types + b.types, a.members + b.members, a.attributes + b.attributes,
    a.arguments + b.arguments, a.enumFields + b.enumFields⟩

instance : Add RowCounts := ⟨RowCounts.add⟩

/-- The rows of attributes. -/
def ofAttributes (l : List StoredAttribute) : RowCounts :=
  { zero with attributes := l.length, arguments := l.foldl (fun n a => n + a.arguments.length) 0 }

/-- The row of a member and those of its attributes. -/
def ofMember (m : StoredMember) : RowCounts :=
  { zero with members := 1 } + ofAttributes m.attributes

mutual
/-- The row of a type and those of everything in it. -/
def ofType : StoredType → RowCounts
  | ⟨_, _, _, attributes, members, enumFields, nested⟩ =>
    { zero with types := 1, enumFields := enumFields.length } + ofAttributes attributes +
      (members.map ofMember).foldl (· + ·) zero + ofTypes nested

/-- The rows of types. -/
def ofTypes : List StoredType → RowCounts
  | [] => zero
  | t :: rest => ofType t + ofTypes rest
end

end RowCounts

/-- The rows of a store. -/
def MetadataStore.counts (s : MetadataStore) : RowCounts :=
  (s.modules.map fun m => { RowCounts.zero with modules := 1 } + RowCounts.ofTypes m.types).foldl
    (· + ·) .zero

end KeywordEngine
