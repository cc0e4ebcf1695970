import KeywordEngine.Store.Count

/-!
# Edits of stored rows

Changes of single columns that bypass every check, as another program with access to the store could
make them. Each edit changes all rows that it selects and tells their number.
-/

namespace KeywordEngine

open Store

/-- A change of one column of the rows it selects. -/
inductive StoreEdit where
  /-- Arguments with the value `old` get another kind and value. -/
  | arguments (old kind value : String)
  /-- Types of that name get another kind. -/
  | typeKind (name kind : String)
  /-- Members of that name get another kind. -/
  | memberKind (name kind : String)
  /-- Members of that name get another flag. -/
  | settable (name : String) (flag : Int)

namespace StoreEdit

/-- The edited row of an argument; none if it is not selected. -/
def argument? : StoreEdit → StoredArgument → Option StoredArgument
  | .arguments old kind value, a => if a.value = old then some ⟨a.name, kind, value⟩ else none
  | _, _ => none

/-- The edited row of a member. -/
def member? : StoreEdit → StoredMember → Option StoredMember
  | .memberKind name kind, m => if m.name = name then some { m with kind } else none
  | .settable name flag, m => if m.name = name then some { m with settable := flag } else none
  | _, _ => none

/-- The edited kind of a type of that name. -/
def typeKind? : StoreEdit → String → Option String
  | .typeKind name kind, n => if n = name then some kind else none
  | _, _ => none

/-- What an edit makes of something, with the number of rows it changed. -/
structure Edited (α : Type) where
  rows : α
  changed : Nat

/-- Edits the items of a list. -/
def onList {α : Type} (f : α → Edited α) (l : List α) : Edited (List α) :=
  ⟨l.map fun a => (f a).rows, l.foldl (fun n a => n + (f a).changed) 0⟩

/-- A row, edited if it is selected. -/
def onRow {α : Type} (f : α → Option α) (a : α) : Edited α :=
  match f a with
  | some b => ⟨b, 1⟩
  | none => ⟨a, 0⟩

/-- Edits an attribute. -/
def onAttribute (e : StoreEdit) (a : StoredAttribute) : Edited StoredAttribute :=
  let arguments := onList (onRow e.argument?) a.arguments
  ⟨{ a with arguments := arguments.rows }, arguments.changed⟩

/-- Edits a member. -/
def onMember (e : StoreEdit) (m : StoredMember) : Edited StoredMember :=
  let row := onRow e.member? m
  let attributes := onList e.onAttribute row.rows.attributes
  ⟨{ row.rows with attributes := attributes.rows }, row.changed + attributes.changed⟩

mutual
/-- Edits a type. -/
def onType (e : StoreEdit) : StoredType → Edited StoredType
  | ⟨name, base, kind, attributes, members, enumFields, nested⟩ =>
    let newKind := e.typeKind? name
    let attributes := onList e.onAttribute attributes
    let members := onList e.onMember members
    let nested := onTypes e nested
    ⟨⟨name, base, newKind.getD kind, attributes.rows, members.rows, enumFields, nested.rows⟩,
      newKind.toList.length + attributes.changed + members.changed + nested.changed⟩

/-- Edits the types of one level. -/
def onTypes (e : StoreEdit) : List StoredType → Edited (List StoredType)
  | [] => ⟨[], 0⟩
  | t :: rest =>
    let first := onType e t
    let others := onTypes e rest
    ⟨first.rows :: others.rows, first.changed + others.changed⟩
end

/-- Edits a module. -/
def onModule (e : StoreEdit) (m : StoredModule) : Edited StoredModule :=
  let types := e.onTypes m.types
  ⟨{ m with types := types.rows }, types.changed⟩

end StoreEdit

/-- Edits a store. -/
def MetadataStore.edit (s : MetadataStore) (e : StoreEdit) : StoreEdit.Edited MetadataStore :=
  let modules := StoreEdit.onList e.onModule s.modules
  ⟨{ s with modules := modules.rows }, modules.changed⟩

end KeywordEngine
