import KeywordEngine.Text.Decimal

/-!
# Store errors

Why a request to the metadata store fails.
-/

namespace KeywordEngine

/-- Why a request to the metadata store fails. -/
inductive StoreError where
  /-- No module has that identity. -/
  | notFound (id : String)
  /-- A stored identity is no identity. -/
  | badModuleId (text : String)
  /-- The stored kind of a type is unknown. -/
  | badTypeKind (name kind : String)
  /-- The stored kind of a member is unknown. -/
  | badMemberKind (name kind : String)
  /-- The stored value of an attribute argument does not have its kind, or the kind is unknown. -/
  | badArgument (name kind value : String)
  /-- The store has a later schema than this library knows. -/
  | newerVersion (version latest : Nat)
  /-- The stored schema version is no natural number. -/
  | unreadableVersion
  /-- The tables of a schema are to be created, but they exist. -/
  | tablesExist
  /-- The identity or the name of a new row is taken. -/
  | rowTaken
  deriving DecidableEq, Repr

namespace StoreError

/-- What is wrong with stored data. -/
private def complaint : StoreError → Option String
  | badModuleId text => some ("module uuid `" ++ text ++ "`")
  | badTypeKind name kind => some ("type `" ++ name ++ "` has kind `" ++ kind ++ "`")
  | badMemberKind name kind => some ("member `" ++ name ++ "` has kind `" ++ kind ++ "`")
  | badArgument name kind value =>
    some ("argument `" ++ name ++ "` has " ++ kind ++ " value `" ++ value ++ "`")
  | _ => none

/-- Whether stored data cannot be read as records. -/
def isInvalidData (e : StoreError) : Bool := e.complaint.isSome

/-- The error as shown to the user. -/
def message (e : StoreError) : String :=
  match e.complaint with
  | some text => "invalid stored metadata: " ++ text
  | none =>
    match e with
    | notFound id => "module not found in metadata store: " ++ id
    | newerVersion version latest =>
      "metadata store schema version " ++ Text.ofNat version ++ " is newer than supported " ++
        Text.ofNat latest
    | unreadableVersion => "metadata store schema version is not readable"
    | tablesExist => "metadata store tables already exist"
    | _ => "metadata store row is already taken"

end StoreError

end KeywordEngine
