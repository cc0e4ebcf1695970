import KeywordEngine.Json
import KeywordEngine.Keyword.Spec

/-!
# Specifications as JSON

The JSON form of modules and keyword specifications. The fields of every object stand in the order
of their names.
-/

namespace KeywordEngine

/-- A module reference with its identity, name and version. -/
def ModuleRef.json (m : ModuleRef) : Json :=
  .object [("id", .string m.id.text), ("name", .string m.name), ("version", .string m.version)]

/-- The texts of a set as an array. -/
private def SortedSet.json (s : SortedSet) : Json := .array (s.keys.map .string)

/-- A text, or null. -/
private def textOrNull : Option String → Json
  | none => .null
  | some s => .string s

/-- A membership with its position (a number or null) and its mandatory flag. -/
def SetMembership.json (m : SetMembership) : Json :=
  .object [("mandatory", .bool m.mandatory),
    ("position", match m.position with | none => .null | some p => .int p.toNat)]

/-- A parameter with its memberships by set. -/
def ParameterSpec.json (p : ParameterSpec) : Json :=
  .object [("enum_values", p.members.json), ("name", .string p.name),
    ("parameter_sets", .object (p.sets.toList.map fun (set, m) => (set, m.json))),
    ("type_name", .string p.typeName)]

/-- A property. -/
def PropertySpec.json (p : PropertySpec) : Json :=
  .object [("enum_values", p.members.json), ("mandatory", .bool p.mandatory),
    ("name", .string p.name), ("type_constraint", .string p.typeName)]

mutual
/-- A keyword with the keywords nested in it. -/
def KeywordSpec.json : KeywordSpec → Json
  | ⟨name, body, use, defaultSet, parameters, properties, children, nested, module⟩ =>
    .object [("body_mode", .string body.text), ("children", .array (keywordsJson children)),
      ("default_parameter_set", textOrNull defaultSet), ("is_nested", .bool nested),
      ("name", .string name), ("parameters", .array (parameters.map (·.json))),
      ("properties", .array (properties.map (·.json))), ("source_module", module.json),
      ("use_mode", .string use.text)]

/-- The keywords of a list. -/
def keywordsJson : List KeywordSpec → List Json
  | [] => []
  | k :: rest => k.json :: keywordsJson rest
end

end KeywordEngine
