import TagFormula.Catalog.Basic

/-! The C++ module of a catalog: all functions with comments on their use, and a table for each role
in which they are found by identifier. -/

namespace TagFormula

namespace Role

/-- The C++ type of a pointer to a function of this role. -/
def pointerType : Role → Text
  | .valueConv => ascii "ValueConvFn"
  | .printConv => ascii "PrintConvFn"
  | .condition => ascii "ConditionFn"

/-- The C++ function that finds one by its identifier. -/
def lookupName : Role → Text
  | .valueConv => ascii "find_value_conv"
  | .printConv => ascii "find_print_conv"
  | .condition => ascii "find_condition"

def lookupSignature (r : Role) : Text :=
  r.pointerType ++ ascii " " ++ r.lookupName ++ ascii "(std::string_view identifier)"

end Role

namespace Catalog

/-- The function of an item with a comment for each usage. -/
def Item.source (item : Item) : Text :=
  match item.function with
  | none => []
  | some f =>
    Text.unlines (item.usages.map fun u => ascii "// used by " ++ Text.oneLine u.toText) ++ f.source
      ++ ascii "\n"

/-- The line of an item in the table of its role. -/
def Item.row (item : Item) : Text :=
  ascii "      \x7b\"" ++ item.identifier ++ ascii "\", &" ++ item.formula.functionName
    ++ ascii "\x7d,"

/-- The lookup function of a role. -/
def lookupText (c : Catalog) (r : Role) : Text :=
  let rows := c.items.values.filter fun item =>
    item.formula.role = r && item.function.isSome
  Text.unlines ([r.lookupSignature ++ ascii " \x7b",
      ascii "  static const std::unordered_map<std::string, " ++ r.pointerType ++ ascii "> table = \x7b"]
    ++ rows.map Item.row
    ++ [ascii "  \x7d;", ascii "  auto it = table.find(std::string(identifier));",
      ascii "  if (it == table.end()) return nullptr;", ascii "  return it->second;", ascii "\x7d", []])

/-- The module, which includes its header by the given name. -/
def moduleText (c : Catalog) (header : Text) : Text :=
  Text.unlines [ascii "// Generated by tagconv. Do not edit.", [],
      ascii "#include \"" ++ header ++ ascii "\"", [], ascii "#include <string>",
      ascii "#include <unordered_map>", [], ascii "namespace tagconv::generated \x7b", []]
    ++ c.items.values.flatMap Item.source
    ++ Role.all.flatMap c.lookupText
    ++ ascii "\x7d  // namespace tagconv::generated\n"

/-- The header, which is the same for every catalog. -/
def headerText : Text :=
  Text.unlines ([ascii "// Generated by tagconv. Do not edit.", [], ascii "#pragma once", [],
      ascii "#include <string_view>", [], ascii "#include \"tagconv/runtime.h\"", [],
      ascii "namespace tagconv::generated \x7b", []]
    ++ (Role.all.flatMap fun r =>
      [ascii "/// Returns nullptr for an unknown identifier.", r.lookupSignature ++ ascii ";"])
    ++ [[], ascii "\x7d  // namespace tagconv::generated"])

end Catalog
end TagFormula
