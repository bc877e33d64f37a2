import FormatterPlan.Analysis
import FormatterPlan.Json.Printer

/-! Plans as JSON: findings and the entries of formatter tables, with their members in a fixed
order. What does not apply is left out. -/

namespace FormatterPlan

open Json (Value)

def TypeName.toJson (name : TypeName) : Value := .string name.text

def intJson (n : Int) : Value := .number (.integer n)

def Finding.toJson (f : Finding) : Value :=
  .object ([("id", .string f.rule.id), ("kind", .string f.rule.name), ("severity", .string "error"),
    ("subject", f.subject.toJson)] ++
    (f.member.map fun m => ("member", Value.string m)).toList ++ [("message", .string f.message)])

def PlannedKey.toJson : PlannedKey → Value
  | .int n => intJson n
  | .string s => .string s

def PlannedFormatter.toJson : PlannedFormatter → Value
  | .ofType => .object [("kind", .string "resolver")]
  | .custom formatter => .object [("kind", .string "custom"), ("formatter", formatter.toJson)]

def PlannedMember.toJson (m : PlannedMember) : Value :=
  .object [("name", .string m.name), ("key", m.key.toJson), ("declared", m.declared.toJson),
    ("formatter", m.formatter.toJson)]

def UnionArm.toJson (arm : UnionArm) : Value :=
  .object [("tag", intJson arm.tag), ("variant", arm.variant.toJson)]

def Strategy.toJson : Strategy → Value
  | .builtin formatter =>
    .object [("kind", .string "well_known_builtin"), ("formatter", .string formatter)]
  | .enumeration underlying =>
    .object [("kind", .string "enum"), ("underlying", underlying.toJson)]
  | .collection adapter backing elements =>
    .object ([("kind", .string "collection_adapter"), ("adapter", .string adapter)] ++
      (backing.map fun b => ("backing", Value.string b)).toList ++
      [("elements", .array (elements.map TypeName.toJson))])
  | .custom formatter =>
    .object [("kind", .string "custom_formatter"), ("formatter", formatter.toJson)]
  | .object (.positions length) members =>
    .object [("kind", .string "generated_object"), ("shape", .string "array_encoded"),
      ("members", .array (members.map PlannedMember.toJson)), ("array_length", intJson length)]
  | .object .keys members =>
    .object [("kind", .string "generated_object"), ("shape", .string "map_encoded"),
      ("members", .array (members.map PlannedMember.toJson))]
  | .union arms =>
    .object [("kind", .string "union_dispatcher"), ("arms", .array (arms.map UnionArm.toJson))]
  | .assumed => .object [("kind", .string "assumed_formattable")]
  | .unresolved => .object [("kind", .string "unresolved")]

def FormatterTable.toJson (table : FormatterTable) : Value :=
  .array (table.entries.mapIdx fun id entry =>
    .object [("id", intJson id), ("type", entry.type.toJson), ("strategy", entry.strategy.toJson)])

def Plan.toJson (plan : Plan) : Value :=
  .object [("diagnostics", .array (plan.findings.map Finding.toJson)),
    ("resolver", plan.table.toJson)]

end FormatterPlan
