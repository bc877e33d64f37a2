import FormatterPlan.Assembly.Basic

/-! What makes a declared type a formatter of another type: by the shape of its methods, it can
write that type and read it back. -/

namespace FormatterPlan.Assembly

/-- The methods of a declaration that belong to an instance and have a name. -/
def instanceMethods (asm : Assembly) (symbol : Symbol) (name : String) : List Member :=
  (asm.membersOf symbol).filter fun m => m.kind = .method && !m.isStatic && m.name = name

/-- Whether a class or structure has a method `Serialize` that takes the target and a method
`Deserialize` that returns it.  Open parameters on either side match anything. -/
def isFormatterOf (asm : Assembly) (formatter target : Ty) : Bool :=
  match formatter.symbol? with
  | none => false
  | some symbol =>
    let isTarget (type : Ty) : Bool := (type.subst formatter.args).unifies target
    let kind := (asm.def? symbol).map (·.kind)
    (kind = some .concreteClass || kind = some .struct) &&
      (asm.instanceMethods symbol "Serialize").any (·.params.any isTarget) &&
      (asm.instanceMethods symbol "Deserialize").any (·.type.any isTarget)

end FormatterPlan.Assembly
