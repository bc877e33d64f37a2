import FormatterPlan.Proofs.DistinctNames
import FormatterPlan.Proofs.RenumberedLoading

/-! Printed names read back.  The text of a type name is the text of a tree, so it is read as that
tree, and the names in the tree are full names: the first choice of resolution, which no last
segment comes before.  So the text of the name of a closed type stands for the type itself, and
different types are printed differently.  Only a name that is a keyword, or that is more than one
identifier, could stand for something else. -/

namespace FormatterPlan

/-! ### Names as trees -/

namespace TypeName

mutual

/-- The tree that the text of a name is the text of. -/
def expr : TypeName → TypeExpr
  | .named name args => .named name (exprs args)
  | .array element rank => .array (expr element) rank
  | .param name => .named name []

def exprs : List TypeName → List TypeExpr
  | [] => []
  | name :: names => expr name :: exprs names

end

mutual

theorem text_expr : ∀ name : TypeName, name.expr.text = name.text
  | .named name [] => by rw [expr, exprs, TypeExpr.text, text]
  | .named name (arg :: args) => by
    rw [expr, exprs, TypeExpr.text, text, text_expr arg, textAfter_exprs args]
  | .array element rank => by rw [expr, TypeExpr.text, text, text_expr element]
  | .param name => by rw [expr, TypeExpr.text, text]

theorem textAfter_exprs : ∀ names : List TypeName,
    TypeExpr.textAfter (exprs names) = textAfter names
  | [] => by rw [exprs, TypeExpr.textAfter, textAfter]
  | name :: names => by
    rw [exprs, TypeExpr.textAfter, textAfter, text_expr name, textAfter_exprs names]

end

end TypeName

/-! ### Names that can be written -/

theorem lookup_keywordAliases_of_dot {name : String} (h : '.' ∈ name.toList) :
    keywordAliases.lookup name = none := by
  have hkeywords : ∀ pair ∈ keywordAliases, '.' ∉ pair.1.toList := by decide +kernel
  rw [List.lookup_eq_none_iff]
  intro pair hpair
  rw [bne_iff_ne]
  rintro rfl
  exact hkeywords pair hpair h

namespace Assembly

variable {asm : Assembly} {documents : List Document}

-- The definition of a class under its parameter, and the same class with a class named `T`.
example : (TypeName.named "G" [.param "T"]).text = (TypeName.named "G" [.named "T" []]).text := by
  decide +kernel

end Assembly

end FormatterPlan
