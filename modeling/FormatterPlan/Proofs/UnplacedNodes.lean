import FormatterPlan.Proofs.CompleteGraph
import FormatterPlan.Proofs.NodeChecks
import FormatterPlan.Proofs.StoredTypes
import FormatterPlan.Proofs.Unification

/-! Nodes without the positions of parameters.  Two open types of the same name may differ in the
positions of their parameters, and which of them has a node depends on the order of discovery.  It
makes no difference: what makes a node carries positions along without reading them, and no rule
that a node is checked against reads them either. -/

namespace FormatterPlan

/-! ### Types -/

namespace Ty

@[simp] theorem unplaced_unplaced (t : Ty) : t.unplaced.unplaced = t.unplaced := by
  induction t using Ty.induction with
  | named symbol args ih =>
    simp only [unplaced_named, List.map_map]
    exact congrArg _ (List.map_congr_left ih)
  | array element rank ih => simpa using ih
  | param index name => simp

/-- Parameters match anything, whatever their positions. -/
theorem unifies_unplaced (t u : Ty) : t.unplaced.unifies u.unplaced = t.unifies u := by
  induction t using Ty.induction generalizing u with
  | named symbol args ih =>
    cases u with
    | named other others =>
      simp only [unplaced_named, unifies, unifiesAll_map ih]
    | array element rank => simp [unifies]
    | param index name => simp [unifies]
  | array element rank ih =>
    cases u with
    | named other others => simp [unifies]
    | array element' rank' => simp [unifies, ih]
    | param index name => simp [unifies]
  | param index name => simp [unifies]

end Ty

/-- Whether a type is a formatter of another one does not depend on positions. -/
theorem Assembly.isFormatterOf_unplaced (asm : Assembly) (formatter target : Ty) :
    asm.isFormatterOf formatter.unplaced target.unplaced = asm.isFormatterOf formatter target := by
  have htarget : ∀ t : Ty, (t.subst formatter.unplaced.args).unifies target.unplaced =
      (t.subst formatter.args).unifies target := by
    intro t
    have hsame : (t.subst formatter.unplaced.args).unplaced =
        (t.subst formatter.args).unplaced :=
      Ty.unplaced_subst (by simp [Function.comp_def]) t
    calc
      (t.subst formatter.unplaced.args).unifies target.unplaced =
          (t.subst formatter.unplaced.args).unplaced.unifies target.unplaced.unplaced :=
        (Ty.unifies_unplaced _ _).symm
      _ = (t.subst formatter.args).unplaced.unifies target.unplaced := by
        rw [hsame, Ty.unplaced_unplaced]
      _ = (t.subst formatter.args).unifies target := Ty.unifies_unplaced _ _
  unfold isFormatterOf
  rw [Ty.symbol?_unplaced]
  simp only [htarget]

/-! ### The parts of a node -/

def Setting.Level.unplaced (level : Setting.Level) : Setting.Level :=
  ⟨level.type.retype .unplaced, level.origin⟩

namespace Setting

variable {s : Setting} {t t' : Ty}

theorem unplaced_named (t : Ty) : (s.named t).retype .unplaced = s.named t.unplaced := by
  show NamedType.mk t.unplaced (s.assembly.typeName t) = ⟨_, s.assembly.typeName t.unplaced⟩
  rw [Assembly.typeName_unplaced]

theorem named_congr (h : t.unplaced = t'.unplaced) :
    (s.named t).retype .unplaced = (s.named t').retype .unplaced := by
  rw [unplaced_named, h, unplaced_named]

/-- The formatter that attributes name does not read positions, and the defect of an attribute that
names none has no types in it. -/
theorem formatterOf_congr {context context' : List Ty} (attributes : List Attribute)
    (place : String) (h : context.map Ty.unplaced = context'.map Ty.unplaced) :
    (s.formatterOf attributes context place).1.map (·.retype .unplaced) =
        (s.formatterOf attributes context' place).1.map (·.retype .unplaced) ∧
      (s.formatterOf attributes context place).2 = (s.formatterOf attributes context' place).2 := by
  unfold formatterOf
  split
  · exact ⟨rfl, rfl⟩
  · split
    · exact ⟨congrArg some (named_congr (Ty.unplaced_subst h _)), rfl⟩
    · exact ⟨rfl, rfl⟩

theorem args_congr (h : t.unplaced = t'.unplaced) :
    t.args.map Ty.unplaced = t'.args.map Ty.unplaced := by
  rw [← Ty.args_unplaced, h, Ty.args_unplaced]

theorem basesAbove_congr (steps : Nat) (seen : List Symbol) (h : t.unplaced = t'.unplaced) :
    (s.basesAbove steps seen t).1.map Level.unplaced =
        (s.basesAbove steps seen t').1.map Level.unplaced ∧
      (s.basesAbove steps seen t).2 = (s.basesAbove steps seen t').2 := by
  induction steps generalizing seen t t' with
  | zero => exact ⟨rfl, rfl⟩
  | succ steps ih =>
    rw [basesAbove, basesAbove, symbol?_congr h]
    cases t'.symbol?.bind s.assembly.baseOf with
    | none => exact ⟨rfl, rfl⟩
    | some written =>
      have hbase := subst_args_congr h written
      dsimp only
      rw [symbol?_congr hbase]
      cases (written.subst t'.args).symbol? with
      | none => exact ⟨rfl, rfl⟩
      | some symbol =>
        dsimp only
        split
        · exact ⟨rfl, rfl⟩
        · obtain ⟨habove, hcyclic⟩ := ih (symbol :: seen) hbase
          have hnamed := named_congr (s := s) hbase
          have hname : (s.named (written.subst t.args)).name =
              (s.named (written.subst t'.args)).name := (NamedType.mk.inj hnamed).2
          refine ⟨?_, hcyclic⟩
          simp only [List.map_cons, Level.unplaced, hnamed, hname]
          exact congrArg _ habove

theorem basesOf_congr (h : t.unplaced = t'.unplaced) :
    (s.basesOf t).1.map Level.unplaced = (s.basesOf t').1.map Level.unplaced ∧
      (s.basesOf t).2 = (s.basesOf t').2 := by
  rw [basesOf, basesOf, symbol?_congr h]
  exact basesAbove_congr _ _ h

theorem memberOf_congr {level level' : Level} (h : level.unplaced = level'.unplaced)
    (keysAsNames : Bool) (m : Member) :
    (s.memberOf keysAsNames level m).1.map (·.retype .unplaced) =
        (s.memberOf keysAsNames level' m).1.map (·.retype .unplaced) ∧
      (s.memberOf keysAsNames level m).2 = (s.memberOf keysAsNames level' m).2 := by
  obtain ⟨htype, horigin⟩ := Level.mk.inj h
  obtain ⟨hunplaced, hname⟩ := NamedType.mk.inj htype
  have hargs := args_congr hunplaced
  unfold memberOf
  dsimp only
  rw [hname]
  cases m.type with
  | none => exact ⟨rfl, rfl⟩
  | some type =>
    cases s.keyOf m keysAsNames (level'.type.name.text ++ "." ++ m.name) with
    | ignored => exact ⟨rfl, rfl⟩
    | defect d => exact ⟨rfl, rfl⟩
    | key key =>
      obtain ⟨hformatter, hdefects⟩ := formatterOf_congr (s := s) m.attributes
        (level'.type.name.text ++ "." ++ m.name) hargs
      have hdeclared := named_congr (s := s) (Ty.unplaced_subst hargs type)
      dsimp only
      split
      · exact ⟨rfl, rfl⟩
      · refine ⟨?_, hdefects⟩
        simp only [List.map_cons, List.map_nil, NodeMember.retype, hdeclared, hformatter, horigin]

theorem membersOf_congr {level level' : Level} (h : level.unplaced = level'.unplaced)
    (keysAsNames : Bool) :
    (s.membersOf keysAsNames level).1.map (·.retype .unplaced) =
        (s.membersOf keysAsNames level').1.map (·.retype .unplaced) ∧
      (s.membersOf keysAsNames level).2 = (s.membersOf keysAsNames level').2 := by
  have hunplaced := (NamedType.mk.inj (Level.mk.inj h).1).1
  have hdata : s.dataAt level.type.type = s.dataAt level'.type.type := by
    rw [dataAt, dataAt, symbol?_congr hunplaced]
  rw [membersOf_fst, membersOf_fst, membersOf_snd, membersOf_snd, hdata, List.map_flatMap,
    List.map_flatMap]
  exact ⟨List.flatMap_congr fun m _ => (memberOf_congr h keysAsNames m).1,
    List.flatMap_congr fun m _ => (memberOf_congr h keysAsNames m).2⟩

/-- Levels that are the same but for positions give members that are, and the same defects. -/
theorem flatMap_membersOf_congr {levels levels' : List Level}
    (h : levels.map Level.unplaced = levels'.map Level.unplaced) (keysAsNames : Bool) :
    (levels.flatMap fun level => (s.membersOf keysAsNames level).1).map (·.retype .unplaced) =
        (levels'.flatMap fun level => (s.membersOf keysAsNames level).1).map (·.retype .unplaced) ∧
      (levels.flatMap fun level => (s.membersOf keysAsNames level).2) =
        levels'.flatMap fun level => (s.membersOf keysAsNames level).2 := by
  induction levels generalizing levels' with
  | nil =>
    obtain rfl : levels' = [] := by simpa using h.symm
    exact ⟨rfl, rfl⟩
  | cons level levels ih =>
    cases levels' with
    | nil => simp at h
    | cons level' levels' =>
      obtain ⟨hlevel, hlevels⟩ := List.cons.inj h
      obtain ⟨hmembers, hdefects⟩ := membersOf_congr (s := s) hlevel keysAsNames
      obtain ⟨hmembers', hdefects'⟩ := ih hlevels
      simp only [List.flatMap_cons, List.map_append, hmembers, hdefects, hmembers', hdefects',
        and_self]

theorem variantOf_congr {type type' : NamedType}
    (h : type.retype .unplaced = type'.retype .unplaced)
    (a : Attribute) :
    (s.variantOf type a).1.map (·.retype .unplaced) =
        (s.variantOf type' a).1.map (·.retype .unplaced) ∧
      (s.variantOf type a).2 = (s.variantOf type' a).2 := by
  obtain ⟨hunplaced, hname⟩ := NamedType.mk.inj h
  unfold variantOf
  split
  · rename_i tag written _
    have hvariant := subst_args_congr hunplaced written
    dsimp only
    rw [isClosed_congr hvariant]
    split
    · exact ⟨by simp only [List.map_cons, List.map_nil, Variant.retype, named_congr hvariant], rfl⟩
    · exact ⟨rfl, rfl⟩
  · rw [hname]
    exact ⟨rfl, rfl⟩

theorem elementsOf_congr (kind : NodeKind) (h : t.unplaced = t'.unplaced) :
    (s.elementsOf kind t).map (·.retype .unplaced) =
      (s.elementsOf kind t').map (·.retype .unplaced) := by
  cases t with
  | named symbol args =>
    cases t' with
    | named symbol' args' =>
      rw [Ty.unplaced_named, Ty.unplaced_named, Ty.named.injEq] at h
      obtain ⟨rfl, hargs⟩ := h
      cases kind with
      | collection shape =>
        have hnamed : ∀ ts : List Ty, (ts.map s.named).map (·.retype .unplaced) =
            (ts.map Ty.unplaced).map s.named := by
          intro ts
          simp only [List.map_map, Function.comp_def, unplaced_named]
        show (args.map s.named).map (·.retype .unplaced) =
          (args'.map s.named).map (·.retype .unplaced)
        rw [hnamed, hargs, hnamed]
      | _ => rfl
    | array element' rank' => simp at h
    | param index' name' => simp at h
  | array element rank =>
    cases t' with
    | named symbol' args' => simp at h
    | array element' rank' =>
      rw [Ty.unplaced_array, Ty.unplaced_array, Ty.array.injEq] at h
      cases kind with
      | collection shape => exact congrArg (fun r => [r]) (named_congr h.1)
      | _ => rfl
    | param index' name' => simp at h
  | param index name =>
    cases t' with
    | named symbol' args' => simp at h
    | array element' rank' => simp at h
    | param index' name' => cases kind <;> rfl

theorem nodeOf_defects : (s.nodeOf t).defects =
    (s.formatterOf (s.attributesAt t) t.args (s.assembly.typeName t).text).2 ++
      if (s.kindOf t).isObject then
        (if (s.basesOf t).2 then [.cyclicBases (s.assembly.typeName t)] else []) ++
          (s.levelsOf t).reverse.flatMap fun level =>
            (s.membersOf (s.kindOf t).keysAsNames level).2
      else if (s.kindOf t).isUnion then
        (Roles.findAll s.roles.union (s.attributesAt t)).flatMap fun a =>
          (s.variantOf (s.named t) a).2
      else [] := by
  cases hkind : s.kindOf t <;>
    simp [nodeOf, hkind, NodeKind.isObject, NodeKind.isUnion, NodeKind.keysAsNames, levelsOf,
      attributesAt, named_name, List.flatMap_map, -List.map_reverse]

/-- Types that differ in the positions of parameters alone have nodes that do. -/
theorem nodeOf_congr (h : t.unplaced = t'.unplaced) :
    (s.nodeOf t).retype .unplaced = (s.nodeOf t').retype .unplaced := by
  have hkind : s.kindOf t = s.kindOf t' := kindOf_congr h
  have hself := named_congr (s := s) h
  have hname : s.assembly.typeName t = s.assembly.typeName t' := (NamedType.mk.inj hself).2
  have hattributes : s.attributesAt t = s.attributesAt t' := by
    rw [attributesAt, attributesAt, symbol?_congr h]
  obtain ⟨hformatter, hdefect⟩ := formatterOf_congr (s := s) (s.attributesAt t')
    (s.assembly.typeName t').text (args_congr h)
  obtain ⟨hbases, hcyclic⟩ := basesOf_congr (s := s) h
  have hlevels : (s.levelsOf t).reverse.map Level.unplaced =
      (s.levelsOf t').reverse.map Level.unplaced := by
    rw [List.map_reverse, List.map_reverse, levelsOf, levelsOf, List.map_cons, List.map_cons,
      hbases]
    simp only [Level.unplaced, hself]
  obtain ⟨hmembers, hdefects⟩ :=
    flatMap_membersOf_congr (s := s) hlevels (s.kindOf t').keysAsNames
  have hclosed : ∀ levels : List Level,
      ((levels.map (·.type)).filter (·.type.isClosed)).map (·.retype .unplaced) =
        ((levels.map Level.unplaced).map (·.type)).filter (·.type.isClosed) := by
    intro levels
    simp only [List.filter_map, List.map_map, Function.comp_def, Level.unplaced,
      NamedType.retype, Ty.isClosed_unplaced]
  simp only [Node.retype, Node.mk.injEq, nodeOf_self, nodeOf_kind, nodeOf_elements,
    nodeOf_formatter, nodeOf_members, nodeOf_bases, nodeOf_variants, nodeOf_defects, hkind, hself,
    hname, hattributes, hcyclic, hdefect, hformatter, elementsOf_congr _ h, true_and]
  -- What is left depends on the kind: members, bases, variants and their defects.
  refine ⟨?_, ?_, ?_, ?_⟩
  · split
    · exact hmembers
    · rfl
  · split
    · rw [hclosed, hclosed, hbases]
    · rfl
  · split
    · rw [List.map_flatMap, List.map_flatMap]
      exact List.flatMap_congr fun a _ => (variantOf_congr hself a).1
    · rfl
  · congr 1
    split
    · rw [hdefects]
    · split
      · exact List.flatMap_congr fun a _ => (variantOf_congr hself a).2
      · rfl

end Setting

/-! ### Findings -/

/-- Without the positions of their parameters, types answer like they do with them. -/
theorem Assembly.answers_unplaced (asm : Assembly) : asm.Answers Ty.unplaced asm :=
  ⟨Ty.isClosed_unplaced, asm.isFormatterOf_unplaced⟩

namespace TypeGraph

variable {asm : Assembly} {node node' : Node}

theorem passedOn_eq_of_retype (h : node.retype .unplaced = node'.retype .unplaced) :
    passedOn node = passedOn node' := by
  rw [← passedOn_retype node, h, passedOn_retype]

/-- What is checked of a formatter is read off the type and the formatter alone. -/
theorem formatterFindings_eq_of_retype
    (hself : node.self.retype .unplaced = node'.self.retype .unplaced)
    (hformatter : node.formatter.map (·.retype .unplaced) =
      node'.formatter.map (·.retype .unplaced)) :
    formatterFindings asm node = formatterFindings asm node' := by
  have hself' : (node.retype .unplaced).self = (node'.retype .unplaced).self := hself
  have hformatter' : (node.retype .unplaced).formatter = (node'.retype .unplaced).formatter :=
    hformatter
  rw [← formatterFindings_retype node asm.answers_unplaced,
    ← formatterFindings_retype node' asm.answers_unplaced]
  unfold formatterFindings Node.name
  rw [hself', hformatter']

/-- Nodes that differ in the positions of parameters alone have the same findings. -/
theorem findingsOf_eq_of_retype (graph : TypeGraph) (mapMode : Bool)
    (h : node.retype .unplaced = node'.retype .unplaced) :
    graph.findingsOf asm mapMode node = graph.findingsOf asm mapMode node' := by
  rw [← findingsOf_retype node asm.answers_unplaced (.refl _ graph), h,
    findingsOf_retype node' asm.answers_unplaced (.refl _ graph)]

end TypeGraph

end FormatterPlan
