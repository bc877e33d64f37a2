import FormatterPlan.Proofs.BaseChains
import FormatterPlan.Proofs.StoredTypes
import FormatterPlan.TypeGraph.FormatterShape

/-! Nodes next to further declarations.  A type over the declarations of an assembly leads to no
others, so an assembly that holds the same declarations under the same symbols, and more, makes the
same node of it.  What grows is the bound on the steps up a chain of bases, which no chain comes
to. -/

namespace FormatterPlan

/-- Whether an assembly holds the declarations of another one under the same symbols. -/
structure Assembly.Extends (asm' asm : Assembly) : Prop where
  def? : ∀ {symbol : Symbol} {d : TypeDef}, asm.def? symbol = some d → asm'.def? symbol = some d

/-- Whether a setting differs from another one in nothing but further declarations. -/
structure Setting.Extends (s' s : Setting) : Prop where
  assembly : s'.assembly.Extends s.assembly
  roles : s'.roles = s.roles
  options : s'.options = s.options

variable {scope : Nat → String → Prop} {t u : Ty}

namespace Assembly.Extends

variable {asm asm' : Assembly} (h : asm'.Extends asm)

include h

theorem fits (ht : t.Fits asm scope) : t.Fits asm' scope := by
  induction t using Ty.induction with
  | named symbol args ih =>
    obtain ⟨⟨d, hd, hlength⟩, hargs⟩ := Ty.fits_named.mp ht
    exact Ty.fits_named.mpr ⟨⟨d, h.def? hd, hlength⟩, fun u hu => ih u hu (hargs u hu)⟩
  | array element rank ih => exact ih ht
  | param index name => exact ht

theorem typeName (ht : t.Fits asm scope) : asm'.typeName t = asm.typeName t := by
  induction t using Ty.induction with
  | named symbol args ih =>
    obtain ⟨⟨d, hd, -⟩, hargs⟩ := Ty.fits_named.mp ht
    rw [typeName_named, typeName_named, nameOf_eq hd, nameOf_eq (h.def? hd),
      List.map_congr_left fun u hu => ih u hu (hargs u hu)]
  | array element rank ih => rw [typeName_array, typeName_array, ih ht]
  | param index name => rw [typeName_param, typeName_param]

/-- The declaration of a type that fits, if it has one, is in both. -/
theorem symbol?_cases (ht : t.Fits asm scope) : t.symbol? = none ∨ ∃ symbol d,
    t.symbol? = some symbol ∧ asm.def? symbol = some d ∧ asm'.def? symbol = some d := by
  cases hsymbol : t.symbol? with
  | none => exact .inl rfl
  | some symbol =>
    obtain ⟨d, hd⟩ := ht.declared hsymbol
    exact .inr ⟨symbol, d, rfl, hd, h.def? hd⟩

theorem bind_def? (ht : t.Fits asm scope) : t.symbol?.bind asm'.def? = t.symbol?.bind asm.def? := by
  rcases h.symbol?_cases ht with hnone | ⟨symbol, d, hsymbol, hd, hd'⟩
  · rw [hnone, Option.bind_none, Option.bind_none]
  · rw [hsymbol, Option.bind_some, Option.bind_some, hd, hd']

/-- A type that fits is a formatter of the same types. -/
theorem isFormatterOf (ht : t.Fits asm scope) (target : Ty) :
    asm'.isFormatterOf t target = asm.isFormatterOf t target := by
  unfold Assembly.isFormatterOf instanceMethods membersOf
  rcases h.symbol?_cases ht with hnone | ⟨symbol, d, hsymbol, hd, hd'⟩
  · rw [hnone]
  · rw [hsymbol]
    dsimp only
    rw [hd, hd']

end Assembly.Extends

namespace Setting.Extends

variable {s s' : Setting} (h : s'.Extends s)

include h

theorem named (ht : t.Fits s.assembly scope) : s'.named t = s.named t :=
  congrArg (NamedType.mk t) (h.assembly.typeName ht)

/-! ### Kinds and stored data -/

theorem kindOf (ht : t.Fits s.assembly scope) : s'.kindOf t = s.kindOf t := by
  cases t with
  | named symbol args =>
    obtain ⟨⟨d, hd, -⟩, -⟩ := Ty.fits_named.mp ht
    have hassumed : s'.isAssumed d = s.isAssumed d := by rw [isAssumed, isAssumed, h.options]
    have hmarked : ∀ isOpen, s'.markedKind d isOpen = s.markedKind d isOpen := by
      intro isOpen
      rw [markedKind, markedKind, h.roles]
    rw [Setting.kindOf, Setting.kindOf, declaredKind, declaredKind, hd, h.assembly.def? hd, h.roles]
    dsimp only
    rw [hassumed, hmarked]
  | array element rank =>
    rw [Setting.kindOf, Setting.kindOf, arrayKind, arrayKind, h.roles]
  | param index name => rfl

theorem attributesAt (ht : t.Fits s.assembly scope) : s'.attributesAt t = s.attributesAt t := by
  unfold Setting.attributesAt Assembly.attributesOf
  rcases h.assembly.symbol?_cases ht with hnone | ⟨symbol, d, hsymbol, hd, hd'⟩
  · rw [hnone, Option.elim_none, Option.elim_none]
  · rw [hsymbol, Option.elim_some, Option.elim_some, hd, hd']

theorem dataAt (ht : t.Fits s.assembly scope) : s'.dataAt t = s.dataAt t := by
  unfold Setting.dataAt Assembly.membersOf
  rcases h.assembly.symbol?_cases ht with hnone | ⟨symbol, d, hsymbol, hd, hd'⟩
  · rw [hnone, Option.elim_none, Option.elim_none]
  · rw [hsymbol, Option.elim_some, Option.elim_some, hd, hd']

/-! ### Bases -/

theorem isBase_iff (ht : t.Fits s.assembly scope) {symbol : Symbol} :
    s'.IsBase t u symbol ↔ s.IsBase t u symbol := by
  have hbase : t.symbol?.bind s'.assembly.baseOf = t.symbol?.bind s.assembly.baseOf := by
    unfold Assembly.baseOf
    rw [← Option.bind_assoc, ← Option.bind_assoc, h.assembly.bind_def? ht]
  rw [IsBase, IsBase, hbase]

theorem baseLevel (ht : t.Fits s.assembly scope) : s'.baseLevel t = s.baseLevel t := by
  rw [Setting.baseLevel, Setting.baseLevel, isMarked, isMarked, h.named ht, h.attributesAt ht,
    h.roles]

theorem walks (hwf : s.assembly.WellFormed) {seen : List Symbol} {levels : List Level}
    {cyclic : Bool} (hwalk : s.Walks seen t levels cyclic) (ht : t.Fits s.assembly scope) :
    s'.Walks seen t levels cyclic := by
  induction hwalk with
  | top hnone => exact .top fun u symbol hbase => hnone u symbol ((h.isBase_iff ht).mp hbase)
  | back hbase hseen => exact .back ((h.isBase_iff ht).mpr hbase) hseen
  | up hbase hnew _ ih =>
    obtain ⟨hu, -⟩ := hbase.fits hwf ht
    rw [← h.baseLevel hu]
    exact .up ((h.isBase_iff ht).mpr hbase) hnew (ih hu)

section

variable (hwf : s.assembly.WellFormed) (hwf' : s'.assembly.WellFormed)

include hwf hwf'

/-- The bound on steps is another one, but both chains are walked to the end. -/
theorem basesOf (ht : t.Fits s.assembly scope) : s'.basesOf t = s.basesOf t := by
  obtain ⟨hlevels, hcyclic⟩ := (walks_basesOf hwf' (h.assembly.fits ht)).unique
    (h.walks hwf (walks_basesOf hwf ht) ht)
  exact Prod.ext hlevels hcyclic

theorem levelsOf (ht : t.Fits s.assembly scope) : s'.levelsOf t = s.levelsOf t := by
  rw [Setting.levelsOf, Setting.levelsOf, h.named ht, h.basesOf hwf hwf' ht]

end

/-! ### Formatters and members -/

/-- The formatter that attributes name is the same if their types fit once arguments are put in. -/
theorem formatterOf {attributes : List Attribute} {context : List Ty}
    (hfits : ∀ a ∈ attributes, ∀ written ∈ a.types,
      (written.subst context).Fits s.assembly scope) (place : String) :
    s'.formatterOf attributes context place = s.formatterOf attributes context place := by
  unfold Setting.formatterOf
  rw [h.roles]
  cases hfound : Roles.find? s.roles.formatter attributes with
  | none => rfl
  | some a =>
    dsimp only
    split
    · rename_i written rest hargs
      have ha : a ∈ attributes := List.mem_of_find?_eq_some hfound
      have hwritten : written ∈ a.types := Attribute.mem_types.mpr (hargs ▸ List.mem_cons_self)
      rw [h.named (hfits a ha written hwritten)]
    · rfl

theorem keyOf (m : Member) (keysAsNames : Bool) (place : String) :
    s'.keyOf m keysAsNames place = s.keyOf m keysAsNames place := by
  rw [Setting.keyOf, Setting.keyOf, h.roles]

section

variable (hwf : s.assembly.WellFormed) (hsound : s.assembly.StoresSoundTypes)

include hwf hsound

theorem memberOf (keysAsNames : Bool) {level : Level}
    (hlevel : level.type.type.Fits s.assembly scope) {m : Member}
    (hm : m ∈ s.dataAt level.type.type) :
    s'.memberOf keysAsNames level m = s.memberOf keysAsNames level m := by
  have hfits : ∀ written ∈ m.types,
      (written.subst level.type.type.args).Fits s.assembly Ty.AnyParam := fun written hwritten =>
    (leadsTo_of_mem_dataAt (.inl rfl) hm hwritten).fits hwf hsound hlevel
  have hformatter : ∀ place, s'.formatterOf m.attributes level.type.type.args place =
      s.formatterOf m.attributes level.type.type.args place :=
    h.formatterOf fun a ha written hwritten =>
      hfits written (Member.mem_types.mpr (.inr (.inr ⟨a, ha, hwritten⟩)))
  unfold Setting.memberOf
  simp only [h.keyOf, hformatter]
  cases htype : m.type with
  | none => rfl
  | some type =>
    have hdeclared := h.named (hfits type (Member.mem_types.mpr (.inl htype)))
    cases s.keyOf m keysAsNames (level.type.name.text ++ "." ++ m.name) with
    | ignored => rfl
    | defect d => rfl
    | key key =>
      dsimp only
      rw [hdeclared]

theorem membersOf (keysAsNames : Bool) {level : Level}
    (hlevel : level.type.type.Fits s.assembly scope) :
    s'.membersOf keysAsNames level = s.membersOf keysAsNames level := by
  refine Prod.ext ?_ ?_
  · rw [membersOf_fst, membersOf_fst, h.dataAt hlevel]
    exact List.flatMap_congr fun m hm => by rw [h.memberOf hwf hsound keysAsNames hlevel hm]
  · rw [membersOf_snd, membersOf_snd, h.dataAt hlevel]
    exact List.flatMap_congr fun m hm => by rw [h.memberOf hwf hsound keysAsNames hlevel hm]

theorem variantOf (ht : t.Fits s.assembly scope) {a : Attribute} (ha : a ∈ s.attributesAt t) :
    s'.variantOf (s.named t) a = s.variantOf (s.named t) a := by
  unfold Setting.variantOf
  split
  · rename_i tag written hargs
    have hwritten : written ∈ a.types := Attribute.mem_types.mpr (by simp [hargs])
    have hfits := (leadsTo_of_mem_attributesAt ha hwritten).fits hwf hsound ht
    dsimp only [named_type]
    rw [h.named hfits]
  · rfl

theorem elementsOf (ht : t.Fits s.assembly scope) (kind : NodeKind) :
    s'.elementsOf kind t = s.elementsOf kind t := by
  have hnamed : ∀ {u : Ty}, s.LeadsTo t u → s'.named u = s.named u := fun hleads =>
    h.named (hleads.fits hwf hsound ht)
  cases kind with
  | collection shape =>
    cases t with
    | named symbol args => exact List.map_congr_left fun u hu => hnamed (.argument hu)
    | array element rank => exact congrArg (fun r => [r]) (hnamed (.element rfl))
    | param index name => rfl
  | enumeration =>
    cases t with
    | named symbol args =>
      obtain ⟨⟨d, hd, -⟩, -⟩ := Ty.fits_named.mp ht
      simp only [Setting.elementsOf, hd, h.assembly.def? hd, Option.bind_some]
      cases hunderlying : d.underlying with
      | none => rfl
      | some u => rw [Option.map_some, Option.map_some, hnamed (.underlying rfl hd hunderlying)]
    | array element rank => rfl
    | param index name => rfl
  | _ => rfl

/-- A type has the same node. -/
theorem nodeOf (hwf' : s'.assembly.WellFormed) (ht : t.Fits s.assembly scope) :
    s'.nodeOf t = s.nodeOf t := by
  have hattributes := h.attributesAt ht
  have hlevels : (⟨s.named t, .own⟩ :: (s.basesOf t).1) = s.levelsOf t := rfl
  have hformatter : ∀ place, s'.formatterOf (s.attributesAt t) t.args place =
      s.formatterOf (s.attributesAt t) t.args place :=
    h.formatterOf fun a ha written hwritten =>
      (leadsTo_of_mem_attributesAt ha hwritten).fits hwf hsound ht
  have hmembers : ∀ keysAsNames, (s.levelsOf t).reverse.map (s'.membersOf keysAsNames) =
      (s.levelsOf t).reverse.map (s.membersOf keysAsNames) := by
    intro keysAsNames
    refine List.map_congr_left fun level hlevel => ?_
    have hchain := onChain_of_mem_levelsOf (List.mem_reverse.mp hlevel)
    exact h.membersOf hwf hsound keysAsNames (hchain.fits hwf ht)
  have hvariants : (Roles.findAll s.roles.union (s.attributesAt t)).map
      (s'.variantOf (s.named t)) =
        (Roles.findAll s.roles.union (s.attributesAt t)).map (s.variantOf (s.named t)) :=
    List.map_congr_left fun a ha => h.variantOf hwf hsound ht (List.mem_filter.mp ha).1
  rw [Setting.attributesAt, Setting.attributesAt] at hattributes
  unfold Setting.attributesAt at hformatter hvariants
  simp only [Setting.nodeOf, hattributes, h.kindOf ht, h.named ht, h.elementsOf hwf hsound ht,
    h.basesOf hwf hwf' ht, h.roles, hlevels, hformatter, hmembers, hvariants]

end

end Setting.Extends

end FormatterPlan
