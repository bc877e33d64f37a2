import FormatterPlan.Proofs.Loading
import FormatterPlan.TypeGraph.Expansion
import Mathlib.Data.List.Nodup

/-! What a type refers to, said without nodes: the relation `Setting.Refers`, by the kind of a type.
The references of a node are exactly the types that its type refers to.  A type that a fitting type
refers to fits, and types of the same name refer to types of the same names. -/

namespace FormatterPlan

/-! ### The parts of a node -/

/-- Whether members without a key attribute have their names as keys. -/
def NodeKind.keysAsNames : NodeKind → Bool
  | .object keysAsNames _ => keysAsNames
  | _ => false

namespace Setting

variable {s : Setting} {t u : Ty}

def attributesAt (s : Setting) (t : Ty) : List Attribute :=
  t.symbol?.elim [] s.assembly.attributesOf

/-- The members that the declaration of a type holds data in. -/
def dataAt (s : Setting) (t : Ty) : List Member :=
  (t.symbol?.elim [] s.assembly.membersOf).filter Member.isData

/-- A type and its bases, nearest first. -/
def levelsOf (s : Setting) (t : Ty) : List Level := ⟨s.named t, .own⟩ :: (s.basesOf t).1

@[simp] theorem named_type : (s.named t).type = t := rfl

theorem named_name : (s.named t).name = s.assembly.typeName t := rfl

@[simp] theorem nodeOf_self : (s.nodeOf t).self = s.named t := by
  cases hkind : s.kindOf t <;> simp [nodeOf, hkind]

@[simp] theorem nodeOf_name : (s.nodeOf t).name = s.assembly.typeName t := by
  rw [Node.name, nodeOf_self, named_name]

@[simp] theorem nodeOf_kind : (s.nodeOf t).kind = s.kindOf t := by
  cases hkind : s.kindOf t <;> simp [nodeOf, hkind]

theorem nodeOf_elements : (s.nodeOf t).elements = s.elementsOf (s.kindOf t) t := by
  cases hkind : s.kindOf t <;> simp [nodeOf, hkind]

theorem nodeOf_bases :
    (s.nodeOf t).bases = if (s.kindOf t).isObject then
      ((s.basesOf t).1.map (·.type)).filter (·.type.isClosed) else [] := by
  cases hkind : s.kindOf t <;> simp [nodeOf, hkind, NodeKind.isObject]

theorem nodeOf_members :
    (s.nodeOf t).members = if (s.kindOf t).isObject then
      (s.levelsOf t).reverse.flatMap fun level =>
        (s.membersOf (s.kindOf t).keysAsNames level).1 else [] := by
  cases hkind : s.kindOf t <;>
    simp [nodeOf, hkind, NodeKind.isObject, NodeKind.keysAsNames, levelsOf, List.flatMap_map,
      -List.map_reverse]

theorem nodeOf_variants :
    (s.nodeOf t).variants = if (s.kindOf t).isUnion then
      (Roles.findAll s.roles.union (s.attributesAt t)).flatMap fun a =>
        (s.variantOf (s.named t) a).1 else [] := by
  cases hkind : s.kindOf t <;>
    simp [nodeOf, hkind, NodeKind.isUnion, attributesAt, List.flatMap_map]

/-! ### Bases -/

/-- The base that the declaration of a type is written with, and the declaration of that base.  The
arguments of the type are put in. -/
def IsBase (s : Setting) (t u : Ty) (symbol : Symbol) : Prop :=
  ∃ written, t.symbol?.bind s.assembly.baseOf = some written ∧ u = written.subst t.args ∧
    u.symbol? = some symbol

/-- The types above a type in its chain of bases.  The chain ends before it would come back to a
declaration in `seen`. -/
inductive Above (s : Setting) : List Symbol → Ty → Ty → Prop
  | base {seen : List Symbol} {t u : Ty} {symbol : Symbol} (hbase : s.IsBase t u symbol)
      (hnew : symbol ∉ seen) : Above s seen t u
  | further {seen : List Symbol} {t u v : Ty} {symbol : Symbol} (hbase : s.IsBase t u symbol)
      (hnew : symbol ∉ seen) (habove : Above s (symbol :: seen) u v) : Above s seen t v

def isMarked (s : Setting) (t : Ty) : Bool := (s.roles.objectAttribute? (s.attributesAt t)).isSome

def baseLevel (s : Setting) (u : Ty) : Level :=
  ⟨s.named u, .inherited (s.named u).name (s.isMarked u)⟩

theorem IsBase.unique {symbol symbol' : Symbol} {u' : Ty} (h : s.IsBase t u symbol)
    (h' : s.IsBase t u' symbol') : u = u' ∧ symbol = symbol' := by
  obtain ⟨written, hwritten, rfl, hsymbol⟩ := h
  obtain ⟨written', hwritten', rfl, hsymbol'⟩ := h'
  obtain rfl : written = written' := by rw [hwritten] at hwritten'; simpa using hwritten'
  exact ⟨rfl, by rw [hsymbol] at hsymbol'; simpa using hsymbol'⟩

theorem IsBase.symbol?_eq {symbol : Symbol} (h : s.IsBase t u symbol) : u.symbol? = some symbol :=
  h.choose_spec.2.2

/-- One step up the chain: no base, one that is seen already, or a base and what is above it. -/
theorem basesAbove_succ (steps : Nat) (seen : List Symbol) (t : Ty) :
    ((∀ u symbol, ¬ s.IsBase t u symbol) ∧ s.basesAbove (steps + 1) seen t = ([], false)) ∨
      ∃ u symbol, s.IsBase t u symbol ∧
        ((symbol ∈ seen ∧ s.basesAbove (steps + 1) seen t = ([], true)) ∨
          (symbol ∉ seen ∧ s.basesAbove (steps + 1) seen t =
            (s.baseLevel u :: (s.basesAbove steps (symbol :: seen) u).1,
              (s.basesAbove steps (symbol :: seen) u).2))) := by
  rw [basesAbove]
  cases hwritten : t.symbol?.bind s.assembly.baseOf with
  | none =>
    refine .inl ⟨?_, rfl⟩
    rintro u symbol ⟨written, hsome, -, -⟩
    rw [hwritten] at hsome
    simp at hsome
  | some written =>
    cases hsymbol : (written.subst t.args).symbol? with
    | none =>
      refine .inl ⟨?_, by simp [hsymbol]⟩
      rintro u symbol ⟨written', hsome, rfl, hnamed⟩
      obtain rfl : written = written' := by rw [hwritten] at hsome; simpa using hsome
      rw [hsymbol] at hnamed
      simp at hnamed
    | some symbol =>
      refine .inr ⟨_, symbol, ⟨written, hwritten, rfl, hsymbol⟩, ?_⟩
      by_cases hseen : symbol ∈ seen
      · exact .inl ⟨hseen, by simp [hsymbol, hseen]⟩
      · refine .inr ⟨hseen, ?_⟩
        simp [hsymbol, hseen, baseLevel, isMarked, attributesAt]

/-- Everything in the chain that is computed is above the type. -/
theorem above_of_mem_basesAbove {steps : Nat} {seen : List Symbol} {level : Level}
    (h : level ∈ (s.basesAbove steps seen t).1) :
    ∃ u, s.Above seen t u ∧ level = s.baseLevel u := by
  induction steps generalizing seen t with
  | zero => simp [basesAbove] at h
  | succ steps ih =>
    rcases basesAbove_succ (s := s) steps seen t with ⟨-, heq⟩ | ⟨u, symbol, hbase, hcases⟩
    · simp [heq] at h
    rcases hcases with ⟨-, heq⟩ | ⟨hnew, heq⟩
    · simp [heq] at h
    rw [heq, List.mem_cons] at h
    rcases h with rfl | h
    · exact ⟨u, .base hbase hnew, rfl⟩
    · obtain ⟨v, habove, rfl⟩ := ih h
      exact ⟨v, .further hbase hnew habove, rfl⟩

section

variable {scope : Nat → String → Prop}

theorem IsBase.fits (hwf : s.assembly.WellFormed) (ht : t.Fits s.assembly scope) {symbol : Symbol}
    (h : s.IsBase t u symbol) :
    u.Fits s.assembly scope ∧ ∃ d, s.assembly.def? symbol = some d := by
  obtain ⟨written, hwritten, rfl, hsymbol⟩ := h
  obtain ⟨own, hown, hbase⟩ := Option.bind_eq_some_iff.mp hwritten
  obtain ⟨d, hd, hdbase⟩ := Option.bind_eq_some_iff.mp hbase
  obtain ⟨hlength, hargs⟩ := ht.args hown hd
  have hfits := ((hwf.defs own d hd).base written hdbase).subst_args hlength hargs
  exact ⟨hfits, hfits.declared hsymbol⟩

theorem Above.fits (hwf : s.assembly.WellFormed) {seen : List Symbol} (h : s.Above seen t u)
    (ht : t.Fits s.assembly scope) : u.Fits s.assembly scope := by
  induction h with
  | base hbase _ => exact (hbase.fits hwf ht).1
  | further hbase _ _ ih => exact ih (hbase.fits hwf ht).1

theorem length_le_size {asm : Assembly} {symbols : List Symbol} (hnodup : symbols.Nodup)
    (hdeclared : ∀ symbol ∈ symbols, ∃ d, asm.def? symbol = some d) :
    symbols.length ≤ asm.defs.size := by
  have hmap : (symbols.map Symbol.index).Nodup := by
    refine hnodup.map fun a b h => ?_
    cases a; cases b; simpa using h
  have hsub : symbols.map Symbol.index ⊆ List.range asm.defs.size := by
    intro index hindex
    obtain ⟨symbol, hmem, rfl⟩ := List.mem_map.mp hindex
    obtain ⟨d, hd⟩ := hdeclared symbol hmem
    obtain ⟨hlt, -⟩ := Array.getElem?_eq_some_iff.mp hd
    exact List.mem_range.mpr hlt
  simpa using hmap.length_le_of_subset hsub

/-- A new base comes first in the chain, before what is above it. -/
theorem IsBase.basesAbove_eq {seen : List Symbol} {symbol : Symbol} (hbase : s.IsBase t u symbol)
    (hnew : symbol ∉ seen) (steps : Nat) :
    (s.basesAbove (steps + 1) seen t).1 =
      s.baseLevel u :: (s.basesAbove steps (symbol :: seen) u).1 := by
  rcases basesAbove_succ (s := s) steps seen t with ⟨hnone, -⟩ | ⟨u', symbol', hbase', hcases⟩
  · exact (hnone _ _ hbase).elim
  obtain ⟨rfl, rfl⟩ := hbase.unique hbase'
  rcases hcases with ⟨hseen, -⟩ | ⟨-, heq⟩
  · exact (hnew hseen).elim
  · rw [heq]

/-- With as many steps as there are unseen declarations, the chain is computed to its end. -/
theorem Above.mem_basesAbove (hwf : s.assembly.WellFormed) {seen : List Symbol}
    (h : s.Above seen t u) (ht : t.Fits s.assembly scope) (hnodup : seen.Nodup)
    (hdeclared : ∀ symbol ∈ seen, ∃ d, s.assembly.def? symbol = some d) {steps : Nat}
    (hsteps : s.assembly.defs.size ≤ seen.length + steps) :
    s.baseLevel u ∈ (s.basesAbove steps seen t).1 := by
  induction h generalizing steps with
  | base hbase hnew =>
    obtain ⟨-, hd⟩ := hbase.fits hwf ht
    -- The base is one more declaration that is seen, so a step is left for it.
    have hall := length_le_size (hnodup.cons hnew) (by simpa using ⟨hd, hdeclared⟩)
    rw [List.length_cons] at hall
    obtain ⟨steps, rfl⟩ : ∃ n, steps = n + 1 := ⟨steps - 1, by omega⟩
    rw [hbase.basesAbove_eq hnew]
    exact List.mem_cons_self
  | @further seen t u v symbol hbase hnew _ ih =>
    obtain ⟨hfits, hd⟩ := hbase.fits hwf ht
    have hdeclared' : ∀ symbol' ∈ symbol :: seen, ∃ d, s.assembly.def? symbol' = some d := by
      simpa using ⟨hd, hdeclared⟩
    have hall := length_le_size (hnodup.cons hnew) hdeclared'
    rw [List.length_cons] at hall
    obtain ⟨steps, rfl⟩ : ∃ n, steps = n + 1 := ⟨steps - 1, by omega⟩
    rw [hbase.basesAbove_eq hnew]
    refine List.mem_cons_of_mem _ (ih hfits (hnodup.cons hnew) hdeclared' ?_)
    rw [List.length_cons]
    omega

/-- The chain of bases of a type that fits is all that is above it. -/
theorem mem_basesOf_iff (hwf : s.assembly.WellFormed) (ht : t.Fits s.assembly scope)
    {level : Level} :
    level ∈ (s.basesOf t).1 ↔ ∃ u, s.Above t.symbol?.toList t u ∧ level = s.baseLevel u := by
  refine ⟨above_of_mem_basesAbove, ?_⟩
  rintro ⟨u, habove, rfl⟩
  refine habove.mem_basesAbove hwf ht ?_ ?_ (by omega)
  · cases t.symbol? <;> simp
  · intro symbol hsymbol
    exact ht.declared (by simpa using hsymbol)

end

/-! ### Written members -/

/-- The key that the arguments of a key attribute give.  Some arguments give none. -/
def attributeKey? : List Argument → Option MemberKey
  | .int n :: _ => if -(Int.pow 2 31) ≤ n ∧ n < Int.pow 2 31 then some (.int n) else none
  | .string name :: _ => some (.string name)
  | [] => some .null
  | .null :: _ => some .null
  | _ :: _ => none

/-- The key with which a data member is written.  Not written are members that are ignored, whose
attribute gives no key, or that have no key attribute and are not public. -/
def writtenKey? (s : Setting) (keysAsNames : Bool) (m : Member) : Option MemberKey :=
  if s.roles.isIgnored m.attributes then none
  else match Roles.find? s.roles.key m.attributes with
    | some a => attributeKey? a.args
    | none =>
      if m.access = .everyone then some (if keysAsNames then .string m.name else .unattributed)
      else none

/-- Whether a data member is written, whatever its key. -/
def IsWritten (s : Setting) (m : Member) : Prop :=
  s.roles.isIgnored m.attributes = false ∧
    match Roles.find? s.roles.key m.attributes with
    | some a => (attributeKey? a.args).isSome = true
    | none => m.access = .everyone

def nodeMember (s : Setting) (level : Level) (m : Member) (type : Ty) (key : MemberKey) :
    NodeMember :=
  { name := m.name, declared := s.named (type.subst level.type.type.args), access := m.access, key,
    formatter := (s.formatterOf m.attributes level.type.type.args
      (level.type.name.text ++ "." ++ m.name)).1,
    origin := level.origin }

theorem isSome_writtenKey?_iff {keysAsNames : Bool} {m : Member} :
    (s.writtenKey? keysAsNames m).isSome = true ↔ s.IsWritten m := by
  unfold writtenKey? IsWritten
  cases s.roles.isIgnored m.attributes
  · cases Roles.find? s.roles.key m.attributes with
    | none => by_cases hpublic : m.access = .everyone <;> simp [hpublic]
    | some a => simp
  · simp

section

variable {m : Member} (keysAsNames : Bool) (place : String)

theorem keyOf_ignored (h : s.roles.isIgnored m.attributes = true) :
    s.keyOf m keysAsNames place = .ignored := by
  simp [keyOf, h]

/-- A key attribute gives a key or leaves a defect. -/
theorem keyOf_attribute {a : Attribute} (h : s.roles.isIgnored m.attributes = false)
    (hkey : Roles.find? s.roles.key m.attributes = some a) :
    (∃ key, attributeKey? a.args = some key ∧ key ≠ .unattributed ∧
      s.keyOf m keysAsNames place = .key key) ∨
      attributeKey? a.args = none ∧ ∃ defect, s.keyOf m keysAsNames place = .defect defect := by
  obtain ⟨symbol, args⟩ := a
  simp only [keyOf, h, hkey, Bool.false_eq_true, if_false]
  match args with
  | [] | .null :: _ | .string _ :: _ => exact .inl ⟨_, rfl, by simp, rfl⟩
  | .bool _ :: _ | .type _ :: _ => exact .inr ⟨rfl, _, rfl⟩
  | .int n :: _ =>
    simp only [attributeKey?]
    by_cases hrange : -(Int.pow 2 31) ≤ n ∧ n < Int.pow 2 31
    · rw [if_pos hrange, if_pos hrange]
      exact .inl ⟨_, rfl, by simp, rfl⟩
    · rw [if_neg hrange, if_neg hrange]
      exact .inr ⟨rfl, _, rfl⟩

/-- Without a key attribute the policy settles the key. -/
theorem keyOf_policy (h : s.roles.isIgnored m.attributes = false)
    (hkey : Roles.find? s.roles.key m.attributes = none) :
    s.keyOf m keysAsNames place = .key
      (if keysAsNames = true ∧ m.access = .everyone then .string m.name else .unattributed) := by
  simp only [keyOf, h, hkey, Bool.false_eq_true, if_false, Bool.and_eq_true, decide_eq_true_eq]
  split <;> rfl

/-- A data member of a level becomes a member of the node when it is written. -/
theorem memberOf_fst (level : Level) :
    (s.memberOf keysAsNames level m).1 =
      (m.type.bind fun type =>
        (s.writtenKey? keysAsNames m).map (s.nodeMember level m type)).toList := by
  unfold memberOf writtenKey?
  cases htype : m.type with
  | none => rfl
  | some type =>
    cases hignored : s.roles.isIgnored m.attributes with
    | true => simp [keyOf_ignored keysAsNames _ hignored]
    | false =>
      cases hkey : Roles.find? s.roles.key m.attributes with
      | none =>
        cases keysAsNames <;> by_cases hpublic : m.access = .everyone <;>
          simp [keyOf_policy _ _ hignored hkey, hpublic, nodeMember]
      | some a =>
        rcases keyOf_attribute keysAsNames (level.type.name.text ++ "." ++ m.name) hignored hkey
          with ⟨key, hsome, hne, heq⟩ | ⟨hnone, defect, heq⟩
        · simp [heq, hsome, hne, nodeMember]
        · simp [heq, hnone]

end

theorem membersOf_fst (keysAsNames : Bool) (level : Level) :
    (s.membersOf keysAsNames level).1 =
      (s.dataAt level.type.type).flatMap fun m => (s.memberOf keysAsNames level m).1 := by
  rw [membersOf, List.flatMap_map]
  rfl

theorem membersOf_snd (keysAsNames : Bool) (level : Level) :
    (s.membersOf keysAsNames level).2 =
      (s.dataAt level.type.type).flatMap fun m => (s.memberOf keysAsNames level m).2 := by
  rw [membersOf, List.flatMap_map, List.flatMap_map]
  rfl

/-! ### References -/

/-- A type and the types above it in its chain of bases. -/
def OnChain (s : Setting) (t u : Ty) : Prop := u = t ∨ s.Above t.symbol?.toList t u

/-- What a type refers to.  An object refers to its closed bases and to the closed types of the
written members of its whole chain; a union to its closed variants; a collection to its arguments or
its element; an enumeration to the type of its values; and any other type to nothing. -/
inductive Refers (s : Setting) (t : Ty) : Ty → Prop
  | base {u : Ty} (hkind : (s.kindOf t).isObject = true) (habove : s.Above t.symbol?.toList t u)
      (hclosed : u.isClosed = true) : Refers s t u
  | member {level : Ty} {m : Member} {written : Ty} (hkind : (s.kindOf t).isObject = true)
      (hlevel : s.OnChain t level) (hdata : m ∈ s.dataAt level) (hwritten : s.IsWritten m)
      (htype : m.type = some written) (hclosed : (written.subst level.args).isClosed = true) :
      Refers s t (written.subst level.args)
  | variant {a : Attribute} {tag : Int} {written : Ty} (hkind : (s.kindOf t).isUnion = true)
      (hattribute : a ∈ s.attributesAt t) (hunion : some a.symbol = s.roles.union)
      (hargs : a.args = [.int tag, .type written])
      (hclosed : (written.subst t.args).isClosed = true) : Refers s t (written.subst t.args)
  | element {shape : CollectionShape} {element : Ty} {rank : Nat}
      (hkind : s.kindOf t = .collection shape) (harray : t = .array element rank) :
      Refers s t element
  | argument {shape : CollectionShape} {u : Ty} (hkind : s.kindOf t = .collection shape)
      (hargument : u ∈ t.args) : Refers s t u
  | underlying {symbol : Symbol} {d : TypeDef} {u : Ty} (hkind : s.kindOf t = .enumeration)
      (hsymbol : t.symbol? = some symbol) (hdef : s.assembly.def? symbol = some d)
      (hunderlying : d.underlying = some u) : Refers s t u

/-- The members of an object come from the written members of its chain. -/
theorem mem_nodeOf_members_iff {n : NodeMember} :
    n ∈ (s.nodeOf t).members ↔ (s.kindOf t).isObject = true ∧
      ∃ level ∈ s.levelsOf t, ∃ m ∈ s.dataAt level.type.type, ∃ type key, m.type = some type ∧
        s.writtenKey? (s.kindOf t).keysAsNames m = some key ∧
          n = s.nodeMember level m type key := by
  rw [nodeOf_members]
  by_cases hobject : (s.kindOf t).isObject = true
  case neg => simp [hobject]
  simp only [hobject, if_true, List.mem_flatMap, List.mem_reverse, true_and]
  refine exists_congr fun level => and_congr_right fun _ => ?_
  simp only [membersOf_fst, List.mem_flatMap]
  refine exists_congr fun m => and_congr_right fun _ => ?_
  rw [memberOf_fst, Option.mem_toList, Option.bind_eq_some_iff]
  refine exists_congr fun type => ?_
  rw [Option.map_eq_some_iff]
  constructor
  · rintro ⟨htype, key, hkey, rfl⟩
    exact ⟨key, htype, hkey, rfl⟩
  · rintro ⟨key, htype, hkey, rfl⟩
    exact ⟨htype, key, hkey, rfl⟩

theorem mem_nodeOf_variants_iff {v : Variant} :
    v ∈ (s.nodeOf t).variants ↔ (s.kindOf t).isUnion = true ∧
      ∃ a ∈ s.attributesAt t, some a.symbol = s.roles.union ∧ ∃ tag written,
        a.args = [.int tag, .type written] ∧ (written.subst t.args).isClosed = true ∧
          v = ⟨tag, s.named (written.subst t.args)⟩ := by
  rw [nodeOf_variants]
  by_cases hunion : (s.kindOf t).isUnion = true
  case neg => simp [hunion]
  simp only [hunion, if_true, List.mem_flatMap, Roles.findAll, List.mem_filter, beq_iff_eq,
    true_and, and_assoc]
  refine exists_congr fun a => and_congr_right fun _ => and_congr_right fun _ => ?_
  unfold variantOf
  constructor
  · intro hv
    split at hv
    · rename_i tag written hargs
      by_cases hclosed : (written.subst t.args).isClosed = true
      · exact ⟨tag, written, hargs, hclosed, by simpa [hclosed] using hv⟩
      · simp [hclosed] at hv
    · simp at hv
  · rintro ⟨tag, written, hargs, hclosed, rfl⟩
    simp [hargs, hclosed]

theorem mem_levelsOf_iff (hwf : s.assembly.WellFormed) {scope : Nat → String → Prop}
    (ht : t.Fits s.assembly scope) {level : Level} :
    level ∈ s.levelsOf t ↔ level = ⟨s.named t, .own⟩ ∨
      ∃ u, s.Above t.symbol?.toList t u ∧ level = s.baseLevel u := by
  rw [levelsOf, List.mem_cons, mem_basesOf_iff hwf ht]

theorem mem_nodeOf_bases_iff (hwf : s.assembly.WellFormed) {scope : Nat → String → Prop}
    (ht : t.Fits s.assembly scope) {r : NamedType} :
    r ∈ (s.nodeOf t).bases ↔ (s.kindOf t).isObject = true ∧
      ∃ u, s.Above t.symbol?.toList t u ∧ u.isClosed = true ∧ r = s.named u := by
  rw [nodeOf_bases]
  by_cases hobject : (s.kindOf t).isObject = true
  case neg => simp [hobject]
  simp only [hobject, if_true, List.mem_filter, List.mem_map, mem_basesOf_iff hwf ht, true_and]
  constructor
  · rintro ⟨⟨_, ⟨u, habove, rfl⟩, rfl⟩, hclosed⟩
    exact ⟨u, habove, hclosed, rfl⟩
  · rintro ⟨u, habove, hclosed, rfl⟩
    exact ⟨⟨_, ⟨u, habove, rfl⟩, rfl⟩, hclosed⟩

theorem mem_nodeOf_elements_iff {r : NamedType} :
    r ∈ (s.nodeOf t).elements ↔
      (∃ shape, s.kindOf t = .collection shape ∧
        ((∃ element rank, t = .array element rank ∧ r = s.named element) ∨
          ∃ u ∈ t.args, r = s.named u)) ∨
      s.kindOf t = .enumeration ∧ ∃ symbol d u, t.symbol? = some symbol ∧
        s.assembly.def? symbol = some d ∧ d.underlying = some u ∧ r = s.named u := by
  rw [nodeOf_elements]
  cases hkind : s.kindOf t with
  | collection shape =>
    cases t <;> simp [elementsOf, Ty.args, eq_comm]
  | enumeration =>
    cases t with
    | named symbol args =>
      simp only [elementsOf, Option.mem_toList, Option.map_eq_some_iff, Option.bind_eq_some_iff,
        Ty.symbol?, Option.some.injEq, reduceCtorEq, false_and, exists_false, false_or, true_and]
      constructor
      · rintro ⟨u, ⟨d, hd, hunderlying⟩, rfl⟩
        exact ⟨symbol, d, u, rfl, hd, hunderlying, rfl⟩
      · rintro ⟨_, d, u, rfl, hd, hunderlying, rfl⟩
        exact ⟨u, ⟨d, hd, hunderlying⟩, rfl⟩
    | array element rank => simp [elementsOf, Ty.symbol?]
    | param index name => simp [elementsOf, Ty.symbol?]
  | _ => simp [elementsOf]

/-- The references of a node are the types that its type refers to. -/
theorem mem_refs_iff (hwf : s.assembly.WellFormed) {scope : Nat → String → Prop}
    (ht : t.Fits s.assembly scope) {r : NamedType} :
    r ∈ (s.nodeOf t).refs ↔ ∃ u, s.Refers t u ∧ r = s.named u := by
  simp only [Node.refs, List.mem_append, List.mem_filter, List.mem_map]
  constructor
  · rintro (((hbase | ⟨⟨n, hn, rfl⟩, hclosed⟩) | ⟨v, hv, rfl⟩) | helement)
    · obtain ⟨hkind, u, habove, hclosed, rfl⟩ := (mem_nodeOf_bases_iff hwf ht).mp hbase
      exact ⟨u, .base hkind habove hclosed, rfl⟩
    · obtain ⟨hkind, level, hlevel, m, hm, type, key, htype, hkey, rfl⟩ :=
        mem_nodeOf_members_iff.mp hn
      have hwritten : s.IsWritten m := isSome_writtenKey?_iff.mp (by rw [hkey]; rfl)
      rcases (mem_levelsOf_iff hwf ht).mp hlevel with rfl | ⟨u, habove, rfl⟩
      · exact ⟨_, .member hkind (.inl rfl) hm hwritten htype hclosed, rfl⟩
      · exact ⟨_, .member hkind (.inr habove) hm hwritten htype hclosed, rfl⟩
    · obtain ⟨hkind, a, ha, hunion, tag, written, hargs, hclosed, rfl⟩ :=
        mem_nodeOf_variants_iff.mp hv
      exact ⟨_, .variant hkind ha hunion hargs hclosed, rfl⟩
    · rcases mem_nodeOf_elements_iff.mp helement with
        ⟨shape, hkind, ⟨element, rank, harray, rfl⟩ | ⟨u, hu, rfl⟩⟩ |
        ⟨hkind, symbol, d, u, hsymbol, hd, hunderlying, rfl⟩
      · exact ⟨element, .element hkind harray, rfl⟩
      · exact ⟨u, .argument hkind hu, rfl⟩
      · exact ⟨u, .underlying hkind hsymbol hd hunderlying, rfl⟩
  · rintro ⟨u, hrefers, rfl⟩
    cases hrefers with
    | base hkind habove hclosed =>
      exact .inl (.inl (.inl ((mem_nodeOf_bases_iff hwf ht).mpr
        ⟨hkind, u, habove, hclosed, rfl⟩)))
    | @member level m written hkind hlevel hdata hwritten htype hclosed =>
      obtain ⟨key, hkey⟩ : ∃ key, s.writtenKey? (s.kindOf t).keysAsNames m = some key :=
        Option.isSome_iff_exists.mp (isSome_writtenKey?_iff.mpr hwritten)
      refine .inl (.inl (.inr ⟨?_, hclosed⟩))
      rcases hlevel with rfl | habove
      · exact ⟨_, mem_nodeOf_members_iff.mpr ⟨hkind, _, (mem_levelsOf_iff hwf ht).mpr (.inl rfl),
          m, hdata, written, key, htype, hkey, rfl⟩, rfl⟩
      · exact ⟨_, mem_nodeOf_members_iff.mpr ⟨hkind, _,
          (mem_levelsOf_iff hwf ht).mpr (.inr ⟨level, habove, rfl⟩),
          m, hdata, written, key, htype, hkey, rfl⟩, rfl⟩
    | @variant a tag written hkind ha hunion hargs hclosed =>
      exact .inl (.inr ⟨_, mem_nodeOf_variants_iff.mpr
        ⟨hkind, a, ha, hunion, tag, written, hargs, hclosed, rfl⟩, rfl⟩)
    | @element shape _ rank hkind harray =>
      exact .inr (mem_nodeOf_elements_iff.mpr
        (.inl ⟨shape, hkind, .inl ⟨u, rank, harray, rfl⟩⟩))
    | @argument shape _ hkind hu =>
      exact .inr (mem_nodeOf_elements_iff.mpr (.inl ⟨shape, hkind, .inr ⟨u, hu, rfl⟩⟩))
    | @underlying symbol d _ hkind hsymbol hd hunderlying =>
      exact .inr (mem_nodeOf_elements_iff.mpr
        (.inr ⟨hkind, symbol, d, u, hsymbol, hd, hunderlying, rfl⟩))

/-! ### References of types that fit -/

theorem mem_dataAt {m : Member} (h : m ∈ s.dataAt t) :
    ∃ symbol d, t.symbol? = some symbol ∧ s.assembly.def? symbol = some d ∧ m ∈ d.members ∧
      m.isData = true := by
  rw [dataAt, List.mem_filter] at h
  obtain ⟨hm, hdata⟩ := h
  cases hsymbol : t.symbol? with
  | none => simp [hsymbol] at hm
  | some symbol =>
    rw [hsymbol, Option.elim_some, Assembly.membersOf] at hm
    cases hd : s.assembly.def? symbol with
    | none => simp [hd] at hm
    | some d =>
      rw [hd] at hm
      exact ⟨symbol, d, rfl, hd, hm, hdata⟩

theorem mem_attributesAt {a : Attribute} (h : a ∈ s.attributesAt t) :
    ∃ symbol d, t.symbol? = some symbol ∧ s.assembly.def? symbol = some d ∧ a ∈ d.attributes := by
  rw [attributesAt] at h
  cases hsymbol : t.symbol? with
  | none => simp [hsymbol] at h
  | some symbol =>
    rw [hsymbol, Option.elim_some, Assembly.attributesOf] at h
    cases hd : s.assembly.def? symbol with
    | none => simp [hd] at h
    | some d =>
      rw [hd] at h
      exact ⟨symbol, d, rfl, hd, h⟩

section

variable {scope : Nat → String → Prop}

theorem OnChain.fits (hwf : s.assembly.WellFormed) (ht : t.Fits s.assembly scope)
    (h : s.OnChain t u) : u.Fits s.assembly scope := by
  rcases h with rfl | habove
  · exact ht
  · exact habove.fits hwf ht

/-- The type of a member fits with the arguments of its level. -/
theorem fits_of_mem_dataAt (hwf : s.assembly.WellFormed) (ht : t.Fits s.assembly scope) {m : Member}
    (hm : m ∈ s.dataAt t) {written : Ty} (htype : m.type = some written) :
    (written.subst t.args).Fits s.assembly scope := by
  obtain ⟨symbol, d, hsymbol, hd, hmem, -⟩ := mem_dataAt hm
  obtain ⟨hlength, hargs⟩ := ht.args hsymbol hd
  exact (((hwf.defs symbol d hd).members m hmem).type written htype).subst_args hlength hargs

/-- What a type that fits refers to fits, with no parameters but its own. -/
theorem Refers.fits (hwf : s.assembly.WellFormed) (ht : t.Fits s.assembly scope)
    (h : s.Refers t u) : u.Fits s.assembly Ty.AnyParam := by
  cases h with
  | base _ habove _ => exact (habove.fits hwf ht).anyParam
  | member _ hlevel hdata _ htype _ =>
    exact (fits_of_mem_dataAt hwf (hlevel.fits hwf ht) hdata htype).anyParam
  | @variant a tag written _ ha _ hargs _ =>
    obtain ⟨symbol, d, hsymbol, hd, hmem⟩ := mem_attributesAt ha
    obtain ⟨hlength, hall⟩ := ht.args hsymbol hd
    have hfits := ((hwf.defs symbol d hd).attributes a hmem).types written (by simp [hargs])
    exact (hfits.subst_args hlength hall).anyParam
  | element _ harray =>
    subst harray
    rw [Ty.fits_array] at ht
    exact ht.anyParam
  | argument _ hu =>
    cases t with
    | named symbol args =>
      rw [Ty.fits_named] at ht
      exact (ht.2 u hu).anyParam
    | array element rank => simp [Ty.args] at hu
    | param index name => simp [Ty.args] at hu
  | underlying _ hsymbol hd hunderlying =>
    exact ((hwf.defs _ _ hd).underlying u hunderlying).anyParam

end

/-! ### Kinds -/

theorem arrayKind_cases (element : Ty) (rank : Nat) :
    s.arrayKind element rank = .builtin .byteArray ∨
      (∃ shape, s.arrayKind element rank = .collection shape) ∨
      s.arrayKind element rank = .unresolved := by
  unfold arrayKind
  split
  · exact .inl rfl
  · cases CollectionShape.ofRank? rank with
    | none => exact .inr (.inr rfl)
    | some shape => exact .inr (.inl ⟨shape, rfl⟩)

theorem markedKind_cases (d : TypeDef) (isOpen : Bool) :
    s.markedKind d isOpen = .union isOpen ∨ s.markedKind d isOpen = .unresolved ∨
      ∃ keysAsNames, s.markedKind d isOpen = .object keysAsNames isOpen := by
  unfold markedKind
  dsimp only
  split
  · exact .inl rfl
  · split
    · exact .inr (.inl rfl)
    · cases s.roles.objectAttribute? d.attributes with
      | none => exact .inr (.inl rfl)
      | some a => exact .inr (.inr ⟨_, rfl⟩)

/-- The kind of a declared type: by another resolver, by its role, by its declaration or by its
marks. -/
theorem declaredKind_cases (symbol : Symbol) (args : List Ty) :
    s.declaredKind symbol args = .unresolved ∨ s.declaredKind symbol args = .assumed ∨
      (∃ b, s.declaredKind symbol args = .builtin b) ∨
      (∃ shape, s.roles.collection? symbol = some shape ∧
        s.declaredKind symbol args = .collection shape) ∨
      ∃ d, s.assembly.def? symbol = some d ∧
        ((d.kind = .enumeration ∧ s.declaredKind symbol args = .enumeration) ∨
          s.declaredKind symbol args = s.markedKind d (!args.all Ty.isClosed)) := by
  unfold declaredKind
  cases hd : s.assembly.def? symbol with
  | none => exact .inl rfl
  | some d =>
    dsimp only
    split
    · exact .inr (.inl rfl)
    · cases s.roles.builtin? symbol with
      | some b => exact .inr (.inr (.inl ⟨b, rfl⟩))
      | none =>
        cases s.roles.collection? symbol with
        | some shape => exact .inr (.inr (.inr (.inl ⟨shape, rfl, rfl⟩)))
        | none =>
          dsimp only
          split
          · rename_i hkind
            exact .inr (.inr (.inr (.inr ⟨d, rfl, .inl ⟨hkind, rfl⟩⟩)))
          · exact .inr (.inr (.inr (.inr ⟨d, rfl, .inr rfl⟩)))

/-- An object or union is open when its type is. -/
theorem isOpen_eq {isOpen : Bool}
    (h : (∃ keysAsNames, s.kindOf t = .object keysAsNames isOpen) ∨ s.kindOf t = .union isOpen) :
    isOpen = !t.isClosed := by
  cases t with
  | param index name => simp [kindOf] at h
  | array element rank =>
    rw [kindOf] at h
    rcases s.arrayKind_cases element rank with heq | ⟨shape, heq⟩ | heq <;> simp [heq] at h
  | named symbol args =>
    rw [kindOf] at h
    rw [Ty.isClosed_named]
    rcases s.declaredKind_cases symbol args with
      heq | heq | ⟨b, heq⟩ | ⟨shape, -, heq⟩ | ⟨d, -, ⟨-, heq⟩ | heq⟩
    case inr.inr.inr.inr.inr =>
      rcases s.markedKind_cases d (!args.all Ty.isClosed) with
        hmarked | hmarked | ⟨keysAsNames, hmarked⟩ <;> simp_all
    all_goals simp [heq] at h

/-- A type of kind enumeration is declared as one. -/
theorem exists_enumeration (h : s.kindOf t = .enumeration) : ∃ symbol d, t.symbol? = some symbol ∧
    s.assembly.def? symbol = some d ∧ d.kind = .enumeration := by
  cases t with
  | param index name => simp [kindOf] at h
  | array element rank =>
    rw [kindOf] at h
    rcases s.arrayKind_cases element rank with heq | ⟨shape, heq⟩ | heq <;> simp [heq] at h
  | named symbol args =>
    rw [kindOf] at h
    rcases s.declaredKind_cases symbol args with
      heq | heq | ⟨b, heq⟩ | ⟨shape, -, heq⟩ | ⟨d, hd, ⟨hkind, -⟩ | heq⟩
    case inr.inr.inr.inr.inl => exact ⟨symbol, d, rfl, hd, hkind⟩
    case inr.inr.inr.inr.inr =>
      rcases s.markedKind_cases d (!args.all Ty.isClosed) with
        hmarked | hmarked | ⟨keysAsNames, hmarked⟩ <;> simp_all
    all_goals simp [heq] at h

/-! ### References up to the positions of parameters -/

@[simp] theorem kindOf_unplaced : s.kindOf t.unplaced = s.kindOf t := by
  cases t with
  | named symbol args =>
    have hclosed : (args.map Ty.unplaced).all Ty.isClosed = args.all Ty.isClosed := by
      have h := Ty.isClosed_unplaced (.named symbol args)
      rwa [Ty.unplaced_named, Ty.isClosed_named, Ty.isClosed_named] at h
    rw [Ty.unplaced_named, kindOf, kindOf, declaredKind, declaredKind, hclosed]
  | array element rank =>
    rw [Ty.unplaced_array, kindOf, kindOf, arrayKind, arrayKind, Ty.symbol?_unplaced]
  | param index name => rw [Ty.unplaced_param, kindOf, kindOf]

section

variable {t' : Ty}

theorem symbol?_congr (h : t.unplaced = t'.unplaced) : t.symbol? = t'.symbol? := by
  rw [← Ty.symbol?_unplaced, h, Ty.symbol?_unplaced]

theorem isClosed_congr (h : t.unplaced = t'.unplaced) : t.isClosed = t'.isClosed := by
  rw [← Ty.isClosed_unplaced, h, Ty.isClosed_unplaced]

theorem kindOf_congr (h : t.unplaced = t'.unplaced) : s.kindOf t = s.kindOf t' := by
  rw [← kindOf_unplaced, h, kindOf_unplaced]

theorem subst_args_congr (h : t.unplaced = t'.unplaced) (written : Ty) :
    (written.subst t.args).unplaced = (written.subst t'.args).unplaced :=
  Ty.unplaced_subst (by rw [← Ty.args_unplaced, h, Ty.args_unplaced]) written

theorem IsBase.congr {symbol : Symbol} (h : t.unplaced = t'.unplaced)
    (hbase : s.IsBase t u symbol) : ∃ u', s.IsBase t' u' symbol ∧ u.unplaced = u'.unplaced := by
  obtain ⟨written, hwritten, rfl, hsymbol⟩ := hbase
  have hsame := subst_args_congr h written
  refine ⟨written.subst t'.args, ⟨written, ?_, rfl, ?_⟩, hsame⟩
  · rw [← symbol?_congr h, hwritten]
  · rw [← symbol?_congr hsame, hsymbol]

theorem Above.congr {seen : List Symbol} (h : t.unplaced = t'.unplaced)
    (habove : s.Above seen t u) : ∃ u', s.Above seen t' u' ∧ u.unplaced = u'.unplaced := by
  induction habove generalizing t' with
  | base hbase hnew =>
    obtain ⟨u', hbase', hsame⟩ := hbase.congr h
    exact ⟨u', .base hbase' hnew, hsame⟩
  | further hbase hnew _ ih =>
    obtain ⟨u', hbase', hsame⟩ := hbase.congr h
    obtain ⟨v', habove', hsame'⟩ := ih hsame
    exact ⟨v', .further hbase' hnew habove', hsame'⟩

theorem OnChain.congr (h : t.unplaced = t'.unplaced) (hchain : s.OnChain t u) :
    ∃ u', s.OnChain t' u' ∧ u.unplaced = u'.unplaced := by
  rcases hchain with rfl | habove
  · exact ⟨t', .inl rfl, h⟩
  · rw [symbol?_congr h] at habove
    obtain ⟨u', habove', hsame⟩ := habove.congr h
    exact ⟨u', .inr habove', hsame⟩

/-- Types that differ in the positions of parameters alone refer to the same types, up to the
positions of parameters. -/
theorem Refers.congr (h : t.unplaced = t'.unplaced) (hrefers : s.Refers t u) :
    ∃ u', s.Refers t' u' ∧ u.unplaced = u'.unplaced := by
  have hkinds := kindOf_congr (s := s) h
  cases hrefers with
  | base hkind habove hclosed =>
    rw [symbol?_congr h] at habove
    obtain ⟨u', habove', hsame⟩ := habove.congr h
    exact ⟨u', .base (hkinds ▸ hkind) habove' (isClosed_congr hsame ▸ hclosed), hsame⟩
  | @member level m written hkind hlevel hdata hwritten htype hclosed =>
    obtain ⟨level', hlevel', hsame⟩ := hlevel.congr h
    have hdata' : m ∈ s.dataAt level' := by rwa [dataAt, ← symbol?_congr hsame]
    have hsubst := subst_args_congr hsame written
    exact ⟨_, .member (hkinds ▸ hkind) hlevel' hdata' hwritten htype
      (isClosed_congr hsubst ▸ hclosed), hsubst⟩
  | @variant a tag written hkind ha hunion hargs hclosed =>
    have ha' : a ∈ s.attributesAt t' := by rwa [attributesAt, ← symbol?_congr h]
    have hsubst := subst_args_congr h written
    exact ⟨_, .variant (hkinds ▸ hkind) ha' hunion hargs (isClosed_congr hsubst ▸ hclosed), hsubst⟩
  | @element shape _ rank hkind harray =>
    subst harray
    cases t' with
    | named symbol args => simp at h
    | array element' rank' =>
      rw [Ty.unplaced_array, Ty.unplaced_array, Ty.array.injEq] at h
      exact ⟨element', .element (hkinds ▸ hkind) rfl, h.1⟩
    | param index name => simp at h
  | @argument shape _ hkind hu =>
    have hmem : u.unplaced ∈ t'.args.map Ty.unplaced := by
      rw [← Ty.args_unplaced, ← h, Ty.args_unplaced]
      exact List.mem_map_of_mem hu
    obtain ⟨u', hu', hsame⟩ := List.mem_map.mp hmem
    exact ⟨u', .argument (hkinds ▸ hkind) hu', hsame.symm⟩
  | underlying hkind hsymbol hd hunderlying =>
    exact ⟨u, .underlying (hkinds ▸ hkind) (symbol?_congr h ▸ hsymbol) hd hunderlying, rfl⟩

end

/-- Types that fit and have the same name refer to types of the same names. -/
theorem Refers.exists_of_typeName_eq (hwf : s.assembly.WellFormed) {t' : Ty}
    (ht : t.Fits s.assembly Ty.AnyParam) (ht' : t'.Fits s.assembly Ty.AnyParam)
    (hname : s.assembly.typeName t = s.assembly.typeName t') (h : s.Refers t u) :
    ∃ u', s.Refers t' u' ∧ s.assembly.typeName u = s.assembly.typeName u' := by
  obtain ⟨u', hrefers, hsame⟩ := h.congr (hwf.distinct.unplaced_eq ht ht' hname)
  refine ⟨u', hrefers, ?_⟩
  rw [← Assembly.typeName_unplaced, hsame, Assembly.typeName_unplaced]

end Setting

end FormatterPlan
