import FormatterPlan.Proofs.AnalysisResult
import FormatterPlan.Proofs.BaseChains
import FormatterPlan.Proofs.Lists
import FormatterPlan.Proofs.UnplacedNodes

/-! The walk up from an object, level by level.  No declaration comes twice among its levels, so it
ends however the arguments of the bases grow; and it ends at a declaration without base, at a base
that is no declared type, or at one that would come back to a declaration.  The last alone leaves a
defect, and a type with that defect is blocked. -/

namespace FormatterPlan

/-! ### The defects of a chain of bases -/

theorem Argument.exists_getLast?_shown (argument : Argument) :
    ∃ c, argument.shown.toList.getLast? = some c ∧ c ≠ 'n' := by
  match argument with
  | .int _ | .string _ | .type _ => exact ⟨')', getLast?_toList_append rfl, by decide⟩
  | .bool true | .bool false => exact ⟨')', rfl, by decide⟩
  | .null => exact ⟨'l', rfl, by decide⟩

/-- Whether a defect is about a chain of bases. -/
def Defect.IsCyclicBases : Defect → Prop
  | .cyclicBases _ => True
  | _ => False

/-- The text about a chain of bases is that of no other defect: they all end differently. -/
theorem Defect.message_ne {defect : Defect} (h : ¬ defect.IsCyclicBases) (text : String) :
    defect.message ≠ text ++ " has a cyclic base type chain" := by
  have hlast : ∃ c, defect.message.toList.getLast? = some c ∧ c ≠ 'n' := by
    match defect with
    | .cyclicBases type => exact (h trivial).elim
    | .keyRange context key => exact ⟨'t', getLast?_toList_append rfl, by decide⟩
    | .keyArgument context argument =>
      obtain ⟨c, hshown, hne⟩ := argument.exists_getLast?_shown
      exact ⟨c, getLast?_toList_append hshown, hne⟩
    | .noFormatterType context => exact ⟨'e', getLast?_toList_append rfl, by decide⟩
    | .unionArguments type => exact ⟨')', getLast?_toList_append rfl, by decide⟩
  intro heq
  obtain ⟨c, hc, hne⟩ := hlast
  rw [heq, getLast?_toList_append rfl] at hc
  exact hne (Option.some.inj hc).symm

namespace Setting

variable {s : Setting} {t u : Ty} {symbol : Symbol} {seen : List Symbol} {levels : List Level}
  {cyclic : Bool}

theorem not_isCyclicBases_of_formatterOf {attributes : List Attribute} {context : List Ty}
    {place : String} {defect : Defect} (h : defect ∈ (s.formatterOf attributes context place).2) :
    ¬ defect.IsCyclicBases := by
  unfold formatterOf at h
  split at h
  · simp at h
  · split at h
    · simp at h
    · obtain rfl := List.mem_singleton.mp h
      exact id

theorem not_isCyclicBases_of_keyOf {m : Member} {keysAsNames : Bool} {place : String}
    {defect : Defect} (h : s.keyOf m keysAsNames place = .defect defect) :
    ¬ defect.IsCyclicBases := by
  unfold keyOf at h
  split at h
  · cases h
  · split at h
    · split at h
      · split at h
        · cases h
        · cases h
          exact id
      · cases h
      · cases h
      · cases h
      · cases h
        exact id
    · split at h <;> cases h

theorem not_isCyclicBases_of_membersOf {keysAsNames : Bool} {level : Level} {defect : Defect}
    (h : defect ∈ (s.membersOf keysAsNames level).2) : ¬ defect.IsCyclicBases := by
  obtain ⟨_, hfound, hdefect⟩ := List.mem_flatMap.mp h
  obtain ⟨m, -, rfl⟩ := List.mem_map.mp hfound
  cases htype : m.type with
  | none => simp [memberOf, htype] at hdefect
  | some type =>
    cases hkey : s.keyOf m keysAsNames (level.type.name.text ++ "." ++ m.name) with
    | ignored => simp [memberOf, htype, hkey] at hdefect
    | defect found =>
      obtain rfl : defect = found := by simpa [memberOf, htype, hkey] using hdefect
      exact not_isCyclicBases_of_keyOf hkey
    | key key =>
      simp only [memberOf, htype, hkey] at hdefect
      split at hdefect
      · simp at hdefect
      · exact not_isCyclicBases_of_formatterOf hdefect

theorem count_message_eq_zero {defects : List Defect}
    (h : ∀ defect ∈ defects, ¬ defect.IsCyclicBases) (text : String) :
    (defects.map Defect.message).count (text ++ " has a cyclic base type chain") = 0 := by
  rw [List.count_eq_zero]
  intro hmem
  obtain ⟨defect, hdefect, heq⟩ := List.mem_map.mp hmem
  exact Defect.message_ne (h defect hdefect) text heq

/-- An object has the defect once when its chain of bases comes back, and not at all otherwise. -/
theorem count_cyclicBases (h : (s.kindOf t).isObject = true) :
    ((s.nodeOf t).defects.map Defect.message).count
      ((s.assembly.typeName t).text ++ " has a cyclic base type chain") =
        (s.basesOf t).2.toNat := by
  have hmembers : ∀ defect ∈ (s.levelsOf t).reverse.flatMap (fun level =>
      (s.membersOf (s.kindOf t).keysAsNames level).2), ¬ defect.IsCyclicBases := by
    intro defect hdefect
    obtain ⟨level, -, hmember⟩ := List.mem_flatMap.mp hdefect
    exact not_isCyclicBases_of_membersOf hmember
  rw [nodeOf_defects, if_pos h, List.map_append, List.map_append, List.count_append,
    List.count_append, count_message_eq_zero hmembers,
    count_message_eq_zero fun _ => not_isCyclicBases_of_formatterOf]
  cases (s.basesOf t).2 with
  | false => rfl
  | true => simp [Defect.message]

/-! ### The levels of an object -/

/-- Whether a level is the next one above another: its type is the base that the other's declaration
is written with, the other's arguments put in, and its members are inherited. -/
def IsNextLevel (s : Setting) (below above : Level) : Prop :=
  ∃ u symbol, s.IsBase below.type.type u symbol ∧ above = s.baseLevel u

/-- Where a walk that has visited some declarations ends, and whether it comes back to one. -/
inductive Stops (s : Setting) (visited : List (Option Symbol)) (t : Ty) : Bool → Prop
  | noBase (hnone : t.symbol?.bind s.assembly.baseOf = none) : Stops s visited t false
  | undeclared {written : Ty} (hwritten : t.symbol?.bind s.assembly.baseOf = some written)
      (hnone : (written.subst t.args).symbol? = none) : Stops s visited t false
  | back {u : Ty} {symbol : Symbol} (hbase : s.IsBase t u symbol)
      (hvisited : some symbol ∈ visited) : Stops s visited t true

def Level.symbol? (level : Level) : Option Symbol := level.type.type.symbol?

/-- What the levels of a walk from a type to its end are, and whether the walk comes back to a
declaration there. -/
structure IsWalk (s : Setting) (t : Ty) (levels : List Level) (cyclic : Bool) : Prop where
  first : levels.head? = some ⟨s.named t, .own⟩
  next : levels.IsChain s.IsNextLevel
  declared : ∀ level ∈ levels, ∃ symbol d, level.symbol? = some symbol ∧
    s.assembly.def? symbol = some d
  distinct : (levels.map Level.symbol?).Nodup
  stops : ∀ last, levels.getLast? = some last →
    s.Stops (levels.map Level.symbol?) last.type.type cyclic

theorem IsBase.symbol?_baseLevel (h : s.IsBase t u symbol) :
    (s.baseLevel u).symbol? = some symbol := h.symbol?_eq

theorem Stops.of_subset {visited visited' : List (Option Symbol)} (h : s.Stops visited t cyclic)
    (hsubset : visited ⊆ visited') : s.Stops visited' t cyclic := by
  cases h with
  | noBase hnone => exact .noBase hnone
  | undeclared hwritten hnone => exact .undeclared hwritten hnone
  | back hbase hvisited => exact .back hbase (hsubset hvisited)

theorem stops_of_not_isBase (h : ∀ u symbol, ¬ s.IsBase t u symbol)
    (visited : List (Option Symbol)) : s.Stops visited t false := by
  cases hwritten : t.symbol?.bind s.assembly.baseOf with
  | none => exact .noBase hwritten
  | some written =>
    cases hsymbol : (written.subst t.args).symbol? with
    | none => exact .undeclared hwritten hsymbol
    | some symbol => exact (h _ symbol ⟨written, hwritten, rfl, hsymbol⟩).elim

namespace Walks

theorem isChain (h : s.Walks seen t levels cyclic) {level : Level} (hlevel : level.type.type = t) :
    (level :: levels).IsChain s.IsNextLevel := by
  induction h generalizing level with
  | top | back => exact .singleton level
  | up hbase _ _ ih => exact .cons_cons ⟨_, _, hlevel ▸ hbase, rfl⟩ (ih rfl)

theorem nodup (h : s.Walks seen t levels cyclic) (hnodup : seen.Nodup) :
    (seen.map some ++ levels.map Level.symbol?).Nodup := by
  induction h with
  | top | back =>
    rw [List.map_nil, List.append_nil]
    exact hnodup.map (Option.some_injective _)
  | up hbase hnew _ ih =>
    -- What is new to the walk is new to what was seen and to the levels above.
    rw [List.map_cons, List.nodup_middle, hbase.symbol?_baseLevel]
    exact ih (hnodup.cons hnew)

theorem declared {scope : Nat → String → Prop} (h : s.Walks seen t levels cyclic)
    (hwf : s.assembly.WellFormed) (ht : t.Fits s.assembly scope) :
    ∀ level ∈ levels, ∃ symbol d, level.symbol? = some symbol ∧
      s.assembly.def? symbol = some d := by
  induction h with
  | top | back => simp
  | @up seen t u symbol levels cyclic hbase _ _ ih =>
    obtain ⟨hfits, d, hd⟩ := hbase.fits hwf ht
    exact List.forall_mem_cons.mpr ⟨⟨symbol, d, hbase.symbol?_baseLevel, hd⟩, ih hfits⟩

theorem stops (h : s.Walks seen t levels cyclic) {level last : Level}
    (hlevel : level.type.type = t) (hlast : (level :: levels).getLast? = some last) :
    s.Stops (seen.map some ++ levels.map Level.symbol?) last.type.type cyclic := by
  induction h generalizing level with
  | top hnone =>
    obtain rfl : level = last := by simpa using hlast
    exact stops_of_not_isBase (hlevel ▸ hnone) _
  | back hbase hseen =>
    obtain rfl : level = last := by simpa using hlast
    exact .back (hlevel ▸ hbase) (List.mem_append_left _ (List.mem_map_of_mem hseen))
  | @up seen t u symbol levels cyclic hbase _ _ ih =>
    rw [List.getLast?_cons_cons] at hlast
    refine (ih rfl hlast).of_subset fun visited hvisited => ?_
    -- The declaration of the base has moved from what was seen to the levels.
    rw [List.map_cons, List.cons_append, List.mem_cons, List.mem_append] at hvisited
    rw [List.map_cons, hbase.symbol?_baseLevel, List.mem_append, List.mem_cons]
    tauto

end Walks

theorem isWalk_levelsOf (hwf : s.assembly.WellFormed) {scope : Nat → String → Prop}
    (ht : t.Fits s.assembly scope) (hsymbol : t.symbol? = some symbol) :
    s.IsWalk t (s.levelsOf t) (s.basesOf t).2 := by
  have hwalk := walks_basesOf hwf ht
  rw [hsymbol, Option.toList_some] at hwalk
  obtain ⟨d, hd⟩ := ht.declared hsymbol
  have hvisited : (s.levelsOf t).map Level.symbol? =
      [symbol].map some ++ (s.basesOf t).1.map Level.symbol? := by
    rw [levelsOf, List.map_cons, Level.symbol?, named_type, hsymbol]
    rfl
  exact {
    first := rfl
    next := hwalk.isChain rfl
    declared := List.forall_mem_cons.mpr ⟨⟨symbol, d, hsymbol, hd⟩, hwalk.declared hwf ht⟩
    distinct := hvisited ▸ hwalk.nodup (List.nodup_singleton symbol)
    stops := fun last hlast => hvisited ▸ hwalk.stops rfl hlast }

theorem IsWalk.length_le (h : s.IsWalk t levels cyclic) : levels.length ≤ s.assembly.defs.size := by
  let symbols := levels.map fun level => level.symbol?.getD ⟨0⟩
  have hsymbols : symbols.map some = levels.map Level.symbol? := by
    rw [List.map_map]
    refine List.map_congr_left fun level hlevel => ?_
    obtain ⟨symbol, d, hsymbol, -⟩ := h.declared level hlevel
    rw [Function.comp_apply, hsymbol, Option.getD_some]
  have hnodup : symbols.Nodup := by
    have hdistinct := h.distinct
    rw [← hsymbols] at hdistinct
    exact hdistinct.of_map _
  have hdeclared : ∀ symbol ∈ symbols, ∃ d, s.assembly.def? symbol = some d := by
    intro _ hmem
    obtain ⟨level, hlevel, rfl⟩ := List.mem_map.mp hmem
    obtain ⟨symbol, d, hsymbol, hd⟩ := h.declared level hlevel
    exact ⟨d, by rw [hsymbol, Option.getD_some, hd]⟩
  have hall := length_le_size hnodup hdeclared
  rwa [List.length_map] at hall

theorem exists_symbol?_of_isObject (h : (s.kindOf t).isObject = true) :
    ∃ symbol, t.symbol? = some symbol := by
  cases t with
  | named symbol args => exact ⟨symbol, rfl⟩
  | array element rank =>
    rcases s.arrayKind_cases element rank with heq | ⟨shape, heq⟩ | heq
    all_goals simp [kindOf, heq, NodeKind.isObject] at h
  | param index name => simp [kindOf, NodeKind.isObject] at h

/-- The levels of an object are those of the walk up its bases, from itself to where the walk ends
for one of three reasons.  The walk comes back to a declaration when the chain of bases visits one
twice; then alone the object has the defect, once, and it is blocked wherever it has a node. -/
theorem isWalk_of_isObject {documents : List Document}
    (hload : Assembly.load documents = .ok s.assembly) (ht : t.Fits s.assembly Ty.AnyParam)
    (hobject : (s.kindOf t).isObject = true) :
    ∃ cyclic, s.IsWalk t (s.levelsOf t) cyclic ∧
      (s.levelsOf t).length ≤ s.assembly.defs.size ∧ (cyclic = true ↔ ¬ s.VisitsOnce t) ∧
      ((s.nodeOf t).defects.map Defect.message).count
        ((s.assembly.typeName t).text ++ " has a cyclic base type chain") = cyclic.toNat ∧
      ∀ (control : RunControl) (root : Symbol) (a : Analysis),
        root.index < s.assembly.defs.size → s.analyze control root = .ok a →
          ∀ node ∈ a.graph.nodes, node.self.type = t → cyclic = true →
            a.verdict.isBlocked node.name = true := by
  have hwf := Assembly.wellFormed_of_load hload
  obtain ⟨symbol, hsymbol⟩ := exists_symbol?_of_isObject hobject
  have hwalk := isWalk_levelsOf hwf ht hsymbol
  have hcount := count_cyclicBases hobject
  refine ⟨_, hwalk, hwalk.length_le, ?_, hcount, ?_⟩
  · rw [visitsOnce_iff hwf ht, Bool.not_eq_false]
  · intro control root a hroot hanalyze node hnode htype hcyclic
    have h := analyzed_of_analyze hload hroot hanalyze
    obtain ⟨u, -, rfl⟩ := h.complete.made node hnode
    rw [nodeOf_self, named_type] at htype
    subst htype
    have hdefects : (s.nodeOf u).defects ≠ [] := by
      intro hnone
      rw [hnone, hcyclic] at hcount
      cases hcount
    exact h.isBlocked_of_findingsOf hnode (by simp [TypeGraph.findingsOf, hdefects])

/-- Two classes that derive from each other, with arguments that grow. -/
def growingDocument : Document where
  types := [
    { name := "App.Grow", kind := .concreteClass, generics := ["T"],
      base := some "App.Step<System.Collections.Generic.List<T>>",
      attributes := [.bare "MessagePack.MessagePackObjectAttribute"] },
    { name := "App.Step", kind := .concreteClass, generics := ["U"], base := some "App.Grow<U[]>" }]

def growingDefs : List TypeDef := [
  { name := "App.Grow", kind := .concreteClass, generics := ["T"],
    base := some (.named ⟨97⟩ [.named ⟨32⟩ [.param 0 "T"]]), underlying := none,
    attributes := [⟨⟨90⟩, []⟩], members := [] },
  { name := "App.Step", kind := .concreteClass, generics := ["U"],
    base := some (.named ⟨96⟩ [.array (.param 0 "U") 1]), underlying := none, attributes := [],
    members := [] }]

def growingSetting : Setting := .ofDefs growingDefs {}

def growingType : Ty := .named ⟨96⟩ [.param 0 "T"]

def growingGraph : TypeGraph := ⟨#[growingSetting.nodeOf growingType]⟩

theorem loads_growingDocument : Assembly.load [growingDocument] = .ok growingSetting.assembly ∧
    of? growingSetting.assembly [] {} = some growingSetting :=
  loads_ofDefs (by decide +kernel) (toOption_eq_some_iff.mp (by decide +kernel)) {}

/-- The walk up from the first class ends above its base, which would bring it back to the class
itself with other arguments. -/
theorem growingType_isBlocked : Assembly.load [growingDocument] = .ok growingSetting.assembly ∧
    growingType.Fits growingSetting.assembly Ty.AnyParam ∧
    (growingSetting.kindOf growingType).isObject = true ∧
    growingSetting.IsWalk growingType (growingSetting.levelsOf growingType) true ∧
    (growingSetting.levelsOf growingType).length = 2 ∧
    ∃ a, growingSetting.analyze {} ⟨96⟩ = .ok a ∧
      a.verdict.isBlocked (growingSetting.nodeOf growingType).name = true := by
  have hfits : growingType.Fits growingSetting.assembly Ty.AnyParam := by
    rw [growingType, Ty.fits_named]
    refine ⟨⟨growingDefs[0], rfl, rfl⟩, fun t ht => ?_⟩
    obtain rfl := List.mem_singleton.mp ht
    exact trivial
  have hobject : (growingSetting.kindOf growingType).isObject = true := by decide +kernel
  have hgraph : growingSetting.graphOf {} ⟨96⟩ = .ok growingGraph :=
    TypeGraph.graphOf_eq_ok rfl (by decide +kernel)
  obtain ⟨cyclic, hwalk, -, -, hcount, hblocked⟩ :=
    isWalk_of_isObject loads_growingDocument.1 hfits hobject
  obtain rfl : cyclic = true := by
    have hone : ((growingSetting.nodeOf growingType).defects.map Defect.message).count
        ((growingSetting.assembly.typeName growingType).text ++ " has a cyclic base type chain") =
          1 := by
      decide +kernel
    cases cyclic with
    | true => rfl
    | false => rw [hone] at hcount; cases hcount
  obtain ⟨a, hanalyze, ha⟩ := exists_analyze_eq_ok hgraph
  have hnode : growingSetting.nodeOf growingType ∈ a.graph.nodes := by
    rw [ha, growingGraph]
    exact Array.mem_iff_getElem?.mpr ⟨0, rfl⟩
  exact ⟨loads_growingDocument.1, hfits, hobject, hwalk, by decide +kernel, a, hanalyze,
    hblocked {} ⟨96⟩ a (by decide +kernel) hanalyze _ hnode (by rw [nodeOf_self, named_type]) rfl⟩

end Setting

end FormatterPlan
