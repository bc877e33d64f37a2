import FormatterPlan.Proofs.CompleteGraph
import FormatterPlan.Strategy.Choice
import Mathlib.Data.List.Nodup
import Mathlib.Logic.Relation

/-! The choice of strategies as a run.  A strategy is chosen from those chosen before it: it is that
of a type without formatter because one of the parts is known to have none, or it is the full
strategy because none of them is, and then the parts whose choice was still going on lead back to
the type itself.  The invariant is `Coherent`; a choice extends the state and leaves open what was
open. -/

namespace FormatterPlan

namespace StrategySetting

/-- The types whose strategies the strategy of a node depends on. -/
def parts (s : StrategySetting) (node : Node) : List TypeName :=
  if s.verdict.isBlocked node.name || node.formatter.isSome then [] else TypeGraph.passedOn node

/-- The strategy of a node whose parts all have formatters. -/
def fullStrategy (s : StrategySetting) (node : Node) : Strategy :=
  if s.verdict.isBlocked node.name then .unresolved
  else match node.formatter with
    | some custom => .custom custom.name
    | none =>
      match node.kind with
      | .builtin b => .builtin b.formatter
      | .assumed => .assumed
      | .enumeration =>
        match node.elements with
        | underlying :: _ => .enumeration underlying.name
        | [] => .unresolved
      | .collection shape => collectionStrategy s.graph shape (node.elements.map (·.name))
      | .object _ false => objectStrategy s.mapMode node
      | .union false => unionStrategy node.variants
      | .object _ true | .union true | .unresolved => .unresolved

/-- The strategy of a node is the full one unless a part is found that has no formatter. -/
theorem strategyOf_eq (s : StrategySetting)
    (choose : StrategyState → TypeName → StrategyState) (state : StrategyState) (node : Node) :
    s.strategyOf choose state node =
      (if (findUnresolved choose state (s.parts node)).1 = true then .unresolved
        else s.fullStrategy node,
       (findUnresolved choose state (s.parts node)).2) := by
  unfold strategyOf parts fullStrategy
  cases s.verdict.isBlocked node.name with
  | true => simp [findUnresolved]
  | false =>
    cases hformatter : node.formatter with
    | some custom => simp [findUnresolved]
    | none =>
      unfold TypeGraph.passedOn
      match hkind : node.kind with
      | .builtin _ | .assumed | .unresolved | .object _ false | .object _ true | .union true =>
        simp [findUnresolved]
      | .enumeration => cases node.elements <;> simp [findUnresolved]
      | .collection shape => simp
      | .union false => simp

theorem collectionStrategy_cases (graph : TypeGraph) (shape : CollectionShape)
    (elements : List TypeName) :
    (∃ formatter, collectionStrategy graph shape elements = .builtin formatter) ∨
      collectionStrategy graph shape elements =
        .collection shape.adapter shape.backing elements := by
  unfold collectionStrategy
  dsimp only
  split
  · split
    · exact .inl ⟨_, rfl⟩
    · exact .inr rfl
  · exact .inr rfl

theorem perm_of_objectStrategy {mapMode : Bool} {node : Node} {layout : ObjectLayout}
    {planned : List PlannedMember} (h : objectStrategy mapMode node = .object layout planned) :
    planned.Perm (node.members.filterMap plannedMember?) := by
  unfold objectStrategy at h
  dsimp only at h
  split at h
  · obtain ⟨-, rfl⟩ := Strategy.object.inj h
    exact .refl _
  · obtain ⟨-, rfl⟩ := Strategy.object.inj h
    exact List.mergeSort_perm _ _

/-- Only closed objects and unions that are not blocked and name no formatter are written as objects
and unions. -/
theorem fullStrategy_object_or_union {s : StrategySetting} {node : Node}
    (h : (∃ layout planned, s.fullStrategy node = .object layout planned) ∨
      ∃ arms, s.fullStrategy node = .union arms) :
    s.verdict.isBlocked node.name = false ∧ node.formatter = none ∧
      ((∃ keysAsNames, node.kind = .object keysAsNames false) ∧
          s.fullStrategy node = objectStrategy s.mapMode node ∨
        node.kind = .union false ∧ s.fullStrategy node = unionStrategy node.variants) := by
  unfold fullStrategy at h ⊢
  cases hblocked : s.verdict.isBlocked node.name with
  | true => simp [hblocked] at h
  | false =>
    rw [hblocked, if_neg Bool.false_ne_true] at h
    rw [if_neg Bool.false_ne_true]
    cases hformatter : node.formatter with
    | some custom => simp [hformatter] at h
    | none =>
      rw [hformatter] at h
      match hkind : node.kind with
      | .object keysAsNames false => exact ⟨rfl, rfl, .inl ⟨⟨keysAsNames, rfl⟩, rfl⟩⟩
      | .union false => exact ⟨rfl, rfl, .inr ⟨rfl, rfl⟩⟩
      | .collection shape =>
        rw [hkind] at h
        rcases collectionStrategy_cases s.graph shape (node.elements.map (·.name)) with
          ⟨formatter, heq⟩ | heq
        · simp [heq] at h
        · simp [heq] at h
      | .enumeration => cases helements : node.elements <;> simp [hkind, helements] at h
      | .builtin _ | .assumed | .unresolved | .object _ true | .union true => simp [hkind] at h

theorem objectStrategy_ne_union {mapMode : Bool} {node : Node} {arms : List UnionArm} :
    objectStrategy mapMode node ≠ .union arms := by
  unfold objectStrategy
  dsimp only
  split <;> simp

theorem fullStrategy_eq_object {s : StrategySetting} {node : Node} {layout : ObjectLayout}
    {planned : List PlannedMember} (h : s.fullStrategy node = .object layout planned) :
    s.verdict.isBlocked node.name = false ∧ node.formatter = none ∧
      (∃ keysAsNames, node.kind = .object keysAsNames false) ∧
      objectStrategy s.mapMode node = .object layout planned := by
  obtain ⟨hsound, hformatter, ⟨hkind, heq⟩ | ⟨-, heq⟩⟩ :=
    fullStrategy_object_or_union (.inl ⟨layout, planned, h⟩)
  · exact ⟨hsound, hformatter, hkind, heq.symm.trans h⟩
  · rw [h, unionStrategy] at heq
    simp at heq

theorem fullStrategy_eq_union {s : StrategySetting} {node : Node} {arms : List UnionArm}
    (h : s.fullStrategy node = .union arms) :
    s.verdict.isBlocked node.name = false ∧ node.formatter = none ∧ node.kind = .union false ∧
      unionStrategy node.variants = .union arms := by
  obtain ⟨hsound, hformatter, ⟨-, heq⟩ | ⟨hkind, heq⟩⟩ :=
    fullStrategy_object_or_union (.inr ⟨arms, h⟩)
  · exact (objectStrategy_ne_union (heq.symm.trans h)).elim
  · exact ⟨hsound, hformatter, hkind, heq.symm.trans h⟩

/-- Whether a type is a part of another one. -/
def HasPart (s : StrategySetting) (a b : TypeName) : Prop :=
  ∃ node, s.graph.node? a = some node ∧ b ∈ s.parts node

/-- Whether a type is a part of another one by way of several. -/
abbrev LeadsTo (s : StrategySetting) : TypeName → TypeName → Prop :=
  Relation.ReflTransGen s.HasPart

/-- The reasons for a strategy, when the strategies in `older` have been chosen. -/
inductive Justified (s : StrategySetting) (older : List (TypeName × Strategy)) (name : TypeName) :
    Strategy → Prop
  | unresolved {node : Node} {part : TypeName} (hnode : s.graph.node? name = some node)
      (hpart : part ∈ s.parts node) (hunresolved : older.lookup part = some .unresolved) :
      Justified s older name .unresolved
  | full {node : Node} (hnode : s.graph.node? name = some node)
      (hparts : ∀ part ∈ s.parts node, older.lookup part ≠ some .unresolved)
      (hopen : ∀ part ∈ s.parts node, part ∈ s.graph.names → older.lookup part = none →
        s.LeadsTo part name) :
      Justified s older name (s.fullStrategy node)

/-- Choices, the last one first, each of a new type and for a reason. -/
inductive Trace (s : StrategySetting) : List (TypeName × Strategy) → Prop
  | nil : Trace s []
  | cons {name : TypeName} {strategy : Strategy} {older : List (TypeName × Strategy)}
      (hnew : older.lookup name = none) (hreason : s.Justified older name strategy)
      (holder : Trace s older) : Trace s ((name, strategy) :: older)

/-- What holds of the state between any two choices. -/
structure Coherent (s : StrategySetting) (state : StrategyState) : Prop where
  trace : s.Trace state.chosen
  begun : ∀ name strategy, state.find? name = some strategy → name ∈ state.begun
  distinct : state.begun.Nodup
  known : ∀ name ∈ state.begun, name ∈ s.graph.names

end StrategySetting

namespace StrategyState

/-- Whether the choice for a type has begun but is not made. -/
def IsOpen (state : StrategyState) (name : TypeName) : Prop :=
  name ∈ state.begun ∧ state.find? name = none

/-- What choices do to a state: strategies stay, and the same types are open. -/
structure Extends (state later : StrategyState) : Prop where
  kept : ∀ name strategy, state.find? name = some strategy → later.find? name = some strategy
  begun : ∀ name ∈ state.begun, name ∈ later.begun
  isOpen_iff : ∀ name, later.IsOpen name ↔ state.IsOpen name

theorem Extends.refl (state : StrategyState) : state.Extends state :=
  ⟨fun _ _ h => h, fun _ h => h, fun _ => Iff.rfl⟩

theorem Extends.trans {a b c : StrategyState} (hab : a.Extends b) (hbc : b.Extends c) :
    a.Extends c :=
  ⟨fun name strategy h => hbc.kept name strategy (hab.kept name strategy h),
    fun name h => hbc.begun name (hab.begun name h),
    fun name => (hbc.isOpen_iff name).trans (hab.isOpen_iff name)⟩

theorem not_isOpen_initial (name : TypeName) : ¬ initial.IsOpen name := by
  simp [IsOpen, initial]

theorem Extends.find?_eq_none {state later : StrategyState} (h : state.Extends later)
    {name : TypeName} (hopen : state.IsOpen name) : later.find? name = none :=
  ((h.isOpen_iff name).mpr hopen).2

end StrategyState

namespace StrategySetting

variable {s : StrategySetting}

/-! ### One choice -/

/-- What the choice for a type has to do, up to a depth: the state stays coherent and is extended,
and afterwards the choice for the type has begun.  The types that are open have to lead to it. -/
def ChoosesWell (s : StrategySetting) (depth : Nat) : Prop :=
  ∀ state name, s.Coherent state → (∀ other, state.IsOpen other → s.LeadsTo other name) →
    s.graph.names.length < depth + state.begun.length →
    s.Coherent (s.choose depth state name) ∧ state.Extends (s.choose depth state name) ∧
      (name ∈ s.graph.names → name ∈ (s.choose depth state name).begun)

theorem Coherent.length_begun_le {state : StrategyState} (h : s.Coherent state) :
    state.begun.length ≤ s.graph.names.length :=
  h.distinct.length_le_of_subset h.known

/-- What a search through parts finds is without formatter, and if it finds nothing the choice for
each part has begun and has not come to that. -/
theorem ChoosesWell.findUnresolved {depth : Nat} (hchoose : s.ChoosesWell depth) {owner : TypeName}
    {rest : List TypeName} (hrest : ∀ part ∈ rest, s.HasPart owner part) {state : StrategyState}
    (hstate : s.Coherent state) (hopen : ∀ other, state.IsOpen other → s.LeadsTo other owner)
    (hdepth : s.graph.names.length < depth + state.begun.length) {found : Bool}
    {later : StrategyState}
    (h : findUnresolved (s.choose depth) state rest = (found, later)) :
    s.Coherent later ∧ state.Extends later ∧
      (found = true → ∃ part ∈ rest, later.find? part = some .unresolved) ∧
      (found = false → ∀ part ∈ rest, later.find? part ≠ some .unresolved ∧
        (part ∈ s.graph.names → part ∈ later.begun)) := by
  induction rest generalizing state with
  | nil =>
    obtain ⟨rfl, rfl⟩ := Prod.mk.inj h
    exact ⟨hstate, .refl _, by simp, by simp⟩
  | cons part rest ih =>
    have hpart := hrest part List.mem_cons_self
    obtain ⟨hfirst, hextends, hbegun⟩ :=
      hchoose state part hstate (fun other hother => (hopen other hother).tail hpart) hdepth
    rw [StrategySetting.findUnresolved] at h
    generalize s.choose depth state part = middle at *
    by_cases hunresolved : middle.find? part = some .unresolved
    · rw [if_pos hunresolved] at h
      obtain ⟨rfl, rfl⟩ := Prod.mk.inj h
      exact ⟨hfirst, hextends, fun _ => ⟨part, List.mem_cons_self, hunresolved⟩, by simp⟩
    rw [if_neg hunresolved] at h
    have hlonger := hstate.distinct.length_le_of_subset hextends.begun
    obtain ⟨hlast, hextends', htrue, hfalse⟩ :=
      ih (fun other hother => hrest other (List.mem_cons_of_mem _ hother)) hfirst
        (fun other hother => hopen other ((hextends.isOpen_iff other).mp hother)) (by omega) h
    refine ⟨hlast, hextends.trans hextends', fun hfound => ?_, fun hnone other hother => ?_⟩
    · obtain ⟨other, hother, hsome⟩ := htrue hfound
      exact ⟨other, List.mem_cons_of_mem _ hother, hsome⟩
    · rcases List.mem_cons.mp hother with rfl | hother
      · refine ⟨fun hsome => ?_, fun hname => hextends'.begun _ (hbegun hname)⟩
        -- The strategy was known after the choice, or the choice was open and still is.
        have hname := hlast.known _ (hlast.begun _ _ hsome)
        cases hfind : middle.find? other with
        | none =>
          rw [hextends'.find?_eq_none ⟨hbegun hname, hfind⟩] at hsome
          simp at hsome
        | some strategy =>
          rw [hextends'.kept _ _ hfind] at hsome
          exact hunresolved (hfind.trans hsome)
      · exact hfalse hnone other hother

theorem lookup_cons_eq (entry : TypeName × Strategy) (older : List (TypeName × Strategy))
    (name : TypeName) : (entry :: older).lookup name =
      if entry.1 = name then some entry.2 else older.lookup name := by
  obtain ⟨other, strategy⟩ := entry
  rw [List.lookup_cons]
  by_cases heq : other = name
  · simp [heq]
  · rw [if_neg heq, beq_eq_false_iff_ne.mpr (Ne.symm heq)]

theorem find?_cons (state : StrategyState) (name other : TypeName) (strategy : Strategy) :
    ({ state with chosen := (name, strategy) :: state.chosen } : StrategyState).find? other =
      if name = other then some strategy else state.find? other :=
  lookup_cons_eq (name, strategy) state.chosen other

/-- The state in which the choice for a new type has begun. -/
theorem Coherent.begin {state : StrategyState} (h : s.Coherent state) {name : TypeName}
    (hnew : name ∉ state.begun) (hname : name ∈ s.graph.names) :
    s.Coherent { state with begun := name :: state.begun } where
  trace := h.trace
  begun other strategy hother := List.mem_cons_of_mem _ (h.begun other strategy hother)
  distinct := h.distinct.cons hnew
  known other hother := by
    rcases List.mem_cons.mp hother with rfl | hother
    · exact hname
    · exact h.known other hother

theorem Coherent.isOpen_begin_iff {state : StrategyState} (h : s.Coherent state) {name : TypeName}
    (hnew : name ∉ state.begun) (other : TypeName) :
    ({ state with begun := name :: state.begun } : StrategyState).IsOpen other ↔
      other = name ∨ state.IsOpen other := by
  unfold StrategyState.IsOpen
  rw [List.mem_cons]
  constructor
  · rintro ⟨rfl | hother, hnone⟩
    · exact .inl rfl
    · exact .inr ⟨hother, hnone⟩
  · rintro (rfl | ⟨hother, hnone⟩)
    · refine ⟨.inl rfl, ?_⟩
      cases hfind : state.find? other with
      | none => exact hfind
      | some strategy => exact (hnew (h.begun _ _ hfind)).elim
    · exact ⟨.inr hother, hnone⟩

theorem Coherent.choose {state : StrategyState} (h : s.Coherent state) {name : TypeName}
    (hopen : state.IsOpen name) {strategy : Strategy}
    (hreason : s.Justified state.chosen name strategy) :
    s.Coherent { state with chosen := (name, strategy) :: state.chosen } where
  trace := .cons hopen.2 hreason h.trace
  begun other strategy' hother := by
    rw [find?_cons] at hother
    split at hother
    · rename_i heq
      exact heq ▸ hopen.1
    · exact h.begun other strategy' hother
  distinct := h.distinct
  known := h.known

/-- From the beginning of the choice for a type to its end, the same other types are open. -/
theorem Coherent.extends_choose {state later : StrategyState} (h : s.Coherent state)
    {name : TypeName} (hnew : name ∉ state.begun)
    (hextends : ({ state with begun := name :: state.begun } : StrategyState).Extends later)
    (strategy : Strategy) :
    state.Extends { later with chosen := (name, strategy) :: later.chosen } := by
  constructor
  case kept =>
    intro other strategy' hother
    have hne : name ≠ other := by
      rintro rfl
      exact hnew (h.begun _ _ hother)
    rw [find?_cons, if_neg hne]
    exact hextends.kept other strategy' hother
  case begun => exact fun other hother => hextends.begun other (List.mem_cons_of_mem _ hother)
  case isOpen_iff =>
    intro other
    have hsame : later.IsOpen other ↔ other = name ∨ state.IsOpen other :=
      (hextends.isOpen_iff other).trans (h.isOpen_begin_iff hnew other)
    rw [StrategyState.IsOpen, find?_cons]
    by_cases heq : name = other
    · subst heq
      simp [StrategyState.IsOpen, hnew]
    · rw [if_neg heq]
      exact hsame.trans (or_iff_right (Ne.symm heq))

/-- What a search through the parts of a node comes to is a reason for the strategy. -/
theorem justified_of_search {name : TypeName} {node : Node} (hnode : s.graph.node? name = some node)
    {later : StrategyState} {found : Bool}
    (htrue : found = true → ∃ part ∈ s.parts node, later.find? part = some .unresolved)
    (hfalse : found = false → ∀ part ∈ s.parts node, later.find? part ≠ some .unresolved ∧
      (part ∈ s.graph.names → part ∈ later.begun))
    (hopen : ∀ part, later.IsOpen part → s.LeadsTo part name) :
    s.Justified later.chosen name (if found = true then .unresolved else s.fullStrategy node) := by
  cases found with
  | true =>
    obtain ⟨part, hpart, hunresolved⟩ := htrue rfl
    exact .unresolved hnode hpart hunresolved
  | false =>
    refine .full hnode (fun part hpart => (hfalse rfl part hpart).1) ?_
    intro part hpart hin hnone
    exact hopen part ⟨(hfalse rfl part hpart).2 hin, hnone⟩

/-- Choices do what they have to do at every depth. -/
theorem choosesWell (s : StrategySetting) (depth : Nat) : s.ChoosesWell depth := by
  induction depth with
  | zero =>
    -- More nodes would have begun than there are.
    intro state name hstate _ hdepth
    have hlength := hstate.length_begun_le
    omega
  | succ depth ih =>
    intro state name hstate hopen hdepth
    rw [StrategySetting.choose]
    by_cases hbegun : name ∈ state.begun
    · rw [if_pos (List.contains_iff_mem.mpr hbegun)]
      exact ⟨hstate, .refl state, fun _ => hbegun⟩
    rw [if_neg (by simpa using hbegun)]
    cases hnode : s.graph.node? name with
    | none =>
      refine ⟨hstate, .refl state, fun hname => ?_⟩
      obtain ⟨node, hsome⟩ := TypeGraph.exists_node?_of_mem_names hname
      rw [hnode] at hsome
      simp at hsome
    | some node =>
      have hstart := hstate.begin hbegun (TypeGraph.mem_names_of_node? hnode)
      have hstartOpen := hstate.isOpen_begin_iff hbegun
      -- The open types lead to `name`, and `name` leads to its parts.
      have hleads : ∀ other,
          ({ state with begun := name :: state.begun } : StrategyState).IsOpen other →
            s.LeadsTo other name := by
        intro other hother
        rcases (hstartOpen other).mp hother with rfl | hbefore
        · exact .refl
        · exact hopen other hbefore
      dsimp only
      rw [strategyOf_eq]
      cases hfound : findUnresolved (s.choose depth)
        { state with begun := name :: state.begun } (s.parts node) with
      | mk found later =>
        obtain ⟨hlater, hextends, htrue, hfalse⟩ :=
          ih.findUnresolved (fun part hpart => ⟨node, hnode, hpart⟩) hstart hleads
            (by rw [List.length_cons]; omega) hfound
        have hstill : later.IsOpen name :=
          (hextends.isOpen_iff name).mpr ((hstartOpen name).mpr (.inl rfl))
        have hreason := justified_of_search hnode htrue hfalse
          fun part hpart => hleads part ((hextends.isOpen_iff part).mp hpart)
        exact ⟨hlater.choose hstill hreason, hstate.extends_choose hbegun hextends _,
          fun _ => hextends.begun name List.mem_cons_self⟩

/-! ### All choices -/

def finalState (s : StrategySetting) : StrategyState :=
  s.graph.names.foldl (fun state name => (s.strategy state name).2) .initial

/-- The strategy that is chosen for a type in the end. -/
def strategyAt (s : StrategySetting) (name : TypeName) : Strategy :=
  (s.finalState.find? name).getD .unresolved

theorem strategies_initial (s : StrategySetting) :
    s.strategies .initial = s.graph.names.map s.strategyAt := rfl

theorem coherent_initial (s : StrategySetting) : s.Coherent .initial where
  trace := .nil
  begun := by simp [StrategyState.find?, StrategyState.initial]
  distinct := List.nodup_nil
  known := by simp [StrategyState.initial]

theorem coherent_foldl {names : List TypeName} {state : StrategyState} (h : s.Coherent state)
    (hopen : ∀ name, ¬ state.IsOpen name) {later : StrategyState}
    (hlater : names.foldl (fun state name => (s.strategy state name).2) state = later) :
    s.Coherent later ∧ state.Extends later ∧
      ∀ name ∈ names, name ∈ s.graph.names → name ∈ later.begun := by
  induction names generalizing state with
  | nil =>
    obtain rfl : state = later := hlater
    exact ⟨h, .refl state, by simp⟩
  | cons name names ih =>
    rw [List.foldl_cons] at hlater
    have hsize : s.graph.names.length = s.graph.nodes.size := by simp [TypeGraph.names]
    obtain ⟨hfirst, hextends, hbegun⟩ := s.choosesWell (s.graph.nodes.size + 1) state name h
      (fun other hother => (hopen other hother).elim) (by omega)
    obtain ⟨hlast, hextends', hrest⟩ :=
      ih hfirst (fun other hother => hopen other ((hextends.isOpen_iff other).mp hother)) hlater
    refine ⟨hlast, hextends.trans hextends', fun other hother hin => ?_⟩
    rcases List.mem_cons.mp hother with rfl | hother
    · exact hextends'.begun _ (hbegun hin)
    · exact hrest other hother hin

/-- In the end the choices are a trace that has a strategy for each node. -/
theorem finalState_complete (s : StrategySetting) : s.Trace s.finalState.chosen ∧
    ∀ name ∈ s.graph.names, s.finalState.find? name = some (s.strategyAt name) := by
  obtain ⟨hfinal, hextends, hbegun⟩ :=
    coherent_foldl s.coherent_initial StrategyState.not_isOpen_initial (rfl : _ = s.finalState)
  refine ⟨hfinal.trace, fun name hname => ?_⟩
  cases hfind : s.finalState.find? name with
  | none =>
    have hopen := (hextends.isOpen_iff name).mp ⟨hbegun name hname hname, hfind⟩
    exact (StrategyState.not_isOpen_initial name hopen).elim
  | some strategy => rw [strategyAt, hfind, Option.getD_some]

/-! ### Types without formatter -/

/-- The types that should get no formatter: those whose full strategy is none, and those with a part
that should get none. -/
inductive Unresolvable (s : StrategySetting) : TypeName → Prop
  | self {name : TypeName} {node : Node} (hnode : s.graph.node? name = some node)
      (hfull : s.fullStrategy node = .unresolved) : Unresolvable s name
  | part {name part : TypeName} {node : Node} (hnode : s.graph.node? name = some node)
      (hpart : part ∈ s.parts node) (hunresolvable : Unresolvable s part) : Unresolvable s name

/-- The choices that were made before that for a type. -/
def chosenBefore (chosen : List (TypeName × Strategy)) (name : TypeName) :
    List (TypeName × Strategy) :=
  (chosen.dropWhile (·.1 != name)).tail

/-- The types whose strategy is chosen before it is known that they should get none: each of their
parts that should get none is chosen later, or is chosen too early itself. -/
inductive TooEarly (s : StrategySetting) (chosen : List (TypeName × Strategy)) : TypeName → Prop
  | intro {name : TypeName} {node : Node} (hnode : s.graph.node? name = some node)
      (hfull : s.fullStrategy node ≠ .unresolved)
      (hparts : ∀ part ∈ s.parts node, s.Unresolvable part →
        ((chosenBefore chosen name).lookup part).isSome = true → TooEarly s chosen part) :
      TooEarly s chosen name

/-- The types that should get no formatter because of themselves, or because of a part that is such
a type and does not lead back to them. -/
inductive FirmlyUnresolvable (s : StrategySetting) : TypeName → Prop
  | self {name : TypeName} {node : Node} (hnode : s.graph.node? name = some node)
      (hfull : s.fullStrategy node = .unresolved) : FirmlyUnresolvable s name
  | part {name part : TypeName} {node : Node} (hnode : s.graph.node? name = some node)
      (hpart : part ∈ s.parts node) (hback : ¬ s.LeadsTo part name)
      (hfirm : FirmlyUnresolvable s part) : FirmlyUnresolvable s name

theorem FirmlyUnresolvable.unresolvable {name : TypeName} (h : s.FirmlyUnresolvable name) :
    s.Unresolvable name := by
  induction h with
  | self hnode hfull => exact .self hnode hfull
  | part hnode hpart _ _ ih => exact .part hnode hpart ih

/-- Where no type comes back to itself, a type that should get no formatter firmly gets none. -/
theorem Unresolvable.firmly {name : TypeName} (h : s.Unresolvable name)
    (hacyclic : ∀ other part, s.LeadsTo name other → s.HasPart other part →
      ¬ s.LeadsTo part other) : s.FirmlyUnresolvable name := by
  induction h with
  | self hnode hfull => exact .self hnode hfull
  | @part name part node hnode hpart _ ih =>
    have hfirst : s.HasPart name part := ⟨node, hnode, hpart⟩
    exact .part hnode hpart (hacyclic name part .refl hfirst)
      (ih fun other next hleads => hacyclic other next (.head hfirst hleads))

section

variable {chosen : List (TypeName × Strategy)} {name part : TypeName} {strategy : Strategy}

theorem chosenBefore_cons (entry : TypeName × Strategy) (older : List (TypeName × Strategy))
    (name : TypeName) : chosenBefore (entry :: older) name =
      if entry.1 = name then older else chosenBefore older name := by
  rw [chosenBefore, List.dropWhile_cons]
  by_cases heq : entry.1 = name
  · simp [heq]
  · rw [if_neg heq, if_pos (by simpa using heq), chosenBefore]

/-- A strategy that is chosen has a reason in the choices before it. -/
theorem Trace.justified (h : s.Trace chosen) (hchosen : chosen.lookup name = some strategy) :
    s.Justified (chosenBefore chosen name) name strategy := by
  induction h with
  | nil => simp at hchosen
  | cons hnew hreason _ ih =>
    rw [lookup_cons_eq] at hchosen
    rw [chosenBefore_cons]
    split at hchosen
    · rename_i heq
      obtain rfl := Option.some.inj hchosen
      rw [if_pos heq]
      exact heq ▸ hreason
    · rename_i hne
      rw [if_neg hne]
      exact ih hchosen

theorem length_chosenBefore_lt (hchosen : chosen.lookup name = some strategy) :
    (chosenBefore chosen name).length < chosen.length := by
  induction chosen with
  | nil => simp at hchosen
  | cons entry older ih =>
    rw [lookup_cons_eq] at hchosen
    rw [chosenBefore_cons, List.length_cons]
    split at hchosen
    · rename_i heq
      simp [heq]
    · rename_i hne
      rw [if_neg hne]
      exact Nat.lt_succ_of_lt (ih hchosen)

/-- A choice that was made before another one is still there, and fewer were made before it. -/
theorem Trace.lookup_of_chosenBefore (h : s.Trace chosen)
    (hbefore : (chosenBefore chosen name).lookup part = some strategy) :
    chosen.lookup part = some strategy ∧
      (chosenBefore chosen part).length < (chosenBefore chosen name).length := by
  induction h with
  | nil => simp [chosenBefore] at hbefore
  | @cons first _ older hnew _ _ ih =>
    rw [chosenBefore_cons] at hbefore ⊢
    rw [chosenBefore_cons, lookup_cons_eq]
    by_cases heq : first = name
    · rw [if_pos heq] at hbefore ⊢
      have hne : first ≠ part := by
        rintro rfl
        rw [hnew] at hbefore
        simp at hbefore
      rw [if_neg hne, if_neg hne]
      exact ⟨hbefore, length_chosenBefore_lt hbefore⟩
    · rw [if_neg heq] at hbefore ⊢
      obtain ⟨hlookup, hlength⟩ := ih hbefore
      have hne : first ≠ part := by
        rintro rfl
        rw [hnew] at hlookup
        simp at hlookup
      rw [if_neg hne, if_neg hne]
      exact ⟨hlookup, hlength⟩

/-- A type for which no strategy is chosen should get none. -/
theorem Trace.unresolvable (h : s.Trace chosen) (hchosen : chosen.lookup name = some .unresolved) :
    s.Unresolvable name := by
  induction h generalizing name with
  | nil => simp at hchosen
  | cons hnew hreason _ ih =>
    rw [lookup_cons_eq] at hchosen
    split at hchosen
    · rename_i heq
      obtain rfl := heq
      rw [Option.some.injEq] at hchosen
      cases hreason with
      | unresolved hnode hpart hunresolved => exact .part hnode hpart (ih hunresolved)
      | full hnode _ _ => exact .self hnode hchosen
    · exact ih hchosen

/-- A type that gets a strategy, though it should get none, gets it too early. -/
theorem Trace.tooEarly (h : s.Trace chosen) (hchosen : chosen.lookup name = some strategy)
    (hsome : strategy ≠ .unresolved) : s.TooEarly chosen name := by
  -- The induction is on the number of choices before that for the type.
  induction hlength : (chosenBefore chosen name).length using Nat.strong_induction_on
    generalizing name strategy with
  | _ length ih =>
    subst hlength
    cases h.justified hchosen with
    | unresolved _ _ _ => exact (hsome rfl).elim
    | full hnode hparts _ =>
      refine .intro hnode hsome fun part hpart _ hbefore => ?_
      obtain ⟨strategy', hstrategy'⟩ := Option.isSome_iff_exists.mp hbefore
      obtain ⟨hlookup, hshorter⟩ := h.lookup_of_chosenBefore hstrategy'
      refine ih _ hshorter hlookup (fun hunresolved => hparts part hpart ?_) rfl
      rw [hstrategy', hunresolved]

/-- A type that is chosen too early gets a strategy. -/
theorem TooEarly.ne_unresolved (h : s.Trace chosen) (hearly : s.TooEarly chosen name)
    (hchosen : chosen.lookup name = some strategy) : strategy ≠ .unresolved := by
  induction hearly generalizing strategy with
  | @intro name node hnode hfull _ ih =>
    cases h.justified hchosen with
    | @unresolved node' part hnode' hpart hunresolved =>
      obtain rfl : node = node' := by rw [hnode] at hnode'; exact Option.some.inj hnode'
      have hlookup := (h.lookup_of_chosenBefore hunresolved).1
      exact (ih part hpart (h.unresolvable hlookup) (by rw [hunresolved]; rfl) hlookup rfl).elim
    | @full node' hnode' _ _ =>
      obtain rfl : node = node' := by rw [hnode] at hnode'; exact Option.some.inj hnode'
      exact hfull

theorem Trace.eq_fullStrategy (h : s.Trace chosen) (hchosen : chosen.lookup name = some strategy)
    (hsome : strategy ≠ .unresolved) {node : Node} (hnode : s.graph.node? name = some node) :
    strategy = s.fullStrategy node := by
  cases h.justified hchosen with
  | unresolved _ _ _ => exact (hsome rfl).elim
  | @full node' hnode' _ _ =>
    obtain rfl : node = node' := by rw [hnode] at hnode'; exact Option.some.inj hnode'
    rfl

end

/-- A type gets no strategy when it should get none and is not chosen too early. -/
theorem strategyAt_eq_unresolved_iff {name : TypeName} (h : name ∈ s.graph.names) :
    s.strategyAt name = .unresolved ↔
      s.Unresolvable name ∧ ¬ s.TooEarly s.finalState.chosen name := by
  obtain ⟨htrace, hchosen⟩ := s.finalState_complete
  have hlookup : s.finalState.chosen.lookup name = some (s.strategyAt name) := hchosen name h
  constructor
  · intro hnone
    exact ⟨htrace.unresolvable (hnone ▸ hlookup),
      fun hearly => hearly.ne_unresolved htrace hlookup hnone⟩
  · rintro ⟨-, hnot⟩
    by_contra hsome
    exact hnot (htrace.tooEarly hlookup hsome)

/-- A type that gets a strategy gets its full one. -/
theorem strategyAt_eq_fullStrategy {name : TypeName} {node : Node}
    (hnode : s.graph.node? name = some node) (hsome : s.strategyAt name ≠ .unresolved) :
    s.strategyAt name = s.fullStrategy node := by
  obtain ⟨htrace, hchosen⟩ := s.finalState_complete
  exact htrace.eq_fullStrategy (hchosen name (TypeGraph.mem_names_of_node? hnode)) hsome hnode

theorem strategyAt_of_parts_eq_nil {name : TypeName} {node : Node}
    (hnode : s.graph.node? name = some node) (hparts : s.parts node = []) :
    s.strategyAt name = s.fullStrategy node := by
  by_contra hne
  have hnone : s.strategyAt name = .unresolved := by
    by_contra hsome
    exact hne (strategyAt_eq_fullStrategy hnode hsome)
  have hname := TypeGraph.mem_names_of_node? hnode
  cases ((strategyAt_eq_unresolved_iff hname).mp hnone).1 with
  | self hnode' hfull =>
    rw [hnode] at hnode'
    obtain rfl := Option.some.inj hnode'
    exact hne (hnone.trans hfull.symm)
  | part hnode' hpart _ =>
    rw [hnode] at hnode'
    obtain rfl := Option.some.inj hnode'
    simp [hparts] at hpart

/-- A type that should firmly get no strategy gets none, in whatever order strategies are chosen. -/
theorem FirmlyUnresolvable.strategyAt_eq {name : TypeName} (h : s.FirmlyUnresolvable name) :
    s.strategyAt name = .unresolved := by
  obtain ⟨htrace, hchosen⟩ := s.finalState_complete
  induction h with
  | self hnode hfull =>
    by_contra hsome
    exact hsome ((strategyAt_eq_fullStrategy hnode hsome).trans hfull)
  | @part name part node hnode hpart hback hfirm ih =>
    by_contra hsome
    have hlookup := hchosen name (TypeGraph.mem_names_of_node? hnode)
    have hreason := htrace.justified hlookup
    generalize s.strategyAt name = strategy at hsome hreason
    cases hreason with
    | unresolved _ _ _ => exact hsome rfl
    | @full node' hnode' hparts hopen =>
      obtain rfl : node = node' := by rw [hnode] at hnode'; exact Option.some.inj hnode'
      have hin : part ∈ s.graph.names := by
        cases hfirm with
        | self hnode _ => exact TypeGraph.mem_names_of_node? hnode
        | part hnode _ _ _ => exact TypeGraph.mem_names_of_node? hnode
      -- A part that is not chosen before is open, so it leads back, which `hback` rules out.
      cases hbefore : (chosenBefore s.finalState.chosen name).lookup part with
      | none => exact hback (hopen part hpart hin hbefore)
      | some strategy' =>
        have hpartChosen := (htrace.lookup_of_chosenBefore hbefore).1
        have hsame : some strategy' = some (s.strategyAt part) := by
          rw [← hpartChosen]; exact hchosen part hin
        rw [hsame, ih] at hbefore
        exact hparts part hpart hbefore

end StrategySetting

end FormatterPlan
