import FormatterPlan.Proofs.RootAgreement

/-! Questions for strategies, one after the other.  `Chooses` is the choice for a type as it recurs,
with no bound on its depth: in a collected graph it ends, however the types refer to each other, for
each type whose choice begins is one fewer left.  Between two questions no choice is going on, and a
strategy that is chosen stays, so an answer does not change, and in the end each node has one. -/

namespace FormatterPlan

namespace StrategySetting

mutual

/-- The choice for a type, from one state to another.  Nothing is chosen for a type that has a
strategy or whose choice is going on; for another one the parts are gone through first. -/
inductive Chooses (s : StrategySetting) : StrategyState → TypeName → StrategyState → Prop
  | known {state : StrategyState} {name : TypeName}
      (hknown : (state.find? name).isSome = true ∨ state.IsOpen name) :
      Chooses s state name state
  | choose {state later : StrategyState} {name : TypeName} {node : Node} {found : Bool}
      (hunchosen : state.find? name = none) (hidle : ¬ state.IsOpen name)
      (hnode : s.graph.node? name = some node)
      (hparts : Scans s { state with begun := name :: state.begun } (s.parts node) found later) :
      Chooses s state name
        { later with
          chosen := (name, if found = true then .unresolved else s.fullStrategy node) ::
            later.chosen }

/-- Going through types, with a choice for each, until one is found that has no formatter. -/
inductive Scans (s : StrategySetting) :
    StrategyState → List TypeName → Bool → StrategyState → Prop
  | nil {state : StrategyState} : Scans s state [] false state
  | found {state later : StrategyState} {name : TypeName} {rest : List TypeName}
      (hchoice : Chooses s state name later) (hunresolved : later.find? name = some .unresolved) :
      Scans s state (name :: rest) true later
  | next {state middle later : StrategyState} {name : TypeName} {rest : List TypeName}
      {found : Bool} (hchoice : Chooses s state name middle)
      (hresolved : middle.find? name ≠ some .unresolved) (hrest : Scans s middle rest found later) :
      Scans s state (name :: rest) found later

end

/-- The state after questions for types in turn. -/
def stateAfter (s : StrategySetting) (calls : List TypeName) : StrategyState :=
  calls.foldl (fun state name => (s.strategy state name).2) .initial

/-- What is true after questions for types in turn, and of what is asked then. -/
structure AnswersStably (s : StrategySetting) (calls : List TypeName) : Prop where
  /-- The next question comes to an end. -/
  ends : ∀ name ∈ s.graph.names,
    s.Chooses (s.stateAfter calls) name (s.stateAfter (calls ++ [name]))
  idle : ∀ name, ¬ (s.stateAfter calls).IsOpen name
  /-- An answer is a strategy that has been chosen. -/
  answered : ∀ name ∈ s.graph.names,
    (s.stateAfter (calls ++ [name])).find? name = some (s.strategy (s.stateAfter calls) name).1
  kept : ∀ more name strategy, (s.stateAfter calls).find? name = some strategy →
    (s.stateAfter (calls ++ more)).find? name = some strategy
  repeated : ∀ name ∈ s.graph.names, ∀ more,
    (s.strategy (s.stateAfter (calls ++ name :: more)) name).1 =
      (s.strategy (s.stateAfter calls) name).1
  /-- When all strategies are asked for, each node has one. -/
  all : List.Forall₂
    (fun name strategy => (s.stateAfter (calls ++ s.graph.names)).find? name = some strategy)
    s.graph.names (s.strategies (s.stateAfter calls))

variable {s : StrategySetting} {state later : StrategyState} {name : TypeName}

/-! ### The choice ends -/

theorem Coherent.mem_begun_iff (h : s.Coherent state) :
    name ∈ state.begun ↔ (state.find? name).isSome = true ∨ state.IsOpen name := by
  constructor
  · intro hbegun
    cases hfind : state.find? name with
    | none => exact .inr ⟨hbegun, hfind⟩
    | some strategy => exact .inl rfl
  · rintro (hsome | hopen)
    · obtain ⟨strategy, hstrategy⟩ := Option.isSome_iff_exists.mp hsome
      exact h.begun name strategy hstrategy
    · exact hopen.1

/-- Whether the choices down to a depth are those that recur without a bound. -/
def ChoosesAt (s : StrategySetting) (depth : Nat) : Prop :=
  ∀ state name, s.Coherent state → (∀ other, state.IsOpen other → s.LeadsTo other name) →
    s.graph.names.length < depth + state.begun.length → name ∈ s.graph.names →
    s.Chooses state name (s.choose depth state name)

theorem ChoosesAt.scans {depth : Nat} (hchoose : s.ChoosesAt depth) {owner : TypeName}
    {rest : List TypeName} (hrest : ∀ part ∈ rest, s.HasPart owner part)
    (hnames : ∀ part ∈ rest, part ∈ s.graph.names) (hstate : s.Coherent state)
    (hopen : ∀ other, state.IsOpen other → s.LeadsTo other owner)
    (hdepth : s.graph.names.length < depth + state.begun.length) :
    s.Scans state rest (findUnresolved (s.choose depth) state rest).1
      (findUnresolved (s.choose depth) state rest).2 := by
  induction rest generalizing state with
  | nil => exact .nil
  | cons part rest ih =>
    have hleads : ∀ other, state.IsOpen other → s.LeadsTo other part :=
      fun other hother => (hopen other hother).tail (hrest part List.mem_cons_self)
    have hfirst := hchoose state part hstate hleads hdepth (hnames part List.mem_cons_self)
    obtain ⟨hmiddle, hextends, -⟩ := s.choosesWell depth state part hstate hleads hdepth
    have hlonger := hstate.distinct.length_le_of_subset hextends.begun
    rw [findUnresolved]
    by_cases hunresolved : (s.choose depth state part).find? part = some .unresolved
    · rw [if_pos hunresolved]
      exact .found hfirst hunresolved
    · rw [if_neg hunresolved]
      exact .next hfirst hunresolved (ih
        (fun other hother => hrest other (List.mem_cons_of_mem _ hother))
        (fun other hother => hnames other (List.mem_cons_of_mem _ hother)) hmiddle
        (fun other hother => hopen other ((hextends.isOpen_iff other).mp hother)) (by omega))

/-- Of the types whose choice begins there are no more than nodes, so no depth runs out. -/
theorem choosesAt (hnames : ∀ name part, s.HasPart name part → part ∈ s.graph.names)
    (depth : Nat) : s.ChoosesAt depth := by
  induction depth with
  | zero =>
    intro state name hstate _ hdepth _
    have hlength := hstate.length_begun_le
    omega
  | succ depth ih =>
    intro state name hstate hopen hdepth hname
    rw [StrategySetting.choose]
    by_cases hbegun : name ∈ state.begun
    · rw [if_pos (List.contains_iff_mem.mpr hbegun)]
      exact .known (hstate.mem_begun_iff.mp hbegun)
    rw [if_neg (by simpa using hbegun)]
    obtain ⟨hunchosen, hidle⟩ := not_or.mp (mt hstate.mem_begun_iff.mpr hbegun)
    obtain ⟨node, hnode⟩ := TypeGraph.exists_node?_of_mem_names hname
    have hpart : ∀ part ∈ s.parts node, s.HasPart name part :=
      fun part hpart => ⟨node, hnode, hpart⟩
    have hscans := ih.scans hpart (fun part h => hnames name part (hpart part h))
      (hstate.begin hbegun hname)
      (fun other hother => ((hstate.isOpen_begin_iff hbegun other).mp hother).elim
        (fun heq => heq ▸ .refl) (hopen other)) (by rw [List.length_cons]; omega)
    rw [hnode]
    dsimp only
    rw [strategyOf_eq]
    exact .choose (Option.not_isSome_iff_eq_none.mp hunchosen) hidle hnode hscans

/-! ### Strategies stay -/

/-- A choice leaves the strategies that have been chosen, also while it is going on: each choice
inside it is a choice as well. -/
theorem Chooses.kept (h : s.Chooses state name later) {other : TypeName} {strategy : Strategy}
    (hother : state.find? other = some strategy) : later.find? other = some strategy := by
  revert hother
  refine @Chooses.rec s
    (fun state _ later _ => state.find? other = some strategy → later.find? other = some strategy)
    (fun state _ _ later _ => state.find? other = some strategy → later.find? other = some strategy)
    ?known ?choose ?nil ?found ?next state name later h
  case known => exact fun _ hother => hother
  case choose =>
    intro state later name node found hunchosen _ _ _ ih hother
    have hne : name ≠ other := by
      rintro rfl
      rw [hunchosen] at hother
      simp at hother
    rw [find?_cons, if_neg hne]
    exact ih hother
  case nil => exact fun hother => hother
  case found => exact fun _ _ ih => ih
  case next => exact fun _ _ _ ih ihRest hother => ihRest (ih hother)

/-! ### Questions in turn -/

theorem stateAfter_append (calls more : List TypeName) :
    s.stateAfter (calls ++ more) =
      more.foldl (fun state name => (s.strategy state name).2) (s.stateAfter calls) :=
  List.foldl_append

/-- Between questions the state is coherent, and no choice is going on. -/
theorem idle_stateAfter (s : StrategySetting) (calls : List TypeName) :
    s.Coherent (s.stateAfter calls) ∧ ∀ name, ¬ (s.stateAfter calls).IsOpen name := by
  obtain ⟨hstate, hextends, -⟩ := coherent_foldl s.coherent_initial
    StrategyState.not_isOpen_initial (rfl : _ = s.stateAfter calls)
  exact ⟨hstate, fun name hopen =>
    StrategyState.not_isOpen_initial name ((hextends.isOpen_iff name).mp hopen)⟩

theorem kept_stateAfter (calls more : List TypeName) {strategy : Strategy}
    (h : (s.stateAfter calls).find? name = some strategy) :
    (s.stateAfter (calls ++ more)).find? name = some strategy := by
  obtain ⟨hstate, hidle⟩ := s.idle_stateAfter calls
  obtain ⟨-, hextends, -⟩ := coherent_foldl hstate hidle (stateAfter_append calls more).symm
  exact hextends.kept name strategy h

/-- After a question for a node its strategy has been chosen. -/
theorem exists_find?_stateAfter (calls : List TypeName) {more : List TypeName} (hmore : name ∈ more)
    (hname : name ∈ s.graph.names) :
    ∃ strategy, (s.stateAfter (calls ++ more)).find? name = some strategy := by
  obtain ⟨hstate, hidle⟩ := s.idle_stateAfter calls
  obtain ⟨-, -, hbegun⟩ := coherent_foldl hstate hidle (stateAfter_append calls more).symm
  cases hfind : (s.stateAfter (calls ++ more)).find? name with
  | none =>
    exact ((s.idle_stateAfter (calls ++ more)).2 name ⟨hbegun name hmore hname, hfind⟩).elim
  | some strategy => exact ⟨strategy, rfl⟩

theorem find?_stateAfter_concat (calls : List TypeName) (hname : name ∈ s.graph.names) :
    (s.stateAfter (calls ++ [name])).find? name =
      some (s.strategy (s.stateAfter calls) name).1 := by
  obtain ⟨strategy, hfind⟩ := exists_find?_stateAfter calls (List.mem_singleton_self name) hname
  have hanswer : (s.strategy (s.stateAfter calls) name).1 =
      ((s.stateAfter (calls ++ [name])).find? name).getD .unresolved := by
    rw [stateAfter_append]
    rfl
  rw [hanswer, hfind, Option.getD_some]

/-- Questions are answered stably where all parts of nodes are nodes. -/
theorem answersStably (hnames : ∀ name part, s.HasPart name part → part ∈ s.graph.names)
    (calls : List TypeName) : s.AnswersStably calls := by
  obtain ⟨hstate, hidle⟩ := s.idle_stateAfter calls
  constructor
  case ends =>
    intro name hname
    have hsize : s.graph.names.length = s.graph.nodes.size := by simp [TypeGraph.names]
    rw [stateAfter_append]
    exact choosesAt hnames (s.graph.nodes.size + 1) _ name hstate
      (fun other hopen => (hidle other hopen).elim) (by omega) hname
  case idle => exact hidle
  case answered => exact fun name hname => find?_stateAfter_concat calls hname
  case kept => exact fun more name strategy h => kept_stateAfter calls more h
  case repeated =>
    intro name hname more
    have hfirst := kept_stateAfter _ (more ++ [name]) (find?_stateAfter_concat calls hname)
    have hagain := find?_stateAfter_concat (calls ++ name :: more) hname
    rw [List.append_assoc, List.singleton_append] at hfirst
    rw [List.append_assoc, List.cons_append, hfirst] at hagain
    exact (Option.some.inj hagain).symm
  case all =>
    have hstrategies : s.strategies (s.stateAfter calls) = s.graph.names.map fun name =>
        ((s.stateAfter (calls ++ s.graph.names)).find? name).getD .unresolved := by
      rw [stateAfter_append]
      rfl
    rw [hstrategies, List.forall₂_map_right_iff, List.forall₂_same]
    intro name hname
    obtain ⟨strategy, hfind⟩ := exists_find?_stateAfter calls hname hname
    rw [hfind, Option.getD_some]

end StrategySetting

namespace Setting

/-- In the graph of a root of a loaded assembly, whatever types are blocked, questions for
strategies are answered stably, and no choice changes a strategy that has been chosen. -/
theorem answersStably_of_graphOf {s : Setting} {documents : List Document}
    (hload : Assembly.load documents = .ok s.assembly) {control : RunControl} {root : Symbol}
    (hroot : root.index < s.assembly.defs.size) {graph : TypeGraph}
    (hgraph : s.graphOf control root = .ok graph) (verdict : Verdict) (mapMode : Bool) :
    (∀ calls, (⟨graph, verdict, mapMode⟩ : StrategySetting).AnswersStably calls) ∧
      ∀ state name later, (⟨graph, verdict, mapMode⟩ : StrategySetting).Chooses state name later →
        ∀ other strategy, state.find? other = some strategy →
          later.find? other = some strategy := by
  have hg := TypeGraph.complete_of_graphOf (Assembly.wellFormed_of_load hload) hroot hgraph
  refine ⟨StrategySetting.answersStably ?_, fun _ _ _ h _ _ => h.kept⟩
  rintro name part ⟨node, hnode, hpart⟩
  rw [StrategySetting.parts] at hpart
  split at hpart
  · simp at hpart
  · have hmem := ((TypeGraph.node?_eq_some_iff hg.distinct).mp hnode).1
    exact hg.mem_names_of_mem_passedOn hmem hpart

/-- Of two unions that refer to each other the second has no formatter when it is asked for before
the first, and none when it is asked for again after it. -/
theorem strategy_second_again :
    Assembly.load [mutualDocument] = .ok mutualSetting.assembly ∧
      96 < mutualSetting.assembly.defs.size ∧
      mutualSetting.graphOf {} ⟨96⟩ = .ok (mutualGraph ⟨96⟩ ⟨97⟩) ∧
      ((mutualChoices (mutualGraph ⟨96⟩ ⟨97⟩)).strategy
        ((mutualChoices (mutualGraph ⟨96⟩ ⟨97⟩)).stateAfter
          [.named "App.Second" [], .named "App.First" []])
        (.named "App.Second" [])).1 = .unresolved := by
  have hsize : 96 < mutualSetting.assembly.defs.size := by decide +kernel
  have hgraph : mutualSetting.graphOf {} ⟨96⟩ = .ok (mutualGraph ⟨96⟩ ⟨97⟩) :=
    TypeGraph.graphOf_eq_ok rfl (by decide +kernel)
  have hstable : (mutualChoices (mutualGraph ⟨96⟩ ⟨97⟩)).AnswersStably [] :=
    (answersStably_of_graphOf loads_mutualDocument.1 hsize hgraph _ false).1 []
  have hfirst : ((mutualChoices (mutualGraph ⟨96⟩ ⟨97⟩)).strategy .initial
      (.named "App.Second" [])).1 = .unresolved := by decide +kernel
  exact ⟨loads_mutualDocument.1, hsize, hgraph,
    (hstable.repeated _ (by decide +kernel) [.named "App.First" []]).trans hfirst⟩

end Setting

end FormatterPlan
