import FormatterPlan.Proofs.RootAgreement

/-! The search for a blocked type through collections and unions.  `Search` is the search as it
recurs: it goes through the parts of a type before the types after it, with one list of the types
seen so far, and ends when it finds a blocked type.  In a collected graph it always ends, however
the types refer to each other, and it finds a blocked type exactly when there is one on the way. -/

namespace FormatterPlan

namespace TypeGraph

/-- Whether the search goes on from a type: it has not been seen and names no formatter. -/
def Enters (graph : TypeGraph) (seen : List TypeName) (name : TypeName) : Prop :=
  name ∉ seen ∧ ∃ node, graph.node? name = some node ∧ node.formatter = none

/-- Whether the search does not go on from a type. -/
def Stops (graph : TypeGraph) (seen : List TypeName) (name : TypeName) : Prop :=
  name ∈ seen ∨ ∃ node, graph.node? name = some node ∧ node.formatter ≠ none

/-- The search for a blocked type from `pending` types in turn, when those in `seen` have been seen:
what it finds, and the types seen in the end. -/
inductive Search (graph : TypeGraph) (blocked : List TypeName) :
    (seen pending : List TypeName) → Option TypeName → (later : List TypeName) → Prop
  | nothing {seen : List TypeName} : Search graph blocked seen [] none seen
  | target {seen rest : List TypeName} {name : TypeName} (hblocked : name ∈ blocked) :
      Search graph blocked seen (name :: rest) (some name) seen
  | stop {seen rest later : List TypeName} {name : TypeName} {result : Option TypeName}
      (hsound : name ∉ blocked) (hstop : graph.Stops seen name)
      (hrest : Search graph blocked seen rest result later) :
      Search graph blocked seen (name :: rest) result later
  | found {seen rest later : List TypeName} {name target : TypeName} (hsound : name ∉ blocked)
      (henter : graph.Enters seen name)
      (hparts : Search graph blocked (name :: seen) (graph.nextOf name) (some target) later) :
      Search graph blocked seen (name :: rest) (some target) later
  | pass {seen rest middle later : List TypeName} {name : TypeName} {result : Option TypeName}
      (hsound : name ∉ blocked) (henter : graph.Enters seen name)
      (hparts : Search graph blocked (name :: seen) (graph.nextOf name) none middle)
      (hrest : Search graph blocked middle rest result later) :
      Search graph blocked seen (name :: rest) result later

variable {graph : TypeGraph} {blocked unvisited seen pending : List TypeName} {name : TypeName}

/-- Whether the types that are left to visit are, of those without a formatter of their own, the
ones that have not been seen. -/
structure Unseen (graph : TypeGraph) (unvisited seen : List TypeName) : Prop where
  distinct : unvisited.Nodup
  mem_iff : ∀ name node, graph.node? name = some node → node.formatter = none →
    (name ∈ unvisited ↔ name ∉ seen)

theorem Unseen.enter (h : graph.Unseen unvisited seen) :
    graph.Unseen (unvisited.erase name) (name :: seen) where
  distinct := h.distinct.erase name
  mem_iff other node hnode hformatter := by
    rw [h.distinct.mem_erase_iff, h.mem_iff other node hnode hformatter, List.mem_cons, not_or]

/-- Leaving out a type that names a formatter. -/
theorem Unseen.skip (h : graph.Unseen unvisited seen) {node : Node}
    (hnode : graph.node? name = some node) (hformatter : node.formatter ≠ none) :
    graph.Unseen (unvisited.erase name) seen where
  distinct := h.distinct.erase name
  mem_iff other node' hnode' hformatter' := by
    have hne : other ≠ name := by
      rintro rfl
      rw [hnode] at hnode'
      exact hformatter (Option.some.inj hnode' ▸ hformatter')
    rw [List.mem_erase_of_ne hne, h.mem_iff other node' hnode' hformatter']

theorem nextOf_subset_names {s : Setting} (hg : Complete s graph) :
    ∀ part ∈ graph.nextOf name, part ∈ graph.names := by
  intro part hpart
  obtain ⟨node, hnode, -, hpart⟩ := mem_nextOf_iff.mp hpart
  exact hg.mem_names_of_mem_passedOn ((node?_eq_some_iff hg.distinct).mp hnode).1 hpart

/-- The search ends and, with further types after those it starts from, the function that computes
it has found the same type, or it goes on to them from no more unvisited types. -/
structure Ends (graph : TypeGraph) (blocked unvisited seen pending : List TypeName)
    (result : Option TypeName) (later : List TypeName) : Prop where
  search : graph.Search blocked seen pending result later
  found : ∀ target ∈ result, ∀ rest,
    graph.blockedTarget blocked unvisited (pending ++ rest) = some target
  nothing : result = none → ∃ left, graph.Unseen left later ∧ left.length ≤ unvisited.length ∧
    ∀ rest, graph.blockedTarget blocked unvisited (pending ++ rest) =
      graph.blockedTarget blocked left rest

section

variable {left later : List TypeName} {result : Option TypeName}

/-- The search from one more type, when it comes to the search from those after it. -/
theorem Ends.cons {middle : List TypeName}
    (h : graph.Ends blocked left middle pending result later)
    (hsearch : graph.Search blocked seen (name :: pending) result later)
    (hle : left.length ≤ unvisited.length)
    (hstep : ∀ rest, graph.blockedTarget blocked unvisited (name :: rest) =
      graph.blockedTarget blocked left rest) :
    graph.Ends blocked unvisited seen (name :: pending) result later where
  search := hsearch
  found target htarget rest := (hstep _).trans (h.found target htarget rest)
  nothing hnone := by
    obtain ⟨last, hlast, hlength, heq⟩ := h.nothing hnone
    exact ⟨last, hlast, hlength.trans hle, fun rest => (hstep _).trans (heq rest)⟩

/-- A type whose parts lead to a blocked type. -/
theorem Ends.enter {target : TypeName}
    (h : graph.Ends blocked (unvisited.erase name) (name :: seen) (graph.nextOf name) (some target)
      later)
    (hsound : name ∉ blocked) (henter : graph.Enters seen name)
    (hstep : ∀ rest, graph.blockedTarget blocked unvisited (name :: rest) =
      graph.blockedTarget blocked (unvisited.erase name) (graph.nextOf name ++ rest)) :
    graph.Ends blocked unvisited seen (name :: pending) (some target) later where
  search := .found hsound henter h.search
  found found hfound rest := (hstep _).trans (h.found found hfound _)
  nothing hnone := by simp at hnone

end

/-- The search ends, from any types of the graph. -/
theorem exists_ends {s : Setting} (hg : Complete s graph) (hunseen : graph.Unseen unvisited seen)
    (hpending : ∀ name ∈ pending, name ∈ graph.names) :
    ∃ result later, graph.Ends blocked unvisited seen pending result later := by
  -- Each type that is entered is unvisited no longer, and all others are dropped from `pending`.
  induction hlength : unvisited.length using Nat.strong_induction_on
    generalizing unvisited seen pending with
  | _ length ih =>
    subst hlength
    induction pending with
    | nil =>
      exact ⟨none, seen, .nothing, by simp, fun _ => ⟨unvisited, hunseen, le_rfl, fun _ => rfl⟩⟩
    | cons name pending ihPending =>
      have hrest : ∀ other ∈ pending, other ∈ graph.names :=
        fun other hother => hpending other (List.mem_cons_of_mem _ hother)
      obtain ⟨node, hnode⟩ := exists_node?_of_mem_names (hpending name List.mem_cons_self)
      by_cases hblocked : name ∈ blocked
      · refine ⟨some name, seen, .target hblocked, fun target htarget rest => ?_, by simp⟩
        rw [List.cons_append, blockedTarget_cons, if_pos (List.contains_iff_mem.mpr hblocked)]
        exact htarget
      have hstep : ∀ rest, graph.blockedTarget blocked unvisited (name :: rest) =
          if name ∈ unvisited then
            graph.blockedTarget blocked (unvisited.erase name) (graph.nextOf name ++ rest)
          else graph.blockedTarget blocked unvisited rest := fun rest => by
        rw [blockedTarget_cons, if_neg (by simpa using hblocked)]
      by_cases hnew : name ∈ unvisited
      · have hshorter := List.length_erase_of_mem hnew
        have hpositive := List.length_pos_of_mem hnew
        simp only [if_pos hnew] at hstep
        by_cases hformatter : node.formatter = none
        · have henter : graph.Enters seen name :=
            ⟨(hunseen.mem_iff name node hnode hformatter).mp hnew, node, hnode, hformatter⟩
          obtain ⟨result, middle, hparts⟩ := ih (unvisited.erase name).length (by omega)
            hunseen.enter (nextOf_subset_names hg) rfl
          cases result with
          | some target => exact ⟨some target, middle, hparts.enter hblocked henter hstep⟩
          | none =>
            obtain ⟨left, hleft, hle, heq⟩ := hparts.nothing rfl
            obtain ⟨result, later, hlater⟩ := ih left.length (by omega) hleft hrest rfl
            exact ⟨result, later, hlater.cons
              (.pass hblocked henter hparts.search hlater.search) (by omega)
              fun rest => (hstep rest).trans (heq rest)⟩
        · have hnext : graph.nextOf name = [] := by
            rw [nextOf, hnode]
            exact if_pos (Option.isSome_iff_ne_none.mpr hformatter)
          rw [hnext] at hstep
          obtain ⟨result, later, hlater⟩ := ih (unvisited.erase name).length (by omega)
            (hunseen.skip hnode hformatter) hrest rfl
          have hstop : graph.Stops seen name := .inr ⟨node, hnode, hformatter⟩
          exact ⟨result, later,
            hlater.cons (.stop hblocked hstop hlater.search) (by omega) hstep⟩
      · simp only [if_neg hnew] at hstep
        have hstop : graph.Stops seen name := by
          by_cases hformatter : node.formatter = none
          · exact .inl (not_not.mp (mt (hunseen.mem_iff name node hnode hformatter).mpr hnew))
          · exact .inr ⟨node, hnode, hformatter⟩
        obtain ⟨result, later, hlater⟩ := ihPending hrest
        exact ⟨result, later, hlater.cons (.stop hblocked hstop hlater.search) le_rfl hstep⟩

/-- From a type of the graph the search ends with what `blockedTarget` computes. -/
theorem exists_search {s : Setting} (hg : Complete s graph) (blocked : List TypeName)
    (hname : name ∈ graph.names) :
    ∃ later, graph.Search blocked [] [name] (graph.blockedTarget blocked graph.names [name])
      later := by
  have hunseen : graph.Unseen graph.names [] :=
    ⟨hg.distinct, fun other node hnode _ => iff_of_true (mem_names_of_node? hnode) (by simp)⟩
  have hpending : ∀ start ∈ [name], start ∈ graph.names := by simpa using hname
  obtain ⟨result, later, hends⟩ := exists_ends hg hunseen hpending
  have hresult : graph.blockedTarget blocked graph.names [name] = result := by
    cases result with
    | some target => simpa using hends.found target rfl []
    | none =>
      obtain ⟨left, -, -, heq⟩ := hends.nothing rfl
      simpa [blockedTarget] using heq []
  exact ⟨later, hresult ▸ hends.search⟩

/-! ### What the search finds -/

/-- The search finds a blocked type when the type it starts from leads to one. -/
theorem isSome_blockedTarget_iff : (graph.blockedTarget blocked graph.names [name]).isSome = true ↔
    ∃ target, graph.LeadsToBlocked blocked name target := by
  constructor
  · intro h
    obtain ⟨target, htarget⟩ := Option.isSome_iff_exists.mp h
    obtain ⟨start, hstart, hleads⟩ := blockedTarget_eq_some htarget
    obtain rfl := List.mem_singleton.mp hstart
    exact ⟨target, hleads⟩
  · rintro ⟨target, htarget, hpasses⟩
    refine Option.isSome_iff_ne_none.mpr fun hnone => ?_
    exact blockedTarget_eq_none_iff.mp hnone target
      (.mono (fun _ _ hstep => hstep.2) _ _ hpasses) htarget

/-- When more types are blocked, the search still finds one, if perhaps another one. -/
theorem isSome_blockedTarget_of_subset {more : List TypeName} (hmore : blocked ⊆ more)
    (h : (graph.blockedTarget blocked graph.names [name]).isSome = true) :
    (graph.blockedTarget more graph.names [name]).isSome = true := by
  refine Option.isSome_iff_ne_none.mpr fun hnone => Option.isSome_iff_ne_none.mp h ?_
  refine blockedTarget_eq_none_iff.mpr fun target hpasses htarget => ?_
  exact blockedTarget_eq_none_iff.mp hnone target hpasses (hmore htarget)

theorem mem_names_of_passesOnTo {s : Setting} (hg : Complete s graph) {target : TypeName}
    (hpasses : graph.PassesOnTo name target) (hname : name ∈ graph.names) :
    target ∈ graph.names := by
  cases hpasses with
  | refl => exact hname
  | tail _ hlast => exact nextOf_subset_names hg _ (mem_nextOf_iff.mpr hlast)

/-- In the graph of a root of a loaded assembly the search for a blocked type ends.  It finds one
exactly when the type it starts from leads to one, and then one that it leads to; and it finds one
also when more types are blocked. -/
theorem searchesBlocked_of_graphOf {s : Setting} {documents : List Document}
    (hload : Assembly.load documents = .ok s.assembly) {control : RunControl} {root : Symbol}
    (hroot : root.index < s.assembly.defs.size) (hgraph : s.graphOf control root = .ok graph)
    (blocked : List TypeName) (hname : name ∈ graph.names) :
    (∃ later, graph.Search blocked [] [name] (graph.blockedTarget blocked graph.names [name])
        later) ∧
      ((graph.blockedTarget blocked graph.names [name]).isSome = true ↔
        ∃ target, graph.LeadsToBlocked blocked name target) ∧
      (∀ target, graph.blockedTarget blocked graph.names [name] = some target →
        target ∈ graph.names ∧ graph.LeadsToBlocked blocked name target) ∧
      ∀ more, blocked ⊆ more → (graph.blockedTarget blocked graph.names [name]).isSome = true →
        (graph.blockedTarget more graph.names [name]).isSome = true := by
  have hg := complete_of_graphOf (Assembly.wellFormed_of_load hload) hroot hgraph
  refine ⟨exists_search hg blocked hname, isSome_blockedTarget_iff, fun target htarget => ?_,
    fun more hmore => isSome_blockedTarget_of_subset hmore⟩
  obtain ⟨start, hstart, hleads⟩ := blockedTarget_eq_some htarget
  obtain rfl := List.mem_singleton.mp hstart
  exact ⟨mem_names_of_passesOnTo hg (.mono (fun _ _ hstep => hstep.2) _ _ hleads.passes) hname,
    hleads⟩

/-- From the second of two unions that refer to each other the search finds the faulty variant of
the first. -/
theorem searchesBlocked_second :
    Assembly.load [Setting.mutualDocument] = .ok Setting.mutualSetting.assembly ∧
      96 < Setting.mutualSetting.assembly.defs.size ∧
      Setting.mutualSetting.graphOf {} ⟨96⟩ = .ok (Setting.mutualGraph ⟨96⟩ ⟨97⟩) ∧
      .named "App.Second" [] ∈ (Setting.mutualGraph ⟨96⟩ ⟨97⟩).names ∧
      (Setting.mutualGraph ⟨96⟩ ⟨97⟩).blockedTarget [.named "App.Faulty" []]
        (Setting.mutualGraph ⟨96⟩ ⟨97⟩).names [.named "App.Second" []] =
          some (.named "App.Faulty" []) := by
  have hsize : 96 < Setting.mutualSetting.assembly.defs.size := by decide +kernel
  have hgraph : Setting.mutualSetting.graphOf {} ⟨96⟩ = .ok (Setting.mutualGraph ⟨96⟩ ⟨97⟩) :=
    graphOf_eq_ok rfl (by decide +kernel)
  have hname : .named "App.Second" [] ∈ (Setting.mutualGraph ⟨96⟩ ⟨97⟩).names := by decide +kernel
  have hback : (Setting.mutualGraph ⟨96⟩ ⟨97⟩).Passes (.named "App.Second" [])
      (.named "App.First" []) := mem_nextOf_iff.mp (by decide +kernel)
  have hvariant : (Setting.mutualGraph ⟨96⟩ ⟨97⟩).Passes (.named "App.First" [])
      (.named "App.Faulty" []) := mem_nextOf_iff.mp (by decide +kernel)
  obtain ⟨-, hfinds, hfound, -⟩ := searchesBlocked_of_graphOf Setting.loads_mutualDocument.1 hsize
    hgraph [.named "App.Faulty" []] hname
  have hleads : (Setting.mutualGraph ⟨96⟩ ⟨97⟩).LeadsToBlocked [.named "App.Faulty" []]
      (.named "App.Second" []) (.named "App.Faulty" []) :=
    ⟨List.mem_singleton_self _, .tail (.single ⟨by decide, hback⟩) ⟨by decide, hvariant⟩⟩
  obtain ⟨target, htarget⟩ := Option.isSome_iff_exists.mp (hfinds.mpr ⟨_, hleads⟩)
  obtain rfl := List.mem_singleton.mp (hfound target htarget).2.isTarget
  exact ⟨Setting.loads_mutualDocument.1, hsize, hgraph, hname, htarget⟩

end TypeGraph

end FormatterPlan
