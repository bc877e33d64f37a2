import FormatterPlan.Proofs.RenumberedRoles
import FormatterPlan.Proofs.StoredTypes
import Mathlib.Data.Finset.Dedup
import Mathlib.Data.Set.Card

/-! When discovery ends.  The nodes found so far are those of different reachable names, so each
node that is looked at leaves fewer names to be found or fewer nodes to be looked at: if there are
finitely many names, discovery ends, whatever its bound beyond the number of nodes, and has looked
at each name once.  Generic declarations may lead to ever larger types.  Where the user declares
none, each type that is reached is the root, a parameter of it, or a part of a stored type. -/

namespace FormatterPlan

/-! ### Parts of types -/

namespace Ty

mutual

/-- A type and all that it is made of. -/
def subterms : Ty → List Ty
  | .named symbol args => .named symbol args :: allSubterms args
  | .array element rank => .array element rank :: subterms element
  | .param index name => [.param index name]

def allSubterms : List Ty → List Ty
  | [] => []
  | t :: ts => subterms t ++ allSubterms ts

end

theorem allSubterms_eq_flatMap (ts : List Ty) : allSubterms ts = ts.flatMap subterms := by
  induction ts with
  | nil => rfl
  | cons t ts ih => rw [allSubterms, ih, List.flatMap_cons]

theorem mem_subterms_self (t : Ty) : t ∈ t.subterms := by
  cases t <;> rw [subterms] <;> exact List.mem_cons_self

theorem subterms_named (symbol : Symbol) (args : List Ty) :
    (named symbol args).subterms = .named symbol args :: args.flatMap subterms := by
  rw [subterms, allSubterms_eq_flatMap]

theorem mem_subterms_of_mem_args {t u v : Ty} (h : u ∈ t.subterms) (hv : v ∈ u.args) :
    v ∈ t.subterms := by
  induction t using Ty.induction with
  | named symbol args ih =>
    rw [subterms_named, List.mem_cons, List.mem_flatMap] at h ⊢
    rcases h with rfl | ⟨arg, harg, hu⟩
    · exact .inr ⟨v, hv, mem_subterms_self v⟩
    · exact .inr ⟨arg, harg, ih arg harg hu⟩
  | array element rank ih =>
    rw [subterms, List.mem_cons] at h ⊢
    rcases h with rfl | hu
    · cases hv
    · exact .inr (ih hu)
  | param index name =>
    obtain rfl := List.mem_singleton.mp h
    cases hv

theorem mem_subterms_of_element {t element : Ty} {rank : Nat}
    (h : .array element rank ∈ t.subterms) : element ∈ t.subterms := by
  induction t using Ty.induction with
  | named symbol args ih =>
    rw [subterms_named, List.mem_cons, List.mem_flatMap] at h ⊢
    rcases h with heq | ⟨arg, harg, hu⟩
    · cases heq
    · exact .inr ⟨arg, harg, ih arg harg hu⟩
  | array inner innerRank ih =>
    rw [subterms, List.mem_cons] at h ⊢
    rcases h with heq | hu
    · cases heq
      exact .inr (mem_subterms_self element)
    · exact .inr (ih hu)
  | param index name =>
    rw [subterms, List.mem_singleton] at h
    cases h

end Ty

/-! ### Discovery that ends -/

namespace TypeGraph

variable {s : Setting} {root : Ty}

/-- The names of the nodes that are looked at, one after the other. -/
def looksAt (s : Setting) : (steps : Nat) → (next : Nat) → Array Node → List TypeName
  | 0, _, _ => []
  | steps + 1, next, nodes =>
    match nodes[next]? with
    | none => []
    | some node => node.name :: looksAt s steps (next + 1) (node.refs.foldl (add s) nodes)

/-- Exploring nodes, with those before `next` looked at, comes to a graph: it takes one step for
each node of the graph from `next` on, and looks at these in their order. -/
structure EndsIn (s : Setting) (next : Nat) (nodes : Array Node) (graph : TypeGraph) : Prop where
  looked : next ≤ graph.nodes.size
  kept : ∀ (i : Nat) node, nodes[i]? = some node → graph.nodes[i]? = some node
  explore : ∀ steps, explore s steps next nodes =
    if graph.nodes.size ≤ next + steps then some graph else none
  looksAt : ∀ steps, graph.nodes.size ≤ next + steps →
    looksAt s steps next nodes = graph.names.drop next

/-- All nodes have been looked at. -/
theorem EndsIn.last (nodes : Array Node) : EndsIn s nodes.size nodes ⟨nodes⟩ := by
  have hnone : nodes[nodes.size]? = none := Array.getElem?_eq_none le_rfl
  refine ⟨le_rfl, fun _ _ h => h, fun steps => ?_, fun steps _ => ?_⟩
  · rw [if_pos (by show nodes.size ≤ nodes.size + steps; omega), TypeGraph.explore, hnone]
  · have hdrop : (TypeGraph.names ⟨nodes⟩).drop nodes.size = [] :=
      List.drop_eq_nil_of_le (by simp [TypeGraph.names])
    rw [hdrop]
    cases steps with
    | zero => rfl
    | succ steps => rw [TypeGraph.looksAt, hnone]

/-- One more node is looked at. -/
theorem EndsIn.step {next : Nat} {nodes : Array Node} {graph : TypeGraph} {node : Node}
    (hnode : nodes[next]? = some node)
    (hkept : ∀ (i : Nat) n, nodes[i]? = some n →
      (node.refs.foldl (add s) nodes)[i]? = some n)
    (h : EndsIn s (next + 1) (node.refs.foldl (add s) nodes) graph) :
    EndsIn s next nodes graph := by
  have hlooked := h.looked
  have hget := h.kept next node (hkept next node hnode)
  refine ⟨by omega, fun i n hi => h.kept i n (hkept i n hi), fun steps => ?_,
    fun steps hsteps => ?_⟩
  · rw [TypeGraph.explore, hnode]
    cases steps with
    | zero => rw [if_neg (by omega)]
    | succ steps =>
      show TypeGraph.explore s steps (next + 1) _ = _
      rw [h.explore steps]
      -- The bounds on the steps are the same: one more step, one node further on.
      congr 1
      exact propext (by omega)
  · cases steps with
    | zero => omega
    | succ steps =>
      rw [TypeGraph.looksAt, hnode]
      show node.name :: TypeGraph.looksAt s steps (next + 1) _ = _
      have hlt : next < graph.names.length := by
        simpa [TypeGraph.names] using (show next < graph.nodes.size by omega)
      have hname : graph.names[next] = node.name := by
        refine Option.some.inj ?_
        rw [← List.getElem?_eq_getElem hlt]
        simp [TypeGraph.names, hget]
      rw [h.looksAt steps (by omega), List.drop_eq_getElem_cons hlt, hname]

/-- What a node that is looked at adds to the nodes. -/
theorem Explored.grown (hwf : s.assembly.WellFormed) (hroot : root.Fits s.assembly Ty.AnyParam)
    {next : Nat} {nodes : Array Node} (h : Explored s root next nodes) {node : Node}
    (hnode : nodes[next]? = some node) :
    Grown s node.refs nodes (node.refs.foldl (add s) nodes) := by
  obtain ⟨k, t, ht, rfl⟩ := h.reached next node hnode
  refine foldl_add_grown (fun r hr => ?_) h.distinct
  obtain ⟨u, -, hu⟩ := (Setting.mem_refs_iff hwf (ht.fits hwf hroot)).mp hr
  exact ⟨u, hu⟩

/-- There are no more nodes than names that are reached. -/
theorem Explored.size_le {next : Nat} {nodes : Array Node} (h : Explored s root next nodes)
    {names : Finset TypeName} (hnames : ∀ k name, s.NameReachedIn root k name → name ∈ names) :
    nodes.size ≤ names.card := by
  have hsubset : (namesOf nodes).toFinset ⊆ names := by
    intro name hname
    obtain ⟨i, node, hi, rfl⟩ := mem_namesOf.mp (List.mem_toFinset.mp hname)
    obtain ⟨k, t, ht, rfl⟩ := h.reached i node hi
    exact hnames k _ ⟨t, ht, Setting.nodeOf_name.symm⟩
  calc
    nodes.size = (namesOf nodes).length := by simp [namesOf]
    _ = (namesOf nodes).toFinset.card := (List.toFinset_card_of_nodup h.distinct).symm
    _ ≤ names.card := Finset.card_le_card hsubset

/-- With finitely many names to be found, exploring ends.  The nodes that can still be looked at
become fewer with each step. -/
theorem Explored.exists_endsIn (hwf : s.assembly.WellFormed)
    (hroot : root.Fits s.assembly Ty.AnyParam) {names : Finset TypeName}
    (hnames : ∀ k name, s.NameReachedIn root k name → name ∈ names) {next : Nat}
    {nodes : Array Node} (h : Explored s root next nodes) (hnext : next ≤ nodes.size) :
    ∃ graph, EndsIn s next nodes graph := by
  induction hleft : names.card - next generalizing next nodes with
  | zero =>
    -- All names have nodes, and all nodes have been looked at.
    have hsize := h.size_le hnames
    obtain rfl : next = nodes.size := by omega
    exact ⟨_, .last nodes⟩
  | succ left ih =>
    by_cases hlast : next = nodes.size
    · subst hlast
      exact ⟨_, .last nodes⟩
    · obtain ⟨node, hnode⟩ : ∃ node, nodes[next]? = some node :=
        ⟨_, Array.getElem?_eq_getElem (by omega)⟩
      have hkept := (h.grown hwf hroot hnode).kept
      have hlt : next < (node.refs.foldl (add s) nodes).size :=
        (Array.getElem?_eq_some_iff.mp (hkept next _ hnode)).1
      obtain ⟨graph, hends⟩ := ih (h.step hwf hroot hnode) hlt (by omega)
      exact ⟨graph, hends.step hnode hkept⟩

/-- Discovery from a root that ends with a graph.  It needs one step for each node, and looks at
each name that is reached exactly once. -/
structure Discovers (s : Setting) (symbol : Symbol) (graph : TypeGraph) : Prop where
  ends : ∀ steps, discover s steps symbol = if graph.nodes.size ≤ steps then some graph else none
  looksAt : ∀ steps, graph.nodes.size ≤ steps →
    looksAt s steps 0 #[s.nodeOf (rootType s.assembly symbol)] = graph.names
  distinct : graph.names.Nodup
  reachable : ∀ name, name ∈ graph.names ↔
    ∃ k, s.NameReachedIn (rootType s.assembly symbol) k name

/-- Discovery ends when the names that are reached are among finitely many. -/
theorem exists_discovers (hwf : s.assembly.WellFormed) {symbol : Symbol}
    (hsymbol : symbol.index < s.assembly.defs.size) {names : Finset TypeName}
    (hnames : ∀ k name, s.NameReachedIn (rootType s.assembly symbol) k name → name ∈ names) :
    ∃ graph, Discovers s symbol graph ∧ graph.nodes.size ≤ names.card := by
  have hroot := Setting.rootType_fits hsymbol
  obtain ⟨graph, hends⟩ := Explored.initial.exists_endsIn hwf hroot hnames (Nat.zero_le _)
  have hexplore : ∀ steps, discover s steps symbol =
      if graph.nodes.size ≤ steps then some graph else none := fun steps => by
    rw [discover, hends.explore, Nat.zero_add]
  have hgraph : discover s graph.nodes.size symbol = some graph := by
    rw [hexplore, if_pos le_rfl]
  obtain ⟨last, hlast, hexplored⟩ := Explored.initial.explore hwf hroot hgraph
  refine ⟨graph, ⟨hexplore, fun steps hsteps => ?_, hexplored.distinct,
    hexplored.mem_namesOf_iff hwf hroot hlast⟩, hexplored.size_le hnames⟩
  rw [hends.looksAt steps (by omega), List.drop_zero]

/-- A run that is not cancelled gives the graph if it may look at each of its nodes, and no other
graph. -/
theorem Discovers.graphOf_eq_ok_iff {symbol : Symbol} {graph : TypeGraph}
    (h : Discovers s symbol graph) {control : RunControl} {found : TypeGraph} :
    s.graphOf control symbol = .ok found ↔
      control.cancelled = false ∧ graph.nodes.size ≤ control.steps ∧ found = graph := by
  rw [Setting.graphOf, h.ends]
  cases control.cancelled with
  | true => simp
  | false =>
    by_cases hsteps : graph.nodes.size ≤ control.steps
    · simp [hsteps, eq_comm]
    · simp [hsteps]

theorem discovers_of_graphOf (hwf : s.assembly.WellFormed) {symbol : Symbol}
    (hsymbol : symbol.index < s.assembly.defs.size) {control : RunControl} {graph : TypeGraph}
    (hgraph : s.graphOf control symbol = .ok graph) : Discovers s symbol graph := by
  obtain ⟨last, hlast, hexplored⟩ := explored_of_graphOf hwf hsymbol hgraph
  have hnames : ∀ k name, s.NameReachedIn (rootType s.assembly symbol) k name →
      name ∈ graph.names.toFinset := fun k name hname =>
    List.mem_toFinset.mpr ((hexplored.mem_namesOf_iff hwf (Setting.rootType_fits hsymbol) hlast
      name).mpr ⟨k, hname⟩)
  obtain ⟨found, hfound, -⟩ := exists_discovers hwf hsymbol hnames
  obtain ⟨-, -, rfl⟩ := hfound.graphOf_eq_ok_iff.mp hgraph
  exact hfound

end TypeGraph

/-! ### Assemblies without generic declarations -/

/-- The parts of all types that the declarations of an assembly store. -/
def Assembly.storedSubterms (asm : Assembly) : List Ty :=
  (asm.defs.toList.flatMap TypeDef.types).flatMap Ty.subterms

/-- Whether the user declares no generic types. -/
def Assembly.HasNoUserGenerics (asm : Assembly) : Prop :=
  ∀ symbol ∈ asm.userSymbols, asm.genericsOf symbol = []

namespace Assembly

variable {asm : Assembly}

theorem mem_storedSubterms {symbol : Symbol} {d : TypeDef} (hd : asm.def? symbol = some d) {t : Ty}
    (ht : t ∈ d.types) : t ∈ asm.storedSubterms := by
  rw [storedSubterms, List.mem_flatMap]
  refine ⟨t, List.mem_flatMap.mpr ⟨d, ?_, ht⟩, Ty.mem_subterms_self t⟩
  exact Array.mem_toList_iff.mpr (Array.mem_of_getElem? hd)

theorem mem_storedSubterms_of_mem_args {t u : Ty} (h : t ∈ asm.storedSubterms) (hu : u ∈ t.args) :
    u ∈ asm.storedSubterms := by
  obtain ⟨stored, hstored, ht⟩ := List.mem_flatMap.mp h
  exact List.mem_flatMap.mpr ⟨stored, hstored, Ty.mem_subterms_of_mem_args ht hu⟩

theorem mem_storedSubterms_of_element {element : Ty} {rank : Nat}
    (h : .array element rank ∈ asm.storedSubterms) : element ∈ asm.storedSubterms := by
  obtain ⟨stored, hstored, ht⟩ := List.mem_flatMap.mp h
  exact List.mem_flatMap.mpr ⟨stored, hstored, Ty.mem_subterms_of_element ht⟩

/-- A declaration of the prelude stores no types. -/
theorem types_eq_nil_of_prelude {documents : List Document} (hload : load documents = .ok asm)
    {symbol : Symbol} {d : TypeDef} (hd : asm.def? symbol = some d)
    (hprelude : symbol.index < asm.preludeSize) : d.types = [] := by
  rw [preludeSize_of_load hload] at hprelude
  have hplain := def?_prelude hload (List.getElem?_eq_getElem hprelude)
  obtain rfl : d = plain _ := by rw [hd] at hplain; exact Option.some.inj hplain
  rfl

/-- Without generic declarations of the user's, stored types are closed. -/
theorem isClosed_of_mem_types {documents : List Document} (hload : load documents = .ok asm)
    (hplain : asm.HasNoUserGenerics) {symbol : Symbol} {d : TypeDef}
    (hd : asm.def? symbol = some d) {t : Ty} (ht : t ∈ d.types) : t.isClosed = true := by
  by_cases hprelude : symbol.index < asm.preludeSize
  · rw [types_eq_nil_of_prelude hload hd hprelude] at ht
    cases ht
  · have hsize : symbol.index < asm.defs.size := (Array.getElem?_eq_some_iff.mp hd).1
    have hgenerics : d.generics = [] := by
      have h := hplain symbol (mem_userSymbols_iff.mpr ⟨by omega, hsize⟩)
      simpa [genericsOf, hd] using h
    have hfits := (storesSoundTypes_of_load hload).fits symbol d hd t ht
    rw [hgenerics] at hfits
    exact (hfits.mono fun index name hin => by simp [Ty.InScope] at hin).isClosed

end Assembly

namespace Setting

variable {s : Setting} {t u : Ty}

/-- The root, its parameters, and the parts of stored types. -/
def foreseen (s : Setting) (symbol : Symbol) : List Ty :=
  TypeGraph.rootType s.assembly symbol :: (TypeGraph.rootType s.assembly symbol).args ++
    s.assembly.storedSubterms

theorem mem_foreseen_iff {symbol : Symbol} : t ∈ s.foreseen symbol ↔
    t = TypeGraph.rootType s.assembly symbol ∨
      (∃ index name, t = .param index name ∧ t ∈ (TypeGraph.rootType s.assembly symbol).args) ∨
        t ∈ s.assembly.storedSubterms := by
  have hparam : ∀ u ∈ (TypeGraph.rootType s.assembly symbol).args,
      ∃ index name, u = .param index name := by
    intro u hu
    obtain ⟨index, _, rfl⟩ := List.mem_mapIdx.mp hu
    exact ⟨_, _, rfl⟩
  rw [foreseen, List.cons_append, List.mem_cons, List.mem_append]
  constructor
  · rintro (heq | hargs | hstored)
    · exact .inl heq
    · obtain ⟨index, name, heq⟩ := hparam t hargs
      exact .inr (.inl ⟨index, name, heq, hargs⟩)
    · exact .inr (.inr hstored)
  · rintro (heq | ⟨-, -, -, hargs⟩ | hstored)
    · exact .inl heq
    · exact .inr (.inl hargs)
    · exact .inr (.inr hstored)

section

variable (hclosed : ∀ symbol d, s.assembly.def? symbol = some d → ∀ w ∈ d.types, w.isClosed = true)

include hclosed

/-- Arguments change nothing in stored types that are closed. -/
theorem subst_mem_storedSubterms {symbol : Symbol} {d : TypeDef}
    (hd : s.assembly.def? symbol = some d) {w : Ty} (hw : w ∈ d.types) (context : List Ty) :
    w.subst context ∈ s.assembly.storedSubterms := by
  rw [Ty.subst_of_isClosed (hclosed symbol d hd w hw)]
  exact Assembly.mem_storedSubterms hd hw

theorem Above.mem_storedSubterms {seen : List Symbol} (h : s.Above seen t u) :
    u ∈ s.assembly.storedSubterms := by
  have hstored : ∀ {t u symbol}, s.IsBase t u symbol → u ∈ s.assembly.storedSubterms := by
    rintro t u symbol ⟨written, hwritten, rfl, -⟩
    obtain ⟨own, -, hbase⟩ := Option.bind_eq_some_iff.mp hwritten
    obtain ⟨d, hd, hdbase⟩ := Option.bind_eq_some_iff.mp hbase
    exact subst_mem_storedSubterms hclosed hd (TypeDef.mem_types.mpr (.inl hdbase)) _
  induction h with
  | base hbase _ => exact hstored hbase
  | further _ _ _ ih => exact ih

/-- What a foreseen type leads to is foreseen. -/
theorem LeadsTo.mem_foreseen {symbol : Symbol} (ht : t ∈ s.foreseen symbol) (h : s.LeadsTo t u) :
    u ∈ s.foreseen symbol := by
  cases h with
  | chain hchain =>
    rcases hchain with rfl | habove
    · exact ht
    · exact mem_foreseen_iff.mpr (.inr (.inr (habove.mem_storedSubterms hclosed)))
  | stored _ _ hd hstored =>
    exact mem_foreseen_iff.mpr (.inr (.inr (subst_mem_storedSubterms hclosed hd hstored _)))
  | underlying _ hd hunderlying =>
    exact mem_foreseen_iff.mpr (.inr (.inr
      (Assembly.mem_storedSubterms hd (TypeDef.mem_types.mpr (.inr (.inl hunderlying))))))
  -- A root is no array, and has no arguments but its parameters, which are made of nothing.
  | element harray =>
    rcases mem_foreseen_iff.mp ht with rfl | ⟨index, name, rfl, -⟩ | hstored
    · cases harray
    · cases harray
    · exact mem_foreseen_iff.mpr (.inr (.inr
        (Assembly.mem_storedSubterms_of_element (harray ▸ hstored))))
  | argument hargument =>
    rcases mem_foreseen_iff.mp ht with rfl | ⟨index, name, rfl, -⟩ | hstored
    · exact List.mem_append_left _ (List.mem_cons_of_mem _ hargument)
    · cases hargument
    · exact mem_foreseen_iff.mpr (.inr (.inr
        (Assembly.mem_storedSubterms_of_mem_args hstored hargument)))

theorem ReachedIn.mem_foreseen {symbol : Symbol} {k : Nat}
    (h : s.ReachedIn (TypeGraph.rootType s.assembly symbol) k t) : t ∈ s.foreseen symbol := by
  induction h with
  | root => exact mem_foreseen_iff.mpr (.inl rfl)
  | step _ hrefers ih => exact hrefers.leadsTo.mem_foreseen hclosed ih

end

/-- In a loaded assembly discovery ends exactly when finitely many names are reached.  It does if
the user declares no generic types, and then there are no more nodes than the root, its parameters
and the different parts of stored types. -/
theorem discovers_of_load {documents : List Document}
    (hload : Assembly.load documents = .ok s.assembly) {symbol : Symbol}
    (hsymbol : symbol.index < s.assembly.defs.size) :
    ((∃ graph, TypeGraph.Discovers s symbol graph) ↔
      {name | ∃ k, s.NameReachedIn (TypeGraph.rootType s.assembly symbol) k name}.Finite) ∧
    (s.assembly.HasNoUserGenerics → ∃ graph, TypeGraph.Discovers s symbol graph ∧
      graph.nodes.size ≤ (s.foreseen symbol).toFinset.card) := by
  have hwf := Assembly.wellFormed_of_load hload
  refine ⟨⟨?_, fun hfinite => ?_⟩, fun hplain => ?_⟩
  · rintro ⟨graph, hgraph⟩
    have hsame : {name | ∃ k, s.NameReachedIn (TypeGraph.rootType s.assembly symbol) k name} =
        {name | name ∈ graph.names} := Set.ext fun name => (hgraph.reachable name).symm
    rw [hsame]
    exact graph.names.finite_toSet
  · obtain ⟨graph, hgraph, -⟩ := TypeGraph.exists_discovers hwf hsymbol
      fun k name hname => hfinite.mem_toFinset.mpr ⟨k, hname⟩
    exact ⟨graph, hgraph⟩
  · have hclosed : ∀ symbol d, s.assembly.def? symbol = some d →
        ∀ w ∈ d.types, w.isClosed = true :=
      fun _ _ hd _ hw => Assembly.isClosed_of_mem_types hload hplain hd hw
    have hnames : ∀ k name,
        s.NameReachedIn (TypeGraph.rootType s.assembly symbol) k name →
          name ∈ (s.foreseen symbol).toFinset.image s.assembly.typeName := by
      rintro k name ⟨t, ht, rfl⟩
      exact Finset.mem_image_of_mem _ (List.mem_toFinset.mpr (ht.mem_foreseen hclosed))
    obtain ⟨graph, hgraph, hsize⟩ := TypeGraph.exists_discovers hwf hsymbol hnames
    exact ⟨graph, hgraph, hsize.trans Finset.card_image_le⟩

end Setting

/-! ### References in circles -/

/-- Types that refer back to themselves: a node that holds nodes, a peer and a shape; a peer that
holds nodes; two shapes that are variants of each other; and two types that derive from each
other. -/
def loopDocument : Document where
  types := [
    { name := "App.Node", kind := .concreteClass,
      attributes := [.bare "MessagePack.MessagePackObjectAttribute"],
      members := [
        { name := "Children", type := some "List<App.Node>[]",
          attributes := [.full "MessagePack.KeyAttribute" [.value (.number (.integer 0))]] },
        { name := "Peer", type := some "App.Peer",
          attributes := [.full "MessagePack.KeyAttribute" [.value (.number (.integer 1))]] },
        { name := "Shape", type := some "App.Shape",
          attributes := [.full "MessagePack.KeyAttribute" [.value (.number (.integer 2))]] }] },
    { name := "App.Peer", kind := .concreteClass, base := some "App.Ping",
      attributes := [.bare "MessagePack.MessagePackObjectAttribute"],
      members := [
        { name := "Owner", type := some "App.Node",
          attributes := [.full "MessagePack.KeyAttribute" [.value (.number (.integer 3))]] }] },
    { name := "App.Shape", kind := .interface,
      attributes := [.full "MessagePack.UnionAttribute"
        [.value (.number (.integer 0)), .typeOf "App.Outline"]] },
    { name := "App.Outline", kind := .interface,
      attributes := [.full "MessagePack.UnionAttribute"
        [.value (.number (.integer 0)), .typeOf "App.Shape"]] },
    { name := "App.Ping", kind := .concreteClass, base := some "App.Pong",
      attributes := [.bare "MessagePack.MessagePackObjectAttribute"] },
    { name := "App.Pong", kind := .concreteClass, base := some "App.Ping",
      attributes := [.bare "MessagePack.MessagePackObjectAttribute"] }]

def loopDefs : List TypeDef := [
  { name := "App.Node", kind := .concreteClass, generics := [], base := none, underlying := none,
    attributes := [⟨⟨90⟩, []⟩],
    members := [
      { name := "Children", kind := .property,
        type := some (.array (.named ⟨32⟩ [.named ⟨96⟩ []]) 1), params := [],
        access := .everyone, isStatic := false, attributes := [⟨⟨91⟩, [.int 0]⟩] },
      { name := "Peer", kind := .property, type := some (.named ⟨97⟩ []), params := [],
        access := .everyone, isStatic := false, attributes := [⟨⟨91⟩, [.int 1]⟩] },
      { name := "Shape", kind := .property, type := some (.named ⟨98⟩ []), params := [],
        access := .everyone, isStatic := false, attributes := [⟨⟨91⟩, [.int 2]⟩] }] },
  { name := "App.Peer", kind := .concreteClass, generics := [], base := some (.named ⟨100⟩ []),
    underlying := none, attributes := [⟨⟨90⟩, []⟩],
    members := [
      { name := "Owner", kind := .property, type := some (.named ⟨96⟩ []), params := [],
        access := .everyone, isStatic := false, attributes := [⟨⟨91⟩, [.int 3]⟩] }] },
  { name := "App.Shape", kind := .interface, generics := [], base := none, underlying := none,
    attributes := [⟨⟨94⟩, [.int 0, .type (.named ⟨99⟩ [])]⟩], members := [] },
  { name := "App.Outline", kind := .interface, generics := [], base := none, underlying := none,
    attributes := [⟨⟨94⟩, [.int 0, .type (.named ⟨98⟩ [])]⟩], members := [] },
  { name := "App.Ping", kind := .concreteClass, generics := [], base := some (.named ⟨101⟩ []),
    underlying := none, attributes := [⟨⟨90⟩, []⟩], members := [] },
  { name := "App.Pong", kind := .concreteClass, generics := [], base := some (.named ⟨100⟩ []),
    underlying := none, attributes := [⟨⟨90⟩, []⟩], members := [] }]

def loopSetting : Setting := .ofDefs loopDefs {}

theorem loads_loopDocument : Assembly.load [loopDocument] = .ok loopSetting.assembly ∧
    Setting.of? loopSetting.assembly [] {} = some loopSetting :=
  Setting.loads_ofDefs (by decide +kernel) (toOption_eq_some_iff.mp (by decide +kernel)) {}

/-- Discovery from the node ends, although all of its types are in circles. -/
theorem loopSetting_discovers : Assembly.load [loopDocument] = .ok loopSetting.assembly ∧
    96 < loopSetting.assembly.defs.size ∧ loopSetting.assembly.HasNoUserGenerics ∧
    {name | ∃ k, loopSetting.NameReachedIn
      (TypeGraph.rootType loopSetting.assembly ⟨96⟩) k name}.Finite ∧
    (∃ graph, TypeGraph.Discovers loopSetting ⟨96⟩ graph) ∧
    ∃ graph, TypeGraph.Discovers loopSetting ⟨96⟩ graph ∧
      graph.nodes.size ≤ (loopSetting.foreseen ⟨96⟩).toFinset.card := by
  have hroot : 96 < loopSetting.assembly.defs.size := by decide +kernel
  have hplain : loopSetting.assembly.HasNoUserGenerics := by
    unfold Assembly.HasNoUserGenerics
    decide +kernel
  obtain ⟨hfinite, hbounded⟩ := Setting.discovers_of_load loads_loopDocument.1 hroot
  obtain ⟨graph, hgraph, hsize⟩ := hbounded hplain
  have hreached := hfinite.mp ⟨graph, hgraph⟩
  exact ⟨loads_loopDocument.1, hroot, hplain, hreached, hfinite.mpr hreached, graph, hgraph, hsize⟩

end FormatterPlan
