import FormatterPlan.Proofs.RenumberedGraphs
import FormatterPlan.Proofs.RenumberedRoles

/-! The order of declarations.  Documents with the same declarations load in any order or in none,
and the plans of their root candidates have the same table.  Their findings are about the same types
and members in the same order, but the wording of a key attribute that takes a type shows numbers,
and findings of one wording count once.  So one finding may be missing where it happens to be worded
like another one. -/

namespace FormatterPlan

/-! ### Root candidates -/

namespace Setting

variable {r : Renumbering} {s s' : Setting}

namespace Renumbers

variable (h : s.Renumbers r s')

include h

theorem rootLe (a b : Symbol) : s'.rootLe (r a) (r b) = s.rootLe a b := by
  have hkey : ∀ symbol, s'.rootKey (r symbol) = s.rootKey symbol := by
    intro symbol
    rw [rootKey, rootKey, h.assembly.def?]
    cases s.assembly.def? symbol <;> rfl
  rw [Bool.eq_iff_iff, rootLe_iff, rootLe_iff, hkey, hkey]

theorem isRootCandidate (symbol : Symbol) :
    s'.isRootCandidate (r symbol) = s.isRootCandidate symbol := by
  unfold Setting.isRootCandidate
  rw [h.assembly.def?]
  cases s.assembly.def? symbol with
  | none => rfl
  | some d =>
    dsimp only [Option.map_some]
    rw [TypeDef.attributes_renumber, h.objectAttribute?, h.find?_union, Option.isSome_map,
      Option.isSome_map, TypeDef.kind_renumber]

theorem mem_rootCandidates (symbol : Symbol) :
    r symbol ∈ s'.rootCandidates ↔ symbol ∈ s.rootCandidates := by
  have hsize : (r symbol).index < s'.assembly.defs.size ↔ symbol.index < s.assembly.defs.size := by
    have hdef := congrArg Option.isSome (h.assembly.def? symbol)
    rw [Option.isSome_map, Assembly.def?, Assembly.def?, Bool.eq_iff_iff] at hdef
    simpa using hdef
  have huser : s'.assembly.preludeSize ≤ (r symbol).index ↔
      s.assembly.preludeSize ≤ symbol.index := by
    rw [h.assembly.preludeSize]
    refine ⟨fun hle => ?_, h.assembly.preludeSize_le⟩
    by_contra hlt
    rw [h.assembly.prelude symbol (by omega)] at hle
    exact hlt hle
  rw [mem_rootCandidates_iff, mem_rootCandidates_iff, hsize, huser, h.isRootCandidate]

/-- The candidates come in the same order. -/
theorem orderedRoots (hdistinct' : s'.assembly.Distinct) (hdistinct : s.assembly.Distinct) :
    s'.orderedRoots s'.rootCandidates = (s.orderedRoots s.rootCandidates).map r := by
  refine orderedRoots_eq hdistinct' (fun root hroot => ?_) ?_ ?_ ?_
  · exact (mem_rootCandidates_iff.mp hroot).1.2
  · rw [List.pairwise_map]
    exact (sorted_orderedRoots s.rootCandidates).imp fun hle => by rwa [h.rootLe]
  · refine (nodup_orderedRoots hdistinct fun root hroot => ?_).map r.injective
    exact (mem_rootCandidates_iff.mp hroot).1.2
  · rw [r.surjective.forall]
    intro root
    rw [List.mem_map_of_injective r.injective, mem_orderedRoots_iff, h.mem_rootCandidates]

end Renumbers

end Setting

/-! ### Plans of all candidates -/

/-- What a finding is about, without its wording. -/
def Finding.place (f : Finding) : Rule × TypeName × Option String := (f.rule, f.subject, f.member)

theorem Report.place_renumber (r : Renumbering) (x : Report) :
    (x.renumber r).finding.place = x.finding.place := by
  cases x <;> rfl

namespace Setting

/-- The plan of all root candidates. -/
def candidatePlan (s : Setting) (control : RunControl) : Except Interruption Plan :=
  s.plan control s.rootCandidates

/-- Whether no two different reports of root candidates are worded alike. -/
def Unambiguous (s : Setting) (control : RunControl) : Prop :=
  ∀ root ∈ s.rootCandidates, ∀ root' ∈ s.rootCandidates, ∀ a b,
    s.analyze control root = .ok a → s.analyze control root' = .ok b →
      ∀ x ∈ s.reports a, ∀ y ∈ s.reports b, x.finding = y.finding → x = y

/-- Whether two settings have the same plan of their root candidates but for the wording of
findings: one is interrupted when the other is, the tables are equal, the places that findings are
about occur first in the same order, and where no two reports are worded alike, the places agree one
by one. -/
structure SamePlans (s s' : Setting) (control : RunControl) : Prop where
  interrupted : ∀ e, s.candidatePlan control = .error e ↔ s'.candidatePlan control = .error e
  table : ∀ p p', s.candidatePlan control = .ok p → s'.candidatePlan control = .ok p' →
    p.table = p'.table
  places : ∀ p p', s.candidatePlan control = .ok p → s'.candidatePlan control = .ok p' →
    (p.findings.map Finding.place).eraseDups = (p'.findings.map Finding.place).eraseDups
  positions : s.Unambiguous control → s'.Unambiguous control → ∀ p p',
    s.candidatePlan control = .ok p → s'.candidatePlan control = .ok p' →
      p.findings.map Finding.place = p'.findings.map Finding.place

section

variable {s s' : Setting} {control : RunControl}

/-- A plan words the reports of its analyses and counts those of one wording once. -/
theorem findings_of_reports {analyses : List Analysis} (h : ∀ a ∈ analyses, Analyzed s a) :
    (analyses.flatMap (·.verdict.findings)).eraseDups =
      ((analyses.flatMap s.reports).map Report.finding).eraseDups := by
  rw [List.map_flatMap, ← eraseDups_flatMap_eraseDups fun a => (s.reports a).map Report.finding]
  exact congrArg List.eraseDups (List.flatMap_congr fun a ha => (h a ha).findings_eq)

theorem eraseDups_places (reports : List Report) :
    ((reports.map Report.finding).eraseDups.map Finding.place).eraseDups =
      (reports.map fun x => x.finding.place).eraseDups := by
  rw [eraseDups_map_eraseDups, List.map_map]
  rfl

theorem places_of_injOn {reports : List Report}
    (h : ∀ x ∈ reports, ∀ y ∈ reports, x.finding = y.finding → x = y) :
    (reports.map Report.finding).eraseDups.map Finding.place =
      reports.eraseDups.map fun x => x.finding.place := by
  rw [eraseDups_map_of_injOn h, List.map_map]
  rfl

/-- What an analysis of a candidate gives. -/
theorem exists_of_mem_analyses {documents : List Document}
    (hload : Assembly.load documents = .ok s.assembly) {analyses : List Analysis}
    (hanalyses : (s.orderedRoots s.rootCandidates).mapM (s.analyze control) = .ok analyses)
    {a : Analysis} (ha : a ∈ analyses) :
    Analyzed s a ∧ ∃ root ∈ s.rootCandidates, s.analyze control root = .ok a := by
  refine forall_of_mapM (P := fun a => Analyzed s a ∧ ∃ root ∈ s.rootCandidates,
    s.analyze control root = .ok a) hanalyses (fun root hroot a hanalyze => ?_) a ha
  have hcandidate := mem_orderedRoots_iff.mp hroot
  have hsize := (mem_rootCandidates_iff.mp hcandidate).1.2
  exact ⟨analyzed_of_analyze hload hsize hanalyze, root, hcandidate, hanalyze⟩

theorem Unambiguous.injOn (h : s.Unambiguous control) {documents : List Document}
    (hload : Assembly.load documents = .ok s.assembly) {analyses : List Analysis}
    (hanalyses : (s.orderedRoots s.rootCandidates).mapM (s.analyze control) = .ok analyses) :
    ∀ x ∈ analyses.flatMap s.reports, ∀ y ∈ analyses.flatMap s.reports,
      x.finding = y.finding → x = y := by
  intro x hx y hy
  obtain ⟨a, ha, hx⟩ := List.mem_flatMap.mp hx
  obtain ⟨b, hb, hy⟩ := List.mem_flatMap.mp hy
  obtain ⟨-, root, hroot, hanalyze⟩ := exists_of_mem_analyses hload hanalyses ha
  obtain ⟨-, root', hroot', hanalyze'⟩ := exists_of_mem_analyses hload hanalyses hb
  exact h root hroot root' hroot' a b hanalyze hanalyze' x hx y hy

end

section

variable {r : Renumbering} {s s' : Setting} (h : s.Renumbers r s')

include h

theorem Renumbers.mapM_analyze (control : RunControl) (roots : List Symbol) :
    (roots.map r).mapM (s'.analyze control) =
      (roots.mapM (s.analyze control)).map (List.map (·.renumber r s')) := by
  induction roots with
  | nil => rfl
  | cons root roots ih =>
    rw [List.map_cons, List.mapM_cons, List.mapM_cons, h.analyze, ih]
    cases s.analyze control root with
    | error e => rfl
    | ok a => cases roots.mapM (s.analyze control) <;> rfl

/-- Under new numbers the analyses of all candidates make the same plan but for wording. -/
theorem Renumbers.samePlans {documents documents' : List Document}
    (hload : Assembly.load documents = .ok s.assembly)
    (hload' : Assembly.load documents' = .ok s'.assembly) (control : RunControl) :
    SamePlans s s' control := by
  have hroots := h.orderedRoots (Assembly.wellFormed_of_load hload').distinct
    (Assembly.wellFormed_of_load hload).distinct
  have hmapM := h.mapM_analyze control (s.orderedRoots s.rootCandidates)
  rw [← hroots] at hmapM
  cases hanalyses : (s.orderedRoots s.rootCandidates).mapM (s.analyze control) with
  | error e =>
    rw [hanalyses] at hmapM
    have hplan : s.candidatePlan control = .error e := by
      rw [candidatePlan, Setting.plan, hanalyses]
      rfl
    have hplan' : s'.candidatePlan control = .error e := by
      rw [candidatePlan, Setting.plan, hmapM]
      rfl
    constructor <;> simp [hplan, hplan']
  | ok analyses =>
    rw [hanalyses] at hmapM
    have hplan : s.candidatePlan control =
        .ok ⟨(analyses.flatMap (·.verdict.findings)).eraseDups,
          .merge (analyses.map (·.table))⟩ := by
      rw [candidatePlan, Setting.plan, hanalyses]
      rfl
    have hplan' : s'.candidatePlan control =
        .ok ⟨((analyses.map (·.renumber r s')).flatMap (·.verdict.findings)).eraseDups,
          .merge ((analyses.map (·.renumber r s')).map (·.table))⟩ := by
      rw [candidatePlan, Setting.plan, hmapM]
      rfl
    have hanalyzed := fun a (ha : a ∈ analyses) => (exists_of_mem_analyses hload hanalyses ha).1
    have hanalyzed' := fun a (ha : a ∈ analyses.map (·.renumber r s')) =>
      (exists_of_mem_analyses hload' hmapM ha).1
    rw [findings_of_reports hanalyzed] at hplan
    rw [findings_of_reports hanalyzed'] at hplan'
    -- Both plans word one list of reports, the second one under new numbers.
    have hreports : (analyses.map (·.renumber r s')).flatMap s'.reports =
        (analyses.flatMap s.reports).map (·.renumber r) := by
      rw [List.flatMap_map, List.map_flatMap]
      exact List.flatMap_congr fun a ha => h.reports (hanalyzed a ha).verdict
    have hplaces : ((analyses.flatMap s.reports).map (·.renumber r)).map
        (fun x => x.finding.place) = (analyses.flatMap s.reports).map fun x => x.finding.place := by
      rw [List.map_map]
      exact List.map_congr_left fun x _ => x.place_renumber r
    constructor
    case interrupted => simp [hplan, hplan']
    case table =>
      intro p p' hp hp'
      obtain rfl := Except.ok.inj (hplan.symm.trans hp)
      obtain rfl := Except.ok.inj (hplan'.symm.trans hp')
      rw [List.map_map]
      rfl
    case places =>
      intro p p' hp hp'
      obtain rfl := Except.ok.inj (hplan.symm.trans hp)
      obtain rfl := Except.ok.inj (hplan'.symm.trans hp')
      rw [eraseDups_places, eraseDups_places, hreports, hplaces]
    case positions =>
      intro hclear hclear' p p' hp hp'
      obtain rfl := Except.ok.inj (hplan.symm.trans hp)
      obtain rfl := Except.ok.inj (hplan'.symm.trans hp')
      dsimp only
      rw [places_of_injOn (hclear.injOn hload hanalyses), places_of_injOn
        (hclear'.injOn hload' hmapM), hreports,
        eraseDups_map_of_injOn fun x _ y _ heq => Report.renumber_injective heq, List.map_map]
      exact List.map_congr_left fun x _ => (x.place_renumber r).symm

end

/-- Documents with the same declarations, in any order and distributed over documents in any way,
load or do not load together, and the plans of their root candidates are the same but for the
wording of findings. -/
theorem samePlans_of_perm {documents documents' : List Document}
    (hsame : (documents.flatMap (·.types)).Perm (documents'.flatMap (·.types))) :
    ((∃ asm, Assembly.load documents = .ok asm) ↔ ∃ asm', Assembly.load documents' = .ok asm') ∧
      ∀ asm asm', Assembly.load documents = .ok asm → Assembly.load documents' = .ok asm' →
        ∀ hidden options, ((of? asm hidden options).isSome = (of? asm' hidden options).isSome) ∧
          ∀ s s', of? asm hidden options = some s → of? asm' hidden options = some s' →
            ∀ control, SamePlans s s' control := by
  refine ⟨⟨fun ⟨asm, hload⟩ => ?_, fun ⟨asm', hload'⟩ => ?_⟩, ?_⟩
  · obtain ⟨-, asm', hload', -⟩ := Assembly.exists_load_of_perm hsame hload
    exact ⟨asm', hload'⟩
  · obtain ⟨-, asm, hload, -⟩ := Assembly.exists_load_of_perm hsame.symm hload'
    exact ⟨asm, hload⟩
  · intro asm asm' hload hload' hidden options
    obtain ⟨r, found, hfound, hr⟩ := Assembly.exists_load_of_perm hsame hload
    obtain rfl : found = asm' := Except.ok.inj (hfound.symm.trans hload')
    refine ⟨?_, fun s s' hsetting hsetting' control => ?_⟩
    · rw [of?, of?, hr.ofAssembly? hload, Option.isSome_map, Option.isSome_map, Option.isSome_map]
    · obtain rfl : s.assembly = asm := assembly_of_of? hsetting
      obtain rfl : s'.assembly = found := assembly_of_of? hsetting'
      exact (renumbers_of_of? hr hload hsetting hsetting').samePlans hload hload' control

/-! ### A type as a key -/

/-- A class whose only member takes a type as its key. -/
def baseDecl : TypeDecl where
  name := "App"
  kind := .concreteClass
  members := [
    { name := "Box has duplicate key 0 on members A, B", type := some "int",
      attributes := [.full "MessagePack.KeyAttribute" [.typeOf "App"]] }]

/-- A class under the other one, with the key 0 on a member `A` and on a second one. -/
def boxDecl (second : String) : TypeDecl where
  name := "App.Box"
  kind := .concreteClass
  base := some "App"
  attributes := [.bare "MessagePack.MessagePackObjectAttribute"]
  members := ["A", second].map fun name =>
    { name, type := some "int",
      attributes := [.full "MessagePack.KeyAttribute" [.value (.number (.integer 0))]] }

/-- The two classes in one document, the base first. -/
def baseFirstDocuments (second : String) : List Document := [⟨[baseDecl, boxDecl second]⟩]

/-- The two classes in a document each, the base last. -/
def baseLastDocuments (second : String) : List Document := [⟨[boxDecl second]⟩, ⟨[baseDecl]⟩]

/-- A member of the type `int`, loaded, with a key. -/
def keyedMember (name : String) (key : Argument) : Member where
  name
  kind := .property
  type := some (.named ⟨5⟩ [])
  params := []
  access := .everyone
  isStatic := false
  attributes := [⟨⟨91⟩, [key]⟩]

/-- `baseDecl` as it is loaded at a position. -/
def baseDef (base : Symbol) : TypeDef where
  name := "App"
  kind := .concreteClass
  generics := []
  base := none
  underlying := none
  attributes := []
  members := [keyedMember "Box has duplicate key 0 on members A, B" (.type (.named base []))]

/-- `boxDecl` as it is loaded over a base at a position. -/
def boxDef (base : Symbol) (second : String) : TypeDef where
  name := "App.Box"
  kind := .concreteClass
  generics := []
  base := some (.named base [])
  underlying := none
  attributes := [⟨⟨90⟩, []⟩]
  members := ["A", second].map (keyedMember · (.int 0))

def baseFirstSetting (second : String) : Setting := .ofDefs [baseDef ⟨96⟩, boxDef ⟨96⟩ second] {}

def baseLastSetting (second : String) : Setting := .ofDefs [boxDef ⟨97⟩ second, baseDef ⟨97⟩] {}

/-- A name for the second member that goes on like the message about a key that is a type. -/
def misleadingName : String :=
  "B: KeyAttribute takes an int or a string, found " ++
    "Type(Named \x7b symbol: SymbolId(96), args: [] \x7d)"

theorem perm_documents (second : String) :
    ((baseFirstDocuments second).flatMap (·.types)).Perm
      ((baseLastDocuments second).flatMap (·.types)) :=
  .swap (boxDecl second) baseDecl []

/-- The reports on the class with keys: two members have the same key, and the key of the base's
member is a type. -/
def boxReports (base : Symbol) (second : String) : List Report := [
  .plain ⟨.invalidObject, .named "App.Box" [], none,
    ["App.Box has duplicate key 0 on members A, " ++ second]⟩,
  .typeKey (.named "App.Box" []) "App.Box has duplicate key 0 on members A, B" (.named base [])]

/-- Whether documents load to a setting with one root candidate whose analysis has given reports. -/
structure ReportsAre (documents : List Document) (s : Setting) (root : Symbol)
    (reports : List Report) : Prop where
  load : Assembly.load documents = .ok s.assembly
  setting : of? s.assembly [] {} = some s
  candidates : s.rootCandidates = [root]
  reports : ∃ a, s.analyze {} root = .ok a ∧ s.reports a = reports

section

variable {documents : List Document} {root : Symbol} {reports : List Report}

/-- When only the nodes with findings are blocked, the reports are known from the graph alone. -/
theorem reportsAre_of_keep {defs : List TypeDef} (hapart : Assembly.Apart documents)
    (hdefs : ((documents.flatMap (·.types)).mapM (NameTable.ofDecls
      (Prelude.decls ++ documents.flatMap (·.types))).typeDef).toOption = some defs)
    (hcandidates : (ofDefs defs {}).rootCandidates = [root]) (graph : TypeGraph)
    (hgraph : (TypeGraph.discover (ofDefs defs {}) 1000000 root).map (·.nodes) = some graph.nodes)
    (hkeep : graph.keep (graph.namesOutside (graph.faulty (.ofDefs defs) false)) =
      graph.namesOutside (graph.faulty (.ofDefs defs) false))
    (hreports : graph.nodes.toList.flatMap (graph.reportsOf (.ofDefs defs) false) ++
      (Verdict.dependenceFindings (.ofDefs defs) false graph ⟨[], graph.namesOutside
        (graph.namesOutside (graph.faulty (.ofDefs defs) false))⟩).map .plain = reports) :
    ReportsAre documents (ofDefs defs {}) root reports := by
  obtain ⟨hload, hsetting⟩ := loads_ofDefs hapart (toOption_eq_some_iff.mp hdefs) {}
  have hdiscovered : (ofDefs defs {}).graphOf {} root = .ok graph :=
    TypeGraph.graphOf_eq_ok rfl hgraph
  obtain ⟨a, hanalyze, rfl⟩ := exists_analyze_eq_ok hdiscovered
  refine ⟨hload, hsetting, hcandidates, a, hanalyze, ?_⟩
  rw [Setting.reports, ← hreports, (analyze_ok hanalyze).2.1,
    ← TypeGraph.blocked_ofGraph_of_keep hkeep]
  rfl

namespace ReportsAre

variable {s : Setting} (h : ReportsAre documents s root reports)

include h

theorem exists_plan :
    ∃ p, s.candidatePlan {} = .ok p ∧ p.findings = (reports.map Report.finding).eraseDups := by
  obtain ⟨a, hanalyze, rfl⟩ := h.reports
  have hanalyses : (s.orderedRoots s.rootCandidates).mapM (s.analyze {}) = .ok [a] := by
    rw [h.candidates, Setting.orderedRoots, List.mergeSort_singleton]
    change [root].mapM (s.analyze {}) = _
    rw [List.mapM_cons, hanalyze]
    rfl
  have hanalyzed := fun b (hb : b ∈ [a]) => (exists_of_mem_analyses h.load hanalyses hb).1
  have hplan : s.candidatePlan {} = .ok ⟨([a].flatMap (·.verdict.findings)).eraseDups,
      .merge ([a].map (·.table))⟩ := by
    rw [candidatePlan, Setting.plan, hanalyses]
    rfl
  rw [findings_of_reports hanalyzed, List.flatMap_singleton] at hplan
  exact ⟨_, hplan, rfl⟩

theorem unambiguous (hreports : ∀ x ∈ reports, ∀ y ∈ reports, x.finding = y.finding → x = y) :
    s.Unambiguous {} := by
  obtain ⟨a, hanalyze, rfl⟩ := h.reports
  intro root₁ hroot₁ root₂ hroot₂ a₁ a₂ hanalyze₁ hanalyze₂
  rw [h.candidates, List.mem_singleton] at hroot₁ hroot₂
  rw [hroot₁, hanalyze, Except.ok.injEq] at hanalyze₁
  rw [hroot₂, hanalyze, Except.ok.injEq] at hanalyze₂
  rw [← hanalyze₁, ← hanalyze₂]
  exact hreports

end ReportsAre

end

/-- The types that the class with keys leads to. -/
def boxGraph (s : Setting) (root base : Symbol) : TypeGraph :=
  ⟨#[s.nodeOf (.named root []), s.nodeOf (.named base []), s.nodeOf (.named ⟨5⟩ [])]⟩

/-- Whether declarations differ in their metadata names is a matter of their names and arities. -/
theorem apart_of_perm {documents documents' : List Document}
    (hsame : ((documents.flatMap (·.types)).map fun decl => (decl.name, decl.generics.length)).Perm
      ((documents'.flatMap (·.types)).map fun decl => (decl.name, decl.generics.length)))
    (hapart : Assembly.Apart documents) : Assembly.Apart documents' := by
  have hweights := hsame.map fun key => Assembly.weight (metadataName key.1 key.2)
  rw [List.map_map, List.map_map] at hweights
  refine ⟨hweights.nodup_iff.mp hapart.1, fun decl hdecl => ?_⟩
  have hkey := hsame.mem_iff.mpr (List.mem_map_of_mem hdecl)
  obtain ⟨same, hmem, heq⟩ := List.mem_map.mp hkey
  obtain ⟨hname, harity⟩ := Prod.mk.inj heq
  rw [← hname, ← harity]
  exact hapart.2 same hmem

theorem apart_box (second : String) : Assembly.Apart (baseFirstDocuments second) ∧
    Assembly.Apart (baseLastDocuments second) := by
  have hplain : Assembly.Apart (baseFirstDocuments "B") := by decide +kernel
  have hkeys : (((baseFirstDocuments "B").flatMap (·.types)).map fun decl =>
      (decl.name, decl.generics.length)).Perm
        (((baseFirstDocuments second).flatMap (·.types)).map fun decl =>
          (decl.name, decl.generics.length)) := .refl _
  have hfirst := apart_of_perm hkeys hplain
  exact ⟨hfirst, apart_of_perm ((perm_documents second).map _) hfirst⟩

theorem reportsAre_box :
    ReportsAre (baseFirstDocuments "B") (baseFirstSetting "B") ⟨97⟩ (boxReports ⟨96⟩ "B") ∧
      ReportsAre (baseLastDocuments "B") (baseLastSetting "B") ⟨96⟩ (boxReports ⟨97⟩ "B") :=
  ⟨reportsAre_of_keep (apart_box "B").1 (by decide +kernel) (by decide +kernel)
      (boxGraph (baseFirstSetting "B") ⟨97⟩ ⟨96⟩) (by decide +kernel) (by decide +kernel)
      (by decide +kernel),
    reportsAre_of_keep (apart_box "B").2 (by decide +kernel) (by decide +kernel)
      (boxGraph (baseLastSetting "B") ⟨96⟩ ⟨97⟩) (by decide +kernel) (by decide +kernel)
      (by decide +kernel)⟩

theorem reportsAre_misleading :
    ReportsAre (baseFirstDocuments misleadingName) (baseFirstSetting misleadingName) ⟨97⟩
        (boxReports ⟨96⟩ misleadingName) ∧
      ReportsAre (baseLastDocuments misleadingName) (baseLastSetting misleadingName) ⟨96⟩
        (boxReports ⟨97⟩ misleadingName) :=
  ⟨reportsAre_of_keep (apart_box misleadingName).1 (by decide +kernel) (by decide +kernel)
      (boxGraph (baseFirstSetting misleadingName) ⟨97⟩ ⟨96⟩) (by decide +kernel)
      (by decide +kernel) (by decide +kernel),
    reportsAre_of_keep (apart_box misleadingName).2 (by decide +kernel) (by decide +kernel)
      (boxGraph (baseLastSetting misleadingName) ⟨96⟩ ⟨97⟩) (by decide +kernel)
      (by decide +kernel) (by decide +kernel)⟩

theorem samePlans_box :
    ((baseFirstDocuments "B").flatMap (·.types)).Perm ((baseLastDocuments "B").flatMap (·.types)) ∧
      Assembly.load (baseFirstDocuments "B") = .ok (baseFirstSetting "B").assembly ∧
      Assembly.load (baseLastDocuments "B") = .ok (baseLastSetting "B").assembly ∧
      of? (baseFirstSetting "B").assembly [] {} = some (baseFirstSetting "B") ∧
      of? (baseLastSetting "B").assembly [] {} = some (baseLastSetting "B") ∧
      (baseFirstSetting "B").Unambiguous {} ∧ (baseLastSetting "B").Unambiguous {} ∧
      ∃ p p', (baseFirstSetting "B").candidatePlan {} = .ok p ∧
        (baseLastSetting "B").candidatePlan {} = .ok p' ∧ p.findings.length = 2 ∧
        p.findings ≠ p'.findings ∧ p.table = p'.table ∧
        p.findings.map Finding.place = p'.findings.map Finding.place := by
  obtain ⟨h, h'⟩ := reportsAre_box
  obtain ⟨p, hp, hfindings⟩ := h.exists_plan
  obtain ⟨p', hp', hfindings'⟩ := h'.exists_plan
  have hclear := h.unambiguous (by decide +kernel)
  have hclear' := h'.unambiguous (by decide +kernel)
  have hsame := ((samePlans_of_perm (perm_documents "B")).2 _ _ h.load h'.load [] {}).2 _ _
    h.setting h'.setting {}
  refine ⟨perm_documents "B", h.load, h'.load, h.setting, h'.setting, hclear, hclear', p, p', hp,
    hp', ?_, ?_, hsame.table p p' hp hp', hsame.positions hclear hclear' p p' hp hp'⟩
  · rw [hfindings]
    decide +kernel
  · rw [hfindings, hfindings']
    decide +kernel

/-- With the misleading name the base's key is worded like the repeated key if the base comes first,
and one of two findings about the same type is gone. -/
theorem order_hides_finding :
    ((baseFirstDocuments misleadingName).flatMap (·.types)).Perm
        ((baseLastDocuments misleadingName).flatMap (·.types)) ∧
      Assembly.load (baseFirstDocuments misleadingName) =
        .ok (baseFirstSetting misleadingName).assembly ∧
      Assembly.load (baseLastDocuments misleadingName) =
        .ok (baseLastSetting misleadingName).assembly ∧
      of? (baseFirstSetting misleadingName).assembly [] {} =
        some (baseFirstSetting misleadingName) ∧
      of? (baseLastSetting misleadingName).assembly [] {} =
        some (baseLastSetting misleadingName) ∧
      ∃ p p', (baseFirstSetting misleadingName).candidatePlan {} = .ok p ∧
        (baseLastSetting misleadingName).candidatePlan {} = .ok p' ∧
        p.findings.length = 1 ∧ p'.findings.length = 2 ∧
        p.findings.map Finding.place ≠ p'.findings.map Finding.place := by
  obtain ⟨h, h'⟩ := reportsAre_misleading
  obtain ⟨p, hp, hfindings⟩ := h.exists_plan
  obtain ⟨p', hp', hfindings'⟩ := h'.exists_plan
  have hone : p.findings.length = 1 := by
    rw [hfindings]
    decide +kernel
  have htwo : p'.findings.length = 2 := by
    rw [hfindings']
    decide +kernel
  refine ⟨perm_documents misleadingName, h.load, h'.load, h.setting, h'.setting, p, p', hp, hp',
    hone, htwo, fun heq => ?_⟩
  have hlength := congrArg List.length heq
  rw [List.length_map, List.length_map] at hlength
  omega

end Setting

end FormatterPlan
