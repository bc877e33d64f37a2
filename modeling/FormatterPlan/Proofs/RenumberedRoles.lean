import FormatterPlan.Proofs.RenumberedLoading
import FormatterPlan.Proofs.RootOrder

/-! Roles under new numbers.  A metadata name that has a role belongs to a declaration of the
prelude, and at most one declaration of the user has it too, a nongeneric one that is named after a
generic one.  Then the user's is the one that is found, whatever its number. -/

namespace FormatterPlan

/-! ### Metadata names -/

theorem splitLast_eq_none_iff {sep : Char} {cs : List Char} :
    Text.splitLast sep cs = none ↔ sep ∉ cs := by
  induction cs with
  | nil => simp [Text.splitLast]
  | cons c cs ih =>
    rw [Text.splitLast, List.mem_cons, not_or, ← ih]
    cases Text.splitLast sep cs with
    | some found => simp
    | none => simp [eq_comm]

theorem splitLast_append {sep : Char} (before : List Char) {after : List Char}
    (hafter : sep ∉ after) :
    Text.splitLast sep (before ++ sep :: after) = some (before, after) := by
  induction before with
  | nil =>
    rw [List.nil_append, Text.splitLast, splitLast_eq_none_iff.mpr hafter]
    exact if_pos rfl
  | cons c cs ih =>
    rw [List.cons_append, Text.splitLast, ih]

/-- A separator does not occur after its last occurrence. -/
theorem notMem_of_splitLast {sep : Char} {cs before after : List Char}
    (h : Text.splitLast sep cs = some (before, after)) : sep ∉ after := by
  induction cs generalizing before with
  | nil => simp [Text.splitLast] at h
  | cons c cs ih =>
    rw [Text.splitLast] at h
    cases hrest : Text.splitLast sep cs with
    | some found =>
      rw [hrest] at h
      obtain ⟨-, rfl⟩ := Prod.mk.inj (Option.some.inj h)
      exact ih hrest
    | none =>
      rw [hrest] at h
      obtain ⟨-, h⟩ := Option.ite_none_right_eq_some.mp h
      obtain ⟨-, rfl⟩ := Prod.mk.inj (Option.some.inj h)
      exact splitLast_eq_none_iff.mp hrest

/-- The metadata names of generic declarations tell names and arities apart. -/
theorem metadataName_inj_of_ne_zero {name name' : String} {m n : Nat} (hm : m ≠ 0) (hn : n ≠ 0)
    (h : metadataName name m = metadataName name' n) : name = name' ∧ m = n := by
  have hdigits : ∀ k, arityMark ∉ (Nat.repr k).toList := by
    intro k hmem
    rw [Nat.toList_repr] at hmem
    exact absurd (Nat.isDigit_of_mem_toDigits (by omega) (by omega) hmem) (by decide)
  have hsplit : ∀ (name : String) {k : Nat}, k ≠ 0 →
      Text.splitLast arityMark (metadataName name k).toList =
        some (name.toList, (Nat.repr k).toList) := by
    intro name k hk
    rw [metadataName, if_neg hk, String.toList_append, String.toList_append,
      String.toList_singleton, List.append_assoc, List.singleton_append]
    exact splitLast_append name.toList (hdigits k)
  have heq := hsplit name hm
  rw [h, hsplit name' hn, Option.some.injEq, Prod.mk.injEq] at heq
  obtain rfl : name = name' := String.toList_inj.mp heq.1.symm
  exact ⟨rfl, metadataName_inj h⟩

namespace Assembly

variable {asm asm' : Assembly}

/-- Declarations with one metadata name are the same if both of them are generic, or neither is. -/
theorem Distinct.eq_of_metadataName (hdistinct : asm.Distinct) {a b : Symbol} {d e : TypeDef}
    (hd : asm.def? a = some d) (he : asm.def? b = some e) (hname : d.metadataName = e.metadataName)
    (harity : d.generics.length = 0 ↔ e.generics.length = 0) : a = b := by
  rw [TypeDef.metadataName, TypeDef.metadataName] at hname
  by_cases hzero : d.generics.length = 0
  · rw [hzero, harity.mp hzero, metadataName, metadataName, if_pos rfl, if_pos rfl] at hname
    exact hdistinct a b d e hd he hname (hzero.trans (harity.mp hzero).symm)
  · obtain ⟨hname, hlength⟩ := metadataName_inj_of_ne_zero hzero (mt harity.mpr hzero) hname
    exact hdistinct a b d e hd he hname hlength

/-- Whether a symbol has a metadata name. -/
def HasMetadataName (asm : Assembly) (name : String) (symbol : Symbol) : Prop :=
  ∃ d, asm.def? symbol = some d ∧ d.metadataName = name

/-- The declaration of a metadata name is the last one that has it. -/
theorem byMetadataName?_eq_some_iff {name : String} {symbol : Symbol} :
    asm.byMetadataName? name = some symbol ↔ asm.HasMetadataName name symbol ∧
      ∀ other, asm.HasMetadataName name other → other.index ≤ symbol.index := by
  have hmem : ∀ d (other : Symbol), (d, other.index) ∈ asm.defs.toList.zipIdx.reverse ↔
      asm.def? other = some d := by
    intro d other
    rw [List.mem_reverse, List.mk_mem_zipIdx_iff_getElem?, Array.getElem?_toList]
    rfl
  have hlast : ∀ found, asm.byMetadataName? name = some found →
      ∀ other, asm.HasMetadataName name other → other.index ≤ found.index := by
    rintro found hfound other ⟨d, hd, hname⟩
    rw [byMetadataName?, findLast?, Option.map_eq_some_iff] at hfound
    obtain ⟨⟨e, index⟩, hfound, rfl⟩ := hfound
    obtain ⟨-, before, after, hsplit, hbefore⟩ := List.find?_eq_some_iff_append.mp hfound
    have hother := (hmem d other).mpr hd
    have hsorted : asm.defs.toList.zipIdx.reverse.Pairwise fun x y => y.2 ≤ x.2 := by
      rw [List.pairwise_reverse, ← List.pairwise_map (f := Prod.snd) (R := (· ≤ ·)),
        List.zipIdx_map_snd]
      exact List.pairwise_le_range'
    rw [hsplit] at hother hsorted
    rcases List.mem_append.mp hother with hother | hother
    · simpa [hname] using hbefore _ hother
    · rcases List.mem_cons.mp hother with heq | hother
      · exact (congrArg Prod.snd heq).le
      · exact List.rel_of_pairwise_cons (List.pairwise_append.mp hsorted).2.1 hother
  constructor
  · intro hfound
    exact ⟨exists_of_byMetadataName? hfound, hlast symbol hfound⟩
  · rintro ⟨⟨d, hd, hname⟩, hmax⟩
    cases hfound : asm.byMetadataName? name with
    | none =>
      rw [byMetadataName?, findLast?, Option.map_eq_none_iff] at hfound
      have hnone := List.find?_eq_none.mp hfound _ ((hmem d symbol).mpr hd)
      simp [hname] at hnone
    | some found =>
      have hle := hlast found hfound symbol ⟨d, hd, hname⟩
      have hge := hmax found (exists_of_byMetadataName? hfound)
      exact congrArg (fun index => some (Symbol.mk index)) (Nat.le_antisymm hge hle)

namespace Renumbers

variable {r : Renumbering} (h : asm.Renumbers r asm')

include h

theorem hasMetadataName (name : String) (symbol : Symbol) :
    asm'.HasMetadataName name (r symbol) ↔ asm.HasMetadataName name symbol := by
  rw [HasMetadataName, HasMetadataName, h.def?]
  cases asm.def? symbol <;> simp

/-- The user's declarations stay behind those of the prelude. -/
theorem preludeSize_le {symbol : Symbol} (hsymbol : asm.preludeSize ≤ symbol.index) :
    asm.preludeSize ≤ (r symbol).index := by
  by_contra hlt
  have hfixed := r.injective (h.prelude (r symbol) (by omega))
  rw [hfixed] at hlt
  exact hlt hsymbol

/-- Of the declarations with a metadata name of the prelude at most one is the user's. -/
theorem index_le_iff (hdistinct : asm.Distinct) {name : String} {start a b : Symbol}
    (hstart : asm.HasMetadataName name start) (hprelude : start.index < asm.preludeSize)
    (ha : asm.HasMetadataName name a) (hb : asm.HasMetadataName name b) :
    (r a).index ≤ (r b).index ↔ a.index ≤ b.index := by
  by_cases hleft : a.index < asm.preludeSize <;> by_cases hright : b.index < asm.preludeSize
  · rw [h.prelude a hleft, h.prelude b hright]
  · have hle := h.preludeSize_le (Nat.le_of_not_lt hright)
    rw [h.prelude a hleft]
    omega
  · have hle := h.preludeSize_le (Nat.le_of_not_lt hleft)
    rw [h.prelude b hright]
    omega
  · have hsame : a = b := by
      -- Each of them is generic if and only if the declaration of the prelude is not.
      obtain ⟨d, hd, hname⟩ := hstart
      obtain ⟨da, hda, hnamea⟩ := ha
      obtain ⟨db, hdb, hnameb⟩ := hb
      have hother : ∀ {c : Symbol} {dc : TypeDef}, ¬ c.index < asm.preludeSize →
          asm.def? c = some dc → dc.metadataName = name →
            ¬ (dc.generics.length = 0 ↔ d.generics.length = 0) := by
        intro c dc hc hdc hnamec harity
        have heq := hdistinct.eq_of_metadataName hdc hd (hnamec.trans hname.symm) harity
        exact hc (heq ▸ hprelude)
      have hnea := hother hleft hda hnamea
      have hneb := hother hright hdb hnameb
      exact hdistinct.eq_of_metadataName hda hdb (hnamea.trans hnameb.symm) (by tauto)
    simp [hsame]

/-- The metadata names of the prelude stand for the same declarations. -/
theorem byMetadataName? (hdistinct : asm.Distinct) {name : String} {start : Symbol}
    (hstart : asm.HasMetadataName name start) (hprelude : start.index < asm.preludeSize) :
    asm'.byMetadataName? name = (asm.byMetadataName? name).map r := by
  refine Option.ext fun found => ?_
  obtain ⟨symbol, rfl⟩ := r.surjective found
  rw [byMetadataName?_eq_some_iff, h.hasMetadataName, Option.map_eq_some_iff]
  simp only [r.apply_eq_iff_eq, exists_eq_right, byMetadataName?_eq_some_iff]
  refine and_congr_right fun hsymbol => ?_
  rw [r.surjective.forall]
  refine forall_congr' fun other => ?_
  rw [h.hasMetadataName]
  exact imp_congr_right fun hother => h.index_le_iff hdistinct hstart hprelude hother hsymbol

end Renumbers

end Assembly

/-! ### Roles -/

namespace Roles

/-- The metadata names that have a role. -/
def names : List String :=
  AttributeName.all ++ Builtin.all.map (·.metadataName) ++
    CollectionShape.all.map (·.metadataName)

theorem exists_prelude_of_mem_names {name : String} (h : name ∈ names) :
    ∃ decl ∈ Prelude.decls, metadataName decl.name decl.generics.length = name := by
  rw [names, List.mem_append, List.mem_append] at h
  rcases h with (h | h) | h
  · exact ⟨Prelude.ofAttribute name, Prelude.ofAttribute_mem h, rfl⟩
  · obtain ⟨b, hb, rfl⟩ := List.mem_map.mp h
    exact ⟨Prelude.ofBuiltin b, Prelude.ofBuiltin_mem hb, rfl⟩
  · obtain ⟨c, hc, rfl⟩ := List.mem_map.mp h
    exact ⟨Prelude.ofCollection c, Prelude.ofCollection_mem hc,
      (CollectionShape.metadataName_plain hc).1⟩

/-- Symbols with a role are looked up under the names that have one. -/
theorem of?_renumber {r : Renumbering} {resolve resolve' : String → Option Symbol}
    (h : ∀ name ∈ names, resolve' name = (resolve name).map r) :
    of? resolve' = (of? resolve).map (·.renumber r) := by
  have hattribute : ∀ name ∈ AttributeName.all, resolve' name = (resolve name).map r :=
    fun name hname => h name (by simp [names, hname])
  have hbuiltin : ∀ b ∈ Builtin.all,
      resolve' b.metadataName = (resolve b.metadataName).map r :=
    fun b hb => h b.metadataName (by simp [names, List.mem_map_of_mem hb])
  have hcollection : ∀ c ∈ CollectionShape.all,
      resolve' c.metadataName = (resolve c.metadataName).map r :=
    fun c hc => h c.metadataName (by simp [names, List.mem_map_of_mem hc])
  have hbyte : resolve' Builtin.byteName = (resolve Builtin.byteName).map r :=
    hbuiltin ⟨"System.Byte", "ByteFormatter", true⟩ (by simp [Builtin.all])
  have hbuiltins : (Builtin.all.filterMap fun b => (resolve' b.metadataName).map (·, b)) =
      (Builtin.all.filterMap fun b => (resolve b.metadataName).map (·, b)).map
        fun entry => (r entry.1, entry.2) := by
    rw [List.map_filterMap]
    refine List.filterMap_congr fun b hb => ?_
    rw [hbuiltin b hb, Option.map_map, Option.map_map]
    rfl
  have hcollections :
      (CollectionShape.all.filterMap fun c => (resolve' c.metadataName).map (·, c)) =
        (CollectionShape.all.filterMap fun c => (resolve c.metadataName).map (·, c)).map
          fun entry => (r entry.1, entry.2) := by
    rw [List.map_filterMap]
    refine List.filterMap_congr fun c hc => ?_
    rw [hcollection c hc, Option.map_map, Option.map_map]
    rfl
  simp only [AttributeName.all, List.mem_cons, List.not_mem_nil, or_false, forall_eq_or_imp,
    forall_eq] at hattribute
  obtain ⟨hobject, hkey, hignoreMember, hignoreDataMember, hunion, hformatter⟩ := hattribute
  rw [of?, of?, hobject, hkey, hignoreMember, hignoreDataMember, hunion, hformatter, hbuiltins,
    hcollections, hbyte]
  cases resolve AttributeName.object <;> rfl

end Roles

/-- The roles in a loaded assembly stay with their declarations. -/
theorem Assembly.Renumbers.ofAssembly? {r : Renumbering} {asm asm' : Assembly}
    (h : asm.Renumbers r asm') {documents : List Document} (hload : load documents = .ok asm)
    (hidden : List String) :
    Roles.ofAssembly? asm' hidden = (Roles.ofAssembly? asm hidden).map (·.renumber r) := by
  refine Roles.of?_renumber fun name hname => ?_
  have hfound : asm'.byMetadataName? name = (asm.byMetadataName? name).map r := by
    obtain ⟨decl, hdecl, rfl⟩ := Roles.exists_prelude_of_mem_names hname
    obtain ⟨index, hindex⟩ := List.mem_iff_getElem?.mp hdecl
    have hlt : index < asm.preludeSize := by
      rw [preludeSize_of_load hload]
      exact (List.getElem?_eq_some_iff.mp hindex).1
    have hstart : asm.HasMetadataName (metadataName decl.name decl.generics.length) ⟨index⟩ :=
      ⟨_, def?_prelude hload hindex, rfl⟩
    exact h.byMetadataName? (wellFormed_of_load hload).distinct hstart hlt
  rw [hfound]
  split <;> rfl

theorem Setting.assembly_of_of? {asm : Assembly} {hidden : List String} {options : Options}
    {s : Setting} (hsetting : of? asm hidden options = some s) : s.assembly = asm := by
  obtain ⟨roles, -, rfl⟩ := Option.map_eq_some_iff.mp hsetting
  rfl

/-- The settings of loaded assemblies are the same under new numbers. -/
theorem Setting.renumbers_of_of? {r : Renumbering} {s s' : Setting}
    (h : s.assembly.Renumbers r s'.assembly) {documents : List Document}
    (hload : Assembly.load documents = .ok s.assembly) {hidden : List String} {options : Options}
    (hsetting : of? s.assembly hidden options = some s)
    (hsetting' : of? s'.assembly hidden options = some s') : s.Renumbers r s' := by
  obtain ⟨roles, hroles, hs⟩ := Option.map_eq_some_iff.mp hsetting
  obtain ⟨roles', hroles', hs'⟩ := Option.map_eq_some_iff.mp hsetting'
  rw [h.ofAssembly? hload, hroles, Option.map_some, Option.some.injEq] at hroles'
  constructor
  case assembly => exact h
  case roles => rw [← hs, ← hs', ← hroles']
  case options => rw [← hs, ← hs']

end FormatterPlan
