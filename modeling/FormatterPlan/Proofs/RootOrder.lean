import FormatterPlan.Proofs.CleanPlans
import Mathlib

/-! The order of roots.  Declarations of one full name have different arities, and the metadata name
shows the arity, so in a loaded assembly no two declarations are at the same place in the order.  A
sorted list without repetitions is then determined by its members, and so is a plan by the set of
its roots. -/

namespace FormatterPlan

/-! ### Metadata names -/

/-- The metadata names of one full name tell arities apart. -/
theorem metadataName_inj {name : String} {m n : Nat}
    (h : metadataName name m = metadataName name n) : m = n := by
  have hmark : ∀ arity, arity ≠ 0 → metadataName name arity ≠ name := by
    intro arity harity heq
    rw [metadataName, if_neg harity, String.append_assoc] at heq
    have hlength := congrArg String.length heq
    simp at hlength
  by_cases hm : m = 0 <;> by_cases hn : n = 0
  · rw [hm, hn]
  · rw [hm] at h
    exact (hmark n hn h.symm).elim
  · rw [hn] at h
    exact (hmark m hm h).elim
  · rw [metadataName, metadataName, if_neg hm, if_neg hn] at h
    exact Nat.repr_injective ((String.append_right_inj _).mp h)

namespace Setting

variable {s : Setting}

/-! ### The order -/

/-- What the order of roots compares. -/
def rootKey (s : Setting) (symbol : Symbol) : String × String :=
  (s.assembly.def? symbol).elim ("", "") fun d => (d.name, d.metadataName)

theorem rootLe_iff {a b : Symbol} : s.rootLe a b = true ↔
    (s.rootKey a).1 < (s.rootKey b).1 ∨
      (s.rootKey a).1 = (s.rootKey b).1 ∧ (s.rootKey a).2 ≤ (s.rootKey b).2 := by
  simp [rootLe, rootKey]

theorem rootLe_trans (a b c : Symbol) (hab : s.rootLe a b = true) (hbc : s.rootLe b c = true) :
    s.rootLe a c = true := by
  rw [rootLe_iff] at *
  rcases hab with hab | ⟨hab, hab'⟩ <;> rcases hbc with hbc | ⟨hbc, hbc'⟩
  · exact .inl (String.lt_trans hab hbc)
  · exact .inl (hbc ▸ hab)
  · exact .inl (hab ▸ hbc)
  · exact .inr ⟨hab.trans hbc, String.le_trans hab' hbc'⟩

theorem rootLe_total (a b : Symbol) : (s.rootLe a b || s.rootLe b a) = true := by
  rw [Bool.or_eq_true, rootLe_iff, rootLe_iff]
  rcases lt_trichotomy (s.rootKey a).1 (s.rootKey b).1 with hlt | heq | hgt
  · exact .inl (.inl hlt)
  · rcases String.le_total (s.rootKey a).2 (s.rootKey b).2 with hle | hge
    · exact .inl (.inr ⟨heq, hle⟩)
    · exact .inr (.inr ⟨heq.symm, hge⟩)
  · exact .inr (.inl hgt)

/-- Different declarations of a well-formed assembly are not at the same place in the order. -/
theorem rootLe_antisymm (hdistinct : s.assembly.Distinct) {a b : Symbol}
    (ha : a.index < s.assembly.defs.size) (hb : b.index < s.assembly.defs.size)
    (hab : s.rootLe a b = true) (hba : s.rootLe b a = true) : a = b := by
  have hd : s.assembly.def? a = some s.assembly.defs[a.index] := Array.getElem?_eq_getElem ha
  have he : s.assembly.def? b = some s.assembly.defs[b.index] := Array.getElem?_eq_getElem hb
  rw [rootLe_iff] at hab hba
  simp only [rootKey, hd, he, Option.elim_some] at hab hba
  generalize s.assembly.defs[a.index] = d at *
  generalize s.assembly.defs[b.index] = e at *
  have hkey : d.name = e.name ∧ d.metadataName = e.metadataName := by
    rcases hab with hlt | ⟨heq, hle⟩ <;> rcases hba with hgt | ⟨heq', hge⟩
    · exact (String.lt_asymm hlt hgt).elim
    · exact (String.lt_irrefl _ (heq' ▸ hlt)).elim
    · exact (String.lt_irrefl _ (heq ▸ hgt)).elim
    · exact ⟨heq, String.le_antisymm hle hge⟩
  obtain ⟨hname, hmetadata⟩ := hkey
  rw [TypeDef.metadataName, TypeDef.metadataName, hname] at hmetadata
  exact hdistinct a b d e hd he hname (metadataName_inj hmetadata)

/-! ### Roots in order -/

theorem sorted_orderedRoots (roots : List Symbol) :
    (s.orderedRoots roots).Pairwise fun a b => s.rootLe a b = true :=
  (List.pairwise_mergeSort rootLe_trans rootLe_total roots).sublist (eraseReps_sublist _)

section

variable (hdistinct : s.assembly.Distinct) {roots : List Symbol}
  (hroots : ∀ root ∈ roots, root.index < s.assembly.defs.size)

include hdistinct hroots

theorem nodup_orderedRoots : (s.orderedRoots roots).Nodup :=
  nodup_eraseReps (List.pairwise_mergeSort rootLe_trans rootLe_total roots) fun a ha b hb =>
    rootLe_antisymm hdistinct (hroots a (List.mem_mergeSort.mp ha))
      (hroots b (List.mem_mergeSort.mp hb))

/-- Roots in order are the only sorted list that has each of the roots once. -/
theorem orderedRoots_eq {ordered : List Symbol}
    (hsorted : ordered.Pairwise fun a b => s.rootLe a b = true) (hnodup : ordered.Nodup)
    (hmem : ∀ root, root ∈ ordered ↔ root ∈ roots) : s.orderedRoots roots = ordered := by
  have hperm : (s.orderedRoots roots).Perm ordered :=
    (List.perm_ext_iff_of_nodup (nodup_orderedRoots hdistinct hroots) hnodup).mpr fun root => by
      rw [mem_orderedRoots_iff, hmem]
  refine hperm.eq_of_pairwise (fun a b ha hb => ?_) (sorted_orderedRoots roots) hsorted
  exact rootLe_antisymm hdistinct (hroots a (mem_orderedRoots_iff.mp ha))
    (hroots b ((hmem b).mp hb))

end

/-- In a loaded assembly the plan of a list of declarations depends on which of them are listed, not
on their order and not on repetitions. -/
theorem plan_eq_of_mem_iff {documents : List Document}
    (hload : Assembly.load documents = .ok s.assembly) {roots roots' : List Symbol}
    (hroots : ∀ root ∈ roots, root.index < s.assembly.defs.size)
    (hsame : ∀ root, root ∈ roots ↔ root ∈ roots') (control : RunControl) :
    s.plan control roots = s.plan control roots' := by
  have hdistinct := (Assembly.wellFormed_of_load hload).distinct
  have hroots' : ∀ root ∈ roots', root.index < s.assembly.defs.size :=
    fun root hroot => hroots root ((hsame root).mpr hroot)
  have hordered : s.orderedRoots roots = s.orderedRoots roots' :=
    orderedRoots_eq hdistinct hroots (sorted_orderedRoots roots')
      (nodup_orderedRoots hdistinct hroots') fun root => by rw [mem_orderedRoots_iff, hsame]
  rw [plan, plan, hordered]

theorem plan_shapes_eq : Assembly.load [shapeDocument] = .ok shapeSetting.assembly ∧
    ∃ plan, shapeSetting.plan {} [⟨97⟩, ⟨96⟩, ⟨97⟩] = .ok plan ∧
      shapeSetting.plan {} [⟨96⟩, ⟨97⟩] = .ok plan := by
  obtain ⟨plan, hplan, -⟩ := exists_plan_shapes
  have hroots : ∀ root ∈ ([⟨97⟩, ⟨96⟩, ⟨97⟩] : List Symbol),
      root.index < shapeSetting.assembly.defs.size := by decide +kernel
  have hsame : ∀ root : Symbol, root ∈ [⟨97⟩, ⟨96⟩, ⟨97⟩] ↔ root ∈ [⟨96⟩, ⟨97⟩] := by
    intro root
    simp only [List.mem_cons, List.not_mem_nil, or_false]
    tauto
  exact ⟨loads_shapeDocument.1, plan, hplan,
    plan_eq_of_mem_iff loads_shapeDocument.1 hroots hsame {} ▸ hplan⟩

end Setting

end FormatterPlan
