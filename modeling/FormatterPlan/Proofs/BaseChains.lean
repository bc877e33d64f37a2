import FormatterPlan.Proofs.References

/-! Chains of bases, said without a bound on their length: the relation `Setting.Walks`.  A walk
that does not come back to a declaration is the same whatever was seen before, so the bases of a
type are its first base and the bases of that base. -/

namespace FormatterPlan

namespace Setting

variable {s : Setting} {t u : Ty} {symbol : Symbol} {seen : List Symbol} {levels : List Level}
  {cyclic : Bool}

/-- The walk up from a type: the levels that it comes by, and whether it comes back to a declaration
in `seen`, where it ends. -/
inductive Walks (s : Setting) : List Symbol → Ty → List Level → Bool → Prop
  | top {seen : List Symbol} {t : Ty} (hnone : ∀ u symbol, ¬ s.IsBase t u symbol) :
    Walks s seen t [] false
  | back {seen : List Symbol} {t u : Ty} {symbol : Symbol} (hbase : s.IsBase t u symbol)
      (hseen : symbol ∈ seen) : Walks s seen t [] true
  | up {seen : List Symbol} {t u : Ty} {symbol : Symbol} {levels : List Level} {cyclic : Bool}
      (hbase : s.IsBase t u symbol) (hnew : symbol ∉ seen)
      (hwalk : Walks s (symbol :: seen) u levels cyclic) :
    Walks s seen t (s.baseLevel u :: levels) cyclic

theorem Walks.unique {levels' : List Level} {cyclic' : Bool} (h : s.Walks seen t levels cyclic)
    (h' : s.Walks seen t levels' cyclic') : levels = levels' ∧ cyclic = cyclic' := by
  induction h generalizing levels' cyclic' with
  | top hnone =>
    cases h' with
    | top => exact ⟨rfl, rfl⟩
    | back hbase => exact (hnone _ _ hbase).elim
    | up hbase => exact (hnone _ _ hbase).elim
  | back hbase hseen =>
    cases h' with
    | top hnone => exact (hnone _ _ hbase).elim
    | back => exact ⟨rfl, rfl⟩
    | up hbase' hnew =>
      obtain ⟨-, rfl⟩ := hbase.unique hbase'
      exact (hnew hseen).elim
  | up hbase hnew _ ih =>
    cases h' with
    | top hnone => exact (hnone _ _ hbase).elim
    | back hbase' hseen =>
      obtain ⟨-, rfl⟩ := hbase.unique hbase'
      exact (hnew hseen).elim
    | up hbase' _ hwalk' =>
      obtain ⟨rfl, rfl⟩ := hbase.unique hbase'
      obtain ⟨rfl, rfl⟩ := ih hwalk'
      exact ⟨rfl, rfl⟩

section

variable {scope : Nat → String → Prop}

/-- With more steps than there are unseen declarations, the walk is computed to its end. -/
theorem walks_basesAbove (hwf : s.assembly.WellFormed) (ht : t.Fits s.assembly scope)
    (hnodup : seen.Nodup) (hdeclared : ∀ symbol ∈ seen, ∃ d, s.assembly.def? symbol = some d)
    {steps : Nat} (hsteps : s.assembly.defs.size < seen.length + steps) :
    s.Walks seen t (s.basesAbove steps seen t).1 (s.basesAbove steps seen t).2 := by
  induction steps generalizing seen t with
  | zero =>
    have hall := length_le_size hnodup hdeclared
    omega
  | succ steps ih =>
    rcases basesAbove_succ (s := s) steps seen t with
      ⟨hnone, heq⟩ | ⟨u, symbol, hbase, ⟨hseen, heq⟩ | ⟨hnew, heq⟩⟩
    · rw [heq]
      exact .top hnone
    · rw [heq]
      exact .back hbase hseen
    · rw [heq]
      obtain ⟨hu, hd⟩ := hbase.fits hwf ht
      refine .up hbase hnew (ih hu (hnodup.cons hnew) (by simpa using ⟨hd, hdeclared⟩) ?_)
      rw [List.length_cons]
      omega

/-- The bases of a type that fits are those of the walk up from it. -/
theorem walks_basesOf (hwf : s.assembly.WellFormed) (ht : t.Fits s.assembly scope) :
    s.Walks t.symbol?.toList t (s.basesOf t).1 (s.basesOf t).2 := by
  rw [basesOf]
  cases hsymbol : t.symbol? with
  | none =>
    -- Such a type has no base, and its walk may well have no step.
    have hnone : ∀ u symbol, ¬ s.IsBase t u symbol := by
      rintro u symbol ⟨written, hwritten, -, -⟩
      rw [hsymbol] at hwritten
      simp at hwritten
    have hend : s.basesAbove s.assembly.defs.size [] t = ([], false) := by
      cases s.assembly.defs.size with
      | zero => rfl
      | succ steps => rw [basesAbove, hsymbol]; rfl
    rw [Option.toList_none, hend]
    exact .top hnone
  | some symbol =>
    refine walks_basesAbove hwf ht (List.nodup_singleton symbol) ?_ ?_
    · exact List.forall_mem_singleton.mpr (ht.declared hsymbol)
    · rw [List.length_singleton]
      omega

/-- The nearest level is that of the base. -/
theorem exists_isBase_of_head? (hwf : s.assembly.WellFormed) (ht : t.Fits s.assembly scope)
    {level : Level} (h : (s.basesOf t).1.head? = some level) :
    ∃ u symbol, s.IsBase t u symbol ∧ level = s.baseLevel u := by
  have hwalk := walks_basesOf hwf ht
  generalize (s.basesOf t).1 = levels, (s.basesOf t).2 = cyclic at h hwalk
  cases hwalk with
  | top => simp at h
  | back => simp at h
  | up hbase =>
    rw [List.head?_cons, Option.some.injEq] at h
    exact ⟨_, _, hbase, h.symm⟩

/-! ### Chains that visit each declaration once -/

/-- The declarations that are visited by going up from a type some steps. -/
inductive Visits (s : Setting) : Ty → List Symbol → Prop
  | here (t : Ty) : Visits s t []
  | up {t u : Ty} {symbol : Symbol} {symbols : List Symbol} (hbase : s.IsBase t u symbol)
      (hvisits : Visits s u symbols) : Visits s t (symbol :: symbols)

/-- Whether the chain of bases of a type visits no declaration twice, however far it goes. -/
def VisitsOnce (s : Setting) (t : Ty) : Prop :=
  ∀ symbols, s.Visits t symbols → (t.symbol?.toList ++ symbols).Nodup

theorem Walks.cyclic_eq_false_iff (h : s.Walks seen t levels cyclic) (hnodup : seen.Nodup) :
    cyclic = false ↔ ∀ symbols, s.Visits t symbols → (seen ++ symbols).Nodup := by
  induction h with
  | top hnone =>
    refine iff_of_true rfl fun symbols hvisits => ?_
    cases hvisits with
    | here => rwa [List.append_nil]
    | up hbase => exact (hnone _ _ hbase).elim
  | back hbase hseen =>
    refine iff_of_false Bool.false_ne_true.symm fun hall => ?_
    have honce := hall _ (.up hbase (.here _))
    exact (List.nodup_append.mp honce).2.2 _ hseen _ List.mem_cons_self rfl
  | up hbase hnew _ ih =>
    rw [ih (hnodup.cons hnew)]
    constructor
    · intro hall symbols hvisits
      cases hvisits with
      | here => rwa [List.append_nil]
      | up hbase' hvisits =>
        obtain ⟨rfl, rfl⟩ := hbase.unique hbase'
        exact List.nodup_middle.mpr (hall _ hvisits)
    · intro hall symbols hvisits
      exact List.nodup_middle.mp (hall _ (.up hbase hvisits))

/-- The chain visits no declaration twice when no defect is found in it. -/
theorem visitsOnce_iff (hwf : s.assembly.WellFormed) (ht : t.Fits s.assembly scope) :
    s.VisitsOnce t ↔ (s.basesOf t).2 = false := by
  refine ((walks_basesOf hwf ht).cyclic_eq_false_iff ?_).symm
  cases t.symbol? <;> simp

/-- A walk that does not come back would not come back either if less had been seen. -/
theorem Walks.of_subset (h : s.Walks seen t levels false) {seen' : List Symbol}
    (hsubset : seen' ⊆ seen) : s.Walks seen' t levels false := by
  generalize hcyclic : false = cyclic at h
  induction h generalizing seen' with
  | top hnone => exact .top hnone
  | back => exact (Bool.false_ne_true hcyclic).elim
  | up hbase hnew _ ih =>
    exact .up hbase (fun hmem => hnew (hsubset hmem)) (ih (List.cons_subset_cons _ hsubset) hcyclic)

/-- The bases of a type whose chain visits each declaration once: its base, and the bases of its
base. -/
theorem IsBase.basesOf_eq_cons (hwf : s.assembly.WellFormed) (ht : t.Fits s.assembly scope)
    (honce : s.VisitsOnce t) (hbase : s.IsBase t u symbol) :
    (s.basesOf t).1 = s.baseLevel u :: (s.basesOf u).1 := by
  have hwalk := walks_basesOf hwf ht
  rw [(visitsOnce_iff hwf ht).mp honce] at hwalk
  generalize (s.basesOf t).1 = levels at hwalk
  cases hwalk with
  | top hnone => exact (hnone _ _ hbase).elim
  | up hbase' _ habove =>
    obtain ⟨rfl, rfl⟩ := hbase.unique hbase'
    have hshort : s.Walks u.symbol?.toList u _ false :=
      habove.of_subset (by rw [hbase.symbol?_eq, Option.toList_some]; simp)
    rw [(hshort.unique (walks_basesOf hwf (hbase.fits hwf ht).1)).1]

end

end Setting

end FormatterPlan
