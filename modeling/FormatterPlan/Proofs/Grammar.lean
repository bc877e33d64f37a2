import FormatterPlan.Proofs.Loading
import FormatterPlan.Proofs.Spelling

/-! The grammar of written types as relations between tokens and trees, and the reader against it.
The reader of types accepts the texts that split into tokens which the grammar derives, and it
returns the tree of the derivation.  A derived sequence has no two identifiers in a row, so the
scanner finds it; the reader follows a derivation from left to right; and what the reader passes is
derived.  The bound on the depth of the reader is never reached. -/

namespace FormatterPlan

namespace TypeExpr

/-- What `suffix*` makes of a type: `suffix ::= '[' ','* ']' | '?'`, applied from left to right. -/
inductive Suffixed : List Token → TypeExpr → TypeExpr → Prop
  | done {type : TypeExpr} : Suffixed [] type type
  | array {rest : List Token} {type result : TypeExpr} (count : Nat)
      (hrest : Suffixed rest (.array type (min maxRank (count + 1))) result) :
      Suffixed (.punct '[' :: List.replicate count (.punct ',') ++ .punct ']' :: rest) type result
  | nullable {rest : List Token} {type result : TypeExpr}
      (hrest : Suffixed rest (.nullable type) result) : Suffixed (.punct '?' :: rest) type result

mutual

/-- `type ::= primary suffix*` -/
inductive IsType : List Token → TypeExpr → Prop
  | mk {first rest : List Token} {primary type : TypeExpr} (hprimary : IsPrimary first primary)
      (hrest : Suffixed rest primary type) : IsType (first ++ rest) type

/-- `primary ::= ident | ident '<' list '>' | '(' list ')'`, the last with at least two types. -/
inductive IsPrimary : List Token → TypeExpr → Prop
  | name (name : String) : IsPrimary [.ident name] (.named name [])
  | generic {tokens : List Token} {args : List TypeExpr} (name : String)
      (hargs : IsList tokens args) :
      IsPrimary (.ident name :: .punct '<' :: tokens ++ [.punct '>']) (.named name args)
  | tuple {tokens : List Token} {elements : List TypeExpr} (helements : IsList tokens elements)
      (hlength : 2 ≤ elements.length) :
      IsPrimary (.punct '(' :: tokens ++ [.punct ')']) (.tuple elements)

/-- `list ::= type (',' type)*` -/
inductive IsList : List Token → List TypeExpr → Prop
  | last {tokens : List Token} {type : TypeExpr} (htype : IsType tokens type) :
      IsList tokens [type]
  | cons {tokens rest : List Token} {type : TypeExpr} {types : List TypeExpr}
      (htype : IsType tokens type) (hrest : IsList rest types) :
      IsList (tokens ++ .punct ',' :: rest) (type :: types)

end

/-! ### Derived sequences -/

theorem apart_append_punct {before after : List Token} {mark : Char} :
    Token.Apart (before ++ .punct mark :: after) ↔ Token.Apart before ∧ Token.Apart after := by
  rw [Token.Apart, List.isChain_append, List.isChain_cons]
  simp [Token.Apart, Token.isIdent]

theorem apart_replicate_punct (count : Nat) (mark : Char) :
    Token.Apart (List.replicate count (.punct mark)) :=
  List.isChain_replicate_of_rel count fun _ => rfl

theorem Suffixed.apart {tokens : List Token} {type result : TypeExpr}
    (h : Suffixed tokens type result) {before : List Token} (hbefore : Token.Apart before) :
    Token.Apart (before ++ tokens) := by
  induction h generalizing before with
  | done => rwa [List.append_nil]
  | @array rest _ _ count _ ih =>
    have hrest : Token.Apart ([] ++ rest) := ih List.isChain_nil
    rw [List.cons_append, apart_append_punct]
    exact ⟨hbefore, apart_append_punct.mpr ⟨apart_replicate_punct count _, hrest⟩⟩
  | @nullable rest _ _ _ ih =>
    have hrest : Token.Apart ([] ++ rest) := ih List.isChain_nil
    exact apart_append_punct.mpr ⟨hbefore, hrest⟩

mutual

theorem IsType.apart {tokens : List Token} {type : TypeExpr} :
    IsType tokens type → Token.Apart tokens
  | .mk hprimary hrest => hrest.apart hprimary.apart

theorem IsPrimary.apart {tokens : List Token} {type : TypeExpr} :
    IsPrimary tokens type → Token.Apart tokens
  | .name name => List.isChain_singleton _
  | @IsPrimary.generic tokens args name hargs => by
    show Token.Apart ([.ident name] ++ .punct '<' :: (tokens ++ [.punct '>']))
    rw [apart_append_punct, apart_append_punct]
    exact ⟨List.isChain_singleton _, hargs.apart, List.isChain_nil⟩
  | @IsPrimary.tuple tokens elements helements _ => by
    show Token.Apart ([] ++ .punct '(' :: (tokens ++ [.punct ')']))
    rw [apart_append_punct, apart_append_punct]
    exact ⟨List.isChain_nil, helements.apart, List.isChain_nil⟩

theorem IsList.apart {tokens : List Token} {types : List TypeExpr} :
    IsList tokens types → Token.Apart tokens
  | .last htype => htype.apart
  | .cons htype hrest => apart_append_punct.mpr ⟨htype.apart, hrest.apart⟩

end

/-! ### Suffixes -/

theorem commas_replicate (count : Nat) (rest : List Token) :
    commas (List.replicate count (.punct ',') ++ .punct ']' :: rest) =
      (count, .punct ']' :: rest) := by
  induction count with
  | zero => rfl
  | succ count ih => rw [List.replicate_succ, List.cons_append, commas, ih]

theorem eq_replicate_of_commas (tokens : List Token) :
    tokens = List.replicate (commas tokens).1 (.punct ',') ++ (commas tokens).2 := by
  fun_induction commas tokens with
  | case1 rest ih => exact congrArg (Token.punct ',' :: ·) ih
  | case2 => rfl

theorem suffixes_array (type : TypeExpr) (count : Nat) (rest : List Token) :
    suffixes type (.punct '[' :: (List.replicate count (.punct ',') ++ .punct ']' :: rest)) =
      suffixes (.array type (min maxRank (count + 1))) rest := by
  rw [suffixes]
  split
  · rename_i heq
    rw [commas_replicate] at heq
    simp only [Prod.mk.injEq, List.cons.injEq, true_and] at heq
    rw [heq.1, heq.2]
  · rename_i hother
    exact absurd (commas_replicate count rest) (hother count rest)

theorem suffixes_nullable (type : TypeExpr) (rest : List Token) :
    suffixes type (.punct '?' :: rest) = suffixes (.nullable type) rest := by
  rw [suffixes]

/-- Whether a sequence goes on with neither arguments nor a suffix. -/
def Ended (rest : List Token) : Prop :=
  rest.head? ∉ [some (.punct '<'), some (.punct '['), some (.punct '?')]

theorem suffixes_of_ended {type : TypeExpr} {rest : List Token} (h : Ended rest) :
    suffixes type rest = .ok (type, rest) := by
  unfold suffixes
  split
  · simp [Ended] at h
  · simp [Ended] at h
  · rfl

theorem Suffixed.suffixes_eq {tokens rest : List Token} {type result : TypeExpr}
    (h : Suffixed tokens type result) (hrest : Ended rest) :
    suffixes type (tokens ++ rest) = .ok (result, rest) := by
  induction h with
  | done => exact suffixes_of_ended hrest
  | array count _ ih =>
    rw [List.append_assoc, List.cons_append, List.cons_append, suffixes_array]
    exact ih
  | nullable _ ih =>
    rw [List.cons_append, suffixes_nullable]
    exact ih

/-- What follows a primary type is no argument list. -/
theorem Suffixed.head_ne {tokens rest : List Token} {type result : TypeExpr}
    (h : Suffixed tokens type result) (hrest : Ended rest) :
    (tokens ++ rest).head? ≠ some (.punct '<') := by
  cases h with
  | done =>
    intro hhead
    exact hrest (hhead ▸ List.mem_cons_self)
  | array => simp
  | nullable => simp

theorem suffixed_of_suffixes {tokens rest : List Token} {type result : TypeExpr}
    (h : suffixes type tokens = .ok (result, rest)) :
    ∃ before, tokens = before ++ rest ∧ Suffixed before type result := by
  fun_induction suffixes type tokens with
  | case1 type inner count after hcommas ih =>
    obtain ⟨before, rfl, hbefore⟩ := ih h
    refine ⟨_, ?_, .array count hbefore⟩
    have hinner := eq_replicate_of_commas inner
    rw [hcommas] at hinner
    rw [hinner, List.append_assoc, List.cons_append, List.cons_append]
  | case2 => simp at h
  | case3 type inner ih =>
    obtain ⟨before, rfl, hbefore⟩ := ih h
    exact ⟨_, rfl, .nullable hbefore⟩
  | case4 type tokens =>
    obtain ⟨rfl, rfl⟩ : type = result ∧ tokens = rest := by simpa using h
    exact ⟨[], rfl, .done⟩

/-! ### The reader -/

theorem readType_tuple (depth : Nat) (rest : List Token) :
    readType (depth + 1) (.punct '(' :: rest) =
      (readList depth ')' rest >>= fun (elements, after) =>
        if elements.length < 2 then .error .shortTuple else suffixes (.tuple elements) after) := by
  rw [readType]

theorem readType_generic (depth : Nat) (name : String) (rest : List Token) :
    readType (depth + 1) (.ident name :: .punct '<' :: rest) =
      (readList depth '>' rest >>= fun (args, after) => suffixes (.named name args) after) := by
  rw [readType]

theorem readType_name (depth : Nat) (name : String) {rest : List Token}
    (h : rest.head? ≠ some (.punct '<')) :
    readType (depth + 1) (.ident name :: rest) = suffixes (.named name []) rest := by
  rw [readType]
  rintro after rfl
  exact h rfl

theorem readType_mark (depth : Nat) {mark : Char} (rest : List Token) (h : mark ≠ '(') :
    readType depth (.punct mark :: rest) = .error (.noName (some (.punct mark))) := by
  cases depth with
  | zero => rw [readType, List.head?_cons]
  | succ depth =>
    rw [readType, List.head?_cons]
    · rintro _ heq
      exact h (Token.punct.inj (List.cons.inj heq).1)
    · simp
    · simp

/-- The primary types that start a type, each with what is read after it. -/
theorem readType_cases {depth : Nat} {tokens : List Token} {result : TypeExpr × List Token}
    (h : readType depth tokens = .ok result) : ∃ smaller, depth = smaller + 1 ∧
      ((∃ rest elements after, tokens = .punct '(' :: rest ∧
          readList smaller ')' rest = .ok (elements, after) ∧ 2 ≤ elements.length ∧
          suffixes (.tuple elements) after = .ok result) ∨
        (∃ name rest args after, tokens = .ident name :: .punct '<' :: rest ∧
          readList smaller '>' rest = .ok (args, after) ∧
          suffixes (.named name args) after = .ok result) ∨
        ∃ name rest, tokens = .ident name :: rest ∧
          suffixes (.named name []) rest = .ok result) := by
  unfold readType at h
  split at h
  · simp at h
  · rename_i depth rest
    obtain ⟨⟨elements, after⟩, hlist, h⟩ := bind_eq_ok_iff.mp h
    refine ⟨depth, rfl, .inl ⟨rest, elements, after, rfl, hlist, ?_⟩⟩
    dsimp only at h
    split at h
    · simp at h
    · rename_i hlength
      exact ⟨Nat.not_lt.mp hlength, h⟩
  · rename_i depth name rest
    obtain ⟨⟨args, after⟩, hlist, h⟩ := bind_eq_ok_iff.mp h
    exact ⟨depth, rfl, .inr (.inl ⟨name, rest, args, after, rfl, hlist, h⟩)⟩
  · rename_i depth name rest _
    exact ⟨depth, rfl, .inr (.inr ⟨name, rest, rfl, h⟩)⟩
  · simp at h

/-- The last step of a list, or its first of several. -/
theorem readList_cases {depth : Nat} {close : Char} {tokens : List Token}
    {result : List TypeExpr × List Token} (h : readList depth close tokens = .ok result) :
    ∃ smaller first after, depth = smaller + 1 ∧ readType smaller tokens = .ok (first, after) ∧
      ((∃ rest others last, after = .punct ',' :: rest ∧
          readList smaller close rest = .ok (others, last) ∧ result = (first :: others, last)) ∨
        ∃ rest, after = .punct close :: rest ∧ result = ([first], rest)) := by
  unfold readList at h
  split at h
  · simp at h
  · rename_i depth
    obtain ⟨⟨first, after⟩, hfirst, h⟩ := bind_eq_ok_iff.mp h
    refine ⟨depth, first, after, rfl, hfirst, ?_⟩
    dsimp only at h
    split at h
    · rename_i rest heq
      obtain ⟨rfl, rfl⟩ := Prod.mk.inj heq
      obtain ⟨⟨others, last⟩, hlist, h⟩ := bind_eq_ok_iff.mp h
      exact .inl ⟨rest, others, last, rfl, hlist, (Except.ok.inj h).symm⟩
    · rename_i mark rest _ heq
      obtain ⟨rfl, rfl⟩ := Prod.mk.inj heq
      split at h
      · rename_i hmark
        exact .inr ⟨rest, by rw [hmark], (Except.ok.inj h).symm⟩
      · simp at h
    · simp at h

theorem readList_last {depth : Nat} {close : Char} {tokens after : List Token} {type : TypeExpr}
    (h : readType depth tokens = .ok (type, after)) (hcomma : after.head? ≠ some (.punct ',')) :
    readList (depth + 1) close tokens =
      if after.head? = some (.punct close) then .ok ([type], after.tail)
      else .error (.missing close) := by
  rw [readList, h]
  rcases after with _ | ⟨name | mark, rest⟩
  · rfl
  · rfl
  · have hmark : mark ≠ ',' := by rintro rfl; exact hcomma rfl
    simp [bind, Except.bind]

theorem readList_cons {depth : Nat} {close : Char} {tokens rest : List Token} {type : TypeExpr}
    (h : readType depth tokens = .ok (type, .punct ',' :: rest)) :
    readList (depth + 1) close tokens =
      (readList depth close rest).map fun (others, after) => (type :: others, after) := by
  rw [readList, h]
  rfl

/-! ### The reader follows derivations -/

mutual

/-- A derived type is read, with anything after it that does not go on with the type. -/
theorem IsType.readType_eq {tokens : List Token} {type : TypeExpr} :
    IsType tokens type → ∀ {depth : Nat} {rest : List Token}, 2 * tokens.length ≤ depth →
      Ended rest → readType depth (tokens ++ rest) = .ok (type, rest)
  | .mk hprimary hsuffixes, depth, rest, hdepth, hrest => by
    rw [List.length_append] at hdepth
    rw [List.append_assoc, hprimary.readType_eq (by omega) (hsuffixes.head_ne hrest)]
    exact hsuffixes.suffixes_eq hrest

theorem IsPrimary.readType_eq {tokens : List Token} {type : TypeExpr} :
    IsPrimary tokens type → ∀ {depth : Nat} {rest : List Token}, 2 * tokens.length ≤ depth →
      rest.head? ≠ some (.punct '<') → readType depth (tokens ++ rest) = suffixes type rest
  | .name name, depth + 1, rest, _, hrest => readType_name depth name hrest
  | @IsPrimary.generic tokens args name hargs, depth + 1, rest, hdepth, _ => by
    have hlength : 2 * tokens.length + 1 ≤ depth := by
      simp only [List.length_cons, List.length_append] at hdepth
      omega
    have hended : Ended (.punct '>' :: rest) := by simp [Ended]
    have hlist := hargs.readList_eq hlength (by decide) hended
    rw [List.append_assoc, List.cons_append, List.cons_append, readType_generic,
      List.singleton_append, hlist]
    rfl
  | @IsPrimary.tuple tokens elements helements hcount, depth + 1, rest, hdepth, _ => by
    have hlength : 2 * tokens.length + 1 ≤ depth := by
      simp only [List.length_cons, List.length_append] at hdepth
      omega
    have hended : Ended (.punct ')' :: rest) := by simp [Ended]
    have hlist := helements.readList_eq hlength (by decide) hended
    rw [List.append_assoc, List.cons_append, readType_tuple, List.singleton_append, hlist]
    exact if_neg (Nat.not_lt.mpr hcount)

-- A closing mark has to end a type for the list to stop in front of it.
theorem IsList.readList_eq {tokens : List Token} {types : List TypeExpr} :
    IsList tokens types → ∀ {depth : Nat} {close : Char} {rest : List Token},
      2 * tokens.length + 1 ≤ depth → close ≠ ',' → Ended (.punct close :: rest) →
      readList depth close (tokens ++ .punct close :: rest) = .ok (types, rest)
  | .last htype, depth + 1, close, rest, hdepth, hclose, hended => by
    have hcomma : (Token.punct close :: rest).head? ≠ some (.punct ',') := by simpa using hclose
    rw [readList_last (htype.readType_eq (by omega) hended) hcomma, List.head?_cons, if_pos rfl,
      List.tail_cons]
  | @IsList.cons tokens others type types htype hothers, depth + 1, close, rest, hdepth, hclose,
      hended => by
    rw [List.length_append, List.length_cons] at hdepth
    have hfirst : Ended (.punct ',' :: (others ++ .punct close :: rest)) := by simp [Ended]
    rw [List.append_assoc, List.cons_append, readList_cons (htype.readType_eq (by omega) hfirst),
      hothers.readList_eq (by omega) hclose hended]
    rfl

end

/-! ### The reader passes derivations only -/

/-- What is read is derived. -/
theorem derived_of_read (depth : Nat) :
    (∀ {tokens rest : List Token} {type : TypeExpr}, readType depth tokens = .ok (type, rest) →
      ∃ before, tokens = before ++ rest ∧ IsType before type) ∧
    ∀ {close : Char} {tokens rest : List Token} {types : List TypeExpr},
      readList depth close tokens = .ok (types, rest) →
        ∃ before, tokens = before ++ .punct close :: rest ∧ IsList before types := by
  induction depth with
  | zero =>
    constructor
    · intro tokens rest type h
      obtain ⟨_, hdepth, -⟩ := readType_cases h
      simp at hdepth
    · intro close tokens rest types h
      obtain ⟨_, _, _, hdepth, -⟩ := readList_cases h
      simp at hdepth
  | succ depth ih =>
    obtain ⟨ihtype, ihlist⟩ := ih
    constructor
    · intro tokens rest type h
      obtain ⟨_, hdepth, hcases⟩ := readType_cases h
      obtain rfl := Nat.succ.inj hdepth
      obtain ⟨inner, elements, after, rfl, hlist, hlength, hafter⟩ |
        ⟨name, inner, args, after, rfl, hlist, hafter⟩ | ⟨name, after, rfl, hafter⟩ := hcases
      · obtain ⟨before, rfl, helements⟩ := ihlist hlist
        obtain ⟨more, rfl, hmore⟩ := suffixed_of_suffixes hafter
        exact ⟨_, by simp, .mk (.tuple helements hlength) hmore⟩
      · obtain ⟨before, rfl, hargs⟩ := ihlist hlist
        obtain ⟨more, rfl, hmore⟩ := suffixed_of_suffixes hafter
        exact ⟨_, by simp, .mk (.generic name hargs) hmore⟩
      · obtain ⟨more, rfl, hmore⟩ := suffixed_of_suffixes hafter
        exact ⟨_, rfl, .mk (.name name) hmore⟩
    · intro close tokens rest types h
      obtain ⟨_, first, after, hdepth, hfirst, hcases⟩ := readList_cases h
      obtain rfl := Nat.succ.inj hdepth
      obtain ⟨before, rfl, htype⟩ := ihtype hfirst
      obtain ⟨inner, others, last, rfl, hlist, heq⟩ | ⟨inner, rfl, heq⟩ := hcases
      · obtain ⟨rfl, rfl⟩ := Prod.mk.inj heq
        obtain ⟨more, rfl, hothers⟩ := ihlist hlist
        exact ⟨_, by simp, .cons htype hothers⟩
      · obtain ⟨rfl, rfl⟩ := Prod.mk.inj heq
        exact ⟨before, rfl, .last htype⟩

/-- The types derived from a sequence are those that are read from all of it, at any depth that
suffices. -/
theorem isType_iff_readType {depth : Nat} {tokens : List Token} {type : TypeExpr}
    (hdepth : 2 * tokens.length ≤ depth) :
    IsType tokens type ↔ readType depth tokens = .ok (type, []) := by
  constructor
  · intro h
    have hended : Ended [] := by simp [Ended]
    have hread := h.readType_eq hdepth hended
    rwa [List.append_nil] at hread
  · intro h
    obtain ⟨before, rfl, htype⟩ := (derived_of_read depth).1 h
    rwa [List.append_nil]

/-- A sequence is derived in one way at most. -/
theorem IsType.unique {tokens : List Token} {type other : TypeExpr} (h : IsType tokens type)
    (hother : IsType tokens other) : type = other := by
  rw [isType_iff_readType (Nat.le_refl _)] at h hother
  rw [h] at hother
  simpa using hother

/-! ### The bound on the depth -/

/-- Where one more level makes no difference to lists of fewer tokens, it makes none to a type. -/
theorem readType_succ {depth : Nat} {tokens : List Token}
    (hlist : ∀ close rest, List.length rest < tokens.length →
      readList (depth + 1) close rest = readList depth close rest) :
    readType (depth + 2) tokens = readType (depth + 1) tokens := by
  cases tokens with
  | nil => simp only [readType]
  | cons first rest =>
    cases first with
    | punct mark =>
      by_cases hmark : mark = '('
      · rw [hmark, readType_tuple, readType_tuple, hlist _ _ (Nat.lt_succ_self _)]
      · rw [readType_mark _ _ hmark, readType_mark _ _ hmark]
    | ident name =>
      by_cases hargs : rest.head? = some (.punct '<')
      · obtain ⟨inner, rfl⟩ := List.head?_eq_some_iff.mp hargs
        rw [readType_generic, readType_generic, hlist _ _ (by simp only [List.length_cons]; omega)]
      · rw [readType_name _ _ hargs, readType_name _ _ hargs]

/-- One more level than twice the number of tokens makes no difference. -/
theorem read_succ (depth : Nat) :
    (∀ tokens, 2 * tokens.length + 1 ≤ depth →
      readType (depth + 1) tokens = readType depth tokens) ∧
    ∀ close tokens, 2 * tokens.length + 2 ≤ depth →
      readList (depth + 1) close tokens = readList depth close tokens := by
  induction depth with
  | zero => simp
  | succ depth ih =>
    obtain ⟨ihtype, ihlist⟩ := ih
    constructor
    · intro tokens hdepth
      apply readType_succ
      intro close rest hrest
      exact ihlist close rest (by omega)
    · intro close tokens hdepth
      have htype := ihtype tokens (by omega)
      cases hread : readType depth tokens with
      | error fault => rw [readList, readList, htype, hread]; rfl
      | ok result =>
        obtain ⟨first, after⟩ := result
        obtain ⟨before, rfl, -⟩ := (derived_of_read depth).1 hread
        -- After a comma the list goes on, with fewer tokens.
        by_cases hcomma : after.head? = some (.punct ',')
        · obtain ⟨rest, rfl⟩ := List.head?_eq_some_iff.mp hcomma
          have hrest : 2 * rest.length + 2 ≤ depth := by
            simp only [List.length_append, List.length_cons] at hdepth
            omega
          rw [readList_cons hread, readList_cons (htype.trans hread), ihlist close rest hrest]
        · rw [readList_last hread hcomma, readList_last (htype.trans hread) hcomma]

/-- A depth above twice the number of tokens is never used up. -/
theorem readType_eq_of_le {depth : Nat} {tokens : List Token}
    (hdepth : 2 * tokens.length + 2 ≤ depth) :
    readType depth tokens = readType (2 * tokens.length + 2) tokens := by
  induction depth, hdepth using Nat.le_induction with
  | base => rfl
  | succ depth hdepth ih => rw [(read_succ depth).1 tokens (by omega), ih]

end TypeExpr

end FormatterPlan
