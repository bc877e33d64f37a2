import FormatterPlan.Proofs.Grammar

/-! Texts of types.  The text of a tree splits into the tokens of the tree, and the grammar derives
the tree from these, so a reader of types that follows the grammar finds the tree again.  This asks
for no more than what the reader gives: names are identifiers, arrays have from one to the most
dimensions, and tuples have two elements or more. -/

namespace FormatterPlan

namespace Token

/-! ### Texts side by side -/

theorem Splits.append_blanks {blanks cs : List Char} {tokens : List Token} (h : Splits cs tokens)
    (hblanks : ∀ c ∈ blanks, Text.isBlank c = true) : Splits (blanks ++ cs) tokens := by
  cases h with
  | blank hcs => exact .blank (List.forall_mem_append.mpr ⟨hblanks, hcs⟩)
  | token hcs htoken hrest =>
    rw [← List.append_assoc, ← List.append_assoc]
    exact .token (List.forall_mem_append.mpr ⟨hblanks, hcs⟩) htoken hrest

theorem Splits.append {cs ds : List Char} {tokens others : List Token} (h : Splits cs tokens)
    (hothers : Splits ds others) : Splits (cs ++ ds) (tokens ++ others) := by
  induction h with
  | blank hblanks => exact hothers.append_blanks hblanks
  | token hblanks htoken _ ih =>
    rw [List.append_assoc, List.cons_append]
    exact .token hblanks htoken ih

theorem splits_token {token : Token} (h : token.isToken = true) : Splits token.chars [token] := by
  have hsplit := Splits.token (List.forall_mem_nil _) h (.blank (List.forall_mem_nil _))
  rwa [List.nil_append, List.append_nil] at hsplit

/-- A text is made of nothing but tokens. -/
theorem Splits.isToken {cs : List Char} {tokens : List Token} (h : Splits cs tokens) :
    ∀ token ∈ tokens, token.isToken = true := by
  induction h with
  | blank => exact List.forall_mem_nil _
  | token _ htoken _ ih => exact List.forall_mem_cons.mpr ⟨htoken, ih⟩

end Token

namespace TypeExpr

/-- Induction over trees, with the hypothesis for every argument and every element. -/
@[elab_as_elim]
theorem induction {P : TypeExpr → Prop}
    (named : ∀ name args, (∀ e ∈ args, P e) → P (.named name args))
    (array : ∀ element rank, P element → P (.array element rank))
    (tuple : ∀ elements, (∀ e ∈ elements, P e) → P (.tuple elements))
    (nullable : ∀ inner, P inner → P (.nullable inner)) (e : TypeExpr) : P e := by
  refine @TypeExpr.rec P (fun es => ∀ e ∈ es, P e) named array tuple nullable ?_ ?_ e
  · exact List.forall_mem_nil _
  · intro e es he hes
    exact List.forall_mem_cons.mpr ⟨he, hes⟩

mutual

/-- A tree of identifiers, of arrays of one to `maxRank` dimensions, and of tuples of at least two
elements. -/
def Writable : TypeExpr → Prop
  | .named name args => Token.isIdentifier name = true ∧ AllWritable args
  | .array element rank => Writable element ∧ 1 ≤ rank ∧ rank ≤ maxRank
  | .tuple elements => 2 ≤ elements.length ∧ AllWritable elements
  | .nullable inner => Writable inner

def AllWritable : List TypeExpr → Prop
  | [] => True
  | e :: es => Writable e ∧ AllWritable es

end

theorem allWritable_iff {es : List TypeExpr} : AllWritable es ↔ ∀ e ∈ es, e.Writable := by
  induction es with
  | nil => simp [AllWritable]
  | cons e es ih => simp [AllWritable, ih]

@[simp] theorem writable_named {name : String} {args : List TypeExpr} :
    (named name args).Writable ↔ Token.isIdentifier name = true ∧ ∀ e ∈ args, e.Writable := by
  rw [Writable, allWritable_iff]

@[simp] theorem writable_array {element : TypeExpr} {rank : Nat} :
    (array element rank).Writable ↔ element.Writable ∧ 1 ≤ rank ∧ rank ≤ maxRank := .rfl

@[simp] theorem writable_tuple {elements : List TypeExpr} :
    (tuple elements).Writable ↔ 2 ≤ elements.length ∧ ∀ e ∈ elements, e.Writable := by
  rw [Writable, allWritable_iff]

@[simp] theorem writable_nullable {inner : TypeExpr} :
    (nullable inner).Writable ↔ inner.Writable := .rfl

mutual

/-- The text of a tree, with a space after each comma between types. -/
def text : TypeExpr → String
  | .named name [] => name
  | .named name (arg :: args) => name ++ "<" ++ text arg ++ textAfter args ++ ">"
  | .array element rank =>
    text element ++ "[" ++ String.ofList (List.replicate (rank - 1) ',') ++ "]"
  | .tuple [] => "()"
  | .tuple (element :: elements) => "(" ++ text element ++ textAfter elements ++ ")"
  | .nullable inner => text inner ++ "?"

/-- The texts of further types, each after a comma. -/
def textAfter : List TypeExpr → String
  | [] => ""
  | e :: es => ", " ++ text e ++ textAfter es

end

mutual

/-- The tokens of a tree. -/
def tokens : TypeExpr → List Token
  | .named name [] => [.ident name]
  | .named name (arg :: args) =>
    .ident name :: .punct '<' :: (tokens arg ++ tokensAfter args) ++ [.punct '>']
  | .array element rank =>
    tokens element ++ .punct '[' :: List.replicate (rank - 1) (.punct ',') ++ [.punct ']']
  | .tuple [] => [.punct '(', .punct ')']
  | .tuple (element :: elements) =>
    .punct '(' :: (tokens element ++ tokensAfter elements) ++ [.punct ')']
  | .nullable inner => tokens inner ++ [.punct '?']

/-- The tokens of further types, each after a comma. -/
def tokensAfter : List TypeExpr → List Token
  | [] => []
  | e :: es => .punct ',' :: tokens e ++ tokensAfter es

end

/-! ### The tokens of a tree -/

theorem Suffixed.append {before after : List Token} {type middle result : TypeExpr}
    (h : Suffixed before type middle) (hafter : Suffixed after middle result) :
    Suffixed (before ++ after) type result := by
  induction h with
  | done => exact hafter
  | array count _ ih =>
    rw [List.append_assoc, List.cons_append]
    exact .array count (ih hafter)
  | nullable _ ih => exact .nullable (ih hafter)

theorem IsType.append {before after : List Token} {type result : TypeExpr}
    (h : IsType before type) (hafter : Suffixed after type result) :
    IsType (before ++ after) result := by
  cases h with
  | mk hprimary hrest =>
    rw [List.append_assoc]
    exact .mk hprimary (hrest.append hafter)

theorem IsPrimary.isType {tokens : List Token} {type : TypeExpr} (h : IsPrimary tokens type) :
    IsType tokens type := by
  have htype := IsType.mk h .done
  rwa [List.append_nil] at htype

theorem isList_tokens {e : TypeExpr} {es : List TypeExpr}
    (h : ∀ t ∈ e :: es, IsType t.tokens t) : IsList (e.tokens ++ tokensAfter es) (e :: es) := by
  induction es generalizing e with
  | nil =>
    rw [tokensAfter, List.append_nil]
    exact .last (h e List.mem_cons_self)
  | cons next es ih =>
    rw [tokensAfter, List.cons_append]
    exact .cons (h e List.mem_cons_self) (ih fun t ht => h t (List.mem_cons_of_mem e ht))

/-- A writable tree is derived from its tokens. -/
theorem Writable.isType {e : TypeExpr} (h : e.Writable) : IsType e.tokens e := by
  induction e using TypeExpr.induction with
  | named name args ih =>
    rw [writable_named] at h
    have hargs : ∀ e ∈ args, IsType e.tokens e := fun e he => ih e he (h.2 e he)
    cases args with
    | nil => exact (IsPrimary.name name).isType
    | cons arg args => exact (IsPrimary.generic name (isList_tokens hargs)).isType
  | array element rank ih =>
    obtain ⟨helement, hpos, hmax⟩ := writable_array.mp h
    -- The rank is one that is kept.
    have hrank : min maxRank (rank - 1 + 1) = rank := by omega
    rw [tokens, List.append_assoc]
    apply (ih helement).append
    apply Suffixed.array
    rw [hrank]
    exact .done
  | tuple elements ih =>
    rw [writable_tuple] at h
    have helements : ∀ e ∈ elements, IsType e.tokens e := fun e he => ih e he (h.2 e he)
    cases elements with
    | nil => simp at h
    | cons element elements => exact (IsPrimary.tuple (isList_tokens helements) h.1).isType
  | nullable inner ih => exact (ih h).append (.nullable .done)

/-! ### The text of a tree -/

theorem splits_mark (mark : Char) (h : Token.isPunct mark = true) :
    Token.Splits [mark] [.punct mark] := by
  have htoken : (Token.punct mark).isToken = true := h
  exact Token.splits_token htoken

theorem splits_textAfter {es : List TypeExpr} (h : ∀ e ∈ es, Token.Splits e.text.toList e.tokens) :
    Token.Splits (textAfter es).toList (tokensAfter es) := by
  induction es with
  | nil => exact .blank (List.forall_mem_nil _)
  | cons e es ih =>
    obtain ⟨he, hes⟩ := List.forall_mem_cons.mp h
    have hspace : Token.Splits [' '] [] := .blank (List.forall_mem_singleton.mpr (by decide))
    have hcomma := (splits_mark ',' (by decide)).append hspace
    rw [textAfter, tokensAfter, String.toList_append, String.toList_append]
    exact (hcomma.append he).append (ih hes)

theorem splits_commas (count : Nat) :
    Token.Splits (List.replicate count ',') (List.replicate count (.punct ',')) := by
  induction count with
  | zero => exact .blank (List.forall_mem_nil _)
  | succ count ih => exact (splits_mark ',' (by decide)).append ih

/-- The text of a writable tree splits into its tokens. -/
theorem Writable.splits {e : TypeExpr} (h : e.Writable) : Token.Splits e.text.toList e.tokens := by
  induction e using TypeExpr.induction with
  | named name args ih =>
    obtain ⟨hname, hargs⟩ := writable_named.mp h
    have hident : (Token.ident name).isToken = true := hname
    have hargs : ∀ e ∈ args, Token.Splits e.text.toList e.tokens := fun e he =>
      ih e he (hargs e he)
    cases args with
    | nil => exact Token.splits_token hident
    | cons arg args =>
      obtain ⟨harg, hargs⟩ := List.forall_mem_cons.mp hargs
      have hopen := (Token.splits_token hident).append (splits_mark '<' (by decide))
      have hall := ((hopen.append harg).append (splits_textAfter hargs)).append
        (splits_mark '>' (by decide))
      simpa [text, tokens, Token.chars, String.toList_append] using hall
  | array element rank ih =>
    obtain ⟨helement, -, -⟩ := writable_array.mp h
    have hopen := (ih helement).append (splits_mark '[' (by decide))
    have hall := (hopen.append (splits_commas (rank - 1))).append (splits_mark ']' (by decide))
    simpa [text, tokens, String.toList_append] using hall
  | tuple elements ih =>
    obtain ⟨hlength, helements⟩ := writable_tuple.mp h
    have helements : ∀ e ∈ elements, Token.Splits e.text.toList e.tokens := fun e he =>
      ih e he (helements e he)
    cases elements with
    | nil => simp at hlength
    | cons element elements =>
      obtain ⟨helement, helements⟩ := List.forall_mem_cons.mp helements
      have hopen := (splits_mark '(' (by decide)).append helement
      have hall := (hopen.append (splits_textAfter helements)).append (splits_mark ')' (by decide))
      simpa [text, tokens, String.toList_append] using hall
  | nullable inner ih =>
    rw [text, tokens, String.toList_append]
    exact (ih h).append (splits_mark '?' (by decide))

/-! ### What is derived can be written -/

theorem Suffixed.writable {tokens : List Token} {type result : TypeExpr}
    (h : Suffixed tokens type result) (htype : type.Writable) : result.Writable := by
  induction h with
  | done => exact htype
  | array count _ ih =>
    apply ih
    have hmax : 1 ≤ maxRank := by decide
    exact writable_array.mpr ⟨htype, by omega, Nat.min_le_left _ _⟩
  | nullable _ ih => exact ih (writable_nullable.mpr htype)

mutual

/-- A tree is writable when it is derived from tokens. -/
theorem IsType.writable {tokens : List Token} {type : TypeExpr} :
    IsType tokens type → (∀ t ∈ tokens, t.isToken = true) → type.Writable
  | .mk hprimary hrest, htokens =>
    hrest.writable (hprimary.writable fun t ht => htokens t (List.mem_append_left _ ht))

theorem IsPrimary.writable {tokens : List Token} {type : TypeExpr} :
    IsPrimary tokens type → (∀ t ∈ tokens, t.isToken = true) → type.Writable
  | .name name, htokens =>
    writable_named.mpr ⟨htokens _ List.mem_cons_self, List.forall_mem_nil _⟩
  | .generic name hargs, htokens =>
    writable_named.mpr ⟨htokens (.ident name) (by simp),
      hargs.writable fun t ht => htokens t (by simp [ht])⟩
  | .tuple helements hlength, htokens =>
    writable_tuple.mpr ⟨hlength, helements.writable fun t ht => htokens t (by simp [ht])⟩

theorem IsList.writable {tokens : List Token} {types : List TypeExpr} :
    IsList tokens types → (∀ t ∈ tokens, t.isToken = true) → ∀ e ∈ types, e.Writable
  | .last htype, htokens => List.forall_mem_singleton.mpr (htype.writable htokens)
  | .cons htype hrest, htokens =>
    List.forall_mem_cons.mpr ⟨htype.writable fun t ht => htokens t (by simp [ht]),
      hrest.writable fun t ht => htokens t (by simp [ht])⟩

end

/-! ### Reading texts -/

/-- A text is read as a tree when it splits into tokens that the tree is derived from. -/
theorem parse_eq_ok_iff {text : String} {e : TypeExpr} :
    parse text = .ok e ↔ ∃ tokens, Token.Splits text.toList tokens ∧ IsType tokens e := by
  simp only [parse, bind_eq_ok_iff, mapError_eq_ok_iff]
  constructor
  · rintro ⟨tokens, htokens, ⟨type, rest⟩, hread, h⟩
    refine ⟨tokens, Token.splits_of_scan htokens, ?_⟩
    cases rest with
    | nil =>
      obtain rfl : type = e := by simpa using h
      exact (isType_iff_readType (by omega)).mpr hread
    | cons => simp at h
  · rintro ⟨tokens, hsplits, htype⟩
    exact ⟨tokens, Token.scan_of_splits hsplits htype.apart, (e, []),
      (isType_iff_readType (by omega)).mp htype, rfl⟩

/-- The text of a tree is read as the tree. -/
theorem Writable.parse_text {e : TypeExpr} (h : e.Writable) : parse e.text = .ok e :=
  parse_eq_ok_iff.mpr ⟨e.tokens, h.splits, h.isType⟩

theorem writable_of_parse {text : String} {e : TypeExpr} (h : parse text = .ok e) :
    e.Writable := by
  obtain ⟨tokens, hsplits, htype⟩ := parse_eq_ok_iff.mp h
  exact htype.writable hsplits.isToken

/-- The reader of types follows the grammar.  It accepts the texts that split into tokens which the
grammar derives; such a text splits into one such sequence only, from which one tree is derived, and
that tree is the result.  A writable tree is the result for every text that splits into its tokens,
its own text among them.  The bound on the depth is never what makes a text fail. -/
theorem parse_follows_grammar :
    (∀ text e, parse text = .ok e ↔
      ∃ tokens, Token.Splits text.toList tokens ∧ IsType tokens e) ∧
    (∀ cs tokens others e f, Token.Splits cs tokens → IsType tokens e →
      Token.Splits cs others → IsType others f → tokens = others ∧ e = f) ∧
    (∀ e, Writable e → (∀ text, Token.Splits text.toList e.tokens → parse text = .ok e) ∧
      parse e.text = .ok e) ∧
    ∀ tokens depth, 2 * tokens.length + 2 ≤ depth →
      readType depth tokens = readType (2 * tokens.length + 2) tokens := by
  refine ⟨fun _ _ => parse_eq_ok_iff, ?_, ?_, fun _ _ => readType_eq_of_le⟩
  · intro cs tokens others e f htokens he hothers hf
    have hscan := Token.scan_of_splits htokens he.apart
    rw [Token.scan_of_splits hothers hf.apart] at hscan
    obtain rfl : others = tokens := by simpa using hscan
    exact ⟨rfl, he.unique hf⟩
  · intro e he
    refine ⟨fun text hsplits => ?_, he.parse_text⟩
    exact parse_eq_ok_iff.mpr ⟨e.tokens, hsplits, he.isType⟩

example : (array (named "A" [named "B" [], nullable (named "C" [])]) 2).text = "A<B, C?>[,]" := by
  decide +kernel

end TypeExpr

end FormatterPlan
