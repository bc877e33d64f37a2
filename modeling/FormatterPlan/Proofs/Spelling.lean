import FormatterPlan.Proofs.Results
import FormatterPlan.TypeExpr.Token
import Mathlib.Data.List.Chain
import Mathlib.Data.List.TakeWhile
import Mathlib.Tactic.Tauto

/-! Texts as sequences of tokens.  A text splits into tokens when it consists of their characters in
order, with nothing but white space between and around them.  A text may split in several ways, for
an identifier is also a row of shorter ones; the scanner finds the way in which no two identifiers
follow each other without white space, so it finds every way in which no two follow each other. -/

namespace FormatterPlan

namespace Token

/-- The characters of a token. -/
def chars : Token → List Char
  | .ident name => name.toList
  | .punct mark => [mark]

def isIdentifierChars : List Char → Bool
  | [] => false
  | first :: rest => isIdentStart first && rest.all isIdentRest

/-- Whether a name is one identifier. -/
def isIdentifier (name : String) : Bool := isIdentifierChars name.toList

/-- Whether a token is an identifier or one of the eight marks. -/
def isToken : Token → Bool
  | .ident name => isIdentifier name
  | .punct mark => isPunct mark

def isIdent : Token → Bool
  | .ident _ => true
  | .punct _ => false

/-- A text consists of tokens, with white space between and around them. -/
inductive Splits : List Char → List Token → Prop
  | blank {blanks : List Char} (hblanks : ∀ c ∈ blanks, Text.isBlank c = true) : Splits blanks []
  | token {blanks rest : List Char} {token : Token} {tokens : List Token}
      (hblanks : ∀ c ∈ blanks, Text.isBlank c = true) (htoken : token.isToken = true)
      (hrest : Splits rest tokens) : Splits (blanks ++ token.chars ++ rest) (token :: tokens)

/-- No two identifiers follow each other. -/
def Apart (tokens : List Token) : Prop :=
  tokens.IsChain fun a b => a.isIdent = true → b.isIdent = false

/-! ### Characters -/

theorem isIdentRest_of_isIdentStart {c : Char} (h : isIdentStart c = true) :
    isIdentRest c = true := by
  simp only [isIdentStart, isIdentRest, Char.isAlphanum, Bool.or_eq_true] at h ⊢
  tauto

theorem isBlank_of_isIdentRest {c : Char} (h : isIdentRest c = true) : Text.isBlank c = false := by
  delta isIdentRest Char.isAlphanum Char.isAlpha Char.isUpper Char.isLower Char.isDigit at h
  simp only [Bool.or_eq_true, Bool.and_eq_true, decide_eq_true_eq, beq_iff_eq,
    UInt32.le_iff_toNat_le, ge_iff_le] at h
  simp only [Text.isBlank, Bool.or_eq_false_iff, Bool.and_eq_false_iff, decide_eq_false_iff_not,
    beq_eq_false_iff_ne]
  rcases h with (((h | h) | h) | rfl) | rfl
  · change 65 ≤ c.val.toNat ∧ c.val.toNat ≤ 90 at h
    omega
  · change 97 ≤ c.val.toNat ∧ c.val.toNat ≤ 122 at h
    omega
  · change 48 ≤ c.val.toNat ∧ c.val.toNat ≤ 57 at h
    omega
  · decide
  · decide

theorem isIdentRest_of_isBlank {c : Char} (h : Text.isBlank c = true) : isIdentRest c = false := by
  by_contra hrest
  rw [isBlank_of_isIdentRest (by simpa using hrest)] at h
  exact Bool.false_ne_true h

theorem isPunct_apart {c : Char} (h : isPunct c = true) :
    Text.isBlank c = false ∧ isIdentRest c = false := by
  simp only [isPunct, Bool.or_eq_true, beq_iff_eq] at h
  rcases h with (((((((rfl | rfl) | rfl) | rfl) | rfl) | rfl) | rfl) | rfl) <;> decide

theorem isIdentStart_of_isPunct {c : Char} (h : isPunct c = true) : isIdentStart c = false := by
  by_contra hstart
  have hrest := isIdentRest_of_isIdentStart (by simpa using hstart)
  rw [(isPunct_apart h).2] at hrest
  exact Bool.false_ne_true hrest

theorem isIdentifier_iff {name : String} : isIdentifier name = true ↔
    ∃ first rest, name.toList = first :: rest ∧ isIdentStart first = true ∧
      ∀ c ∈ rest, isIdentRest c = true := by
  rw [isIdentifier]
  cases name.toList with
  | nil => simp [isIdentifierChars]
  | cons first rest =>
    simp only [isIdentifierChars, Bool.and_eq_true, List.all_eq_true, List.cons.injEq]
    constructor
    · rintro ⟨hfirst, hrest⟩
      exact ⟨first, rest, ⟨rfl, rfl⟩, hfirst, hrest⟩
    · rintro ⟨_, _, ⟨rfl, rfl⟩, hfirst, hrest⟩
      exact ⟨hfirst, hrest⟩

theorem exists_chars_eq_cons {token : Token} (h : token.isToken = true) :
    ∃ first rest, token.chars = first :: rest ∧ Text.isBlank first = false := by
  cases token with
  | ident name =>
    obtain ⟨first, rest, hname, hfirst, -⟩ := isIdentifier_iff.mp h
    exact ⟨first, rest, hname, isBlank_of_isIdentRest (isIdentRest_of_isIdentStart hfirst)⟩
  | punct mark => exact ⟨mark, [], rfl, (isPunct_apart h).1⟩

/-! ### The scanner -/

theorem trimBlank_append {blanks rest : List Char} (h : ∀ c ∈ blanks, Text.isBlank c = true) :
    Text.trimBlank (blanks ++ rest) = Text.trimBlank rest := by
  rw [Text.trimBlank, Text.trimBlank, List.dropWhile_append_of_pos h]

theorem trimBlank_eq_self {c : Char} {rest : List Char} (h : Text.isBlank c = false) :
    Text.trimBlank (c :: rest) = c :: rest := by
  rw [Text.trimBlank, List.dropWhile_cons_of_neg (by simp [h])]

theorem exists_blanks_append_trimBlank (cs : List Char) :
    ∃ blanks, (∀ c ∈ blanks, Text.isBlank c = true) ∧ cs = blanks ++ Text.trimBlank cs :=
  ⟨cs.takeWhile Text.isBlank, fun _ hc => List.mem_takeWhile_imp hc,
    List.takeWhile_append_dropWhile.symm⟩

theorem scan_nil {cs : List Char} (h : Text.trimBlank cs = []) : scan cs = .ok [] := by
  rw [scan]
  split
  · rfl
  · rename_i heq
    simp [h] at heq

theorem scan_cons {cs rest : List Char} {c : Char} (h : Text.trimBlank cs = c :: rest) :
    scan cs =
      if isIdentStart c then
        (scan (rest.dropWhile isIdentRest)).map
          (.ident (String.ofList (c :: rest.takeWhile isIdentRest)) :: ·)
      else if isPunct c then (scan rest).map (.punct c :: ·)
      else .error (String.ofList (c :: rest)) := by
  rw [scan]
  split
  · rename_i heq
    simp [h] at heq
  · rename_i heq
    rw [h, List.cons.injEq] at heq
    obtain ⟨rfl, rfl⟩ := heq
    rfl

/-- The tokens that are scanned make up the text. -/
theorem splits_of_scan {cs : List Char} {tokens : List Token} (h : scan cs = .ok tokens) :
    Splits cs tokens := by
  fun_induction scan cs generalizing tokens with
  | case1 cs htrim =>
    obtain ⟨blanks, hblanks, hcs⟩ := exists_blanks_append_trimBlank cs
    obtain rfl : [] = tokens := by simpa using h
    rw [htrim, List.append_nil] at hcs
    rw [hcs]
    exact .blank hblanks
  | case2 cs c rest htrim hstart ih =>
    obtain ⟨blanks, hblanks, hcs⟩ := exists_blanks_append_trimBlank cs
    obtain ⟨others, hothers, rfl⟩ := map_eq_ok_iff.mp h
    have htoken : (ident (String.ofList (c :: rest.takeWhile isIdentRest))).isToken = true :=
      isIdentifier_iff.mpr ⟨c, rest.takeWhile isIdentRest, String.toList_ofList, hstart,
        fun _ hd => List.mem_takeWhile_imp hd⟩
    have hsplit := Splits.token hblanks htoken (ih hothers)
    rw [chars, String.toList_ofList, List.append_assoc, List.cons_append,
      List.takeWhile_append_dropWhile, ← htrim, ← hcs] at hsplit
    exact hsplit
  | case3 cs c rest htrim hstart hpunct ih =>
    obtain ⟨blanks, hblanks, hcs⟩ := exists_blanks_append_trimBlank cs
    obtain ⟨others, hothers, rfl⟩ := map_eq_ok_iff.mp h
    have htoken : (punct c).isToken = true := hpunct
    have hsplit := Splits.token hblanks htoken (ih hothers)
    rw [chars, List.append_assoc, List.singleton_append, ← htrim, ← hcs] at hsplit
    exact hsplit
  | case4 cs c rest htrim hstart hpunct => simp at h

/-- What follows an identifier does not go on with it, unless it starts with an identifier. -/
theorem Splits.head_of_apart {rest : List Char} {tokens : List Token} (h : Splits rest tokens)
    (hapart : ∀ b ∈ tokens.head?, b.isIdent = false) : ∀ c ∈ rest.head?, isIdentRest c = false := by
  cases h with
  | blank hblanks =>
    intro c hc
    exact isIdentRest_of_isBlank (hblanks c (List.mem_of_mem_head? hc))
  | @token blanks rest token tokens hblanks htoken hrest =>
    intro c hc
    cases blanks with
    | cons b blanks =>
      obtain rfl : b = c := by simpa using hc
      exact isIdentRest_of_isBlank (hblanks b List.mem_cons_self)
    | nil =>
      cases token with
      | ident name => simp [isIdent] at hapart
      | punct mark =>
        obtain rfl : mark = c := by simpa [chars] using hc
        exact (isPunct_apart htoken).2

/-- A text is scanned into any tokens that it splits into, if they are apart. -/
theorem scan_of_splits {cs : List Char} {tokens : List Token} (h : Splits cs tokens)
    (hapart : Apart tokens) : scan cs = .ok tokens := by
  induction h with
  | blank hblanks =>
    apply scan_nil
    rw [Text.trimBlank, List.dropWhile_eq_nil_iff]
    exact hblanks
  | @token blanks rest token tokens hblanks htoken hrest ih =>
    obtain ⟨hhead, htail⟩ := List.isChain_cons.mp hapart
    obtain ⟨first, others, hchars, hfirst⟩ := exists_chars_eq_cons htoken
    have htrim : Text.trimBlank (blanks ++ token.chars ++ rest) = first :: (others ++ rest) := by
      rw [List.append_assoc, trimBlank_append hblanks, hchars, List.cons_append,
        trimBlank_eq_self hfirst]
    rw [scan_cons htrim]
    cases token with
    | ident name =>
      obtain ⟨first', others', hname, hstart, hothers⟩ := isIdentifier_iff.mp htoken
      obtain ⟨rfl, rfl⟩ := List.cons.inj (hname.symm.trans hchars)
      -- No identifier comes next, so the scanner stops where this one ends.
      have hnext := hrest.head_of_apart fun b hb => hhead b hb rfl
      have hstop : rest.takeWhile isIdentRest = [] ∧ rest.dropWhile isIdentRest = rest := by
        cases rest with
        | nil => exact ⟨rfl, rfl⟩
        | cons c rest => simp [hnext c rfl]
      rw [if_pos hstart, List.takeWhile_append_of_pos hothers, List.dropWhile_append_of_pos hothers,
        hstop.1, hstop.2, List.append_nil, ih htail, ← hname, String.ofList_toList]
      rfl
    | punct mark =>
      obtain ⟨rfl, rfl⟩ := List.cons.inj hchars
      have hmark : isPunct mark = true := htoken
      rw [if_neg (by simp [isIdentStart_of_isPunct hmark]), if_pos hmark, List.nil_append,
        ih htail]
      rfl

end Token

end FormatterPlan
