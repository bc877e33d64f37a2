import FormatterPlan.Proofs.Leaves
import FormatterPlan.Proofs.RootOrder

/-! The wording of findings.  Arguments are put in their places one after the other, so what a
message shows of an argument is its text with the later arguments put into it.  Between two places
of a wording stands a character that is in no place, so apart from that the places are filled all at
once, and a message is verbatim when no argument has the place of a later one in it. -/

namespace FormatterPlan

namespace Wording

/-- The place of an argument in a wording. -/
def place (index : Nat) : String := "\x7b" ++ Nat.repr index ++ "\x7d"

/-- Puts arguments in their places, all at once: `skip` characters of `cs` belong to a place that is
already filled. -/
def fillAtOnce (args : List String) : (skip : Nat) → List Char → List Char
  | _, [] => []
  | skip + 1, _ :: cs => fillAtOnce args skip cs
  | 0, c :: cs =>
    match args.zipIdx.find? fun (_, index) => (place index).toList.isPrefixOf (c :: cs) with
    | some (arg, index) => arg.toList ++ fillAtOnce args ((place index).toList.length - 1) cs
    | none => c :: fillAtOnce args 0 cs

/-- Arguments from number `index` on, each with the later ones put into its text. -/
def expand : (index : Nat) → List String → List String
  | _, [] => []
  | index, arg :: args => Finding.fill (index + 1) args arg :: expand (index + 1) args

/-- Whether no argument has the place of a later one in it. -/
def IsInert (args : List String) : Prop :=
  ∀ i j (hij : i < j) (hj : j < args.length), ¬ (place j).toList <:+: args[i].toList

end Wording

/-- The wording of a rule with each place that has an argument replaced by the argument. -/
def Rule.verbatim (rule : Rule) (args : List String) : String :=
  String.ofList (Wording.fillAtOnce args 0 rule.wording.toList)

/-! ### Replacement -/

namespace Text

variable {word replacement cs : List Char}

theorem replaceFrom_cons (c : Char) :
    replaceFrom word replacement 0 (c :: cs) =
      if word <+: c :: cs then replacement ++ replaceFrom word replacement (word.length - 1) cs
      else c :: replaceFrom word replacement 0 cs := by
  simp only [replaceFrom, List.isPrefixOf_iff_prefix]

/-- The characters of an occurrence that is already replaced are passed over. -/
theorem replaceFrom_length (before : List Char) :
    replaceFrom word replacement before.length (before ++ cs) =
      replaceFrom word replacement 0 cs := by
  induction before with
  | nil => rfl
  | cons c before ih => rw [List.length_cons, List.cons_append, replaceFrom, ih]

theorem replaceFrom_word (hword : word ≠ []) :
    replaceFrom word replacement 0 word = replacement := by
  obtain ⟨w, rest, rfl⟩ := List.exists_cons_of_ne_nil hword
  have hrest : replaceFrom (w :: rest) replacement rest.length rest =
      replaceFrom (w :: rest) replacement 0 [] := by
    rw [← replaceFrom_length rest, List.append_nil]
  rw [replaceFrom_cons, if_pos List.prefix_rfl, List.length_cons, Nat.add_sub_cancel, hrest,
    replaceFrom, List.append_nil]

/-- A text without the word stays as it is. -/
theorem replaceFrom_eq_self (hword : ¬ word <:+: cs) : replaceFrom word replacement 0 cs = cs := by
  induction cs with
  | nil => rfl
  | cons c cs ih =>
    rw [replaceFrom_cons, if_neg fun h => hword h.isInfix,
      ih fun h => hword (h.trans (List.suffix_cons c cs).isInfix)]

/-- No occurrence of a word goes over a character that is not in the word. -/
theorem replaceFrom_append_cons {sep : Char} (hsep : sep ∉ word) (hword : word ≠ [])
    {before : List Char} {skip : Nat} (hskip : skip ≤ before.length) :
    replaceFrom word replacement skip (before ++ sep :: cs) =
      replaceFrom word replacement skip before ++ sep :: replaceFrom word replacement 0 cs := by
  induction before generalizing skip with
  | nil =>
    obtain rfl : skip = 0 := Nat.le_zero.mp hskip
    have hnot : ¬ word <+: [] ++ sep :: cs := fun h =>
      hword (List.prefix_nil.mp ((prefix_append_cons_iff hsep []).mp h))
    rw [List.nil_append] at hnot ⊢
    rw [replaceFrom_cons, if_neg hnot, replaceFrom, List.nil_append]
  | cons c before ih =>
    cases skip with
    | succ skip =>
      rw [List.cons_append, replaceFrom, replaceFrom, ih (Nat.le_of_succ_le_succ hskip)]
    | zero =>
      have hiff : word <+: c :: (before ++ sep :: cs) ↔ word <+: c :: before :=
        prefix_append_cons_iff hsep (c :: before)
      rw [List.cons_append]
      rw [replaceFrom_cons, replaceFrom_cons]
      by_cases hstart : word <+: c :: before
      · have hlength := hstart.length_le
        rw [List.length_cons] at hlength
        rw [if_pos hstart, if_pos (hiff.mpr hstart), ih (by omega), List.append_assoc]
      · rw [if_neg hstart, if_neg (mt hiff.mp hstart), ih (Nat.zero_le _), List.cons_append]

end Text

namespace Wording

open Finding (fill)

/-! ### Places -/

/-- Whether a character is in no place. -/
def isPlain (c : Char) : Bool := c != '\x7b' && c != '\x7d' && !c.isDigit

theorem toList_place (index : Nat) :
    (place index).toList = '\x7b' :: ((Nat.repr index).toList ++ ['\x7d']) := by
  simp [place, String.toList_append]

theorem isDigit_of_mem_repr {index : Nat} {c : Char} (h : c ∈ (Nat.repr index).toList) :
    c.isDigit = true := by
  rw [Nat.toList_repr] at h
  exact Nat.isDigit_of_mem_toDigits (by omega) (by omega) h

theorem notMem_place {c : Char} (hplain : isPlain c = true) (index : Nat) :
    c ∉ (place index).toList := by
  intro hmem
  simp only [isPlain, Bool.and_eq_true, bne_iff_ne, Bool.not_eq_true'] at hplain
  obtain ⟨⟨hopen, hclose⟩, hdigit⟩ := hplain
  rw [toList_place, List.mem_cons, List.mem_append, List.mem_singleton] at hmem
  rcases hmem with rfl | hmem | rfl
  · exact hopen rfl
  · rw [isDigit_of_mem_repr hmem] at hdigit
    simp at hdigit
  · exact hclose rfl

/-- The number in a place is what comes before the first closing brace. -/
theorem eq_of_digits {i j : Nat} {cs ds : List Char}
    (h : (Nat.repr i).toList ++ '\x7d' :: cs = (Nat.repr j).toList ++ '\x7d' :: ds) :
    i = j ∧ cs = ds := by
  have hdigits : ∀ (index : Nat) (rest : List Char),
      ((Nat.repr index).toList ++ '\x7d' :: rest).takeWhile Char.isDigit =
        (Nat.repr index).toList := by
    intro index rest
    rw [List.takeWhile_append_of_pos fun c => isDigit_of_mem_repr, List.takeWhile_cons_of_neg
      (by decide), List.append_nil]
  have hrepr := congrArg (List.takeWhile Char.isDigit) h
  rw [hdigits, hdigits] at hrepr
  obtain rfl := Nat.repr_injective (String.toList_inj.mp hrepr)
  exact ⟨rfl, List.tail_eq_of_cons_eq (List.append_cancel_left h)⟩

theorem eq_of_place_prefix {i j : Nat} {cs : List Char}
    (h : (place j).toList <+: (place i).toList ++ cs) : i = j := by
  obtain ⟨rest, h⟩ := h
  rw [toList_place, toList_place] at h
  simp only [List.cons_append, List.append_assoc, List.cons.injEq, true_and, List.nil_append] at h
  exact (eq_of_digits h).1.symm

/-- A place has no other place in it. -/
theorem eq_of_place_infix {i j : Nat} (h : (place j).toList <:+: (place i).toList) : i = j := by
  obtain ⟨before, after, h⟩ := h
  cases before with
  | nil =>
    have hprefix : (place j).toList <+: (place i).toList ++ [] := ⟨after, by simpa using h⟩
    exact eq_of_place_prefix hprefix
  | cons c before =>
    -- The brace that opens a place is nowhere else in it.
    rw [toList_place i, toList_place j] at h
    simp only [List.cons_append, List.append_assoc, List.cons.injEq] at h
    have hmem : '\x7b' ∈ (Nat.repr i).toList ++ ['\x7d'] := by
      rw [← h.2]
      simp
    rcases List.mem_append.mp hmem with hmem | hmem
    · exact absurd (isDigit_of_mem_repr hmem) (by decide)
    · simp at hmem

theorem place_ne_nil (index : Nat) : (place index).toList ≠ [] := by simp [toList_place]

theorem replaceAll_place (i j : Nat) (arg : String) :
    Text.replaceAll (place i) (place j) arg = if i = j then arg else place i := by
  rw [Text.replaceAll]
  split
  · rename_i heq
    rw [heq, Text.replaceFrom_word (place_ne_nil j), String.ofList_toList]
  · rename_i hne
    rw [Text.replaceFrom_eq_self (mt eq_of_place_infix hne), String.ofList_toList]

/-! ### Wordings cut at their characters -/

/-- A text as its characters, each after the place that stands before it, if one does, and the place
at the end. -/
inductive Cut where
  | last (slot : Option Nat)
  | next (slot : Option Nat) (c : Char) (rest : Cut)

namespace Cut

/-- The text of an optional place, with `text` at the places. -/
def slotText (text : Nat → String) (slot : Option Nat) : List Char :=
  slot.elim [] fun index => (text index).toList

def chars (text : Nat → String) : Cut → List Char
  | .last slot => slotText text slot
  | .next slot c rest => slotText text slot ++ c :: rest.chars text

/-- Cuts a text with places of one digit, no two of them next to each other, after the place
`before`. -/
def ofChars : (before : Option Nat) → List Char → Cut
  | before, [] => .last before
  | before, c :: d :: e :: cs =>
    if c = '\x7b' ∧ d.isDigit ∧ e = '\x7d' then ofChars (some (d.toNat - '0'.toNat)) cs
    else .next before c (ofChars none (d :: e :: cs))
  | before, c :: cs => .next before c (ofChars none cs)

def isPlain : Cut → Bool
  | .last _ => true
  | .next _ c rest => Wording.isPlain c && rest.isPlain

end Cut

/-- The wordings have a character between any two places. -/
theorem exists_cut (rule : Rule) :
    ∃ cut : Cut, cut.isPlain = true ∧ rule.wording = String.ofList (cut.chars place) := by
  have hcut : ∃ cs, rule.wording = String.ofList cs ∧ (Cut.ofChars none cs).isPlain = true ∧
      (Cut.ofChars none cs).chars place = cs := by
    cases rule
    case typeNotMarked | invalidObject | nullKey | notAFormatter =>
      exact ⟨_, rfl, by decide +kernel⟩
    case memberNeedsKey | baseMemberNeedsKey | conflictingFormatter =>
      exact ⟨_, String.ofList_append.symm, by decide +kernel⟩
  obtain ⟨cs, hwording, hplain, hchars⟩ := hcut
  exact ⟨Cut.ofChars none cs, hplain, by rw [hchars, hwording]⟩

/-! ### Filling one after the other -/

theorem replaceAll_ofList (cs : List Char) (word replacement : String) :
    Text.replaceAll (String.ofList cs) word replacement =
      String.ofList (Text.replaceFrom word.toList replacement.toList 0 cs) := by
  rw [Text.replaceAll, String.toList_ofList]

section

variable {cut : Cut}

/-- Replacing the places of one argument replaces them in the text at each place. -/
theorem replaceAll_chars (hplain : cut.isPlain = true) (text : Nat → String) (index : Nat)
    (arg : String) :
    Text.replaceAll (String.ofList (cut.chars text)) (place index) arg =
      String.ofList (cut.chars fun i => Text.replaceAll (text i) (place index) arg) := by
  have hslot : ∀ slot, Text.replaceFrom (place index).toList arg.toList 0 (Cut.slotText text slot) =
      Cut.slotText (fun i => Text.replaceAll (text i) (place index) arg) slot := by
    intro slot
    cases slot with
    | none => rfl
    | some i => simp [Cut.slotText, Text.replaceAll]
  rw [replaceAll_ofList]
  congr 1
  induction cut with
  | last slot => exact hslot slot
  | next slot c rest ih =>
    rw [Cut.isPlain, Bool.and_eq_true] at hplain
    rw [Cut.chars, Text.replaceFrom_append_cons (notMem_place hplain.1 index) (place_ne_nil index)
      (Nat.zero_le _), hslot, ih hplain.2, Cut.chars]

theorem fill_chars (hplain : cut.isPlain = true) (args : List String) (index : Nat)
    (text : Nat → String) :
    fill index args (String.ofList (cut.chars text)) =
      String.ofList (cut.chars fun i => fill index args (text i)) := by
  induction args generalizing index text with
  | nil => rfl
  | cons arg args ih =>
    rw [fill]
    exact (congrArg (fill (index + 1) args) (replaceAll_chars hplain text index arg)).trans
      (ih (index + 1) _)

/-- What comes of a place: the argument with that number, expanded, or the place itself. -/
theorem fill_place {index i : Nat} (hle : index ≤ i) (args : List String) :
    fill index args (place i) = (expand index args)[i - index]?.getD (place i) := by
  induction args generalizing index with
  | nil => rfl
  | cons arg args ih =>
    have hstep : fill index (arg :: args) (place i) =
        fill (index + 1) args (if i = index then arg else place i) :=
      congrArg (fill (index + 1) args) (replaceAll_place i index arg)
    rw [hstep, expand]
    by_cases heq : i = index
    · rw [if_pos heq, heq, Nat.sub_self, List.getElem?_cons_zero, Option.getD_some]
    · obtain ⟨k, hk⟩ : ∃ k, i - index = k + 1 := ⟨i - index - 1, by omega⟩
      rw [if_neg heq, ih (by omega), hk, List.getElem?_cons_succ,
        show i - (index + 1) = k by omega]

end

/-! ### Filling all at once -/

section

variable {args : List String} {cs : List Char}

/-- No place starts with a character that is not the opening brace. -/
theorem fillAtOnce_cons {c : Char} (hopen : c ≠ '\x7b') :
    fillAtOnce args 0 (c :: cs) = c :: fillAtOnce args 0 cs := by
  rw [fillAtOnce]
  split
  · rename_i found hfound
    have hprefix := List.find?_some hfound
    simp only [List.isPrefixOf_iff_prefix, toList_place, List.cons_prefix_cons] at hprefix
    exact (hopen hprefix.1.symm).elim
  · rfl

theorem fillAtOnce_append {before : List Char} (hopen : '\x7b' ∉ before) :
    fillAtOnce args 0 (before ++ cs) = before ++ fillAtOnce args 0 cs := by
  induction before with
  | nil => rfl
  | cons c before ih =>
    rw [List.mem_cons, not_or] at hopen
    rw [List.cons_append, fillAtOnce_cons (Ne.symm hopen.1), ih hopen.2, List.cons_append]

/-- The characters of a place that is already filled are passed over. -/
theorem fillAtOnce_length (before : List Char) :
    fillAtOnce args before.length (before ++ cs) = fillAtOnce args 0 cs := by
  induction before with
  | nil => rfl
  | cons c before ih => rw [List.length_cons, List.cons_append, fillAtOnce, ih]

/-- A place is filled with the argument of its number, or stays. -/
theorem fillAtOnce_place (index : Nat) :
    fillAtOnce args 0 ((place index).toList ++ cs) =
      (args[index]?.getD (place index)).toList ++ fillAtOnce args 0 cs := by
  have hopen : '\x7b' ∉ (Nat.repr index).toList ++ ['\x7d'] := by
    rw [List.mem_append, not_or]
    exact ⟨fun hmem => absurd (isDigit_of_mem_repr hmem) (by decide), by simp⟩
  rw [toList_place, List.cons_append, fillAtOnce]
  split
  · rename_i arg found hfound
    have hprefix := List.find?_some hfound
    rw [List.isPrefixOf_iff_prefix, ← List.cons_append, ← toList_place] at hprefix
    obtain rfl := eq_of_place_prefix hprefix
    have hmem := List.mk_mem_zipIdx_iff_getElem?.mp (List.mem_of_find?_eq_some hfound)
    rw [hmem, toList_place, List.length_cons, Nat.add_sub_cancel, fillAtOnce_length]
    rfl
  · rename_i hnone
    have hmissing : args[index]? = none := by
      refine Option.eq_none_iff_forall_ne_some.mpr fun arg harg => ?_
      refine List.find?_eq_none.mp hnone (arg, index)
        (List.mk_mem_zipIdx_iff_getElem?.mpr harg) ?_
      rw [List.isPrefixOf_iff_prefix, ← List.cons_append, ← toList_place]
      exact List.prefix_append _ _
    rw [hmissing, fillAtOnce_append hopen, Option.getD_none, toList_place, List.cons_append]

theorem fillAtOnce_chars {cut : Cut} (hplain : cut.isPlain = true) (args : List String) :
    fillAtOnce args 0 (cut.chars place) = cut.chars fun i => args[i]?.getD (place i) := by
  have hslot : ∀ slot cs, fillAtOnce args 0 (Cut.slotText place slot ++ cs) =
      Cut.slotText (fun i => args[i]?.getD (place i)) slot ++ fillAtOnce args 0 cs := by
    intro slot cs
    cases slot with
    | none => rfl
    | some index => exact fillAtOnce_place index
  induction cut with
  | last slot => simpa [fillAtOnce, Cut.chars] using hslot slot []
  | next slot c rest ih =>
    rw [Cut.isPlain, Bool.and_eq_true] at hplain
    have hopen : c ≠ '\x7b' := by
      rintro rfl
      exact absurd hplain.1 (by decide)
    rw [Cut.chars, hslot, fillAtOnce_cons hopen, ih hplain.2, Cut.chars]

end

/-! ### Messages -/

/-- A text stays as it is if no place of an argument is in it. -/
theorem fill_eq_self {args : List String} {index : Nat} {text : String}
    (h : ∀ i < args.length, ¬ (place (index + i)).toList <:+: text.toList) :
    fill index args text = text := by
  induction args generalizing index with
  | nil => rfl
  | cons arg args ih =>
    have hfirst : Text.replaceAll text (place index) arg = text := by
      rw [Text.replaceAll, Text.replaceFrom_eq_self (by simpa using h 0), String.ofList_toList]
    have hstep : fill index (arg :: args) text = fill (index + 1) args text :=
      congrArg (fill (index + 1) args) hfirst
    rw [hstep, ih fun i hi => ?_]
    have hlater := h (i + 1) (by simpa using hi)
    rwa [Nat.add_right_comm]

theorem expand_eq_self {args : List String} {index : Nat}
    (h : ∀ i j (hij : i < j) (hj : j < args.length),
      ¬ (place (index + j)).toList <:+: args[i].toList) :
    expand index args = args := by
  induction args generalizing index with
  | nil => rfl
  | cons arg args ih =>
    have hfirst : fill (index + 1) args arg = arg := fill_eq_self fun i hi => by
      have hlater := h 0 (i + 1) (by omega) (by simpa using hi)
      rwa [Nat.add_right_comm]
    rw [expand, hfirst, ih fun i j hij hj => ?_]
    have hlater := h (i + 1) (j + 1) (by omega) (by simpa using hj)
    rwa [Nat.add_right_comm]

/-- A message has at each place its argument with the later arguments put into it, and it is
verbatim if no argument has the place of a later one in it. -/
theorem message_eq_verbatim (f : Finding) :
    f.message = f.rule.verbatim (expand 0 f.args) ∧
      (IsInert f.args → f.message = f.rule.verbatim f.args) := by
  obtain ⟨cut, hplain, hcut⟩ := exists_cut f.rule
  have hmessage : f.message = f.rule.verbatim (expand 0 f.args) := by
    have hplaces : ∀ i, fill 0 f.args (place i) = (expand 0 f.args)[i]?.getD (place i) :=
      fun i => fill_place (Nat.zero_le i) f.args
    rw [Finding.message, Rule.verbatim, hcut, fill_chars hplain, String.toList_ofList,
      fillAtOnce_chars hplain]
    simp only [hplaces]
  refine ⟨hmessage, fun h => ?_⟩
  rw [hmessage, expand_eq_self (by simpa [IsInert] using h)]

/-- Names without braces are shown as they are. -/
theorem verbatim_of_item : IsInert ["App.Item", "Loose"] ∧
    (⟨.memberNeedsKey, .named "App.Item" [], some "Loose", ["App.Item", "Loose"]⟩ :
      Finding).message = Rule.memberNeedsKey.verbatim ["App.Item", "Loose"] := by
  have hinert : IsInert ["App.Item", "Loose"] := by
    intro i j hij hj
    obtain ⟨rfl, rfl⟩ : i = 0 ∧ j = 1 := by
      rw [List.length_cons, List.length_singleton] at hj
      omega
    exact show ¬ (place 1).toList <:+: "App.Item".toList by decide +kernel
  exact ⟨hinert, (message_eq_verbatim _).2 hinert⟩

/-! ### A class named like a place -/

/-- A class with the place of the second argument in its name, and a member that has no key. -/
def bracedDocument : Document where
  types := [
    { name := "App.\x7b1\x7d", kind := .concreteClass,
      attributes := [.bare "MessagePack.MessagePackObjectAttribute"],
      members := [{ name := "Loose", type := some "System.Int32" }] }]

def bracedDefs : List TypeDef := [
  { name := "App.\x7b1\x7d", kind := .concreteClass, generics := [], base := none,
    underlying := none, attributes := [⟨⟨90⟩, []⟩],
    members := [
      { name := "Loose", kind := .property, type := some (.named ⟨5⟩ []), params := [],
        access := .everyone, isStatic := false, attributes := [] }] }]

def bracedSetting : Setting := .ofDefs bracedDefs {}

def bracedGraph : TypeGraph :=
  ⟨#[bracedSetting.nodeOf (.named ⟨96⟩ []), bracedSetting.nodeOf (.named ⟨5⟩ [])]⟩

def looseFinding : Finding :=
  ⟨.memberNeedsKey, .named "App.\x7b1\x7d" [], some "Loose", ["App.\x7b1\x7d", "Loose"]⟩

theorem loads_bracedDocument : Assembly.load [bracedDocument] = .ok bracedSetting.assembly ∧
    Setting.of? bracedSetting.assembly [] {} = some bracedSetting :=
  Setting.loads_ofDefs (by decide +kernel) (toOption_eq_some_iff.mp (by decide +kernel)) {}

theorem looseFinding_reported :
    looseFinding ∈ (bracedSetting.verdictOn bracedGraph).findings := by
  have hfindings : bracedGraph.findingsOf bracedSetting.assembly false
      (bracedSetting.nodeOf (.named ⟨96⟩ [])) = [looseFinding] := by decide +kernel
  refine List.mem_eraseDups.mpr (List.mem_append_left _ (List.mem_flatten.mpr
    ⟨_, List.mem_map_of_mem (a := bracedSetting.nodeOf (.named ⟨96⟩ [])) ?_, ?_⟩))
  · exact Array.mem_toList_iff.mpr (Array.mem_iff_getElem?.mpr ⟨0, rfl⟩)
  · exact hfindings ▸ List.mem_singleton_self looseFinding

theorem looseFinding_message :
    looseFinding.message = "Public members of MessagePackObject-attributed types require either " ++
      "KeyAttribute or IgnoreMemberAttribute: App.Loose.Loose" := by
  have hwording : looseFinding.rule.wording = String.ofList (_ ++ _) := String.ofList_append.symm
  have hfill : looseFinding.message =
      Text.replaceAll (Text.replaceAll looseFinding.rule.wording (place 0) "App.\x7b1\x7d")
        (place 1) "Loose" := rfl
  refine Eq.trans ?_ String.ofList_append
  rw [hfill, hwording, replaceAll_ofList, replaceAll_ofList]
  exact congrArg String.ofList (by decide +kernel)

theorem looseFinding_verbatim :
    looseFinding.rule.verbatim looseFinding.args =
      "Public members of MessagePackObject-attributed types require either " ++
        "KeyAttribute or IgnoreMemberAttribute: App.\x7b1\x7d.Loose" := by
  have hwording : looseFinding.rule.wording = String.ofList (_ ++ _) := String.ofList_append.symm
  refine Eq.trans ?_ String.ofList_append
  rw [Rule.verbatim, hwording, String.toList_ofList]
  exact congrArg String.ofList (by decide +kernel)

/-- The message of the class names the member twice, and the class not by its name. -/
theorem looseFinding_message_ne : Assembly.load [bracedDocument] = .ok bracedSetting.assembly ∧
    bracedSetting.graphOf {} ⟨96⟩ = .ok bracedGraph ∧
    looseFinding ∈ (bracedSetting.verdictOn bracedGraph).findings ∧
    looseFinding.message = "Public members of MessagePackObject-attributed types require either " ++
      "KeyAttribute or IgnoreMemberAttribute: App.Loose.Loose" ∧
    looseFinding.rule.verbatim looseFinding.args =
      "Public members of MessagePackObject-attributed types require either " ++
        "KeyAttribute or IgnoreMemberAttribute: App.\x7b1\x7d.Loose" ∧
    looseFinding.message ≠ looseFinding.rule.verbatim looseFinding.args := by
  refine ⟨loads_bracedDocument.1, TypeGraph.graphOf_eq_ok rfl (by decide +kernel),
    looseFinding_reported, looseFinding_message, looseFinding_verbatim, ?_⟩
  rw [looseFinding_message, looseFinding_verbatim]
  decide +kernel

end Wording

end FormatterPlan
