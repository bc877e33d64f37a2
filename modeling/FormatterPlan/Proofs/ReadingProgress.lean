import FormatterPlan.Json.Reader
import FormatterPlan.Proofs.Loading
import Mathlib.Data.List.TakeWhile

/-! How far a text is read.  The reader leaves an end of the text that it was given, and behind a
value the end is shorter.  So the bound on the steps of the reader does not run out, and a tree is
complete exactly when the reader comes past its last character. -/

namespace FormatterPlan.Json

namespace Cursor

variable {cursor middle stop : Cursor}

theorem tail_suffix {c : Char} {rest : List Char} (h : cursor.rest = c :: rest) :
    rest <:+ cursor.rest := by
  rw [h]
  exact List.suffix_cons c rest

/-- Whether a cursor stands behind another one, past at least one character. -/
structure Passes (cursor stop : Cursor) : Prop where
  suffix : stop.rest <:+ cursor.rest
  shorter : stop.rest.length < cursor.rest.length

theorem Passes.of_cons {c : Char} {rest : List Char} (h : cursor.rest = c :: rest)
    (hstop : stop.rest <:+ rest) : cursor.Passes stop := by
  refine ⟨?_, ?_⟩
  · exact hstop.trans (tail_suffix h)
  · have hlength := hstop.length_le
    rw [h, List.length_cons]
    omega

theorem Passes.before (h : middle.Passes stop) (hmiddle : middle.rest <:+ cursor.rest) :
    cursor.Passes stop :=
  ⟨h.suffix.trans hmiddle, Nat.lt_of_lt_of_le h.shorter hmiddle.length_le⟩

theorem Passes.after (h : cursor.Passes middle) (hstop : stop.rest <:+ middle.rest) :
    cursor.Passes stop :=
  ⟨hstop.trans h.suffix, Nat.lt_of_le_of_lt hstop.length_le h.shorter⟩

theorem passWhile_rest (p : Char → Bool) (position : Position) (cs : List Char) :
    (passWhile p position cs).rest = cs.dropWhile p := by
  induction cs generalizing position with
  | nil => rfl
  | cons c cs ih =>
    rw [passWhile, List.dropWhile_cons]
    split
    · exact ih _
    · rfl

theorem passWhile_suffix (p : Char → Bool) (position : Position) (cs : List Char) :
    (passWhile p position cs).rest <:+ cs := by
  rw [passWhile_rest]
  exact List.dropWhile_suffix p

theorem skipBlank_suffix (cursor : Cursor) : cursor.skipBlank.rest <:+ cursor.rest :=
  passWhile_suffix isBlank cursor.position cursor.rest

/-- Only white space is left when nothing is left behind white space. -/
theorem skipBlank_rest_eq_nil_iff : cursor.skipBlank.rest = [] ↔ ∀ c ∈ cursor.rest, isBlank c := by
  rw [skipBlank, passWhile_rest, List.dropWhile_eq_nil_iff]

end Cursor

variable {cursor stop : Cursor}

/-! ### Strings -/

theorem readHex4_suffix {n : Nat} (h : readHex4 cursor = .ok (n, stop)) :
    stop.rest <:+ cursor.rest := by
  unfold readHex4 at h
  split at h
  · simp at h
  · split at h
    · rename_i a b c d rest hrest
      split at h
      · obtain ⟨-, rfl⟩ := Prod.mk.inj (Except.ok.inj h)
        rw [hrest]
        exact ⟨[a, b, c, d], rfl⟩
      · simp at h
    · simp at h

theorem expectSurrogateMark_suffix {c : Char} (h : expectSurrogateMark c cursor = .ok stop) :
    stop.rest <:+ cursor.rest := by
  unfold expectSurrogateMark at h
  split at h
  · simp at h
  · rename_i next rest hrest
    split at h
    · obtain rfl := Except.ok.inj h
      exact Cursor.tail_suffix hrest
    · simp at h

theorem readUnicodeEscape_suffix {c : Char} (h : readUnicodeEscape cursor = .ok (c, stop)) :
    stop.rest <:+ cursor.rest := by
  unfold readUnicodeEscape at h
  obtain ⟨⟨n, first⟩, hfirst, h⟩ := bind_eq_ok_iff.mp h
  have hsuffix := readHex4_suffix hfirst
  dsimp only at h
  split at h
  · simp at h
  · split at h
    · obtain ⟨mark, hmark, h⟩ := bind_eq_ok_iff.mp h
      obtain ⟨second, hsecond, h⟩ := bind_eq_ok_iff.mp h
      obtain ⟨⟨low, last⟩, hlast, h⟩ := bind_eq_ok_iff.mp h
      dsimp only at h
      split at h
      · obtain ⟨-, rfl⟩ := Prod.mk.inj (Except.ok.inj h)
        exact (readHex4_suffix hlast).trans ((expectSurrogateMark_suffix hsecond).trans
          ((expectSurrogateMark_suffix hmark).trans hsuffix))
      · simp at h
    · obtain ⟨-, rfl⟩ := Prod.mk.inj (Except.ok.inj h)
      exact hsuffix

theorem readEscape_suffix {c : Char} (h : readEscape cursor = .ok (c, stop)) :
    stop.rest <:+ cursor.rest := by
  unfold readEscape at h
  split at h
  · simp at h
  · rename_i mark rest hrest
    rw [hrest]
    have hpast : ∀ {escaped : Char},
        (Except.ok (escaped, cursor.past mark rest) : Except FaultAt _) = .ok (c, stop) →
          stop.rest <:+ mark :: rest := by
      rintro escaped heq
      obtain ⟨-, rfl⟩ := Prod.mk.inj (Except.ok.inj heq)
      exact List.suffix_cons mark rest
    dsimp only at h
    split at h
    · exact (readUnicodeEscape_suffix h).trans (List.suffix_cons mark rest)
    · repeat' split at h
      all_goals first | exact hpast h | simp at h

theorem readCharacters_suffix {steps : Nat} {read : List Char} {s : String}
    (h : readCharacters steps read cursor = .ok (s, stop)) : stop.rest <:+ cursor.rest := by
  induction steps generalizing read cursor with
  | zero => simp [readCharacters] at h
  | succ steps ih =>
    rw [readCharacters] at h
    split at h
    · simp at h
    · rename_i c rest hrest
      rw [hrest]
      split at h
      · obtain ⟨-, rfl⟩ := Prod.mk.inj (Except.ok.inj h)
        exact List.suffix_cons c rest
      · split at h
        · split at h
          · rename_i escaped behind hescape
            exact (ih h).trans ((readEscape_suffix hescape).trans (List.suffix_cons c rest))
          · simp at h
        · split at h
          · simp at h
          · exact (ih h).trans (List.suffix_cons c rest)

theorem readString_suffix {s : String} (h : readString cursor = .ok (s, stop)) :
    stop.rest <:+ cursor.rest :=
  readCharacters_suffix h

/-! ### Numerals -/

theorem readExponent_suffix (position : Position) (value : Nat) (cs : List Char) :
    (readExponent position value cs).2.rest <:+ cs := by
  induction cs generalizing position value with
  | nil => exact List.suffix_rfl
  | cons c cs ih =>
    rw [readExponent]
    split
    · dsimp only
      split
      · exact (ih _ _).trans (List.suffix_cons c cs)
      · exact List.suffix_cons c cs
    · exact List.suffix_rfl

theorem finishExponent_suffix (negative : Bool) (s : Significand) (cursor : Cursor) :
    (finishExponent negative s cursor).2.rest <:+ cursor.rest := by
  unfold finishExponent
  split
  rename_i down digits hdigits
  -- What the sign leaves.
  have hsuffix : digits.rest <:+ cursor.rest := by
    split at hdigits
    all_goals obtain ⟨-, rfl⟩ := Prod.mk.inj hdigits
    · rename_i rest hrest
      exact Cursor.tail_suffix hrest
    · rename_i rest hrest
      exact Cursor.tail_suffix hrest
    · exact List.suffix_rfl
  split
  · exact hsuffix
  · split
    · exact hsuffix
    · have hexponent := readExponent_suffix digits.position 0 digits.rest
      split
      · rename_i value behind hread
        rw [hread] at hexponent
        dsimp only
        split <;> exact hexponent.trans hsuffix
      · rename_i behind hread
        rw [hread] at hexponent
        split
        · exact hexponent.trans hsuffix
        · exact (Cursor.passWhile_suffix _ _ _).trans (hexponent.trans hsuffix)

theorem finishFloat_stop (negative : Bool) (s : Significand) (cursor : Cursor) :
    (finishFloat negative s cursor).2 = cursor := by
  unfold finishFloat
  split <;> rfl

theorem finishInteger_stop (negative : Bool) (s : Significand) (cursor : Cursor) :
    (finishInteger negative s cursor).2 = cursor := by
  unfold finishInteger
  repeat' split
  all_goals first | rfl | exact finishFloat_stop _ _ _

theorem finishFraction_suffix (negative : Bool) (s : Significand) (cursor : Cursor) :
    (finishFraction negative s cursor).2.rest <:+ cursor.rest := by
  have hdigits := Cursor.passWhile_suffix Char.isDigit cursor.position cursor.rest
  unfold finishFraction
  dsimp only
  split
  · exact hdigits
  · split
    · rename_i rest hrest
      exact (finishExponent_suffix _ _ _).trans (.trans (Cursor.tail_suffix hrest) hdigits)
    · rename_i rest hrest
      exact (finishExponent_suffix _ _ _).trans (.trans (Cursor.tail_suffix hrest) hdigits)
    · rw [finishFloat_stop]
      exact hdigits

/-- A numeral has a digit behind its sign. -/
theorem readMagnitude_passes {negative : Bool} {n : Number}
    (h : readMagnitude negative cursor = (.ok n, stop)) : cursor.Passes stop := by
  unfold readMagnitude at h
  split at h
  · simp at h
  · rename_i c rest hrest
    split at h
    · simp at h
    · rename_i hdigit
      dsimp only at h
      generalize hdigits : (if c = '0' then cursor.past c rest
        else Cursor.passWhile Char.isDigit cursor.position cursor.rest) = digits at h
      generalize List.foldl Significand.pushInteger _ _ = s at h
      have hsuffix : digits.rest <:+ rest := by
        rw [← hdigits]
        split
        · exact List.suffix_rfl
        · rw [Cursor.passWhile_rest, hrest, List.dropWhile_cons_of_pos (by simpa using hdigit)]
          exact List.dropWhile_suffix _
      refine .of_cons hrest (.trans ?_ hsuffix)
      have hmark : ∀ {mark : Char} {behind : List Char}, digits.rest = mark :: behind →
          ∀ {reading : Except FaultAt Number × Cursor}, reading = (.ok n, stop) →
            reading.2.rest <:+ behind → stop.rest <:+ digits.rest := by
        rintro mark behind hbehind _ rfl hstop
        exact hstop.trans (Cursor.tail_suffix hbehind)
      split at h
      · rename_i hbehind
        exact hmark hbehind h (finishFraction_suffix _ _ _)
      · rename_i hbehind
        exact hmark hbehind h (finishExponent_suffix _ _ _)
      · rename_i hbehind
        exact hmark hbehind h (finishExponent_suffix _ _ _)
      · split at h
        · simp at h
        · obtain rfl : digits = stop := by rw [← finishInteger_stop negative s digits, h]
          exact List.suffix_rfl
      · obtain rfl : digits = stop := by rw [← finishInteger_stop negative s digits, h]
        exact List.suffix_rfl

theorem readNumeral_passes {n : Number} (h : readNumeral cursor = (.ok n, stop)) :
    cursor.Passes stop := by
  unfold readNumeral at h
  split at h
  · rename_i rest hrest
    exact (readMagnitude_passes h).before (Cursor.tail_suffix hrest)
  · exact readMagnitude_passes h

/-! ### Values without parts -/

theorem readWord_rest {word : List Char} (h : readWord cursor word = .ok stop) :
    cursor.rest = word ++ stop.rest := by
  induction word generalizing cursor with
  | nil =>
    obtain rfl := Except.ok.inj h
    rfl
  | cons letter word ih =>
    rw [readWord] at h
    split at h
    · simp at h
    · rename_i c rest hrest
      split at h
      · rename_i heq
        rw [hrest, heq, List.cons_append, ← ih h]
        rfl
      · simp at h

mutual

/-- Whether what a tree says about the text behind a part agrees with how the tree goes on: behind a
complete item the list can be closed exactly when it has no more items, and likewise for members of
an object.  Objects of a text have a place. -/
def Source.WellRead : Source → Prop
  | .scalar .. | .broken .. => True
  | .array _ items => items.WellRead
  | .object start members => start.isSome = true ∧ members.WellRead

def Items.WellRead : Items → Prop
  | .stop _ => True
  | .item value closing rest => value.WellRead ∧ rest.WellRead ∧
      ((∃ v, value.value = .ok v) → (closing.fault = none ↔ rest.values = .ok []))

def Members.WellRead : Members → Prop
  | .stop _ | .noColon .. => True
  | .member _ value unended rest => value.WellRead ∧ rest.WellRead ∧
      ((∃ v, value.value = .ok v) → (unended = none ↔ rest.values = .ok []))

end

/-- Whether a reading at a cursor is sound: it holds no fault and the reader stands behind what it
read, or it holds a fault and the reader has stopped. -/
structure Reading.Sound {α β : Type} (WellRead : α → Prop) (value : α → Except FaultAt β)
    (cursor : Cursor) (reading : Reading α) : Prop where
  wellRead : WellRead reading.1
  complete : ∀ stop, reading.2 = some stop → cursor.Passes stop ∧ ∃ v, value reading.1 = .ok v
  broken : reading.2 = none → ∀ v, value reading.1 ≠ .ok v

abbrev Reading.SoundSource (cursor : Cursor) (reading : Reading Source) : Prop :=
  Sound Source.WellRead Source.value cursor reading

abbrev Reading.SoundItems (cursor : Cursor) (reading : Reading Items) : Prop :=
  Sound Items.WellRead Items.values cursor reading

abbrev Reading.SoundMembers (cursor : Cursor) (reading : Reading Members) : Prop :=
  Sound Members.WellRead Members.values cursor reading

theorem sound_scalar {value : Scalar} (h : cursor.Passes stop) :
    Reading.SoundSource cursor (Reading.scalar cursor value stop) := by
  constructor
  case wellRead => trivial
  case complete =>
    rintro _ ⟨rfl⟩
    exact ⟨h, _, rfl⟩
  case broken => simp [Reading.scalar]

theorem sound_broken {start : Option Position} {fault : FaultAt} :
    Reading.SoundSource cursor (Reading.broken start fault) := by
  constructor
  case wellRead => trivial
  case complete => simp [Reading.broken]
  case broken => exact fun _ v hv => by cases hv

theorem sound_readLiteral {word : String} (hword : word.toList ≠ []) {value : Scalar} :
    Reading.SoundSource cursor (readLiteral cursor word value) := by
  unfold readLiteral
  split
  · rename_i stop hread
    have hrest := readWord_rest hread
    obtain ⟨c, letters, hletters⟩ := List.exists_cons_of_ne_nil hword
    rw [hletters, List.cons_append] at hrest
    exact sound_scalar (.of_cons hrest (List.suffix_append letters stop.rest))
  · exact sound_broken

theorem sound_readScalar (cursor : Cursor) : Reading.SoundSource cursor (readScalar cursor) := by
  unfold readScalar
  dsimp only
  split
  · exact sound_broken
  · exact sound_readLiteral (by decide)
  · exact sound_readLiteral (by decide)
  · exact sound_readLiteral (by decide)
  · rename_i rest hrest
    split
    · rename_i s stop hread
      exact sound_scalar (.of_cons hrest (readString_suffix hread))
    · exact sound_broken
  · split
    · split
      · rename_i n stop hread
        exact sound_scalar (readNumeral_passes hread)
      · exact sound_broken
    · exact sound_broken

/-! ### Brackets and commas -/

theorem closeList_fault_eq_none_iff :
    (closeList cursor).fault = none ↔ ∃ rest, cursor.skipBlank.rest = ']' :: rest := by
  unfold closeList
  dsimp only
  split <;> simp_all

theorem unended_eq_none_iff :
    unended cursor = none ↔ ∃ rest, cursor.skipBlank.rest = '}' :: rest := by
  unfold unended
  dsimp only
  split <;> simp_all

/-- How a list or an object continues at a cursor: with a part, with the closing bracket, or with a
fault.  `closes` says that it can be closed there. -/
inductive Continues (cursor : Cursor) (closes : Prop) (Starts : Cursor → Prop) :
    Except Ending Cursor × Option Cursor → Prop
  | part {start : Cursor} (hstart : Starts start) (hopen : ¬ closes) :
      Continues cursor closes Starts (.ok start, none)
  | closed {stop : Cursor} (hstop : cursor.Passes stop) (hcloses : closes) :
      Continues cursor closes Starts (.error (.closed (some stop.position)), some stop)
  | fault {fault : FaultAt} (hopen : ¬ closes) :
      Continues cursor closes Starts (.error (.fault fault), none)

theorem continues_nextItem (first : Bool) (cursor : Cursor) :
    Continues cursor ((closeList cursor).fault = none) (·.rest <:+ cursor.rest)
      (nextItem first cursor) := by
  have hblank := cursor.skipBlank_suffix
  rw [closeList_fault_eq_none_iff]
  unfold nextItem
  dsimp only
  split
  case h_1 hrest => exact .fault (by simp [hrest])
  case h_2 rest hrest =>
    exact .closed ((Cursor.Passes.of_cons hrest List.suffix_rfl).before hblank) ⟨rest, hrest⟩
  case h_3 c rest hother hrest =>
    have hopen : ¬ ∃ rest, cursor.skipBlank.rest = ']' :: rest := by
      rintro ⟨behind, hbehind⟩
      exact hother (List.cons.inj (hrest.symm.trans hbehind)).1
    have hnext : rest <:+ cursor.rest := .trans (Cursor.tail_suffix hrest) hblank
    cases first with
    | true => exact .part hblank hopen
    | false =>
      rw [if_neg Bool.false_ne_true]
      split
      · split
        · exact .fault hopen
        · exact .fault hopen
        · exact .part ((Cursor.skipBlank_suffix _).trans hnext) hopen
      · exact .fault hopen

theorem continues_keyMark {behind : Cursor} (hbehind : behind.rest <:+ cursor.rest) {closes : Prop}
    (hopen : ¬ closes) : Continues cursor closes cursor.Passes (keyMark behind, none) := by
  unfold keyMark
  split
  case h_2 rest hrest =>
    exact .part ((Cursor.Passes.of_cons hrest List.suffix_rfl).before hbehind) hopen
  all_goals exact .fault hopen

theorem continues_nextKey (first : Bool) (cursor : Cursor) :
    Continues cursor (unended cursor = none) cursor.Passes (nextKey first cursor) := by
  have hblank := cursor.skipBlank_suffix
  rw [unended_eq_none_iff]
  unfold nextKey
  dsimp only
  split
  case h_1 hrest => exact .fault (by simp [hrest])
  case h_2 rest hrest =>
    exact .closed ((Cursor.Passes.of_cons hrest List.suffix_rfl).before hblank) ⟨rest, hrest⟩
  case h_3 c rest hother hrest =>
    have hopen : ¬ ∃ rest, cursor.skipBlank.rest = '}' :: rest := by
      rintro ⟨behind, hbehind⟩
      exact hother (List.cons.inj (hrest.symm.trans hbehind)).1
    have hnext : rest <:+ cursor.rest := .trans (Cursor.tail_suffix hrest) hblank
    split
    · exact continues_keyMark hblank hopen
    · split
      · exact continues_keyMark ((Cursor.skipBlank_suffix _).trans hnext) hopen
      · exact .fault hopen

theorem colon_suffix (h : colon cursor = .ok stop) : stop.rest <:+ cursor.rest := by
  unfold colon at h
  dsimp only at h
  split at h
  · simp at h
  · rename_i rest hrest
    obtain rfl := Except.ok.inj h
    exact .trans (Cursor.tail_suffix hrest) cursor.skipBlank_suffix
  · simp at h

/-! ### Values, items and members -/

theorem Source.value_array_eq_ok_iff {start : Option Position} {items : Items} {v : Value} :
    (Source.array start items).value = .ok v ↔ ∃ vs, items.values = .ok vs ∧ .array vs = v := by
  rw [Source.value, bind_eq_ok_iff]
  simp only [Except.ok.injEq]

theorem Source.value_object_eq_ok_iff {start : Option Position} {members : Members} {v : Value} :
    (Source.object start members).value = .ok v ↔
      ∃ ms, members.values = .ok ms ∧ .object (Value.ofMembers ms) = v := by
  rw [Source.value, bind_eq_ok_iff]
  simp only [Except.ok.injEq]

theorem Items.values_item_eq_ok_iff {value : Source} {closing : Closing} {rest : Items}
    {vs : List Value} : (Items.item value closing rest).values = .ok vs ↔
      ∃ v behind, value.value = .ok v ∧ rest.values = .ok behind ∧ v :: behind = vs := by
  simp only [Items.values, bind_eq_ok_iff, Except.ok.injEq, exists_and_left]

theorem Members.values_member_eq_ok_iff {key : Key} {value : Source} {unended : Option FaultAt}
    {rest : Members} {ms : List (String × Value)} :
    (Members.member key value unended rest).values = .ok ms ↔
      ∃ v behind, value.value = .ok v ∧ rest.values = .ok behind ∧
        (key.name, v) :: behind = ms := by
  simp only [Members.values, bind_eq_ok_iff, Except.ok.injEq, exists_and_left]

theorem sound_array {start : Option Position} {rest : List Char} (hrest : cursor.rest = '[' :: rest)
    {reading : Reading Items} (h : Reading.SoundItems (cursor.past '[' rest) reading) :
    Reading.SoundSource cursor (.array start reading.1, reading.2) := by
  constructor
  case wellRead => exact h.wellRead
  case complete =>
    intro stop hstop
    obtain ⟨hpasses, vs, hvs⟩ := h.complete stop hstop
    exact ⟨.of_cons hrest hpasses.suffix, _, Source.value_array_eq_ok_iff.mpr ⟨vs, hvs, rfl⟩⟩
  case broken =>
    intro hnone v hv
    obtain ⟨vs, hvs, -⟩ := Source.value_array_eq_ok_iff.mp hv
    exact h.broken hnone vs hvs

theorem sound_object {start : Position} {rest : List Char} (hrest : cursor.rest = '{' :: rest)
    {reading : Reading Members} (h : Reading.SoundMembers (cursor.past '{' rest) reading) :
    Reading.SoundSource cursor (.object (some start) reading.1, reading.2) := by
  constructor
  case wellRead => exact ⟨rfl, h.wellRead⟩
  case complete =>
    intro stop hstop
    obtain ⟨hpasses, ms, hms⟩ := h.complete stop hstop
    exact ⟨.of_cons hrest hpasses.suffix, _, Source.value_object_eq_ok_iff.mpr ⟨ms, hms, rfl⟩⟩
  case broken =>
    intro hnone v hv
    obtain ⟨ms, hms, -⟩ := Source.value_object_eq_ok_iff.mp hv
    exact h.broken hnone ms hms

/-- A sound reading behind white space is a sound reading. -/
theorem Reading.Sound.before {α β : Type} {WellRead : α → Prop} {value : α → Except FaultAt β}
    {middle : Cursor} {reading : Reading α} (h : Reading.Sound WellRead value middle reading)
    (hmiddle : middle.rest <:+ cursor.rest) : Reading.Sound WellRead value cursor reading where
  wellRead := h.wellRead
  complete stop hstop := ⟨(h.complete stop hstop).1.before hmiddle, (h.complete stop hstop).2⟩
  broken := h.broken

/-- An item that is read to its end, and the items behind it. -/
theorem sound_item {start : Cursor} (hstart : start.rest <:+ cursor.rest) {value : Source}
    (hvalue : Reading.SoundSource start (value, some stop)) {reading : Reading Items}
    (hrest : Reading.SoundItems stop reading)
    (hnone : (closeList stop).fault = none ↔ reading.1.values = .ok []) :
    Reading.SoundItems cursor (.item value (closeList stop) reading.1, reading.2) := by
  obtain ⟨hpasses, v, hv⟩ := hvalue.complete stop rfl
  constructor
  case wellRead => exact ⟨hvalue.wellRead, hrest.wellRead, fun _ => hnone⟩
  case complete =>
    intro last hlast
    obtain ⟨hbehind, vs, hvs⟩ := hrest.complete last hlast
    exact ⟨(hpasses.after hbehind.suffix).before hstart, _,
      Items.values_item_eq_ok_iff.mpr ⟨v, vs, hv, hvs, rfl⟩⟩
  case broken =>
    intro hbroken _ hvs
    obtain ⟨-, vs, -, hvs, -⟩ := Items.values_item_eq_ok_iff.mp hvs
    exact hrest.broken hbroken vs hvs

/-- A member that is read to its end, and the members behind it. -/
theorem sound_member {start : Cursor} (hstart : start.rest <:+ cursor.rest) {key : Key}
    {value : Source} (hvalue : Reading.SoundSource start (value, some stop))
    {reading : Reading Members} (hrest : Reading.SoundMembers stop reading)
    (hnone : unended stop = none ↔ reading.1.values = .ok []) :
    Reading.SoundMembers cursor (.member key value (unended stop) reading.1, reading.2) := by
  obtain ⟨hpasses, v, hv⟩ := hvalue.complete stop rfl
  constructor
  case wellRead => exact ⟨hvalue.wellRead, hrest.wellRead, fun _ => hnone⟩
  case complete =>
    intro last hlast
    obtain ⟨hbehind, ms, hms⟩ := hrest.complete last hlast
    exact ⟨(hpasses.after hbehind.suffix).before hstart, _,
      Members.values_member_eq_ok_iff.mpr ⟨v, ms, hv, hms, rfl⟩⟩
  case broken =>
    intro hbroken _ hms
    obtain ⟨-, ms, -, hms, -⟩ := Members.values_member_eq_ok_iff.mp hms
    exact hrest.broken hbroken ms hms

/-- Whether the readings with a number of steps are sound where the steps suffice, and a list or
object has no parts exactly when it can be closed where its parts start. -/
structure SoundReadings (steps : Nat) : Prop where
  value : ∀ room cursor, 2 * cursor.rest.length + 2 ≤ steps →
    Reading.SoundSource cursor (readValue steps room cursor)
  items : ∀ room first cursor, 2 * cursor.rest.length + 3 ≤ steps →
    Reading.SoundItems cursor (readItems steps room first cursor) ∧
      ((closeList cursor).fault = none ↔ (readItems steps room first cursor).1.values = .ok [])
  members : ∀ room first cursor, 2 * cursor.rest.length + 3 ≤ steps →
    Reading.SoundMembers cursor (readMembers steps room first cursor) ∧
      (unended cursor = none ↔ (readMembers steps room first cursor).1.values = .ok [])

namespace SoundReadings

variable {steps : Nat}

theorem readValue_succ (h : SoundReadings steps) (room : Nat) (cursor : Cursor)
    (hsteps : 2 * cursor.rest.length + 2 ≤ steps + 1) :
    Reading.SoundSource cursor (readValue (steps + 1) room cursor) := by
  have hblank := cursor.skipBlank_suffix
  have hlength := hblank.length_le
  refine Reading.Sound.before ?_ hblank
  unfold readValue
  dsimp only
  split
  · rename_i rest room hrest
    rw [hrest, List.length_cons] at hlength
    have hsteps' : 2 * (cursor.skipBlank.past '[' rest).rest.length + 3 ≤ steps := by
      show 2 * rest.length + 3 ≤ steps
      omega
    exact sound_array hrest (h.items (room + 1) true _ hsteps').1
  · exact sound_broken
  · rename_i rest room hrest
    rw [hrest, List.length_cons] at hlength
    have hsteps' : 2 * (cursor.skipBlank.past '{' rest).rest.length + 3 ≤ steps := by
      show 2 * rest.length + 3 ≤ steps
      omega
    exact sound_object hrest (h.members (room + 1) true _ hsteps').1
  · exact sound_broken
  · exact sound_readScalar cursor.skipBlank

theorem readItems_succ (h : SoundReadings steps) (room : Nat) (first : Bool) (cursor : Cursor)
    (hsteps : 2 * cursor.rest.length + 3 ≤ steps + 1) :
    Reading.SoundItems cursor (readItems (steps + 1) room first cursor) ∧
      ((closeList cursor).fault = none ↔
        (readItems (steps + 1) room first cursor).1.values = .ok []) := by
  rw [readItems]
  have hnext := continues_nextItem first cursor
  generalize nextItem first cursor = next at hnext ⊢
  have hmore : ∀ {value : Source} {closing : Closing} {rest : Items},
      (Items.item value closing rest).values ≠ .ok [] := fun hnil => by
    obtain ⟨v, behind, -, -, hcons⟩ := Items.values_item_eq_ok_iff.mp hnil
    cases hcons
  cases hnext with
  | @closed stop hstop hcloses =>
    refine ⟨⟨trivial, ?_, by simp⟩, iff_of_true hcloses rfl⟩
    rintro _ ⟨rfl⟩
    exact ⟨hstop, [], rfl⟩
  | @fault fault hopen =>
    exact ⟨⟨trivial, by simp, by simp [Items.values]⟩,
      iff_of_false hopen (by simp [Items.values])⟩
  | @part start hstart hopen =>
    have hlength := hstart.length_le
    have hvalue := h.value room start (by omega)
    dsimp only
    generalize readValue steps room start = reading at hvalue ⊢
    obtain ⟨value, stop⟩ := reading
    cases stop with
    | some stop =>
      have hshorter := (hvalue.complete stop rfl).1.shorter
      obtain ⟨hrest, hnone⟩ := h.items room false stop (by omega)
      exact ⟨sound_item hstart hvalue hrest hnone, iff_of_false hopen hmore⟩
    | none =>
      have hbroken := hvalue.broken rfl
      refine ⟨⟨⟨hvalue.wellRead, trivial, ?_⟩, by simp, fun _ vs hvs => ?_⟩,
        iff_of_false hopen hmore⟩
      · rintro ⟨v, hv⟩
        exact (hbroken v hv).elim
      · obtain ⟨v, -, hv, -⟩ := Items.values_item_eq_ok_iff.mp hvs
        exact hbroken v hv

theorem readMembers_succ (h : SoundReadings steps) (room : Nat) (first : Bool) (cursor : Cursor)
    (hsteps : 2 * cursor.rest.length + 3 ≤ steps + 1) :
    Reading.SoundMembers cursor (readMembers (steps + 1) room first cursor) ∧
      (unended cursor = none ↔
        (readMembers (steps + 1) room first cursor).1.values = .ok []) := by
  rw [readMembers]
  have hnext := continues_nextKey first cursor
  generalize nextKey first cursor = next at hnext ⊢
  have hmore : ∀ {key : Key} {value : Source} {unended : Option FaultAt} {rest : Members},
      (Members.member key value unended rest).values ≠ .ok [] := fun hnil => by
    obtain ⟨v, behind, -, -, hcons⟩ := Members.values_member_eq_ok_iff.mp hnil
    cases hcons
  cases hnext with
  | @closed stop hstop hcloses =>
    refine ⟨⟨trivial, ?_, by simp⟩, iff_of_true hcloses rfl⟩
    rintro _ ⟨rfl⟩
    exact ⟨hstop, [], rfl⟩
  | @fault fault hopen =>
    exact ⟨⟨trivial, by simp, by simp [Members.values]⟩,
      iff_of_false hopen (by simp [Members.values])⟩
  | @part start hstart hopen =>
    dsimp only
    split
    · exact ⟨⟨trivial, by simp, by simp [Members.values]⟩,
        iff_of_false hopen (by simp [Members.values])⟩
    rename_i name behind hname
    split
    · exact ⟨⟨trivial, by simp, by simp [Members.values]⟩,
        iff_of_false hopen (by simp [Members.values])⟩
    rename_i after hcolon
    have hafter : cursor.Passes after :=
      hstart.after ((colon_suffix hcolon).trans (readString_suffix hname))
    have hlength := hafter.shorter
    have hvalue := h.value room after (by omega)
    generalize readValue steps room after = reading at hvalue ⊢
    obtain ⟨value, stop⟩ := reading
    cases stop with
    | some stop =>
      have hshorter := (hvalue.complete stop rfl).1.shorter
      obtain ⟨hrest, hnone⟩ := h.members room false stop (by omega)
      exact ⟨sound_member hafter.suffix hvalue hrest hnone, iff_of_false hopen hmore⟩
    | none =>
      have hbroken := hvalue.broken rfl
      refine ⟨⟨⟨hvalue.wellRead, trivial, ?_⟩, by simp, fun _ ms hms => ?_⟩,
        iff_of_false hopen hmore⟩
      · rintro ⟨v, hv⟩
        exact (hbroken v hv).elim
      · obtain ⟨v, -, hv, -⟩ := Members.values_member_eq_ok_iff.mp hms
        exact hbroken v hv

end SoundReadings

theorem soundReadings (steps : Nat) : SoundReadings steps := by
  induction steps with
  | zero => exact ⟨by omega, by omega, by omega⟩
  | succ steps ih => exact ⟨ih.readValue_succ, ih.readItems_succ, ih.readMembers_succ⟩

/-- The tree of a text is complete exactly when the reader comes to stand behind it, and what it
says about the text behind its parts is right. -/
theorem sound_read (text : String) :
    Reading.SoundSource (Cursor.ofText text) (Source.read text) :=
  (soundReadings _).value maxDepth (Cursor.ofText text) (Nat.le_refl _)

end FormatterPlan.Json
