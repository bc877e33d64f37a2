import FormatterPlan.Declaration.Decoding
import FormatterPlan.Proofs.DecoderAgreement

/-! Documents in texts and documents in values.  The document at the start of a text is the one of
the value at the start of the text, as long as no object repeats a key.  What follows the value is
not looked at, so a text may hold a document though the text as a whole is no value. -/

namespace FormatterPlan

open Json

/-! ### Declarations -/

theorem AttributeDecl.agrees : AgreesOnItems AttributeDecl.decode := by
  intro source hplain path path' place place' decl
  have hdecode : ∀ {path : Path} {source : Source} {place : Option Position},
      AttributeDecl.decode path source place = .ok decl ↔
        ∃ v, source.buffered path = .ok v ∧ AttributeDecl.ofBuffered? v = some decl := by
    intro path source place
    rw [AttributeDecl.decode, bind_eq_ok_iff]
    refine exists_congr fun v => and_congr_right fun _ => ?_
    cases AttributeDecl.ofBuffered? v <;> simp
  simp only [hdecode, Source.buffered_eq_ok_iff path hplain, Source.buffered_ofValue,
    Except.ok.injEq, exists_eq_left']

theorem agrees_asStrings : Agrees fun path source => source.asStrings path :=
  agrees_asString.onItems.asList

theorem MemberDecl.agrees : Agrees MemberDecl.format.decode := by
  refine RecordFormat.agrees (fun field hfield record => ?_) (by simp [MemberDecl.format])
  simp only [MemberDecl.format, List.mem_cons, List.not_mem_nil, or_false] at hfield
  rcases hfield with rfl | rfl | rfl | rfl | rfl | rfl | rfl
  · exact agrees_asString.bind fun name => { record with name }
  · exact agrees_asOptionalString.bind fun type => { record with type }
  · exact (Variants.agrees _).bind fun kind => { record with kind }
  · exact (Variants.agrees _).bind fun access => { record with access }
  · exact agrees_asBool.bind fun isStatic => { record with isStatic }
  · exact agrees_asStrings.bind fun params => { record with params }
  · exact AttributeDecl.agrees.asList.bind fun attributes => { record with attributes }

theorem TypeDecl.agrees : Agrees TypeDecl.format.decode := by
  refine RecordFormat.agrees (fun field hfield record => ?_) (by simp [TypeDecl.format])
  simp only [TypeDecl.format, List.mem_cons, List.not_mem_nil, or_false] at hfield
  rcases hfield with rfl | rfl | rfl | rfl | rfl | rfl | rfl
  · exact agrees_asString.bind fun name => { record with name }
  · exact (Variants.agrees _).bind fun kind => { record with kind }
  · exact agrees_asStrings.bind fun generics => { record with generics }
  · exact agrees_asOptionalString.bind fun base => { record with base }
  · exact AttributeDecl.agrees.asList.bind fun attributes => { record with attributes }
  · exact MemberDecl.agrees.onItems.asList.bind fun members => { record with members }
  · exact agrees_asOptionalString.bind fun underlying => { record with underlying }

theorem Document.agrees : Agrees Document.format.decode := by
  refine RecordFormat.agrees (fun field hfield record => ?_) (by simp [Document.format])
  simp only [Document.format, List.mem_cons, List.not_mem_nil, or_false] at hfield
  obtain rfl := hfield
  exact TypeDecl.agrees.onItems.asList.bind Document.mk

/-! ### Texts -/

/-- Whether a text starts with a value, and what is left behind it. -/
def StartsWith (text : String) (v : Value) (rest : List Char) : Prop :=
  ∃ source stop, Source.read text = (source, some stop) ∧ source.value = .ok v ∧ stop.rest = rest

/-- What of a text a document is decoded from: the value that the text starts with.  The text as a
whole is this value if nothing but white space follows, and it is in this case alone that text and
value always hold the same document. -/
structure DecodesStart (text : String) : Prop where
  suffix : ∀ v rest, StartsWith text v rest → rest <:+ text.toList
  unique : ∀ v rest v' rest', StartsWith text v rest → StartsWith text v' rest' →
    v' = v ∧ rest' = rest
  ofText_iff : ∀ d, Document.ofText text = .ok d ↔
    ∃ v rest, StartsWith text v rest ∧ Document.ofValue v = .ok d
  parse_iff : ∀ v, Value.parse text = .ok v ↔
    ∃ rest, StartsWith text v rest ∧ ∀ c ∈ rest, Cursor.isBlank c
  agree_iff :
    (∀ d, Document.ofText text = .ok d ↔
      ∃ v, Value.parse text = .ok v ∧ Document.ofValue v = .ok d) ↔
    ∀ d, Document.ofText text = .ok d →
      ∀ v rest, StartsWith text v rest → ∀ c ∈ rest, Cursor.isBlank c

namespace StartsWith

variable {text : String} {v v' : Value} {rest rest' : List Char}

theorem suffix (h : StartsWith text v rest) : rest <:+ text.toList := by
  obtain ⟨source, stop, hread, -, rfl⟩ := h
  have hsound := sound_read text
  rw [hread] at hsound
  exact (hsound.complete stop rfl).1.suffix

theorem unique (h : StartsWith text v rest) (h' : StartsWith text v' rest') :
    v' = v ∧ rest' = rest := by
  obtain ⟨source, stop, hread, hvalue, rfl⟩ := h
  obtain ⟨source', stop', hread', hvalue', rfl⟩ := h'
  obtain ⟨rfl, hstop⟩ := Prod.mk.inj (hread.symm.trans hread')
  obtain rfl := Option.some.inj hstop
  exact ⟨Except.ok.inj (hvalue'.symm.trans hvalue), rfl⟩

end StartsWith

/-- A tree that holds a value is followed by the rest of its text. -/
theorem exists_startsWith_iff {text : String} {v : Value} :
    (∃ rest, StartsWith text v rest) ↔ (Source.read text).1.value = .ok v := by
  constructor
  · rintro ⟨_, source, stop, hread, hvalue, rfl⟩
    rw [hread]
    exact hvalue
  · intro hvalue
    have hsound := sound_read text
    obtain ⟨source, stop, hread⟩ : ∃ source stop, Source.read text = (source, stop) := ⟨_, _, rfl⟩
    rw [hread] at hsound hvalue
    cases stop with
    | none => exact (hsound.broken rfl v hvalue).elim
    | some stop => exact ⟨stop.rest, source, stop, hread, hvalue, rfl⟩

theorem parse_eq_ok_iff {text : String} {v : Value} : Value.parse text = .ok v ↔
    ∃ rest, StartsWith text v rest ∧ ∀ c ∈ rest, Cursor.isBlank c := by
  have hsound := sound_read text
  unfold Value.parse StartsWith
  obtain ⟨source, stop, hread⟩ : ∃ source stop, Source.read text = (source, stop) := ⟨_, _, rfl⟩
  rw [hread] at hsound ⊢
  cases stop with
  | none =>
    refine iff_of_false (hsound.broken rfl v) ?_
    rintro ⟨rest, ⟨_, stop, hread, -⟩, -⟩
    cases hread
  | some stop =>
    simp only [bind_eq_ok_iff]
    constructor
    · rintro ⟨w, hw, h⟩
      split at h
      · rename_i hempty
        obtain rfl := Except.ok.inj h
        exact ⟨stop.rest, ⟨source, stop, rfl, hw, rfl⟩,
          Cursor.skipBlank_rest_eq_nil_iff.mp (List.isEmpty_iff.mp hempty)⟩
      · cases h
    · rintro ⟨_, ⟨_, _, ⟨⟩, hv, rfl⟩, hblank⟩
      refine ⟨v, hv, ?_⟩
      rw [Cursor.skipBlank_rest_eq_nil_iff.mpr hblank]
      rfl

/-- Where no object repeats a key, a text holds the document of the value that it starts with. -/
theorem decodesStart_of_hasDistinctKeys {text : String}
    (hdistinct : (Source.read text).1.hasDistinctKeys = true) : DecodesStart text := by
  have hplain : (Source.read text).1.IsPlain := ⟨(sound_read text).wellRead, hdistinct⟩
  have hofText : ∀ d, Document.ofText text = .ok d ↔
      ∃ v rest, StartsWith text v rest ∧ Document.ofValue v = .ok d := by
    intro d
    rw [Document.ofText, Document.ofSource, Document.agrees _ hplain [] []]
    refine exists_congr fun v => ?_
    rw [exists_and_right, exists_startsWith_iff]
    rfl
  constructor
  case suffix => exact fun v rest h => h.suffix
  case unique => exact fun v rest v' rest' h h' => h.unique h'
  case ofText_iff => exact hofText
  case parse_iff => exact fun v => parse_eq_ok_iff
  case agree_iff =>
    constructor
    · intro hagree d hd v rest hstart
      obtain ⟨w, hw, -⟩ := (hagree d).mp hd
      obtain ⟨rest', hstart', hblank⟩ := parse_eq_ok_iff.mp hw
      obtain ⟨-, rfl⟩ := hstart'.unique hstart
      exact hblank
    · intro hblank d
      constructor
      · intro hd
        obtain ⟨v, rest, hstart, hv⟩ := (hofText d).mp hd
        exact ⟨v, parse_eq_ok_iff.mpr ⟨rest, hstart, hblank d hd v rest hstart⟩, hv⟩
      · rintro ⟨v, hv, hd⟩
        obtain ⟨rest, hstart, -⟩ := parse_eq_ok_iff.mp hv
        exact (hofText d).mpr ⟨v, rest, hstart, hd⟩

/-! ### A text that goes on -/

/-- A document without types, and a character behind it. -/
def overlongText : String := "\x7b\"types\":[]\x7d x"

theorem ofText_overlongText : Document.ofText overlongText = .ok ⟨[]⟩ := by
  have hempty : (Document.ofText overlongText).toOption.map (·.types.length) = some 0 := by
    decide +kernel
  obtain ⟨⟨types⟩, hd, hlength⟩ := Option.map_eq_some_iff.mp hempty
  obtain rfl := List.length_eq_zero_iff.mp hlength
  exact toOption_eq_some_iff.mp hd

/-- The document of the text is the one of the value at its start. -/
theorem overlongText_decodesStart : (Source.read overlongText).1.hasDistinctKeys = true ∧
    DecodesStart overlongText ∧
    ∃ v rest, StartsWith overlongText v rest ∧ Document.ofValue v = .ok ⟨[]⟩ := by
  have hdistinct : (Source.read overlongText).1.hasDistinctKeys = true := by decide +kernel
  have hdecodes := decodesStart_of_hasDistinctKeys hdistinct
  exact ⟨hdistinct, hdecodes, (hdecodes.ofText_iff ⟨[]⟩).mp ofText_overlongText⟩

/-- The text as a whole is no value, and its document is decoded all the same. -/
theorem overlongText_isNoValue : (Source.read overlongText).1.hasDistinctKeys = true ∧
    Document.ofText overlongText = .ok ⟨[]⟩ ∧
    ¬ ∃ v, Value.parse overlongText = .ok v ∧ Document.ofValue v = .ok ⟨[]⟩ := by
  refine ⟨by decide +kernel, ofText_overlongText, ?_⟩
  rintro ⟨v, hv, -⟩
  have hnone : (Value.parse overlongText).toOption.isNone = true := by decide +kernel
  rw [hv] at hnone
  cases hnone

end FormatterPlan
