import FormatterPlan.Json.Decoding
import FormatterPlan.Proofs.ReadingProgress

/-! Decoders that make of a tree what they make of its value.  A decoder stops at the first error
that it meets, so what it accepts it has gone through to the end.  Where no object repeats a key it
has then read nothing but the value: scalars, lists, choices and records all agree, and so do the
decoders that are made of them. -/

namespace FormatterPlan.Json

/-! ### Trees without repeated keys -/

/-- The keys of an object as far as it was read. -/
def Members.keys : Members → List String
  | .stop _ => []
  | .noColon key _ => [key.name]
  | .member key _ _ rest => key.name :: rest.keys

mutual

/-- Whether no object of a tree repeats a key. -/
def Source.hasDistinctKeys : Source → Bool
  | .scalar .. | .broken .. => true
  | .array _ items => items.hasDistinctKeys
  | .object _ members => decide members.keys.Nodup && members.hasDistinctKeys

def Items.hasDistinctKeys : Items → Bool
  | .stop _ => true
  | .item value _ rest => value.hasDistinctKeys && rest.hasDistinctKeys

def Members.hasDistinctKeys : Members → Bool
  | .stop _ | .noColon .. => true
  | .member _ value _ rest => value.hasDistinctKeys && rest.hasDistinctKeys

end

/-- Whether a tree was read from a text in which no object repeats a key. -/
structure Source.IsPlain (source : Source) : Prop where
  wellRead : source.WellRead
  distinct : source.hasDistinctKeys = true

structure Items.IsPlain (items : Items) : Prop where
  wellRead : items.WellRead
  distinct : items.hasDistinctKeys = true

structure Members.IsPlain (members : Members) : Prop where
  wellRead : members.WellRead
  distinct : members.hasDistinctKeys = true

theorem Source.IsPlain.array {start : Option Position} {items : Items}
    (h : (Source.array start items).IsPlain) : items.IsPlain :=
  ⟨h.wellRead, h.distinct⟩

theorem Source.IsPlain.object {start : Option Position} {members : Members}
    (h : (Source.object start members).IsPlain) :
    start.isSome = true ∧ members.keys.Nodup ∧ members.IsPlain := by
  obtain ⟨⟨hstart, hwellRead⟩, hdistinct⟩ := h
  rw [Source.hasDistinctKeys, Bool.and_eq_true, decide_eq_true_eq] at hdistinct
  exact ⟨hstart, hdistinct.1, hwellRead, hdistinct.2⟩

theorem Items.IsPlain.item {value : Source} {closing : Closing} {rest : Items}
    (h : (Items.item value closing rest).IsPlain) :
    value.IsPlain ∧ rest.IsPlain ∧
      ((∃ v, value.value = .ok v) → (closing.fault = none ↔ rest.values = .ok [])) := by
  obtain ⟨⟨hvalue, hrest, hclosing⟩, hdistinct⟩ := h
  rw [Items.hasDistinctKeys, Bool.and_eq_true] at hdistinct
  exact ⟨⟨hvalue, hdistinct.1⟩, ⟨hrest, hdistinct.2⟩, hclosing⟩

theorem Members.IsPlain.member {key : Key} {value : Source} {unended : Option FaultAt}
    {rest : Members} (h : (Members.member key value unended rest).IsPlain) :
    value.IsPlain ∧ rest.IsPlain ∧
      ((∃ v, value.value = .ok v) → (unended = none ↔ rest.values = .ok [])) := by
  obtain ⟨⟨hvalue, hrest, hunended⟩, hdistinct⟩ := h
  rw [Members.hasDistinctKeys, Bool.and_eq_true] at hdistinct
  exact ⟨⟨hvalue, hdistinct.1⟩, ⟨hrest, hdistinct.2⟩, hunended⟩

/-! ### Members of objects -/

theorem Members.map_fst_values : ∀ {members : Members} {ms : List (String × Value)},
    members.values = .ok ms → ms.map (·.1) = members.keys
  | .stop (.closed _), ms, h => by
    obtain rfl := Except.ok.inj h
    rfl
  | .stop (.fault _), ms, h => by cases h
  | .noColon _ _, ms, h => by cases h
  | .member key _ _ rest, ms, h => by
    obtain ⟨v, behind, -, hrest, rfl⟩ := values_member_eq_ok_iff.mp h
    rw [List.map_cons, rest.map_fst_values hrest, keys]

namespace Value

theorem insertMember_of_not_mem {key : String} {value : Value} {ms : List (String × Value)}
    (h : key ∉ ms.map (·.1)) : insertMember key value ms = ms ++ [(key, value)] := by
  induction ms with
  | nil => rfl
  | cons m rest ih =>
    obtain ⟨k, v⟩ := m
    rw [List.map_cons, List.mem_cons, not_or] at h
    rw [insertMember, if_neg (Ne.symm h.1), ih h.2, List.cons_append]

/-- Members with different keys are those of an object that is written with them. -/
theorem ofMembers_of_nodup {ms : List (String × Value)} (h : (ms.map (·.1)).Nodup) :
    ofMembers ms = ms := by
  have hgeneral : ∀ (rest done : List (String × Value)), ((done ++ rest).map (·.1)).Nodup →
      rest.foldl (fun acc m => insertMember m.1 m.2 acc) done = done ++ rest := by
    intro rest
    induction rest with
    | nil => simp
    | cons m rest ih =>
      obtain ⟨key, value⟩ := m
      intro done hnodup
      have hnot : key ∉ done.map (·.1) := by
        rw [List.map_append, List.map_cons, List.nodup_append] at hnodup
        exact fun hmem => hnodup.2.2 _ hmem _ List.mem_cons_self rfl
      rw [List.foldl_cons]
      dsimp only
      rw [insertMember_of_not_mem hnot, ih _ (by simpa using hnodup), List.append_assoc,
        List.singleton_append]
  exact hgeneral ms [] h

end Value

theorem Source.value_object_eq_ok_iff_of_isPlain {start : Option Position} {members : Members}
    (h : (Source.object start members).IsPlain) {v : Value} :
    (Source.object start members).value = .ok v ↔
      ∃ ms, members.values = .ok ms ∧ .object ms = v := by
  rw [value_object_eq_ok_iff]
  refine exists_congr fun ms => and_congr_right fun hms => ?_
  rw [Value.ofMembers_of_nodup (Members.map_fst_values hms ▸ h.object.2.1)]

/-! ### Decoders that agree -/

section

variable {α β : Type}

/-- Whether a decoder makes of a tree what it makes of the value of the tree, wherever they are. -/
def Agrees (decode : Path → Source → Except DecodeError α) : Prop :=
  ∀ source : Source, source.IsPlain → ∀ path path' a, decode path source = .ok a ↔
    ∃ v, source.value = .ok v ∧ decode path' (.ofValue v) = .ok a

/-- The same of a decoder of items, which is told where the reader stands behind an item. -/
def AgreesOnItems (decode : Path → Source → Option Position → Except DecodeError α) : Prop :=
  ∀ source : Source, source.IsPlain → ∀ path path' place place' a,
    decode path source place = .ok a ↔
      ∃ v, source.value = .ok v ∧ decode path' (.ofValue v) place' = .ok a

theorem Agrees.onItems {decode : Path → Source → Except DecodeError α} (h : Agrees decode) :
    AgreesOnItems fun path source _ => decode path source :=
  fun source hplain path path' _ _ a => h source hplain path path' a

/-- A decoder may put what it decodes to use. -/
theorem Agrees.bind {decode : Path → Source → Except DecodeError α} (h : Agrees decode)
    (f : α → β) : Agrees fun path source => decode path source >>= fun a => .ok (f a) := by
  intro source hplain path path' b
  simp only [bind_eq_ok_iff, h source hplain path path']
  constructor
  · rintro ⟨a, ⟨v, hv, ha⟩, hb⟩
    exact ⟨v, hv, a, ha, hb⟩
  · rintro ⟨v, hv, a, ha, hb⟩
    exact ⟨a, ⟨v, hv, ha⟩, hb⟩

theorem ofValue_scalar (s : Scalar) : Source.ofValue s.value = .scalar none s none := by
  cases s <;> rfl

/-- Whether a decoder makes the same of a kind of trees as of their values: of scalars, of lists, or
of objects. -/
structure AgreesByShape (decode : Path → Source → Except DecodeError α) : Prop where
  scalar : ∀ path path' start s stop a, decode path (.scalar start s stop) = .ok a ↔
    decode path' (.scalar none s none) = .ok a
  array : ∀ {start items}, items.IsPlain → ∀ path path' a,
    decode path (.array start items) = .ok a ↔
      ∃ vs, items.values = .ok vs ∧ decode path' (.array none (Source.ofItems vs)) = .ok a
  object : ∀ {start members}, (Source.object start members).IsPlain → ∀ path path' a,
    decode path (.object start members) = .ok a ↔
      ∃ ms, members.values = .ok ms ∧ decode path' (.object none (Source.ofMembers ms)) = .ok a
  broken : ∀ path start fault a, decode path (.broken start fault) ≠ .ok a

theorem AgreesByShape.agrees {decode : Path → Source → Except DecodeError α}
    (h : AgreesByShape decode) : Agrees decode := by
  intro source hplain path path' a
  cases source with
  | scalar start s stop =>
    rw [h.scalar path path']
    constructor
    · intro hs
      exact ⟨s.value, rfl, by rwa [ofValue_scalar]⟩
    · rintro ⟨v, hv, ha⟩
      obtain rfl := Except.ok.inj hv
      rwa [ofValue_scalar] at ha
  | array start items =>
    rw [h.array hplain.array path path']
    simp only [Source.value_array_eq_ok_iff, exists_exists_and_eq_and, Source.ofValue]
  | object start members =>
    rw [h.object hplain path path']
    simp only [Source.value_object_eq_ok_iff_of_isPlain hplain, exists_exists_and_eq_and,
      Source.ofValue]
  | broken start fault =>
    refine iff_of_false (h.broken _ _ _ _) ?_
    rintro ⟨v, hv, -⟩
    cases hv

/-- A decoder that takes scalars only, and looks at their values only. -/
theorem agrees_of_scalar {decode : Path → Source → Except DecodeError α}
    (hscalar : ∀ {path start s stop a}, decode path (.scalar start s stop) = .ok a →
      ∀ path' start' stop', decode path' (.scalar start' s stop') = .ok a)
    (harray : ∀ path start items a, decode path (.array start items) ≠ .ok a)
    (hobject : ∀ path start members a, decode path (.object start members) ≠ .ok a)
    (hbroken : ∀ path start fault a, decode path (.broken start fault) ≠ .ok a) :
    Agrees decode := by
  refine AgreesByShape.agrees {
    scalar := fun path path' start s stop a => ⟨fun h => hscalar h _ _ _, fun h => hscalar h _ _ _⟩
    array := fun _ path path' a => iff_of_false (harray _ _ _ _) ?_
    object := fun _ path path' a => iff_of_false (hobject _ _ _ _) ?_
    broken := hbroken }
  · rintro ⟨vs, -, ha⟩
    exact harray _ _ _ _ ha
  · rintro ⟨ms, -, ha⟩
    exact hobject _ _ _ _ ha

end

theorem agrees_asString : Agrees fun path source => source.asString path := by
  refine agrees_of_scalar ?_ ?_ ?_ ?_
  · intro path start s stop a h
    cases s <;> simp_all [Source.asString]
  all_goals simp [Source.asString]

theorem agrees_asBool : Agrees fun path source => source.asBool path := by
  refine agrees_of_scalar ?_ ?_ ?_ ?_
  · intro path start s stop a h
    cases s <;> simp_all [Source.asBool]
  all_goals simp [Source.asBool]

theorem agrees_asOptionalString : Agrees fun path source => source.asOptionalString path := by
  refine agrees_of_scalar ?_ ?_ ?_ ?_
  · intro path start s stop a h
    cases s <;> simp_all [Source.asOptionalString, Source.asString, Functor.map, Except.map]
  all_goals simp [Source.asOptionalString, Source.asString, Functor.map, Except.map]

theorem agrees_noPayload : Agrees Variants.noPayload := by
  refine agrees_of_scalar ?_ ?_ ?_ ?_
  · intro path start s stop a h
    cases s <;> simp_all [Variants.noPayload]
  all_goals simp [Variants.noPayload]

/-! ### Lists and choices -/

section

variable {α : Type}

theorem items_decode_iff {item : Path → Source → Option Position → Except DecodeError α}
    (hitem : AgreesOnItems item) (path path' : Path) :
    ∀ {items : Items}, items.IsPlain → ∀ (index index' : Nat) (as : List α),
      items.decode path item index = .ok as ↔
        ∃ vs, items.values = .ok vs ∧ (Source.ofItems vs).decode path' item index' = .ok as
  | .stop (.closed _), _, index, index', as => by
    simp [Items.decode, Items.values, Source.ofItems]
  | .stop (.fault _), _, index, index', as => by
    simp [Items.decode, Items.values]
  | .item value closing rest, hplain, index, index', as => by
    obtain ⟨hvalue, hrest, -⟩ := hplain.item
    have hfirst := hitem value hvalue (path ++ [.index index]) (path' ++ [.index index'])
      closing.place none
    have hbehind := items_decode_iff hitem path path' hrest (index + 1) (index' + 1)
    simp only [Items.decode, bind_eq_ok_iff, hfirst, hbehind, Items.values_item_eq_ok_iff]
    constructor
    · rintro ⟨a, ⟨v, hv, ha⟩, as', ⟨vs, hvs, has⟩, heq⟩
      refine ⟨v :: vs, ⟨v, vs, hv, hvs, rfl⟩, ?_⟩
      simp only [Source.ofItems, Items.decode, bind_eq_ok_iff]
      exact ⟨a, ha, as', has, heq⟩
    · rintro ⟨_, ⟨v, vs, hv, hvs, rfl⟩, h⟩
      simp only [Source.ofItems, Items.decode, bind_eq_ok_iff] at h
      obtain ⟨a, ha, as', has, heq⟩ := h
      exact ⟨a, ⟨v, hv, ha⟩, as', ⟨vs, hvs, has⟩, heq⟩

theorem AgreesOnItems.asList {item : Path → Source → Option Position → Except DecodeError α}
    (hitem : AgreesOnItems item) : Agrees (Source.asList item) := by
  refine AgreesByShape.agrees {
    scalar := fun path path' start s stop as => by simp [Source.asList]
    array := fun hplain path path' as => items_decode_iff hitem path path' hplain 0 0 as
    object := fun _ path path' as => by simp [Source.asList]
    broken := fun path start fault as => by simp [Source.asList] }

namespace Variants

variable (variants : Variants α)

theorem choose_eq_ok_iff {path : Path} {name : String} {place : Option Position} {a : α} :
    variants.choose path name place = .ok a ↔ variants.lookup name = some a := by
  unfold choose
  cases variants.lookup name <;> simp

/-- The only member of an object that no text holds. -/
theorem ofValueMembers_eq_ok_iff {path : Path} {ms : List (String × Value)} {a : α} :
    variants.ofValueMembers path (Source.ofMembers ms) = .ok a ↔
      ∃ name v, ms = [(name, v)] ∧ variants.lookup name = some a ∧
        noPayload (path ++ [.key name]) (.ofValue v) = .ok () := by
  match ms with
  | [] => simp [Source.ofMembers, ofValueMembers]
  | _ :: _ :: _ => simp [Source.ofMembers, ofValueMembers]
  | [(name, v)] =>
    simp only [Source.ofMembers, ofValueMembers, bind_eq_ok_iff, choose_eq_ok_iff]
    constructor
    · rintro ⟨_, hlookup, ⟨⟩, hpayload, ⟨⟩⟩
      exact ⟨name, v, rfl, hlookup, hpayload⟩
    · rintro ⟨_, _, ⟨⟩, hlookup, hpayload⟩
      exact ⟨a, hlookup, (), hpayload, rfl⟩

/-- The first member of an object of a text, which has to end behind it. -/
theorem ofTextMembers_eq_ok_iff {path : Path} {members : Members} {a : α} :
    variants.ofTextMembers path members = .ok a ↔
      ∃ key value rest, members = .member key value none rest ∧
        variants.lookup key.name = some a ∧
          noPayload (path ++ [.key key.name]) value = .ok () := by
  match members with
  | .stop (.closed _) | .stop (.fault _) => simp [ofTextMembers]
  | .noColon key fault => simp [ofTextMembers, bind_eq_ok_iff]
  | .member key value (some fault) rest => simp [ofTextMembers, bind_eq_ok_iff]
  | .member key value none rest =>
    simp only [ofTextMembers, bind_eq_ok_iff, choose_eq_ok_iff]
    constructor
    · rintro ⟨_, hlookup, ⟨⟩, hpayload, ⟨⟩⟩
      exact ⟨key, value, rest, rfl, hlookup, hpayload⟩
    · rintro ⟨_, _, _, ⟨⟩, hlookup, hpayload⟩
      exact ⟨a, hlookup, (), hpayload, rfl⟩

/-- A choice is made by a scalar, or by the only member of an object. -/
theorem agrees : Agrees variants.decode := by
  refine AgreesByShape.agrees {
    scalar := fun path path' start s stop a => ?_
    array := fun _ path path' a => by simp [decode]
    object := fun {start members} hplain path path' a => ?_
    broken := fun path start fault a => by simp [decode] }
  · cases s <;> simp [decode, choose_eq_ok_iff]
  · obtain ⟨hstart, -, hmembers⟩ := hplain.object
    obtain ⟨p, rfl⟩ := Option.isSome_iff_exists.mp hstart
    simp only [decode, ofTextMembers_eq_ok_iff, ofValueMembers_eq_ok_iff]
    constructor
    · rintro ⟨key, value, rest, rfl, hlookup, hpayload⟩
      obtain ⟨hvalue, -, hends⟩ := hmembers.member
      obtain ⟨v, hv, hpayload'⟩ :=
        (agrees_noPayload value hvalue _ (path' ++ [.key key.name]) ()).mp hpayload
      exact ⟨_, Members.values_member_eq_ok_iff.mpr ⟨v, [], hv, (hends ⟨v, hv⟩).mp rfl, rfl⟩,
        key.name, v, rfl, hlookup, hpayload'⟩
    · rintro ⟨_, hms, name, v, rfl, hlookup, hpayload⟩
      match members with
      | .stop (.closed _) | .stop (.fault _) | .noColon .. => cases hms
      | .member key value unended rest =>
        obtain ⟨hvalue, -, hends⟩ := hmembers.member
        obtain ⟨v, behind, hv, hbehind, ⟨⟩⟩ := Members.values_member_eq_ok_iff.mp hms
        obtain rfl := (hends ⟨v, hv⟩).mpr hbehind
        exact ⟨key, value, rest, rfl, hlookup,
          (agrees_noPayload value hvalue _ (path' ++ [.key key.name]) ()).mpr ⟨v, hv, hpayload⟩⟩

end Variants

/-! ### Records -/

namespace RecordFormat

variable {σ : Type} (format : RecordFormat σ)

/-- Whether the decoders of the fields of a record agree on what the fields are set to. -/
def FieldsAgree : Prop :=
  ∀ field ∈ format.fields, ∀ record, Agrees fun path source => format.put field path source record

variable {format}

theorem checkKey_eq_ok_iff {path : Path} {seen : List String} {key : Key} :
    format.checkKey path seen key = .ok () ↔ key.name ∈ format.fields ∧ key.name ∉ seen := by
  unfold checkKey
  split
  · simp_all
  · split <;> simp_all

/-- One member of a record: its key has to be that of a field that is not set. -/
theorem ofMembers_member_eq_ok_iff {path : Path} {seen : List String} {record result : σ}
    {key : Key} {value : Source} {unended : Option FaultAt} {rest : Members} :
    format.ofMembers path seen record (.member key value unended rest) = .ok result ↔
      (key.name ∈ format.fields ∧ key.name ∉ seen) ∧
        ∃ next, format.put key.name (path ++ [.key key.name]) value record = .ok next ∧
          format.ofMembers path (key.name :: seen) next rest = .ok result := by
  rw [ofMembers, bind_eq_ok_iff]
  simp only [bind_eq_ok_iff]
  constructor
  · rintro ⟨⟨⟩, hkey, hnext⟩
    exact ⟨checkKey_eq_ok_iff.mp hkey, hnext⟩
  · rintro ⟨hkey, hnext⟩
    exact ⟨(), checkKey_eq_ok_iff.mpr hkey, hnext⟩

theorem ofMembers_iff (hfields : format.FieldsAgree) (path path' : Path) :
    ∀ {members : Members}, members.IsPlain → ∀ (seen : List String) (record result : σ),
      format.ofMembers path seen record members = .ok result ↔
        ∃ ms, members.values = .ok ms ∧
          format.ofMembers path' seen record (Source.ofMembers ms) = .ok result
  | .stop (.closed place), _, seen, record, result => by
    simp only [Members.values, Except.ok.injEq, exists_eq_left', Source.ofMembers, ofMembers]
    cases format.required.find? (!seen.contains ·) <;> simp
  | .stop (.fault fault), _, seen, record, result => by simp [ofMembers, Members.values]
  | .noColon key fault, _, seen, record, result => by
    simp [ofMembers, Members.values, bind_eq_ok_iff]
  | .member key value unended rest, hplain, seen, record, result => by
    obtain ⟨hvalue, hrest, -⟩ := hplain.member
    simp only [ofMembers_member_eq_ok_iff, Members.values_member_eq_ok_iff]
    constructor
    · rintro ⟨hkey, next, hput, hbehind⟩
      obtain ⟨v, hv, hput'⟩ :=
        (hfields _ hkey.1 record value hvalue _ (path' ++ [.key key.name]) _).mp hput
      obtain ⟨ms, hms, hbehind'⟩ := (ofMembers_iff hfields path path' hrest _ _ _).mp hbehind
      exact ⟨_, ⟨v, ms, hv, hms, rfl⟩, ofMembers_member_eq_ok_iff.mpr ⟨hkey, next, hput', hbehind'⟩⟩
    · rintro ⟨_, ⟨v, ms, hv, hms, rfl⟩, h⟩
      obtain ⟨hkey, next, hput, hbehind⟩ := ofMembers_member_eq_ok_iff.mp h
      exact ⟨hkey, next, (hfields _ hkey.1 record value hvalue _ _ _).mpr ⟨v, hv, hput⟩,
        (ofMembers_iff hfields path path' hrest _ _ _).mpr ⟨ms, hms, hbehind⟩⟩

/-- An item of a record that is written as a list. -/
theorem ofItems_item_eq_ok_iff {path : Path} {index : Nat} {field : String} {fields : List String}
    {record result : σ} {value : Source} {closing : Closing} {rest : Items} :
    format.ofItems path index (field :: fields) record (.item value closing rest) = .ok result ↔
      ∃ next, format.put field (path ++ [.index index]) value record = .ok next ∧
        if fields = [] then closing.fault = none ∧ itemCount rest = 0 ∧ next = result
        else format.ofItems path (index + 1) fields next rest = .ok result := by
  rw [ofItems, bind_eq_ok_iff]
  refine exists_congr fun next => and_congr_right fun _ => ?_
  cases fields with
  | cons other fields => simp
  | nil =>
    simp only [List.isEmpty_nil, if_true, endOfItems]
    cases closing.fault with
    | some fault => simp
    | none => cases itemCount rest <;> simp

theorem itemCount_eq_zero_of_values {items : Items} (h : items.values = .ok []) :
    itemCount items = 0 := by
  cases items with
  | stop ending => rfl
  | item value closing rest =>
    obtain ⟨v, behind, -, -, hcons⟩ := Items.values_item_eq_ok_iff.mp h
    cases hcons

theorem itemCount_ofItems (vs : List Value) : itemCount (Source.ofItems vs) = vs.length := by
  induction vs with
  | nil => rfl
  | cons v vs ih => rw [Source.ofItems, itemCount, ih, List.length_cons]

theorem ofItems_iff (hfields : format.FieldsAgree) (path path' : Path) :
    ∀ {items : Items}, items.IsPlain → ∀ (index index' : Nat) (fields : List String),
      fields ≠ [] → fields ⊆ format.fields → ∀ (record result : σ),
        format.ofItems path index fields record items = .ok result ↔
          ∃ vs, items.values = .ok vs ∧
            format.ofItems path' index' fields record (Source.ofItems vs) = .ok result
  | items, _, index, index', [], hne, _, record, result => absurd rfl hne
  | .stop (.closed place), _, index, index', field :: fields, _, _, record, result => by
    simp only [Items.values, Except.ok.injEq, exists_eq_left', Source.ofItems, ofItems]
    split <;> simp
  | .stop (.fault fault), _, index, index', field :: fields, _, _, record, result => by
    simp [ofItems, Items.values]
  | .item value closing rest, hplain, index, index', field :: fields, _, hsubset, record,
      result => by
    obtain ⟨hvalue, hrest, hends⟩ := hplain.item
    have hfield := hfields field (hsubset List.mem_cons_self) record value hvalue
      (path ++ [.index index]) (path' ++ [.index index'])
    simp only [ofItems_item_eq_ok_iff, Items.values_item_eq_ok_iff]
    by_cases hlast : fields = []
    · simp only [if_pos hlast]
      constructor
      · rintro ⟨next, hput, hclosing, -, rfl⟩
        obtain ⟨v, hv, hput'⟩ := (hfield next).mp hput
        refine ⟨_, ⟨v, [], hv, (hends ⟨v, hv⟩).mp hclosing, rfl⟩,
          ofItems_item_eq_ok_iff.mpr ⟨next, hput', ?_⟩⟩
        rw [if_pos hlast]
        exact ⟨rfl, rfl, rfl⟩
      · rintro ⟨_, ⟨v, behind, hv, hbehind, rfl⟩, h⟩
        obtain ⟨next, hput, hend⟩ := ofItems_item_eq_ok_iff.mp h
        rw [if_pos hlast, itemCount_ofItems, List.length_eq_zero_iff] at hend
        obtain ⟨-, rfl, rfl⟩ := hend
        exact ⟨next, (hfield next).mpr ⟨v, hv, hput⟩, (hends ⟨v, hv⟩).mpr hbehind,
          itemCount_eq_zero_of_values hbehind, rfl⟩
    · have hbehind := fun next => ofItems_iff hfields path path' hrest (index + 1) (index' + 1)
        fields hlast (List.subset_of_cons_subset hsubset) next result
      simp only [if_neg hlast, hbehind]
      constructor
      · rintro ⟨next, hput, vs, hvs, hend⟩
        obtain ⟨v, hv, hput'⟩ := (hfield next).mp hput
        refine ⟨_, ⟨v, vs, hv, hvs, rfl⟩, ofItems_item_eq_ok_iff.mpr ⟨next, hput', ?_⟩⟩
        rwa [if_neg hlast]
      · rintro ⟨_, ⟨v, vs, hv, hvs, rfl⟩, h⟩
        obtain ⟨next, hput, hend⟩ := ofItems_item_eq_ok_iff.mp h
        rw [if_neg hlast] at hend
        exact ⟨next, (hfield next).mpr ⟨v, hv, hput⟩, vs, hvs, hend⟩

/-- A record agrees if its fields do. -/
theorem agrees (hfields : format.FieldsAgree) (hne : format.fields ≠ []) : Agrees format.decode :=
  AgreesByShape.agrees {
    scalar := fun path path' start s stop result => by simp [decode]
    array := fun hplain path path' result =>
      ofItems_iff hfields path path' hplain 0 0 format.fields hne (List.Subset.refl _) _ result
    object := fun hplain path path' result =>
      ofMembers_iff hfields path path' hplain.object.2.2 [] _ result
    broken := fun path start fault result => by simp [decode] }

end RecordFormat

end

/-! ### Buffered trees -/

mutual

/-- Without repeated keys nothing is left to settle, and a buffered tree is its value. -/
theorem Source.buffered_eq_ok_iff (path : Path) : ∀ {source : Source}, source.IsPlain →
    ∀ v, source.buffered path = .ok v ↔ source.value = .ok v
  | .scalar _ s _, _, v => by rw [Source.buffered, Source.value, Except.ok.injEq, Except.ok.injEq]
  | .broken _ _, _, v => by simp [Source.buffered, Source.value]
  | .array start items, hplain, v => by
    rw [Source.buffered, bind_eq_ok_iff, Source.value_array_eq_ok_iff]
    simp only [Items.buffered_eq_ok_iff path hplain.array, Except.ok.injEq]
  | .object start members, hplain, v => by
    rw [Source.buffered, bind_eq_ok_iff, Source.value_object_eq_ok_iff_of_isPlain hplain]
    simp only [Members.buffered_eq_ok_iff path hplain.object.2.2, Except.ok.injEq]

theorem Items.buffered_eq_ok_iff (path : Path) : ∀ {items : Items}, items.IsPlain →
    ∀ (index : Nat) vs, items.buffered path index = .ok vs ↔ items.values = .ok vs
  | .stop (.closed _), _, index, vs => by
    rw [Items.buffered, Items.values, Except.ok.injEq, Except.ok.injEq]
  | .stop (.fault _), _, index, vs => by simp [Items.buffered, Items.values]
  | .item value closing rest, hplain, index, vs => by
    obtain ⟨hvalue, hrest, -⟩ := hplain.item
    simp only [Items.buffered, bind_eq_ok_iff, Items.values_item_eq_ok_iff, Except.ok.injEq,
      exists_and_left, Source.buffered_eq_ok_iff _ hvalue, Items.buffered_eq_ok_iff path hrest]

theorem Members.buffered_eq_ok_iff (path : Path) : ∀ {members : Members}, members.IsPlain →
    ∀ ms, members.buffered path = .ok ms ↔ members.values = .ok ms
  | .stop (.closed _), _, ms => by
    rw [Members.buffered, Members.values, Except.ok.injEq, Except.ok.injEq]
  | .stop (.fault _), _, ms => by simp [Members.buffered, Members.values]
  | .noColon _ _, _, ms => by simp [Members.buffered, Members.values]
  | .member key value unended rest, hplain, ms => by
    obtain ⟨hvalue, hrest, -⟩ := hplain.member
    simp only [Members.buffered, bind_eq_ok_iff, Members.values_member_eq_ok_iff,
      Except.ok.injEq, exists_and_left, Source.buffered_eq_ok_iff _ hvalue,
      Members.buffered_eq_ok_iff path hrest]

end

mutual

/-- A value that no text holds is buffered as it is. -/
theorem Source.buffered_ofValue (path : Path) : ∀ v, (Source.ofValue v).buffered path = .ok v
  | .null | .bool _ | .number _ | .string _ => rfl
  | .array items => by
    rw [Source.ofValue, Source.buffered, Items.buffered_ofItems]
    rfl
  | .object members => by
    rw [Source.ofValue, Source.buffered, Members.buffered_ofMembers]
    rfl

theorem Items.buffered_ofItems (path : Path) (index : Nat) :
    ∀ vs, (Source.ofItems vs).buffered path index = .ok vs
  | [] => rfl
  | v :: rest => by
    rw [Source.ofItems, Items.buffered, Source.buffered_ofValue, Items.buffered_ofItems]
    rfl

theorem Members.buffered_ofMembers (path : Path) :
    ∀ ms, (Source.ofMembers ms).buffered path = .ok ms
  | [] => rfl
  | (key, v) :: rest => by
    rw [Source.ofMembers, Members.buffered, Source.buffered_ofValue, Members.buffered_ofMembers]
    rfl

end

end FormatterPlan.Json
