import GrammarShapes.Proofs.Grammar.Description

set_option autoImplicit false

/-! # The wire format of rules

A value is a rule just where it is an object whose members say so: one of them names the tag, and the tag
says at which names there have to be strings, booleans, rules or lists of rules. Rules that are spelled as
lists and tags that are given by their numbers are left aside. Neither the order of the members nor members
that no tag reads make a difference: values that agree on the rest are `Alike`, and are read alike.
-/

namespace GrammarShapes

open Json (Error Draft FilledOnce)

inductive Json.DistinctNames : Json → Prop
  | null : DistinctNames .null
  | boolean (b : Bool) : DistinctNames (.boolean b)
  | number (n : Json.Number) : DistinctNames (.number n)
  | string (s : String) : DistinctNames (.string s)
  | array {items : List Json} (h : ∀ v ∈ items, DistinctNames v) : DistinctNames (.array items)
  | object {members : List (String × Json)} (hNames : (members.map (·.1)).Nodup)
      (h : ∀ m ∈ members, DistinctNames m.2) : DistinctNames (.object members)

namespace Rule

/-- Whether `w` stands where a rule is expected in a value that is read as a rule. -/
inductive PlacedIn : Json → Json → Prop
  | whole (v : Json) : PlacedIn v v
  | content {ms : List (String × Json)} {tag : Tag} {v w : Json} (hTag : HasTag ms tag)
      (hField : .content ∈ tag.fields) (hMember : ("content", v) ∈ ms) (h : PlacedIn v w) :
      PlacedIn (.object ms) w
  | member {ms : List (String × Json)} {tag : Tag} {vs : List Json} {v w : Json} (hTag : HasTag ms tag)
      (hField : .members ∈ tag.fields) (hMember : ("members", .array vs) ∈ ms) (hItem : v ∈ vs)
      (h : PlacedIn v w) : PlacedIn (.object ms) w

/-- Whether every rule in a value names its fields and its tag: none is a list, and no tag is a number. -/
def NamesAll (v : Json) : Prop :=
  ∀ w, PlacedIn v w → (∀ vs, w ≠ .array vs) ∧
    ∀ ms n, w = .object ms → ("type", .number (.integer n)) ∉ ms

/-- Whether two values say the same of a rule: they have the same tag, and alike values at all names that
the tag reads. -/
inductive Alike : Json → Json → Prop
  | same (v : Json) : Alike v v
  | array {vs ws : List Json} (h : List.Forall₂ Alike vs ws) : Alike (.array vs) (.array ws)
  | object {ms ns : List (String × Json)} (hTag : valuesAt "type" ms = valuesAt "type" ns)
      (hFields : ∀ tag, HasTag ms tag → ∀ f ∈ tag.fields,
        List.Forall₂ Alike (valuesAt f.key ms) (valuesAt f.key ns)) :
      Alike (.object ms) (.object ns)

/-- Whether a reader of tags reads names as tags and, unless tags may be numbers, nothing else. -/
def ReadsNames (tagOf : Json → Except Error Tag) : Prop :=
  ∀ v tag, (∀ n, v ≠ .number (.integer n)) → (tagOf v = .ok tag ↔ v = .string tag.text)

theorem readsNames_ofValue : ReadsNames tagging.ofValue := by
  intro v tag _
  rw [Json.Tagging.ofValue_eq_ok_iff]
  constructor
  · rintro ⟨name, rfl, hName⟩
    rw [ofName_eq_ok_iff.mp hName]
  · rintro rfl
    exact ⟨tag.text, rfl, ofName_text tag⟩

theorem readsNames_ofJson : ReadsNames tagging.ofJson := by
  intro v tag hInteger
  cases v with
  | string name =>
    rw [Json.string.injEq]
    exact ofName_eq_ok_iff
  | number x =>
    cases x with
    | integer n => exact absurd rfl (hInteger n)
    | binary64 bits => exact iff_of_false nofun nofun
  | null | boolean _ | array _ | object _ => exact iff_of_false nofun nofun

section Domain

variable {tagOf : Json → Except Error Tag} {v : Json} {ms : List (String × Json)} {tag : Tag} {r : Rule}

theorem NamesAll.not_array {vs : List Json} (h : NamesAll (.array vs)) : False :=
  (h _ (.whole _)).1 vs rfl

theorem NamesAll.ne_integer (h : NamesAll (.object ms)) (hMember : ("type", v) ∈ ms) (n : Int) :
    v ≠ .number (.integer n) := by
  rintro rfl
  exact (h _ (.whole _)).2 ms n rfl hMember

theorem NamesAll.content (h : NamesAll (.object ms)) (hTag : HasTag ms tag) (hField : .content ∈ tag.fields)
    (hMember : ("content", v) ∈ ms) : NamesAll v :=
  fun w hw => h w (.content hTag hField hMember hw)

theorem NamesAll.member {vs : List Json} (h : NamesAll (.object ms)) (hTag : HasTag ms tag)
    (hField : .members ∈ tag.fields) (hMember : ("members", .array vs) ∈ ms) (hItem : v ∈ vs) : NamesAll v :=
  fun w hw => h w (.member hTag hField hMember hItem hw)

theorem hasTag_of_filled (hTagOf : ReadsNames tagOf) (hAll : NamesAll (.object ms))
    (h : FilledOnce tagOf none (valuesAt tagging.field ms) (some tag)) : HasTag ms tag := by
  obtain ⟨v, hMember, hRead⟩ := exists_mem_of_filled h
  rwa [(hTagOf v tag (hAll.ne_integer hMember)).mp hRead] at hMember

theorem spells_object_iff (hTagOf : ReadsNames tagOf) (hNodup : (ms.map (·.1)).Nodup)
    (hAll : NamesAll (.object ms)) (hParts : ∀ tag, HasTag ms tag → PartsAgree tag ms) :
    Spells tagOf (.object ms) r ↔ Describes (.object ms) r := by
  constructor
  · intro h
    cases h with
    | object hFound hFilled hBuild =>
      have hTag := hasTag_of_filled hTagOf hAll hFound
      exact describes_of_build hTag (hParts _ hTag) hFilled hBuild
  · intro h
    obtain ⟨hTag, fs, hFilled, hBuild⟩ := exists_build_of_describes hNodup hParts h
    have hRead := (hTagOf _ r.tag (hAll.ne_integer hTag)).mpr rfl
    exact .object (filled_of_mem hNodup hTag hRead) hFilled hBuild

theorem spells_iff_describes (hTagOf : ReadsNames tagOf) (hNames : v.DistinctNames) (hAll : NamesAll v)
    (hEach : ∀ w : Json, sizeOf w < sizeOf v → w.DistinctNames → NamesAll w → Agrees w) :
    Spells tagOf v r ↔ Describes v r := by
  cases hNames with
  | @object ms hNodup hInner =>
    apply spells_object_iff hTagOf hNodup hAll
    intro tag hTag
    constructor
    · intro hField v hMember
      exact hEach v (Json.sizeOf_lt_of_mem_object hMember) (hInner _ hMember)
        (hAll.content hTag hField hMember)
    · intro hField vs hMember v hItem
      have hSize := Json.sizeOf_lt_of_mem_array hItem
      have hNames : Json.DistinctNames (.array vs) := hInner _ hMember
      cases hNames with
      | array hItems =>
        exact hEach v (Nat.lt_trans hSize (Json.sizeOf_lt_of_mem_object hMember)) (hItems v hItem)
          (hAll.member hTag hField hMember hItem)
  | array hItems => exact hAll.not_array.elim
  | null | boolean b | number n | string s => exact iff_of_false nofun nofun

theorem agrees_of_namesAll (v : Json) (hNames : v.DistinctNames) (hAll : NamesAll v) : Agrees v := by
  -- On the size: a rule inside may stand two levels down, as an item of a list of members.
  induction hSize : sizeOf v using Nat.strongRecOn generalizing v with
  | ind n ih =>
    subst hSize
    intro r
    rw [ofJson_eq_ok_iff]
    exact spells_iff_describes readsNames_ofJson hNames hAll fun w hw hNames hAll =>
      ih (sizeOf w) hw w hNames hAll rfl

end Domain

def ReadAlike (v : Json) : Prop :=
  ∀ w, Alike v w → ∀ r, ofJson v = .ok r ↔ ofJson w = .ok r

section Alike

variable {v w : Json} {r : Rule}

theorem allOfJson_alike {vs ws : List Json} {rs : List Rule} (hEach : ∀ v ∈ vs, ReadAlike v)
    (h : List.Forall₂ Alike vs ws) : allOfJson vs = .ok rs ↔ allOfJson ws = .ok rs := by
  induction h generalizing rs with
  | nil => exact Iff.rfl
  | cons hFirst _ ih =>
    obtain ⟨hHead, hTail⟩ := List.forall_mem_cons.mp hEach
    rw [allOfJson_eq_ok_iff, allOfJson_eq_ok_iff, List.forall₂_cons_left_iff, List.forall₂_cons_left_iff]
    simp only [hHead _ hFirst, ← allOfJson_eq_ok_iff, ih hTail]

theorem readValue_alike {f : RuleField} {x : f.Value} (hContent : f = .content → ReadAlike v)
    (hMembers : f = .members → ∀ vs, v = .array vs → ∀ u ∈ vs, ReadAlike u) (h : Alike v w) :
    f.readValue v = .ok x ↔ f.readValue w = .ok x := by
  cases f with
  | content => exact hContent rfl w h x
  | members =>
    cases h with
    | same => exact Iff.rfl
    | array hItems => exact allOfJson_alike (hMembers rfl _ rfl) hItems
    | object _ _ => exact iff_of_false nofun nofun
  | text | flags | name | named | precedence =>
    cases h with
    | same => exact Iff.rfl
    | array _ | object _ _ => exact iff_of_false nofun nofun

theorem filledFrom_alike_iff {ms ns : List (String × Json)} {tag : Tag} {fs : RuleFields}
    (hAll : NamesAll (.object ms)) (hTag : HasTag ms tag)
    (hEach : ∀ u : Json, sizeOf u < sizeOf (Json.object ms) → NamesAll u → ReadAlike u)
    (hFields : ∀ f ∈ tag.fields, List.Forall₂ Alike (valuesAt f.key ms) (valuesAt f.key ns)) :
    FilledFrom tag ms fs ↔ FilledFrom tag ns fs := by
  refine forall_congr' fun f => forall_congr' fun hField => Json.filledOnce_congr ?_
  have hBoth := (List.forall₂_and_left (valuesAt f.key ms) _).mpr ⟨fun _ h => h, hFields f hField⟩
  refine hBoth.imp fun v w ⟨hValue, hAlike⟩ x => readValue_alike ?_ ?_ hAlike
  · rintro rfl
    have hMember := mem_valuesAt_iff.mp hValue
    exact hEach v (Json.sizeOf_lt_of_mem_object hMember) (hAll.content hTag hField hMember)
  · rintro rfl vs rfl u hItem
    have hMember := mem_valuesAt_iff.mp hValue
    have hSize := Nat.lt_trans (Json.sizeOf_lt_of_mem_array hItem) (Json.sizeOf_lt_of_mem_object hMember)
    exact hEach u hSize (hAll.member hTag hField hMember hItem)

/-- Whether an object is a rule is settled by its tag and by what stands at the names that the tag reads. -/
theorem spells_alike_iff {tagOf : Json → Except Error Tag} (hTagOf : ReadsNames tagOf) (hAll : NamesAll v)
    (hEach : ∀ u : Json, sizeOf u < sizeOf v → NamesAll u → ReadAlike u) (h : Alike v w) :
    Spells tagOf v r ↔ Spells tagOf w r := by
  cases h with
  | same => exact Iff.rfl
  | array _ => exact hAll.not_array.elim
  | @object ms ns hSame hFields =>
    have hType : valuesAt tagging.field ms = valuesAt tagging.field ns := hSame
    constructor
    · intro h
      cases h with
      | object hFound hFilled hBuild =>
        have hTag := hasTag_of_filled hTagOf hAll hFound
        rw [hType] at hFound
        exact .object hFound ((filledFrom_alike_iff hAll hTag hEach (hFields _ hTag)).mp hFilled) hBuild
    · intro h
      cases h with
      | object hFound hFilled hBuild =>
        rw [← hType] at hFound
        have hTag := hasTag_of_filled hTagOf hAll hFound
        exact .object hFound ((filledFrom_alike_iff hAll hTag hEach (hFields _ hTag)).mpr hFilled) hBuild

theorem readAlike_of_namesAll (v : Json) (hAll : NamesAll v) : ReadAlike v := by
  induction hSize : sizeOf v using Nat.strongRecOn generalizing v with
  | ind n ih =>
    subst hSize
    intro w h r
    rw [ofJson_eq_ok_iff, ofJson_eq_ok_iff]
    exact spells_alike_iff readsNames_ofJson hAll (fun u hu hAll => ih (sizeOf u) hu u hAll rfl) h

theorem alike_of_perm {ms ns : List (String × Json)} (hNodup : (ms.map (·.1)).Nodup) (h : ms.Perm ns) :
    Alike (.object ms) (.object ns) := by
  refine .object (valuesAt_perm hNodup h "type") fun tag _ f _ => ?_
  rw [valuesAt_perm hNodup h]
  exact List.forall₂_same.mpr fun v _ => .same v

theorem alike_cons {ms : List (String × Json)} {key : String} (v : Json) (hType : key ≠ "type")
    (hOther : ∀ tag, HasTag ms tag → ∀ f ∈ tag.fields, key ≠ f.key) :
    Alike (.object ms) (.object ((key, v) :: ms)) := by
  refine .object (valuesAt_cons_of_ne hType v ms).symm fun tag hTag f hField => ?_
  rw [valuesAt_cons_of_ne (hOther tag hTag f hField)]
  exact List.forall₂_same.mpr fun v _ => .same v

end Alike

/-- A value whose objects have distinct names, and in which all rules name their fields and tags, is read as
the rules that it describes, inside another rule as well as directly from a draft; and so are the values
that differ from it in the order of members or in members that the tags do not read. -/
theorem ofJson_and_read_eq_ok_iff_describes {v : Json} (hNames : v.DistinctNames) (hAll : NamesAll v) :
    (∀ r, ofJson v = .ok r ↔ Describes v r) ∧
      (∀ d : Draft, d.read = .ok v → ∀ r, read d = .ok r ↔ Describes v r) ∧
      ∀ w, Alike v w → ∀ r,
        (ofJson w = .ok r ↔ Describes v r) ∧ (read (.ofJson w) = .ok r ↔ Describes v r) := by
  have hValue : ∀ r, Spells tagging.ofValue v r ↔ Describes v r := fun r =>
    spells_iff_describes readsNames_ofValue hNames hAll fun w _ => agrees_of_namesAll w
  refine ⟨agrees_of_namesAll v hNames hAll, ?_, ?_⟩
  · intro d hDraft r
    rw [Draft.read_eq_ok_iff.mp hDraft, read_ofJson_eq_ok_iff]
    exact hValue r
  · intro w h r
    constructor
    · rw [← readAlike_of_namesAll v hAll w h r]
      exact agrees_of_namesAll v hNames hAll r
    · rw [read_ofJson_eq_ok_iff,
        ← spells_alike_iff readsNames_ofValue hAll (fun u _ => readAlike_of_namesAll u) h]
      exact hValue r

theorem namesAll_object {ms : List (String × Json)} (hType : ∀ n, ("type", .number (.integer n)) ∉ ms)
    (hContent : ∀ v, ("content", v) ∈ ms → NamesAll v)
    (hMembers : ∀ vs, ("members", .array vs) ∈ ms → ∀ v ∈ vs, NamesAll v) : NamesAll (.object ms) := by
  intro w hw
  cases hw with
  | whole =>
    refine ⟨nofun, fun ns n hSame => ?_⟩
    cases hSame
    exact hType n
  | content _ _ hMember hInner => exact hContent _ hMember w hInner
  | member _ _ hMember hItem hInner => exact hMembers _ hMember _ hItem w hInner

def spelledSymbol : Json :=
  .object [("name", .string "a"), ("type", .string "SYMBOL")]

def spelledSequence : Json :=
  .object [("members", .array [.object [("type", .string "BLANK"), ("name", .null)],
    .object [("value", .null), ("content", spelledSymbol), ("type", .string "PREC")]]),
    ("type", .string "SEQ")]

def spelledMembers : List (String × Json) :=
  [("content", spelledSequence), ("type", .string "REPEAT")]

def spelledRule : Rule :=
  .zeroOrMore (.sequence [.blank, .ranked none (.symbol "a")])

theorem describes_spelledMembers :
    (Json.object spelledMembers).DistinctNames ∧ NamesAll (.object spelledMembers) ∧
      Describes (.object spelledMembers) spelledRule ∧
      ofJson (.object spelledMembers.reverse) = .ok spelledRule ∧
      ofJson (.object (("more", .null) :: spelledMembers)) = .ok spelledRule := by
  have hNodup : (spelledMembers.map (·.1)).Nodup := by decide
  have hString := Json.DistinctNames.string
  have hNull := Json.DistinctNames.null
  have hSymbol : spelledSymbol.DistinctNames := .object (by decide) (by simp [hString])
  have hSequence : spelledSequence.DistinctNames := by
    refine .object (by decide) (List.forall_mem_cons.mpr ⟨.array ?_, by simp [hString]⟩)
    exact List.forall_mem_cons.mpr ⟨.object (by decide) (by simp [hString, hNull]),
      List.forall_mem_singleton.mpr (.object (by decide) (by simp [hString, hNull, hSymbol]))⟩
  have hNames : (Json.object spelledMembers).DistinctNames :=
    .object hNodup (List.forall_mem_cons.mpr ⟨hSequence, by simp [hString]⟩)
  have hSymbolAll : NamesAll spelledSymbol := namesAll_object (by simp) (by simp) (by simp)
  have hBlankAll : NamesAll (.object [("type", .string "BLANK"), ("name", .null)]) :=
    namesAll_object (by simp) (by simp) (by simp)
  have hRankedAll :
      NamesAll (.object [("value", .null), ("content", spelledSymbol), ("type", .string "PREC")]) :=
    namesAll_object (by simp) (by simp [hSymbolAll]) (by simp [spelledSymbol])
  have hSequenceAll : NamesAll spelledSequence :=
    namesAll_object (by simp) (by simp) (by simp [hBlankAll, hRankedAll])
  have hAll : NamesAll (.object spelledMembers) :=
    namesAll_object (by simp [spelledMembers]) (by simp [spelledMembers, hSequenceAll])
      (by simp [spelledMembers])
  obtain ⟨hInner, -, hAlike⟩ := ofJson_and_read_eq_ok_iff_describes hNames hAll
  have hDescribes : Describes (.object spelledMembers) spelledRule := (hInner spelledRule).mp rfl
  have hReversed := alike_of_perm hNodup (List.reverse_perm spelledMembers).symm
  have hMore : Alike (.object spelledMembers) (.object (("more", .null) :: spelledMembers)) := by
    refine alike_cons .null (by decide) fun _ _ f _ => ?_
    cases f <;> decide
  exact ⟨hNames, hAll, hDescribes, ((hAlike _ hReversed _).1).mpr hDescribes,
    ((hAlike _ hMore _).1).mpr hDescribes⟩

end Rule

end GrammarShapes
