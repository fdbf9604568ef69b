import AccuAsm.InstructionSet.Document
import AccuAsm.Proofs.Files
import AccuAsm.Proofs.Steps

/-!
# The keywords of a document

The comparison keywords of a document that was accepted.  They are those of its `conditions`
objects, where the last code of a keyword counts and `null` takes back what stands before it.
The keywords of the reference CPU are there as well if no name is spelled exactly `conditions`
and no such member is `null`.

There are three groups.

* Objects.  `Gives` says which code an object gives a keyword, and `readConditions_object` that
  the keywords are read so.
* Members.  `Settles` says the same of all members of a document.  `readMember_ok` is what one
  member can do to the keywords, and `conditions_of_members` what all of them do.
* Documents.  `keywords_of_document` puts in the keywords that a document starts from.
-/

namespace AccuAsm.InstructionSet

variable {set set' : InstructionSet} {old new : Dictionary Int64} {keyword name : Text}
  {code : Int64} {value : Json} {entries members rest : List (Text × Json)}

/-! ## Objects -/

/-- A keyword occurs in an object. -/
def Names (entries : List (Text × Json)) (keyword : Text) : Prop :=
  ∃ value, (keyword, value) ∈ entries

/-- An object gives a keyword the code of its last entry. -/
def Gives (entries : List (Text × Json)) (keyword : Text) (code : Int64) : Prop :=
  ∃ front value back, entries = front ++ (keyword, value) :: back ∧
    readNumber 0 value = .ok code ∧ ¬Names back keyword

theorem names_cons :
    Names ((name, value) :: rest) keyword ↔ keyword = name ∨ Names rest keyword := by
  unfold Names
  simp only [List.mem_cons, Prod.mk.injEq, exists_or, exists_and_left, exists_eq, and_true]

theorem gives_cons : Gives ((name, value) :: rest) keyword code ↔
    Gives rest keyword code ∨
      ¬Names rest keyword ∧ keyword = name ∧ readNumber 0 value = .ok code := by
  constructor
  · rintro ⟨front, found, back, hsplit, hcode, hback⟩
    cases front with
    | nil =>
      cases hsplit
      exact .inr ⟨hback, rfl, hcode⟩
    | cons head front =>
      cases hsplit
      exact .inl ⟨front, found, back, rfl, hcode, hback⟩
  · rintro (⟨front, found, back, rfl, hcode, hback⟩ | ⟨hrest, rfl, hcode⟩)
    · exact ⟨(name, value) :: front, found, back, rfl, hcode, hback⟩
    · exact ⟨[], value, rest, rfl, hcode, hrest⟩

theorem Gives.names (h : Gives entries keyword code) : Names entries keyword := by
  obtain ⟨front, value, back, rfl, _⟩ := h
  exact ⟨value, by simp⟩

theorem readConditions_cons : readConditions old (.object ((name, value) :: rest)) = (do
    let number ← readNumber 0 value
    readConditions (old.insert name number) (.object rest)) := by
  simp only [readConditions, List.foldlM_cons]
  cases readNumber 0 value <;> rfl

theorem readConditions_object (h : readConditions old (.object entries) = .ok new) :
    new.find? keyword = some code ↔
      Gives entries keyword code ∨ ¬Names entries keyword ∧ old.find? keyword = some code := by
  induction entries generalizing old with
  | nil =>
    obtain rfl : old = new := Except.ok.inj h
    simp [Gives, Names]
  | cons entry rest ih =>
    obtain ⟨name, value⟩ := entry
    rw [readConditions_cons] at h
    obtain ⟨number, hnumber, h⟩ := exists_of_bind_ok h
    rw [ih h, gives_cons, names_cons, Dictionary.find?_insert, hnumber]
    by_cases hname : keyword = name
    · simp [hname]
    · simp [hname]

theorem exists_gives (h : readConditions old (.object entries) = .ok new)
    (hnames : Names entries keyword) : ∃ code, Gives entries keyword code := by
  induction entries generalizing old with
  | nil =>
    obtain ⟨value, hmem⟩ := hnames
    cases hmem
  | cons entry rest ih =>
    obtain ⟨name, value⟩ := entry
    rw [readConditions_cons] at h
    obtain ⟨number, hnumber, h⟩ := exists_of_bind_ok h
    by_cases hrest : Names rest keyword
    · obtain ⟨code, hgives⟩ := ih h hrest
      exact ⟨code, gives_cons.mpr (.inl hgives)⟩
    · have hname : keyword = name := (names_cons.mp hnames).resolve_right hrest
      exact ⟨number, gives_cons.mpr (.inr ⟨hrest, hname, hnumber⟩)⟩

/-! ## Members -/

/-- The name of a member for keywords, whatever its case. -/
def IsConditions (name : Text) : Prop := foldName name = "conditions"

/-- A keyword occurs in a `conditions` object. -/
def NamesKeyword (members : List (Text × Json)) (keyword : Text) : Prop :=
  ∃ name entries, (name, .object entries) ∈ members ∧ IsConditions name ∧ Names entries keyword

/-- A member for keywords is `null`. -/
def Clears (members : List (Text × Json)) : Prop :=
  ∃ name, (name, .null) ∈ members ∧ IsConditions name

/-- The last `conditions` object that has the keyword gives it the code, and nothing behind it
takes the code back. -/
def Settles (members : List (Text × Json)) (keyword : Text) (code : Int64) : Prop :=
  ∃ before name entries after, members = before ++ (name, .object entries) :: after ∧
    IsConditions name ∧ Gives entries keyword code ∧ ¬NamesKeyword after keyword ∧ ¬Clears after

theorem namesKeyword_cons : NamesKeyword ((name, value) :: rest) keyword ↔
    (IsConditions name ∧ ∃ entries, value = .object entries ∧ Names entries keyword) ∨
      NamesKeyword rest keyword := by
  unfold NamesKeyword
  constructor
  · rintro ⟨found, entries, hmember, hname, hentries⟩
    rcases List.mem_cons.mp hmember with heq | hmember
    · cases heq
      exact .inl ⟨hname, entries, rfl, hentries⟩
    · exact .inr ⟨found, entries, hmember, hname, hentries⟩
  · rintro (⟨hname, entries, rfl, hentries⟩ | ⟨found, entries, hmember, hname, hentries⟩)
    · exact ⟨name, entries, List.mem_cons_self, hname, hentries⟩
    · exact ⟨found, entries, List.mem_cons_of_mem _ hmember, hname, hentries⟩

theorem clears_cons : Clears ((name, value) :: rest) ↔
    (IsConditions name ∧ value = .null) ∨ Clears rest := by
  unfold Clears
  constructor
  · rintro ⟨found, hmember, hname⟩
    rcases List.mem_cons.mp hmember with heq | hmember
    · cases heq
      exact .inl ⟨hname, rfl⟩
    · exact .inr ⟨found, hmember, hname⟩
  · rintro (⟨hname, rfl⟩ | ⟨found, hmember, hname⟩)
    · exact ⟨name, List.mem_cons_self, hname⟩
    · exact ⟨found, List.mem_cons_of_mem _ hmember, hname⟩

theorem settles_cons : Settles ((name, value) :: rest) keyword code ↔
    Settles rest keyword code ∨ ¬NamesKeyword rest keyword ∧ ¬Clears rest ∧ IsConditions name ∧
      ∃ entries, value = .object entries ∧ Gives entries keyword code := by
  constructor
  · rintro ⟨before, found, entries, after, hsplit, hname, hgives, hnames, hclears⟩
    cases before with
    | nil =>
      cases hsplit
      exact .inr ⟨hnames, hclears, hname, entries, rfl, hgives⟩
    | cons head before =>
      cases hsplit
      exact .inl ⟨before, found, entries, after, rfl, hname, hgives, hnames, hclears⟩
  · rintro (⟨before, found, entries, after, rfl, hrest⟩ |
      ⟨hnames, hclears, hname, entries, rfl, hgives⟩)
    · exact ⟨(name, value) :: before, found, entries, after, rfl, hrest⟩
    · exact ⟨[], name, entries, rest, rfl, hname, hgives, hnames, hclears⟩

theorem Settles.namesKeyword (h : Settles members keyword code) : NamesKeyword members keyword := by
  obtain ⟨before, name, entries, after, rfl, hname, hgives, _⟩ := h
  exact ⟨name, entries, by simp, hname, hgives.names⟩

theorem conditions_set {field : NumberField InstructionSet} (h : field ∈ codeFields)
    (set : InstructionSet) (number : Int64) :
    (field.set set number).conditions = set.conditions := by
  simp only [codeFields, List.mem_cons, List.not_mem_nil, or_false] at h
  rcases h with rfl | rfl | rfl | rfl | rfl | rfl | rfl | rfl | rfl | rfl | rfl <;> rfl

theorem conditions_readField (h : readField codeFields set name value = .ok set') :
    set'.conditions = set.conditions := by
  unfold readField at h
  split at h
  · next field hfield =>
    obtain ⟨number, _, rfl⟩ := exists_of_map_ok h
    exact conditions_set (List.mem_of_find?_eq_some hfield) set number
  · cases h
    rfl

/-- A member for keywords changes them, and no other member does. -/
theorem readMember_ok (h : readMember set (name, value) = .ok set') :
    IsConditions name ∧ readConditions set.conditions value = .ok set'.conditions ∨
      ¬IsConditions name ∧ set'.conditions = set.conditions := by
  unfold readMember at h
  dsimp only at h
  split_ifs at h with hconditions haddresses
  · obtain ⟨conditions, hread, rfl⟩ := exists_of_map_ok h
    exact .inl ⟨hconditions, hread⟩
  · obtain ⟨registers, _, rfl⟩ := exists_of_map_ok h
    exact .inr ⟨hconditions, rfl⟩
  · exact .inr ⟨hconditions, conditions_readField h⟩

theorem conditions_of_members (h : members.foldlM readMember set = .ok set') :
    set'.conditions.find? keyword = some code ↔
      Settles members keyword code ∨ ¬NamesKeyword members keyword ∧ ¬Clears members ∧
        set.conditions.find? keyword = some code := by
  induction members generalizing set with
  | nil =>
    obtain rfl : set = set' := Except.ok.inj h
    simp [Settles, NamesKeyword, Clears]
  | cons member rest ih =>
    obtain ⟨name, value⟩ := member
    rw [List.foldlM_cons] at h
    obtain ⟨next, hmember, h⟩ := exists_of_bind_ok h
    rw [ih h, settles_cons, namesKeyword_cons, clears_cons]
    rcases readMember_ok hmember with ⟨hname, hread⟩ | ⟨hname, hsame⟩
    · cases value with
      | null =>
        -- nothing that stands before it is left
        have hnone : next.conditions.find? keyword = none := by
          rw [← Except.ok.inj hread]
          rfl
        simp [hname, hnone]
      | object entries =>
        rw [readConditions_object hread]
        simp [hname]
        tauto
      | bool value => cases hread
      | number spelling => cases hread
      | string content => cases hread
      | array items => cases hread
    · rw [hsame]
      simp [hname]

theorem exists_settles (h : members.foldlM readMember set = .ok set') (hclears : ¬Clears members)
    (hnames : NamesKeyword members keyword) : ∃ code, Settles members keyword code := by
  induction members generalizing set with
  | nil =>
    obtain ⟨name, entries, hmem, _⟩ := hnames
    cases hmem
  | cons member rest ih =>
    obtain ⟨name, value⟩ := member
    rw [List.foldlM_cons] at h
    obtain ⟨next, hmember, h⟩ := exists_of_bind_ok h
    have hclears' : ¬Clears rest := fun hrest => hclears (clears_cons.mpr (.inr hrest))
    -- the last object that has the keyword settles it
    by_cases hrest : NamesKeyword rest keyword
    · obtain ⟨code, hsettles⟩ := ih h hclears' hrest
      exact ⟨code, settles_cons.mpr (.inl hsettles)⟩
    · obtain ⟨hname, entries, rfl, hentries⟩ := (namesKeyword_cons.mp hnames).resolve_right hrest
      have hread := ((readMember_ok hmember).resolve_right fun hother => hother.1 hname).2
      obtain ⟨code, hgives⟩ := exists_gives hread hentries
      exact ⟨code, settles_cons.mpr (.inr ⟨hrest, hclears', hname, entries, rfl, hgives⟩)⟩

theorem conditions_of_no_member (h : members.foldlM readMember set = .ok set')
    (hmembers : ∀ member ∈ members, ¬IsConditions member.1) : set'.conditions = set.conditions := by
  induction members generalizing set with
  | nil => rw [Except.ok.inj h]
  | cons member rest ih =>
    obtain ⟨hfirst, hrest⟩ := List.forall_mem_cons.mp hmembers
    rw [List.foldlM_cons] at h
    obtain ⟨next, hmember, h⟩ := exists_of_bind_ok h
    rcases readMember_ok hmember with ⟨hname, _⟩ | ⟨_, hsame⟩
    · exact absurd hname hfirst
    · rw [ih h hrest, hsame]

/-! ## Documents -/

/-- The members of a document; `null` has none. -/
def HasMembers (document : Text) (members : List (Text × Json)) : Prop :=
  Json.parse? document = some (.object members) ∨ Json.parse? document = some .null ∧ members = []

/-- Nothing in a document takes back the keywords that every document starts from. -/
def KeepsStandard (members : List (Text × Json)) : Prop :=
  (∀ member ∈ members, member.1 ≠ "conditions") ∧ ¬Clears members

theorem load_ok {document : Text} (h : load document = .ok set) :
    ∃ members, HasMembers document members ∧
      members.foldlM readMember (baseFor members) = .ok set := by
  unfold load at h
  split at h
  · cases h
  · next json hjson =>
    obtain ⟨found, hfound, h⟩ := exists_of_bind_ok h
    obtain rfl : found = set := by
      split at h
      · exact Except.ok.inj h
      · cases h
    cases json with
    | null => exact ⟨[], .inr ⟨hjson, rfl⟩, hfound⟩
    | object members => exact ⟨members, .inl hjson, hfound⟩
    | bool value => cases hfound
    | number spelling => cases hfound
    | string content => cases hfound
    | array items => cases hfound

theorem baseFor_eq_standard (h : ∀ member ∈ members, member.1 ≠ "conditions") :
    baseFor members = standard := by
  unfold baseFor
  rw [if_neg]
  intro hany
  obtain ⟨member, hmember, hname⟩ := List.any_eq_true.mp hany
  exact h member hmember (eq_of_beq hname)

theorem find?_baseFor : (baseFor members).conditions.find? keyword = some code ↔
    (∀ member ∈ members, member.1 ≠ "conditions") ∧
      standardConditions.find? keyword = some code := by
  by_cases hexact : ∀ member ∈ members, member.1 ≠ "conditions"
  · rw [baseFor_eq_standard hexact, and_iff_right hexact]
    rfl
  · refine iff_of_false ?_ fun h => hexact h.1
    have hany : members.any (·.1 == ("conditions" : Text)) = true := by
      push Not at hexact
      obtain ⟨member, hmember, hname⟩ := hexact
      exact List.any_eq_true.mpr ⟨member, hmember, beq_iff_eq.mpr hname⟩
    unfold baseFor
    rw [if_pos hany]
    intro hempty
    cases hempty

theorem isConditions_exact : IsConditions "conditions" := by
  unfold IsConditions
  decide +kernel

theorem mem_conditionKeywords :
    keyword ∈ set.conditionKeywords ↔ ∃ code, set.conditionCode? keyword = some code := by
  unfold conditionKeywords conditionCode?
  rw [Dictionary.mem_names_iff, Option.isSome_iff_exists]

/-- The keywords of a document that was accepted.  Without a member for keywords, in whatever case,
they are those of the reference CPU.  With one, a keyword has the code that the last object with
the keyword gives it.  A keyword of the reference CPU that no object has is left if no member is
spelled exactly `conditions` and no member for keywords is `null`; in all other cases every keyword
is in one of the objects. -/
theorem keywords_of_document {document : Text} (h : load document = .ok set) :
    ∃ members, HasMembers document members ∧
      ((∀ member ∈ members, ¬IsConditions member.1) → set.conditions = standardConditions) ∧
      (¬KeepsStandard members → ∀ keyword ∈ set.conditionKeywords, NamesKeyword members keyword) ∧
      (KeepsStandard members → ∀ keyword, keyword ∈ set.conditionKeywords ↔
        NamesKeyword members keyword ∨ keyword ∈ standard.conditionKeywords) ∧
      ∀ keyword code, set.conditionCode? keyword = some code ↔
        Settles members keyword code ∨ ¬NamesKeyword members keyword ∧ KeepsStandard members ∧
          standard.conditionCode? keyword = some code := by
  obtain ⟨members, hdocument, hread⟩ := load_ok h
  have hcode (keyword : Text) (code : Int64) : set.conditionCode? keyword = some code ↔
      Settles members keyword code ∨ ¬NamesKeyword members keyword ∧ KeepsStandard members ∧
        standard.conditionCode? keyword = some code := by
    unfold conditionCode?
    rw [conditions_of_members hread, find?_baseFor]
    unfold KeepsStandard
    tauto
  refine ⟨members, hdocument, ?_, ?_, ?_, hcode⟩
  · intro hnone
    rw [conditions_of_no_member hread hnone, baseFor_eq_standard]
    · rfl
    · intro member hmember heq
      exact hnone member hmember (heq ▸ isConditions_exact)
  · intro hkeeps keyword hmem
    obtain ⟨code, hfound⟩ := mem_conditionKeywords.mp hmem
    rcases (hcode keyword code).mp hfound with hsettles | ⟨_, hstandard, _⟩
    · exact hsettles.namesKeyword
    · exact absurd hstandard hkeeps
  · intro hkeeps keyword
    rw [mem_conditionKeywords, mem_conditionKeywords]
    constructor
    · rintro ⟨code, hfound⟩
      rcases (hcode keyword code).mp hfound with hsettles | ⟨_, _, hstandard⟩
      · exact .inl hsettles.namesKeyword
      · exact .inr ⟨code, hstandard⟩
    · intro hmem
      by_cases hnames : NamesKeyword members keyword
      · obtain ⟨code, hsettles⟩ := exists_settles hread hkeeps.2 hnames
        exact ⟨code, (hcode keyword code).mpr (.inl hsettles)⟩
      · obtain ⟨code, hstandard⟩ := hmem.resolve_left hnames
        exact ⟨code, (hcode keyword code).mpr (.inr ⟨hnames, hkeeps, hstandard⟩)⟩

/-- A document that renames two keywords and drops the others. -/
def renamed : Text := "\x7b\"conditions\": \x7b\"BEQ\": 0, \"BNE\": 1\x7d\x7d"

theorem keywords_of_renamed :
    ∃ set, load renamed = .ok set ∧ set.conditionKeywords = ["BEQ", "BNE"] ∧
      ∃ members, HasMembers renamed members ∧
        ∀ keyword ∈ set.conditionKeywords, NamesKeyword members keyword := by
  have hload : load renamed =
      .ok { standard with conditions := .ofList [("BEQ", 0), ("BNE", 1)] } := by
    decide +kernel
  have hparse : Json.parse? renamed = some (.object
      [("conditions", .object [("BEQ", .number "0"), ("BNE", .number "1")])]) := by
    cbv
  obtain ⟨members, hmembers, _, hall, _⟩ := keywords_of_document hload
  refine ⟨_, hload, by decide, members, hmembers, hall ?_⟩
  rcases hmembers with hobject | ⟨hnull, _⟩
  · cases hparse.symm.trans hobject
    exact fun hkeeps => hkeeps.1 _ List.mem_cons_self rfl
  · cases hparse.symm.trans hnull

/-- A document that has keywords under a name with a capital letter. -/
def capitalised : Text := "\x7b\"Conditions\":\x7b\"XX\":256\x7d\x7d"

/-- The keywords of the reference CPU are left, though the document has a member for keywords
that does not have them. -/
theorem standard_keyword_survives :
    ∃ set, load capitalised = .ok set ∧ ∃ members, HasMembers capitalised members ∧
      (∃ member ∈ members, IsConditions member.1) ∧ Text.ofString "EQ" ∈ set.conditionKeywords ∧
      ¬NamesKeyword members "EQ" := by
  have hload : load capitalised =
      .ok { standard with conditions := standardConditions.insert "XX" 256 } := by
    decide +kernel
  have hparse : Json.parse? capitalised =
      some (.object [("Conditions", .object [("XX", .number "256")])]) := by
    cbv
  have hname : IsConditions "Conditions" := by
    unfold IsConditions
    decide +kernel
  refine ⟨_, hload, _, .inl hparse, ⟨_, List.mem_cons_self, hname⟩, by decide, ?_⟩
  rintro ⟨name, entries, hmember, _, value, hentry⟩
  cases List.mem_singleton.mp hmember
  have hdiffer : Text.ofString "EQ" ≠ "XX" := by decide
  exact hdiffer (congrArg Prod.fst (List.mem_singleton.mp hentry))

end AccuAsm.InstructionSet
