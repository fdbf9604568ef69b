import AccuAsm.Proofs.Listing
import AccuAsm.Proofs.Literals
import AccuAsm.Proofs.Steps

/-!
# The grammar of listings

Which texts have an image, and what it holds.  A listing is a text of rows: comments are cut
off, what is left is split at blanks, and the fields are numbers in one of four bases.

There are four groups.

* Numbers.  `Image.Unsigned` is the grammar of numbers without a sign, and
  `Image.number?_eq_some_iff` says that the reader accepts just these, up to 32 bits.
* Fields.  `Image.codePart` is a line without its comment, and `Image.Fields` cuts it into
  fields.  `Image.fields_iff` says that these are the fields that the assembler finds.
* Rows.  `Image.addLine_ok` and `Image.addLine_error` say what one row does to an image, and
  why it is refused.
* Listings.  `Image.outcome_assembleRows` goes through the rows: either all of them are in the
  image, or the first one that breaks a rule is reported.
-/

namespace AccuAsm

namespace Image

open Numeral

variable {base n : Nat} {byte : UInt8} {text body digits : Text} {marked : Bool}

/-! ## Numbers -/

/-- The marks of the bases. -/
def marks : List (Text × Nat) :=
  [("0b", 2), ("0B", 2), ("0o", 8), ("0O", 8), ("0x", 16), ("0X", 16)]

/-- Digits in groups, with one underscore between neighbours. -/
def Grouped (base : Nat) (text : Text) (n : Nat) : Prop :=
  ∃ groups : List Text, text = Text.joinWith "_" groups ∧ (∀ group ∈ groups, group ≠ []) ∧
    Digits base groups.flatten n

/-- The numbers without a sign. -/
inductive Unsigned : Text → Nat → Prop where
  /-- Decimal digits that do not start with a zero. -/
  | decimal {text : Text} {n : Nat} (hfirst : text.head? ≠ some (ascii '0'))
      (h : Grouped 10 text n) : Unsigned text n
  /-- Octal digits that start with a zero, which may be the only one. -/
  | octal {text : Text} {n : Nat} (h : Grouped 8 (ascii '0' :: text) n) :
      Unsigned (ascii '0' :: text) n
  /-- Digits behind the mark of their base, with an underscore between them or not. -/
  | marked {mark gap text : Text} {base n : Nat} (hmark : (mark, base) ∈ marks)
      (hgap : gap = "" ∨ gap = "_") (h : Grouped base text n) : Unsigned (mark ++ gap ++ text) n

theorem digitValue?_underscore : digitValue? (ascii '_') = none := by decide

/-- No group holds an underscore, because it is no digit. -/
theorem underscore_notMem {groups : List Text} (h : Digits base groups.flatten n)
    (hbase : base ≤ 16) : ∀ group ∈ groups, ascii '_' ∉ group := by
  intro group hgroup hmem
  obtain ⟨value, hdigit⟩ := h.2.isDigit (List.mem_flatten.mpr ⟨group, hgroup, hmem⟩)
  obtain ⟨hvalue, _⟩ := (isDigit_iff hbase).mp hdigit
  rw [digitValue?_underscore] at hvalue
  cases hvalue

/-- Groups of digits are what is left when the underscores between them are dropped. -/
theorem grouped_iff (hbase : base ≤ 16) : Grouped base text n ↔
    ∃ digits, dropUnderscores? false text = some digits ∧ Digits base digits n := by
  constructor
  · rintro ⟨groups, rfl, hnonempty, hdigits⟩
    have hgroups : groups ≠ [] := by
      rintro rfl
      exact hdigits.1 rfl
    have hsplit : (Text.joinWith "_" groups).splitOn (ascii '_') = groups :=
      List.splitOn_intercalate (ascii '_') (underscore_notMem hdigits hbase) hgroups
    obtain ⟨first, rest, rfl⟩ := List.exists_cons_of_ne_nil hgroups
    refine ⟨(first :: rest).flatten, ?_, hdigits⟩
    simp only [dropUnderscores?, hsplit]
    rw [if_pos]
    · rfl
    · simpa using hnonempty
  · rintro ⟨digits, hdrop, hdigits⟩
    have hjoin : Text.joinWith "_" (text.splitOn (ascii '_')) = text :=
      List.intercalate_splitOn (ascii '_')
    unfold dropUnderscores? at hdrop
    split at hdrop
    · next first rest hsplit =>
      split_ifs at hdrop with hgroups
      obtain rfl := Option.some.inj hdrop
      refine ⟨first :: rest, by rw [← hsplit, hjoin], ?_, hdigits⟩
      simpa using hgroups
    · cases hdrop

/-- There is a digit at least, because no group is empty. -/
theorem dropUnderscores?_ne_nil (h : dropUnderscores? marked text = some digits) : digits ≠ [] := by
  unfold dropUnderscores? at h
  split at h
  · next first rest _ =>
    split_ifs at h with hgroups
    obtain rfl := Option.some.inj h
    simp only [Bool.and_eq_true, Bool.or_eq_true, List.all_eq_true] at hgroups
    intro hnil
    obtain ⟨rfl, hrest⟩ := List.append_eq_nil_iff.mp hnil
    cases rest with
    | nil => simp at hgroups
    | cons next more =>
      have hnext : next = [] := List.flatten_eq_nil_iff.mp hrest next List.mem_cons_self
      simpa [hnext] using hgroups.2 next List.mem_cons_self
  · cases h

/-- An underscore behind a mark changes nothing. -/
theorem dropUnderscores?_underscore (text : Text) :
    dropUnderscores? true (ascii '_' :: text) = dropUnderscores? false text := by
  have hsplit : (ascii '_' :: text).splitOn (ascii '_') = [] :: text.splitOn (ascii '_') := by
    rw [List.splitOn_cons_eq_if_modifyHead, if_pos (by simp)]
  obtain ⟨first, rest, hrest⟩ := List.exists_cons_of_ne_nil (List.splitOn_ne_nil (ascii '_') text)
  simp [dropUnderscores?, hsplit, hrest]

/-- Without such an underscore a mark changes nothing either. -/
theorem dropUnderscores?_marked (h : text.head? ≠ some (ascii '_')) :
    dropUnderscores? true text = dropUnderscores? false text := by
  cases text with
  | nil => rfl
  | cons byte rest =>
    have hbyte : byte ≠ ascii '_' := fun heq => h (by rw [heq]; rfl)
    obtain ⟨first, others, hrest⟩ :=
      List.exists_cons_of_ne_nil (List.splitOn_ne_nil (ascii '_') rest)
    have hsplit : (byte :: rest).splitOn (ascii '_') = (byte :: first) :: others := by
      rw [List.splitOn_cons_eq_if_modifyHead, if_neg (by simpa using hbyte), hrest]
      rfl
    simp [dropUnderscores?, hsplit]

theorem mem_joinWith {groups : List Text} (h : byte ∈ Text.joinWith "_" groups) :
    byte = ascii '_' ∨ byte ∈ groups.flatten := by
  have hunderscore : Text.ofString "_" = [ascii '_'] := rfl
  unfold Text.joinWith at h
  rw [hunderscore] at h
  induction groups with
  | nil => cases h
  | cons first rest ih =>
    cases rest with
    | nil =>
      rw [List.intercalate_singleton] at h
      exact .inr (List.mem_append_left _ h)
    | cons next more =>
      rw [List.intercalate_cons_cons, List.mem_append, List.mem_append, List.mem_singleton] at h
      rcases h with (h | h) | h
      · exact .inr (List.mem_append_left _ h)
      · exact .inl h
      · exact (ih h).imp_right (List.mem_append_right _)

/-- A byte that is neither an underscore nor a digit of any base does not occur in a number. -/
theorem Grouped.notMem (h : Grouped base text n) (hbase : base ≤ 16) (hbyte : byte ≠ ascii '_')
    (hdigit : ∀ value < base, digitValue? byte ≠ some value) : byte ∉ text := by
  obtain ⟨groups, rfl, _, hdigits⟩ := h
  intro hmem
  rcases mem_joinWith hmem with rfl | hmem
  · exact hbyte rfl
  · obtain ⟨value, hvalue⟩ := hdigits.2.isDigit hmem
    obtain ⟨hread, hless⟩ := (isDigit_iff hbase).mp hvalue
    exact hdigit value hless hread

theorem Grouped.ne_nil (h : Grouped base text n) (hbase : base ≤ 16) : text ≠ [] := by
  rintro rfl
  obtain ⟨digits, hdrop, _⟩ := (grouped_iff hbase).mp h
  cases hdrop

/-- The letters of marks are no octal digits. -/
theorem Grouped.not_marked (h : Grouped 8 text n) {letter : UInt8} (hletter : letter ∈ text) :
    markedBase? letter = none := by
  unfold markedBase?
  rw [if_neg, if_neg, if_neg]
  · rintro (rfl | rfl) <;> exact h.notMem (by decide) (by decide) (by decide) hletter
  · rintro (rfl | rfl) <;> exact h.notMem (by decide) (by decide) (by decide) hletter
  · rintro (rfl | rfl) <;> exact h.notMem (by decide) (by decide) (by decide) hletter

theorem mem_marks {letter : UInt8} (h : markedBase? letter = some base) :
    ([ascii '0', letter], base) ∈ marks := by
  unfold markedBase? at h
  split_ifs at h with hb ho hx
  · obtain rfl := Option.some.inj h
    rcases hb with rfl | rfl <;> decide
  · obtain rfl := Option.some.inj h
    rcases ho with rfl | rfl <;> decide
  · obtain rfl := Option.some.inj h
    rcases hx with rfl | rfl <;> decide

theorem splitBase_decimal (h : text.head? ≠ some (ascii '0')) :
    splitBase text = (10, false, text) := by
  unfold splitBase
  split
  · next zero _ _ _ =>
    rw [if_neg (fun heq => h (congrArg some heq))]
  · next zero _ _ =>
    rw [if_neg (fun heq => h (congrArg some heq))]
  · rfl

theorem splitBase_octal (h : ∀ letter ∈ text, markedBase? letter = none) :
    splitBase (ascii '0' :: text) = (8, false, ascii '0' :: text) := by
  match text with
  | [] => rfl
  | [letter] => rfl
  | letter :: first :: rest =>
    simp only [splitBase, h letter List.mem_cons_self]
    rfl

theorem splitBase_marked {mark : Text} (hmark : (mark, base) ∈ marks) (hbody : body ≠ []) :
    splitBase (mark ++ body) = (base, true, body) := by
  obtain ⟨first, rest, rfl⟩ := List.exists_cons_of_ne_nil hbody
  simp only [marks, List.mem_cons, Prod.mk.injEq, List.not_mem_nil, or_false] at hmark
  rcases hmark with ⟨rfl, rfl⟩ | ⟨rfl, rfl⟩ | ⟨rfl, rfl⟩ | ⟨rfl, rfl⟩ | ⟨rfl, rfl⟩ | ⟨rfl, rfl⟩
  all_goals rfl

theorem le_of_mem_marks {mark : Text} (hmark : (mark, base) ∈ marks) : 0 < base ∧ base ≤ 16 := by
  simp only [marks, List.mem_cons, Prod.mk.injEq, List.not_mem_nil, or_false] at hmark
  omega

/-- The number that the parts of a text denote, once its base is known. -/
def Parts (parts : Nat × Bool × Text) (n : Nat) : Prop :=
  ∃ digits, dropUnderscores? parts.2.1 parts.2.2 = some digits ∧ Digits parts.1 digits n

theorem parts_marked (hbase : base ≤ 16) : Parts (base, true, body) n ↔
    ∃ gap text : Text, (gap = "" ∨ gap = "_") ∧ body = gap ++ text ∧ Grouped base text n := by
  constructor
  · rintro ⟨digits, hdrop, hdigits⟩
    by_cases hfirst : body.head? = some (ascii '_')
    · obtain ⟨rest, rfl⟩ := List.head?_eq_some_iff.mp hfirst
      rw [dropUnderscores?_underscore] at hdrop
      exact ⟨"_", rest, .inr rfl, rfl, (grouped_iff hbase).mpr ⟨digits, hdrop, hdigits⟩⟩
    · rw [dropUnderscores?_marked hfirst] at hdrop
      exact ⟨"", body, .inl rfl, rfl, (grouped_iff hbase).mpr ⟨digits, hdrop, hdigits⟩⟩
  · rintro ⟨gap, text, hgap, rfl, hgrouped⟩
    obtain ⟨digits, hdrop, hdigits⟩ := (grouped_iff hbase).mp hgrouped
    refine ⟨digits, ?_, hdigits⟩
    rcases hgap with rfl | rfl
    · -- a group starts with a digit
      have hfirst : text.head? ≠ some (ascii '_') := by
        intro hhead
        obtain ⟨rest, rfl⟩ := List.head?_eq_some_iff.mp hhead
        simp [dropUnderscores?, List.splitOn_cons_eq_if_modifyHead] at hdrop
      exact (dropUnderscores?_marked hfirst).trans hdrop
    · exact (dropUnderscores?_underscore text).trans hdrop

/-- The grammar of unsigned numbers, read along the mark of the base. -/
theorem unsigned_iff : Unsigned text n ↔ Parts (splitBase text) n := by
  constructor
  · intro h
    cases h with
    | decimal hfirst h =>
      rw [splitBase_decimal hfirst]
      exact (grouped_iff (show 10 ≤ 16 by decide)).mp h
    | octal h =>
      rw [splitBase_octal fun letter hletter => h.not_marked (List.mem_cons_of_mem _ hletter)]
      exact (grouped_iff (show 8 ≤ 16 by decide)).mp h
    | @marked mark gap text base n hmark hgap h =>
      obtain ⟨_, hbase⟩ := le_of_mem_marks hmark
      have hbody : gap ++ text ≠ [] := List.append_ne_nil_of_right_ne_nil gap (h.ne_nil hbase)
      rw [List.append_assoc, splitBase_marked hmark hbody]
      exact (parts_marked hbase).mpr ⟨gap, text, hgap, rfl, h⟩
  · intro h
    unfold splitBase at h
    split at h
    · next zero letter first rest =>
      split_ifs at h with hzero
      · subst hzero
        split at h
        · next base hletter =>
          have hmark := mem_marks hletter
          obtain ⟨gap, text, hgap, hbody, hgrouped⟩ := (parts_marked (le_of_mem_marks hmark).2).mp h
          have htext :
              ascii '0' :: letter :: first :: rest = [ascii '0', letter] ++ gap ++ text := by
            rw [List.append_assoc, ← hbody]
            rfl
          rw [htext]
          exact .marked hmark hgap hgrouped
        · exact .octal ((grouped_iff (by decide)).mpr h)
      · exact .decimal (by simpa using hzero) ((grouped_iff (by decide)).mpr h)
    · next zero rest _ =>
      split_ifs at h with hzero
      · subst hzero
        exact .octal ((grouped_iff (by decide)).mpr h)
      · exact .decimal (by simpa using hzero) ((grouped_iff (by decide)).mpr h)
    · exact .decimal (by simp) ((grouped_iff (by decide)).mpr h)

theorem Grouped.splitSign (h : Grouped base text n) (hbase : base ≤ 16) :
    Numeral.splitSign text = (false, text) := by
  obtain ⟨byte, rest, rfl⟩ := List.exists_cons_of_ne_nil (h.ne_nil hbase)
  rw [Numeral.splitSign, if_neg, if_neg]
  · rintro rfl
    exact h.notMem hbase (by decide) (by simp [show digitValue? (ascii '+') = none by decide])
      List.mem_cons_self
  · rintro rfl
    exact h.notMem hbase (by decide) (by simp [show digitValue? (ascii '-') = none by decide])
      List.mem_cons_self

theorem Unsigned.splitSign (h : Unsigned text n) : Numeral.splitSign text = (false, text) := by
  cases h with
  | decimal _ h => exact h.splitSign (by decide)
  | octal h => exact h.splitSign (by decide)
  | marked hmark =>
    simp only [marks, List.mem_cons, Prod.mk.injEq, List.not_mem_nil, or_false] at hmark
    rcases hmark with ⟨rfl, _⟩ | ⟨rfl, _⟩ | ⟨rfl, _⟩ | ⟨rfl, _⟩ | ⟨rfl, _⟩ | ⟨rfl, _⟩ <;> rfl

/-- The base of a number is between two and sixteen. -/
theorem splitBase_le (text : Text) : 0 < (splitBase text).1 ∧ (splitBase text).1 ≤ 16 := by
  unfold splitBase
  split
  · split_ifs
    · split
      · next base hletter => exact le_of_mem_marks (mem_marks hletter)
      · simp
    · simp
  · split_ifs <;> simp
  · simp

/-- A field is read if and only if it is a number of 32 bits. -/
theorem number?_eq_some_iff (n : Int) :
    number? text = some n ↔ Signed Unsigned text n ∧ Has32Bits n := by
  rw [signed_iff fun _ _ h => h.splitSign]
  unfold number?
  obtain ⟨negative, body⟩ := Numeral.splitSign text
  obtain ⟨hpos, hbase⟩ := splitBase_le body
  simp only [unsigned_iff, Parts, Option.bind_eq_bind, Option.bind_eq_some_iff,
    ofDigits?_eq_some_iff hpos hbase]
  constructor
  · rintro ⟨_, ⟨digits, hdrop, m, hm, rfl⟩, hn⟩
    obtain ⟨hsign, hrange⟩ := (signed32?_eq_some_iff negative m n).mp hn
    exact ⟨⟨m, ⟨digits, hdrop, dropUnderscores?_ne_nil hdrop, hm⟩, hsign⟩, hrange⟩
  · rintro ⟨⟨m, ⟨digits, hdrop, _, hm⟩, hsign⟩, hrange⟩
    exact ⟨_, ⟨digits, hdrop, m, hm, rfl⟩,
      (signed32?_eq_some_iff negative m n).mpr ⟨hsign, hrange⟩⟩

/-! ## Fields -/

/-- Whether a comment starts here: with a semicolon or with two slashes. -/
def startsComment (text : Text) : Bool :=
  (";" : Text).isPrefixOf text || ("//" : Text).isPrefixOf text

/-- The part of a line in front of the first comment. -/
def codePart : Text → Text
  | [] => []
  | byte :: rest => if startsComment (byte :: rest) then [] else byte :: codePart rest

/-- The fields of a text from left to right: runs of glyphs that are no blanks, each as long as it
can be. -/
inductive Fields : List Glyph → List Text → Prop where
  | nil : Fields [] []
  | blank {glyph : Glyph} {rest : List Glyph} {fields : List Text}
      (hblank : Text.isBlank glyph = true) (hrest : Fields rest fields) :
      Fields (glyph :: rest) fields
  | field {run rest : List Glyph} {fields : List Text} (hne : run ≠ [])
      (hrun : ∀ glyph ∈ run, Text.isBlank glyph = false)
      (hend : ∀ glyph ∈ rest.head?, Text.isBlank glyph = true) (hrest : Fields rest fields) :
      Fields (run ++ rest) (Text.encode run :: fields)

/-- Whether the code of a line has a field. -/
def hasFields (content : Text) : Bool := (codePart content).glyphs.any (!Text.isBlank ·)

/-- Looking for the semicolon first and for the slashes in front of it finds the first comment. -/
theorem before_takeWhile (line : Text) :
    Text.before (line.takeWhile (· ≠ ascii ';')) "//" = codePart line := by
  unfold Text.before
  induction line with
  | nil => rfl
  | cons byte rest ih =>
    by_cases hsemicolon : byte = ascii ';'
    · subst hsemicolon
      rfl
    · have hslashes : Text.ofString "//" = [ascii '/', ascii '/'] := rfl
      have hstart : startsComment (byte :: rest) =
          (Text.ofString "//").isPrefixOf (byte :: rest.takeWhile (· ≠ ascii ';')) := by
        have hmark : (Text.ofString ";").isPrefixOf (byte :: rest) = false := by
          have hone : Text.ofString ";" = [ascii ';'] := rfl
          simp [hone, List.isPrefixOf, Ne.symm hsemicolon]
        rw [startsComment, hmark, Bool.false_or, hslashes]
        cases rest with
        | nil => rfl
        | cons next more =>
          by_cases hnext : next = ascii ';'
          · subst hnext
            simp [List.isPrefixOf, show ascii '/' ≠ ascii ';' by decide]
          · rw [List.takeWhile_cons_of_pos (by simpa using hnext)]
            simp [List.isPrefixOf]
      rw [List.takeWhile_cons_of_pos (by simpa using hsemicolon), Text.beforeFrom, codePart, hstart,
        Text.beforeFrom_eq_append, ih]
      rfl

/-- The runs between blanks, without the empty ones. -/
def glyphWords (glyphs : List Glyph) : List Text :=
  ((glyphs.splitOnP Text.isBlank).filter (!·.isEmpty)).map Text.encode

theorem glyphWords_blank {glyph : Glyph} (h : Text.isBlank glyph = true) (rest : List Glyph) :
    glyphWords (glyph :: rest) = glyphWords rest := by
  rw [glyphWords, List.splitOnP_cons_eq_if_modifyHead, if_pos h]
  rfl

theorem glyphWords_field {run rest : List Glyph} (hne : run ≠ [])
    (hrun : ∀ glyph ∈ run, Text.isBlank glyph = false)
    (hend : ∀ glyph ∈ rest.head?, Text.isBlank glyph = true) :
    glyphWords (run ++ rest) = Text.encode run :: glyphWords rest := by
  cases rest with
  | nil =>
    rw [List.append_nil, glyphWords, List.splitOnP_eq_singleton hrun]
    simp [hne, glyphWords]
  | cons glyph rest =>
    have hblank := hend glyph rfl
    rw [glyphWords_blank hblank, glyphWords,
      List.splitOnP_append_cons_of_forall_mem hrun glyph hblank]
    simp [hne, glyphWords]

theorem Fields.eq_glyphWords {glyphs : List Glyph} {fields : List Text} (h : Fields glyphs fields) :
    fields = glyphWords glyphs := by
  induction h with
  | nil => rfl
  | blank hblank _ ih => rw [glyphWords_blank hblank, ih]
  | field hne hrun hend _ ih => rw [glyphWords_field hne hrun hend, ih]

theorem fields_glyphWords (glyphs : List Glyph) : Fields glyphs (glyphWords glyphs) := by
  obtain ⟨size, hsize⟩ : ∃ size, glyphs.length = size := ⟨_, rfl⟩
  -- a whole run is taken off at once, so the induction is on the length
  induction size using Nat.strong_induction_on generalizing glyphs with
  | _ size ih =>
    match glyphs with
    | [] => exact .nil
    | glyph :: rest =>
      rw [List.length_cons] at hsize
      cases hblank : Text.isBlank glyph with
      | true =>
        rw [glyphWords_blank hblank]
        exact .blank hblank (ih rest.length (by omega) rest rfl)
      | false =>
        have hsplit : glyph :: rest = (glyph :: rest.takeWhile (!Text.isBlank ·)) ++
            rest.dropWhile (!Text.isBlank ·) := by
          rw [List.cons_append, List.takeWhile_append_dropWhile]
        have hrun : ∀ other ∈ glyph :: rest.takeWhile (!Text.isBlank ·),
            Text.isBlank other = false := by
          refine List.forall_mem_cons.mpr ⟨hblank, fun other hother => ?_⟩
          simpa using List.mem_takeWhile_imp hother
        have hend : ∀ other ∈ (rest.dropWhile (!Text.isBlank ·)).head?,
            Text.isBlank other = true := by
          intro other hother
          have hstops := List.head?_dropWhile_not (!Text.isBlank ·) rest
          rw [Option.mem_def.mp hother] at hstops
          simpa using hstops
        have hshort := List.length_dropWhile_le (!Text.isBlank ·) rest
        rw [hsplit, glyphWords_field (List.cons_ne_nil _ _) hrun hend]
        exact .field (List.cons_ne_nil _ _) hrun hend (ih _ (by omega) _ rfl)

/-- The fields of a line are those of its code. -/
theorem fields_iff {content : Text} {fields : List Text} :
    Fields (codePart content).glyphs fields ↔ fields = listingFields content := by
  have hfields : listingFields content = glyphWords (codePart content).glyphs := by
    rw [listingFields, before_takeWhile]
    rfl
  rw [hfields]
  constructor
  · exact Fields.eq_glyphWords
  · rintro rfl
    exact fields_glyphWords _

theorem Fields.eq_nil_iff {glyphs : List Glyph} {fields : List Text} (h : Fields glyphs fields) :
    fields = [] ↔ glyphs.any (!Text.isBlank ·) = false := by
  induction h with
  | nil => simp
  | blank hblank _ ih => simp [ih, hblank]
  | @field run rest fields hne hrun _ _ _ =>
    obtain ⟨glyph, more, rfl⟩ := List.exists_cons_of_ne_nil hne
    simp [hrun glyph List.mem_cons_self]

theorem hasFields_eq_false_iff {content : Text} :
    hasFields content = false ↔ listingFields content = [] :=
  (fields_iff.mpr rfl).eq_nil_iff.symm

theorem hasFields_iff {content : Text} : hasFields content = true ↔ listingFields content ≠ [] := by
  rw [← Bool.not_eq_false, hasFields_eq_false_iff]

end Image

/-! ## Rows -/

namespace ImageFault

variable {fault : ImageFault} {line : Nat}

/-- The line of a listing that a fault is about. -/
def line? : ImageFault → Option Nat
  | .fieldCount line _ | .listingTooLarge line | .badNumber _ line | .listingByte _ line =>
    some line
  | .wordsTooLarge _ | .wordByte _ _ _ | .brokenLength _ => none

/-- A fault about a line names it in its message. -/
theorem line_infix_message (h : fault.line? = some line) :
    ("line " ++ Numeral.ofNat line : Text) <:+: fault.message := by
  cases fault with
  | fieldCount other got =>
    cases h
    exact ⟨"expected " ++ Numeral.ofNat instructionWidth ++ " fields on ",
      ", got " ++ Numeral.ofNat got, by simp [message, Text.ofString]⟩
  | listingTooLarge other =>
    cases h
    exact ⟨"program too large near ", [], by simp [message, Text.ofString]⟩
  | badNumber token other =>
    cases h
    exact ⟨"invalid number '" ++ token ++ "' on ", [], by simp [message, Text.ofString]⟩
  | listingByte value other =>
    cases h
    exact ⟨misfit value ++ " on ", [], by simp [message, Text.ofString]⟩
  | wordsTooLarge | wordByte | brokenLength => cases h

end ImageFault

namespace Image

open Numeral

variable {n : Nat} {byte : UInt8}

/-- A field that denotes a number between -128 and 255. -/
def IsByteField (field : Text) (n : Int) : Prop := Signed Unsigned field n ∧ -128 ≤ n ∧ n ≤ 255

/-- A row with an instruction: four fields, and a number for each of them that fits in a byte. -/
def IsInstruction (content : Text) : Prop :=
  ∃ fields, Fields (codePart content).glyphs fields ∧ fields.length = 4 ∧
    ∀ field ∈ fields, ∃ n, IsByteField field n

/-- The word of a row: the numbers that its fields denote, and its line. -/
structure Holds (content : Text) (line : Nat) (w : Word) : Prop where
  fields : ∃ fields, Fields (codePart content).glyphs fields ∧
    List.Forall₂ IsByteField fields (w.fields.map Int64.toInt)
  line : w.line = line

variable {content field : Text} {line : Nat} {w : Word} {fault : ImageFault}

theorem Holds.isInstruction (h : Holds content line w) : IsInstruction content := by
  obtain ⟨⟨fields, hfields, hnumbers⟩, _⟩ := h
  refine ⟨fields, hfields, hnumbers.length_eq, ?_⟩
  intro field hfield
  obtain ⟨n, _, hn⟩ := exists_of_mem_forall₂ hnumbers hfield
  exact ⟨n, hn⟩

theorem fieldByte_ok (h : fieldByte line field = .ok byte) :
    ∃ n, IsByteField field n ∧ byte = UInt8.ofNat (n % 256).toNat := by
  unfold fieldByte at h
  split at h
  · cases h
  · next n hnumber =>
    obtain ⟨hsigned, _⟩ := (number?_eq_some_iff n).mp hnumber
    unfold byte? at h
    split_ifs at h with hrange
    cases h
    exact ⟨n, ⟨hsigned, hrange⟩, rfl⟩

theorem fieldByte_error (h : fieldByte line field = .error fault) :
    (¬∃ n, IsByteField field n) ∧ fault.line? = some line := by
  have hnumber {n : Int} (hn : IsByteField field n) : number? field = some n := by
    refine (number?_eq_some_iff n).mpr ⟨hn.1, ?_⟩
    have := hn.2
    unfold Has32Bits
    omega
  unfold fieldByte at h
  split at h
  · next hnone =>
    cases h
    refine ⟨?_, rfl⟩
    rintro ⟨n, hn⟩
    rw [hnumber hn] at hnone
    cases hnone
  · next m hm =>
    unfold byte? at h
    split_ifs at h with hrange
    cases h
    refine ⟨?_, rfl⟩
    rintro ⟨n, hn⟩
    rw [hnumber hn] at hm
    cases hm
    exact hrange hn.2

/-- Fields that all have a byte are the numbers of their bytes. -/
theorem exists_numbers {fields : List Text} {bytes : List UInt8}
    (h : fields.mapM (fieldByte line) = .ok bytes) :
    ∃ numbers, List.Forall₂ IsByteField fields numbers ∧
      bytes = numbers.map fun n => UInt8.ofNat (n % 256).toNat := by
  have hall := forall₂_of_mapM_ok h
  clear h
  induction hall with
  | nil => exact ⟨[], .nil, rfl⟩
  | cons hbyte _ ih =>
    obtain ⟨n, hn, rfl⟩ := fieldByte_ok hbyte
    obtain ⟨numbers, hnumbers, rfl⟩ := ih
    exact ⟨n :: numbers, .cons hn hnumbers, rfl⟩

/-- A field without a byte is the reason why a row has none. -/
theorem exists_field_of_error {fields : List Text}
    (h : fields.mapM (fieldByte line) = .error fault) :
    ∃ field ∈ fields, fieldByte line field = .error fault := by
  induction fields with
  | nil => cases h
  | cons field rest ih =>
    rw [List.mapM_cons] at h
    cases hfield : fieldByte line field with
    | error other =>
      rw [hfield] at h
      cases h
      exact ⟨field, List.mem_cons_self, hfield⟩
    | ok byte =>
      cases hrest : rest.mapM (fieldByte line) with
      | error other =>
        rw [hfield, hrest] at h
        cases h
        obtain ⟨found, hmem, hfound⟩ := ih hrest
        exact ⟨found, List.mem_cons_of_mem _ hmem, hfound⟩
      | ok bytes =>
        rw [hfield, hrest] at h
        cases h

/-- Four small numbers are those of a word. -/
theorem exists_word {numbers : List Int} (hlength : numbers.length = 4)
    (hsmall : ∀ n ∈ numbers, -128 ≤ n ∧ n ≤ 255) (line : Nat) :
    ∃ w : Word, w.fields.map Int64.toInt = numbers ∧ w.line = line := by
  have hword {n : Int} (hn : n ∈ numbers) : (Int64.ofInt n).toInt = n := by
    have := hsmall n hn
    exact Int64.toInt_ofInt_of_le (by omega) (by omega)
  match numbers with
  | [a, b, c, d] =>
    refine ⟨{ opcode := Int64.ofInt a
              args := ⟨Int64.ofInt b, Int64.ofInt c, Int64.ofInt d⟩
              line := line }, ?_, rfl⟩
    simp [Word.fields, Args.toList, hword]

theorem bytes_eq (w : Word) :
    w.bytes = (w.fields.map Int64.toInt).map fun n => UInt8.ofNat (n % 256).toNat := by
  rw [Word.bytes, List.map_map]
  rfl

/-- What a row does to an image of `index` words, if it does anything. -/
theorem addLine_ok {image next : Image} {index : Nat} (hsize : image.bytes.size = 4 * index)
    (h : image.addLine line content = .ok next) :
    hasFields content = false ∧ next = image ∨
      hasFields content = true ∧ ∃ w, Holds content line w ∧ index < 16384 ∧
        next = image.extend (fun w _ => w.line) w index := by
  unfold addLine at h
  dsimp only at h
  by_cases hempty : listingFields content = []
  · rw [if_pos (by simpa using hempty)] at h
    exact .inl ⟨hasFields_eq_false_iff.mpr hempty, (Except.ok.inj h).symm⟩
  · have hfields := hasFields_iff.mpr hempty
    rw [if_neg (by simpa using hempty)] at h
    split_ifs at h with hcount hroom
    obtain ⟨bytes, hbytes, h⟩ := exists_of_bind_ok h
    obtain ⟨numbers, hnumbers, rfl⟩ := exists_numbers hbytes
    have hlength : numbers.length = 4 := by
      rw [← hnumbers.length_eq]
      exact Decidable.not_not.mp hcount
    have hsmall : ∀ n ∈ numbers, -128 ≤ n ∧ n ≤ 255 := by
      intro n hn
      obtain ⟨field, _, hfield⟩ := exists_of_mem_forall₂ hnumbers.flip hn
      exact hfield.2
    obtain ⟨w, hw, hline⟩ := exists_word hlength hsmall line
    refine .inr ⟨hfields, w, ⟨⟨_, fields_iff.mpr rfl, hw ▸ hnumbers⟩, hline⟩, ?_, ?_⟩
    · rw [lastAddress] at hroom
      omega
    · rw [← Except.ok.inj h, extend, bytes_eq, hw, hline, hsize]

/-- Why a row is refused. -/
theorem addLine_error {image : Image} {index : Nat} (hsize : image.bytes.size = 4 * index)
    (h : image.addLine line content = .error fault) :
    hasFields content = true ∧ (¬IsInstruction content ∨ 16384 ≤ index) ∧
      fault.line? = some line := by
  unfold addLine at h
  dsimp only at h
  by_cases hempty : listingFields content = []
  · rw [if_pos (by simpa using hempty)] at h
    cases h
  · have hfields := hasFields_iff.mpr hempty
    rw [if_neg (by simpa using hempty)] at h
    refine ⟨hfields, ?_⟩
    split_ifs at h with hcount hroom
    · cases h
      refine ⟨.inl ?_, rfl⟩
      rintro ⟨fields, hfields, hlength, _⟩
      rw [fields_iff.mp hfields] at hlength
      exact hcount hlength
    · cases h
      refine ⟨.inr ?_, rfl⟩
      rw [lastAddress] at hroom
      omega
    · cases hbytes : (listingFields content).mapM (fieldByte line) with
      | ok bytes =>
        rw [hbytes] at h
        cases h
      | error other =>
        rw [hbytes] at h
        cases h
        obtain ⟨field, hfield, hfault⟩ := exists_field_of_error hbytes
        obtain ⟨hnone, hline⟩ := fieldByte_error hfault
        refine ⟨.inl ?_, hline⟩
        rintro ⟨fields, hfields, _, hall⟩
        exact hnone (hall field (fields_iff.mp hfields ▸ hfield))

/-! ## Listings -/

variable {rows : List Text} {words : List Word} {image : Image} {index : Nat}

/-- The rows that have fields, with their lines, hold these words in this order. -/
def Reads (rows : List Text) (words : List Word) : Prop :=
  List.Forall₂ (fun entry w => Holds entry.1 entry.2 w)
    ((rows.zipIdx 1).filter (hasFields ·.1)) words

/-- The row at an index is the reason to refuse a listing: it has fields, and they are no
instruction, or as many rows with fields as there are addresses stand in front of it. -/
def Breaks (rows : List Text) (index : Nat) : Prop :=
  ∃ content, rows[index]? = some content ∧ hasFields content = true ∧
    (¬IsInstruction content ∨ 16384 ≤ (rows.take index).countP hasFields)

/-- The image of rows, one after the other. -/
def assembleRows (rows : List Text) : Except ImageFault Image :=
  (rows.zipIdx 1).foldlM (fun image entry => image.addLine entry.2 entry.1) {}

theorem assembleRows_concat (rows : List Text) (content : Text) :
    assembleRows (rows ++ [content]) =
      assembleRows rows >>= fun image => image.addLine (rows.length + 1) content := by
  rw [assembleRows, List.zipIdx_append, List.foldlM_append, List.zipIdx_singleton, Nat.add_comm 1]
  simp [assembleRows]

theorem Reads.length_eq (h : Reads rows words) : words.length = rows.countP hasFields := by
  rw [← List.Forall₂.length_eq h, ← List.countP_eq_length_filter]
  conv_rhs => rw [← List.zipIdx_map_fst 1 rows, List.countP_map]
  rfl

theorem Reads.concat_blank (h : Reads rows words) (hblank : hasFields content = false) :
    Reads (rows ++ [content]) words := by
  unfold Reads at h ⊢
  rw [List.zipIdx_append, List.filter_append, List.zipIdx_singleton, List.filter_singleton, hblank]
  simpa using h

theorem Reads.concat (h : Reads rows words) (hfields : hasFields content = true)
    (hw : Holds content (rows.length + 1) w) : Reads (rows ++ [content]) (words ++ [w]) := by
  unfold Reads
  rw [List.zipIdx_append, List.filter_append, List.zipIdx_singleton, List.filter_singleton, hfields,
    Nat.add_comm 1]
  exact List.rel_append h (.cons hw .nil)

theorem Reads.isInstruction (h : Reads rows words) (hrow : content ∈ rows)
    (hfields : hasFields content = true) : IsInstruction content := by
  rw [← List.zipIdx_map_fst 1 rows, List.mem_map] at hrow
  obtain ⟨entry, hentry, rfl⟩ := hrow
  obtain ⟨w, _, hw⟩ := exists_of_mem_forall₂ h (List.mem_filter.mpr ⟨hentry, hfields⟩)
  exact hw.isInstruction

/-- A row with fields has an address behind those of the rows in front of it. -/
theorem countP_take_lt (hrow : rows[index]? = some content) (hfields : hasFields content = true) :
    (rows.take index).countP hasFields < rows.countP hasFields := by
  have hmem : content ∈ rows.drop index := by
    refine List.mem_of_getElem? (show (rows.drop index)[0]? = some content from ?_)
    rw [List.getElem?_drop, Nat.add_zero, hrow]
  have hpos : 0 < (rows.drop index).countP hasFields :=
    List.countP_pos_iff.mpr ⟨content, hmem, hfields⟩
  have hsum : rows.countP hasFields =
      (rows.take index).countP hasFields + (rows.drop index).countP hasFields := by
    rw [← List.countP_append, List.take_append_drop]
  omega

/-- Instructions with an address each are no reason to refuse a listing. -/
theorem not_breaks (hall : ∀ content ∈ rows, hasFields content = true → IsInstruction content)
    (hcount : rows.countP hasFields ≤ 16384) (index : Nat) : ¬Breaks rows index := by
  rintro ⟨content, hrow, hfields, hwrong | hlate⟩
  · exact hwrong (hall content (List.mem_of_getElem? hrow) hfields)
  · have := countP_take_lt hrow hfields
    omega

theorem breaks_concat (hindex : index < rows.length) :
    Breaks (rows ++ [content]) index ↔ Breaks rows index := by
  unfold Breaks
  rw [List.getElem?_append_left hindex, List.take_append_of_le_length (by omega)]

theorem breaks_last : Breaks (rows ++ [content]) rows.length ↔ hasFields content = true ∧
    (¬IsInstruction content ∨ 16384 ≤ rows.countP hasFields) := by
  simp [Breaks]

theorem Breaks.lt_length (h : Breaks rows index) : index < rows.length := by
  obtain ⟨content, hcontent, _⟩ := h
  exact (List.getElem?_eq_some_iff.mp hcontent).1

/-- An image holds the words of all rows, or the first row that is a reason to refuse the listing
is the one that the fault is about. -/
theorem outcome_assembleRows (rows : List Text) :
    (∀ image, assembleRows rows = .ok image → ∃ words, Reads rows words ∧ words.length ≤ 16384 ∧
      image = ofWords (fun w _ => w.line) words) ∧
    ∀ fault, assembleRows rows = .error fault → ∃ index, Breaks rows index ∧
      (∀ earlier < index, ¬Breaks rows earlier) ∧ fault.line? = some (index + 1) := by
  induction rows using List.reverseRecOn with
  | nil =>
    refine ⟨?_, ?_⟩
    · intro image himage
      exact ⟨[], .nil, Nat.zero_le _, (Except.ok.inj himage).symm⟩
    · intro fault hfault
      cases hfault
  | append_singleton rows content ih =>
    obtain ⟨hok, herror⟩ := ih
    rw [assembleRows_concat]
    cases hrows : assembleRows rows with
    | error other =>
      obtain ⟨index, hbreaks, hfirst, hline⟩ := herror other hrows
      have hindex := hbreaks.lt_length
      refine ⟨?_, ?_⟩
      · intro image himage
        cases himage
      · intro fault hfault
        cases hfault
        refine ⟨index, (breaks_concat hindex).mpr hbreaks, ?_, hline⟩
        intro earlier hearlier hbreak
        exact hfirst earlier hearlier ((breaks_concat (by omega)).mp hbreak)
    | ok image =>
      obtain ⟨words, hreads, hroom, rfl⟩ := hok image hrows
      have hsize : (ofWords (fun w _ => w.line) words).bytes.size = 4 * words.length :=
        size_bytes_ofWords
      refine ⟨?_, ?_⟩
      · intro next hnext
        rcases addLine_ok hsize hnext with ⟨hblank, rfl⟩ | ⟨hfields, w, hw, hlast, rfl⟩
        · exact ⟨words, hreads.concat_blank hblank, hroom, rfl⟩
        · refine ⟨words ++ [w], hreads.concat hfields hw, ?_, ofWords_concat.symm⟩
          rw [List.length_append, List.length_singleton]
          omega
      · intro fault hfault
        obtain ⟨hfields, hwrong, hline⟩ := addLine_error hsize hfault
        rw [hreads.length_eq] at hwrong
        refine ⟨rows.length, breaks_last.mpr ⟨hfields, hwrong⟩, ?_, hline⟩
        intro earlier hearlier hbreak
        refine not_breaks (fun other hother hfields => hreads.isInstruction hother hfields)
          (hreads.length_eq ▸ hroom) earlier ((breaks_concat hearlier).mp hbreak)

/-- A listing is accepted if and only if every row has no field or is an instruction, and there is
an address for each of them.  Its image shows the words that the rows hold.  Otherwise the
fault is about the first row that breaks one of these rules, and its message names the line. -/
theorem listing_grammar (listing : Text) :
    ((∃ image, assemble listing = .ok image) ↔
      (∀ content ∈ listing.lines, Fields (codePart content).glyphs [] ∨ IsInstruction content) ∧
        listing.lines.countP hasFields ≤ 16384) ∧
    (∀ image, assemble listing = .ok image →
      ∃ words, Reads listing.lines words ∧ image.Shows words fun w _ => w.line) ∧
    ∀ fault, assemble listing = .error fault → ∃ index, Breaks listing.lines index ∧
      (∀ earlier < index, ¬Breaks listing.lines earlier) ∧ fault.line? = some (index + 1) ∧
      ("line " ++ Numeral.ofNat (index + 1) : Text) <:+: fault.message := by
  have hrows : assemble listing = assembleRows listing.lines := rfl
  obtain ⟨hok, herror⟩ := outcome_assembleRows listing.lines
  rw [hrows]
  have hblank (content : Text) :
      Fields (codePart content).glyphs [] ↔ hasFields content = false := by
    rw [fields_iff, hasFields_eq_false_iff]
    exact eq_comm
  refine ⟨⟨?_, ?_⟩, ?_, ?_⟩
  · rintro ⟨image, himage⟩
    obtain ⟨words, hreads, hroom, _⟩ := hok image himage
    refine ⟨?_, hreads.length_eq ▸ hroom⟩
    intro content hcontent
    cases hfields : hasFields content with
    | false => exact .inl ((hblank content).mpr hfields)
    | true => exact .inr (hreads.isInstruction hcontent hfields)
  · rintro ⟨hall, hcount⟩
    cases himage : assembleRows listing.lines with
    | ok image => exact ⟨image, rfl⟩
    | error fault =>
      obtain ⟨index, hbreaks, _⟩ := herror fault himage
      refine absurd hbreaks (not_breaks (fun content hcontent hfields => ?_) hcount index)
      refine (hall content hcontent).resolve_left fun hnone => ?_
      rw [(hblank content).mp hnone] at hfields
      cases hfields
  · intro image himage
    obtain ⟨words, hreads, hroom, rfl⟩ := hok image himage
    exact ⟨words, hreads, shows_ofWords hroom⟩
  · intro fault hfault
    obtain ⟨index, hbreaks, hfirst, hline⟩ := herror fault hfault
    exact ⟨index, hbreaks, hfirst, hline, ImageFault.line_infix_message hline⟩

end Image

end AccuAsm
