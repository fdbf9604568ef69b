import AccuAsm.Line
import Mathlib.Data.List.DropRight

/-!
# The fields of a source

A source is cut into lines, and each line into fields.  Seen from the whole source, the
fields are the maximal runs of bytes that separate nothing, and the numbers that go with
them say where they are.

There are four groups.

* Widths.  `Text.width_append_cons` says that widths add up around a byte of ASCII.
* Runs.  `Line.IsRun` says what a maximal run is, and `Line.Splits` cuts a text into its
  runs from left to right.  `Line.Splits.mem_iff` says that it finds exactly these, and
  `Line.Splits.pairwise` that it finds them in order.
* Lines.  `Line.Splits.scan` gives the columns of one line, and `Line.exists_splits_lines`
  puts the lines together.
* Fields.  `Line.fields_joinWith` says that fields survive being joined and cut again.
-/

namespace AccuAsm

/-! ## Widths -/

namespace Text

variable {text rest : Text} {byte : UInt8}

theorem glyphsFrom_eq_append (done : List Glyph) (skip : Nat) (text : Text) :
    glyphsFrom done skip text = done.reverse ++ glyphsFrom [] skip text := by
  induction text generalizing done skip with
  | nil => cases skip <;> simp [glyphsFrom]
  | cons byte rest ih =>
    cases skip with
    | succ skip =>
      simp only [glyphsFrom]
      exact ih done skip
    | zero =>
      simp only [glyphsFrom]
      split
      · next c width _ =>
        rw [ih (.char c :: done), ih [.char c]]
        simp
      · rw [ih (.stray byte :: done), ih [.stray byte]]
        simp

theorem isTail_ascii (h : byte < 0x80) : isTail byte = false := by
  rw [isTail, decide_eq_false (UInt8.not_le.mpr h), Bool.false_and]

theorem headChar?_ascii (h : byte < 0x80) :
    headChar? (byte :: rest) = some (Char.ofNat byte.toNat, 1) := by
  unfold headChar?
  exact if_pos h

/-- A character does not reach beyond the text. -/
theorem width_of_headChar? {c : Char} {width : Nat} (h : headChar? text = some (c, width)) :
    width ≤ text.length := by
  revert h
  fun_cases headChar? text <;> rintro ⟨⟩ <;> simp

/-- A byte of ASCII is no part of a character that started before it. -/
theorem headChar?_append_cons (h : byte < 0x80) (htext : text ≠ []) :
    headChar? (text ++ byte :: rest) = headChar? text := by
  have htail := isTail_ascii h
  match text with
  | [] => exact absurd rfl htext
  | [a] => cases rest with
    | nil => simp [headChar?, isPair, htail]
    | cons b more => cases more <;> simp [headChar?, isPair, isTriple, isQuadruple, htail]
  | [a, b] => cases rest <;> simp [headChar?, isTriple, isQuadruple, htail]
  | [a, b, c] => simp [headChar?, isQuadruple, htail]
  | a :: b :: c :: d :: more => rfl

theorem glyphsFrom_append_cons (h : byte < 0x80) (done : List Glyph) {skip : Nat}
    (hskip : skip ≤ text.length) :
    glyphsFrom done skip (text ++ byte :: rest) =
      glyphsFrom done skip text ++ .char (Char.ofNat byte.toNat) :: rest.glyphs := by
  induction text generalizing done skip with
  | nil =>
    obtain rfl := Nat.le_zero.mp hskip
    simp only [List.nil_append, glyphsFrom, headChar?_ascii h]
    rw [glyphsFrom_eq_append]
    simp [glyphs]
  | cons first more ih =>
    cases skip with
    | succ skip =>
      simp only [List.cons_append, glyphsFrom]
      exact ih done (Nat.le_of_succ_le_succ hskip)
    | zero =>
      have hhead : headChar? (first :: (more ++ byte :: rest)) = headChar? (first :: more) :=
        headChar?_append_cons h (List.cons_ne_nil first more)
      simp only [List.cons_append, glyphsFrom, hhead]
      split
      · next c width hwidth =>
        have := width_of_headChar? hwidth
        rw [List.length_cons] at this
        exact ih _ (by omega)
      · exact ih _ (Nat.zero_le _)

/-- Widths add up around a byte of ASCII. -/
theorem width_append_cons (h : byte < 0x80) (text rest : Text) :
    width (text ++ byte :: rest) = text.width + 1 + rest.width := by
  have hglyphs : glyphs (text ++ byte :: rest) =
      text.glyphs ++ .char (Char.ofNat byte.toNat) :: rest.glyphs :=
    glyphsFrom_append_cons h [] (Nat.zero_le _)
  rw [width, hglyphs, List.length_append, List.length_cons, width, width]
  omega

@[simp] theorem width_nil : width [] = 0 := rfl

end Text

/-! ## Runs -/

namespace Line

variable {source front text field back : Text} {byte : UInt8} {runs runs' : List (Text × Text)}
  {column : Nat}

/-- Bytes that make up a field. -/
structure IsField (field : Text) : Prop where
  nonempty : field ≠ []
  inside : ∀ byte ∈ field, isSeparator byte = false

/-- A field that stands in front of this text ends there. -/
def IsBreak (back : Text) : Prop := ∀ byte ∈ back.head?, isSeparator byte = true

/-- A maximal run of bytes that separate nothing, and what stands in front of it. -/
structure IsRun (source front field : Text) : Prop where
  place : ∃ back, source = front ++ (field ++ back) ∧ IsBreak back
  field : IsField field
  before : ∀ byte ∈ front.getLast?, isSeparator byte = true

/-- The runs of a text from left to right, where `front` stands in front of the text. -/
inductive Splits : (front text : Text) → (runs : List (Text × Text)) → Prop where
  | nil (front : Text) : Splits front [] []
  | separator {front rest : Text} {byte : UInt8} {runs : List (Text × Text)}
      (hbyte : isSeparator byte = true) (hrest : Splits (front ++ [byte]) rest runs) :
      Splits front (byte :: rest) runs
  | field {front field back : Text} {runs : List (Text × Text)} (hfield : IsField field)
      (hback : IsBreak back) (hrest : Splits (front ++ field) back runs) :
      Splits front (field ++ back) ((front, field) :: runs)

theorem IsField.head (h : IsField field) (hhead : byte ∈ field.head?) :
    isSeparator byte = false :=
  h.inside byte (List.mem_of_mem_head? hhead)

/-- A text does not start with a field and with a break at once. -/
theorem IsField.not_isBreak (h : IsField field) (back : Text) : ¬IsBreak (field ++ back) := by
  obtain ⟨byte, rest, rfl⟩ := List.exists_cons_of_ne_nil h.nonempty
  intro hbreak
  have hseparator := hbreak byte rfl
  rw [h.head rfl] at hseparator
  cases hseparator

theorem IsBreak.takeWhile (h : IsBreak back) : back.takeWhile (!isSeparator ·) = [] := by
  cases back with
  | nil => rfl
  | cons byte rest => rw [List.takeWhile_cons, h byte rfl, Bool.not_true, if_neg (by decide)]

theorem IsBreak.dropWhile (h : IsBreak back) : back.dropWhile (!isSeparator ·) = back := by
  cases back with
  | nil => rfl
  | cons byte rest => rw [List.dropWhile_cons, h byte rfl, Bool.not_true, if_neg (by decide)]

theorem isBreak_dropWhile (text : Text) : IsBreak (text.dropWhile (!isSeparator ·)) := by
  intro byte hbyte
  have hstops := List.head?_dropWhile_not (!isSeparator ·) text
  rw [Option.mem_def.mp hbyte] at hstops
  simpa using hstops

/-- A field ends where a break starts. -/
theorem IsField.eq_of_append_eq {field' back' : Text} (h : IsField field) (h' : IsField field')
    (hback : IsBreak back) (hback' : IsBreak back') (heq : field ++ back = field' ++ back') :
    field = field' := by
  have hinside {f : Text} (hf : IsField f) : ∀ byte ∈ f, (!isSeparator byte) = true :=
    fun byte hbyte => by rw [hf.inside byte hbyte, Bool.not_false]
  have htaken := congrArg (List.takeWhile (!isSeparator ·)) heq
  rw [List.takeWhile_append_of_pos (hinside h), List.takeWhile_append_of_pos (hinside h'),
    hback.takeWhile, hback'.takeWhile, List.append_nil, List.append_nil] at htaken
  exact htaken

theorem isField_cons_takeWhile (h : ¬isSeparator byte = true) (rest : Text) :
    IsField (byte :: rest.takeWhile (!isSeparator ·)) := by
  refine ⟨List.cons_ne_nil _ _, List.forall_mem_cons.mpr ⟨by simpa using h, ?_⟩⟩
  intro other hother
  simpa using List.mem_takeWhile_imp hother

theorem exists_splits (front text : Text) : ∃ runs, Splits front text runs := by
  fun_induction scan 0 text generalizing front with
  | case1 => exact ⟨[], .nil front⟩
  | case2 _ byte rest hbyte ih =>
    obtain ⟨runs, hruns⟩ := ih (front ++ [byte])
    exact ⟨runs, .separator hbyte hruns⟩
  | case3 _ byte rest hbyte field ih =>
    obtain ⟨runs, hruns⟩ := ih (front ++ field)
    have htext : byte :: rest = field ++ rest.dropWhile (!isSeparator ·) := by
      rw [List.cons_append, List.takeWhile_append_dropWhile]
    rw [htext]
    exact ⟨_, .field (isField_cons_takeWhile hbyte rest) (isBreak_dropWhile rest) hruns⟩

namespace Splits

/-- What is found is a run. -/
theorem isRun (h : Splits front text runs) {run : Text × Text} (hrun : run ∈ runs) :
    ∃ inner, run.1 = front ++ inner ∧ IsRun text inner run.2 := by
  induction h with
  | nil => cases hrun
  | @separator front rest byte runs hbyte _ ih =>
    obtain ⟨inner, hinner, ⟨back, rfl, hback⟩, hfield, hbefore⟩ := ih hrun
    refine ⟨byte :: inner, by rw [hinner, List.append_assoc]; rfl, ⟨back, rfl, hback⟩, hfield, ?_⟩
    intro last hlast
    rw [List.getLast?_cons, Option.mem_some_iff] at hlast
    subst hlast
    cases hinner : inner.getLast? with
    | none => exact hbyte
    | some last => exact hbefore last hinner
  | @field front field back runs hfield hback _ ih =>
    rcases List.mem_cons.mp hrun with rfl | hrun
    · exact ⟨[], (List.append_nil front).symm, ⟨back, rfl, hback⟩, hfield, by simp⟩
    · obtain ⟨inner, hinner, ⟨back', rfl, hback'⟩, hfield', hbefore⟩ := ih hrun
      -- another field cannot follow at once
      have hne : inner ≠ [] := by
        rintro rfl
        exact hfield'.not_isBreak back' hback
      refine ⟨field ++ inner, by rw [hinner, List.append_assoc], ⟨back', ?_, hback'⟩, hfield', ?_⟩
      · rw [List.append_assoc]
      · intro last hlast
        rw [List.getLast?_append] at hlast
        cases hinner : inner.getLast? with
        | none => exact absurd (List.getLast?_eq_none_iff.mp hinner) hne
        | some other =>
          rw [hinner, Option.some_or, Option.mem_some_iff] at hlast
          exact hlast ▸ hbefore other hinner

/-- Every run is found. -/
theorem mem (h : Splits front text runs) {inner : Text} (hrun : IsRun text inner field) :
    (front ++ inner, field) ∈ runs := by
  obtain ⟨⟨back, hplace, hback⟩, hfield, hbefore⟩ := hrun
  induction h generalizing inner with
  | nil =>
    have hempty : field ++ back = [] := (List.append_eq_nil_iff.mp hplace.symm).2
    exact absurd (List.append_eq_nil_iff.mp hempty).1 hfield.nonempty
  | @separator front rest byte runs hbyte _ ih =>
    cases inner with
    | nil =>
      have hbreak : IsBreak (byte :: rest) := by
        rintro _ ⟨⟩
        exact hbyte
      rw [hplace] at hbreak
      exact absurd hbreak (hfield.not_isBreak back)
    | cons first inner =>
      obtain ⟨rfl, rfl⟩ := List.cons.inj hplace
      have hinner : ∀ last ∈ inner.getLast?, isSeparator last = true := by
        intro last hlast
        apply hbefore
        rw [List.getLast?_cons, Option.mem_def.mp hlast]
        rfl
      have hmem := ih hinner rfl
      rwa [List.append_assoc] at hmem
  | @field front field' back' runs hfield' hback' _ ih =>
    rcases List.append_eq_append_iff.mp hplace with ⟨later, rfl, hlater⟩ | ⟨more, hmore, hrest⟩
    · have hinner : ∀ last ∈ later.getLast?, isSeparator last = true := by
        intro last hlast
        apply hbefore
        rw [List.getLast?_append, Option.mem_def.mp hlast]
        rfl
      have hmem := ih hinner hlater
      rw [List.append_assoc] at hmem
      exact List.mem_cons_of_mem _ hmem
    · -- a run does not start inside a field
      have hinner : inner = [] := by
        cases hlast : inner.getLast? with
        | none => exact List.getLast?_eq_none_iff.mp hlast
        | some last =>
          have hseparator := hbefore last hlast
          rw [hfield'.inside last (hmore ▸ List.mem_append_left _ (List.mem_of_getLast? hlast))]
            at hseparator
          cases hseparator
      subst hinner
      obtain rfl : field' = more := hmore
      obtain rfl := hfield.eq_of_append_eq hfield' hback hback' hrest
      rw [List.append_nil]
      exact List.mem_cons_self

theorem mem_iff (h : Splits [] source runs) (run : Text × Text) :
    run ∈ runs ↔ IsRun source run.1 run.2 := by
  constructor
  · intro hrun
    obtain ⟨inner, hinner, hisRun⟩ := h.isRun hrun
    rw [hinner]
    exact hisRun
  · exact fun hrun => h.mem hrun

/-- The runs are found in their order. -/
theorem pairwise (h : Splits front text runs) :
    runs.Pairwise (·.1.length < ·.1.length) := by
  induction h with
  | nil => exact .nil
  | separator _ _ ih => exact ih
  | @field front field back runs hfield _ hrest ih =>
    refine List.pairwise_cons.mpr ⟨fun run hrun => ?_, ih⟩
    obtain ⟨inner, hinner, _⟩ := hrest.isRun hrun
    have := List.length_pos_of_ne_nil hfield.nonempty
    show front.length < run.1.length
    rw [hinner, List.length_append, List.length_append]
    omega

/-- The runs of two texts with a separator between them. -/
theorem append (h : Splits front text runs) (hbyte : isSeparator byte = true) {rest : Text}
    (h' : Splits (front ++ text ++ [byte]) rest runs') :
    Splits front (text ++ byte :: rest) (runs ++ runs') := by
  induction h with
  | nil front =>
    rw [List.append_nil] at h'
    exact .separator hbyte h'
  | @separator front more other runs hother _ ih =>
    refine .separator hother (ih ?_)
    rwa [List.append_assoc front]
  | @field front field back runs hfield hback _ ih =>
    rw [List.append_assoc, List.cons_append]
    refine .field hfield ?_ (ih ?_)
    · cases back with
      | nil =>
        rintro _ ⟨⟩
        exact hbyte
      | cons first more => exact hback
    · rwa [List.append_assoc front]

end Splits

end Line

/-! ## Lines -/

theorem Text.newline_notMem_of_mem_lines {text row : Text} (h : row ∈ text.lines) :
    newline ∉ row := by
  unfold lines at h
  induction text generalizing row with
  | nil =>
    rw [List.splitOn_nil, List.mem_singleton] at h
    rw [h]
    exact List.not_mem_nil
  | cons byte rest ih =>
    rw [List.splitOn_cons_eq_if_modifyHead] at h
    split at h
    · rcases List.mem_cons.mp h with rfl | h
      · exact List.not_mem_nil
      · exact ih h
    · next hbyte =>
      obtain ⟨first, others, hfirst⟩ :=
        List.exists_cons_of_ne_nil (List.splitOn_ne_nil newline rest)
      rw [hfirst, List.modifyHead_cons] at h
      rcases List.mem_cons.mp h with rfl | h
      · have := ih (hfirst ▸ List.mem_cons_self)
        rw [List.mem_cons, not_or]
        exact ⟨fun heq => hbyte (by simp [heq]), this⟩
      · exact ih (hfirst ▸ List.mem_cons_of_mem _ h)

namespace Line

variable {source front text field back : Text} {byte : UInt8} {runs runs' : List (Text × Text)}
  {column : Nat}

/-- Lines with numbers from the one behind `last` on. -/
def numbered (last : Int) : List Text → List Line
  | [] => []
  | content :: rest => ofText (last + 1) content :: numbered (last + 1) rest

theorem numbered_eq (contents : List Text) (start : Nat) :
    numbered start contents =
      (contents.zipIdx start).map fun (content, index) => ofText (index + 1) content := by
  induction contents generalizing start with
  | nil => rfl
  | cons content rest ih =>
    rw [numbered, List.zipIdx_cons, List.map_cons]
    exact congrArg (_ :: ·) (ih (start + 1))

/-- The statements of a source are its lines without the blank ones. -/
theorem tokenize_eq (source : Text) :
    tokenize source = (numbered 0 source.lines).filter (!·.fields.isEmpty) := by
  rw [tokenize, ← numbered_eq source.lines 0]
  rfl

theorem single_eq {content : Text} (h : Text.newline ∉ content) (number : Int) :
    single number content = ofText number content := by
  have hsame : content.replaceByte Text.newline Text.space = content := by
    unfold Text.replaceByte
    refine (List.map_congr_left fun byte hbyte => ?_).trans (List.map_id _)
    rw [if_neg]
    · rfl
    · rintro rfl
      exact h hbyte
  rw [single, hsame]

/-- What stands behind the last line end. -/
def lastLine (text : Text) : Text := text.rtakeWhile (· ≠ Text.newline)

/-- The line number, the column and the field of a run, read off what stands in front of it. -/
def position (run : Text × Text) : Int × Int × Text :=
  (run.1.count Text.newline + 1, (lastLine run.1).width + 1, run.2)

/-- The line number, the column and the field for each field of a line. -/
def entries (line : Line) : List (Int × Int × Text) :=
  (line.columns.zip line.fields).map fun entry => (line.number, entry.1, entry.2)

theorem entries_ofText (number : Int) (text : Text) :
    (ofText number text).entries = (scan 1 text).map fun found => (number, ↑found.1, found.2) := by
  rw [entries, ofText, List.zip_map', List.map_map]
  rfl

theorem lastLine_append {line : Text} (h : Text.newline ∉ line) (front : Text) :
    lastLine (front ++ line) = lastLine front ++ line := by
  induction line using List.reverseRecOn with
  | nil => rw [List.append_nil, List.append_nil]
  | append_singleton line byte ih =>
    rw [List.mem_append, not_or, List.mem_singleton] at h
    have hbyte : decide (byte ≠ Text.newline) = true := decide_eq_true (Ne.symm h.2)
    rw [← List.append_assoc, lastLine, List.rtakeWhile_concat, if_pos hbyte, ← lastLine, ih h.1,
      List.append_assoc]

theorem lastLine_newline (front : Text) : lastLine (front ++ [Text.newline]) = [] :=
  List.rtakeWhile_concat_neg _ _ _ (by simp)

theorem scan_separator {rest : Text} (h : isSeparator byte = true) :
    scan column (byte :: rest) = scan (column + 1) rest := by
  rw [scan, if_pos h]

theorem scan_field (h : IsField field) (hback : IsBreak back) :
    scan column (field ++ back) = (column, field) :: scan (column + field.width) back := by
  obtain ⟨first, more, rfl⟩ := List.exists_cons_of_ne_nil h.nonempty
  have hmore : ∀ byte ∈ more, (!isSeparator byte) = true := fun byte hbyte => by
    rw [h.inside byte (List.mem_cons_of_mem _ hbyte), Bool.not_false]
  rw [List.cons_append, scan, h.head rfl, if_neg Bool.false_ne_true,
    List.takeWhile_append_of_pos hmore, List.dropWhile_append_of_pos hmore, hback.takeWhile,
    hback.dropWhile, List.append_nil]

theorem isSeparator_lt (h : isSeparator byte = true) : byte < 0x80 := by
  simp only [isSeparator, Bool.or_eq_true, beq_iff_eq] at h
  rcases h with (((rfl | rfl) | rfl) | rfl) | rfl <;> decide

/-- Widths add up behind a separator. -/
theorem width_append_of_separator {line : Text}
    (h : ∀ byte ∈ line.getLast?, isSeparator byte = true) (more : Text) :
    (line ++ more).width = line.width + more.width := by
  induction line using List.reverseRecOn with
  | nil => exact (Nat.zero_add _).symm
  | append_singleton line byte _ =>
    have hbyte := isSeparator_lt (h byte List.getLast?_concat)
    rw [List.append_assoc, List.singleton_append, Text.width_append_cons hbyte,
      Text.width_append_cons hbyte, Text.width_nil]

/-- The fields of a line are its runs, with their columns. -/
theorem Splits.scan (h : Splits front text runs) (hnewline : Text.newline ∉ text)
    (hcut : (∀ byte ∈ (lastLine front).getLast?, isSeparator byte = true) ∨ IsBreak text) :
    Line.scan ((lastLine front).width + 1) text =
      runs.map fun run => ((lastLine run.1).width + 1, run.2) := by
  induction h with
  | nil => rw [Line.scan, List.map_nil]
  | @separator front rest byte runs hbyte _ ih =>
    rw [List.mem_cons, not_or] at hnewline
    have hlast : lastLine (front ++ [byte]) = lastLine front ++ [byte] :=
      lastLine_append (by simpa using hnewline.1) front
    have hrest := ih hnewline.2 (.inl (by
      rw [hlast, List.getLast?_concat]
      rintro _ ⟨⟩
      exact hbyte))
    rw [scan_separator hbyte, ← hrest, hlast, Text.width_append_cons (isSeparator_lt hbyte),
      Text.width_nil]
  | @field front field back runs hfield hback _ ih =>
    rw [List.mem_append, not_or] at hnewline
    have hends := hcut.resolve_right (hfield.not_isBreak back)
    have hrest := ih hnewline.2 (.inr hback)
    rw [lastLine_append hnewline.1, width_append_of_separator hends] at hrest
    rw [scan_field hfield hback, List.map_cons, ← hrest, Nat.add_right_comm]

theorem Splits.count (h : Splits front text runs) (hnewline : Text.newline ∉ text)
    {run : Text × Text} (hrun : run ∈ runs) :
    run.1.count Text.newline = front.count Text.newline := by
  obtain ⟨inner, hinner, ⟨back, rfl, _⟩, _⟩ := h.isRun hrun
  rw [List.mem_append, not_or] at hnewline
  rw [hinner, List.count_append, List.count_eq_zero_of_not_mem hnewline.1, Nat.add_zero]

/-- One line of a source. -/
theorem Splits.entries (h : Splits front text runs) (hnewline : Text.newline ∉ text)
    (hfront : lastLine front = []) :
    (ofText (front.count Text.newline + 1) text).entries = runs.map position := by
  have hscan := h.scan hnewline (.inl (by rw [hfront]; rintro _ ⟨⟩))
  rw [hfront, Text.width_nil, Nat.zero_add] at hscan
  rw [entries_ofText, hscan, List.map_map]
  refine List.map_congr_left fun run hrun => ?_
  rw [position, h.count hnewline hrun]
  rfl

/-- The lines of a source one after the other. -/
theorem exists_splits_lines {contents : List Text}
    (h : ∀ content ∈ contents, Text.newline ∉ content) (hfront : lastLine front = []) :
    ∃ runs, Splits front ([Text.newline].intercalate contents) runs ∧
      (numbered (front.count Text.newline) contents).flatMap entries = runs.map position := by
  induction contents generalizing front with
  | nil => exact ⟨[], .nil front, rfl⟩
  | cons content rest ih =>
    rw [List.forall_mem_cons] at h
    obtain ⟨runs, hruns⟩ := exists_splits front content
    have hentries := hruns.entries h.1 hfront
    cases rest with
    | nil =>
      rw [List.intercalate_singleton]
      refine ⟨runs, hruns, ?_⟩
      rw [numbered, numbered, List.flatMap_cons, List.flatMap_nil, List.append_nil, hentries]
    | cons next rest =>
      obtain ⟨runs', hruns', hentries'⟩ := ih h.2 (lastLine_newline (front ++ content))
      refine ⟨runs ++ runs', ?_, ?_⟩
      · rw [List.intercalate_cons_cons, List.append_assoc]
        exact hruns.append (by decide) hruns'
      · have hcount : (front ++ content ++ [Text.newline]).count Text.newline =
            front.count Text.newline + 1 := by
          rw [List.count_append, List.count_append, List.count_eq_zero_of_not_mem h.1]
          rfl
        rw [hcount] at hentries'
        rw [numbered, List.flatMap_cons, hentries, List.map_append, ← hentries']
        rfl

/-! ## Fields -/

/-- Whether no field has a line end in it. -/
def IsOneLine (line : Line) : Prop := ∀ field ∈ line.fields, Text.newline ∉ field

theorem isField_of_mem_scan {found : Nat × Text} (h : found ∈ scan column text) :
    IsField found.2 := by
  fun_induction scan column text with
  | case1 => cases h
  | case2 column first rest hseparator ih => exact ih h
  | case3 column first rest hseparator field ih =>
    rcases List.mem_cons.mp h with rfl | h
    · exact isField_cons_takeWhile hseparator rest
    · exact ih h

theorem isOneLine_ofText (number : Int) (text : Text) : (ofText number text).IsOneLine := by
  intro field hfield hnewline
  obtain ⟨found, hfound, rfl⟩ := List.mem_map.mp hfield
  have hseparator := (isField_of_mem_scan hfound).inside _ hnewline
  exact absurd hseparator (by decide)

theorem isOneLine_of_mem_tokenize {source : Text} {line : Line} (h : line ∈ tokenize source) :
    line.IsOneLine := by
  obtain ⟨⟨content, index⟩, _, rfl⟩ := List.mem_map.mp (List.mem_filter.mp h).1
  exact isOneLine_ofText _ _

theorem notMem_joinWith {byte : UInt8} {separator : Text} {parts : List Text}
    (hseparator : byte ∉ separator) (hparts : ∀ part ∈ parts, byte ∉ part) :
    byte ∉ Text.joinWith separator parts := by
  unfold Text.joinWith
  induction parts with
  | nil => exact List.not_mem_nil
  | cons first rest ih =>
    have hfirst : byte ∉ first := hparts first List.mem_cons_self
    have hrest := ih (fun part hpart => hparts part (List.mem_cons_of_mem _ hpart))
    cases rest with
    | nil => simpa using hfirst
    | cons second rest =>
      rw [List.intercalate_cons_cons, List.mem_append, List.mem_append]
      rintro ((hmem | hmem) | hmem)
      · exact hfirst hmem
      · exact hseparator hmem
      · exact hrest hmem

theorem IsOneLine.newline_notMem_text {line : Line} (h : line.IsOneLine) :
    Text.newline ∉ line.text :=
  notMem_joinWith (show Text.newline ∉ Text.ofString " " by decide) h

/-- Fields that are joined by single spaces can be told apart again. -/
theorem fields_joinWith {fields : List Text} (h : ∀ field ∈ fields, IsField field) (column : Nat) :
    (scan column (Text.joinWith " " fields)).map (·.2) = fields := by
  unfold Text.joinWith
  induction fields generalizing column with
  | nil =>
    rw [List.intercalate_nil, scan]
    rfl
  | cons field rest ih =>
    rw [List.forall_mem_cons] at h
    cases rest with
    | nil =>
      have hscan := @scan_field field [] column h.1 (by rintro _ ⟨⟩)
      rw [List.append_nil, scan] at hscan
      rw [List.intercalate_singleton, hscan]
      rfl
    | cons next rest =>
      have hspace : isSeparator Text.space = true := by decide
      have htext : Text.ofString " " = [Text.space] := by decide
      rw [htext, List.intercalate_cons_cons, List.append_assoc, List.singleton_append,
        scan_field h.1 (by rintro _ ⟨⟩; exact hspace), scan_separator hspace, List.map_cons,
        ← htext, ih h.2]

theorem pairwise_numbered (last : Int) (contents : List Text) :
    (numbered last contents).Pairwise (·.number < ·.number) ∧
      ∀ line ∈ numbered last contents, last < line.number := by
  induction contents generalizing last with
  | nil => exact ⟨.nil, by simp [numbered]⟩
  | cons content rest ih =>
    obtain ⟨hrest, hlast⟩ := ih (last + 1)
    refine ⟨List.pairwise_cons.mpr ⟨hlast, hrest⟩, List.forall_mem_cons.mpr ⟨?_, ?_⟩⟩
    · exact Int.lt_succ last
    · intro line hline
      have := hlast line hline
      omega

theorem entries_of_blank {line : Line} (h : line.fields = []) : line.entries = [] := by
  rw [entries, h, List.zip_nil_right, List.map_nil]

theorem flatMap_entries_filter (lines : List Line) :
    (lines.filter (!·.fields.isEmpty)).flatMap entries = lines.flatMap entries := by
  induction lines with
  | nil => rfl
  | cons line rest ih =>
    rw [List.filter_cons]
    split
    · rw [List.flatMap_cons, List.flatMap_cons, ih]
    · next hblank =>
      have hblank : line.fields = [] := by simpa using hblank
      rw [List.flatMap_cons, entries_of_blank hblank, List.nil_append, ih]

/-- A line of a source, once it has been written with single spaces, has the same fields. -/
theorem fields_single_text {line : Line} (h : line ∈ tokenize source) (number : Int) :
    (single number line.text).fields = line.fields := by
  rw [single_eq (isOneLine_of_mem_tokenize h).newline_notMem_text]
  obtain ⟨⟨content, index⟩, _, rfl⟩ := List.mem_map.mp (List.mem_filter.mp h).1
  refine fields_joinWith (fun field hfield => ?_) 1
  obtain ⟨found, hfound, rfl⟩ := List.mem_map.mp hfield
  exact isField_of_mem_scan hfound

theorem text_ne_nil {line : Line} (h : line ∈ tokenize source) : line.text ≠ [] := by
  intro hempty
  have hfields := fields_single_text h 0
  rw [hempty] at hfields
  have hblank := (List.mem_filter.mp h).2
  rw [← hfields] at hblank
  exact absurd hblank (by decide +kernel)

/-- Sources are cut exactly, and positions are true.  The fields of all lines together are the
maximal runs of bytes that separate nothing, in their order.  The line number of each counts the
line ends in front of it, and its column the glyphs between the last line end and it.  All runs of
one line are in one place, no line is without a field, every field has a column, and a line that is
written with single spaces and read again has the same fields. -/
theorem tokens_are_runs (source : Text) :
    (∃ runs : List (Text × Text), runs.Pairwise (·.1.length < ·.1.length) ∧
      (∀ run, run ∈ runs ↔ IsRun source run.1 run.2) ∧
      (tokenize source).flatMap entries = runs.map position) ∧
    (tokenize source).Pairwise (·.number < ·.number) ∧
    ∀ line ∈ tokenize source, line.fields ≠ [] ∧ line.columns.length = line.fields.length ∧
      ∀ number, (single number line.text).fields = line.fields := by
  refine ⟨?_, ?_, fun line hline => ⟨?_, ?_, fields_single_text hline⟩⟩
  · obtain ⟨runs, hruns, hentries⟩ := @exists_splits_lines [] source.lines
      (fun _ => Text.newline_notMem_of_mem_lines) rfl
    have hsource : [Text.newline].intercalate source.lines = source :=
      List.intercalate_splitOn Text.newline
    rw [hsource] at hruns
    refine ⟨runs, hruns.pairwise, hruns.mem_iff, ?_⟩
    rw [tokenize_eq, flatMap_entries_filter]
    exact hentries
  · rw [tokenize_eq]
    exact (pairwise_numbered 0 source.lines).1.filter _
  · simpa using (List.mem_filter.mp hline).2
  · obtain ⟨⟨content, index⟩, _, rfl⟩ := List.mem_map.mp (List.mem_filter.mp hline).1
    show ((scan 1 content).map _).length = ((scan 1 content).map _).length
    rw [List.length_map, List.length_map]

end Line

end AccuAsm
