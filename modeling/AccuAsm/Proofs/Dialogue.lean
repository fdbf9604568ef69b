import AccuAsm.Proofs.Displacement
import AccuAsm.Proofs.Listing
import AccuAsm.Proofs.Remarks
import AccuAsm.Session

/-!
# Sessions against whole sources

A source can be translated at once or line by line in a session.  The two ways cut the
text into lines differently, number the lines differently and show the program
differently, but they agree.

There are six groups.

* Texts.  Messages start with a letter (`Fault.startsWithLetter_message`), and so does the
  first line of each.
* Replies.  `Reply.PrintsError` says that a reply tells of a fault.  A reply made of
  `Routine` rows does not.
* Rows.  The rows of instructions start with an address, which has no letter.
* Lines.  `run_eq_feedAll` says that numbering the lines one by one and feeding the blank
  ones too makes no difference.
* Sessions.  `Ready` is what the lines of a session keep.  `Ready.accept` and `Ready.refuse`
  are the step lemmas, `Ready.answers_of_accepted` and `Ready.answers_of_refused` the run
  lemmas.
* Programs.  A finished program is shown as its words (`Coherent.resolve_eq_format`), each
  with its address (`Session.list_eq`).
-/

namespace AccuAsm

/-! ## Texts -/

namespace Text

variable {text row : Text}

/-- Whether a text starts with a letter, as far as ASCII goes. -/
def startsWithLetter (text : Text) : Bool := text.head?.any (64 < ·.toNat)

theorem startsWithLetter_append (h : text.startsWithLetter = true) (more : Text) :
    (text ++ more).startsWithLetter = true := by
  cases text with
  | nil => cases h
  | cons byte rest => exact h

/-- The first line of a text starts with the same letter. -/
theorem startsWithLetter_of_head?_lines (h : text.startsWithLetter = true)
    (hrow : text.lines.head? = some row) : row.startsWithLetter = true := by
  cases text with
  | nil => cases h
  | cons byte rest =>
    have hbyte : byte ≠ newline := by
      rintro rfl
      have : ¬64 < newline.toNat := by decide
      simp [startsWithLetter, this] at h
    obtain ⟨first, others, hfirst⟩ := List.exists_cons_of_ne_nil (List.splitOn_ne_nil newline rest)
    rw [lines, List.splitOn_cons_eq_if_modifyHead, if_neg (by simpa using hbyte), hfirst] at hrow
    obtain rfl : byte :: first = row := Option.some.inj hrow
    exact h

end Text

theorem Diagnostic.startsWithLetter_message (d : Diagnostic) :
    d.message.startsWithLetter = true := by
  have hnote : d.report.note.startsWithLetter = true := by
    show d.complaint.note.startsWithLetter = true
    cases d.complaint <;> rfl
  have hlabel : d.report.category.label.startsWithLetter = true := by
    cases d.report.category <;> rfl
  have hcause : d.report.cause.startsWithLetter = true := by
    unfold Report.cause
    split
    · exact hlabel
    · rw [List.append_assoc]
      exact Text.startsWithLetter_append hnote _
  have hbody : d.report.body.startsWithLetter = true := by
    unfold Report.body
    split
    · exact hcause
    · rw [List.append_assoc, List.append_assoc]
      exact Text.startsWithLetter_append hcause _
  unfold message Report.text
  split
  · rfl
  · exact hbody

theorem Fault.startsWithLetter_message (fault : Fault) : fault.message.startsWithLetter = true := by
  cases fault with
  | nameless u => rfl
  | rejected d => exact d.startsWithLetter_message
  | misplaced m => rfl

/-! ## Replies -/

/-- A line that tells of a fault: the first line of its message. -/
def IsErrorLine (row : Text) : Prop := ∃ fault : Fault, fault.message.lines.head? = some row

/-- A line of the reply tells of a fault. -/
def Reply.PrintsError (r : Reply) : Prop := ∃ row ∈ r.out.lines, IsErrorLine row

theorem Reply.printsError_of_message {r : Reply} {fault : Fault}
    (h : r.out = fault.message ++ [Text.newline]) : r.PrintsError := by
  have hlines : r.out.lines = fault.message.lines ++ [[]] := by
    rw [h]
    exact List.splitOn_append_cons_self fault.message []
  have hne : fault.message.lines ≠ [] := List.splitOn_ne_nil Text.newline fault.message
  obtain ⟨first, others, hfirst⟩ := List.exists_cons_of_ne_nil hne
  refine ⟨first, ?_, fault, ?_⟩
  · rw [hlines, hfirst]
    exact List.mem_cons_self
  · rw [hfirst]
    rfl

/-- A text of rows none of which could be taken for a message. -/
def Routine (text : Text) : Prop := ∃ rows, text = Text.ofRows rows ∧
  ∀ row ∈ rows, Text.newline ∉ row ∧ row.startsWithLetter = false

theorem routine_nil : Routine [] := ⟨[], rfl, by simp⟩

theorem routine_row {row : Text} (hrow : Text.newline ∉ row)
    (hstart : row.startsWithLetter = false) : Routine (row ++ [Text.newline]) := by
  refine ⟨[row], by simp [Text.ofRows], fun other hother => ?_⟩
  rw [List.mem_singleton.mp hother]
  exact ⟨hrow, hstart⟩

theorem Routine.append {text text' : Text} (h : Routine text) (h' : Routine text') :
    Routine (text ++ text') := by
  obtain ⟨rows, rfl, hrows⟩ := h
  obtain ⟨rows', rfl, hrows'⟩ := h'
  refine ⟨rows ++ rows', by rw [Text.ofRows, Text.ofRows, Text.ofRows, List.flatMap_append], ?_⟩
  intro row hrow
  rcases List.mem_append.mp hrow with hrow | hrow
  · exact hrows row hrow
  · exact hrows' row hrow

theorem routine_flatMap {α : Type} {l : List α} {f : α → Text} (h : ∀ a ∈ l, Routine (f a)) :
    Routine (l.flatMap f) := by
  induction l with
  | nil => exact routine_nil
  | cons a rest ih =>
    rw [List.flatMap_cons]
    exact (h a List.mem_cons_self).append (ih fun b hb => h b (List.mem_cons_of_mem _ hb))

theorem Routine.not_printsError {r : Reply} (h : Routine r.out) : ¬r.PrintsError := by
  obtain ⟨rows, hout, hrows⟩ := h
  rintro ⟨row, hrow, fault, hfault⟩
  have hletter := Text.startsWithLetter_of_head?_lines fault.startsWithLetter_message hfault
  rw [hout, Text.lines_ofRows fun row hrow => (hrows row hrow).1, List.mem_append,
    List.mem_singleton] at hrow
  rcases hrow with hrow | rfl
  · rw [(hrows row hrow).2] at hletter
    cases hletter
  · cases hletter

/-! ## Rows -/

namespace Session

variable {s : Session}

/-- The text in front of an instruction: its address, padded. -/
def margin (index : Nat) : Text := (Numeral.ofWord (address (Int64.ofNat index))).padLeft 4 ++ "  "

theorem row_eq (hcolour : s.colour = false) (index : Nat) (content : Text) :
    s.row index content = margin index ++ content ++ [Text.newline] := by
  unfold row margin Style.paint
  rw [hcolour]
  rfl

theorem mem_margin {index : Nat} {byte : UInt8} (h : byte ∈ margin index) :
    byte = Text.space ∨ byte = ascii '-' ∨ Numeral.IsDecimal byte := by
  have hgap : Text.ofString "  " = List.replicate 2 Text.space := by decide
  unfold margin Text.padLeft at h
  rw [hgap, List.mem_append, List.mem_append] at h
  rcases h with (h | h) | h
  · exact .inl (List.eq_of_mem_replicate h)
  · exact .inr (Numeral.mem_decimal h)
  · exact .inl (List.eq_of_mem_replicate h)

theorem newline_notMem_margin (index : Nat) : Text.newline ∉ margin index := by
  intro hmem
  rcases mem_margin hmem with hspace | hsign | hdigit
  · exact absurd hspace (by decide)
  · exact absurd hsign (by decide)
  · exact absurd hdigit (by decide)

theorem startsWithLetter_margin (index : Nat) (content : Text) :
    (margin index ++ content).startsWithLetter = false := by
  have hne : margin index ≠ [] := by
    unfold margin
    simp [Text.ofString]
  obtain ⟨first, rest, hfirst⟩ := List.exists_cons_of_ne_nil hne
  have hbyte : first.toNat ≤ 64 := by
    rcases mem_margin (hfirst ▸ List.mem_cons_self) with rfl | rfl | hdigit
    · decide
    · decide
    · unfold Numeral.IsDecimal at hdigit
      omega
  rw [hfirst]
  simpa [Text.startsWithLetter] using hbyte

end Session

theorem Program.newline_notMem_format {p : Program} {i : Instr} (h : Text.newline ∉ i.comment) :
    Text.newline ∉ p.format i := by
  have hoperand (operand : Operand) : Text.newline ∉ p.formatOperand operand := by
    intro hmem
    rcases Translator.mem_formatOperand hmem with hquestion | hsign | hdigit
    · exact absurd hquestion (by decide)
    · exact absurd hsign (by decide)
    · exact absurd hdigit (by decide)
  have hopcode : Text.newline ∉ Numeral.ofWord i.opcode := hoperand (.literal i.opcode)
  have hmark : Text.newline ∉ Text.ofString " ; " := by decide
  have hspace : Text.newline ≠ Text.space := by decide
  unfold format renderFields Args.map Args.toList
  simp [hopcode, hoperand, hspace, hmark, h]

/-! ## Lines -/

namespace Translator

variable {t t' : Translator}

theorem feed_blank {line : Line} (h : line.fields = []) : t.feed line = (.ok [], t) := by
  have hrun : (process line).on t = (.ok [], t) := by
    rw [process, Step.on_get_bind, h]
    rfl
  rw [feed, hrun]
  exact Prod.ext rfl (emit_nil t line)

theorem feedAll_filter (lines : List Line) :
    t.feedAll (lines.filter (!·.fields.isEmpty)) = t.feedAll lines := by
  induction lines generalizing t with
  | nil => rfl
  | cons line rest ih =>
    by_cases hblank : line.fields = []
    · rw [List.filter_cons_of_neg (by simp [hblank]), ih, feedAll, feed_blank hblank]
    · rw [List.filter_cons_of_pos (by simpa using hblank), feedAll, feedAll]
      split
      · exact ih
      · rfl

/-- Blank lines can be fed as well. -/
theorem run_eq_feedAll (t : Translator) (source : Text) :
    t.run source = t.feedAll (Line.numbered 0 source.lines) := by
  rw [run, Line.tokenize_eq, feedAll_filter]

end Translator

/-! ## Sessions -/

namespace Session

variable {s : Session} {t : Translator} {content : Text} {contents : List Text}

/-- What a session answers to lines of input, one after the other. -/
def answers (s : Session) : List Text → List Reply
  | [] => []
  | content :: rest => s.handle content :: (s.handle content).session.answers rest

/-- The session behind lines of input. -/
def after (s : Session) : List Text → Session
  | [] => s
  | content :: rest => (s.handle content).session.after rest

/-- A line of a source that is no command. -/
def IsStatement (content : Text) : Prop :=
  content.head? ≠ some (ascii ':') ∧ Text.newline ∉ content

theorem handle_eq_statement (h : content.head? ≠ some (ascii ':')) :
    s.handle content = s.statement content := by
  have hother {command : Text} (hcommand : command.head? = some (ascii ':')) :
      content ≠ command := by
    rintro rfl
    exact h hcommand
  unfold handle
  rw [if_neg, if_neg, if_neg, if_neg, if_neg, if_neg h]
  · exact hother (by decide)
  · exact hother (by decide)
  · exact hother (by decide)
  · exact hother (by decide)
  · exact not_or.mpr ⟨hother (by decide), hother (by decide)⟩

/-- What the lines of a session keep. -/
structure Ready (s : Session) : Prop where
  colour : s.colour = false
  seated : s.translator.Seated
  remarked : s.translator.Remarked

theorem Ready.routine_rows {instrs : List Instr} (h : Ready s)
    (hinstrs : ∀ i ∈ instrs, Text.newline ∉ i.comment) : Routine (s.rows instrs) := by
  refine routine_flatMap fun i hi => ?_
  rw [row_eq h.colour]
  refine routine_row ?_ (startsWithLetter_margin _ _)
  rw [List.mem_append, not_or]
  exact ⟨newline_notMem_margin _, Program.newline_notMem_format (hinstrs i hi)⟩

theorem Ready.routine_insertedRow (h : Ready s) (inserted : Nat) :
    Routine (s.insertedRow inserted) := by
  unfold insertedRow
  split
  · exact routine_nil
  · have hdigits : Text.newline ∉ Numeral.ofNat inserted := by
      intro hmem
      exact absurd (Numeral.mem_inBase hmem) (by decide)
    have hfront : Text.newline ∉ Text.ofString "  " := by decide
    have hback : Text.newline ∉ Text.ofString
        " skip jump inserted, addresses after it moved; :list shows the program" := by decide
    rw [Style.paint, h.colour]
    refine routine_row ?_ rfl
    simp [hfront, hdigits, hback]

/-- The session behind a line that leaves the translator in another state. -/
def next (s : Session) (t : Translator) : Session := { s with translator := t, line := s.line + 1 }

/-- A line that is accepted is answered without an error. -/
theorem Ready.accept {instrs : List Instr} (h : Ready s) (hcontent : IsStatement content)
    (hfeed : s.translator.feed (.ofText (s.line + 1) content) = (.ok instrs, t)) :
    ¬(s.handle content).PrintsError ∧ (s.handle content).session = s.next t ∧ Ready (s.next t) := by
  have hready : Ready (s.next t) :=
    ⟨h.colour, h.seated.feed hfeed, h.remarked.feed (Line.isOneLine_ofText _ _) hfeed⟩
  have hinstrs : ∀ i ∈ instrs, i ∈ t.program.code.toList := by
    obtain ⟨ops, before, _, hemit⟩ := Translator.feed_ok hfeed
    obtain ⟨rfl, rfl⟩ := Prod.mk.inj hemit
    intro i hi
    rw [Program.toList_append]
    exact List.mem_append_right _ hi
  rw [handle_eq_statement hcontent.1, statement, Line.single_eq hcontent.2, hfeed]
  refine ⟨Routine.not_printsError ?_, rfl, hready⟩
  refine Routine.append ?_ (hready.routine_insertedRow _)
  exact hready.routine_rows fun i hi => hready.remarked.program i (hinstrs i hi)

/-- A line that is refused is answered with the message. -/
theorem Ready.refuse {fault : Fault} (h : Ready s) (hcontent : IsStatement content)
    (hfeed : s.translator.feed (.ofText (s.line + 1) content) = (.error fault, t)) :
    (s.handle content).out = fault.message ++ [Text.newline] ∧
      (s.handle content).session = s.next t := by
  rw [handle_eq_statement hcontent.1, statement, Line.single_eq hcontent.2, hfeed]
  refine ⟨?_, rfl⟩
  show Style.red.paint s.colour fault.message ++ "\n" = _
  rw [h.colour]
  rfl

/-- A session answers lines that are all accepted without an error, and follows the translator. -/
theorem Ready.answers_of_accepted (h : Ready s) (hcontents : ∀ c ∈ contents, IsStatement c)
    (hrun : s.translator.feedAll (Line.numbered s.line contents) = (.ok (), t)) :
    (∀ r ∈ s.answers contents, ¬r.PrintsError) ∧ (s.after contents).translator = t ∧
      Ready (s.after contents) := by
  induction contents generalizing s with
  | nil =>
    obtain ⟨_, rfl⟩ := Prod.mk.inj hrun
    exact ⟨by simp [answers], rfl, h⟩
  | cons content rest ih =>
    obtain ⟨hcontent, hrest⟩ := List.forall_mem_cons.mp hcontents
    obtain ⟨instrs, u, hfeed, hrun⟩ := Translator.feedAll_cons_ok hrun
    obtain ⟨hcalm, hsession, hready⟩ := h.accept hcontent hfeed
    obtain ⟨hothers, hafter⟩ := @ih (s.next u) hready hrest hrun
    rw [answers, after, hsession]
    exact ⟨List.forall_mem_cons.mpr ⟨hcalm, hothers⟩, hafter⟩

/-- The first line that is refused is the first one that is answered with an error. -/
theorem Ready.answers_of_refused {fault : Fault} (h : Ready s)
    (hcontents : ∀ c ∈ contents, IsStatement c)
    (hrun : s.translator.feedAll (Line.numbered s.line contents) = (.error fault, t)) :
    ∃ front r back d, s.answers contents = front ++ r :: back ∧
      (∀ q ∈ front, ¬q.PrintsError) ∧ fault = .rejected d ∧ d.line = s.line + front.length + 1 ∧
      r.out = d.message ++ [Text.newline] ∧ r.session.translator = t := by
  induction contents generalizing s with
  | nil => cases (Prod.mk.inj hrun).1
  | cons content rest ih =>
    obtain ⟨hcontent, hrest⟩ := List.forall_mem_cons.mp hcontents
    rw [Line.numbered, Translator.feedAll] at hrun
    split at hrun
    · next instrs u hfeed =>
      obtain ⟨hcalm, hsession, hready⟩ := h.accept hcontent hfeed
      obtain ⟨front, r, back, d, hanswers, hfront, hd, hline, hout⟩ :=
        @ih (s.next u) hready hrest hrun
      refine ⟨s.handle content :: front, r, back, d, ?_, ?_, hd, ?_, hout⟩
      · rw [answers, hsession, hanswers, List.cons_append]
      · exact List.forall_mem_cons.mpr ⟨hcalm, hfront⟩
      · rw [hline, List.length_cons, next]
        push_cast
        omega
    · next cause u hfeed =>
      obtain ⟨hcause, rfl⟩ := Prod.mk.inj hrun
      obtain rfl : cause = fault := Except.error.inj hcause
      obtain ⟨d, rfl, hline⟩ := h.seated.refused_at_line hfeed
      obtain ⟨hout, hsession⟩ := h.refuse hcontent hfeed
      refine ⟨[], s.handle content, _, d, rfl, by simp, rfl, ?_, hout, by rw [hsession]; rfl⟩
      rw [hline]
      simp [Line.ofText]

end Session

/-! ## Programs -/

namespace Program

variable {p : Program} {i : Instr}

theorem formatOperand_eq {operand : Operand} {n : Int64} (h : operand.at? p.place? = some n) :
    p.formatOperand operand = Numeral.ofWord n := by
  cases operand with
  | literal m =>
    obtain rfl : m = n := Option.some.inj h
    rfl
  | pending => cases h
  | target place =>
    have haddress : p.addressOf? place = some n := h
    rw [formatOperand, haddress]

/-- An instruction whose operands are known is shown as its word. -/
theorem exists_word (h : ∀ field, ∃ n, (i.args.get field).at? p.place? = some n) :
    ∃ w, i.word? p.place? = some w ∧ w.text = p.format i := by
  obtain ⟨left, hleft⟩ : ∃ n, i.args.left.at? p.place? = some n := h .left
  obtain ⟨right, hright⟩ : ∃ n, i.args.right.at? p.place? = some n := h .right
  obtain ⟨dest, hdest⟩ : ∃ n, i.args.dest.at? p.place? = some n := h .dest
  refine ⟨⟨i.opcode, ⟨left, right, dest⟩, i.line, i.comment⟩, ?_, ?_⟩
  · simp [Instr.word?, Op.word?, hleft, hright, hdest]
  · rw [Word.text, format, Args.map, Args.map, formatOperand_eq hleft, formatOperand_eq hright,
      formatOperand_eq hdest]

theorem exists_words {code : List Instr}
    (h : ∀ i ∈ code, ∀ field, ∃ n, (i.args.get field).at? p.place? = some n) :
    ∃ words : List Word, code.map (·.word? p.place?) = words.map some ∧
      words.map Word.text = code.map p.format := by
  induction code with
  | nil => exact ⟨[], rfl, rfl⟩
  | cons i rest ih =>
    obtain ⟨w, hword, htext⟩ := exists_word (h i List.mem_cons_self)
    obtain ⟨words, hwords, htexts⟩ := ih fun j hj => h j (List.mem_cons_of_mem _ hj)
    refine ⟨w :: words, ?_, ?_⟩
    · rw [List.map_cons, List.map_cons, hword, hwords]
    · rw [List.map_cons, List.map_cons, htext, htexts]

end Program

/-- Once all blocks are closed the program has words, and is shown as they are. -/
theorem Translator.Coherent.resolve_eq_format {t : Translator} {history : List Transition}
    (h : Coherent t history) (hclosed : t.openBlocks = []) :
    ∃ words, t.program.resolve = .ok words ∧ words.map Word.text = t.program.formatAll := by
  have hknown : ∀ i ∈ t.program.code.toList, ∀ field,
      ∃ n, (i.args.get field).at? t.program.place? = some n := by
    intro i hi field
    cases hoperand : i.args.get field with
    | literal n => exact ⟨n, rfl⟩
    | pending => exact absurd hoperand (h.operand_ne_pending hi field)
    | target place =>
      refine Option.ne_none_iff_exists'.mp fun hnone => ?_
      obtain ⟨_, _, b, hb, _⟩ := (h.unresolved_iff hi hoperand).mp hnone
      simp [hclosed] at hb
  obtain ⟨words, hwords, htexts⟩ := Program.exists_words hknown
  exact ⟨words, Program.resolve_eq hwords, htexts⟩

theorem Session.margin_eq (index : Nat) :
    margin index = (Numeral.ofWord (Int64.ofNat (4 * index))).padLeft 4 ++ "  " := by
  rw [margin, address, ← Int64.ofNat_mul, Nat.mul_comm]
  rfl

/-- A row for each text, with the address of its instruction in front. -/
def withAddresses (texts : List Text) : Text :=
  texts.zipIdx.flatMap fun (text, i) =>
    (Numeral.ofWord (Int64.ofNat (4 * i))).padLeft 4 ++ "  " ++ text ++ "\n"

/-- Instructions are listed in their order, each with its address. -/
theorem Session.list_eq {s : Session} (hcolour : s.colour = false)
    (hnodup : s.translator.serials.Nodup) :
    s.list = withAddresses s.translator.program.formatAll := by
  unfold list rows Program.formatAll withAddresses
  conv_lhs => rw [← List.zipIdx_map_fst 0 s.translator.program.code.toList]
  rw [List.flatMap_map, List.zipIdx_map, List.flatMap_map]
  refine List.flatMap_congr fun ⟨i, index⟩ hentry => ?_
  have hi := List.mem_zipIdx_iff_getElem?.mp hentry
  have hindex : s.translator.program.indexOf? i.serial = some index := by
    rw [← Program.place?_eq_indexOf? hnodup]
    exact Program.place?_eq hnodup hi
  dsimp only
  rw [hindex, row_eq hcolour, margin_eq]
  rfl

/-- The listing of a source that is translated to its end. -/
theorem listing_eq_ok {config : Config} {source : Text} {t : Translator} {program : Program}
    {words : List Word} (hstart : Translator.start config = .ok (.new config))
    (hrun : (Translator.new config).run source = (.ok (), t)) (hfinish : t.finish = .ok program)
    (hresolve : t.program.resolve = .ok words) :
    listing config source = .ok (words.map Word.text) := by
  have htranslate : translate config source = .ok t := by
    simp [translate, hstart, bind, Except.bind, hrun, hfinish]
  have hcompile : compile config source = .ok (t, words) := by
    simp [compile, htranslate, bind, Except.bind, hresolve, pure, Except.pure]
  rw [listing, hcompile]
  rfl

theorem Session.start_ok {config : Config} {colour : Bool} {s : Session}
    (h : start config colour = .ok s) :
    Translator.start config = .ok (.new config) ∧ s = new config colour := by
  unfold start Translator.start at h
  unfold Translator.start
  split at h
  · have hs : new config colour = s := Except.ok.inj h
    exact ⟨rfl, hs.symm⟩
  · cases h

theorem Session.ready_new (config : Config) : Ready (new config false) where
  colour := rfl
  seated := Translator.seated_new config
  remarked := Translator.remarked_new config

/-- A session and the translation of a whole source agree.  Give the lines of a source to a new
session, blank ones among them, where none is a command.  If the source is accepted, no error is
printed, and if all its blocks are closed, the session lists the program as it is compiled, with the
addresses in front.  If it is refused, the first line that is answered with an error is the one that
the diagnostic names.  The answer is its message, and the session is where the translation
stopped. -/
theorem session_follows_run (config : Config) (source : Text) (s : Session)
    (hstart : Session.start config false = .ok s)
    (hsource : ∀ content ∈ source.lines, content.head? ≠ some (ascii ':')) :
    (∀ t, (Translator.new config).run source = (.ok (), t) →
      (∀ r ∈ s.answers source.lines, ¬r.PrintsError) ∧
        (s.after source.lines).translator = t ∧
        ∀ program, t.finish = .ok program → ∃ texts, listing config source = .ok texts ∧
          ((s.after source.lines).handle ":list").out = withAddresses texts) ∧
    ∀ fault t, (Translator.new config).run source = (.error fault, t) →
      ∃ front r back d, s.answers source.lines = front ++ r :: back ∧
        (∀ q ∈ front, ¬q.PrintsError) ∧ r.PrintsError ∧
        fault = .rejected d ∧ d.line = front.length + 1 ∧
        r.out = d.message ++ "\n" ∧ r.session.translator = t := by
  obtain ⟨hnew, rfl⟩ := Session.start_ok hstart
  have hready := Session.ready_new config
  have hcontents : ∀ c ∈ source.lines, Session.IsStatement c :=
    fun c hc => ⟨hsource c hc, Text.newline_notMem_of_mem_lines hc⟩
  constructor
  · intro t hrun
    have hfeed := (Translator.run_eq_feedAll _ source).symm.trans hrun
    obtain ⟨hcalm, hafter, hready'⟩ := hready.answers_of_accepted hcontents hfeed
    refine ⟨hcalm, hafter, fun program hfinish => ?_⟩
    have hreach := Translator.feedEach_of_feedAll hfeed
    have hcoherent := Translator.coherent_feedEach config (Line.numbered 0 source.lines)
    rw [hreach] at hcoherent
    have hclosed := (hafter ▸ hready'.seated).openBlocks_of_finish hfinish
    obtain ⟨words, hresolve, htexts⟩ := hcoherent.resolve_eq_format hclosed
    refine ⟨_, listing_eq_ok hnew hrun hfinish hresolve, ?_⟩
    show Session.list _ = _
    rw [Session.list_eq hready'.colour (hafter ▸ hcoherent.traced.nodup), hafter, htexts]
  · intro fault t hrun
    have hfeed := (Translator.run_eq_feedAll _ source).symm.trans hrun
    obtain ⟨front, r, back, d, hanswers, hfront, rfl, hline, hout, htranslator⟩ :=
      hready.answers_of_refused hcontents hfeed
    refine ⟨front, r, back, d, hanswers, hfront, ?_, rfl, ?_, hout, htranslator⟩
    · exact @Reply.printsError_of_message r (.rejected d) hout
    · rw [hline]
      simp [Session.new]

/-- A source with a blank line in a block, and one that is refused behind a blank line. -/
theorem session_follows_two_runs :
    let accepted : Text := "DEF f\n\nSET $a 3\nENDDEF\nCALL f"
    let refused : Text := "SET $a 1\n\n ADD $a $b $a\n"
    let s := Session.new {} false
    (∃ texts, listing {} accepted = .ok texts ∧
        ((s.after accepted.lines).handle ":list").out = withAddresses texts) ∧
      ∃ front r back, s.answers refused.lines = front ++ r :: back ∧ front.length = 2 ∧
        r.out = Text.ofString
          "line 3:2: variable b is not declared: unresolved symbol (\"$b\")\n" := by
  intro accepted refused s
  have hstart : Session.start {} false = .ok s := eq_ok_of_toOption (by decide +kernel)
  constructor
  · have hrun : (Translator.new {}).run accepted = (.ok (), ((Translator.new {}).run accepted).2) :=
      Prod.ext (eq_ok_of_toOption (by decide +kernel)) rfl
    have hfinish : ((Translator.new {}).run accepted).2.finish =
        .ok ((Translator.new {}).run accepted).2.program := eq_ok_of_toOption (by decide +kernel)
    obtain ⟨_, _, hlist⟩ := (session_follows_run {} accepted s hstart (by decide +kernel)).1 _ hrun
    exact hlist _ hfinish
  · have hrun : (Translator.new {}).run refused = (.error (.rejected
        { complaint := .undeclared "b", token := "$b", line := 3, column := 2 }),
          ((Translator.new {}).run refused).2) := by
      refine Prod.ext ?_ rfl
      decide +kernel
    obtain ⟨front, r, back, d, hanswers, _, _, hd, hline, hout, _⟩ :=
      (session_follows_run {} refused s hstart (by decide +kernel)).2 _ _ hrun
    obtain rfl := Fault.rejected.inj hd
    refine ⟨front, r, back, hanswers, ?_, hout.trans ?_⟩
    · have hline : (3 : Int) = front.length + 1 := hline
      omega
    · decide +kernel

end AccuAsm
