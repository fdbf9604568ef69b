import AccuAsm.Proofs.Displacement
import AccuAsm.Proofs.Listing
import AccuAsm.Proofs.Remarks
import AccuAsm.Proofs.Sources

/-!
# Annotated programs

A translator that annotates puts the text of each statement on the first instruction that the
statement emits, and a remark on each jump over a block.  This module says that these are all the
comments there are, and that nothing else depends on them.

There are four groups.

* Comments.  `Transition.comments` is what an accepted line brings.  A jump over a block waits
  for its place with its comment, so `noted` counts the comments of the program and those of the
  jumps that wait.  `noted_of_feed` is the step lemma and `noted_feedEach` the run lemma.
* Words.  `map_comment_of_resolve` carries the comments over to the words of a program.
* Images.  `Image.pack_bare` and `Image.assemble_bare` say that comments have no bearing on them.
* Annotations.  `compile_bare` says that the plain translation is the annotated one without its
  comments, and `comments_of_compile` which comments these are.
-/

namespace AccuAsm

/-! ## Comments -/

/-- The comments of the instructions that have one, with the numbers of the instructions. -/
def commentsOf (instrs : List Instr) : List (Nat × Text) :=
  (instrs.map fun i => (i.serial, i.comment)).filter (·.2 ≠ [])

/-- The comment of the jump over a block that a statement opens. -/
def BlockKind.comment (line : Line) : BlockKind → Text
  | .definition => "skip DEF " ++ (line.fields.getD 1 [] : Text)
  | .condition => "skip IF"

theorem BlockKind.comment_ne_nil (kind : BlockKind) (line : Line) : kind.comment line ≠ [] := by
  cases kind <;> exact List.cons_ne_nil _ _

theorem commentsOf_append (front back : List Instr) :
    commentsOf (front ++ back) = commentsOf front ++ commentsOf back := by
  rw [commentsOf, List.map_append, List.filter_append]
  rfl

/-- Instructions count by their numbers and comments alone, in any order. -/
theorem commentsOf_perm {instrs others : List Instr}
    (h : (instrs.map fun i => (i.serial, i.comment)).Perm
      (others.map fun i => (i.serial, i.comment))) :
    (commentsOf instrs).Perm (commentsOf others) :=
  h.filter _

theorem commentsOf_cons {i : Instr} (h : i.comment ≠ []) (rest : List Instr) :
    commentsOf (i :: rest) = (i.serial, i.comment) :: commentsOf rest :=
  List.filter_cons_of_pos (decide_eq_true h)

namespace Translator

variable {t t' : Translator} {line : Line} {emitted : List Instr}

/-- The comment for the jump over the block that a line opened, if it opened one. -/
def Transition.openingComments (s : Transition) : List (Nat × Text) :=
  s.opened?.toList.map fun b => (b.skip, b.kind.comment s.line)

/-- The comments that an accepted line brings: its text, for the first instruction that it emitted,
and that of the jump over the block that it opened. -/
def Transition.comments (s : Transition) : List (Nat × Text) :=
  s.emitted.head?.toList.map (fun i => (i.serial, s.line.text)) ++ s.openingComments

/-- The jumps over open blocks, which wait for their place in the program. -/
def drafts (t : Translator) : List Instr :=
  t.openRecords (·.skip) ++ t.conditions.stack.map (·.skip)

/-- The comments of the program and of the jumps that wait. -/
def noted (t : Translator) : List (Nat × Text) := commentsOf (t.program.code.toList ++ t.drafts)

theorem commentsOf_number_nil (serial : Nat) (n : Int) (ops : List Op) :
    commentsOf (number serial n [] ops) = [] := by
  induction ops generalizing serial with
  | nil => rfl
  | cons op rest ih => exact ih (serial + 1)

/-- The comment of a statement goes to its first instruction. -/
theorem commentsOf_number {comment : Text} (h : comment ≠ []) (serial : Nat) (n : Int)
    (ops : List Op) :
    commentsOf (number serial n comment ops) =
      (number serial n comment ops).head?.toList.map fun i => (i.serial, comment) := by
  cases ops with
  | nil => rfl
  | cons op rest =>
    rw [number, commentsOf_cons h, commentsOf_number_nil]
    rfl

theorem noted_emit (t : Translator) (line : Line) (ops : List Op) :
    (t.emit line ops).2.noted.Perm (t.noted ++ commentsOf (t.emit line ops).1) := by
  have hcode : (t.emit line ops).2.program.code.toList =
      t.program.code.toList ++ (t.emit line ops).1 := Program.toList_append _ _
  have hdrafts : (t.emit line ops).2.drafts = t.drafts := rfl
  rw [noted, hcode, hdrafts, noted, ← commentsOf_append]
  apply commentsOf_perm
  apply List.Perm.map
  rw [List.append_assoc, List.append_assoc]
  exact List.perm_append_comm.append_left _

/-- A jump that waits keeps its number and its comment when it is placed. -/
theorem noted_of_placed (skip : Instr) {jump : Instr} {site : Int} {program : Program}
    (hinsert : t.program.insert site jump = .ok program)
    (hjump : (jump.serial, jump.comment) = (skip.serial, skip.comment))
    (hdrafts : t.drafts.Perm (skip :: t'.drafts)) (hprogram : t'.program = program) :
    t'.noted.Perm t.noted := by
  obtain ⟨_, hhigh, hcode⟩ := Program.insert_ok hinsert
  have hplaced := List.perm_insertIdx jump t.program.code.toList (Program.toNat_le_length hhigh)
  apply commentsOf_perm
  rw [hprogram, hcode]
  refine ((hplaced.append_right t'.drafts).map _).trans ?_
  rw [List.cons_append, List.map_cons, hjump]
  show (List.map (fun i : Instr => (i.serial, i.comment)) (skip :: (_ ++ _))).Perm _
  refine List.Perm.map _ (List.Perm.trans ?_ (hdrafts.append_left t.program.code.toList).symm)
  exact List.perm_middle.symm

theorem annotation_eq (h : t.config.annotate = true) (comment : Text) :
    t.annotation comment = comment := if_pos h

/-- A jump that is written down brings its comment. -/
theorem noted_of_opens {b : Block} {skip : Instr} (hstacked : Stacked t)
    (hopen : t'.openBlocks.Perm (b :: t.openBlocks)) (hb : b.skip = t.nextSerial)
    (hserial : skip.serial = b.skip) (hcomment : skip.comment = b.kind.comment line)
    (hdrafts : t'.drafts.Perm (skip :: t.drafts)) (hprogram : t'.program = t.program) :
    t'.noted.Perm (t.noted ++ (Transition.mk t line emitted t').openingComments) := by
  have hfront : (t'.program.code.toList ++ t'.drafts).Perm
      (skip :: (t.program.code.toList ++ t.drafts)) := by
    rw [hprogram]
    exact (hdrafts.append_left _).trans List.perm_middle
  have hnoted : t'.noted.Perm (commentsOf (skip :: (t.program.code.toList ++ t.drafts))) :=
    commentsOf_perm (hfront.map _)
  rw [Transition.openingComments, hstacked.opened?_of_opens hopen hb]
  rw [commentsOf_cons (hcomment ▸ b.kind.comment_ne_nil line), hserial, hcomment] at hnoted
  exact hnoted.trans (List.perm_append_singleton _ _).symm

theorem noted_of_keeps (hopen : ∀ b ∈ t'.openBlocks, b ∈ t.openBlocks)
    (hnoted : t'.noted.Perm t.noted) :
    t'.noted.Perm (t.noted ++ (Transition.mk t line emitted t').openingComments) := by
  rw [Transition.openingComments, opened?_of_subset hopen, Option.toList_none, List.map_nil,
    List.append_nil]
  exact hnoted

/-- What a statement does to the comments before its instructions are put at the end. -/
theorem noted_of_effect {ops : List Op} {next : Translator} (hseated : Seated t)
    (hstacked : Stacked t) (hannotate : t.config.annotate = true)
    (heffect : Effect t line ops next) (emitted : List Instr) :
    next.noted.Perm (t.noted ++ (Transition.mk t line emitted next).openingComments) := by
  cases heffect with
  | names change memory => exact noted_of_keeps (fun b hb => hb) (.refl _)
  | @define keyword name rest hk hfields =>
    let skip : Instr := t.skip line.number ("skip DEF " ++ name)
    have hcomment : skip.comment = BlockKind.definition.comment line := by
      rw [BlockKind.comment, hfields]
      exact annotation_eq hannotate _
    refine noted_of_opens (b := (t.newDefinition line.number name skip).block) hstacked ?_ rfl rfl
      hcomment ?_ rfl
    · exact openBlocks_perm_of_opens (hseated.openOf_defined line name) rfl
    · rw [drafts, hseated.openRecords_defined]
      exact .refl _
  | @condition keyword comparison left right rest code a b =>
    let skip : Instr := t.skip line.number "skip IF"
    have hcomment : skip.comment = BlockKind.condition.comment line := annotation_eq hannotate _
    refine noted_of_opens (b := (t.newCondition line.number
      (t.set.branchOps code a b (.target (.after t.nextSerial))).length skip).block) hstacked ?_
      rfl rfl hcomment ?_ rfl
    · exact openBlocks_perm_of_opens rfl rfl
    · exact List.perm_middle
  | @endDefine d position rest program hk hstack hrecord hdepth hinsert =>
    have hopen := openOf_endedDefinition hstack hrecord program
    apply noted_of_keeps
    · intro b hb
      have hperm := openBlocks_perm_of_closes (b := d.block) hopen rfl
      exact hperm.mem_iff.mpr (List.mem_cons_of_mem _ hb)
    · apply noted_of_placed d.skip hinsert rfl _ rfl
      rw [drafts, openRecords_endedDefinition hstack hrecord program rfl]
      exact .refl _
  | @endCondition c rest program hk hstack hdepth hinsert =>
    have hopen : t.openOf .condition = c.block :: rest.map Condition.block := by
      rw [openOf, hstack, List.map_cons]
    apply noted_of_keeps
    · intro b hb
      have hperm := openBlocks_perm_of_closes (b := c.block)
        (show _ = _ :: (t.endedCondition rest program).openOf .condition from hopen) rfl
      exact hperm.mem_iff.mpr (List.mem_cons_of_mem _ hb)
    · apply noted_of_placed c.skip hinsert rfl _ rfl
      rw [drafts, hstack]
      exact List.perm_middle

/-- What one accepted line does to the comments. -/
theorem noted_of_feed (hseated : Seated t) (hstacked : Stacked t)
    (hannotate : t.config.annotate = true) (hline : line.text ≠ [])
    (hfeed : t.feed line = (.ok emitted, t')) :
    t'.noted.Perm (t.noted ++ (Transition.mk t line emitted t').comments) := by
  obtain ⟨ops, next, hrun, hemit⟩ := feed_ok hfeed
  obtain ⟨rfl, rfl⟩ : emitted = (next.emit line ops).1 ∧ t' = (next.emit line ops).2 := by
    rw [hemit]
    exact ⟨rfl, rfl⟩
  have heffect := effect_of_process hrun
  have hconfig : next.config = t.config := by
    cases heffect <;> rfl
  have hemitted : commentsOf (next.emit line ops).1 =
      (next.emit line ops).1.head?.toList.map fun i => (i.serial, line.text) := by
    rw [emit, annotation_eq (hconfig ▸ hannotate)]
    exact commentsOf_number hline _ _ _
  have hnext : next.noted.Perm (t.noted ++
      (Transition.mk t line (next.emit line ops).1 (next.emit line ops).2).openingComments) :=
    noted_of_effect hseated hstacked hannotate heffect (next.emit line ops).1
  refine (noted_emit next line ops).trans ((hnext.append_right _).trans ?_)
  rw [hemitted, Transition.comments, List.append_assoc]
  exact List.perm_append_comm.append_left _

/-- Lines that are all accepted are the lines of the history. -/
theorem map_line_transitions {lines : List Line} (h : t.feedAll lines = (.ok (), t')) :
    (t.transitions lines).map (·.line) = lines := by
  induction lines generalizing t with
  | nil => rfl
  | cons line rest ih =>
    obtain ⟨emitted, next, hfeed, hrest⟩ := feedAll_cons_ok h
    rw [transitions, hfeed]
    exact congrArg (line :: ·) (ih hrest)

/-- The comments behind a run are those that its lines have brought. -/
theorem noted_feedEach {config : Config} (hannotate : config.annotate = true) (lines : List Line)
    (hlines : ∀ s ∈ (new config).transitions lines, s.line.text ≠ []) :
    ((new config).feedEach lines).noted.Perm
      (((new config).transitions lines).flatMap Transition.comments) := by
  have hrun := @run_induction (fun t history => t.config.annotate = true ∧
    ((∀ s ∈ history, s.line.text ≠ []) → t.noted.Perm (history.flatMap Transition.comments)))
    config ⟨hannotate, fun _ => .refl _⟩ ?_ lines
  · exact hrun.2 hlines
  · intro t t' line emitted history hseated hstacked hmotive hfeed
    obtain ⟨hannotate, hnoted⟩ := hmotive
    refine ⟨(feed_config hfeed).symm ▸ hannotate, fun htexts => ?_⟩
    have hline : line.text ≠ [] := htexts _ (List.mem_append_right _ List.mem_cons_self)
    have hbefore := hnoted fun s hs => htexts s (List.mem_append_left _ hs)
    rw [List.flatMap_append, List.flatMap_singleton]
    exact (noted_of_feed hseated hstacked hannotate hline hfeed).trans (hbefore.append_right _)

theorem drafts_eq_nil (h : t.openBlocks = []) : t.drafts = [] := by
  have hskips : t.drafts.map (·.serial) = t.openBlocks.map (·.skip) := by
    rw [drafts, openBlocks, List.map_append, List.map_append, openOf, openOf, openRecords,
      openRecords, List.map_filterMap, List.map_filterMap, List.map_map, List.map_map]
    simp only [Option.map_map]
    rfl
  rw [h] at hskips
  exact List.map_eq_nil_iff.mp hskips

end Translator

/-! ## Words -/

/-- The word without its comment. -/
def Word.bare (w : Word) : Word := { w with comment := [] }

/-- The words have the comments of the instructions, one by one. -/
theorem map_comment_of_resolve {p : Program} {words : List Word} (h : p.resolve = .ok words) :
    words.map (·.comment) = p.code.toList.map (·.comment) := by
  have hall : List.Forall₂ (fun (entry : Instr × Nat) w => entry.1.comment = w.comment)
      p.code.toList.zipIdx words := by
    refine (forall₂_of_mapM_ok h).imp fun entry w hword => ?_
    obtain ⟨args, _, hword⟩ := exists_of_bind_ok hword
    rw [← Except.ok.inj hword]
  have hmap : p.code.toList.zipIdx.map (fun entry => entry.1.comment) = words.map (·.comment) := by
    rw [← List.forall₂_eq_eq_eq, List.forall₂_map_left_iff, List.forall₂_map_right_iff]
    exact hall
  calc words.map (·.comment)
      = (p.code.toList.zipIdx.map Prod.fst).map (·.comment) := hmap.symm.trans List.map_map.symm
    _ = p.code.toList.map (·.comment) := by rw [List.zipIdx_map_fst]

/-! ## Images -/

namespace Image

theorem pack_bare (words : List Word) : pack (words.map Word.bare) = pack words := by
  unfold pack
  rw [List.zipIdx_map, List.foldlM_map]
  rfl

theorem assemble_bare {words : List Word} (h : ∀ w ∈ words, Text.newline ∉ w.comment) :
    assemble (listingText (words.map Word.bare)) = assemble (listingText words) := by
  have hbare : ∀ w ∈ words.map Word.bare, Text.newline ∉ w.comment := by
    intro w hw
    obtain ⟨original, _, rfl⟩ := List.mem_map.mp hw
    exact List.not_mem_nil
  have hline (image : Image) (n : Nat) (w : Word) :
      image.addLine n w.bare.text = image.addLine n w.text := by
    unfold addLine
    rw [listingFields_text, listingFields_text]
    rfl
  unfold assemble
  rw [lines_listingText hbare, lines_listingText h, List.map_map, List.zipIdx_append,
    List.zipIdx_append, List.zipIdx_map, List.zipIdx_map, List.foldlM_append, List.foldlM_append,
    List.foldlM_map, List.foldlM_map, List.length_map, List.length_map]
  simp only [Function.comp_apply, Prod.map_fst, Prod.map_snd, hline]

end Image

/-! ## Annotations -/

/-- The view that leaves comments out. -/
def View.bare : View where
  places := true
  remarks := false

theorem View.outcome_bare (found : Except Fault (List Word)) :
    View.bare.outcome found = found.map (List.map Word.bare) := by
  cases found with
  | ok => rfl
  | error fault =>
    apply congrArg Except.error
    cases fault with
    | rejected d => exact congrArg Fault.rejected (View.diagnostic_of_places rfl d)
    | nameless | misplaced => rfl

open Translator in
/-- A plain translation leaves nothing that the view would leave out. -/
theorem translator_bare {set : InstructionSet} {source : Text} {t : Translator}
    (h : (new { set }).run source = (.ok (), t)) : View.bare.translator t = t := by
  have hlines : (Line.tokenize source).map View.bare.line = Line.tokenize source :=
    List.map_id'' (View.line_of_places rfl) _
  have hrun : Alike View.bare id ((new { set }).run source)
      ((View.bare.translator (new { set })).feedAll ((Line.tokenize source).map View.bare.line)) :=
    alike_feedAll _ _
  rw [hlines, translator_new] at hrun
  change Alike View.bare id ((new { set }).run source) ((new { set }).run source) at hrun
  rw [h] at hrun
  exact (congrArg Prod.snd hrun.eq_of_ok).symm

/-- The words of a plain translation have no comments. -/
theorem map_bare_of_compile {set : InstructionSet} {source : Text} {t : Translator}
    {words : List Word} (h : compile { set } source = .ok (t, words)) :
    words.map Word.bare = words := by
  obtain ⟨hrun, _, hresolve⟩ := compile_ok h
  have hprogram : View.bare.program t.program = t.program :=
    congrArg Translator.program (translator_bare hrun)
  have hempty : ∀ w ∈ words, w.comment = [] := by
    intro w hw
    have hcomment : w.comment ∈ words.map (·.comment) := List.mem_map_of_mem hw
    rw [map_comment_of_resolve hresolve, ← hprogram] at hcomment
    obtain ⟨i, hi, hi'⟩ := List.mem_map.mp hcomment
    obtain ⟨original, _, rfl⟩ := List.mem_map.mp (Array.toList_map ▸ hi)
    exact hi'.symm
  have hbare : ∀ w ∈ words, w.bare = id w := by
    intro w hw
    rw [Word.bare, ← hempty w hw]
    rfl
  rw [List.map_congr_left hbare, List.map_id]

/-- The plain translation of a source is the annotated one without its comments; if there is none,
both have the same fault. -/
theorem compile_bare (set : InstructionSet) (source : Text) :
    (compile { set } source).map Prod.snd =
      ((compile { set, annotate := true } source).map Prod.snd).map (List.map Word.bare) := by
  calc (compile { set } source).map Prod.snd
      = ((compile { set } source).map Prod.snd).map (List.map Word.bare) := by
        cases h : compile { set } source with
        | error => rfl
        | ok found => exact congrArg Except.ok (map_bare_of_compile h).symm
    _ = View.bare.outcome ((compile { set } source).map Prod.snd) := (View.outcome_bare _).symm
    _ = View.bare.outcome ((compile { set, annotate := true } source).map Prod.snd) :=
        View.outcome_compile rfl rfl
    _ = _ := View.outcome_bare _

open Translator in
/-- The comments of an annotated program are those that the statements of its source bring. -/
theorem comments_of_compile {config : Config} (hannotate : config.annotate = true)
    {source : Text} {t : Translator} {words : List Word}
    (h : compile config source = .ok (t, words)) :
    ((new config).transitions (Line.tokenize source)).map (·.line) = Line.tokenize source ∧
      t.serials.Nodup ∧
      (commentsOf t.program.code.toList).Perm
        (((new config).transitions (Line.tokenize source)).flatMap Transition.comments) := by
  obtain ⟨hrun, ⟨program, hfinish⟩, _⟩ := compile_ok h
  have hfeed : (new config).feedAll (Line.tokenize source) = (.ok (), t) := hrun
  have hlines := map_line_transitions hfeed
  obtain rfl := feedEach_of_feedAll hfeed
  have hclosed := ((seated_new config).feedEach (Line.tokenize source)).openBlocks_of_finish hfinish
  have hnoted := noted_feedEach hannotate (Line.tokenize source) fun s hs =>
    Line.text_ne_nil (hlines ▸ List.mem_map_of_mem hs)
  rw [noted, drafts_eq_nil hclosed, List.append_nil] at hnoted
  exact ⟨hlines, (coherent_feedEach config (Line.tokenize source)).traced.nodup, hnoted⟩

open Translator in
/-- Annotations are commentary and nothing else.  Whether a source is annotated or not, either its
translation is refused with the same fault, or there are the same words, comments apart: the plain
ones have none, and the comments of the annotated ones are the texts of the statements, each on the
first instruction of its own, and the remarks on the jumps over blocks.  So neither the packed image
with its map nor the image of the listing depends on them. -/
theorem annotation_is_commentary (set : InstructionSet) (source : Text) :
    let annotated : Config := { set, annotate := true }
    let plain : Config := { set }
    let history := (new annotated).transitions (Line.tokenize source)
    (∃ fault, compile annotated source = .error fault ∧ compile plain source = .error fault) ∨
    ∃ t words t' words', compile annotated source = .ok (t, words) ∧
      compile plain source = .ok (t', words') ∧
      words' = words.map Word.bare ∧
      words.map (·.comment) = t.program.code.toList.map (·.comment) ∧
      t.serials.Nodup ∧
      history.map (·.line) = Line.tokenize source ∧
      (commentsOf t.program.code.toList).Perm (history.flatMap Transition.comments) ∧
      Image.pack words' = Image.pack words ∧
      Image.assemble (listingText words') = Image.assemble (listingText words) := by
  intro annotated plain history
  have hbare : (compile plain source).map Prod.snd =
      ((compile annotated source).map Prod.snd).map (List.map Word.bare) := compile_bare set source
  cases hannotated : compile annotated source with
  | error fault =>
    left
    rw [hannotated] at hbare
    cases hplain : compile plain source with
    | error fault' =>
      rw [hplain] at hbare
      obtain rfl : fault' = fault := Except.error.inj hbare
      exact ⟨fault', rfl, rfl⟩
    | ok =>
      rw [hplain] at hbare
      cases hbare
  | ok found =>
    right
    obtain ⟨t, words⟩ := found
    rw [hannotated] at hbare
    cases hplain : compile plain source with
    | error =>
      rw [hplain] at hbare
      cases hbare
    | ok found' =>
      obtain ⟨t', words'⟩ := found'
      rw [hplain] at hbare
      obtain rfl : words' = words.map Word.bare := Except.ok.inj hbare
      obtain ⟨_, _, hresolve⟩ := compile_ok hannotated
      obtain ⟨hlines, hnodup, hcomments⟩ := comments_of_compile rfl hannotated
      exact ⟨t, words, t', _, rfl, rfl, rfl, map_comment_of_resolve hresolve, hnodup, hlines,
        hcomments, Image.pack_bare words,
        Image.assemble_bare (newline_notMem_of_compile hannotated)⟩

end AccuAsm
