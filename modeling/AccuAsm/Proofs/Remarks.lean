import AccuAsm.Proofs.Operands
import AccuAsm.Proofs.Tokens

/-!
# Remarks on one line

A listing has one line for each word, so no comment may hold a line end.  Comments are made
from the fields of statements, and a field has no separator in it.

There are two groups.

* Statements.  `Remarked` says that no comment has a line end, neither in the program nor in
  the jumps that wait for the end of their block.  `Remarked.feed` is the step lemma, and
  `Remarked.feedAll` the run lemma.
* Words.  `Remarked.newline_notMem_comment` carries it over to the words of a program, and
  `compile_ok` takes the translation of a source apart.
-/

namespace AccuAsm

/-! ## Statements -/

namespace Translator

variable {t t' : Translator} {line : Line} {emitted : List Instr}

/-- No comment has a line end in it. -/
structure Remarked (t : Translator) : Prop where
  program : ∀ i ∈ t.program.code.toList, Text.newline ∉ i.comment
  definitions : ∀ d ∈ t.definitions.records, Text.newline ∉ d.skip.comment
  conditions : ∀ c ∈ t.conditions.stack, Text.newline ∉ c.skip.comment

theorem remarked_new (config : Config) : Remarked (new config) := by
  constructor <;> simp [new]

theorem newline_notMem_remark {comment : Text} (h : Text.newline ∉ comment) :
    Text.newline ∉ t.annotation comment := by
  unfold annotation
  split
  · exact h
  · exact List.not_mem_nil

theorem newline_notMem_of_mem_number {serial : Nat} {number : Int} {comment : Text} {ops : List Op}
    {i : Instr} (hcomment : Text.newline ∉ comment)
    (h : i ∈ Translator.number serial number comment ops) : Text.newline ∉ i.comment := by
  induction ops generalizing serial comment with
  | nil => cases h
  | cons op rest ih =>
    rcases List.mem_cons.mp h with rfl | h
    · exact hcomment
    · exact ih List.not_mem_nil h

theorem Remarked.emit (h : Remarked t) (hline : line.IsOneLine) (ops : List Op) :
    Remarked (t.emit line ops).2 := by
  refine ⟨?_, h.definitions, h.conditions⟩
  intro i hi
  have hcode : (t.emit line ops).2.program.code.toList =
      t.program.code.toList ++ (t.emit line ops).1 := Program.toList_append _ _
  rcases List.mem_append.mp (hcode ▸ hi) with hold | hnew
  · exact h.program i hold
  · exact newline_notMem_of_mem_number (newline_notMem_remark hline.newline_notMem_text) hnew

theorem Remarked.feed (h : Remarked t) (hline : line.IsOneLine)
    (hfeed : t.feed line = (.ok emitted, t')) : Remarked t' := by
  obtain ⟨ops, next, heffect, rfl⟩ := effect_of_feed hfeed
  refine Remarked.emit ?_ hline ops
  cases heffect with
  | names => exact ⟨h.program, h.definitions, h.conditions⟩
  | @define keyword name rest hk hfields =>
    refine ⟨h.program, ?_, h.conditions⟩
    intro d hd
    rcases Array.mem_push.mp hd with hd | rfl
    · exact h.definitions d hd
    · have hname : Text.newline ∉ name := hline name (by simp [hfields])
      have hlabel : Text.newline ∉ Text.ofString "skip DEF " := by decide
      exact newline_notMem_remark (by simp [hlabel, hname])
  | condition =>
    refine ⟨h.program, h.definitions, ?_⟩
    intro c hc
    rcases List.mem_cons.mp hc with rfl | hc
    · exact newline_notMem_remark (by decide)
    · exact h.conditions c hc
  | @endDefine d position rest program hk hstack hrecord hdepth hinsert =>
    refine ⟨?_, ?_, h.conditions⟩
    · intro i hi
      rcases (mem_of_insert_ok hinsert).mp hi with rfl | hold
      · exact h.definitions d (Array.mem_of_getElem? hrecord)
      · exact h.program i hold
    · intro e he
      obtain ⟨e', he', rfl | rfl⟩ := exists_of_mem_modify_closed hrecord he
      · exact h.definitions e he'
      · exact h.definitions e' he'
  | @endCondition c rest program hk hstack hdepth hinsert =>
    refine ⟨?_, h.definitions, ?_⟩
    · intro i hi
      rcases (mem_of_insert_ok hinsert).mp hi with rfl | hold
      · exact h.conditions c (by simp [hstack])
      · exact h.program i hold
    · intro e he
      exact h.conditions e (hstack ▸ List.mem_cons_of_mem c he)

theorem Remarked.feedAll {lines : List Line} {outcome : Except Fault Unit} (h : Remarked t)
    (hseated : Seated t) (hlines : ∀ line ∈ lines, line.IsOneLine)
    (hrun : t.feedAll lines = (outcome, t')) : Remarked t' := by
  induction lines generalizing t with
  | nil =>
    obtain ⟨_, rfl⟩ := Prod.mk.inj hrun
    exact h
  | cons line rest ih =>
    rcases hfeed : t.feed line with ⟨fault | emitted, next⟩
    · simp only [Translator.feedAll, hfeed] at hrun
      obtain ⟨_, rfl⟩ := Prod.mk.inj hrun
      rwa [hseated.feed_error_eq hfeed]
    · simp only [Translator.feedAll, hfeed] at hrun
      exact ih (h.feed (hlines line List.mem_cons_self) hfeed) (hseated.feed hfeed)
        (fun other hother => hlines other (List.mem_cons_of_mem _ hother)) hrun

theorem remarked_run {config : Config} {source : Text} {outcome : Except Fault Unit}
    (hrun : (new config).run source = (outcome, t)) : Remarked t :=
  (remarked_new config).feedAll (seated_new config)
    (fun _ hline => Line.isOneLine_of_mem_tokenize hline) hrun

end Translator

/-! ## Words -/

/-- The words have the comments of the instructions. -/
theorem Translator.Remarked.newline_notMem_comment {t : Translator} {words : List Word} {w : Word}
    (h : Remarked t) (hresolve : t.program.resolve = .ok words) (hw : w ∈ words) :
    Text.newline ∉ w.comment := by
  obtain ⟨⟨i, index⟩, hi, hword⟩ := exists_of_mem_mapM hresolve hw
  obtain ⟨args, _, hword⟩ := exists_of_bind_ok hword
  obtain rfl := (Except.ok.inj hword).symm
  exact h.program i (List.fst_mem_of_mem_zipIdx hi)

/-- A source that is translated is accepted to its end, with every block closed. -/
theorem compile_ok {config : Config} {source : Text} {t : Translator} {words : List Word}
    (h : compile config source = .ok (t, words)) :
    (Translator.new config).run source = (.ok (), t) ∧ (∃ program, t.finish = .ok program) ∧
      t.program.resolve = .ok words := by
  unfold compile at h
  obtain ⟨last, htranslate, h⟩ := exists_of_bind_ok h
  unfold translate Translator.start at htranslate
  obtain ⟨first, hstart, htranslate⟩ := exists_of_bind_ok htranslate
  split at hstart
  swap
  · cases hstart
  cases hstart
  rcases hrun : (Translator.new config).run source with ⟨fault | _, u⟩
  · rw [hrun] at htranslate
    cases htranslate
  simp only [hrun] at htranslate
  split at htranslate
  · next program hfinish =>
    cases htranslate
    cases hresolve : last.program.resolve with
    | error d => simp [hresolve] at h
    | ok found =>
      rw [hresolve] at h
      cases h
      exact ⟨rfl, ⟨program, hfinish⟩, hresolve⟩
  · cases htranslate

theorem newline_notMem_of_compile {config : Config} {source : Text} {t : Translator}
    {words : List Word} (h : compile config source = .ok (t, words)) :
    ∀ w ∈ words, Text.newline ∉ w.comment := by
  obtain ⟨hrun, _, hresolve⟩ := compile_ok h
  intro w hw
  exact (Translator.remarked_run hrun).newline_notMem_comment hresolve hw

end AccuAsm
