import AccuAsm.Proofs.Views

/-!
# Sources that look the same

What is seen of a source and of its configuration decides what is seen of its words.

There are three groups.

* Words.  `View.resolve_program` says that the words of what is seen of a program are what is
  seen of its words.
* Sources.  `View.outcome_compile` is about whole sources.
* Listings.  `refused_of_compile` says which faults there are, and `listing_eq_map` that a
  listing shows the words.
-/

namespace AccuAsm

/-! ## Words -/

namespace View

variable {v : View} {p : Program} {α β γ δ : Type}

/-- What is seen of a check. -/
def checked (v : View) (look : α → β) (e : Except Diagnostic α) : Except Diagnostic β :=
  (e.mapError v.diagnostic).map look

theorem checked_bind {look : α → γ} {look' : β → δ} {e e' : Except Diagnostic α}
    {k k' : α → Except Diagnostic β} (h : v.checked look e' = v.checked look e)
    (hrest : ∀ a a', look a' = look a → v.checked look' (k' a') = v.checked look' (k a)) :
    v.checked look' (e' >>= k') = v.checked look' (e >>= k) := by
  cases e with
  | error d =>
    cases e' with
    | error d' => exact congrArg Except.error (Except.error.inj h)
    | ok a' => cases h
  | ok a =>
    cases e' with
    | error d' => cases h
    | ok a' => exact hrest a a' (Except.ok.inj h)

theorem checked_mapM {look : β → β} {f f' : α → Except Diagnostic β}
    (h : ∀ a, v.checked look (f' a) = v.checked look (f a)) (l : List α) :
    v.checked (List.map look) (l.mapM f') = v.checked (List.map look) (l.mapM f) := by
  induction l with
  | nil => rfl
  | cons a rest ih =>
    rw [List.mapM_cons, List.mapM_cons]
    refine checked_bind (h a) fun b b' hb => checked_bind ih fun bs bs' hbs => ?_
    show Except.ok (look b' :: bs'.map look) = Except.ok (look b :: bs.map look)
    rw [hb, hbs]

theorem lastBelow_view (code : Array Instr) (serial bound : Nat) :
    Program.lastBelow (code.map v.instr) serial bound = Program.lastBelow code serial bound := by
  induction bound with
  | zero => rfl
  | succ index ih =>
    rw [Program.lastBelow, Program.lastBelow, Array.getElem?_map, ih]
    cases code[index]? <;> rfl

theorem addressOf?_program (place : Target) :
    (v.program p).addressOf? place = p.addressOf? place := by
  have hplace : (v.program p).place? place.anchor = p.place? place.anchor := by
    show Program.lastBelow (p.code.map v.instr) _ (p.code.map v.instr).size = _
    rw [lastBelow_view, Array.size_map]
    rfl
  unfold Program.addressOf?
  rw [hplace]

theorem resolveOperand_program (index : Nat) (line : Int) (operand : Operand) :
    v.checked id ((v.program p).resolveOperand index (v.place line) operand) =
      v.checked id (p.resolveOperand index line operand) := by
  have hseen (complaint : Complaint) :
      v.diagnostic { complaint, line := v.place line } = v.diagnostic { complaint, line } := by
    simp [diagnostic]
  cases operand with
  | literal n => rfl
  | pending => exact congrArg Except.error (hseen _)
  | target place =>
    rw [Program.resolveOperand, Program.resolveOperand, addressOf?_program]
    cases p.addressOf? place with
    | none => exact congrArg Except.error (hseen _)
    | some n => rfl

theorem resolveInstr_program (i : Instr) (index : Nat) :
    v.checked v.word ((v.program p).resolveInstr (v.instr i) index) =
      v.checked v.word (p.resolveInstr i index) := by
  have hoperand := @resolveOperand_program v p index i.line
  have hargs : v.checked id (i.args.mapM ((v.program p).resolveOperand index (v.place i.line))) =
      v.checked id (i.args.mapM (p.resolveOperand index i.line)) := by
    refine checked_bind (hoperand _) fun left left' hleft => ?_
    refine checked_bind (hoperand _) fun right right' hright => ?_
    refine checked_bind (hoperand _) fun dest dest' hdest => ?_
    rw [show left' = left from hleft, show right' = right from hright,
      show dest' = dest from hdest]
  refine checked_bind hargs fun args args' hsame => ?_
  rw [show args' = args from hsame]
  show Except.ok (v.word _) = Except.ok (v.word _)
  simp [word, instr]

/-- The words of what is seen of a program are what is seen of its words. -/
theorem resolve_program :
    v.checked (List.map v.word) (v.program p).resolve =
      v.checked (List.map v.word) p.resolve := by
  unfold Program.resolve
  rw [show (v.program p).code.toList = p.code.toList.map v.instr from Array.toList_map,
    List.zipIdx_map, List.mapM_map]
  exact checked_mapM (fun entry : Instr × Nat => resolveInstr_program entry.1 entry.2) _

end View

/-! ## Sources -/

/-- What is seen of the words of a source. -/
def View.outcome (v : View) (found : Except Fault (List Word)) : Except Fault (List Word) :=
  (found.mapError v.fault).map (List.map v.word)

namespace Translator

variable {v : View} {t t' : Translator} {config config' : Config} {source source' : Text}

/-- The words of the lines that were fed, if all were accepted and every block is closed. -/
def words : Except Fault Unit × Translator → Except Fault (List Word)
  | (.error fault, _) => .error fault
  | (.ok (), t) => (t.finish >>= fun _ => t.program.resolve).mapError Fault.rejected

theorem finish_view (t : Translator) :
    v.checked (fun _ => ()) (v.translator t).finish = v.checked (fun _ => ()) t.finish := by
  have hcurrent : (v.translator t).conditions.current? = t.conditions.current?.map v.condition :=
    List.head?_map
  unfold finish
  rw [show (v.translator t).definitions = v.definitions t.definitions from rfl,
    View.current?_definitions, hcurrent]
  have hseen (complaint : Complaint) (token : Text) (line : Int) :
      v.diagnostic { complaint, token, line := v.place line, column := 1 } =
        v.diagnostic { complaint, token, line, column := 1 } := by
    simp [View.diagnostic]
  cases t.definitions.current? with
  | some d => exact congrArg Except.error (hseen _ _ _)
  | none =>
    cases t.conditions.current? with
    | some c => exact congrArg Except.error (hseen _ _ _)
    | none => rfl

theorem outcome_words {r r' : Except Fault Unit × Translator} (h : Alike v id r r') :
    v.outcome (words r') = v.outcome (words r) := by
  cases h with
  | error t hfault => exact congrArg Except.error hfault
  | ok _ t =>
    have hseen (e : Except Diagnostic (List Word)) : v.outcome (e.mapError Fault.rejected) =
        (v.checked (List.map v.word) e).mapError Fault.rejected := by
      cases e <;> rfl
    show v.outcome (Except.mapError _ _) = v.outcome (Except.mapError _ _)
    rw [hseen, hseen]
    apply congrArg
    exact View.checked_bind (finish_view t) fun _ _ _ => View.resolve_program

theorem compile_eq_words (h : NamePattern.check config.set.conditionKeywords = .ok ()) :
    (compile config source).map Prod.snd = words ((new config).run source) := by
  have hstart : start config = pure (new config) := by
    unfold start
    rw [h]
    rfl
  unfold compile translate
  rw [hstart, pure_bind]
  rcases (new config).run source with ⟨fault | _, t⟩
  · rfl
  · rw [words]
    dsimp only
    cases t.finish with
    | error d => rfl
    | ok program =>
      show Except.map Prod.snd (pure t >>= _) = t.program.resolve.mapError _
      rw [pure_bind]
      cases t.program.resolve <;> rfl

theorem translator_new (config : Config) : v.translator (new config) = new (v.config config) := by
  simp [View.translator, new, View.definitions, View.conditions, View.program, View.config]

end Translator

open Translator in
/-- Sources that look the same to a view are translated to words that look the same. -/
theorem View.outcome_compile {v : View} {config config' : Config} {source source' : Text}
    (hconfig : v.config config' = v.config config)
    (hlines : (Line.tokenize source').map v.line = (Line.tokenize source).map v.line) :
    v.outcome ((compile config' source').map Prod.snd) =
      v.outcome ((compile config source).map Prod.snd) := by
  have hset : (v.config config').set = (v.config config).set := congrArg Config.set hconfig
  cases hnames : NamePattern.check config.set.conditionKeywords with
  | error u =>
    unfold compile translate start
    rw [show config'.set = config.set from hset, hnames]
    rfl
  | ok =>
    have hnames' : NamePattern.check config'.set.conditionKeywords = .ok () := by
      rw [show config'.set = config.set from hset, hnames]
    have hrun : Alike v id ((new config).run source)
        ((new (v.config config)).feedAll ((Line.tokenize source).map v.line)) := by
      rw [← translator_new]
      exact alike_feedAll _ _
    have hrun' : Alike v id ((new config').run source')
        ((new (v.config config)).feedAll ((Line.tokenize source).map v.line)) := by
      rw [← hconfig, ← hlines, ← translator_new]
      exact alike_feedAll _ _
    rw [compile_eq_words hnames, compile_eq_words hnames', ← outcome_words hrun,
      ← outcome_words hrun']

/-! ## Listings -/

theorem View.category_diagnostic {v : View} (d : Diagnostic) :
    (v.diagnostic d).category = d.category := by
  show (v.complaint d.complaint).category = d.complaint.category
  cases d.complaint <;> rfl

namespace Translator

variable {t t' : Translator} {config : Config} {source : Text} {fault : Fault}

theorem Seated.refused_of_feedAll (h : Seated t) {lines : List Line}
    (hrun : t.feedAll lines = (.error fault, t')) : ∃ d, fault = .rejected d := by
  induction lines generalizing t with
  | nil => cases (Prod.mk.inj hrun).1
  | cons line rest ih =>
    rcases hfeed : t.feed line with ⟨cause | emitted, next⟩
    · simp only [feedAll, hfeed] at hrun
      obtain ⟨d, hd⟩ := h.refused_of_feed hfeed
      exact ⟨d, (Except.error.inj (Prod.mk.inj hrun).1).symm.trans hd⟩
    · simp only [feedAll, hfeed] at hrun
      exact ih (h.feed hfeed) hrun

/-- A source is not translated because its instruction set leaves no rule for names, or because
something in it is refused. -/
theorem refused_of_compile (h : (compile config source).map Prod.snd = .error fault) :
    (∃ u, fault = .nameless u) ∨ ∃ d, fault = .rejected d := by
  cases hnames : NamePattern.check config.set.conditionKeywords with
  | error u =>
    left
    unfold compile translate start at h
    rw [hnames] at h
    exact ⟨u, (Except.error.inj h).symm⟩
  | ok =>
    right
    rw [compile_eq_words hnames] at h
    rcases hrun : (new config).run source with ⟨cause | _, t⟩
    · rw [hrun] at h
      rw [← Except.error.inj h]
      exact (seated_new config).refused_of_feedAll hrun
    · rw [hrun, words] at h
      cases hwords : t.finish >>= fun _ => t.program.resolve with
      | ok words =>
        rw [hwords] at h
        cases h
      | error d =>
        rw [hwords] at h
        exact ⟨d, (Except.error.inj h).symm⟩

end Translator

theorem listing_eq_map (config : Config) (source : Text) :
    listing config source = ((compile config source).map Prod.snd).map (List.map Word.text) := by
  unfold listing
  cases compile config source <;> rfl

/-- The fields of the statements are all that counts.  Two sources with the same fields, statement
by statement, have one listing, comments included, or both are refused for the same kind of reason
and with the same token, whatever the blanks, the empty lines and the columns are. -/
theorem listing_of_fields (config : Config) {source source' : Text}
    (h : (Line.tokenize source').map (·.fields) = (Line.tokenize source).map (·.fields)) :
    (∃ rows, listing config source = .ok rows ∧ listing config source' = .ok rows) ∨
    (∃ u, listing config source = .error (.nameless u) ∧
      listing config source' = .error (.nameless u)) ∨
    ∃ d d', listing config source = .error (.rejected d) ∧
      listing config source' = .error (.rejected d') ∧
      d'.category = d.category ∧ d'.token = d.token := by
  let v : View := { places := false, remarks := true }
  have hlines : (Line.tokenize source').map v.line = (Line.tokenize source).map v.line := by
    have hline : v.line = (fun fields => { number := 0, fields }) ∘ Line.fields := rfl
    rw [hline, ← List.map_map, ← List.map_map, h]
  have hseen := @View.outcome_compile v config config source source' rfl hlines
  rw [listing_eq_map, listing_eq_map]
  cases hfound : (compile config source).map Prod.snd with
  | ok words =>
    cases hfound' : (compile config source').map Prod.snd with
    | error fault' =>
      rw [hfound, hfound'] at hseen
      cases hseen
    | ok words' =>
      rw [hfound, hfound'] at hseen
      -- comments are looked at, so what is seen of a word has the line of the word in a listing
      have htext (l : List Word) : l.map Word.text = (l.map v.word).map Word.text := by
        rw [List.map_map]
        rfl
      refine .inl ⟨words.map Word.text, rfl, ?_⟩
      show Except.ok (words'.map Word.text) = _
      rw [htext words', htext words, Except.ok.inj hseen]
  | error fault =>
    cases hfound' : (compile config source').map Prod.snd with
    | ok words' =>
      rw [hfound, hfound'] at hseen
      cases hseen
    | error fault' =>
      rw [hfound, hfound'] at hseen
      have hfault : v.fault fault' = v.fault fault := Except.error.inj hseen
      obtain ⟨u, rfl⟩ | ⟨d, rfl⟩ := Translator.refused_of_compile hfound
      · obtain ⟨u', rfl⟩ | ⟨d', rfl⟩ := Translator.refused_of_compile hfound'
        · exact .inr (.inl ⟨u, rfl, congrArg Except.error hfault⟩)
        · cases hfault
      · obtain ⟨u', rfl⟩ | ⟨d', rfl⟩ := Translator.refused_of_compile hfound'
        · cases hfault
        · have hd : v.diagnostic d' = v.diagnostic d := Fault.rejected.inj hfault
          have htoken : (v.diagnostic d').token = (v.diagnostic d).token := by rw [hd]
          refine .inr (.inr ⟨d, d', rfl, rfl, ?_, htoken⟩)
          rw [← View.category_diagnostic (v := v), hd, View.category_diagnostic]

/-- Blanks, empty lines and line ends of another kind. -/
theorem listing_of_spread_fields :
    let source : Text := "DEF f
SET $a 3
ENDDEF
CALL f
"
    let source' : Text := "
  DEF	f

SET   $a 3
ENDDEF

 CALL f"
    (Line.tokenize source').map (·.fields) = (Line.tokenize source).map (·.fields) ∧
      ∃ rows, listing { annotate := true } source = .ok rows ∧
        listing { annotate := true } source' = .ok rows := by
  intro source source'
  have hfields :
      (Line.tokenize source').map (·.fields) = (Line.tokenize source).map (·.fields) := by
    decide +kernel
  have hlisting : (listing { annotate := true } source).toOption.isSome = true := by
    decide +kernel
  refine ⟨hfields, ?_⟩
  obtain hrows | ⟨u, hrefused, _⟩ | ⟨d, d', hrefused, _⟩ :=
    listing_of_fields { annotate := true } hfields
  · exact hrows
  · rw [hrefused] at hlisting
    cases hlisting
  · rw [hrefused] at hlisting
    cases hlisting

end AccuAsm
