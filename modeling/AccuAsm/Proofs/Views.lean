import AccuAsm.Proofs.Refusals

/-!
# What a translation depends on

Instructions remember the lines that they come from, and some of them have a comment.
Neither bears on what a statement is translated to.  A `View` leaves one of the two out, or
both, and this module says that translators that look the same go on looking the same.

There are four groups.

* Views.  A `View` of instructions, blocks, translators, lines and faults.
* Steps.  `Follows` says that two steps do the same in a view.  There is one rule for each way
  in which steps are put together, and one for each single step.
* Statements.  `follows_process` is about all of them.
* Runs.  `alike_feed` is the step lemma and `alike_feedAll` the run lemma.
-/

namespace AccuAsm

/-! ## Views -/

/-- What is looked at beside the code itself. -/
structure View where
  /-- Whether the places in the source are looked at. -/
  places : Bool
  /-- Whether the comments are looked at. -/
  remarks : Bool
  deriving DecidableEq, Repr

namespace View

/-- A line number or a column. -/
def place (v : View) (n : Int) : Int := if v.places then n else 0

/-- A comment. -/
def remark (v : View) (comment : Text) : Text := if v.remarks then comment else []

/-- An instruction. -/
def instr (v : View) (i : Instr) : Instr :=
  { i with line := v.place i.line, comment := v.remark i.comment }

/-- A finished instruction. -/
def word (v : View) (w : Word) : Word :=
  { w with line := v.place w.line, comment := v.remark w.comment }

/-- A program. -/
def program (v : View) (p : Program) : Program := { code := p.code.map v.instr }

/-- A definition. -/
def definition (v : View) (d : Definition) : Definition :=
  { d with skip := v.instr d.skip, line := v.place d.line }

/-- All definitions. -/
def definitions (v : View) (ds : Definitions) : Definitions :=
  { ds with records := ds.records.map v.definition }

/-- A condition. -/
def condition (v : View) (c : Condition) : Condition :=
  { c with skip := v.instr c.skip, line := v.place c.line }

/-- All conditions. -/
def conditions (v : View) (cs : Conditions) : Conditions := { stack := cs.stack.map v.condition }

/-- What a translation depends on beside the source. -/
def config (v : View) (config : Config) : Config :=
  { config with annotate := v.remarks && config.annotate }

/-- A translator. -/
def translator (v : View) (t : Translator) : Translator :=
  { t with
    config := v.config t.config
    definitions := v.definitions t.definitions
    conditions := v.conditions t.conditions
    program := v.program t.program }

/-- A statement. -/
def line (v : View) (line : Line) : Line where
  number := v.place line.number
  fields := line.fields
  columns := if v.places then line.columns else []

/-- A complaint; one of them names a line. -/
def complaint (v : View) : Complaint → Complaint
  | .definitionOpen line => .definitionOpen (v.place line)
  | complaint => complaint

/-- A diagnostic. -/
def diagnostic (v : View) (d : Diagnostic) : Diagnostic where
  complaint := v.complaint d.complaint
  token := d.token
  line := v.place d.line
  column := v.place d.column

/-- A fault. -/
def fault (v : View) : Fault → Fault
  | .rejected d => .rejected (v.diagnostic d)
  | fault => fault

variable {v : View} {t : Translator} {ds : Definitions} {cs : Conditions} {p : Program}

@[simp] theorem place_place (n : Int) : v.place (v.place n) = v.place n := by
  unfold place
  split <;> rfl

@[simp] theorem remark_nil : v.remark [] = [] := by
  unfold remark
  split <;> rfl

@[simp] theorem remark_remark (comment : Text) :
    v.remark (v.remark comment) = v.remark comment := by
  unfold remark
  split <;> rfl

theorem line_of_places (h : v.places = true) (line : Line) : v.line line = line := by
  simp [View.line, place, h]

theorem diagnostic_of_places (h : v.places = true) (d : Diagnostic) : v.diagnostic d = d := by
  have hplace (n : Int) : v.place n = n := if_pos h
  have hcomplaint (c : Complaint) : v.complaint c = c := by
    unfold complaint
    split
    · rw [hplace]
    · rfl
  unfold diagnostic
  rw [hcomplaint, hplace, hplace]

theorem annotation_translator (comment : Text) :
    Translator.annotation (v.translator t) comment = v.remark (t.annotation comment) := by
  cases hremarks : v.remarks with
  | false => simp [Translator.annotation, translator, config, remark, hremarks]
  | true => simp [Translator.annotation, translator, config, remark, hremarks]

theorem skip_translator (n : Int) (comment : Text) :
    (v.translator t).skip (v.place n) comment = v.instr (t.skip n comment) := by
  show Op.toInstr _ _ _ (Translator.annotation (v.translator t) comment) = _
  rw [annotation_translator]
  rfl

theorem size_program : (v.program p).size = p.size := Array.size_map

theorem contains_definitions (name : Text) :
    (v.definitions ds).contains name = ds.contains name := by
  show (ds.records.map v.definition).any _ = _
  rw [Array.any_map]
  rfl

theorem current?_definitions :
    (v.definitions ds).current? = ds.current?.map v.definition := by
  show (ds.stack.head? >>= fun position => (ds.records.map v.definition)[position]?) = _
  unfold Definitions.current?
  cases ds.stack.head? with
  | none => rfl
  | some position => exact Array.getElem?_map

theorem find_definitions (name : Text) :
    (v.definitions ds).find name = (ds.find name).map v.definition := by
  have hfind : (v.definitions ds).records.find? (·.name == name) =
      (ds.records.find? (·.name == name)).map v.definition := Array.find?_map
  unfold Definitions.find
  rw [hfind]
  cases ds.records.find? (·.name == name) <;> rfl

theorem enter_definitions (d : Definition) :
    (v.definitions ds).enter (v.definition d) = (ds.enter d).map v.definitions := by
  unfold Definitions.enter
  rw [contains_definitions]
  show (if ds.contains d.name then _ else _) = _
  split
  · rfl
  · show Except.ok _ = Except.ok _
    simp [definitions]

theorem leave_definitions :
    (v.definitions ds).leave =
      ds.leave.map fun found => (v.definition found.1, v.definitions found.2) := by
  unfold Definitions.leave
  rw [current?_definitions, show (v.definitions ds).stack = ds.stack from rfl]
  cases ds.stack with
  | nil => rfl
  | cons position rest =>
    cases ds.current? with
    | none => rfl
    | some d =>
      have hrecords : ((v.definitions ds).records.modify position fun _ =>
          { v.definition d with closed := true }) =
          (ds.records.modify position fun _ => { d with closed := true }).map v.definition := by
        apply Array.ext
        · simp [definitions]
        · intro i _ _
          simp only [definitions, Array.getElem_map, Array.getElem_modify]
          split <;> rfl
      show Except.ok (_, Definitions.mk _ _) = Except.ok (_, Definitions.mk _ _)
      rw [hrecords]
      rfl

theorem leave_conditions :
    (v.conditions cs).leave =
      cs.leave.map fun found => (v.condition found.1, v.conditions found.2) := by
  unfold Conditions.leave
  rw [show (v.conditions cs).stack = cs.stack.map v.condition from rfl]
  cases cs.stack <;> rfl

theorem append_program (instrs : List Instr) :
    (v.program p).append (instrs.map v.instr) = v.program (p.append instrs) := by
  apply congrArg Program.mk
  apply Array.toList_inj.mp
  simp [program, Program.append]

theorem insert_program (site : Int) (i : Instr) :
    (v.program p).insert site (v.instr i) = (p.insert site i).map v.program := by
  unfold Program.insert
  by_cases h : 0 ≤ site ∧ site.toNat ≤ p.code.size
  · rw [dif_pos h, dif_pos (by simpa [program] using h)]
    have hcode : (v.program p).code.insertIdx site.toNat (v.instr i)
        (by simpa [program] using h.2) = (p.code.insertIdx site.toNat i h.2).map v.instr := by
      apply Array.toList_inj.mp
      simp [program, List.map_insertIdx]
    exact congrArg (fun code => Except.ok (Program.mk code)) hcode
  · rw [dif_neg h, dif_neg (by simpa [program] using h), size_program]
    rfl

end View

/-! ## Steps -/

namespace Translator

open Step

variable {v : View} {t : Translator} {α β : Type} {look : α → α} {look' : β → β}

/-- Two results are the same in a view.  The second one is that of a translator of which nothing
else is there; a fault may differ in what is not looked at. -/
inductive Alike (v : View) (look : α → α) :
    Except Fault α × Translator → Except Fault α × Translator → Prop where
  | ok (a : α) (t : Translator) : Alike v look (.ok a, t) (.ok (look a), v.translator t)
  | error {fault fault' : Fault} (t : Translator) (hfault : v.fault fault' = v.fault fault) :
      Alike v look (.error fault, t) (.error fault', v.translator t)

theorem Alike.eq_of_ok {a : α} {r : Except Fault α × Translator}
    (h : Alike v look (.ok a, t) r) : r = (.ok (look a), v.translator t) := by
  cases h
  rfl

/-- A step on what is seen of a translator does what another step does on the translator. -/
def Follows (v : View) (look : α → α) (t : Translator) (x y : Step α) : Prop :=
  Alike v look (x.on t) (y.on (v.translator t))

namespace Follows

theorem bind {x y : Step α} {k l : α → Step β} (hx : Follows v look t x y)
    (hrest : ∀ a u, Follows v look' u (k a) (l (look a))) :
    Follows v look' t (x >>= k) (y >>= l) := by
  unfold Follows at hx ⊢
  rw [on_bind, on_bind]
  generalize x.on t = r at hx
  generalize y.on (v.translator t) = r' at hx
  cases hx with
  | ok a u => exact hrest a u
  | error u hfault => exact .error u hfault

theorem pure (a : α) : Follows v look t (Pure.pure a) (Pure.pure (look a)) := .ok a t

theorem modify {f g : Translator → Translator} (h : g (v.translator t) = v.translator (f t)) :
    Follows v id t (modify f) (modify g) := by
  unfold Follows
  rw [on_modify, on_modify, h]
  exact .ok () (f t)

theorem get_bind {k l : Translator → Step β} (h : Follows v look' t (k t) (l (v.translator t))) :
    Follows v look' t (get >>= k) (get >>= l) := by
  unfold Follows
  rw [on_get_bind, on_get_bind]
  exact h

theorem refuse {d d' : Diagnostic} (h : v.diagnostic d' = v.diagnostic d) :
    Follows v look t (Step.refuse d) (Step.refuse d') :=
  .error t (congrArg Fault.rejected h)

theorem check {e e' : Except Diagnostic α} (h : e' = e.map look) :
    Follows v look t (Step.check e) (Step.check e') := by
  subst h
  cases e with
  | error d => exact .refuse rfl
  | ok a => exact .pure a

theorem check_same (e : Except Diagnostic α) : Follows v id t (Step.check e) (Step.check e) := by
  apply check
  cases e <;> rfl

theorem require {d d' : Diagnostic} {c c' : Bool} (hc : c' = c)
    (h : v.diagnostic d' = v.diagnostic d) :
    Follows v id t (Step.require c d) (Step.require c' d') := by
  subst hc
  cases c' with
  | false => exact .refuse h
  | true => exact .pure ()

end Follows

theorem follows_draftSkip (n : Int) (comment : Text) :
    Follows v v.instr t (draftSkip n comment) (draftSkip (v.place n) comment) := by
  unfold Follows
  rw [on_draftSkip, on_draftSkip, View.skip_translator]
  exact .ok _ _

theorem follows_enterDefinition (d : Definition) :
    Follows v id t (enterDefinition d) (enterDefinition (v.definition d)) := by
  refine .get_bind (.bind (.check (View.enter_definitions d)) fun _ _ => ?_)
  exact .modify rfl

theorem follows_leaveDefinition :
    Follows v v.definition t leaveDefinition leaveDefinition := by
  refine .get_bind (.bind (.check View.leave_definitions) fun _ _ => ?_)
  exact .bind (.modify rfl) fun _ _ => .pure _

theorem follows_enterCondition (c : Condition) :
    Follows v id t (enterCondition c) (enterCondition (v.condition c)) :=
  .modify rfl

theorem follows_leaveCondition : Follows v v.condition t leaveCondition leaveCondition := by
  refine .get_bind (.bind (.check View.leave_conditions) fun _ _ => ?_)
  exact .bind (.modify rfl) fun _ _ => .pure _

theorem follows_addScope (name : Text) : Follows v id t (addScope name) (addScope name) := by
  refine .get_bind (.bind (.check_same _) fun _ _ => ?_)
  exact .modify rfl

theorem follows_place (site : Int) (i : Instr) :
    Follows v id t (place site i) (place site (v.instr i)) := by
  refine .get_bind ?_
  rw [show (v.translator t).program = v.program t.program from rfl, View.insert_program]
  cases t.program.insert site i with
  | error m => exact .error t rfl
  | ok program => exact .modify rfl

/-! ## Statements -/

theorem follows_plain {outcome : Translator → Except Diagnostic (List Op)}
    (h : outcome (v.translator t) = outcome t) :
    Follows v id t (plain outcome) (plain outcome) := by
  refine .get_bind ?_
  rw [h]
  exact .check_same _

theorem follows_constant (keyword : Text) (operands : List Text) :
    Follows v id t (constant keyword operands) (constant keyword operands) := by
  unfold constant
  split
  · refine .get_bind (.bind (.check_same _) fun _ _ => .bind (.check_same _) fun _ _ => ?_)
    refine .bind (.require rfl rfl) fun _ _ => .bind (.modify rfl) fun _ _ => ?_
    exact .pure []
  · exact .refuse rfl

theorem follows_assignee (token : Text) :
    Follows v id t (assignee token) (assignee token) := by
  have hallocate (u : Translator) : Follows v id u allocate allocate := by
    refine .get_bind (.bind (.check_same _) fun _ _ => .bind (.modify rfl) fun _ _ => ?_)
    exact .pure _
  unfold assignee
  refine .get_bind ?_
  split
  · exact .check_same _
  · next name _ =>
    by_cases hvisible : t.visible name = true
    · rw [if_pos hvisible, if_pos (show (v.translator t).visible name = true from hvisible)]
      exact .check_same _
    · rw [if_neg hvisible, if_neg (show ¬(v.translator t).visible name = true from hvisible)]
      refine .bind (.check_same _) fun _ _ => .bind (hallocate _) fun _ _ => ?_
      exact .bind (.modify rfl) fun _ _ => .pure _

theorem follows_assign (keyword : Text) (operands : List Text) :
    Follows v id t (assign keyword operands) (assign keyword operands) := by
  unfold assign
  split
  · refine .get_bind (.bind (.check_same _) fun _ _ => .bind (follows_assignee _) fun _ _ => ?_)
    exact .pure _
  · exact .refuse rfl

theorem follows_setAddress (keyword : Text) (operands : List Text) :
    Follows v id t (setAddress keyword operands) (setAddress keyword operands) := by
  unfold setAddress
  split
  · split
    · exact .refuse rfl
    · refine .get_bind (.bind (.check_same _) fun _ _ => .bind (.require rfl rfl) fun _ _ => ?_)
      refine .bind (.check_same _) fun _ _ => .bind (.modify rfl) fun _ _ => ?_
      exact .pure []
  · exact .refuse rfl

theorem foldl_unbind_translator (names : List Text) :
    names.foldl (·.unbind ·) (v.translator t) = v.translator (names.foldl (·.unbind ·) t) := by
  induction names generalizing t with
  | nil => rfl
  | cons name rest ih => exact @ih (t.unbind name)

theorem follows_unset (keyword : Text) (operands : List Text) :
    Follows v id t (unset keyword operands) (unset keyword operands) := by
  unfold unset
  split
  · exact .refuse rfl
  · refine .get_bind (.bind (.check_same _) fun names u => ?_)
    have hdropped : Follows v id u (names.forM fun name => modify (·.unbind name))
        (names.forM fun name => modify (·.unbind name)) := by
      unfold Follows
      rw [on_forM_unbind, on_forM_unbind, foldl_unbind_translator]
      exact .ok () _
    exact .bind hdropped fun _ _ => .pure []

theorem call_translator (keyword : Text) (operands : List Text) :
    (v.translator t).call keyword operands = t.call keyword operands := by
  unfold call
  split
  · next name _ =>
    show ((v.definitions t.definitions).find name >>= _) = _
    rw [View.find_definitions]
    cases t.definitions.find name <;> rfl
  · rfl

theorem newDefinition_translator (n : Int) (name : Text) (skip : Instr) :
    (v.translator t).newDefinition (v.place n) name (v.instr skip) =
      v.definition (t.newDefinition n name skip) := by
  have hsize : (v.translator t).program.size = t.program.size := View.size_program
  have hdepth : (v.translator t).conditions.depth = t.conditions.depth := List.length_map _
  unfold newDefinition
  rw [hsize, hdepth]
  rfl

theorem follows_define (line : Line) (keyword : Text) (operands : List Text) :
    Follows v id t (define line keyword operands) (define (v.line line) keyword operands) := by
  unfold define
  split
  · next name _ =>
    refine .get_bind (.bind (.check_same _) fun _ _ => ?_)
    refine .bind (.require ?_ rfl) fun _ _ => .bind (.require rfl rfl) fun _ _ => ?_
    · exact congrArg (!·) (View.contains_definitions name)
    refine .bind (follows_draftSkip _ _) fun skip _ => ?_
    show Follows v id _ _ (enterDefinition ((v.translator t).newDefinition (v.place _) _ _) >>= _)
    rw [newDefinition_translator]
    refine .bind (follows_enterDefinition _) fun _ _ => .bind (follows_addScope _) fun _ _ => ?_
    exact .bind (.modify rfl) fun _ _ => .pure []
  · exact .refuse rfl

theorem follows_endDefine : Follows v id t endDefine endDefine := by
  unfold endDefine
  refine .get_bind ?_
  rw [show (v.translator t).definitions = v.definitions t.definitions from rfl,
    View.current?_definitions]
  cases t.definitions.current? with
  | none => exact .refuse rfl
  | some d =>
    have hdepth : (v.translator t).conditions.depth = t.conditions.depth := List.length_map _
    refine .bind (.require ?_ rfl) fun _ _ => ?_
    · rw [hdepth]
      rfl
    refine .bind follows_leaveDefinition fun definition _ => ?_
    refine .bind (follows_place definition.site _) fun _ _ => .bind (.modify rfl) fun _ _ => ?_
    exact .pure _

theorem newCondition_translator (n : Int) (size : Nat) (skip : Instr) :
    (v.translator t).newCondition (v.place n) size (v.instr skip) =
      v.condition (t.newCondition n size skip) := by
  have hsize : (v.translator t).program.size = t.program.size := View.size_program
  unfold newCondition
  rw [hsize]
  rfl

theorem follows_condition (line : Line) (keyword : Text) (operands : List Text) :
    Follows v id t (condition line keyword operands)
      (condition (v.line line) keyword operands) := by
  unfold condition
  split
  · exact .refuse rfl
  · next comparison operands =>
    refine .get_bind ?_
    rw [show (v.translator t).set = t.set from rfl]
    cases t.set.conditionCode? comparison with
    | none => exact .refuse rfl
    | some code =>
      refine .bind (.check_same _) fun head _ => .bind (follows_draftSkip _ _) fun skip _ => ?_
      show Follows v id _ _ (enterCondition ((v.translator t).newCondition (v.place _) _ _) >>= _)
      rw [newCondition_translator]
      exact .bind (follows_enterCondition _) fun _ _ => .pure _

theorem lastOf_translator (c : Condition) :
    (v.translator t).lastOf (v.condition c) = t.lastOf c := by
  have hsize : (v.translator t).program.size = t.program.size := View.size_program
  have hlast : (v.translator t).program.last? = t.program.last?.map v.instr := Array.back?_map
  unfold lastOf
  rw [hsize, hlast, Option.map_map]
  rfl

theorem follows_endCondition : Follows v id t endCondition endCondition := by
  unfold endCondition
  refine .get_bind ?_
  have hcurrent : (v.translator t).conditions.current? = t.conditions.current?.map v.condition :=
    List.head?_map
  rw [hcurrent]
  cases t.conditions.current? with
  | none => exact .refuse rfl
  | some c =>
    refine .bind (.require rfl ?_) fun _ _ => ?_
    · show View.diagnostic v ⟨.definitionOpen (v.place c.line), _, _, _⟩ = _
      simp [View.diagnostic, View.complaint]
    refine .bind follows_leaveCondition fun condition _ => ?_
    rw [lastOf_translator]
    exact .bind (follows_place condition.site _) fun _ _ => .pure []

theorem follows_perform (line : Line) (keyword : Text) (operands : List Text) (k : Keyword) :
    Follows v id t (perform line keyword operands k)
      (perform (v.line line) keyword operands k) := by
  cases k with
  | constant => exact follows_constant keyword operands
  | assign => exact follows_assign keyword operands
  | setAddress => exact follows_setAddress keyword operands
  | unset => exact follows_unset keyword operands
  | add | subtract | multiply | divide => exact follows_plain rfl
  | call => exact follows_plain (call_translator keyword operands)
  | define => exact follows_define line keyword operands
  | endDefine => exact follows_endDefine
  | condition => exact follows_condition line keyword operands
  | endCondition => exact follows_endCondition

theorem follows_process (line : Line) :
    Follows v id t (process line) (process (v.line line)) := by
  unfold process
  refine .get_bind ?_
  rw [show (v.line line).fields = line.fields from rfl]
  cases line.fields with
  | nil => exact .pure []
  | cons keyword operands =>
    dsimp only
    rw [show (v.translator t).set = t.set from rfl]
    cases t.set.conditionCode? keyword with
    | some code => exact follows_plain rfl
    | none =>
      cases Keyword.ofText? keyword with
      | some k => exact follows_perform line keyword operands k
      | none => exact .pure []

/-! ## Runs -/

theorem number_view (serial : Nat) (n : Int) (comment : Text) (ops : List Op) :
    number serial (v.place n) (v.remark comment) ops =
      (number serial n comment ops).map v.instr := by
  induction ops generalizing serial comment with
  | nil => rfl
  | cons op rest ih =>
    have hrest := ih (serial + 1) []
    rw [View.remark_nil] at hrest
    rw [number, hrest]
    rfl

theorem emit_view (line : Line) (ops : List Op) :
    (v.translator t).emit (v.line line) ops =
      ((t.emit line ops).1.map v.instr, v.translator (t.emit line ops).2) := by
  have hinstrs : ((v.translator t).emit (v.line line) ops).1 =
      (t.emit line ops).1.map v.instr := by
    show number _ _ (Translator.annotation (v.translator t) line.text) ops = _
    rw [View.annotation_translator]
    exact number_view _ _ _ _
  have hprogram : (v.program t.program).append ((v.translator t).emit (v.line line) ops).1 =
      v.program (t.program.append (t.emit line ops).1) := by
    rw [hinstrs, View.append_program]
  have hstate := congrArg (fun program =>
    { v.translator t with program, nextSerial := t.nextSerial + ops.length }) hprogram
  exact Prod.ext hinstrs hstate

/-- Refusals that look the same still do when they get the place of the statement. -/
theorem locate_view {d d' : Diagnostic} (h : v.diagnostic d' = v.diagnostic d) (line : Line) :
    v.diagnostic (d'.locate (v.line line).number ((v.line line).column 0)) =
      v.diagnostic (d.locate line.number (line.column 0)) := by
  cases hplaces : v.places with
  | true =>
    rw [View.diagnostic_of_places hplaces, View.diagnostic_of_places hplaces] at h
    rw [View.line_of_places hplaces, h]
  | false =>
    have hforget (e : Diagnostic) (n column : Int) :
        v.diagnostic (e.locate n column) = v.diagnostic e := by
      unfold Diagnostic.locate
      split
      · simp [View.diagnostic, View.place, hplaces]
      · rfl
    rw [hforget, hforget, h]

theorem alike_feed (t : Translator) (line : Line) :
    Alike v (List.map v.instr) (t.feed line) ((v.translator t).feed (v.line line)) := by
  have hprocess : Follows v id t (process line) (process (v.line line)) := follows_process line
  unfold Follows at hprocess
  unfold feed
  generalize (process line).on t = r at hprocess
  generalize (process (v.line line)).on (v.translator t) = r' at hprocess
  cases hprocess with
  | ok ops u =>
    dsimp only [id]
    rw [emit_view]
    exact .ok _ _
  | @error fault fault' u hfault =>
    cases fault with
    | rejected d =>
      cases fault' with
      | rejected d' =>
        have hlocated := locate_view (Fault.rejected.inj hfault) line
        exact .error u (congrArg Fault.rejected hlocated)
      | nameless | misplaced => cases hfault
    | nameless | misplaced =>
      cases fault' with
      | rejected => cases hfault
      | nameless | misplaced => exact .error u hfault

theorem alike_feedAll (t : Translator) (lines : List Line) :
    Alike v id (t.feedAll lines) ((v.translator t).feedAll (lines.map v.line)) := by
  induction lines generalizing t with
  | nil => exact .ok () t
  | cons line rest ih =>
    have hfeed := @alike_feed v t line
    rw [List.map_cons, feedAll, feedAll]
    generalize t.feed line = r at hfeed
    generalize (v.translator t).feed (v.line line) = r' at hfeed
    cases hfeed with
    | ok emitted u => exact ih u
    | error u hfault => exact .error u hfault

end Translator

end AccuAsm
