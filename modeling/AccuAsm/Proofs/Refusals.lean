import AccuAsm.Proofs.Growth

/-!
# How lines fail

A line that is not accepted is refused with a diagnostic.  The one other fault that a
statement can meet, a jump without a place in the program, never arises.

There are three groups.

* Checks.  A `Placeless` check leaves the place of its complaint open and does not complain
  about a scope.  All checks that statements make are of that kind but one of DEF.
* Refusals.  `Refusing` steps fail by refusing a statement and in no other way, and
  `Seated.refused_of_feed` says that of every line.  The diagnostic is about that line
  (`Seated.refused_at_line`), and about a scope only if the line would open one with the
  name of another (`Seated.reopens_of_refuses`).
* Scopes.  `Housed` says that the scopes that statements work in and go back to are there.
-/

namespace AccuAsm

/-! ## Checks -/

/-- Whether a complaint names no place, neither a line nor a scope. -/
def Diagnostic.isPlaceless (d : Diagnostic) : Bool := d.line = 0 ∧ d.category ≠ .duplicateScope

theorem Diagnostic.line_of_isPlaceless {d : Diagnostic} (h : d.isPlaceless = true) : d.line = 0 :=
  (of_decide_eq_true h).1

/-- A check whose complaint names no place. -/
def Placeless {α : Type} (e : Except Diagnostic α) : Prop :=
  ∀ d, e = .error d → d.isPlaceless = true

namespace Placeless

variable {α β : Type}

theorem ok (a : α) : Placeless (.ok a) := by
  intro d h
  cases h

theorem error {d : Diagnostic} (h : d.isPlaceless = true) :
    Placeless (.error d : Except Diagnostic α) := by
  rintro e ⟨⟩
  exact h

theorem bind {e : Except Diagnostic α} {f : α → Except Diagnostic β} (he : Placeless e)
    (hf : ∀ a, Placeless (f a)) : Placeless (e >>= f) := by
  cases e with
  | error d => exact .error (he d rfl)
  | ok a => exact hf a

theorem mapM {f : α → Except Diagnostic β} (hf : ∀ a, Placeless (f a)) (l : List α) :
    Placeless (l.mapM f) := by
  induction l with
  | nil => exact .ok _
  | cons a rest ih =>
    rw [List.mapM_cons]
    exact .bind (hf a) fun _ => .bind ih fun _ => .ok _

end Placeless

theorem Literal.placeless_parse (text : Text) : Placeless (parse text) := by
  unfold parse
  dsimp only
  split
  · exact .error rfl
  · split
    · exact .error rfl
    · split
      · exact .ok _
      · exact .error rfl

theorem Value.placeless_ofToken (token : Text) : Placeless (ofToken token) := by
  unfold ofToken
  split
  · exact .bind (Literal.placeless_parse _) fun _ => .ok _
  · split
    · exact .bind (Literal.placeless_parse _) fun _ => .ok _
    · exact .bind (Literal.placeless_parse _) fun _ => .ok _

theorem Memory.placeless_next (m : Memory) : Placeless m.next := by
  unfold next
  split
  · exact .ok _
  · exact .error rfl

namespace Translator

theorem placeless_resolve (t : Translator) (token : Text) : Placeless (t.resolve token) := by
  unfold resolve ScopeTable.resolve
  split
  · split
    · exact .ok _
    · exact .error rfl
  · exact Value.placeless_ofToken token

theorem placeless_destination (t : Translator) (token : Text) :
    Placeless (t.destination token) := by
  refine .bind (t.placeless_resolve token) fun value => ?_
  split
  · exact .ok _
  · exact .error rfl

theorem placeless_checkName (t : Translator) (name : Text) : Placeless (t.checkName name) := by
  unfold checkName Name.check
  split
  · exact .ok _
  · exact .error rfl

theorem placeless_checkAlias (t : Translator) (name : Text) : Placeless (t.checkAlias name) := by
  unfold checkAlias
  split
  · exact .ok _
  · exact t.placeless_checkName name

theorem placeless_localName (t : Translator) (token : Text) : Placeless (t.localName token) := by
  unfold localName
  split
  · exact .error rfl
  · split
    · exact .ok _
    · exact .error rfl

theorem placeless_operands3 (t : Translator) (a b dest : Text) :
    Placeless (t.operands3 a b dest) :=
  .bind (t.placeless_resolve a) fun _ => .bind (t.placeless_resolve b) fun _ =>
    .bind (t.placeless_destination dest) fun _ => .ok _

theorem placeless_arithmetic (t : Translator) (keyword : Text) (operation : Int64)
    (operands : List Text) : Placeless (t.arithmetic keyword operation operands) := by
  unfold arithmetic
  split
  · exact .bind (t.placeless_operands3 _ _ _) fun _ => .ok _
  · exact .error rfl

theorem placeless_wideArithmetic (t : Translator) (keyword : Text) (operation : Int64)
    (operands : List Text) : Placeless (t.wideArithmetic keyword operation operands) := by
  have hselector (token : Text) : Placeless (Selector.parse token) := by
    unfold Selector.parse
    split
    · exact .ok _
    · split
      · exact .ok _
      · exact .error rfl
  unfold wideArithmetic
  split
  · exact .bind (hselector _) fun _ => .bind (t.placeless_operands3 _ _ _) fun _ => .ok _
  · exact .error rfl

theorem placeless_comparison (t : Translator) (keyword : Text) (code : Int64)
    (operands : List Text) : Placeless (t.comparison keyword code operands) := by
  unfold comparison
  split
  · exact .bind (t.placeless_operands3 _ _ _) fun _ => .ok _
  · exact .error rfl

theorem placeless_branch (t : Translator) (keyword : Text) (code : Int64) (operands : List Text)
    (place : Operand) : Placeless (t.branch keyword code operands place) := by
  unfold branch
  split
  · exact .bind (t.placeless_resolve _) fun _ => .bind (t.placeless_resolve _) fun _ => .ok _
  · exact .error rfl

theorem placeless_call (t : Translator) (keyword : Text) (operands : List Text) :
    Placeless (t.call keyword operands) := by
  have hfind (name : Text) : Placeless (t.definitions.find name) := by
    unfold Definitions.find
    split
    · exact .ok _
    · exact .error rfl
  unfold call
  split
  · exact .bind (hfind _) fun _ => .ok _
  · exact .error rfl

/-! ## Refusals -/

open Step

variable {t t' : Translator} {line : Line} {emitted : List Instr}

section Refusing

variable {α β : Type}

/-- A step that fails only by refusing the statement, with a complaint that names no place. -/
def Refusing (step : Step α) : Prop :=
  ∀ t fault next, step.on t = (.error fault, next) →
    ∃ d, fault = .rejected d ∧ d.isPlaceless = true

theorem Refusing.refuse {d : Diagnostic} (hd : d.isPlaceless = true) :
    Refusing (Step.refuse d : Step α) := by
  intro t fault next h
  rw [on_refuse, Prod.mk.injEq, Except.error.injEq] at h
  exact ⟨d, h.1.symm, hd⟩

theorem Refusing.of_ok {step : Step α} (h : ∀ t, ∃ a next, step.on t = (.ok a, next)) :
    Refusing step := by
  intro t fault next hfault
  obtain ⟨a, behind, hok⟩ := h t
  simp [hok] at hfault

theorem Refusing.bind {x : Step α} {f : α → Step β} (hx : Refusing x) (hf : ∀ a, Refusing (f a)) :
    Refusing (x >>= f) := by
  intro t fault next h
  rw [on_bind] at h
  rcases hrun : x.on t with ⟨cause | a, behind⟩
  · rw [hrun, Prod.mk.injEq, Except.error.injEq] at h
    obtain ⟨rfl, rfl⟩ := h
    exact hx t cause behind hrun
  · rw [hrun] at h
    exact hf a behind fault next h

theorem Refusing.pure (a : α) : Refusing (Pure.pure a : Step α) := .of_ok fun t => ⟨a, t, rfl⟩

theorem Refusing.modify (f : Translator → Translator) : Refusing (modify f : Step Unit) :=
  .of_ok fun t => ⟨(), f t, rfl⟩

theorem Refusing.get_bind {f : Translator → Step β} (h : ∀ t, Refusing (f t)) :
    Refusing (get >>= f) :=
  .bind (.of_ok fun t => ⟨t, t, rfl⟩) h

theorem Refusing.check {e : Except Diagnostic α} (he : Placeless e) :
    Refusing (Step.check e) := by
  cases e with
  | error d => exact .refuse (he d rfl)
  | ok a => exact .pure a

theorem Refusing.require {d : Diagnostic} (hd : d.isPlaceless = true) (c : Bool) :
    Refusing (Step.require c d) := by
  cases c with
  | false => exact .refuse hd
  | true => exact .pure ()

end Refusing

theorem refusing_plain {outcome : Translator → Except Diagnostic (List Op)}
    (h : ∀ t, Placeless (outcome t)) : Refusing (plain outcome) :=
  .get_bind fun t => .check (h t)

theorem refusing_constant (keyword : Text) (operands : List Text) :
    Refusing (constant keyword operands) := by
  unfold constant
  split
  · refine .get_bind fun t => .bind (.check (t.placeless_checkName _)) fun _ => ?_
    refine .bind (.check (Literal.placeless_parse _)) fun n => .bind (.require rfl _) fun _ => ?_
    exact .bind (.modify _) fun _ => .pure _
  · exact .refuse rfl

theorem refusing_assignee (token : Text) : Refusing (assignee token) := by
  refine .get_bind fun t => ?_
  have hallocate : Refusing allocate :=
    .get_bind fun t => .bind (.check t.memory.placeless_next) fun _ =>
      .bind (.modify _) fun _ => .pure _
  split
  · exact .check (t.placeless_destination token)
  · split
    · exact .check (t.placeless_destination token)
    · refine .bind (.check (t.placeless_checkName _)) fun _ => .bind hallocate fun _ => ?_
      exact .bind (.modify _) fun _ => .pure _

theorem refusing_assign (keyword : Text) (operands : List Text) :
    Refusing (assign keyword operands) := by
  unfold assign
  split
  · refine .get_bind fun t => .bind (.check (t.placeless_resolve _)) fun _ => ?_
    exact .bind (refusing_assignee _) fun _ => .pure _
  · exact .refuse rfl

theorem refusing_setAddress (keyword : Text) (operands : List Text) :
    Refusing (setAddress keyword operands) := by
  unfold setAddress
  split
  · split
    · exact .refuse rfl
    · refine .get_bind fun t => .bind (.check (t.placeless_resolve _)) fun _ => ?_
      refine .bind (.require rfl _) fun _ => .bind (.check (t.placeless_checkAlias _)) fun _ => ?_
      exact .bind (.modify _) fun _ => .pure _
  · exact .refuse rfl

theorem refusing_unset (keyword : Text) (operands : List Text) :
    Refusing (unset keyword operands) := by
  unfold unset
  split
  · exact .refuse rfl
  · refine .get_bind fun t => .bind (.check (.mapM t.placeless_localName _)) fun names => ?_
    refine .bind (.of_ok fun t => ?_) fun _ => .pure _
    exact ⟨_, _, on_forM_unbind names t⟩

/-- The line would open a scope with the name of another one, and nothing else is wrong with it. -/
def Reopens (t : Translator) (line : Line) : Prop :=
  ∃ keyword name rest, line.fields = keyword :: name :: rest ∧ t.checkName name = .ok () ∧
    t.definitions.contains name = false ∧ t.scopes.find? (t.bodyName name) ≠ none

/-- DEF is the one statement that can complain about a scope.  Behind its checks nothing fails. -/
theorem refused_of_define {keyword : Text} {operands : List Text} {fault : Fault}
    (hfields : line.fields = keyword :: operands)
    (hfault : (define line keyword operands).on t = (.error fault, t')) :
    ∃ d, fault = .rejected d ∧ d.line = 0 ∧ (d.isPlaceless = true ∨ Reopens t line) := by
  match operands with
  | [] =>
    obtain rfl := Except.error.inj (Prod.mk.inj hfault).1
    exact ⟨_, rfl, rfl, .inl rfl⟩
  | name :: rest =>
    have hrun := hfault
    rw [define, on_get_bind] at hfault
    cases hname : t.checkName name with
    | error d =>
      rw [hname, on_bind_of_error (on_check_error d t)] at hfault
      obtain rfl := Except.error.inj (Prod.mk.inj hfault).1
      have hplaceless := t.placeless_checkName name d hname
      exact ⟨d, rfl, d.line_of_isPlaceless hplaceless, .inl hplaceless⟩
    | ok =>
      rw [hname, on_bind_of_ok (on_check_ok () t)] at hfault
      cases hfresh : t.definitions.contains name with
      | true =>
        rw [hfresh] at hfault
        obtain rfl := Except.error.inj (Prod.mk.inj hfault).1
        exact ⟨_, rfl, rfl, .inl rfl⟩
      | false =>
        cases hscope : t.scopes.find? (t.bodyName name) with
        | none =>
          rw [on_define hname hfresh hscope] at hrun
          cases (Prod.mk.inj hrun).1
        | some scope =>
          rw [hfresh, hscope] at hfault
          obtain rfl := Except.error.inj (Prod.mk.inj hfault).1
          refine ⟨_, rfl, rfl, .inr ⟨keyword, name, rest, hfields, hname, hfresh, ?_⟩⟩
          simp [hscope]

theorem refusing_condition (line : Line) (keyword : Text) (operands : List Text) :
    Refusing (condition line keyword operands) := by
  unfold condition
  split
  · exact .refuse rfl
  · refine .get_bind fun t => ?_
    split
    · exact .refuse rfl
    · refine .bind (.check (t.placeless_branch _ _ _ _)) fun _ => ?_
      refine .bind (.of_ok fun t => ⟨_, _, on_draftSkip _ _ t⟩) fun _ => ?_
      exact .bind (.modify _) fun _ => .pure _

theorem Seated.refused_of_endDefine (h : Seated t) {fault : Fault}
    (hfault : endDefine.on t = (.error fault, t')) :
    ∃ d, fault = .rejected d ∧ d.isPlaceless = true := by
  cases hcurrent : t.definitions.current? with
  | none =>
    rw [on_endDefine_none hcurrent, Prod.mk.injEq, Except.error.injEq] at hfault
    exact ⟨_, hfault.1.symm, rfl⟩
  | some d =>
    by_cases hdepth : t.conditions.depth = d.conditionDepth
    · -- the jump over the block has a place
      obtain ⟨position, rest, hstack, hrecord⟩ := current?_eq_some hcurrent
      obtain ⟨program, hinsert⟩ := h.exists_insert_definition hstack hrecord
      rw [on_endDefine hstack hrecord hdepth, hinsert] at hfault
      simp at hfault
    · rw [on_endDefine_crossing hcurrent hdepth, Prod.mk.injEq, Except.error.injEq] at hfault
      exact ⟨_, hfault.1.symm, rfl⟩

theorem Seated.refused_of_endCondition (h : Seated t) {fault : Fault}
    (hfault : endCondition.on t = (.error fault, t')) :
    ∃ d, fault = .rejected d ∧ d.isPlaceless = true := by
  cases hstack : t.conditions.stack with
  | nil =>
    rw [on_endCondition_none hstack, Prod.mk.injEq, Except.error.injEq] at hfault
    exact ⟨_, hfault.1.symm, rfl⟩
  | cons c rest =>
    by_cases hdepth : t.definitions.depth = c.definitionDepth
    · obtain ⟨program, hinsert⟩ := h.exists_insert_condition hstack
      rw [on_endCondition hstack hdepth, hinsert] at hfault
      simp at hfault
    · rw [on_endCondition_crossing hstack hdepth, Prod.mk.injEq, Except.error.injEq] at hfault
      exact ⟨_, hfault.1.symm, rfl⟩

theorem Seated.refused_of_process (h : Seated t) {fault : Fault}
    (hfault : (process line).on t = (.error fault, t')) :
    ∃ d, fault = .rejected d ∧ d.line = 0 ∧ (d.isPlaceless = true ∨ Reopens t line) := by
  have hother (hplaceless : ∃ d, fault = .rejected d ∧ d.isPlaceless = true) :
      ∃ d, fault = .rejected d ∧ d.line = 0 ∧ (d.isPlaceless = true ∨ Reopens t line) := by
    obtain ⟨d, hd, hplaceless⟩ := hplaceless
    exact ⟨d, hd, d.line_of_isPlaceless hplaceless, .inl hplaceless⟩
  cases hk : t.set.statement? line with
  | none =>
    obtain ⟨keyword, operands, code, _, _, hrun⟩ | ⟨_, hrun⟩ := on_process_of_none hk
    · rw [hrun] at hfault
      exact hother (Refusing.check (t.placeless_comparison keyword code operands) t fault t' hfault)
    · simp [hrun] at hfault
  | some k =>
    obtain ⟨keyword, operands, hfields, _, _, hrun⟩ := on_process hk
    rw [hrun] at hfault
    cases k with
    | constant => exact hother (refusing_constant keyword operands t fault t' hfault)
    | assign => exact hother (refusing_assign keyword operands t fault t' hfault)
    | setAddress => exact hother (refusing_setAddress keyword operands t fault t' hfault)
    | unset => exact hother (refusing_unset keyword operands t fault t' hfault)
    | add | subtract =>
      exact hother (refusing_plain (fun t => t.placeless_arithmetic _ _ _) t fault t' hfault)
    | multiply | divide =>
      exact hother (refusing_plain (fun t => t.placeless_wideArithmetic _ _ _) t fault t' hfault)
    | call => exact hother (refusing_plain (fun t => t.placeless_call _ _) t fault t' hfault)
    | define => exact refused_of_define hfields hfault
    | condition => exact hother (refusing_condition line keyword operands t fault t' hfault)
    | endDefine => exact hother (h.refused_of_endDefine hfault)
    | endCondition => exact hother (h.refused_of_endCondition hfault)

/-- A refused line is refused with a diagnostic of one of its checks, which gets the line as its
place. -/
theorem Seated.located_of_feed (h : Seated t) {fault : Fault}
    (hfault : t.feed line = (.error fault, t')) :
    ∃ d, fault = .rejected d ∧ d.line = line.number ∧
      (d.category = .duplicateScope → Reopens t line) := by
  rw [Translator.feed] at hfault
  split at hfault
  · simp at hfault
  · next cause next hrun =>
    obtain ⟨d, hd, hline, hcheck⟩ := h.refused_of_process hrun
    obtain rfl : cause = d := Fault.rejected.inj hd
    rw [Prod.mk.injEq, Except.error.injEq] at hfault
    refine ⟨_, hfault.1.symm, ?_⟩
    rw [Diagnostic.locate, if_pos hline]
    refine ⟨rfl, fun hscope => hcheck.resolve_left fun hplaceless => ?_⟩
    exact (of_decide_eq_true hplaceless).2 hscope
  · next cause next hother hrun =>
    obtain ⟨d, rfl, _⟩ := h.refused_of_process hrun
    exact absurd rfl (hother d)

/-- A line that is not accepted is refused with a diagnostic about itself. -/
theorem Seated.refused_at_line (h : Seated t) {fault : Fault}
    (hfault : t.feed line = (.error fault, t')) :
    ∃ d, fault = .rejected d ∧ d.line = line.number := by
  obtain ⟨d, hd, hline, _⟩ := h.located_of_feed hfault
  exact ⟨d, hd, hline⟩

/-- A line is refused because of a scope only if it would open that scope a second time. -/
theorem Seated.reopens_of_refuses (h : Seated t) (hrefuses : Refuses t line .duplicateScope) :
    Reopens t line := by
  obtain ⟨d, next, hfault, hcategory⟩ := hrefuses
  obtain ⟨e, he, _, hscope⟩ := h.located_of_feed hfault
  obtain rfl : d = e := Fault.rejected.inj he
  exact hscope hcategory

/-- A line that is not accepted is refused, and no jump is ever without a place. -/
theorem Seated.refused_of_feed (h : Seated t) {fault : Fault}
    (hfault : t.feed line = (.error fault, t')) : ∃ d, fault = .rejected d := by
  obtain ⟨d, hd, _⟩ := h.refused_at_line hfault
  exact ⟨d, hd⟩

/-! ## Scopes -/

/-- The scopes that statements work in and go back to are there. -/
structure Housed (t : Translator) : Prop where
  current : t.scope < t.scopes.size
  /-- The body of a definition has a scope, and there is one around it. -/
  bodies : ∀ d ∈ t.definitions.records, ∃ s outer, t.scopes.scopes[d.scope]? = some s ∧
    s.parent = some outer ∧ outer < t.scopes.size

theorem housed_new (config : Config) : Housed (new config) where
  current := (agrees_new config).inside
  bodies := by simp [new]

theorem Housed.define (h : Housed t) (line : Line) (name : Text) :
    Housed (t.defined line name) := by
  have hsize : (t.defined line name).scopes.size = t.scopes.size + 1 := Array.size_push _
  constructor
  case current =>
    rw [hsize]
    exact Nat.lt_succ_self _
  case bodies =>
    intro d hd
    rw [hsize]
    rcases Array.mem_push.mp hd with hd | rfl
    · obtain ⟨s, outer, hs, hparent, houter⟩ := h.bodies d hd
      refine ⟨s, outer, ?_, hparent, by omega⟩
      exact (ScopeTable.getElem?_push (Array.getElem?_eq_some_iff.mp hs).1 _).trans hs
    · have := h.current
      exact ⟨_, t.scope, Array.getElem?_push_size, rfl, by omega⟩

theorem Housed.endDefine {d : Definition} {position : Nat} (h : Housed t)
    (hrecord : t.definitions.records[position]? = some d) (rest : List Nat) (program : Program) :
    Housed (t.endedDefinition d position rest program) where
  current := by
    obtain ⟨s, outer, hs, hparent, houter⟩ := h.bodies d (Array.mem_of_getElem? hrecord)
    have hgoes : t.outerScope d = outer := by simp [outerScope, hs, hparent]
    show t.outerScope d < t.scopes.size
    rw [hgoes]
    exact houter
  bodies := by
    intro e he
    obtain ⟨e', he', hsame | hsame⟩ := exists_of_mem_modify_closed hrecord he
    · rw [hsame]
      exact h.bodies e' he'
    · rw [hsame]
      exact h.bodies e' he'

theorem Housed.feed (h : Housed t) (hfeed : t.feed line = (.ok emitted, t')) : Housed t' := by
  obtain ⟨ops, next, heffect, rfl⟩ := effect_of_feed hfeed
  cases heffect with
  | names change memory =>
    have hgrows := ScopeTable.Grows.modifyBindings t.scopes change
    constructor
    case current => exact Nat.lt_of_lt_of_le h.current hgrows.size_le
    case bodies =>
      intro d hd
      obtain ⟨s, outer, hs, hparent, houter⟩ := h.bodies d hd
      obtain ⟨s', hs', hsame⟩ := hgrows.parent _ s hs
      exact ⟨s', outer, hs', hsame.trans hparent, Nat.lt_of_lt_of_le houter hgrows.size_le⟩
  | define => exact ⟨(h.define line _).current, (h.define line _).bodies⟩
  | condition | endCondition => exact ⟨h.current, h.bodies⟩
  | @endDefine d position rest program _ _ hrecord =>
    exact ⟨(h.endDefine hrecord rest program).current, (h.endDefine hrecord rest program).bodies⟩

end Translator

end AccuAsm
