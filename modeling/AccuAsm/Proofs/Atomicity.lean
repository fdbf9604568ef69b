import AccuAsm.Proofs.Steps

/-!
# A refused statement leaves no trace

The steps of a statement change the state one after the other, and nothing is undone
when one of them fails.  A refused statement still leaves the state as it was, because
every step that can fail stands in front of the first change, or repeats a check that
has already passed.

There are four groups.

* The program.  `insert_ok` and `insert_eq_ok` say when an instruction can be placed.
* Sites.  `Seated` is the invariant that the jumps over the open blocks have a place in
  the program.  `Seated.feed` is the step lemma, and `Seated.feedEach` the run lemma.
* Atomic steps.  `Atomic` says that a failure leaves the state as it was.  The rules
  below it take a chain apart: checks first, then changes that cannot fail.
* Runs.  `Seated.feed_error_eq` is the step lemma and `Seated.feedAll_accepted` the run
  lemma: the lines that are refused might as well not have been fed.
-/

namespace AccuAsm

/-! ## The program -/

namespace Program

@[simp] theorem toList_append (p : Program) (instrs : List Instr) :
    (p.append instrs).code.toList = p.code.toList ++ instrs :=
  Array.toList_appendList

@[simp] theorem size_append (p : Program) (instrs : List Instr) :
    (p.append instrs).size = p.size + instrs.length := by
  rw [size, ← Array.length_toList, toList_append, List.length_append, Array.length_toList, size]

theorem insert_ok {p p' : Program} {site : Int} {i : Instr} (h : p.insert site i = .ok p') :
    0 ≤ site ∧ site ≤ p.size ∧ p'.code.toList = p.code.toList.insertIdx site.toNat i := by
  rw [insert] at h
  split at h
  · next hsite =>
    simp only [Except.ok.injEq] at h
    subst h
    refine ⟨hsite.1, ?_, by simp⟩
    have := hsite.2
    simp only [size]
    omega
  · simp at h

theorem insert_eq_ok {p : Program} {site : Int} (i : Instr) (hlow : 0 ≤ site)
    (hhigh : site ≤ p.size) : ∃ p', p.insert site i = .ok p' := by
  have hsite : 0 ≤ site ∧ site.toNat ≤ p.code.size := by
    simp only [size] at hhigh
    omega
  rw [insert, dif_pos hsite]
  exact ⟨_, rfl⟩

theorem size_of_insert_ok {p p' : Program} {site : Int} {i : Instr}
    (h : p.insert site i = .ok p') : p'.size = p.size + 1 := by
  obtain ⟨hlow, hhigh, hcode⟩ := insert_ok h
  have hlength := congrArg List.length hcode
  simp only [size] at hhigh ⊢
  rw [List.length_insertIdx_of_le_length (by simp; omega)] at hlength
  simpa using hlength

end Program

namespace Translator

open Step

variable {t t' : Translator} {line : Line} {ops : List Op} {instrs : List Instr}

@[simp] theorem length_number (serial : Nat) (line : Int) (comment : Text) (ops : List Op) :
    (number serial line comment ops).length = ops.length := by
  induction ops generalizing serial comment with
  | nil => rfl
  | cons op rest ih => simp [number, ih]

/-! ## Sites -/

/-- The jumps over the open blocks have a place in the program. -/
structure Seated (t : Translator) : Prop where
  /-- Every open definition is known, and its jump has a place. -/
  definitions : ∀ position ∈ t.definitions.stack, ∃ d,
    t.definitions.records[position]? = some d ∧ 0 ≤ d.site ∧ d.site ≤ t.program.size
  /-- The jump over every open condition has a place. -/
  conditions : ∀ c ∈ t.conditions.stack, 0 ≤ c.site ∧ c.site ≤ t.program.size

theorem seated_new (config : Config) : Seated (new config) where
  definitions := by simp [new]
  conditions := by simp [new]

/-- Sites stay inside a program that grows, if those of newly opened blocks lie inside it. -/
theorem Seated.grow (h : Seated t) (hsize : t.program.size ≤ t'.program.size)
    (hstack : ∀ position ∈ t'.definitions.stack, position ∈ t.definitions.stack ∨ ∃ d,
      t'.definitions.records[position]? = some d ∧ 0 ≤ d.site ∧ d.site ≤ t'.program.size)
    (hrecords : ∀ (position : Nat) (d : Definition), t.definitions.records[position]? = some d →
      ∃ d', t'.definitions.records[position]? = some d' ∧ d'.site = d.site)
    (hconditions : ∀ c ∈ t'.conditions.stack, c ∈ t.conditions.stack ∨
      0 ≤ c.site ∧ c.site ≤ t'.program.size) : Seated t' where
  definitions := by
    intro position hposition
    rcases hstack position hposition with hold | hnew
    · obtain ⟨d, hd, hlow, hhigh⟩ := h.definitions position hold
      obtain ⟨d', hd', hsite⟩ := hrecords position d hd
      exact ⟨d', hd', by omega, by omega⟩
    · exact hnew
  conditions := by
    intro c hc
    rcases hconditions c hc with hold | hnew
    · have := h.conditions c hold
      omega
    · exact hnew

theorem getElem?_modify_closed {records : Array Definition} {position : Nat} {d : Definition}
    (hrecord : records[position]? = some d) (other : Nat) (e : Definition)
    (he : records[other]? = some e) :
    ∃ e', (records.modify position fun _ => { d with closed := true })[other]? = some e' ∧
      e' = if position = other then { e with closed := true } else e := by
  rw [Array.getElem?_modify]
  by_cases hsame : position = other
  · subst hsame
    rw [hrecord, Option.some.injEq] at he
    subst he
    simp [hrecord]
  · simp [hsame, he]

theorem exists_of_mem_modify_closed {records : Array Definition} {position : Nat} {d e : Definition}
    (hrecord : records[position]? = some d)
    (he : e ∈ records.modify position fun _ => { d with closed := true }) :
    ∃ e' ∈ records, e = e' ∨ e = { e' with closed := true } := by
  obtain ⟨index, hindex⟩ := Array.mem_iff_getElem?.mp he
  rw [Array.getElem?_modify] at hindex
  split at hindex
  · next hsame =>
    subst hsame
    simp only [hrecord, Option.map_some, Option.some.injEq] at hindex
    exact ⟨d, Array.mem_of_getElem? hrecord, .inr hindex.symm⟩
  · exact ⟨e, Array.mem_of_getElem? hindex, .inl rfl⟩

/-- What one accepted statement does to the sites. -/
theorem Seated.feed (h : Seated t) (hfeed : t.feed line = (.ok instrs, t')) : Seated t' := by
  obtain ⟨ops, next, hrun, hemit⟩ := feed_ok hfeed
  have ht' : t' = (next.emit line ops).2 := by rw [hemit]
  have hgrown : t'.program.size = next.program.size + ops.length := by
    rw [ht', emit]
    simp
  have hdefinitions : t'.definitions = next.definitions := by rw [ht']; rfl
  have hconditions : t'.conditions = next.conditions := by rw [ht']; rfl
  -- no effect takes an instruction away, so only the blocks that it opens need a new site
  cases effect_of_process hrun with
  | names change memory hk =>
    have hgrown : t'.program.size = t.program.size + _ := hgrown
    refine h.grow (by omega) ?_ ?_ ?_
    · exact fun position hposition => .inl (hdefinitions ▸ hposition)
    · exact fun position d hd => ⟨d, hdefinitions ▸ hd, rfl⟩
    · exact fun c hc => .inl (hconditions ▸ hc)
  | define hk hfields hname hfresh hscope =>
    have hgrown : t'.program.size = t.program.size + 0 := hgrown
    refine h.grow (by omega) ?_ ?_ ?_
    · intro position hposition
      rw [hdefinitions] at hposition ⊢
      rcases List.mem_cons.mp hposition with rfl | hold
      · refine .inr ⟨_, Array.getElem?_push_size, ?_⟩
        simp only [newDefinition, Definition.new]
        omega
      · exact .inl hold
    · intro position d hd
      refine ⟨d, ?_, rfl⟩
      have hlt := (Array.getElem?_eq_some_iff.mp hd).1
      rw [hdefinitions, defined, Array.getElem?_push, if_neg (by omega), hd]
    · exact fun c hc => .inl (hconditions ▸ hc)
  | condition hk hfields hcode hleft hright =>
    have hgrown : t'.program.size = t.program.size + _ := hgrown
    refine h.grow (by omega) ?_ ?_ ?_
    · exact fun position hposition => .inl (hdefinitions ▸ hposition)
    · exact fun position d hd => ⟨d, hdefinitions ▸ hd, rfl⟩
    · intro c hc
      rw [hconditions] at hc
      -- the jump goes behind the head of the condition, which is put into the program first
      rcases List.mem_cons.mp hc with rfl | hold
      · refine .inr ?_
        simp only [newCondition]
        omega
      · exact .inl hold
  | @endDefine d position rest program hk hstack hrecord hdepth hinsert =>
    have hplaced := Program.size_of_insert_ok hinsert
    have hgrown : t'.program.size = program.size + _ := hgrown
    refine h.grow (by omega) ?_ ?_ ?_
    · intro other hother
      rw [hdefinitions] at hother
      exact .inl (hstack ▸ List.mem_cons_of_mem _ hother)
    · intro other e he
      obtain ⟨e', he', rfl⟩ := getElem?_modify_closed hrecord other e he
      rw [hdefinitions]
      refine ⟨_, he', ?_⟩
      split <;> rfl
    · exact fun c hc => .inl (hconditions ▸ hc)
  | @endCondition c rest program hk hstack hdepth hinsert =>
    have hplaced := Program.size_of_insert_ok hinsert
    have hgrown : t'.program.size = program.size + _ := hgrown
    refine h.grow (by omega) ?_ ?_ ?_
    · exact fun position hposition => .inl (hdefinitions ▸ hposition)
    · exact fun position d hd => ⟨d, hdefinitions ▸ hd, rfl⟩
    · intro other hother
      rw [hconditions] at hother
      exact .inl (hstack ▸ List.mem_cons_of_mem _ hother)

/-- The jump over the innermost definition can be placed. -/
theorem Seated.exists_insert_definition {position : Nat} {rest : List Nat} {d : Definition}
    (h : Seated t) (hstack : t.definitions.stack = position :: rest)
    (hrecord : t.definitions.records[position]? = some d) :
    ∃ program, t.program.insert d.site (t.definitionSkip d) = .ok program := by
  obtain ⟨e, he, hlow, hhigh⟩ := h.definitions position (by simp [hstack])
  rw [hrecord, Option.some.injEq] at he
  subst he
  exact Program.insert_eq_ok (t.definitionSkip d) hlow hhigh

theorem Seated.exists_insert_condition {c : Condition} {rest : List Condition} (h : Seated t)
    (hstack : t.conditions.stack = c :: rest) :
    ∃ program, t.program.insert c.site (t.conditionSkip c) = .ok program := by
  obtain ⟨hlow, hhigh⟩ := h.conditions c (by simp [hstack])
  exact Program.insert_eq_ok (t.conditionSkip c) hlow hhigh

/-! ## Atomic steps -/

section Atomic

variable {α β : Type}

/-- A step that leaves the state as it was when it fails. -/
def Atomic (step : Step α) (t : Translator) : Prop :=
  ∀ fault next, step.on t = (.error fault, next) → next = t

theorem Atomic.of_ok {step : Step α} {a : α} {next : Translator} (h : step.on t = (.ok a, next)) :
    Atomic step t := by
  intro fault other hother
  simp [h] at hother

theorem Atomic.of_error {step : Step α} {fault : Fault} (h : step.on t = (.error fault, t)) :
    Atomic step t := by
  intro other next hother
  rw [h, Prod.mk.injEq] at hother
  exact hother.2.symm

theorem Atomic.refuse (d : Diagnostic) : Atomic (refuse d : Step α) t := .of_error rfl

theorem Atomic.check (e : Except Diagnostic α) : Atomic (check e) t := by
  cases e with
  | error d => exact .of_error rfl
  | ok a => exact .of_ok rfl

theorem Atomic.get_bind {f : Translator → Step β} (h : Atomic (f t) t) :
    Atomic (get >>= f) t := by
  intro fault next hnext
  rw [on_get_bind] at hnext
  exact h fault next hnext

theorem Atomic.check_bind {e : Except Diagnostic α} {f : α → Step β}
    (h : ∀ a, e = .ok a → Atomic (f a) t) : Atomic (Step.check e >>= f) t := by
  cases e with
  | error d => exact .of_error (on_bind_of_error rfl)
  | ok a =>
    intro fault next hnext
    rw [on_bind_of_ok (on_check_ok a t)] at hnext
    exact h a rfl fault next hnext

theorem Atomic.require_bind {c : Bool} {d : Diagnostic} {f : Unit → Step β}
    (h : c = true → Atomic (f ()) t) : Atomic (require c d >>= f) t := by
  cases c with
  | false => exact .of_error (on_bind_of_error rfl)
  | true =>
    intro fault next hnext
    rw [on_bind_of_ok (on_require rfl)] at hnext
    exact h rfl fault next hnext

theorem Atomic.bind_pure {x : Step α} {f : α → β} (h : Atomic x t) :
    Atomic (x >>= fun a => pure (f a)) t := by
  intro fault next hnext
  rw [on_bind] at hnext
  rcases hx : x.on t with ⟨cause | a, behind⟩
  · rw [hx] at hnext
    simp only [Prod.mk.injEq, Except.error.injEq] at hnext
    exact hnext.2 ▸ h cause behind hx
  · simp [hx] at hnext

end Atomic

/-! ## Atomic statements -/

theorem atomic_constant (keyword : Text) (operands : List Text) :
    Atomic (constant keyword operands) t := by
  match operands with
  | [] | [_] => exact .refuse _
  | name :: literal :: rest =>
    refine .get_bind (.check_bind fun _ _ => .check_bind fun n _ => .require_bind fun _ => ?_)
    exact .of_ok rfl

theorem atomic_assignee (token : Text) : Atomic (assignee token) t := by
  refine .get_bind ?_
  split
  · exact .check _
  · next name _ =>
    split
    · exact .check _
    · refine .check_bind fun _ _ => ?_
      -- The memory is asked before it is changed, and binding the name cannot fail.
      cases hindex : t.memory.next with
      | error d =>
        have hallocate : allocate.on t = (.error (.rejected d), t) := by
          rw [allocate, on_get_bind, hindex]
          exact on_bind_of_error rfl
        exact .of_error (on_bind_of_error hallocate)
      | ok index => exact .of_ok ((on_bind_of_ok (on_allocate hindex)).trans rfl)

theorem atomic_assign (keyword : Text) (operands : List Text) :
    Atomic (assign keyword operands) t := by
  match operands with
  | [] | [_] => exact .refuse _
  | dest :: source :: rest =>
    exact .get_bind (.check_bind fun value _ => .bind_pure (atomic_assignee dest))

theorem atomic_setAddress (keyword : Text) (operands : List Text) :
    Atomic (setAddress keyword operands) t := by
  match operands with
  | [] | [_] => exact .refuse _
  | dest :: source :: rest =>
    rw [setAddress]
    split
    · exact .refuse _
    · refine .get_bind (.check_bind fun value _ => .require_bind fun _ => .check_bind fun _ _ => ?_)
      exact .of_ok rfl

theorem atomic_unset (keyword : Text) (operands : List Text) :
    Atomic (unset keyword operands) t := by
  rw [unset]
  split
  · exact .refuse _
  · refine .get_bind (.check_bind fun names _ => ?_)
    exact .of_ok ((on_bind_of_ok (on_forM_unbind names t)).trans rfl)

/-- DEF registers the definition before it opens the scope, and a scope that cannot be opened would
leave the definition behind.  The two requirements rule that out. -/
theorem atomic_define (keyword : Text) (operands : List Text) :
    Atomic (define line keyword operands) t := by
  match operands with
  | [] => exact .refuse _
  | name :: rest =>
    cases hname : t.checkName name with
    | error d =>
      refine .get_bind ?_
      rw [hname]
      exact .check_bind fun _ h => by simp at h
    | ok =>
      by_cases hfresh : t.definitions.contains name = false
      · by_cases hscope : t.scopes.find? (t.bodyName name) = none
        · exact .of_ok (on_define hname hfresh hscope)
        · refine .get_bind (.check_bind fun _ _ => .require_bind fun _ => .require_bind fun h => ?_)
          exact absurd (Option.isNone_iff_eq_none.mp h) hscope
      · refine .get_bind (.check_bind fun _ _ => .require_bind fun h => ?_)
        simp [hfresh] at h

theorem atomic_condition (keyword : Text) (operands : List Text) :
    Atomic (condition line keyword operands) t := by
  match operands with
  | [] => exact .refuse _
  | comparison :: operands =>
    refine .get_bind ?_
    split
    · exact .refuse _
    · exact .check_bind fun head _ => .of_ok rfl

/-- ENDDEF closes the definition before it places the jump, so a jump without a place would leave a
trace. -/
theorem Seated.atomic_endDefine (h : Seated t) : Atomic endDefine t := by
  cases hcurrent : t.definitions.current? with
  | none => exact .of_error (on_endDefine_none hcurrent)
  | some d =>
    by_cases hdepth : t.conditions.depth = d.conditionDepth
    · obtain ⟨position, rest, hstack, hrecord⟩ := current?_eq_some hcurrent
      obtain ⟨program, hinsert⟩ := h.exists_insert_definition hstack hrecord
      exact .of_ok (by rw [on_endDefine hstack hrecord hdepth, hinsert])
    · exact .of_error (on_endDefine_crossing hcurrent hdepth)

theorem Seated.atomic_endCondition (h : Seated t) : Atomic endCondition t := by
  cases hstack : t.conditions.stack with
  | nil => exact .of_error (on_endCondition_none hstack)
  | cons c rest =>
    by_cases hdepth : t.definitions.depth = c.definitionDepth
    · obtain ⟨program, hinsert⟩ := h.exists_insert_condition hstack
      exact .of_ok (by rw [on_endCondition hstack hdepth, hinsert])
    · exact .of_error (on_endCondition_crossing hstack hdepth)

/-- Every statement is atomic where the jumps over the open blocks have a place. -/
theorem Seated.atomic_process (h : Seated t) (line : Line) : Atomic (process line) t := by
  have hplain (outcome : Translator → Except Diagnostic (List Op)) : Atomic (plain outcome) t :=
    .get_bind (.check _)
  refine .get_bind ?_
  split
  · exact .of_ok rfl
  · next keyword operands _ =>
    split
    · exact hplain _
    · split
      · next k _ =>
        cases k with
        | constant => exact atomic_constant keyword operands
        | assign => exact atomic_assign keyword operands
        | setAddress => exact atomic_setAddress keyword operands
        | unset => exact atomic_unset keyword operands
        | add | subtract | multiply | divide | call => exact hplain _
        | define => exact atomic_define keyword operands
        | endDefine => exact h.atomic_endDefine
        | condition => exact atomic_condition keyword operands
        | endCondition => exact h.atomic_endCondition
      · exact .of_ok rfl

/-! ## Runs -/

/-- The state behind lines that are fed one after the other, whether they are refused or not. -/
def feedEach (t : Translator) : List Line → Translator
  | [] => t
  | line :: rest => (t.feed line).2.feedEach rest

/-- The lines that are accepted when all of them are fed. -/
def accepted (t : Translator) : List Line → List Line
  | [] => []
  | line :: rest =>
    match t.feed line with
    | (.ok _, next) => line :: next.accepted rest
    | (.error _, next) => next.accepted rest

/-- A refused line leaves the state as it was. -/
theorem Seated.feed_error_eq (h : Seated t) {fault : Fault}
    (hfeed : t.feed line = (.error fault, t')) : t' = t := by
  obtain ⟨cause, hcause⟩ := feed_error hfeed
  exact h.atomic_process line cause t' hcause

/-- What one line does to the sites, refused or not. -/
theorem Seated.feed_any (h : Seated t) (line : Line) : Seated (t.feed line).2 := by
  rcases hfeed : t.feed line with ⟨fault | instrs, next⟩
  · rw [h.feed_error_eq hfeed]
    exact h
  · exact h.feed hfeed

/-- The jumps over the open blocks have a place behind every run. -/
theorem Seated.feedEach (h : Seated t) (lines : List Line) : Seated (t.feedEach lines) := by
  induction lines generalizing t with
  | nil => exact h
  | cons line rest ih => exact ih (h.feed_any line)

theorem Seated.feedEach_config (h : Seated t) (lines : List Line) :
    (t.feedEach lines).config = t.config := by
  induction lines generalizing t with
  | nil => rfl
  | cons line rest ih =>
    refine (ih (h.feed_any line)).trans ?_
    rcases hfeed : t.feed line with ⟨fault | instrs, next⟩
    · exact congrArg Translator.config (h.feed_error_eq hfeed)
    · exact feed_config hfeed

/-- Feeding all lines and passing over the refused ones is feeding the accepted ones. -/
theorem Seated.feedAll_accepted (h : Seated t) (lines : List Line) :
    t.feedAll (t.accepted lines) = (.ok (), t.feedEach lines) := by
  induction lines generalizing t with
  | nil => rfl
  | cons line rest ih =>
    have hnext := h.feed_any line
    rcases hfeed : t.feed line with ⟨fault | instrs, next⟩
    · have hsame : next = t := h.feed_error_eq hfeed
      subst hsame
      simp only [accepted, hfeed, Translator.feedEach]
      exact ih h
    · rw [hfeed] at hnext
      simp only [accepted, hfeed, Translator.feedEach, feedAll]
      exact ih hnext

theorem feedEach_of_feedAll {lines : List Line} (h : t.feedAll lines = (.ok (), t')) :
    t.feedEach lines = t' := by
  induction lines generalizing t with
  | nil => exact (Prod.mk.inj h).2
  | cons line rest ih =>
    obtain ⟨instrs, next, hfeed, hrest⟩ := feedAll_cons_ok h
    rw [feedEach, hfeed]
    exact ih hrest

/-- A refused statement leaves no trace.  Behind any lines, a line that is refused leaves the whole
state as it was, and the lines that were refused might as well not have been fed. -/
theorem refused_leaves_no_trace (config : Config) (lines : List Line) :
    (∀ (line : Line) (fault : Fault) (next : Translator),
        ((new config).feedEach lines).feed line = (.error fault, next) →
          next = (new config).feedEach lines) ∧
      (new config).feedAll ((new config).accepted lines) =
        (.ok (), (new config).feedEach lines) :=
  have h := seated_new config
  ⟨fun _ _ _ hfeed => (h.feedEach lines).feed_error_eq hfeed, h.feedAll_accepted lines⟩

/-- UNSET of two names one of which is not bound drops neither of them. -/
theorem unset_of_unbound_leaves_no_trace :
    let t := (new {}).feedEach
      [{ number := 1, fields := ["CONST", "a", "1"] }, { number := 2, fields := ["ENDDEF"] }]
    ∃ fault, t.feed { number := 3, fields := ["UNSET", "$a", "$b"] } = (.error fault, t) := by
  intro t
  rcases hfeed : t.feed { number := 3, fields := ["UNSET", "$a", "$b"] } with
    ⟨fault | instrs, next⟩
  · exact ⟨fault, by rw [(refused_leaves_no_trace {} _).1 _ _ _ hfeed]⟩
  · have hrefused :
        (t.feed { number := 3, fields := ["UNSET", "$a", "$b"] }).1.toOption = none := by
      decide +kernel
    simp [hfeed, Except.toOption] at hrefused

end Translator

end AccuAsm
