import AccuAsm.Proofs.Atomicity

/-!
# Blocks are closed in the order in which they were opened

Definitions and conditions are kept on two stacks that know of each other by their
depths alone.  This module compares them with one stack that holds every open block:
the two stacks accept and refuse a closing statement exactly as the single one would.

There are four groups.

* The reference.  `blocks` is the single stack behind a list of lines, read off their
  keywords, and `unfinished` is the block that the end of a source complains about.
* Interleaving.  `Interleaved` says how the two stacks lie inside the single one.
  `Interleaved.definition_on_top` and `Interleaved.condition_on_top` are what the depths
  are good for: they agree exactly if the innermost block has the right kind.
* Runs.  `Nested.feed` is the step lemma and `Nested.feedEach` the run lemma.
* Closing.  `Nested.close` says what a closing statement does, whichever kind it closes,
  and `two_stacks_nest` puts everything together.
-/

namespace AccuAsm

/-! ## The reference -/

/-- The kinds of blocks. -/
inductive BlockKind where
  /-- From DEF to ENDDEF. -/
  | definition
  /-- From IF to ENDIF. -/
  | condition
  deriving DecidableEq, Repr

namespace BlockKind

/-- The statement that opens a block. -/
def opener : BlockKind → Keyword
  | .definition => .define
  | .condition => .condition

/-- The statement that closes a block. -/
def closer : BlockKind → Keyword
  | .definition => .endDefine
  | .condition => .endCondition

/-- What is wrong with closing a block where none of its kind is open. -/
def absent : BlockKind → Category
  | .definition => .notInDefinition
  | .condition => .notInCondition

end BlockKind

/-- What a line does to the blocks around it. -/
inductive Role where
  /-- DEF or IF. -/
  | opens (kind : BlockKind)
  /-- ENDDEF or ENDIF. -/
  | closes (kind : BlockKind)
  /-- Every other line. -/
  | plain
  deriving DecidableEq, Repr

/-- The role of a statement. -/
def Keyword.role : Keyword → Role
  | .define => .opens .definition
  | .condition => .opens .condition
  | .endDefine => .closes .definition
  | .endCondition => .closes .condition
  | _ => .plain

/-- A block that has not been closed. -/
structure OpenBlock where
  /-- Its kind. -/
  kind : BlockKind
  /-- The line that opened it. -/
  line : Int
  deriving DecidableEq, Repr

/-- The statement that the first field of a line spells. -/
def Line.keyword? (line : Line) : Option Keyword := line.fields.head?.bind Keyword.ofText?

/-- The role of a line, read off its first field. -/
def Line.role (line : Line) : Role := (line.keyword?.map Keyword.role).getD .plain

theorem Line.role_eq_opens {line : Line} {kind : BlockKind} (h : line.role = .opens kind) :
    line.keyword? = some kind.opener := by
  rw [role] at h
  cases hk : line.keyword? with
  | none => simp [hk] at h
  | some k => cases k <;> cases kind <;> simp_all [Keyword.role, BlockKind.opener]

theorem Line.role_eq_closes {line : Line} {kind : BlockKind} (h : line.role = .closes kind) :
    line.keyword? = some kind.closer := by
  rw [role] at h
  cases hk : line.keyword? with
  | none => simp [hk] at h
  | some k => cases k <;> cases kind <;> simp_all [Keyword.role, BlockKind.closer]

/-- One accepted line on the single stack, the innermost block first. -/
def advance (stack : List OpenBlock) (line : Line) : List OpenBlock :=
  match line.role with
  | .opens kind => ⟨kind, line.number⟩ :: stack
  | .closes _ => stack.tail
  | .plain => stack

/-- The blocks that accepted lines leave open, the innermost first. -/
def blocks (lines : List Line) : List OpenBlock := lines.foldl advance []

/-- The innermost block of a kind. -/
def innermost? (kind : BlockKind) (stack : List OpenBlock) : Option OpenBlock :=
  stack.find? (·.kind == kind)

/-- The block that the end of a source complains about: the innermost definition, or the innermost
condition if no definition is open. -/
def unfinished (stack : List OpenBlock) : Option OpenBlock :=
  (innermost? .definition stack).or (innermost? .condition stack)

/-- No keyword of a comparison is the keyword of a statement. -/
def InstructionSet.Separate (set : InstructionSet) : Prop :=
  ∀ k : Keyword, k.spelling ∉ set.conditionKeywords

instance (set : InstructionSet) : Decidable set.Separate :=
  decidable_of_iff (∀ k ∈ Keyword.all, k.spelling ∉ set.conditionKeywords)
    ⟨fun h k => h k (by cases k <;> decide), fun h k _ => h k⟩

theorem Keyword.spelling_of_ofText? {word : Text} {k : Keyword} (h : ofText? word = some k) :
    k.spelling = word := by
  simpa using List.find?_some h

/-- Where the keywords are separate, a line is the statement that its first field spells. -/
theorem InstructionSet.Separate.statement?_eq {set : InstructionSet} (h : set.Separate)
    (line : Line) : set.statement? line = line.keyword? := by
  rw [statement?, Line.keyword?]
  cases line.fields with
  | nil => rfl
  | cons keyword operands =>
    show (if _ then none else Keyword.ofText? keyword) = Keyword.ofText? keyword
    cases hk : Keyword.ofText? keyword with
    | none => simp
    | some k =>
      have hkeyword : keyword ∉ set.conditionKeywords := Keyword.spelling_of_ofText? hk ▸ h k
      have hcode : set.conditionCode? keyword = none := by
        refine List.lookup_eq_none_iff.mpr fun entry hentry => ?_
        have : entry.1 ≠ keyword := fun heq => hkeyword (heq ▸ List.mem_map_of_mem hentry)
        simpa using this.symm
      simp [hcode]

namespace Translator

/-! ## Interleaving -/

/-- The stack of the open definitions and that of the open conditions lie inside the single stack.
Each block knows how many blocks of the other kind were open when it was opened. -/
inductive Interleaved (records : Array Definition) :
    List OpenBlock → List Nat → List Condition → Prop where
  | nil : Interleaved records [] [] []
  | definition {stack : List OpenBlock} {positions : List Nat} {conditions : List Condition}
      {position : Nat} {d : Definition} (hinside : Interleaved records stack positions conditions)
      (hrecord : records[position]? = some d) (hdepth : d.conditionDepth = conditions.length) :
      Interleaved records (⟨.definition, d.line⟩ :: stack) (position :: positions) conditions
  | condition {stack : List OpenBlock} {positions : List Nat} {conditions : List Condition}
      {c : Condition} (hinside : Interleaved records stack positions conditions)
      (hdepth : c.definitionDepth = positions.length) :
      Interleaved records (⟨.condition, c.line⟩ :: stack) positions (c :: conditions)

namespace Interleaved

variable {records records' : Array Definition} {stack : List OpenBlock} {positions : List Nat}
  {conditions : List Condition} {position : Nat} {d : Definition} {c : Condition}

theorem conditionDepth_le (h : Interleaved records stack (position :: positions) conditions)
    (hrecord : records[position]? = some d) : d.conditionDepth ≤ conditions.length := by
  induction conditions generalizing stack with
  | nil =>
    cases h with
    | definition _ hrecord' hdepth =>
      rw [hrecord', Option.some.injEq] at hrecord
      exact hrecord ▸ Nat.le_of_eq hdepth
  | cons c rest ih =>
    cases h with
    | definition _ hrecord' hdepth =>
      rw [hrecord', Option.some.injEq] at hrecord
      exact hrecord ▸ Nat.le_of_eq hdepth
    | condition hinside _ => exact Nat.le_succ_of_le (ih hinside)

theorem definitionDepth_le (h : Interleaved records stack positions (c :: conditions)) :
    c.definitionDepth ≤ positions.length := by
  induction positions generalizing stack with
  | nil =>
    cases h with
    | condition _ hdepth => exact Nat.le_of_eq hdepth
  | cons position rest ih =>
    cases h with
    | condition _ hdepth => exact Nat.le_of_eq hdepth
    | definition hinside _ _ => exact Nat.le_succ_of_le (ih hinside)

/-- As many conditions are open as at the DEF exactly if the definition is the innermost block. -/
theorem definition_on_top (h : Interleaved records stack (position :: positions) conditions)
    (hrecord : records[position]? = some d) :
    conditions.length = d.conditionDepth ↔ stack.head?.map (·.kind) = some .definition := by
  cases h with
  | definition _ hrecord' hdepth =>
    rw [hrecord', Option.some.injEq] at hrecord
    subst hrecord
    simp [hdepth]
  | condition hinside _ =>
    -- Below the innermost condition there was one condition less.
    have := hinside.conditionDepth_le hrecord
    simp only [List.length_cons, List.head?_cons, Option.map_some, Option.some.injEq, reduceCtorEq,
      iff_false]
    omega

/-- As many definitions are open as at the IF exactly if the condition is the innermost block. -/
theorem condition_on_top (h : Interleaved records stack positions (c :: conditions)) :
    positions.length = c.definitionDepth ↔ stack.head?.map (·.kind) = some .condition := by
  cases h with
  | condition _ hdepth => simp [hdepth]
  | definition hinside _ _ =>
    have := hinside.definitionDepth_le
    simp only [List.length_cons, List.head?_cons, Option.map_some, Option.some.injEq, reduceCtorEq,
      iff_false]
    omega

theorem eq_nil (h : Interleaved records [] positions conditions) :
    positions = [] ∧ conditions = [] := by
  cases h with
  | nil => exact ⟨rfl, rfl⟩

theorem pop_definition (h : Interleaved records stack (position :: positions) conditions)
    (htop : stack.head?.map (·.kind) = some .definition) :
    Interleaved records stack.tail positions conditions := by
  cases h with
  | definition hinside _ _ => exact hinside
  | condition _ _ => simp at htop

theorem pop_condition (h : Interleaved records stack positions (c :: conditions))
    (htop : stack.head?.map (·.kind) = some .condition) :
    Interleaved records stack.tail positions conditions := by
  cases h with
  | definition _ _ _ => simp at htop
  | condition hinside _ => exact hinside

theorem innermost?_definition (h : Interleaved records stack positions conditions) :
    (innermost? .definition stack).map (·.line) =
      (positions.head? >>= (records[·]?)).map (·.line) := by
  induction h with
  | nil => rfl
  | definition _ hrecord _ => simp [innermost?, hrecord]
  | condition _ _ ih => simpa [innermost?] using ih

theorem innermost?_condition (h : Interleaved records stack positions conditions) :
    (innermost? .condition stack).map (·.line) = conditions.head?.map (·.line) := by
  induction h with
  | nil => rfl
  | definition _ _ _ ih => simpa [innermost?] using ih
  | condition _ _ => simp [innermost?]

theorem records_head (h : Interleaved records stack (position :: positions) conditions) :
    ∃ d, records[position]? = some d := by
  induction conditions generalizing stack with
  | nil =>
    cases h with
    | definition _ hrecord _ => exact ⟨_, hrecord⟩
  | cons c rest ih =>
    cases h with
    | definition _ hrecord _ => exact ⟨_, hrecord⟩
    | condition hinside _ => exact ih hinside

/-- Records may change as long as lines and depths stay. -/
theorem change (h : Interleaved records stack positions conditions)
    (hrecords : ∀ (position : Nat) (d : Definition), records[position]? = some d →
      ∃ d', records'[position]? = some d' ∧ d'.line = d.line ∧
        d'.conditionDepth = d.conditionDepth) :
    Interleaved records' stack positions conditions := by
  induction h with
  | nil => exact .nil
  | @definition _ _ _ position d _ hrecord hdepth ih =>
    obtain ⟨d', hrecord', hline, hdepth'⟩ := hrecords position d hrecord
    exact hline ▸ .definition ih hrecord' (hdepth'.trans hdepth)
  | condition _ hdepth ih => exact .condition ih hdepth

end Interleaved

/-! ## Runs -/

variable {t t' : Translator} {line : Line} {instrs : List Instr} {stack : List OpenBlock}

/-- The two stacks of a state lie inside the single one. -/
def Nested (t : Translator) (stack : List OpenBlock) : Prop :=
  Interleaved t.definitions.records stack t.definitions.stack t.conditions.stack

theorem nested_new (config : Config) : Nested (new config) [] := .nil

/-- What one accepted line does to the open blocks. -/
theorem Nested.feed (h : Nested t stack) (hseparate : t.set.Separate)
    (hfeed : t.feed line = (.ok instrs, t')) : Nested t' (advance stack line) := by
  obtain ⟨ops, next, hrun, hemit⟩ := feed_ok hfeed
  have hnext : Nested next (advance stack line) := by
    have hk := hseparate.statement?_eq line
    rw [advance, Line.role, ← hk]
    cases effect_of_process hrun with
    | names change memory hnames =>
      cases hstatement : t.set.statement? line with
      | none => exact h
      | some k =>
        have hblock := hnames k hstatement
        cases k with
        | define | endDefine | condition | endCondition => simp [Keyword.isBlock] at hblock
        | constant | assign | setAddress | unset | add | subtract | multiply | divide | call =>
          exact h
    | define hstatement hfields hname hfresh hscope =>
      rw [hstatement]
      refine .definition (h.change ?_) Array.getElem?_push_size rfl
      intro position d hd
      have := (Array.getElem?_eq_some_iff.mp hd).1
      exact ⟨d, by rw [Array.getElem?_push, if_neg (by omega), hd], rfl, rfl⟩
    | condition hstatement hfields hcode hleft hright =>
      rw [hstatement]
      exact @Interleaved.condition _ _ _ _ (t.newCondition line.number _ _) h rfl
    | @endDefine d position rest program hstatement hstack hrecord hdepth hinsert =>
      rw [hstatement]
      have hlies : Interleaved t.definitions.records stack (position :: rest) t.conditions.stack :=
        hstack ▸ h
      -- equal depths put the definition on top, where the single stack is popped
      have hinside := hlies.pop_definition ((hlies.definition_on_top hrecord).mp hdepth)
      refine hinside.change fun other e he => ?_
      obtain ⟨e', he', rfl⟩ := getElem?_modify_closed hrecord other e he
      refine ⟨_, he', ?_⟩
      split <;> exact ⟨rfl, rfl⟩
    | @endCondition c rest program hstatement hstack hdepth hinsert =>
      rw [hstatement]
      have hlies : Interleaved t.definitions.records stack t.definitions.stack (c :: rest) :=
        hstack ▸ h
      exact hlies.pop_condition (hlies.condition_on_top.mp hdepth)
  have ht' : t' = (next.emit line ops).2 := by rw [hemit]
  exact ht' ▸ hnext

/-- The two stacks lie inside the single one behind every run. -/
theorem Nested.feedEach (h : Nested t stack) (hseated : Seated t) (hseparate : t.set.Separate)
    (lines : List Line) : Nested (t.feedEach lines) ((t.accepted lines).foldl advance stack) := by
  induction lines generalizing t stack with
  | nil => exact h
  | cons line rest ih =>
    have hnext := hseated.feed_any line
    rcases hfeed : t.feed line with ⟨fault | instrs, next⟩
    · rw [hfeed] at hnext
      have hsame : next = t := hseated.feed_error_eq hfeed
      subst hsame
      simp only [accepted, hfeed, Translator.feedEach]
      exact ih h hseated hseparate
    · rw [hfeed] at hnext
      simp only [accepted, hfeed, Translator.feedEach, List.foldl_cons]
      have hset : next.set = t.set := congrArg Config.set (feed_config hfeed)
      exact ih (h.feed hseparate hfeed) hnext (hset ▸ hseparate)

/-! ## Closing -/

/-- The line is accepted. -/
def Accepts (t : Translator) (line : Line) : Prop :=
  ∃ instrs next, t.feed line = (.ok instrs, next)

/-- The line is refused for a reason of the category. -/
def Refuses (t : Translator) (line : Line) (category : Category) : Prop :=
  ∃ d next, t.feed line = (.error (.rejected d), next) ∧ d.category = category

theorem Refuses.not_accepts {category : Category} (h : Refuses t line category) :
    ¬Accepts t line := by
  rintro ⟨instrs, next, haccepted⟩
  obtain ⟨d, other, hrefused, _⟩ := h
  simp [haccepted] at hrefused

theorem Refuses.category_eq {category other : Category} (h : Refuses t line category)
    (h' : Refuses t line other) : category = other := by
  obtain ⟨d, next, hfeed, rfl⟩ := h
  obtain ⟨e, next', hfeed', rfl⟩ := h'
  rw [hfeed] at hfeed'
  simp only [Prod.mk.injEq, Except.error.injEq, Fault.rejected.injEq] at hfeed'
  rw [hfeed'.1]

theorem accepts_of_process {ops : List Op} {next : Translator}
    (h : (process line).on t = (.ok ops, next)) : Accepts t line :=
  ⟨(next.emit line ops).1, (next.emit line ops).2, by rw [feed, h]⟩

theorem refuses_of_process {d : Diagnostic} {next : Translator}
    (h : (process line).on t = (.error (.rejected d), next)) : Refuses t line d.category := by
  refine ⟨d.locate line.number (line.column 0), next, ?_, ?_⟩
  · rw [feed, h]
  · rw [Diagnostic.locate]
    split <;> rfl

/-- What a closing statement does, in terms of the single stack. -/
structure Closes (t : Translator) (line : Line) (kind : BlockKind) (stack : List OpenBlock) :
    Prop where
  /-- It closes the innermost block if that has its kind. -/
  accepts : stack.head?.map (·.kind) = some kind → Accepts t line
  /-- It is out of place if no block of its kind is open. -/
  absent : innermost? kind stack = none → Refuses t line kind.absent
  /-- It may not close a block around the innermost one. -/
  crossing : innermost? kind stack ≠ none → stack.head?.map (·.kind) ≠ some kind →
    Refuses t line .invalidContext

theorem innermost?_eq_none_iff {kind : BlockKind} :
    innermost? kind stack = none ↔ ∀ b ∈ stack, b.kind ≠ kind := by
  simp [innermost?]

theorem innermost?_ne_none_of_top {kind : BlockKind}
    (h : stack.head?.map (·.kind) = some kind) : innermost? kind stack ≠ none := by
  obtain ⟨b, hb, hkind⟩ := Option.map_eq_some_iff.mp h
  exact fun hnone => innermost?_eq_none_iff.mp hnone b (List.mem_of_head? hb) hkind

theorem Nested.closes_definition (h : Nested t stack) (hseated : Seated t)
    (hrun : (process line).on t = endDefine.on t) : Closes t line .definition stack := by
  have hline := h.innermost?_definition
  cases hstack : t.definitions.stack with
  | nil =>
    have hnone : innermost? .definition stack = none := by simpa [hstack] using hline
    refine ⟨fun htop => absurd hnone (innermost?_ne_none_of_top htop), fun _ => ?_,
      fun hsome _ => absurd hnone hsome⟩
    have hcurrent : t.definitions.current? = none := by simp [Definitions.current?, hstack]
    exact refuses_of_process (hrun.trans (on_endDefine_none hcurrent))
  | cons position rest =>
    have hlies : Interleaved t.definitions.records stack (position :: rest) t.conditions.stack :=
      hstack ▸ h
    obtain ⟨d, hrecord⟩ := hlies.records_head
    have htop := hlies.definition_on_top hrecord
    have hcurrent : t.definitions.current? = some d := by
      simp [Definitions.current?, hstack, hrecord]
    refine ⟨fun htop' => ?_, fun hnone => ?_, fun _ hother => ?_⟩
    · obtain ⟨program, hinsert⟩ := hseated.exists_insert_definition hstack hrecord
      exact accepts_of_process
        (hrun.trans (by rw [on_endDefine hstack hrecord (htop.mpr htop'), hinsert]))
    · simp [hnone, hstack, hrecord] at hline
    · have hdepth : t.conditions.depth ≠ d.conditionDepth := fun heq => hother (htop.mp heq)
      exact refuses_of_process (hrun.trans (on_endDefine_crossing hcurrent hdepth))

theorem Nested.closes_condition (h : Nested t stack) (hseated : Seated t)
    (hrun : (process line).on t = endCondition.on t) : Closes t line .condition stack := by
  have hline := h.innermost?_condition
  cases hstack : t.conditions.stack with
  | nil =>
    have hnone : innermost? .condition stack = none := by simpa [hstack] using hline
    refine ⟨fun htop => absurd hnone (innermost?_ne_none_of_top htop), fun _ => ?_,
      fun hsome _ => absurd hnone hsome⟩
    exact refuses_of_process (hrun.trans (on_endCondition_none hstack))
  | cons c rest =>
    have hlies : Interleaved t.definitions.records stack t.definitions.stack (c :: rest) :=
      hstack ▸ h
    have htop := hlies.condition_on_top
    refine ⟨fun htop' => ?_, fun hnone => ?_, fun _ hother => ?_⟩
    · obtain ⟨program, hinsert⟩ := hseated.exists_insert_condition hstack
      exact accepts_of_process
        (hrun.trans (by rw [on_endCondition hstack (htop.mpr htop'), hinsert]))
    · simp [hnone, hstack] at hline
    · have hdepth : t.definitions.depth ≠ c.definitionDepth := fun heq => hother (htop.mp heq)
      exact refuses_of_process (hrun.trans (on_endCondition_crossing hstack hdepth))

/-- Every closing statement follows the single stack. -/
theorem Nested.close (h : Nested t stack) (hseated : Seated t) (hseparate : t.set.Separate)
    {kind : BlockKind} (hrole : line.role = .closes kind) : Closes t line kind stack := by
  obtain ⟨_, _, _, _, _, hrun⟩ :=
    on_process ((hseparate.statement?_eq line).trans (Line.role_eq_closes hrole))
  cases kind with
  | definition => exact h.closes_definition hseated hrun
  | condition => exact h.closes_condition hseated hrun

/-- What a closing statement does, with the converses: the three cases exclude each other. -/
theorem Closes.iff {kind : BlockKind} (h : Closes t line kind stack) :
    (Accepts t line ↔ stack.head?.map (·.kind) = some kind) ∧
      (Refuses t line kind.absent ↔ ∀ b ∈ stack, b.kind ≠ kind) ∧
      (Refuses t line .invalidContext ↔
        (∃ b ∈ stack, b.kind = kind) ∧ stack.head?.map (·.kind) ≠ some kind) := by
  have hcategory : kind.absent ≠ .invalidContext := by cases kind <;> decide
  have hsome : innermost? kind stack ≠ none ↔ ∃ b ∈ stack, b.kind = kind := by
    rw [Ne, innermost?_eq_none_iff]
    simp
  rw [← innermost?_eq_none_iff, ← hsome]
  by_cases htop : stack.head?.map (·.kind) = some kind
  · have haccepts := h.accepts htop
    have hopen := innermost?_ne_none_of_top htop
    exact ⟨by simp [haccepts, htop],
      ⟨fun hrefuses => absurd haccepts hrefuses.not_accepts, fun hnone => absurd hnone hopen⟩,
      ⟨fun hrefuses => absurd haccepts hrefuses.not_accepts, fun hother => absurd htop hother.2⟩⟩
  · by_cases hnone : innermost? kind stack = none
    · have hrefuses := h.absent hnone
      exact ⟨⟨fun haccepts => absurd haccepts hrefuses.not_accepts, fun h => absurd h htop⟩,
        by simp [hrefuses, hnone],
        ⟨fun hcontext => absurd (hrefuses.category_eq hcontext) hcategory,
          fun hother => absurd hnone hother.1⟩⟩
    · have hrefuses := h.crossing hnone htop
      exact ⟨⟨fun haccepts => absurd haccepts hrefuses.not_accepts, fun h => absurd h htop⟩,
        ⟨fun habsent => absurd (habsent.category_eq hrefuses) hcategory, fun h => absurd h hnone⟩,
        by simp [hrefuses, hnone, htop]⟩

theorem Nested.finish_nil (h : Nested t []) : t.finish = .ok t.program := by
  obtain ⟨hdefinitions, hconditions⟩ := Interleaved.eq_nil h
  simp [finish, Definitions.current?, Conditions.current?, hdefinitions, hconditions]

/-- With a block open the end of the source complains about the one that the single stack names. -/
theorem Nested.finish_open (h : Nested t stack) (hopen : stack ≠ []) :
    ∃ d b, t.finish = .error d ∧ d.category = .unterminatedBlock ∧ unfinished stack = some b ∧
      d.line = b.line := by
  have hdefinition : (innermost? .definition stack).map (·.line) =
      t.definitions.current?.map (·.line) := h.innermost?_definition
  have hcondition : (innermost? .condition stack).map (·.line) =
      t.conditions.current?.map (·.line) := h.innermost?_condition
  rw [unfinished, finish]
  cases hfirst : innermost? .definition stack with
  | some b =>
    rw [hfirst] at hdefinition
    obtain ⟨d, hd, hline⟩ := Option.map_eq_some_iff.mp hdefinition.symm
    exact ⟨_, b, by rw [hd], rfl, rfl, hline⟩
  | none =>
    rw [hfirst] at hdefinition
    have hd : t.definitions.current? = none := Option.map_eq_none_iff.mp hdefinition.symm
    cases hsecond : innermost? .condition stack with
    | some b =>
      rw [hsecond] at hcondition
      obtain ⟨c, hc, hline⟩ := Option.map_eq_some_iff.mp hcondition.symm
      exact ⟨_, b, by rw [hd, hc], rfl, rfl, hline⟩
    | none =>
      obtain ⟨b, rest, rfl⟩ := List.exists_cons_of_ne_nil hopen
      have hnot := innermost?_eq_none_iff.mp hfirst b (by simp)
      have hnot' := innermost?_eq_none_iff.mp hsecond b (by simp)
      cases hb : b.kind <;> contradiction

/-- Two stacks that know each other by their depths accept exactly the blocks that are well nested.
Behind any lines, refused ones among them, a closing statement is accepted if the innermost open
block has its kind, is out of place if no block of its kind is open, and crosses another block
otherwise.  The source may end where no block is open, and otherwise the innermost definition is
reported, or the innermost condition if no definition is open. -/
theorem two_stacks_nest (config : Config) (hseparate : config.set.Separate) (lines : List Line) :
    let t := (new config).feedEach lines
    let stack := blocks ((new config).accepted lines)
    (∀ (kind : BlockKind) (line : Line), line.role = .closes kind →
        (Accepts t line ↔ stack.head?.map (·.kind) = some kind) ∧
        (Refuses t line kind.absent ↔ ∀ b ∈ stack, b.kind ≠ kind) ∧
        (Refuses t line .invalidContext ↔
          (∃ b ∈ stack, b.kind = kind) ∧ stack.head?.map (·.kind) ≠ some kind)) ∧
      ((∃ program, t.finish = .ok program) ↔ stack = []) ∧
      (stack ≠ [] → ∃ d b, t.finish = .error d ∧ d.category = .unterminatedBlock ∧
        unfinished stack = some b ∧ d.line = b.line) := by
  intro t stack
  have hstart := seated_new config
  have hseated : Seated t := hstart.feedEach lines
  have hnested : Nested t stack := (nested_new config).feedEach hstart hseparate lines
  have hset : t.set = config.set := congrArg Config.set (hstart.feedEach_config lines)
  refine ⟨?_, ?_, hnested.finish_open⟩
  · intro kind line hrole
    exact (hnested.close hseated (hset ▸ hseparate) hrole).iff
  · refine ⟨?_, fun hnil => ⟨t.program, (hnil ▸ hnested).finish_nil⟩⟩
    rintro ⟨program, hfinish⟩
    refine Decidable.byContradiction fun hopen => ?_
    obtain ⟨d, b, herror, _⟩ := hnested.finish_open hopen
    simp [hfinish] at herror

/-- A definition inside a condition, with refused lines in between.  ENDIF would cross the
definition, and the end of the source reports it. -/
theorem definition_inside_condition :
    let lines : List Line :=
      [{ number := 1, fields := ["ENDIF"] }, { number := 2, fields := ["IF", "EQ", "1", "2"] },
        { number := 3, fields := ["ENDDEF"] }, { number := 4, fields := ["DEF", "f"] }]
    let t := (new {}).feedEach lines
    blocks ((new {}).accepted lines) = [⟨.definition, 4⟩, ⟨.condition, 2⟩] ∧
      Refuses t { number := 5, fields := ["ENDIF"] } .invalidContext ∧
      Accepts t { number := 5, fields := ["ENDDEF"] } ∧
      ∃ d, t.finish = .error d ∧ d.line = 4 := by
  intro lines t
  have hstack : blocks ((new {}).accepted lines) = [⟨.definition, 4⟩, ⟨.condition, 2⟩] := by
    decide +kernel
  obtain ⟨hclose, _, hopen⟩ := two_stacks_nest {} (by decide +kernel) lines
  rw [hstack] at hclose hopen
  refine ⟨hstack, ?_, ?_, ?_⟩
  · exact (hclose .condition _ (by decide +kernel)).2.2.mpr (by decide)
  · exact (hclose .definition _ (by decide +kernel)).1.mpr (by decide)
  · obtain ⟨d, b, hfinish, _, hb, hline⟩ := hopen (by simp)
    have hb : b = ⟨.definition, 4⟩ := (Option.some.inj hb).symm
    exact ⟨d, hfinish, by rw [hline, hb]⟩

end Translator

end AccuAsm
