import AccuAsm.Proofs.Growth

/-!
# The open blocks of a run

Definitions and conditions are kept apart by the translator, and a condition is forgotten
when it ends.  Here both are blocks of one kind or the other, and a run keeps a history,
so that blocks can be spoken of before and after they are closed.

There are four groups.

* Blocks.  `openBlocks` is every block that is open in a state, and `openOf` those of one
  kind, the innermost first.
* Turns.  `Turn` lists the three things that an accepted line can do to the blocks and the
  program, without telling the two kinds of blocks apart.  `turn_of_feed` is the inversion.
* The stacks.  `Stacked` is the invariant that carries the rest: serial numbers of jumps go
  up with the nesting, and so do the sites.  `Stacked.innermost` is what it is good for: a
  block that is closed lies inside all others.
* Histories.  `transitions` lists the accepted lines of a run with the states around them,
  `opened` the blocks that they opened, and `run_induction` is the induction over a run.
-/

namespace AccuAsm

/-! ## Blocks -/

/-- The other kind. -/
def BlockKind.other : BlockKind → BlockKind
  | .definition => .condition
  | .condition => .definition

@[simp] theorem BlockKind.other_other (kind : BlockKind) : kind.other.other = kind := by
  cases kind <;> rfl

theorem BlockKind.eq_or_eq_other (kind k : BlockKind) : k = kind ∨ k = kind.other := by
  cases kind <;> cases k <;> simp [other]

/-- A block of either kind. -/
structure Block where
  /-- Its kind. -/
  kind : BlockKind
  /-- The index where the jump over the block goes when it closes. -/
  site : Int
  /-- The serial number of the jump over the block. -/
  skip : Nat
  /-- The number of blocks of the other kind that were open when it was opened. -/
  others : Nat
  deriving DecidableEq, Repr

/-- A definition as a block. -/
def Definition.block (d : Definition) : Block where
  kind := .definition
  site := d.site
  skip := d.skip.serial
  others := d.conditionDepth

/-- A condition as a block. -/
def Condition.block (c : Condition) : Block where
  kind := .condition
  site := c.site
  skip := c.skip.serial
  others := c.definitionDepth

theorem Program.toNat_le_length {p : Program} {site : Int} (h : site ≤ p.size) :
    site.toNat ≤ p.code.toList.length := by
  rw [Program.size, ← Array.length_toList] at h
  omega

namespace Translator

/-- What the records of the open definitions say, the innermost first. -/
def openRecords {α : Type} (t : Translator) (f : Definition → α) : List α :=
  t.definitions.stack.filterMap fun position => t.definitions.records[position]?.map f

/-- The open blocks of a kind, the innermost first. -/
def openOf (t : Translator) : BlockKind → List Block
  | .definition => t.openRecords Definition.block
  | .condition => t.conditions.stack.map Condition.block

/-- The open blocks of both kinds. -/
def openBlocks (t : Translator) : List Block := t.openOf .definition ++ t.openOf .condition

/-- The serial numbers of the instructions of the program, in order. -/
def serials (t : Translator) : List Nat := t.program.code.toList.map (·.serial)

variable {t t' : Translator} {line : Line} {emitted : List Instr} {b : Block}

@[simp] theorem openOf_new (config : Config) (kind : BlockKind) :
    (new config).openOf kind = [] := by
  cases kind <;> rfl

theorem mem_openBlocks_iff : b ∈ t.openBlocks ↔ ∃ kind, b ∈ t.openOf kind := by
  rw [openBlocks, List.mem_append]
  constructor
  · rintro (h | h)
    · exact ⟨_, h⟩
    · exact ⟨_, h⟩
  · rintro ⟨kind, h⟩
    cases kind with
    | definition => exact .inl h
    | condition => exact .inr h

theorem openBlocks_perm (kind : BlockKind) (t : Translator) :
    t.openBlocks.Perm (t.openOf kind ++ t.openOf kind.other) := by
  cases kind with
  | definition => exact .refl _
  | condition => exact List.perm_append_comm

/-- Where all open definitions are known, none is left out. -/
theorem Seated.length_openOf_definition (h : Seated t) :
    (t.openOf .definition).length = t.definitions.depth := by
  rw [openOf, openRecords, Definitions.depth, List.filterMap_length_eq_length]
  intro position hposition
  obtain ⟨d, hd, _⟩ := h.definitions position hposition
  simp [hd]

theorem length_openOf_condition (t : Translator) :
    (t.openOf .condition).length = t.conditions.depth := by
  rw [openOf, Conditions.depth, List.length_map]

/-! ## Turns -/

/-- What an accepted line does to the blocks and to the program.  New serial numbers are drawn in
order: the jump over a block that is opened comes before the instructions that are emitted. -/
inductive Turn (t : Translator) (emitted : List Instr) (t' : Translator) : Prop where
  /-- No block is opened or closed. -/
  | stays (hopen : ∀ kind, t'.openOf kind = t.openOf kind)
      (hserials : emitted.map (·.serial) = List.range' t.nextSerial emitted.length)
      (hnext : t'.nextSerial = t.nextSerial + emitted.length)
      (hcode : t'.program.code.toList = t.program.code.toList ++ emitted)
  /-- A block is opened.  The jump over it goes to the end of the program. -/
  | opens (b : Block) (hopen : t'.openOf b.kind = b :: t.openOf b.kind)
      (hother : t'.openOf b.kind.other = t.openOf b.kind.other)
      (hskip : b.skip = t.nextSerial) (hothers : b.others = (t.openOf b.kind.other).length)
      (hsite : b.site = t'.program.size)
      (hserials : emitted.map (·.serial) = List.range' (t.nextSerial + 1) emitted.length)
      (hnext : t'.nextSerial = t.nextSerial + 1 + emitted.length)
      (hcode : t'.program.code.toList = t.program.code.toList ++ emitted)
  /-- A block is closed.  The jump over it is put at its site. -/
  | closes (b : Block) (jump : Instr) (hopen : t.openOf b.kind = b :: t'.openOf b.kind)
      (hother : t'.openOf b.kind.other = t.openOf b.kind.other)
      (hothers : b.others = (t.openOf b.kind.other).length) (hjump : jump.serial = b.skip)
      (hlow : 0 ≤ b.site) (hhigh : b.site ≤ t.program.size)
      (hserials : emitted.map (·.serial) = List.range' t.nextSerial emitted.length)
      (hnext : t'.nextSerial = t.nextSerial + emitted.length)
      (hcode : t'.program.code.toList =
        t.program.code.toList.insertIdx b.site.toNat jump ++ emitted)

/-- A new definition is the innermost open one. -/
theorem Seated.openRecords_defined {α : Type} (h : Seated t) (line : Line) (name : Text)
    (f : Definition → α) :
    (t.defined line name).openRecords f =
      f (t.newDefinition line.number name (t.skip line.number ("skip DEF " ++ name))) ::
        t.openRecords f := by
  rw [openRecords, defined, List.filterMap_cons, Array.getElem?_push_size, Option.map_some]
  refine congrArg (_ :: ·) (List.filterMap_congr fun position hposition => ?_)
  obtain ⟨d, hd, _⟩ := h.definitions position hposition
  have hlt := (Array.getElem?_eq_some_iff.mp hd).1
  rw [Array.getElem?_push, if_neg (by omega)]

theorem Seated.openOf_defined (h : Seated t) (line : Line) (name : Text) :
    (t.defined line name).openOf .definition =
      (t.newDefinition line.number name (t.skip line.number ("skip DEF " ++ name))).block ::
        t.openOf .definition :=
  h.openRecords_defined line name Definition.block

/-- A definition that is closed was the innermost open one. -/
theorem openRecords_endedDefinition {α : Type} {f : Definition → α} {d : Definition}
    {position : Nat} {rest : List Nat} (hstack : t.definitions.stack = position :: rest)
    (hrecord : t.definitions.records[position]? = some d) (program : Program)
    (hclosed : f { d with closed := true } = f d) :
    t.openRecords f = f d :: (t.endedDefinition d position rest program).openRecords f := by
  rw [openRecords, hstack, List.filterMap_cons, hrecord, Option.map_some]
  refine congrArg (_ :: ·) (List.filterMap_congr fun other _ => ?_)
  rw [endedDefinition, Array.getElem?_modify]
  split
  · next hsame =>
    subst hsame
    simp [hrecord, hclosed]
  · rfl

/-- A closed definition is the same block as before. -/
theorem openOf_endedDefinition {d : Definition} {position : Nat} {rest : List Nat}
    (hstack : t.definitions.stack = position :: rest)
    (hrecord : t.definitions.records[position]? = some d) (program : Program) :
    t.openOf .definition =
      d.block :: (t.endedDefinition d position rest program).openOf .definition :=
  @openRecords_endedDefinition _ _ Definition.block _ _ _ hstack hrecord program rfl

theorem map_serial_emit (t : Translator) (line : Line) (ops : List Op) :
    (t.emit line ops).1.map (·.serial) = List.range' t.nextSerial (t.emit line ops).1.length := by
  rw [emit, map_serial_number, length_number]

theorem length_emit (t : Translator) (line : Line) (ops : List Op) :
    (t.emit line ops).1.length = ops.length := length_number _ _ _ _

/-- Every accepted line is one of the three turns. -/
theorem turn_of_feed (hseated : Seated t) (hfeed : t.feed line = (.ok emitted, t')) :
    Turn t emitted t' := by
  obtain ⟨ops, next, hrun, hemit⟩ := feed_ok hfeed
  obtain ⟨rfl, rfl⟩ : emitted = (next.emit line ops).1 ∧ t' = (next.emit line ops).2 := by
    rw [hemit]
    exact ⟨rfl, rfl⟩
  have hserials := map_serial_emit next line ops
  have hlength := length_emit next line ops
  cases effect_of_process hrun with
  | names change memory hk =>
    refine .stays (fun kind => ?_) hserials (by rw [hlength]; rfl) (Program.toList_append _ _)
    cases kind <;> rfl
  | @define keyword name rest hk hfields hname hfresh hscope =>
    refine .opens (t.newDefinition line.number name _).block (hseated.openOf_defined line name) rfl
      rfl (length_openOf_condition t).symm ?_ hserials rfl (Program.toList_append _ _)
    rw [emit_nil]
    rfl
  | @condition keyword comparison a b rest code left right hk hfields hcode hleft hright =>
    refine .opens (t.newCondition line.number _ _).block rfl rfl rfl
      hseated.length_openOf_definition.symm ?_ hserials (by rw [hlength]; rfl)
      (Program.toList_append _ _)
    simp [Condition.block, newCondition, emit, conditioned]
  | @endDefine d position rest program hk hstack hrecord hdepth hinsert =>
    obtain ⟨hlow, hhigh, hcode⟩ := Program.insert_ok hinsert
    refine .closes d.block (t.definitionSkip d) (openOf_endedDefinition hstack hrecord program) rfl
      ((length_openOf_condition t).trans hdepth).symm rfl hlow hhigh hserials rfl ?_
    exact (Program.toList_append _ _).trans (congrArg (· ++ _) hcode)
  | @endCondition c rest program hk hstack hdepth hinsert =>
    obtain ⟨hlow, hhigh, hcode⟩ := Program.insert_ok hinsert
    refine .closes c.block (t.conditionSkip c) ?_ rfl
      (hseated.length_openOf_definition.trans hdepth).symm rfl hlow hhigh hserials rfl ?_
    · simp [Condition.block, openOf, hstack, endedCondition, emit]
    · exact (Program.toList_append _ _).trans (congrArg (· ++ _) hcode)

theorem Turn.nextSerial_le (h : Turn t emitted t') : t.nextSerial ≤ t'.nextSerial := by
  cases h <;> omega

/-- Emitted instructions have serial numbers that were not drawn before. -/
theorem Turn.fresh (h : Turn t emitted t') {i : Instr} (hi : i ∈ emitted) :
    t.nextSerial ≤ i.serial ∧ i.serial < t'.nextSerial := by
  have hmem : i.serial ∈ emitted.map (·.serial) := List.mem_map_of_mem hi
  cases h with
  | stays _ hserials hnext _ | opens _ _ _ _ _ _ hserials hnext _
  | closes _ _ _ _ _ _ _ _ hserials hnext _ =>
    rw [hserials, List.mem_range'_1] at hmem
    omega

/-! ## The stacks -/

/-- The open blocks in terms of the serial numbers of the jumps over them. -/
structure Stacked (t : Translator) : Prop where
  /-- On each stack, an inner block has the greater number. -/
  descending : ∀ kind, (t.openOf kind).Pairwise fun a b => b.skip < a.skip
  /-- The numbers have been drawn. -/
  drawn : ∀ b ∈ t.openBlocks, b.skip < t.nextSerial
  /-- The depth in a block counts the blocks of the other kind with a smaller number. -/
  others : ∀ kind, ∀ b ∈ t.openOf kind,
    b.others = (t.openOf kind.other).countP fun a => a.skip < b.skip
  /-- Sites do not descend from an outer block to an inner one. -/
  sites : ∀ a ∈ t.openBlocks, ∀ b ∈ t.openBlocks, a.skip < b.skip → a.site ≤ b.site
  /-- Sites lie in the program. -/
  inside : ∀ b ∈ t.openBlocks, 0 ≤ b.site ∧ b.site ≤ t.program.size

theorem stacked_new (config : Config) : Stacked (new config) := by
  constructor <;> simp [openBlocks]

/-- Where as many blocks of the other kind are open as when the block was opened, it is the
innermost block of all. -/
theorem Stacked.innermost {rest : List Block} (h : Stacked t) (hopen : t.openOf b.kind = b :: rest)
    (hothers : b.others = (t.openOf b.kind.other).length) :
    (∀ a ∈ rest, a.skip < b.skip) ∧ ∀ a ∈ t.openOf b.kind.other, a.skip < b.skip := by
  constructor
  · have hpairs := h.descending b.kind
    rw [hopen, List.pairwise_cons] at hpairs
    exact hpairs.1
  · have hcount := h.others b.kind b (by simp [hopen])
    rw [hothers] at hcount
    simpa using List.countP_eq_length.mp hcount.symm

theorem openBlocks_perm_of_opens (hopen : t'.openOf b.kind = b :: t.openOf b.kind)
    (hother : t'.openOf b.kind.other = t.openOf b.kind.other) :
    t'.openBlocks.Perm (b :: t.openBlocks) := by
  refine (openBlocks_perm b.kind t').trans ?_
  rw [hopen, hother, List.cons_append]
  exact (openBlocks_perm b.kind t).symm.cons b

theorem Stacked.opens (h : Stacked t) (hopen : t'.openOf b.kind = b :: t.openOf b.kind)
    (hother : t'.openOf b.kind.other = t.openOf b.kind.other) (hskip : b.skip = t.nextSerial)
    (hothers : b.others = (t.openOf b.kind.other).length) (hsite : b.site = t'.program.size)
    (hnext : t.nextSerial < t'.nextSerial) (hsize : t.program.size ≤ t'.program.size) :
    Stacked t' := by
  have hbelow {kind : BlockKind} : ∀ a ∈ t.openOf kind, a.skip < b.skip := by
    intro a ha
    rw [hskip]
    exact h.drawn a (mem_openBlocks_iff.mpr ⟨kind, ha⟩)
  have hmem {a : Block} : a ∈ t'.openBlocks ↔ a = b ∨ a ∈ t.openBlocks :=
    (openBlocks_perm_of_opens hopen hother).mem_iff.trans List.mem_cons
  constructor
  case descending =>
    intro kind
    rcases b.kind.eq_or_eq_other kind with rfl | rfl
    · rw [hopen]
      exact .cons hbelow (h.descending _)
    · rw [hother]
      exact h.descending _
  case drawn =>
    intro a ha
    rcases hmem.mp ha with rfl | ha
    · omega
    · exact Nat.lt_trans (h.drawn a ha) hnext
  case others =>
    intro kind a ha
    rcases b.kind.eq_or_eq_other kind with rfl | rfl
    · rw [hother]
      rw [hopen] at ha
      rcases List.mem_cons.mp ha with rfl | ha
      · rw [hothers]
        exact (List.countP_eq_length.mpr (by simpa using hbelow)).symm
      · exact h.others _ a ha
    · rw [hother] at ha
      have hbefore := h.others _ a ha
      have hnot := hbelow a ha
      rw [BlockKind.other_other] at hbefore ⊢
      rw [hopen, List.countP_cons_of_neg (by simp; omega), hbefore]
  case sites =>
    intro x hx y hy hlt
    rcases hmem.mp hx with rfl | hx
    · rcases hmem.mp hy with rfl | hy
      · omega
      · have := h.drawn y hy
        omega
    · rcases hmem.mp hy with rfl | hy
      · have := (h.inside x hx).2
        omega
      · exact h.sites x hx y hy hlt
  case inside =>
    intro a ha
    rcases hmem.mp ha with rfl | ha
    · omega
    · have := h.inside a ha
      omega

theorem openBlocks_perm_of_closes (hopen : t.openOf b.kind = b :: t'.openOf b.kind)
    (hother : t'.openOf b.kind.other = t.openOf b.kind.other) :
    t.openBlocks.Perm (b :: t'.openBlocks) :=
  openBlocks_perm_of_opens hopen hother.symm

theorem Stacked.closes (h : Stacked t) (hopen : t.openOf b.kind = b :: t'.openOf b.kind)
    (hother : t'.openOf b.kind.other = t.openOf b.kind.other)
    (hothers : b.others = (t.openOf b.kind.other).length) (hnext : t.nextSerial ≤ t'.nextSerial)
    (hsize : t.program.size ≤ t'.program.size) : Stacked t' := by
  have hmem {a : Block} (ha : a ∈ t'.openBlocks) : a ∈ t.openBlocks :=
    (openBlocks_perm_of_closes hopen hother).mem_iff.mpr (List.mem_cons_of_mem _ ha)
  constructor
  case descending =>
    intro kind
    rcases b.kind.eq_or_eq_other kind with rfl | rfl
    · have hpairs := h.descending b.kind
      rw [hopen, List.pairwise_cons] at hpairs
      exact hpairs.2
    · rw [hother]
      exact h.descending _
  case drawn => exact fun a ha => Nat.lt_of_lt_of_le (h.drawn a (hmem ha)) hnext
  case others =>
    intro kind a ha
    rcases b.kind.eq_or_eq_other kind with rfl | rfl
    · rw [hother]
      exact h.others _ a (by rw [hopen]; exact List.mem_cons_of_mem _ ha)
    · rw [hother] at ha
      -- the block that is gone lay inside this one, so its depth did not count it
      have hbefore := h.others _ a ha
      have hinside := (h.innermost hopen hothers).2 a ha
      rw [BlockKind.other_other] at hbefore ⊢
      rw [hbefore, hopen, List.countP_cons_of_neg (by simp; omega)]
  case sites => exact fun x hx y hy => h.sites x (hmem hx) y (hmem hy)
  case inside =>
    intro a ha
    have := h.inside a (hmem ha)
    omega

theorem Turn.size_le (h : Turn t emitted t') : t.program.size ≤ t'.program.size := by
  have hsize (u : Translator) : u.program.size = u.program.code.toList.length := by
    simp [Program.size]
  rw [hsize, hsize]
  cases h with
  | stays _ _ _ hcode | opens _ _ _ _ _ _ _ _ hcode => simp [hcode]
  | closes b jump _ _ _ _ hlow hhigh _ _ hcode =>
    rw [hsize] at hhigh
    rw [hcode, List.length_append, List.length_insertIdx_of_le_length (by omega)]
    omega

/-- What one accepted line does to the stacks. -/
theorem Stacked.turn (h : Stacked t) (hturn : Turn t emitted t') : Stacked t' := by
  have hsize := hturn.size_le
  cases hturn with
  | stays hopen _ hnext _ =>
    have hblocks : t'.openBlocks = t.openBlocks := by rw [openBlocks, openBlocks, hopen, hopen]
    constructor
    case descending => exact fun kind => hopen kind ▸ h.descending kind
    case drawn => exact fun a ha => Nat.lt_of_lt_of_le (h.drawn a (hblocks ▸ ha)) (by omega)
    case others =>
      intro kind a ha
      rw [hopen] at ha ⊢
      exact h.others kind a ha
    case sites => exact hblocks ▸ h.sites
    case inside =>
      intro a ha
      have := h.inside a (hblocks ▸ ha)
      omega
  | opens b hopen hother hskip hothers hsite _ hnext _ =>
    exact h.opens hopen hother hskip hothers hsite (by omega) hsize
  | closes b jump hopen hother hothers _ _ _ _ hnext _ =>
    exact h.closes hopen hother hothers (by omega) hsize

/-- A turn in terms of all open blocks.  A block that is closed lies inside all others. -/
inductive Progress (t : Translator) (emitted : List Instr) (t' : Translator) : Prop where
  /-- No block is opened or closed. -/
  | stays (hopen : t'.openBlocks = t.openBlocks)
      (hserials : emitted.map (·.serial) = List.range' t.nextSerial emitted.length)
      (hnext : t'.nextSerial = t.nextSerial + emitted.length)
      (hcode : t'.program.code.toList = t.program.code.toList ++ emitted)
  /-- A block is opened. -/
  | opens (b : Block) (hopen : t'.openBlocks.Perm (b :: t.openBlocks))
      (hskip : b.skip = t.nextSerial) (hsite : b.site = t'.program.size)
      (hserials : emitted.map (·.serial) = List.range' (t.nextSerial + 1) emitted.length)
      (hnext : t'.nextSerial = t.nextSerial + 1 + emitted.length)
      (hcode : t'.program.code.toList = t.program.code.toList ++ emitted)
  /-- A block is closed. -/
  | closes (b : Block) (jump : Instr) (hopen : t.openBlocks.Perm (b :: t'.openBlocks))
      (hinner : ∀ a ∈ t'.openBlocks, a.skip < b.skip) (hjump : jump.serial = b.skip)
      (hlow : 0 ≤ b.site) (hhigh : b.site ≤ t.program.size)
      (hserials : emitted.map (·.serial) = List.range' t.nextSerial emitted.length)
      (hnext : t'.nextSerial = t.nextSerial + emitted.length)
      (hcode : t'.program.code.toList =
        t.program.code.toList.insertIdx b.site.toNat jump ++ emitted)

theorem Stacked.progress (h : Stacked t) (hturn : Turn t emitted t') : Progress t emitted t' := by
  cases hturn with
  | stays hopen hserials hnext hcode =>
    exact .stays (by rw [openBlocks, openBlocks, hopen, hopen]) hserials hnext hcode
  | opens b hopen hother hskip _ hsite hserials hnext hcode =>
    exact .opens b (openBlocks_perm_of_opens hopen hother) hskip hsite hserials hnext hcode
  | closes b jump hopen hother hothers hjump hlow hhigh hserials hnext hcode =>
    refine .closes b jump (openBlocks_perm_of_closes hopen hother) ?_ hjump hlow hhigh hserials
      hnext hcode
    obtain ⟨hsame, hrest⟩ := h.innermost hopen hothers
    intro a ha
    rcases List.mem_append.mp ((openBlocks_perm b.kind t').mem_iff.mp ha) with ha | ha
    · exact hsame a ha
    · exact hrest a (hother ▸ ha)

/-- What every accepted line does to the open blocks and to the program. -/
theorem Stacked.progress_of_feed (h : Stacked t) (hseated : Seated t)
    (hfeed : t.feed line = (.ok emitted, t')) : Progress t emitted t' :=
  h.progress (turn_of_feed hseated hfeed)

/-! ## Histories -/

/-- An accepted line, with the states in front of it and behind it. -/
structure Transition where
  /-- The state in front of the line. -/
  before : Translator
  /-- The line. -/
  line : Line
  /-- The instructions that it put at the end of the program. -/
  emitted : List Instr
  /-- The state behind the line. -/
  after : Translator

/-- The block that was opened: it is open behind the line and was not in front of it. -/
def Transition.opened? (s : Transition) : Option Block :=
  s.after.openBlocks.find? fun b => b ∉ s.before.openBlocks

/-- The blocks that were opened, in the order in which that happened. -/
def opened (history : List Transition) : List Block := history.filterMap Transition.opened?

theorem opened?_of_subset (h : ∀ b ∈ t'.openBlocks, b ∈ t.openBlocks) :
    (Transition.mk t line emitted t').opened? = none := by
  rw [Transition.opened?, List.find?_eq_none]
  intro b hb
  simpa using h b hb

theorem opened?_of_closes (hopen : t.openBlocks.Perm (b :: t'.openBlocks)) :
    (Transition.mk t line emitted t').opened? = none :=
  opened?_of_subset fun _ ha => hopen.mem_iff.mpr (List.mem_cons_of_mem _ ha)

/-- A block that gets the next number was not open before. -/
theorem Stacked.opened?_of_opens (h : Stacked t) (hopen : t'.openBlocks.Perm (b :: t.openBlocks))
    (hskip : b.skip = t.nextSerial) : (Transition.mk t line emitted t').opened? = some b := by
  have hnew : b ∉ t.openBlocks := fun hold => by
    have := h.drawn b hold
    omega
  cases hfound : (Transition.mk t line emitted t').opened? with
  | none =>
    have hnone := List.find?_eq_none.mp hfound b (hopen.mem_iff.mpr List.mem_cons_self)
    simp [hnew] at hnone
  | some a =>
    have hafter : a ∈ t'.openBlocks := List.mem_of_find?_eq_some hfound
    have hbefore : a ∉ t.openBlocks := by simpa using List.find?_some hfound
    rw [(List.mem_cons.mp (hopen.mem_iff.mp hafter)).resolve_right hbefore]

theorem opened_concat (history : List Transition) (s : Transition) :
    opened (history ++ [s]) = opened history ++ s.opened?.toList := by
  rw [opened, opened, List.filterMap_append]
  cases hs : s.opened? <;> simp [hs]

/-- The transitions of the lines that are accepted when all of them are fed. -/
def transitions (t : Translator) : List Line → List Transition
  | [] => []
  | line :: rest =>
    match t.feed line with
    | (.ok emitted, next) => ⟨t, line, emitted, next⟩ :: next.transitions rest
    | (.error _, next) => next.transitions rest

theorem run_induction_from {motive : Translator → List Transition → Prop}
    (hstep : ∀ {t t' : Translator} {line : Line} {emitted : List Instr}
      (history : List Transition), Seated t → Stacked t → motive t history →
        t.feed line = (.ok emitted, t') → motive t' (history ++ [⟨t, line, emitted, t'⟩]))
    {t : Translator} {history : List Transition} (hseated : Seated t) (hstacked : Stacked t)
    (h : motive t history) (lines : List Line) :
    motive (t.feedEach lines) (history ++ t.transitions lines) := by
  induction lines generalizing t history with
  | nil => simpa [transitions, feedEach] using h
  | cons line rest ih =>
    rcases hfeed : t.feed line with ⟨fault | emitted, next⟩
    · have hsame : next = t := hseated.feed_error_eq hfeed
      subst hsame
      simp only [feedEach, transitions, hfeed]
      exact ih hseated hstacked h
    · simp only [feedEach, transitions, hfeed]
      rw [List.append_cons]
      exact ih (hseated.feed hfeed) (hstacked.turn (turn_of_feed hseated hfeed))
        (hstep history hseated hstacked h hfeed)

/-- What holds in front of the first line and is kept by every accepted line holds behind every run.
A refused line changes nothing. -/
theorem run_induction {motive : Translator → List Transition → Prop} {config : Config}
    (hnew : motive (new config) [])
    (hstep : ∀ {t t' : Translator} {line : Line} {emitted : List Instr}
      (history : List Transition), Seated t → Stacked t → motive t history →
        t.feed line = (.ok emitted, t') → motive t' (history ++ [⟨t, line, emitted, t'⟩]))
    (lines : List Line) :
    motive ((new config).feedEach lines) ((new config).transitions lines) :=
  run_induction_from hstep (seated_new config) (stacked_new config) hnew lines

/-- The stacks are in order behind every run. -/
theorem Stacked.feedEach (h : Stacked t) (hseated : Seated t) (lines : List Line) :
    Stacked (t.feedEach lines) :=
  @run_induction_from (fun t _ => Stacked t)
    (fun _ hseated hstacked _ hfeed => hstacked.turn (turn_of_feed hseated hfeed)) t [] hseated h h
    lines

end Translator

end AccuAsm
