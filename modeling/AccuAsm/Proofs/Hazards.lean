import AccuAsm.Proofs.Staging

/-!
# Operands that get in each other's way

A statement that names the latch or a scratch register as an operand may find it overwritten
by its own staging.  This module says exactly when.

There are two groups.

* Hazards.  `Registers.Clash` is the condition.  Without it sources are read as they were, and
  `Machine.exists_misread` says that with it some machine reads another number.
* Statements.  `Machine.Keeps` says what a statement leaves alone.
-/

namespace AccuAsm

/-! ## Hazards -/

theorem Registers.clash_constant {r : Registers} {a dest : Value} (n : Int64) :
    r.Clash a (.immediate n) (some dest) ↔ dest.IsCell ∧ a.FollowsLatch r := by
  have hcell : ¬(Value.immediate n).IsCell := by rintro ⟨⟩
  have hregister (number : Int64) : ¬(Value.immediate n).IsRegister number := fun h => h.1 rfl
  constructor
  · rintro (⟨_, h⟩ | ⟨h, _⟩ | ⟨h, hsome⟩)
    · exact absurd h (hregister _)
    · exact absurd h hcell
    · have ha : a.FollowsLatch r := by
        refine h.resolve_right ?_
        rintro (h | h) <;> exact hregister _ h
      refine ⟨?_, ha⟩
      rcases hsome with hsome | hsome | ⟨other, hother, hsome⟩
      · rcases ha with ha | ha <;> exact absurd hsome ha.not_isCell
      · exact absurd hsome hcell
      · obtain rfl := Option.mem_some_iff.mp hother
        exact hsome
  · rintro ⟨hdest, ha⟩
    exact .inr (.inr ⟨.inl ha, .inr (.inr ⟨dest, rfl, hdest⟩)⟩)

namespace Machine

variable {m : Machine} {r : Registers} {a b v : Value} {target : Option Value}
  {scratch number : Int64} {x : Int}

/-- A machine on which a number can be told from what the registers hold.  Every cell holds its own
number. -/
def offBy (x : Int) : Machine where
  registers := fun _ => x + 1
  ram := id
  pc := 0

theorem read_offBy (hcounter : number ≠ r.counter) : (offBy x).read r number = x + 1 := by
  rw [read, if_neg hcounter]
  split <;> rfl

/-- Selecting a cell decides what the latch holds. -/
theorem exists_latched (h : r.Apart) (hsome : Value.AnyCell a b target) :
    ∃ x, ∀ m : Machine, (m.stage r a b target).registers r.latch = x := by
  by_cases htarget : ∃ dest ∈ target, dest.IsCell
  · obtain ⟨dest, rfl, hcell⟩ := htarget
    exact ⟨_, fun m => select_latch h hcell⟩
  · have hselect (m : Machine) : m.select r target = m :=
      select_of_not_isCell fun dest hdest hkind => htarget ⟨dest, hdest, hkind⟩
    by_cases hb : b.IsCell
    · refine ⟨b.payload.toInt, fun m => ?_⟩
      rw [stage, hselect, load_latch h h.scratch1 hb]
    · have ha : a.IsCell := by
        rcases hsome with ha | hb' | htarget'
        · exact ha
        · exact absurd hb' hb
        · exact absurd htarget' htarget
      refine ⟨a.payload.toInt, fun m => ?_⟩
      rw [stage, hselect, load_of_not_isCell hb, load_latch h h.scratch0 ha]

/-- With the latch on `x`, a value that depends on the latch reads as `x`. -/
theorem seen_latched (h : r.Apart) (hram : m.ram = id) (hlatch : m.registers r.latch = x)
    (hv : v.FollowsLatch r) : m.seen r scratch v = x := by
  rcases hv with hv | hv
  · rw [seen_eq_read hv, read, if_pos rfl, hram, hlatch]
    rfl
  · rw [seen_eq_read hv, read, if_neg h.latch.2, if_neg h.latch.1, hlatch]

theorem value_offBy (h : r.Apart) (hv : v.FollowsLatch r) : (offBy x).value r v = x + 1 := by
  rcases hv with hv | hv
  · rw [value_eq_read hv, read_offBy h.ram]
  · rw [value_eq_read hv, read_offBy h.latch.1]

/-- Operands that get in each other's way are misread on some machine. -/
theorem exists_misread (h : r.Apart) (hclash : r.Clash a b target) :
    ∃ m : Machine, (m.stage r a b target).seen r r.scratch0 a ≠ m.value r a ∨
      (m.stage r a b target).seen r r.scratch1 b ≠ m.value r b := by
  rcases hclash with ⟨hcell, hregister⟩ | ⟨hcell, hregister⟩ | ⟨hfollows, hsome⟩
  · refine ⟨offBy a.payload.toInt, .inr ?_⟩
    rw [seen_eq_read hregister, value_eq_read hregister, read_offBy h.scratch0.counter, stage,
      load_of_not_isCell hregister.not_isCell,
      read_select h h.scratch0.counter fun _ => ⟨h.scratch0.ram, h.scratch0.latch⟩,
      read_spare h.scratch0, load_scratch h.scratch0 hcell]
    show a.payload.toInt ≠ _
    omega
  · refine ⟨offBy b.payload.toInt, .inl ?_⟩
    rw [seen_eq_read hregister, value_eq_read hregister, read_offBy h.scratch1.counter, stage,
      read_select h h.scratch1.counter fun _ => ⟨h.scratch1.ram, h.scratch1.latch⟩,
      read_spare h.scratch1, load_scratch h.scratch1 hcell, ram_load h h.scratch0]
    show b.payload.toInt ≠ _
    omega
  · obtain ⟨x, hlatch⟩ := exists_latched h hsome
    refine ⟨offBy x, ?_⟩
    have hmisread {scratch : Int64} {v : Value} (hv : v.FollowsLatch r) :
        ((offBy x).stage r a b target).seen r scratch v ≠ (offBy x).value r v := by
      rw [seen_latched h (ram_stage h) (hlatch _) hv, value_offBy h hv]
      omega
    rcases hfollows with ha | hb
    · exact .inl (hmisread ha)
    · exact .inr (hmisread hb)

theorem seen_iff (h : r.Apart) (ha : ¬a.IsRegister r.counter) (hb : ¬b.IsRegister r.counter) :
    (∀ m : Machine, (m.stage r a b target).seen r r.scratch0 a = m.value r a ∧
      (m.stage r a b target).seen r r.scratch1 b = m.value r b) ↔ ¬r.Clash a b target := by
  constructor
  · intro hseen hclash
    obtain ⟨m, hleft | hright⟩ := exists_misread h hclash
    · exact hleft (hseen m).1
    · exact hright (hseen m).2
  · exact fun hsafe m => ⟨seen_left h ha hsafe, seen_right h hb hsafe⟩

end Machine

/-! ## Statements -/

namespace InstructionSet

variable (set : InstructionSet)

/-- The statements with two sources: where their result goes, and their operations.  The head of an
IF has no destination. -/
inductive Binary (a b : Value) : Option Value → List Op → Prop where
  | arithmetic (operation : Operation) (high : Bool) (dest : Value) :
      Binary a b (some dest) (set.arithmeticOps (set.operationCode operation)
        (if high then set.wordHigh else 0) a b dest)
  | comparison (code : Int64) (hcode : code ∈ set.codes) (dest : Value) :
      Binary a b (some dest) (set.compareOps code a b dest)
  | branch (code : Int64) (hcode : code ∈ set.codes) (place : Operand) :
      Binary a b none (set.branchOps code a b place)

end InstructionSet

namespace Machine

variable {set : InstructionSet} {circuit : Circuit} {m m' : Machine} {a b v dest : Value}
  {target : Option Value} {x : Int} {ops : List Op}

/-- What the last one of some operations reads. -/
def reads (set : InstructionSet) (circuit : Circuit) (m : Machine) (ops : List Op) :
    Option (Int × Int) :=
  ops.getLast?.map fun last =>
    let before := m.perform set circuit ops.dropLast
    let d := set.decode last.opcode
    (before.source set.registers d.left last.args.left.number,
      before.source set.registers d.right last.args.right.number)

/-- Operations that copy are executed in their turn. -/
theorem pc_perform (hset : set.Legible) (h : ∀ op ∈ ops, set.Copies op) :
    (m.perform set circuit ops).pc = m.pc + instructionWidth * ops.length := by
  induction ops generalizing m with
  | nil => simp [perform]
  | cons op rest ih =>
    rw [List.forall_mem_cons] at h
    obtain ⟨⟨source, constant, dest, rfl, hdest⟩, hrest⟩ := h
    rw [← List.singleton_append, perform_append, ih hrest, perform_moveOp hset, pc_write hdest,
      List.length_append, List.length_singleton]
    push_cast
    ring

/-- Every operation but the last one goes on to the next. -/
def InTurn (set : InstructionSet) (circuit : Circuit) (m : Machine) (ops : List Op) : Prop :=
  ∀ k < ops.length, (m.perform set circuit (ops.take k)).pc = m.pc + instructionWidth * k

theorem inTurn_of_copies (hset : set.Legible) (h : ∀ op ∈ ops.dropLast, set.Copies op) :
    m.InTurn set circuit ops := by
  intro k hk
  have htake : ops.take k = ops.dropLast.take k := by
    rw [List.dropLast_eq_take, List.take_take, Nat.min_eq_left (by omega)]
  rw [htake, pc_perform hset fun op hop => h op (List.mem_of_mem_take hop), List.length_take,
    List.length_dropLast, Nat.min_eq_left (by omega)]

/-- Nothing has changed but the destination and the registers of staging. -/
structure Keeps (r : Registers) (a b : Value) (target : Option Value) (m m' : Machine) : Prop where
  ram : ∀ cell, (∀ dest ∈ target, dest.IsCell → dest.payload.toInt ≠ cell) →
    m'.ram cell = m.ram cell
  registers : ∀ number, r.Idle a b target number → (∀ dest ∈ target, ¬dest.IsRegister number) →
    m'.registers number = m.registers number

/-- A result that is written can be read at its destination. -/
theorem value_write (h : set.registers.Apart) (hdest : dest.IsTarget set.registers)
    (hlatch : dest.IsCell → m.registers set.registers.latch = dest.payload.toInt) :
    (m.write set.registers (set.stageDest dest).2 x).value set.registers dest = x := by
  rw [write_stageDest h hdest hlatch]
  rcases hdest.cases with hcell | ⟨number, hregister, hcounter, hram⟩
  · rw [value_cell hcell, Store.ram_assign, if_pos ⟨hcell, rfl⟩]
  · rw [value_eq_read hregister, read, if_neg hram, if_neg hcounter, Store.registers_assign,
      if_pos hregister]

/-- Writing a result changes its destination alone. -/
theorem keeps_write (h : set.registers.Apart) (hdest : dest.IsTarget set.registers)
    (hready : m.Ready set.registers a b (some dest) m') (x : Int) :
    m.Keeps set.registers a b (some dest) (m'.write set.registers (set.stageDest dest).2 x) := by
  rw [write_stageDest h hdest (hready.latch dest rfl)]
  constructor
  case ram =>
    intro cell hne
    have hother : ¬(dest.IsCell ∧ cell = dest.payload.toInt) :=
      fun hsame => hne dest rfl hsame.1 hsame.2.symm
    rw [Store.ram_assign, if_neg hother, hready.ram]
  case registers =>
    intro number hidle hne
    rw [Store.registers_assign, if_neg (hne dest rfl), hready.registers number hidle]

/-- What the last operation of a statement with two sources is like. -/
structure Last (set : InstructionSet) (circuit : Circuit) (a b : Value) (target : Option Value)
    (last : Op) : Prop where
  left : ∀ m : Machine, m.source set.registers (set.decode last.opcode).left
    last.args.left.number = m.seen set.registers set.registers.scratch0 a
  right : ∀ m : Machine, m.source set.registers (set.decode last.opcode).right
    last.args.right.number = m.seen set.registers set.registers.scratch1 b
  jumps : target = none → ∀ m : Machine, (m.perform set circuit [last]).toStore = m.toStore
  stores : ∀ dest ∈ target, ∀ m : Machine, ∃ x, m.perform set circuit [last] =
    m.write set.registers (set.stageDest dest).2 x

theorem last_of_decode {opcode : Int64} (d : Decoded)
    (hdecode : ∀ left right, set.decode (set.flagged opcode left right) = { d with left, right })
    {place : Operand}
    (hjumps : target = none → (d.condition && d.jump) = true)
    (hstores : ∀ dest ∈ target, (d.condition && d.jump) = false ∧
      place = .literal (set.stageDest dest).2) :
    Last set circuit a b target (set.lastOp opcode a b place) := by
  have hopcode := set.opcode_eq_flagged opcode a b
  constructor
  case left =>
    intro m
    rw [InstructionSet.lastOp, hopcode, hdecode, Operand.number_literal]
    exact source_stageSource
  case right =>
    intro m
    rw [InstructionSet.lastOp, hopcode, hdecode, Operand.number_literal]
    exact source_stageSource
  case jumps =>
    intro hnone m
    rw [perform_lastOp d hdecode rfl rfl, if_pos (hjumps hnone)]
  case stores =>
    intro dest hdest m
    obtain ⟨hjump, rfl⟩ := hstores dest hdest
    rw [perform_lastOp d hdecode rfl rfl, hjump, if_neg Bool.false_ne_true]
    exact ⟨_, rfl⟩

/-- A statement with two sources stages its operands, and one operation is left. -/
theorem exists_last (circuit : Circuit) (hset : set.Legible) (hops : set.Binary a b target ops) :
    ∃ last, ops = set.prelude a b target ++ [last] ∧ Last set circuit a b target last := by
  cases hops with
  | arithmetic operation high dest =>
    refine ⟨_, set.storeOps_eq _ a b dest,
      last_of_decode ⟨false, false, false, false, high, set.operationCode operation⟩
        (hset.arithmetic operation high) (fun hnone => by cases hnone) ?_⟩
    rintro _ ⟨⟩
    exact ⟨rfl, rfl⟩
  | comparison code hcode dest =>
    refine ⟨_, set.storeOps_eq _ a b dest,
      last_of_decode ⟨false, false, true, false, false, code⟩ (hset.comparison code hcode)
        (fun hnone => by cases hnone) ?_⟩
    rintro _ ⟨⟩
    exact ⟨rfl, rfl⟩
  | branch code hcode place =>
    refine ⟨_, set.branchOps_eq code a b place,
      last_of_decode ⟨false, false, true, true, false, code⟩ (hset.branch code hcode)
        (fun _ => rfl) ?_⟩
    rintro _ ⟨⟩

/-- The last operation of a statement with two sources reads what staging leaves for it. -/
theorem reads_eq (hset : set.Legible) (h : set.registers.Apart)
    (hops : set.Binary a b target ops) (m : Machine) :
    m.reads set circuit ops =
      some ((m.stage set.registers a b target).seen set.registers set.registers.scratch0 a,
        (m.stage set.registers a b target).seen set.registers set.registers.scratch1 b) := by
  obtain ⟨last, rfl, hlast⟩ := exists_last circuit hset hops
  rw [reads, List.getLast?_concat, List.dropLast_concat, Option.map_some, perform_prelude hset h]
  dsimp only
  rw [hlast.left, hlast.right]

/-- What a statement with two sources changes. -/
theorem keeps_binary (hset : set.Legible) (h : set.registers.Apart)
    (hops : set.Binary a b target ops) (htarget : ∀ dest ∈ target, dest.IsTarget set.registers)
    (m : Machine) : Keeps set.registers a b target m (m.perform set circuit ops) := by
  obtain ⟨last, rfl, hlast⟩ := exists_last circuit hset hops
  rw [perform_append, perform_prelude hset h]
  cases target with
  | none =>
    have hstore := hlast.jumps rfl (m.stage set.registers a b none)
    refine ⟨fun cell _ => ?_, fun number hidle _ => ?_⟩
    · rw [hstore, ram_stage h]
    · rw [hstore, registers_stage h hidle]
  | some dest =>
    obtain ⟨x, hx⟩ := hlast.stores dest rfl (m.stage set.registers a b (some dest))
    rw [hx]
    exact keeps_write h (htarget dest rfl) (ready_stage h) x

/-- When an assignment stores the number that its source had. -/
theorem assign_iff (hset : set.Legible) (h : set.registers.Apart)
    (hdest : dest.IsTarget set.registers) (hv : ¬v.IsRegister set.registers.counter) :
    (∀ m : Machine, (m.perform set circuit (set.assignOps dest v)).value set.registers dest =
      m.value set.registers v) ↔ ¬(dest.IsCell ∧ v.FollowsLatch set.registers) := by
  by_cases hdirect : ¬dest.IsCell ∧ v.IsCell
  · refine iff_of_true (fun m => ?_) fun hclash => hdirect.1 hclash.1
    rw [perform_assignOps_direct hset h hdirect.1 hdirect.2,
      value_write h hdest fun hcell => absurd hcell hdirect.1, value_cell hdirect.2]
  · have hb : ¬(Value.immediate 0).IsRegister set.registers.counter := fun hb => hb.1 rfl
    rw [← Registers.clash_constant 0, ← seen_iff h hv hb]
    refine forall_congr' fun m => ?_
    rw [perform_assignOps_staged hset h hdirect, value_write h hdest ((ready_stage h).latch dest rfl)]
    exact (and_iff_left (seen_constant rfl)).symm

/-- What an assignment changes. -/
theorem keeps_assign (hset : set.Legible) (h : set.registers.Apart)
    (hdest : dest.IsTarget set.registers) (m : Machine) :
    m.Keeps set.registers v (.immediate 0) (some dest)
      (m.perform set circuit (set.assignOps dest v)) := by
  obtain ⟨m', x, hready, hperform, _⟩ := exists_ready_assign hset h circuit m dest v
  rw [hperform]
  exact keeps_write h hdest hready x

end Machine

/-- When operands get in each other's way.  Take a machine that takes opcodes for what they are and
keeps its registers apart.  The last operation of a calculation, a comparison or the head of an IF
reads what its sources were before the statement, on every machine state, exactly if the operands
do not clash.  An assignment stores what its source was exactly if it is not one of the RAM register
or the latch to a cell.  Nothing else changes but the destination, the latch and the scratch
registers, and these only if a cell is among the operands. -/
theorem operand_hazards (set : InstructionSet) (circuit : Circuit) (hset : set.Legible)
    (h : set.registers.Apart) :
    (∀ (a b : Value) (target : Option Value) (ops : List Op), set.Binary a b target ops →
      ¬a.IsRegister set.registers.counter → ¬b.IsRegister set.registers.counter →
      (∀ dest ∈ target, dest.IsTarget set.registers) →
        ((∀ m : Machine, m.reads set circuit ops =
          some (m.value set.registers a, m.value set.registers b)) ↔
            ¬set.registers.Clash a b target) ∧
        ∀ m : Machine, m.InTurn set circuit ops ∧
          m.Keeps set.registers a b target (m.perform set circuit ops)) ∧
    ∀ dest source : Value, dest.IsTarget set.registers →
      ¬source.IsRegister set.registers.counter →
        ((∀ m : Machine, (m.perform set circuit (set.assignOps dest source)).value set.registers
          dest = m.value set.registers source) ↔
            ¬(dest.IsCell ∧ source.FollowsLatch set.registers)) ∧
        ∀ m : Machine, m.InTurn set circuit (set.assignOps dest source) ∧
          m.Keeps set.registers source (.immediate 0) (some dest)
            (m.perform set circuit (set.assignOps dest source)) := by
  constructor
  · intro a b target ops hops ha hb htarget
    refine ⟨?_, fun m => ⟨?_, Machine.keeps_binary hset h hops htarget m⟩⟩
    · rw [← Machine.seen_iff h ha hb]
      refine forall_congr' fun m => ?_
      rw [Machine.reads_eq hset h hops, Option.some.injEq, Prod.mk.injEq]
    · obtain ⟨last, rfl, _⟩ := Machine.exists_last circuit hset hops
      apply Machine.inTurn_of_copies hset
      rw [List.dropLast_concat]
      exact fun _ => InstructionSet.copies_of_mem_prelude h
  · intro dest source hdest hsource
    refine ⟨Machine.assign_iff hset h hdest hsource, fun m =>
      ⟨Machine.inTurn_of_copies hset fun op hop => ?_, Machine.keeps_assign hset h hdest m⟩⟩
    exact InstructionSet.copies_of_mem_assignOps h hdest (List.mem_of_mem_dropLast hop)

/-- On the reference CPU, adding a cell and the first scratch register may go wrong, and so may an
assignment of the RAM register to a cell.  Comparing a cell with the second scratch register does
not. -/
theorem operand_hazards_standard :
    let circuit : Circuit := ⟨fun _ _ a b => a + b, fun _ a b => a == b, fun c => c.toNat⟩
    let r := InstructionSet.standard.registers
    (¬∀ m : Machine, m.reads .standard circuit
        (InstructionSet.standard.arithmeticOps 1 0 (.cell 3) (.register 4) (.cell 9)) =
          some (m.value r (.cell 3), m.value r (.register 4))) ∧
      (∀ m : Machine, m.reads .standard circuit
        (InstructionSet.standard.branchOps 0 (.cell 3) (.register 5) (.literal 8)) =
          some (m.value r (.cell 3), m.value r (.register 5))) ∧
      ¬∀ m : Machine, (m.perform .standard circuit
        (InstructionSet.standard.assignOps (.cell 9) (.register 0))).value r (.cell 9) =
          m.value r (.register 0) := by
  intro circuit r
  obtain ⟨hbinary, hassign⟩ := operand_hazards .standard circuit InstructionSet.legible_standard
    InstructionSet.apart_standard
  have hcell : (Value.cell 9).IsTarget r := ⟨rfl, by decide, by decide⟩
  have hadd := hbinary (.cell 3) (.register 4) (some (.cell 9)) _ (.arithmetic .add false (.cell 9))
    (by decide) (by decide) (by rintro _ ⟨⟩; exact hcell)
  have hbranch := hbinary (.cell 3) (.register 5) none _ (.branch 0 (by decide) (.literal 8))
    (by decide) (by decide) (by rintro _ ⟨⟩)
  have hset := hassign (.cell 9) (.register 0) hcell (by decide)
  refine ⟨fun hreads => ?_, hbranch.1.mpr ?_, fun hstored => ?_⟩
  · exact hadd.1.mp hreads (.inl ⟨by decide, by decide⟩)
  · rintro (⟨_, hclash⟩ | ⟨hclash, _⟩ | ⟨hclash, _⟩)
    · exact absurd hclash (by decide)
    · exact absurd hclash (by decide)
    · rcases hclash with (hclash | hclash) | (hclash | hclash) <;> exact absurd hclash (by decide)
  · exact hset.1.mp hstored ⟨by decide, .inl (by decide)⟩

end AccuAsm
