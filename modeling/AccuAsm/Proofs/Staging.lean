import AccuAsm.Proofs.Machine

/-!
# Staging of operands

A source that comes from RAM is brought to a scratch register first, and every access to a
cell goes through the latch.  This module says what the operations of a statement do to a
machine, for every instruction set whose opcodes can be told apart.

There are four groups.

* The machine.  `InstructionSet.Legible` says that opcodes are taken for what they were
  composed of, and `Registers.Apart` that the registers of staging are different ones.
* Operands.  `Registers.Clash` says that the operands of a statement get in each other's way,
  and `Registers.Idle` that staging does not use a register.
* Staging.  `Machine.stage` is the state in front of the last operation, and
  `Machine.perform_prelude` says that the operations in front lead there.  `Machine.Ready` is
  what can be relied on in that state.
* Reading and writing.  `Machine.seen_left` and `Machine.seen_right` say that sources which do
  not clash are read as they were, and `Machine.write_stageDest` that a result goes to its
  destination.  `Machine.perform_lastOp` and `Machine.exists_ready_assign` are about the last
  operation itself.
-/

namespace AccuAsm

/-! ## The machine -/

/-- Opcodes are taken for what they were composed of. -/
structure InstructionSet.Legible (set : InstructionSet) : Prop where
  move : ∀ constant : Bool,
    set.decode (set.alu + set.move + if constant then set.immediate0 else 0) =
      ⟨constant, false, false, false, false, set.move⟩
  arithmetic : ∀ (operation : Operation) (high left right : Bool),
    set.decode (set.flagged (set.alu + set.operationCode operation +
      if high then set.wordHigh else 0) left right) =
        ⟨left, right, false, false, high, set.operationCode operation⟩
  comparison : ∀ code ∈ set.codes, ∀ left right : Bool,
    set.decode (set.flagged (set.condition + code) left right) =
      ⟨left, right, true, false, false, code⟩
  branch : ∀ code ∈ set.codes, ∀ left right : Bool,
    set.decode (set.flagged (set.condition + code + set.jump) left right) =
      ⟨left, right, true, true, false, code⟩

theorem InstructionSet.legible_standard : standard.Legible where
  move := decode_move
  arithmetic := decode_arithmetic
  comparison := fun _ hcode => decode_comparison hcode
  branch := fun _ hcode => decode_branch hcode

/-- A scratch register has no other role in staging. -/
structure Registers.Spare (r : Registers) (scratch : Int64) : Prop where
  ram : scratch ≠ r.ram
  counter : scratch ≠ r.counter
  latch : scratch ≠ r.latch

/-- The registers of staging, the RAM register and the program counter are different ones. -/
structure Registers.Apart (r : Registers) : Prop where
  ram : r.ram ≠ r.counter
  latch : r.latch ≠ r.counter ∧ r.latch ≠ r.ram
  scratch0 : r.Spare r.scratch0
  scratch1 : r.Spare r.scratch1
  scratches : r.scratch0 ≠ r.scratch1

theorem InstructionSet.apart_standard : standard.registers.Apart where
  ram := by decide
  latch := by decide
  scratch0 := ⟨by decide, by decide, by decide⟩
  scratch1 := ⟨by decide, by decide, by decide⟩
  scratches := by decide

namespace Machine

variable {m : Machine} {r : Registers} {number : Int64} {x : Int}

theorem pc_write (h : number ≠ r.counter) :
    (m.write r number x).pc = m.pc + instructionWidth := by
  rw [write, if_neg h]
  split <;> rfl

theorem registers_write (hcounter : number ≠ r.counter) (hram : number ≠ r.ram) (n : Int64) :
    (m.write r number x).registers n = if n = number then x else m.registers n := by
  rw [write, if_neg hcounter, if_neg hram]
  rfl

theorem ram_write (hcounter : number ≠ r.counter) (hram : number ≠ r.ram) :
    (m.write r number x).ram = m.ram := by
  rw [write, if_neg hcounter, if_neg hram]
  rfl

end Machine

/-! ## Operands -/

/-- The value is a RAM cell. -/
def Value.IsCell (v : Value) : Prop := v.kind = .ram

/-- The value is the register with a number. -/
def Value.IsRegister (v : Value) (number : Int64) : Prop :=
  v.kind ≠ .immediate ∧ v.kind ≠ .ram ∧ v.payload = number

instance (v : Value) : Decidable v.IsCell := inferInstanceAs (Decidable (_ = _))

instance (v : Value) (number : Int64) : Decidable (v.IsRegister number) :=
  inferInstanceAs (Decidable (_ ∧ _))

theorem Value.IsRegister.not_isCell {v : Value} {number : Int64} (h : v.IsRegister number) :
    ¬v.IsCell := h.2.1

/-- What the value stands for depends on the latch: it is the latch, or the register that stands for
the selected cell. -/
def Value.FollowsLatch (r : Registers) (v : Value) : Prop :=
  v.IsRegister r.ram ∨ v.IsRegister r.latch

/-- A cell is among the operands of a statement. -/
def Value.AnyCell (a b : Value) (target : Option Value) : Prop :=
  a.IsCell ∨ b.IsCell ∨ ∃ dest ∈ target, dest.IsCell

/-- The value can be a destination: a cell, or a register that has no special meaning to the
machine. -/
structure Value.IsTarget (r : Registers) (dest : Value) : Prop where
  writable : dest.writable = true
  counter : ¬dest.IsRegister r.counter
  ram : ¬dest.IsRegister r.ram

/-- Staging does not use the register. -/
def Registers.Idle (r : Registers) (a b : Value) (target : Option Value) (number : Int64) : Prop :=
  (number = r.latch → ¬Value.AnyCell a b target) ∧
    (number = r.scratch0 → ¬a.IsCell) ∧ (number = r.scratch1 → ¬b.IsCell)

/-- The operands of a statement get in each other's way: staging one source overwrites the scratch
register that the other one names, or selecting a cell changes the latch while a source depends on
it. -/
def Registers.Clash (r : Registers) (a b : Value) (target : Option Value) : Prop :=
  (a.IsCell ∧ b.IsRegister r.scratch0) ∨ (b.IsCell ∧ a.IsRegister r.scratch1) ∨
    ((a.FollowsLatch r ∨ b.FollowsLatch r) ∧ Value.AnyCell a b target)

section Operands

variable {r : Registers} {a b v dest : Value} {target : Option Value} {number : Int64}

/-- A source is a constant, a cell or a register. -/
theorem Value.source_cases (v : Value) :
    v.kind = .immediate ∨ v.IsCell ∨ ∃ number, v.IsRegister number := by
  by_cases himmediate : v.kind = .immediate
  · exact .inl himmediate
  · by_cases hram : v.kind = .ram
    · exact .inr (.inl hram)
    · exact .inr (.inr ⟨v.payload, himmediate, hram, rfl⟩)

theorem Value.IsRegister.ne_of_not_followsLatch (h : v.IsRegister number)
    (hlatch : ¬v.FollowsLatch r) : number ≠ r.ram ∧ number ≠ r.latch := by
  constructor
  · rintro rfl
    exact hlatch (.inl h)
  · rintro rfl
    exact hlatch (.inr h)

theorem Value.IsTarget.cases (h : dest.IsTarget r) :
    dest.IsCell ∨ ∃ number, dest.IsRegister number ∧ number ≠ r.counter ∧ number ≠ r.ram := by
  rcases dest.source_cases with hconstant | hcell | ⟨number, hregister⟩
  · exact absurd hconstant (of_decide_eq_true h.writable)
  · exact .inl hcell
  · refine .inr ⟨number, hregister, ?_, ?_⟩
    · rintro rfl
      exact h.counter hregister
    · rintro rfl
      exact h.ram hregister

theorem Registers.idle_of_ne (hlatch : number ≠ r.latch) (hscratch0 : number ≠ r.scratch0)
    (hscratch1 : number ≠ r.scratch1) : r.Idle a b target number :=
  ⟨fun h => absurd h hlatch, fun h => absurd h hscratch0, fun h => absurd h hscratch1⟩

end Operands

/-- Write a number to a place. -/
def Store.assign (s : Store) (dest : Place) (n : Int) : Store :=
  match dest.val.kind with
  | .ram => s.setCell dest.val.payload.toInt n
  | .immediate | .register | .other _ => s.setRegister dest.val.payload n

theorem Store.ram_assign (s : Store) (dest : Place) (x cell : Int) :
    (s.assign dest x).ram cell =
      if dest.val.IsCell ∧ cell = dest.val.payload.toInt then x else s.ram cell := by
  rcases dest with ⟨⟨kind, payload⟩, hwritable⟩
  cases kind <;> simp [assign, setCell, setRegister, Value.IsCell]

theorem Store.registers_assign (s : Store) (dest : Place) (x : Int) (number : Int64) :
    (s.assign dest x).registers number =
      if dest.val.IsRegister number then x else s.registers number := by
  rcases dest with ⟨⟨kind, payload⟩, hwritable⟩
  cases kind with
  | immediate => simp [Value.writable] at hwritable
  | ram => simp [assign, setCell, Value.IsRegister]
  | register | other => simp [assign, setRegister, Value.IsRegister, eq_comm]

namespace InstructionSet

variable (set : InstructionSet)

/-- The operations that prepare a destination, if there is one. -/
def frontOf : Option Value → List Op
  | some dest => (set.stageDest dest).1
  | none => []

/-- The operations of a statement in front of the last one. -/
def prelude (a b : Value) (target : Option Value) : List Op :=
  (set.stageLeft a).code ++ (set.stageRight b).code ++ set.frontOf target

/-- The operation copies something to a register, but not to the program counter. -/
def Copies (op : Op) : Prop :=
  ∃ source constant dest, op = set.moveOp source constant dest ∧ dest ≠ set.registers.counter

/-- The last operation of a statement with two sources. -/
def lastOp (opcode : Int64) (a b : Value) (dest : Operand) : Op where
  opcode := opcode + (set.stageLeft a).flag + (set.stageRight b).flag
  args := ⟨.literal (set.stageLeft a).arg, .literal (set.stageRight b).arg, dest⟩

theorem storeOps_eq (opcode : Int64) (a b dest : Value) :
    set.storeOps opcode a b dest = set.prelude a b (some dest) ++
      [set.lastOp opcode a b (.literal (set.stageDest dest).2)] := rfl

theorem branchOps_eq (code : Int64) (a b : Value) (place : Operand) :
    set.branchOps code a b place = set.prelude a b none ++
      [set.lastOp (set.condition + code + set.jump) a b place] := rfl

theorem stageDest_cell {dest : Value} (h : dest.IsCell) :
    (set.stageDest dest).2 = set.registers.ram := by
  rw [Value.IsCell] at h
  simp only [stageDest, h]

theorem stageDest_register {dest : Value} {number : Int64} (h : dest.IsRegister number) :
    (set.stageDest dest).2 = number := by
  obtain ⟨_, hkind, rfl⟩ := h
  unfold stageDest
  split
  · next hram => exact absurd hram hkind
  · rfl

theorem prelude_constant (a : Value) (n : Int64) (dest : Value) :
    set.prelude a (.immediate n) (some dest) =
      (set.stageLeft a).code ++ (set.stageDest dest).1 := by
  rw [prelude, show (set.stageRight (.immediate n)).code = [] from rfl,
    List.append_nil]
  rfl

section Assignments

variable {dest source : Value}

/-- A register is loaded from the selected cell without a detour. -/
theorem assignOps_direct (h : ¬dest.IsCell ∧ source.IsCell) :
    set.assignOps dest source = [set.latchOp source.payload] ++
      [set.copyOp set.registers.ram (set.stageDest dest).2] := by
  rcases dest with ⟨kind, payload⟩
  rcases source with ⟨kind', payload'⟩
  obtain ⟨hkind, rfl⟩ := h
  cases kind with
  | ram => exact absurd rfl hkind
  | immediate | register | other => rfl

/-- Every other assignment stages its source and its destination. -/
theorem assignOps_staged (h : ¬(¬dest.IsCell ∧ source.IsCell)) :
    set.assignOps dest source = (set.stageLeft source).code ++ (set.stageDest dest).1 ++
      [set.moveOp (.literal (set.stageLeft source).arg) (source.kind = .immediate)
        (set.stageDest dest).2] := by
  rcases dest with ⟨kind, payload⟩
  rcases source with ⟨kind', payload'⟩
  cases kind <;> cases kind' <;> first | rfl | exact absurd ⟨by simp [Value.IsCell], rfl⟩ h

end Assignments

section Copies

variable {set} (h : set.registers.Apart) {a b dest : Value} {target : Option Value} {op : Op}
include h

theorem copies_latchOp (cell : Int64) : set.Copies (set.latchOp cell) := ⟨_, _, _, rfl, h.latch.1⟩

theorem copies_of_mem_stageSource {scratch flag : Int64} {v : Value}
    (hscratch : scratch ≠ set.registers.counter)
    (hop : op ∈ (set.stageSource scratch flag v).code) : set.Copies op := by
  unfold stageSource at hop
  split at hop
  · rcases List.mem_pair.mp hop with rfl | rfl
    · exact copies_latchOp h _
    · exact ⟨_, _, _, rfl, hscratch⟩
  · cases hop
  · cases hop
  · cases hop

/-- Every operation in front of the last one copies something. -/
theorem copies_of_mem_prelude (hop : op ∈ set.prelude a b target) : set.Copies op := by
  simp only [prelude, List.mem_append] at hop
  rcases hop with (hop | hop) | hop
  · exact copies_of_mem_stageSource h h.scratch0.counter hop
  · exact copies_of_mem_stageSource h h.scratch1.counter hop
  · unfold frontOf at hop
    split at hop
    · unfold stageDest at hop
      split at hop
      · obtain rfl := List.mem_singleton.mp hop
        exact copies_latchOp h _
      · cases hop
    · cases hop

theorem stageDest_ne_counter (hdest : dest.IsTarget set.registers) :
    (set.stageDest dest).2 ≠ set.registers.counter := by
  rcases hdest.cases with hcell | ⟨number, hregister, hcounter, _⟩
  · rw [set.stageDest_cell hcell]
    exact h.ram
  · rw [set.stageDest_register hregister]
    exact hcounter

/-- An assignment does nothing but copy. -/
theorem copies_of_mem_assignOps {source : Value} (hdest : dest.IsTarget set.registers)
    (hop : op ∈ set.assignOps dest source) : set.Copies op := by
  by_cases hdirect : ¬dest.IsCell ∧ source.IsCell
  · rw [set.assignOps_direct hdirect] at hop
    rcases List.mem_pair.mp hop with rfl | rfl
    · exact copies_latchOp h _
    · exact ⟨_, _, _, rfl, stageDest_ne_counter h hdest⟩
  · rw [set.assignOps_staged hdirect, ← set.prelude_constant source 0 dest, List.mem_append,
      List.mem_singleton] at hop
    rcases hop with hop | rfl
    · exact copies_of_mem_prelude h hop
    · exact ⟨_, _, _, rfl, stageDest_ne_counter h hdest⟩

end Copies

end InstructionSet

/-! ## Staging -/

namespace Machine

/-- Execute operations one after another. -/
def perform (set : InstructionSet) (circuit : Circuit) (m : Machine) (ops : List Op) : Machine :=
  ops.foldl (fun m op => m.execute set circuit op.opcode (op.args.map Operand.number)) m

/-- The number that a value stands for. -/
def value (r : Registers) (m : Machine) (v : Value) : Int :=
  match v.kind with
  | .immediate => v.payload.toInt
  | .ram => m.ram v.payload.toInt
  | .register | .other _ => m.read r v.payload

variable {set : InstructionSet} {circuit : Circuit} {m m' : Machine} {r : Registers}
  {a b v dest : Value} {target : Option Value} {scratch number flag : Int64} {x : Int}

theorem perform_append (ops ops' : List Op) :
    m.perform set circuit (ops ++ ops') = (m.perform set circuit ops).perform set circuit ops' :=
  List.foldl_append

theorem perform_moveOp (h : set.Legible) (source : Operand) (constant : Bool) (dest : Int64) :
    m.perform set circuit [set.moveOp source constant dest] =
      m.write set.registers dest (m.source set.registers constant source.number) := by
  simp only [perform, List.foldl_cons, List.foldl_nil, execute, InstructionSet.moveOp, h.move]
  simp [Circuit.output, Args.map]

/-- Bring a value to a scratch register if it is a RAM cell. -/
def load (r : Registers) (scratch : Int64) (v : Value) (m : Machine) : Machine :=
  if v.IsCell then (m.write r r.latch v.payload.toInt).write r scratch (m.ram v.payload.toInt)
  else m

/-- Select the cell of a destination if there is one. -/
def select (r : Registers) (target : Option Value) (m : Machine) : Machine :=
  match target with
  | some dest => if dest.IsCell then m.write r r.latch dest.payload.toInt else m
  | none => m

/-- The state in front of the last operation of a statement. -/
def stage (r : Registers) (a b : Value) (target : Option Value) (m : Machine) : Machine :=
  ((m.load r r.scratch0 a).load r r.scratch1 b).select r target

theorem load_of_not_isCell (h : ¬v.IsCell) : m.load r scratch v = m := if_neg h

theorem select_of_not_isCell (h : ∀ dest ∈ target, ¬dest.IsCell) : m.select r target = m := by
  cases target with
  | none => rfl
  | some dest => exact if_neg (h dest rfl)

theorem registers_latch (h : r.Apart) (n : Int64) :
    (m.write r r.latch x).registers n = if n = r.latch then x else m.registers n :=
  registers_write h.latch.1 h.latch.2 n

theorem ram_latch (h : r.Apart) : (m.write r r.latch x).ram = m.ram :=
  ram_write h.latch.1 h.latch.2

theorem ram_load (h : r.Apart) (hscratch : r.Spare scratch) : (m.load r scratch v).ram = m.ram := by
  unfold load
  split
  · rw [ram_write hscratch.counter hscratch.ram, ram_latch h]
  · rfl

theorem ram_select (h : r.Apart) : (m.select r target).ram = m.ram := by
  unfold select
  split
  · split
    · exact ram_latch h
    · rfl
  · rfl

theorem ram_stage (h : r.Apart) : (m.stage r a b target).ram = m.ram := by
  rw [stage, ram_select h, ram_load h h.scratch1, ram_load h h.scratch0]

/-- Loading leaves all registers alone but two. -/
theorem registers_load (h : r.Apart) (hscratch : r.Spare scratch) {n : Int64}
    (hn : v.IsCell → n ≠ r.latch ∧ n ≠ scratch) :
    (m.load r scratch v).registers n = m.registers n := by
  unfold load
  split
  · next hcell =>
    rw [registers_write hscratch.counter hscratch.ram, if_neg (hn hcell).2, registers_latch h,
      if_neg (hn hcell).1]
  · rfl

theorem registers_select (h : r.Apart) {n : Int64}
    (hn : (∃ dest ∈ target, dest.IsCell) → n ≠ r.latch) :
    (m.select r target).registers n = m.registers n := by
  unfold select
  split
  · next dest =>
    split
    · next hcell => rw [registers_latch h, if_neg (hn ⟨dest, rfl, hcell⟩)]
    · rfl
  · rfl

theorem load_scratch (hscratch : r.Spare scratch) (hcell : v.IsCell) :
    (m.load r scratch v).registers scratch = m.ram v.payload.toInt := by
  rw [load, if_pos hcell, registers_write hscratch.counter hscratch.ram, if_pos rfl]

theorem load_latch (h : r.Apart) (hscratch : r.Spare scratch) (hcell : v.IsCell) :
    (m.load r scratch v).registers r.latch = v.payload.toInt := by
  rw [load, if_pos hcell, registers_write hscratch.counter hscratch.ram,
    if_neg hscratch.latch.symm, registers_latch h, if_pos rfl]

theorem select_latch (h : r.Apart) (hcell : dest.IsCell) :
    (m.select r (some dest)).registers r.latch = dest.payload.toInt := by
  show (if dest.IsCell then _ else m).registers _ = _
  rw [if_pos hcell, registers_latch h, if_pos rfl]

theorem read_spare (h : r.Spare scratch) : m.read r scratch = m.registers scratch := by
  rw [read, if_neg h.ram, if_neg h.counter]

/-- The RAM register reads the selected cell. -/
theorem source_latched (h : r.Apart) (cell : Int64) :
    (m.write r r.latch cell.toInt).source r false r.ram = m.ram cell.toInt := by
  show read _ _ _ = _
  rw [read, if_pos rfl, ram_latch h, registers_latch h, if_pos rfl]

theorem perform_stageSource (hset : set.Legible) (h : set.registers.Apart) :
    m.perform set circuit (set.stageSource scratch flag v).code =
      m.load set.registers scratch v := by
  by_cases hcell : v.IsCell
  · have hcode : (set.stageSource scratch flag v).code =
        [set.latchOp v.payload] ++ [set.copyOp set.registers.ram scratch] := by
      rw [Value.IsCell] at hcell
      simp only [InstructionSet.stageSource, hcell]
      rfl
    rw [hcode, perform_append, InstructionSet.latchOp, InstructionSet.copyOp, perform_moveOp hset,
      perform_moveOp hset, load, if_pos hcell]
    exact congrArg _ (source_latched h v.payload)
  · rw [load_of_not_isCell hcell]
    rw [Value.IsCell] at hcell
    unfold InstructionSet.stageSource
    split
    · next hkind => exact absurd hkind hcell
    · rfl
    · rfl
    · rfl

theorem perform_frontOf (hset : set.Legible) :
    m.perform set circuit (set.frontOf target) = m.select set.registers target := by
  cases target with
  | none => rfl
  | some dest =>
    unfold InstructionSet.frontOf InstructionSet.stageDest select
    dsimp only
    split
    · next hkind =>
      rw [if_pos (show dest.IsCell from hkind), InstructionSet.latchOp]
      exact perform_moveOp hset _ _ _
    · next hkind =>
      rw [if_neg (show ¬dest.IsCell from hkind)]
      rfl

/-- The operations in front of the last one stage the operands. -/
theorem perform_prelude (hset : set.Legible) (h : set.registers.Apart) :
    m.perform set circuit (set.prelude a b target) = m.stage set.registers a b target := by
  rw [InstructionSet.prelude, perform_append, perform_append, InstructionSet.stageLeft,
    InstructionSet.stageRight, perform_stageSource hset h, perform_stageSource hset h,
    perform_frontOf hset, stage]

theorem registers_stage (h : r.Apart) (hidle : r.Idle a b target number) :
    (m.stage r a b target).registers number = m.registers number := by
  obtain ⟨hlatch, hscratch0, hscratch1⟩ := hidle
  rw [stage, registers_select h fun hcell heq => hlatch heq (.inr (.inr hcell)),
    registers_load h h.scratch1 fun hcell =>
      ⟨fun heq => hlatch heq (.inr (.inl hcell)), fun heq => hscratch1 heq hcell⟩,
    registers_load h h.scratch0 fun hcell =>
      ⟨fun heq => hlatch heq (.inl hcell), fun heq => hscratch0 heq hcell⟩]

/-- What can be relied on in front of the last operation: RAM and the registers that staging does
not use are as they were, and the cell of the destination is selected. -/
structure Ready (r : Registers) (a b : Value) (target : Option Value) (m m' : Machine) : Prop where
  ram : m'.ram = m.ram
  registers : ∀ number, r.Idle a b target number → m'.registers number = m.registers number
  latch : ∀ dest ∈ target, dest.IsCell → m'.registers r.latch = dest.payload.toInt

theorem ready_stage (h : r.Apart) : m.Ready r a b target (m.stage r a b target) where
  ram := ram_stage h
  registers _ hidle := registers_stage h hidle
  latch := by
    rintro dest rfl hcell
    exact select_latch h hcell

/-- A register can be loaded from a cell as soon as the cell is selected. -/
theorem ready_latch (h : r.Apart) (hdest : ¬dest.IsCell) (hcell : v.IsCell) :
    m.Ready r v b (some dest) (m.write r r.latch x) where
  ram := ram_latch h
  registers n hidle := by
    have hn : n ≠ r.latch := fun heq => hidle.1 heq (.inl hcell)
    rw [registers_latch h, if_neg hn]
  latch := by
    rintro _ ⟨⟩ hdest'
    exact absurd hdest' hdest

/-! ## Reading and writing -/

/-- What the ALU reads for a source that has been staged. -/
def seen (r : Registers) (scratch : Int64) (v : Value) (m : Machine) : Int :=
  match v.kind with
  | .immediate => v.payload.toInt
  | .ram => m.read r scratch
  | .register | .other _ => m.read r v.payload

theorem source_stageSource :
    m.source r (v.kind = .immediate) (set.stageSource scratch flag v).arg =
      m.seen r scratch v := by
  rcases v with ⟨kind, payload⟩
  cases kind <;> rfl

theorem read_load (h : r.Apart) (hscratch : r.Spare scratch) (hcounter : number ≠ r.counter)
    (hsafe : v.IsCell → number ≠ r.ram ∧ number ≠ r.latch ∧ number ≠ scratch) :
    (m.load r scratch v).read r number = m.read r number := by
  by_cases hcell : v.IsCell
  · obtain ⟨hram, hlatch, hother⟩ := hsafe hcell
    rw [read, if_neg hram, if_neg hcounter, registers_load h hscratch fun _ => ⟨hlatch, hother⟩,
      read, if_neg hram, if_neg hcounter]
  · rw [load_of_not_isCell hcell]

theorem read_select (h : r.Apart) (hcounter : number ≠ r.counter)
    (hsafe : (∃ dest ∈ target, dest.IsCell) → number ≠ r.ram ∧ number ≠ r.latch) :
    (m.select r target).read r number = m.read r number := by
  by_cases hcell : ∃ dest ∈ target, dest.IsCell
  · obtain ⟨hram, hlatch⟩ := hsafe hcell
    rw [read, if_neg hram, if_neg hcounter, registers_select h fun _ => hlatch, read, if_neg hram,
      if_neg hcounter]
  · rw [select_of_not_isCell fun dest hdest hkind => hcell ⟨dest, hdest, hkind⟩]

theorem value_eq_read (h : v.IsRegister number) : m.value r v = m.read r number := by
  obtain ⟨himmediate, hram, rfl⟩ := h
  unfold value
  split
  · next hkind => exact absurd hkind himmediate
  · next hkind => exact absurd hkind hram
  · rfl
  · rfl

/-- Only a cell is read from another place than the one it names. -/
theorem seen_of_not_isCell (h : ¬v.IsCell) : m.seen r scratch v = m.value r v := by
  unfold seen value
  split
  · rfl
  · next hkind => exact absurd hkind h
  · rfl
  · rfl

theorem seen_eq_read (h : v.IsRegister number) : m.seen r scratch v = m.read r number :=
  (seen_of_not_isCell h.not_isCell).trans (value_eq_read h)

theorem seen_constant (h : v.kind = .immediate) : m'.seen r scratch v = m.value r v := by
  simp only [seen, value, h]

theorem seen_cell (h : v.IsCell) : m.seen r scratch v = m.read r scratch := by
  rw [Value.IsCell] at h
  simp only [seen, h]

theorem value_cell (h : v.IsCell) : m.value r v = m.ram v.payload.toInt := by
  rw [Value.IsCell] at h
  simp only [value, h]

/-- The first source is read as it was. -/
theorem seen_left (h : r.Apart) (ha : ¬a.IsRegister r.counter) (hsafe : ¬r.Clash a b target) :
    (m.stage r a b target).seen r r.scratch0 a = m.value r a := by
  rcases a.source_cases with hconstant | hcell | ⟨number, hregister⟩
  · exact seen_constant hconstant
  · -- neither the other source nor the destination touches the scratch register
    rw [seen_cell hcell, value_cell hcell, stage,
      read_select h h.scratch0.counter fun _ => ⟨h.scratch0.ram, h.scratch0.latch⟩,
      read_load h h.scratch1 h.scratch0.counter fun _ =>
        ⟨h.scratch0.ram, h.scratch0.latch, h.scratches⟩,
      read_spare h.scratch0, load_scratch h.scratch0 hcell]
  · have hcounter : number ≠ r.counter := by
      rintro rfl
      exact ha hregister
    have hram (hsome : Value.AnyCell a b target) : number ≠ r.ram ∧ number ≠ r.latch :=
      hregister.ne_of_not_followsLatch fun hlatch => hsafe (.inr (.inr ⟨.inl hlatch, hsome⟩))
    have hscratch (hcell : b.IsCell) : number ≠ r.scratch1 := by
      rintro rfl
      exact hsafe (.inr (.inl ⟨hcell, hregister⟩))
    rw [seen_eq_read hregister, value_eq_read hregister, stage,
      load_of_not_isCell hregister.not_isCell,
      read_select h hcounter fun hcell => hram (.inr (.inr hcell)),
      read_load h h.scratch1 hcounter fun hcell =>
        ⟨(hram (.inr (.inl hcell))).1, (hram (.inr (.inl hcell))).2, hscratch hcell⟩]

/-- The second source is read as it was. -/
theorem seen_right (h : r.Apart) (hb : ¬b.IsRegister r.counter) (hsafe : ¬r.Clash a b target) :
    (m.stage r a b target).seen r r.scratch1 b = m.value r b := by
  rcases b.source_cases with hconstant | hcell | ⟨number, hregister⟩
  · exact seen_constant hconstant
  · rw [seen_cell hcell, value_cell hcell, stage,
      read_select h h.scratch1.counter fun _ => ⟨h.scratch1.ram, h.scratch1.latch⟩,
      read_spare h.scratch1, load_scratch h.scratch1 hcell, ram_load h h.scratch0]
  · have hcounter : number ≠ r.counter := by
      rintro rfl
      exact hb hregister
    have hram (hsome : Value.AnyCell a b target) : number ≠ r.ram ∧ number ≠ r.latch :=
      hregister.ne_of_not_followsLatch fun hlatch => hsafe (.inr (.inr ⟨.inr hlatch, hsome⟩))
    have hscratch (hcell : a.IsCell) : number ≠ r.scratch0 := by
      rintro rfl
      exact hsafe (.inl ⟨hcell, hregister⟩)
    rw [seen_eq_read hregister, value_eq_read hregister, stage,
      load_of_not_isCell hregister.not_isCell,
      read_select h hcounter fun hcell => hram (.inr (.inr hcell)),
      read_load h h.scratch0 hcounter fun hcell =>
        ⟨(hram (.inl hcell)).1, (hram (.inl hcell)).2, hscratch hcell⟩]

/-- Writing the RAM register writes the selected cell. -/
theorem write_ram (h : r.Apart) (x : Int) :
    m.write r r.ram x =
      { m.setCell (m.registers r.latch) x with pc := m.pc + instructionWidth } := by
  rw [write, if_neg h.ram, if_pos rfl]

/-- A result goes to its destination. -/
theorem write_stageDest (h : set.registers.Apart) (hdest : dest.IsTarget set.registers)
    (hlatch : dest.IsCell → m.registers set.registers.latch = dest.payload.toInt) (x : Int) :
    m.write set.registers (set.stageDest dest).2 x =
      { m.toStore.assign ⟨dest, hdest.writable⟩ x with pc := m.pc + instructionWidth } := by
  rcases hdest.cases with hcell | ⟨number, hregister, hcounter, hram⟩
  · rw [set.stageDest_cell hcell, write_ram h, hlatch hcell]
    rw [Value.IsCell] at hcell
    simp only [Store.assign, hcell]
  · rw [set.stageDest_register hregister, write, if_neg hcounter, if_neg hram]
    obtain ⟨himmediate, hkind, rfl⟩ := hregister
    unfold Store.assign
    split
    · next hcell => exact absurd hcell hkind
    · rfl
    · rfl
    · rfl

/-- With the flags of its sources, an opcode is read as an operation on them. -/
theorem perform_lastOp {opcode : Int64} {y : Int} (d : Decoded)
    (hdecode : ∀ left right, set.decode (set.flagged opcode left right) = { d with left, right })
    (ha : m.seen set.registers set.registers.scratch0 a = x)
    (hb : m.seen set.registers set.registers.scratch1 b = y) (place : Operand) :
    m.perform set circuit [set.lastOp opcode a b place] =
      if d.condition && d.jump then
        { m with pc := if circuit.holds d.code x y then place.number.toInt
            else m.pc + instructionWidth }
      else m.write set.registers place.number (circuit.output set d x y) := by
  simp only [perform, List.foldl_cons, List.foldl_nil, execute, InstructionSet.lastOp,
    set.opcode_eq_flagged, hdecode, Args.map, Operand.number_literal]
  rw [InstructionSet.stageLeft, InstructionSet.stageRight, source_stageSource, source_stageSource,
    ha, hb]
  rfl

/-- An assignment of a cell to a register. -/
theorem perform_assignOps_direct (hset : set.Legible) (h : set.registers.Apart)
    (hdest : ¬dest.IsCell) (hcell : v.IsCell) (m : Machine) :
    m.perform set circuit (set.assignOps dest v) =
      (m.write set.registers set.registers.latch v.payload.toInt).write set.registers
        (set.stageDest dest).2 (m.ram v.payload.toInt) := by
  rw [set.assignOps_direct ⟨hdest, hcell⟩, perform_append, InstructionSet.latchOp,
    InstructionSet.copyOp, perform_moveOp hset, perform_moveOp hset]
  exact congrArg _ (source_latched h v.payload)

/-- Every other assignment is staged like a statement whose second source is a constant. -/
theorem perform_assignOps_staged (hset : set.Legible) (h : set.registers.Apart)
    (hstaged : ¬(¬dest.IsCell ∧ v.IsCell)) (m : Machine) :
    m.perform set circuit (set.assignOps dest v) =
      (m.stage set.registers v (.immediate 0) (some dest)).write set.registers
        (set.stageDest dest).2 ((m.stage set.registers v (.immediate 0) (some dest)).seen
          set.registers set.registers.scratch0 v) := by
  rw [set.assignOps_staged hstaged, ← set.prelude_constant v 0 dest, perform_append,
    perform_prelude hset h, perform_moveOp hset, Operand.number_literal]
  exact congrArg _ source_stageSource

/-- An assignment writes one number once its operands are ready.  Without a clash this is what the
source was. -/
theorem exists_ready_assign (hset : set.Legible) (h : set.registers.Apart) (circuit : Circuit)
    (m : Machine) (dest v : Value) :
    ∃ m' x, m.Ready set.registers v (.immediate 0) (some dest) m' ∧
      m.perform set circuit (set.assignOps dest v) =
        m'.write set.registers (set.stageDest dest).2 x ∧
      (¬v.IsRegister set.registers.counter →
        ¬set.registers.Clash v (.immediate 0) (some dest) → x = m.value set.registers v) := by
  by_cases hdirect : ¬dest.IsCell ∧ v.IsCell
  · refine ⟨_, _, ready_latch h hdirect.1 hdirect.2,
      perform_assignOps_direct hset h hdirect.1 hdirect.2 m, ?_⟩
    intro _ _
    rw [value_cell hdirect.2]
  · exact ⟨_, _, ready_stage h, perform_assignOps_staged hset h hdirect m, seen_left h⟩

end Machine

end AccuAsm
