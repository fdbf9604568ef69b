import AccuAsm.Proofs.Staging

/-!
# Statements on the machine

What the operations of a plain statement do on the reference CPU.

There are three groups.

* Straight code.  `Passes` says that operations are executed one after another, and
  `Passes.reaches` takes this to a program that holds their words.  `passes_perform` is for
  operations that copy.
* What a source can see.  `Machine.Shows` compares a machine with registers and RAM as a
  source knows them: the latch, the scratch registers and the return address are hidden.
* Operands.  Operands that a source may name do not clash, so that the general facts about
  staging apply to them.  `Machine.Shows.pass_storeOps` and `Machine.Shows.pass_assignOps` put
  them together.
-/

namespace AccuAsm

open InstructionSet (standard)

/-! ## Straight code -/

/-- Execute an operation that names no other instruction. -/
def Machine.exec (circuit : Circuit) (m : Machine) (op : Op) : Machine :=
  m.execute standard circuit op.opcode (op.args.map Operand.number)

/-- Operations that are executed one after another. -/
def Passes (circuit : Circuit) : List Op → Machine → Machine → Prop
  | [], m, m' => m' = m
  | op :: rest, m, m' =>
    (m.exec circuit op).pc = m.pc + instructionWidth ∧ Passes circuit rest (m.exec circuit op) m'

section Passes

variable {circuit : Circuit} {ops ops' : List Op} {m m' m'' : Machine}

theorem Passes.append (h : Passes circuit ops m m') (h' : Passes circuit ops' m' m'') :
    Passes circuit (ops ++ ops') m m'' := by
  induction ops generalizing m with
  | nil =>
    obtain rfl := h
    exact h'
  | cons op rest ih => exact ⟨h.1, ih h.2⟩

theorem passes_single {op : Op} (h : (m.exec circuit op).pc = m.pc + instructionWidth) :
    Passes circuit [op] m (m.exec circuit op) := ⟨h, rfl⟩

variable (circuit) in
theorem reaches_exec {words rest : List Word} {base : Nat} {op : Op} {line : Int} {comment : Text}
    (hcode : StandsAt words base (op.word line comment :: rest)) (hpc : m.pc = 4 * base) :
    Reaches standard circuit words m (m.exec circuit op) := by
  have hstep : Reaches standard circuit words m (m.execute standard circuit
      (op.word line comment).opcode (op.word line comment).args) :=
    reaches_execute (hcode.fetch hpc)
  exact hstep

/-- A program that holds the words of the operations executes them. -/
theorem Passes.reaches {words : List Word} {base : Nat} {line : Int} {comment : Text}
    (h : Passes circuit ops m m') (hcode : StandsAt words base (Op.words line comment ops))
    (hpc : m.pc = 4 * base) :
    Reaches standard circuit words m m' ∧ m'.pc = 4 * (base + ops.length : Nat) := by
  induction ops generalizing m base comment with
  | nil =>
    obtain rfl := h
    exact ⟨.refl m', hpc⟩
  | cons op rest ih =>
    have hnext : (m.exec circuit op).pc = 4 * (base + 1 : Nat) := by
      rw [h.1, hpc, instructionWidth]
      omega
    obtain ⟨hrest, hend⟩ := ih h.2 hcode.tail hnext
    refine ⟨.trans (reaches_exec circuit hcode hpc) hrest, ?_⟩
    rw [hend, List.length_cons]
    omega

theorem exec_eq_perform (op : Op) : m.exec circuit op = m.perform standard circuit [op] := rfl

@[simp] theorem exec_moveOp (circuit : Circuit) (source : Operand) (constant : Bool)
    (dest : Int64) :
    m.exec circuit (standard.moveOp source constant dest) =
      m.write standard.registers dest (m.source standard.registers constant source.number) := by
  rw [exec_eq_perform, Machine.perform_moveOp InstructionSet.legible_standard]

/-- Copying moves on to the next word, unless it is to the program counter. -/
theorem passes_moveOp (circuit : Circuit) (m : Machine) {number : Int64} (source : Operand)
    (constant : Bool) (h : number ≠ standard.registers.counter) :
    Passes circuit [standard.moveOp source constant number] m
      (m.write standard.registers number
        (m.source standard.registers constant source.number)) := by
  rw [← exec_moveOp circuit]
  exact passes_single (by rw [exec_moveOp, Machine.pc_write h])

/-- Operations that copy are executed one after another. -/
theorem passes_perform (circuit : Circuit) (m : Machine) (h : ∀ op ∈ ops, standard.Copies op) :
    Passes circuit ops m (m.perform standard circuit ops) := by
  induction ops generalizing m with
  | nil => rfl
  | cons op rest ih =>
    rw [List.forall_mem_cons] at h
    obtain ⟨⟨source, constant, dest, rfl, hdest⟩, hrest⟩ := h
    exact (passes_moveOp circuit m source constant hdest).append
      (exec_moveOp circuit source constant dest ▸ ih _ hrest)

end Passes

/-! ## What a source can see -/

/-- The registers that statements use behind the scenes. -/
def Registers.hidden (r : Registers) : List Int64 :=
  [r.stack, r.counter, r.latch, r.scratch0, r.scratch1]

/-- The registers that a source should leave alone: the hidden ones, and the one that stands for
the selected RAM cell. -/
def Registers.reserved (r : Registers) : List Int64 := r.ram :: r.hidden

/-- The value is no reserved register. -/
def Value.ordinary (r : Registers) (v : Value) : Bool :=
  match v.kind with
  | .immediate | .ram => true
  | .register | .other _ => v.payload ∉ r.reserved

/-- The number that a value stands for. -/
def Store.value (s : Store) (v : Value) : Int :=
  match v.kind with
  | .immediate => v.payload.toInt
  | .ram => s.ram v.payload.toInt
  | .register | .other _ => s.registers v.payload

/-- The machine holds what a source knows about, and a return address. -/
structure Machine.Shows (m : Machine) (s : Store) (resume : Int) : Prop where
  ram : m.ram = s.ram
  registers : ∀ n, n ∉ standard.registers.hidden → m.registers n = s.registers n
  stack : m.registers standard.registers.stack = resume

namespace Machine.Shows

variable {m m' : Machine} {s : Store} {resume : Int} {a b : Value} {target : Option Value}
  {number : Int64}

/-- Only the program counter matters for where to go on. -/
theorem jump (h : m.Shows s resume) (pc : Int) : Shows { m with pc } s resume :=
  ⟨h.ram, h.registers, h.stack⟩

/-- The return address is on its own. -/
theorem write_stack (h : m.Shows s resume) (x : Int) :
    (m.write standard.registers standard.registers.stack x).Shows s x := by
  have hcounter : standard.registers.stack ≠ standard.registers.counter := by decide
  have hram : standard.registers.stack ≠ standard.registers.ram := by decide
  refine ⟨(ram_write hcounter hram).trans h.ram, fun n hn => ?_, ?_⟩
  · have hstack : n ≠ standard.registers.stack := by
      rintro rfl
      exact hn (by decide)
    rw [registers_write hcounter hram, if_neg hstack, h.registers n hn]
  · rw [registers_write hcounter hram, if_pos rfl]

/-- A source does not see that its operands have been staged. -/
theorem ready (h : m.Shows s resume) (hready : m.Ready standard.registers a b target m') :
    m'.Shows s resume := by
  constructor
  case ram => exact hready.ram.trans h.ram
  case registers =>
    intro n hn
    have hother {k : Int64} (hk : k ∈ standard.registers.hidden) : n ≠ k := by
      rintro rfl
      exact hn hk
    have hidle : standard.registers.Idle a b target n :=
      Registers.idle_of_ne (hother (by decide)) (hother (by decide)) (hother (by decide))
    rw [hready.registers n hidle, h.registers n hn]
  case stack =>
    rw [hready.registers _ (Registers.idle_of_ne (by decide) (by decide) (by decide)), h.stack]

/-- A register that is not reserved can be read. -/
theorem read_eq (h : m.Shows s resume) (hnumber : number ∉ standard.registers.reserved) :
    m.read standard.registers number = s.registers number := by
  rw [Registers.reserved, List.mem_cons, not_or] at hnumber
  have hcounter : number ≠ standard.registers.counter := by
    rintro rfl
    exact hnumber.2 (by decide)
  rw [read, if_neg hnumber.1, if_neg hcounter, h.registers number hnumber.2]

/-- An ordinary value is the same for the machine and for a source. -/
theorem value_eq {v : Value} (h : m.Shows s resume) (hv : v.ordinary standard.registers) :
    m.value standard.registers v = s.value v := by
  rcases v with ⟨kind, payload⟩
  cases kind with
  | immediate => rfl
  | ram => exact congrFun h.ram payload.toInt
  | register | other => exact h.read_eq (of_decide_eq_true hv)

end Machine.Shows

/-! ## Operands -/

section Ordinary

variable {r : Registers} {a b v : Value} {target : Option Value} {number : Int64}

theorem Value.not_isRegister_of_ordinary (hv : v.ordinary r) (hnumber : number ∈ r.reserved) :
    ¬v.IsRegister number := by
  rintro ⟨himmediate, hram, rfl⟩
  unfold ordinary at hv
  split at hv
  · next hkind => exact himmediate hkind
  · next hkind => exact hram hkind
  · exact of_decide_eq_true hv hnumber
  · exact of_decide_eq_true hv hnumber

theorem Value.not_followsLatch_of_ordinary (hv : v.ordinary r) : ¬v.FollowsLatch r := by
  rintro (h | h)
  · exact not_isRegister_of_ordinary hv (by simp [Registers.reserved]) h
  · exact not_isRegister_of_ordinary hv (by simp [Registers.reserved, Registers.hidden]) h

/-- Ordinary sources do not get in each other's way. -/
theorem Registers.not_clash_of_ordinary (ha : a.ordinary r) (hb : b.ordinary r) :
    ¬r.Clash a b target := by
  have hscratch0 : r.scratch0 ∈ r.reserved := by simp [reserved, hidden]
  have hscratch1 : r.scratch1 ∈ r.reserved := by simp [reserved, hidden]
  rintro (⟨_, h⟩ | ⟨_, h⟩ | ⟨h | h, _⟩)
  · exact Value.not_isRegister_of_ordinary hb hscratch0 h
  · exact Value.not_isRegister_of_ordinary ha hscratch1 h
  · exact Value.not_followsLatch_of_ordinary ha h
  · exact Value.not_followsLatch_of_ordinary hb h

theorem Value.not_counter_of_ordinary (hv : v.ordinary r) : ¬v.IsRegister r.counter :=
  not_isRegister_of_ordinary hv (by simp [Registers.reserved, Registers.hidden])

theorem Place.isTarget_of_ordinary {dest : Place} (hdest : dest.val.ordinary r) :
    dest.val.IsTarget r where
  writable := dest.property
  counter := Value.not_counter_of_ordinary hdest
  ram := fun h => Value.not_followsLatch_of_ordinary hdest (.inl h)

end Ordinary

section Operands

open InstructionSet (legible_standard apart_standard)

variable (circuit : Circuit) {m m' : Machine} {s : Store} {resume : Int} {a b : Value}
  {target : Option Value}

theorem passes_prelude (m : Machine) (a b : Value) (target : Option Value) :
    Passes circuit (standard.prelude a b target) m (m.stage standard.registers a b target) := by
  rw [← Machine.perform_prelude legible_standard apart_standard]
  exact passes_perform circuit m fun _ => InstructionSet.copies_of_mem_prelude apart_standard

/-- The last operation of a statement with two sources, and the opcode that it is taken for. -/
theorem Machine.Shows.exec_lastOp {opcode : Int64} (h : m.Shows s resume) (d : Decoded)
    (hdecode : ∀ left right, standard.decode (standard.flagged opcode left right) =
      { d with left, right })
    (ha : a.ordinary standard.registers) (hb : b.ordinary standard.registers)
    (target : Option Value) (place : Operand) :
    (m.stage standard.registers a b target).exec circuit (standard.lastOp opcode a b place) =
      if d.condition && d.jump then
        { m.stage standard.registers a b target with
          pc := if circuit.holds d.code (s.value a) (s.value b) then place.number.toInt
            else (m.stage standard.registers a b target).pc + instructionWidth }
      else (m.stage standard.registers a b target).write standard.registers place.number
        (circuit.output standard d (s.value a) (s.value b)) := by
  have hsafe : ¬standard.registers.Clash a b target := Registers.not_clash_of_ordinary ha hb
  rw [exec_eq_perform]
  apply perform_lastOp d hdecode
  case ha =>
    exact (seen_left apart_standard (Value.not_counter_of_ordinary ha) hsafe).trans (h.value_eq ha)
  case hb =>
    exact (seen_right apart_standard (Value.not_counter_of_ordinary hb) hsafe).trans (h.value_eq hb)

/-- A result is written to where a source expects it. -/
theorem Machine.Shows.write_dest {dest : Place} (h : m.Shows s resume)
    (hdest : dest.val.ordinary standard.registers)
    (hready : m.Ready standard.registers a b (some dest.val) m') (x : Int) :
    (m'.write standard.registers (standard.stageDest dest).2 x).Shows (s.assign dest x)
      resume := by
  obtain ⟨hram, hregisters, hstack⟩ := h.ready hready
  rw [write_stageDest apart_standard (Place.isTarget_of_ordinary hdest) (hready.latch _ rfl)]
  constructor
  case ram =>
    funext cell
    simp only [Store.ram_assign, hram]
  case registers =>
    intro n hn
    simp only [Store.registers_assign, hregisters n hn]
  case stack =>
    have hother : ¬dest.val.IsRegister standard.registers.stack :=
      Value.not_isRegister_of_ordinary hdest (by decide)
    rw [Store.registers_assign, if_neg hother, hstack]

/-- An operation on two sources stores its result. -/
theorem Machine.Shows.pass_storeOps {opcode : Int64} {dest : Place} (h : m.Shows s resume)
    (d : Decoded)
    (hdecode : ∀ left right, standard.decode (standard.flagged opcode left right) =
      { d with left, right })
    (hjump : d.jump = false) (ha : a.ordinary standard.registers)
    (hb : b.ordinary standard.registers) (hdest : dest.val.ordinary standard.registers) :
    ∃ m', Passes circuit (standard.storeOps opcode a b dest) m m' ∧
      m'.Shows (s.assign dest (circuit.output standard d (s.value a) (s.value b))) resume := by
  have hexec := h.exec_lastOp circuit d hdecode ha hb (some dest.val)
    (.literal (standard.stageDest dest).2)
  rw [hjump, Bool.and_false, if_neg Bool.false_ne_true] at hexec
  have hcounter := InstructionSet.stageDest_ne_counter apart_standard
    (Place.isTarget_of_ordinary hdest)
  have hlast := passes_single ((congrArg Machine.pc hexec).trans (pc_write hcounter))
  refine ⟨_, (passes_prelude circuit m a b (some dest.val)).append hlast, ?_⟩
  rw [hexec]
  exact h.write_dest hdest (ready_stage apart_standard) _

/-- An assignment copies its source. -/
theorem Machine.Shows.pass_assignOps {source : Value} {dest : Place} (h : m.Shows s resume)
    (hsource : source.ordinary standard.registers)
    (hdest : dest.val.ordinary standard.registers) :
    ∃ m', Passes circuit (standard.assignOps dest source) m m' ∧
      m'.Shows (s.assign dest (s.value source)) resume := by
  obtain ⟨m', x, hready, hperform, hvalue⟩ :=
    exists_ready_assign legible_standard apart_standard circuit m dest.val source
  obtain rfl : x = m.value standard.registers source :=
    hvalue (Value.not_counter_of_ordinary hsource)
      (Registers.not_clash_of_ordinary hsource rfl)
  refine ⟨_, passes_perform circuit m fun _ =>
    InstructionSet.copies_of_mem_assignOps apart_standard (Place.isTarget_of_ordinary hdest), ?_⟩
  rw [hperform, ← h.value_eq hsource]
  exact h.write_dest hdest hready _

end Operands

end AccuAsm
