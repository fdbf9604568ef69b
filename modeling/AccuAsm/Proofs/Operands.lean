import AccuAsm.Proofs.Layout
import AccuAsm.Proofs.Ledger

/-!
# Operands that name instructions

An operand of an instruction that is being built is a number, or the place behind another
instruction.  That instruction may be the jump over a block, which is not placed before
the block is closed.

There are two groups.

* Emission.  `Lowered` lists the operations of a line that neither opens nor closes a block,
  and `Emission` what any accepted line can put at the end of the program.  Only the head
  of an IF and a CALL name other instructions.
* Operands.  `Transition.Enters` tells which operands jump into a block, and `Awaits` which
  of those wait for it to be closed.  `Wired` is the invariant: every operand is a number,
  or the place behind an instruction of the program, or jumps into a block.
-/

namespace AccuAsm

/-- The operand fields. -/
inductive Field where
  /-- The first source. -/
  | left
  /-- The second source. -/
  | right
  /-- The destination. -/
  | dest
  deriving DecidableEq, Repr

/-- The content of a field. -/
def Args.get {α : Type} (args : Args α) : Field → α
  | .left => args.left
  | .right => args.right
  | .dest => args.dest

@[simp] theorem Args.get_map {α β : Type} (f : α → β) (args : Args α) (field : Field) :
    (args.map f).get field = f (args.get field) := by
  cases field <;> rfl

/-- An instruction without its serial number, line and comment. -/
def Instr.op (i : Instr) : Op := ⟨i.opcode, i.args⟩

/-! ## Emission -/

/-- Whether an operand is a number. -/
def Operand.IsNumber (operand : Operand) : Prop := ∃ n, operand = .literal n

/-- Whether an operand is the place right behind one of some instructions. -/
def Operand.IsBehind (operand : Operand) (serials : List Nat) : Prop :=
  ∃ serial ∈ serials, operand = .target (.after serial)

/-- Whether all operands are numbers. -/
def Args.Numeric (args : Args Operand) : Prop := ∀ field, (args.get field).IsNumber

theorem numeric_of_settles {ops : List Op} (h : Settles (fun _ => none) ops ops) :
    ∀ op ∈ ops, op.args.Numeric := by
  intro op hop
  -- an operand that stands for a number wherever instructions are is that number
  have hnumber {operand : Operand} {n : Int64} (hn : operand.at? (fun _ => none) = some n) :
      operand.IsNumber := by
    cases operand with
    | literal m => exact ⟨m, rfl⟩
    | target place => simp [Operand.at?] at hn
    | pending => simp [Operand.at?] at hn
  have hword : op.word? (fun _ => none) 0 [] = some (op.word 0 []) :=
    List.map_inj_left.mp (h 0 []) op hop
  obtain ⟨left, hleft, hword⟩ := Option.bind_eq_some_iff.mp hword
  obtain ⟨right, hright, hword⟩ := Option.bind_eq_some_iff.mp hword
  obtain ⟨dest, hdest, _⟩ := Option.bind_eq_some_iff.mp hword
  intro field
  cases field with
  | left => exact hnumber hleft
  | right => exact hnumber hright
  | dest => exact hnumber hdest

namespace Translator

open Step

variable {t t' : Translator} {line : Line} {emitted : List Instr} {ops : List Op} {b : Block}
  {history : List Transition} {i : Instr} {field : Field}

theorem op_mem_of_mem_number {serial : Nat} {number : Int} {comment : Text}
    (h : i ∈ Translator.number serial number comment ops) : i.op ∈ ops := by
  induction ops generalizing serial comment with
  | nil => simp [Translator.number] at h
  | cons op rest ih =>
    rcases List.mem_cons.mp h with rfl | h
    · exact List.mem_cons_self
    · exact List.mem_cons_of_mem _ (ih h)

theorem exists_number_concat (serial : Nat) (line : Int) (comment : Text) (ops : List Op)
    (op : Op) : ∃ comment', number serial line comment (ops ++ [op]) =
      number serial line comment ops ++ [op.toInstr (serial + ops.length) line comment'] := by
  induction ops generalizing serial comment with
  | nil => exact ⟨comment, rfl⟩
  | cons first rest ih =>
    obtain ⟨comment', hrest⟩ := ih (serial + 1) []
    refine ⟨comment', ?_⟩
    rw [List.cons_append, number, number, hrest, List.cons_append, List.length_cons,
      Nat.add_comm rest.length, Nat.add_assoc]

theorem destination_of_operands3 {a b token : Text} {left right dest : Value}
    (h : t.operands3 a b token = .ok (left, right, dest)) : t.destination token = .ok dest := by
  obtain ⟨_, _, h⟩ := exists_of_bind_ok h
  obtain ⟨_, _, h⟩ := exists_of_bind_ok h
  obtain ⟨place, hplace, h⟩ := exists_of_bind_ok h
  simp only [Pure.pure, Except.pure, Except.ok.injEq, Prod.mk.injEq] at h
  rw [hplace, h.2.2]

theorem arithmetic_ok {keyword : Text} {operation : Int64} {operands : List Text}
    (h : t.arithmetic keyword operation operands = .ok ops) :
    ∃ left right dest, ops = t.set.arithmeticOps operation 0 left right dest ∧
      ∃ token, operands[2]? = some token ∧ t.destination token = .ok dest := by
  match operands with
  | [] | [_] | [_, _] => simp [arithmetic] at h
  | _ :: _ :: token :: _ =>
    obtain ⟨⟨left, right, dest⟩, hoperands, h⟩ := exists_of_bind_ok h
    exact ⟨left, right, dest, (Except.ok.inj h).symm, token, rfl,
      destination_of_operands3 hoperands⟩

theorem wideArithmetic_ok {keyword : Text} {operation : Int64} {operands : List Text}
    (h : t.wideArithmetic keyword operation operands = .ok ops) :
    ∃ (high : Bool) (left right dest : Value), ops =
      t.set.arithmeticOps operation (if high then t.set.wordHigh else 0) left right dest ∧
      ∃ token, operands[3]? = some token ∧ t.destination token = .ok dest := by
  match operands with
  | [] | [_] | [_, _] | [_, _, _] => simp [wideArithmetic] at h
  | _ :: _ :: _ :: token :: _ =>
    obtain ⟨high, _, h⟩ := exists_of_bind_ok h
    obtain ⟨⟨left, right, dest⟩, hoperands, h⟩ := exists_of_bind_ok h
    exact ⟨high, left, right, dest, (Except.ok.inj h).symm, token, rfl,
      destination_of_operands3 hoperands⟩

theorem comparison_ok {keyword : Text} {code : Int64} {operands : List Text}
    (h : t.comparison keyword code operands = .ok ops) :
    ∃ left right dest, ops = t.set.compareOps code left right dest ∧
      ∃ token, operands[2]? = some token ∧ t.destination token = .ok dest := by
  match operands with
  | [] | [_] | [_, _] => simp [comparison] at h
  | _ :: _ :: token :: _ =>
    obtain ⟨⟨left, right, dest⟩, hoperands, h⟩ := exists_of_bind_ok h
    exact ⟨left, right, dest, (Except.ok.inj h).symm, token, rfl,
      destination_of_operands3 hoperands⟩

theorem call_ok {keyword : Text} {operands : List Text} (h : t.call keyword operands = .ok ops) :
    ∃ name rest d, operands = name :: rest ∧ t.definitions.find name = .ok d ∧
      ops = t.set.callOps t.nextSerial d.entry := by
  match operands with
  | [] => simp [call] at h
  | name :: rest =>
    obtain ⟨d, hd, h⟩ := exists_of_bind_ok h
    exact ⟨name, rest, d, rfl, hd, (Except.ok.inj h).symm⟩

/-- The operations of an accepted line that neither opens nor closes a block. -/
inductive Lowered (t : Translator) (line : Line) : List Op → Prop where
  /-- The line is about names, or starts with no keyword. -/
  | nothing (hcall : t.set.statement? line ≠ some .call) : Lowered t line []
  | assign (hcall : t.set.statement? line ≠ some .call) (dest source : Value) :
      Lowered t line (t.set.assignOps dest source)
  | arithmetic (hcall : t.set.statement? line ≠ some .call) (operation : Operation) (high : Bool)
      (left right dest : Value) :
      Lowered t line (t.set.arithmeticOps (t.set.operationCode operation)
        (if high then t.set.wordHigh else 0) left right dest)
  | comparison (hcall : t.set.statement? line ≠ some .call) (code : Int64)
      (hcode : code ∈ t.set.codes) (left right dest : Value) :
      Lowered t line (t.set.compareOps code left right dest)
  | call (hk : t.set.statement? line = some .call) (name : Text) (d : Definition)
      (hname : line.fields[1]? = some name) (hfind : t.definitions.find name = .ok d) :
      Lowered t line (t.set.callOps t.nextSerial d.entry)

theorem lowered_of_process {next : Translator}
    (hk : ∀ k, t.set.statement? line = some k → k.isBlock = false)
    (h : (process line).on t = (.ok ops, next)) : Lowered t line ops := by
  cases hstatement : t.set.statement? line with
  | none =>
    have hcall : t.set.statement? line ≠ some .call := by simp [hstatement]
    obtain ⟨keyword, operands, code, _, hcode, hrun⟩ | ⟨_, hrun⟩ := on_process_of_none hstatement
    · obtain ⟨left, right, dest, rfl, _⟩ := comparison_ok (check_ok (hrun ▸ h)).1
      exact .comparison hcall code (InstructionSet.mem_codes hcode) left right dest
    · rw [hrun] at h
      obtain ⟨rfl, _⟩ : [] = ops ∧ t = next := by simpa using h
      exact .nothing hcall
  | some k =>
    obtain ⟨keyword, operands, hfields, _, _, hrun⟩ := on_process hstatement
    rw [hrun] at h
    have hcall (hne : k ≠ .call) : t.set.statement? line ≠ some .call := by simp [hstatement, hne]
    cases k with
    | define | endDefine | condition | endCondition => simpa [Keyword.isBlock] using hk _ hstatement
    | call =>
      obtain ⟨name, rest, d, rfl, hfind, rfl⟩ := call_ok (plain_ok h).1
      exact .call hstatement name d (by simp [hfields]) hfind
    | constant =>
      obtain ⟨_, _, _, _, _, _, _, _, rfl, _⟩ := constant_ok h
      exact .nothing (hcall (by decide))
    | assign =>
      obtain ⟨_, _, _, value, place, _, _, _, rfl⟩ := assign_ok h
      exact .assign (hcall (by decide)) place value
    | setAddress =>
      obtain ⟨_, _, _, _, _, _, _, _, _, _, rfl, _⟩ := setAddress_ok h
      exact .nothing (hcall (by decide))
    | unset =>
      obtain ⟨_, _, rfl, _⟩ := unset_ok h
      exact .nothing (hcall (by decide))
    | add =>
      obtain ⟨left, right, dest, rfl, _⟩ := arithmetic_ok (plain_ok h).1
      exact .arithmetic (hcall (by decide)) .add false left right dest
    | subtract =>
      obtain ⟨left, right, dest, rfl, _⟩ := arithmetic_ok (plain_ok h).1
      exact .arithmetic (hcall (by decide)) .subtract false left right dest
    | multiply =>
      obtain ⟨high, left, right, dest, rfl, _⟩ := wideArithmetic_ok (plain_ok h).1
      exact .arithmetic (hcall (by decide)) .multiply high left right dest
    | divide =>
      obtain ⟨high, left, right, dest, rfl, _⟩ := wideArithmetic_ok (plain_ok h).1
      exact .arithmetic (hcall (by decide)) .divide high left right dest

/-- What an accepted line can put at the end of the program. -/
inductive Emission (s : Transition) : Prop where
  /-- Instructions that name no others. -/
  | plain (hif : s.before.set.statement? s.line ≠ some .condition)
      (hcall : s.before.set.statement? s.line ≠ some .call)
      (hnumeric : ∀ i ∈ s.emitted, i.args.Numeric)
  /-- The head of an IF.  Its last instruction jumps behind the jump over the block. -/
  | head (front : List Instr) (jump : Instr) (b : Block) (left right : Int64)
      (hk : s.before.set.statement? s.line = some .condition)
      (hemitted : s.emitted = front ++ [jump]) (hnumeric : ∀ i ∈ front, i.args.Numeric)
      (hjump : jump.args = ⟨.literal left, .literal right, .target (.after b.skip)⟩)
      (hopened : s.opened? = some b)
  /-- A CALL.  The first instruction stores the place behind the second one, which jumps into the
  definition. -/
  | call (resume enter : Instr) (name : Text) (d : Definition) (stack counter : Int64)
      (hk : s.before.set.statement? s.line = some .call) (hname : s.line.fields[1]? = some name)
      (hfind : s.before.definitions.find name = .ok d) (hemitted : s.emitted = [resume, enter])
      (hresume : resume.args = ⟨.target (.after enter.serial), .literal 0, .literal stack⟩)
      (henter : enter.args = ⟨.target d.entry, .literal 0, .literal counter⟩)

/-- A comparison that jumps is staging and one instruction more. -/
theorem exists_branchOps_concat (set : InstructionSet) (code : Int64) (a b : Value)
    (place : Operand) : ∃ front opcode left right,
      set.branchOps code a b place =
        front ++ [⟨opcode, ⟨.literal left, .literal right, place⟩⟩] ∧
      ∀ op ∈ front, op.args.Numeric := by
  refine ⟨(set.stageLeft a).code ++ (set.stageRight b).code ++ [], _, _, _, rfl, ?_⟩
  rw [List.append_nil]
  exact numeric_of_settles ((settles_stageSource set _ _ a).append (settles_stageSource set _ _ b))

theorem emission_of_feed (hstacked : Stacked t)
    (hfeed : t.feed line = (.ok emitted, t')) : Emission ⟨t, line, emitted, t'⟩ := by
  obtain ⟨ops, next, hrun, hemit⟩ := feed_ok hfeed
  have hemitted : emitted = (next.emit line ops).1 := by rw [hemit]
  have hnumeric (h : ∀ op ∈ ops, op.args.Numeric) : ∀ i ∈ emitted, i.args.Numeric := by
    intro i hi
    rw [hemitted] at hi
    exact h i.op (op_mem_of_mem_number hi)
  cases effect_of_process hrun with
  | names change memory hk =>
    have hif : t.set.statement? line ≠ some .condition := fun hif => by
      simpa [Keyword.isBlock] using hk _ hif
    cases lowered_of_process hk hrun with
    | nothing hcall => exact .plain hif hcall (hnumeric (by simp))
    | assign hcall dest source =>
      exact .plain hif hcall (hnumeric (numeric_of_settles (settles_assignOps _ _ _)))
    | arithmetic hcall | comparison hcall =>
      exact .plain hif hcall (hnumeric (numeric_of_settles (settles_storeOps _ _ _ _ _)))
    | call hcall name d hname hfind => exact .call _ _ name d _ _ hcall hname hfind hemitted rfl rfl
  | define hk =>
    exact .plain (by simp [hk]) (by simp [hk]) (hnumeric (by simp))
  | @condition keyword comparison a b rest code left right hk hfields hcode hleft hright =>
    obtain ⟨front, opcode, m, n, hops, hfront⟩ :=
      exists_branchOps_concat t.set code left right (.target (.after t.nextSerial))
    -- the jump over the block has the number in front of those of the head
    let opens : Block := (t.newCondition line.number
      (t.set.branchOps code left right (.target (.after t.nextSerial))).length
      (t.skip line.number "skip IF")).block
    have hopened : (Transition.mk t line emitted t').opened? = some opens := by
      obtain rfl : t' = (emit _ line _).2 := congrArg Prod.snd hemit.symm
      exact hstacked.opened?_of_opens (openBlocks_perm_of_opens rfl rfl) rfl
    rw [emit, hops] at hemitted
    obtain ⟨comment, hconcat⟩ := exists_number_concat (t.nextSerial + 1) line.number
      (t.annotation line.text) front
      ⟨opcode, ⟨.literal m, .literal n, .target (.after t.nextSerial)⟩⟩
    refine .head _ _ opens m n hk (hemitted.trans hconcat) ?_ rfl hopened
    intro i hi
    exact hfront i.op (op_mem_of_mem_number hi)
  | endDefine hk =>
    refine .plain (by simp [hk]) (by simp [hk]) (hnumeric ?_)
    intro op hop
    rw [List.mem_singleton.mp hop]
    intro field
    cases field <;> exact ⟨_, rfl⟩
  | endCondition hk =>
    exact .plain (by simp [hk]) (by simp [hk]) (hnumeric (by simp))

/-! ## Operands -/

/-- The field of an instruction that jumps into a block: the head of an IF jumps into the block that
it opens, and a CALL into the block of a definition. -/
def Transition.Enters (s : Transition) (i : Instr) (field : Field) (b : Block) : Prop :=
  s.emitted.getLast? = some i ∧
    (s.before.set.statement? s.line = some .condition ∧ field = .dest ∧ s.opened? = some b ∨
      s.before.set.statement? s.line = some .call ∧ field = .left ∧
        ∃ name d, s.line.fields[1]? = some name ∧ s.before.definitions.find name = .ok d ∧
          d.block = b)

/-- The field of an instruction that jumps into a block that is still open. -/
def Awaits (t : Translator) (history : List Transition) (i : Instr) (field : Field) : Prop :=
  ∃ s ∈ history, ∃ b ∈ t.openBlocks, s.Enters i field b

theorem Emission.operand {s : Transition} (h : Emission s) (hi : i ∈ s.emitted) (field : Field) :
    (i.args.get field).IsNumber ∨
      (i.args.get field).IsBehind (s.emitted.map (·.serial)) ∨ ∃ b, s.Enters i field b := by
  cases h with
  | plain _ _ hnumeric => exact .inl (hnumeric i hi field)
  | head front jump b left right hk hemitted hnumeric hjump hopened =>
    rw [hemitted] at hi
    rcases List.mem_append.mp hi with hi | hi
    · exact .inl (hnumeric i hi field)
    · obtain rfl := List.mem_singleton.mp hi
      rw [hjump]
      cases field with
      | left => exact .inl ⟨left, rfl⟩
      | right => exact .inl ⟨right, rfl⟩
      | dest => exact .inr (.inr ⟨b, by simp [hemitted], .inl ⟨hk, rfl, hopened⟩⟩)
  | call resume enter name d stack counter hk hname hfind hemitted hresume henter =>
    rw [hemitted] at hi ⊢
    rcases List.mem_cons.mp hi with rfl | hi
    · rw [hresume]
      cases field with
      | left => exact .inr (.inl ⟨enter.serial, by simp, rfl⟩)
      | right => exact .inl ⟨0, rfl⟩
      | dest => exact .inl ⟨stack, rfl⟩
    · obtain rfl := List.mem_singleton.mp hi
      rw [henter]
      cases field with
      | left =>
        refine .inr (.inr ⟨d.block, by simp [hemitted], .inr ⟨hk, rfl, name, d, hname, hfind, rfl⟩⟩)
      | right => exact .inl ⟨0, rfl⟩
      | dest => exact .inl ⟨counter, rfl⟩

theorem Emission.operand_of_enters {s : Transition} (h : Emission s)
    (hentry : ∀ d ∈ s.before.definitions.records, d.entry = .after d.skip.serial)
    (henters : s.Enters i field b) : i.args.get field = .target (.after b.skip) := by
  obtain ⟨hlast, ⟨hk, rfl, hopened⟩ | ⟨hk, rfl, name, d, hname, hfind, rfl⟩⟩ := henters
  · cases h with
    | plain hif _ _ => exact absurd hk hif
    | head front jump other left right _ hemitted _ hjump hother =>
      obtain rfl : other = b := Option.some.inj (hother.symm.trans hopened)
      obtain rfl : jump = i := by simpa [hemitted] using hlast
      rw [hjump]
      rfl
    | call _ _ _ _ _ _ hcall => simp [hk] at hcall
  · cases h with
    | plain _ hcall _ => exact absurd hk hcall
    | head _ _ _ _ _ hif => simp [hk] at hif
    | call resume enter other e _ _ _ hother hfind' hemitted _ henter =>
      obtain rfl : other = name := Option.some.inj (hother.symm.trans hname)
      obtain rfl : e = d := Except.ok.inj (hfind'.symm.trans hfind)
      obtain rfl : enter = i := by simpa [hemitted] using hlast
      rw [henter]
      exact congrArg Operand.target (hentry e (Definitions.find_ok hfind).1)

theorem Transition.Enters.mem_opened {s : Transition} (h : s.Enters i field b)
    (hrecorded : Recorded s.before history) : b ∈ opened (history ++ [s]) := by
  obtain ⟨_, ⟨_, _, hopened⟩ | ⟨_, _, name, d, _, hfind, rfl⟩⟩ := h
  · rw [opened_concat, hopened]
    simp
  · exact mem_opened_concat (hrecorded.mem_opened d (Definitions.find_ok hfind).1)

/-- The jumps over blocks as they were written down when the blocks were opened. -/
structure Drafted (t : Translator) : Prop where
  definitions : ∀ d ∈ t.definitions.records, d.skip.op = t.set.skipOp
  conditions : ∀ c ∈ t.conditions.stack, c.skip.op = t.set.skipOp

theorem drafted_new (config : Config) : Drafted (new config) := by
  constructor <;> simp [new]

theorem Drafted.feed (h : Drafted t) (hfeed : t.feed line = (.ok emitted, t')) : Drafted t' := by
  obtain ⟨ops, next, heffect, rfl⟩ := effect_of_feed hfeed
  cases heffect with
  | names => exact ⟨h.definitions, h.conditions⟩
  | define =>
    refine ⟨?_, h.conditions⟩
    intro d hd
    rcases Array.mem_push.mp hd with hd | rfl
    · exact h.definitions d hd
    · rfl
  | condition =>
    refine ⟨h.definitions, ?_⟩
    intro c hc
    rcases List.mem_cons.mp hc with rfl | hc
    · rfl
    · exact h.conditions c hc
  | @endDefine d position rest program hk hstack hrecord =>
    refine ⟨?_, h.conditions⟩
    intro e he
    obtain ⟨e', he', hsame | hsame⟩ := exists_of_mem_modify_closed hrecord he
    · rw [hsame]
      exact h.definitions e' he'
    · rw [hsame]
      exact h.definitions e' he'
  | @endCondition c rest program hk hstack =>
    refine ⟨h.definitions, ?_⟩
    intro e he
    exact h.conditions e (hstack ▸ List.mem_cons_of_mem c he)

theorem lastOf_eq_or_mem (t : Translator) (c : Condition) :
    t.lastOf c = c.skip.serial ∨ t.lastOf c ∈ t.serials := by
  rw [lastOf]
  split
  · exact .inl rfl
  · cases hlast : t.program.last? with
    | none => exact .inl rfl
    | some i =>
      refine .inr (List.mem_map.mpr ⟨i, ?_, rfl⟩)
      exact Array.mem_toList_iff.mpr (Array.mem_of_back? hlast)

theorem operand_of_skip {serials : List Nat} {anchor : Nat}
    (hop : i.op = t.set.skipOp.fill (.after anchor)) (hanchor : anchor ∈ serials) (field : Field) :
    (i.args.get field).IsNumber ∨ (i.args.get field).IsBehind serials := by
  have hargs : i.args = (t.set.skipOp.fill (.after anchor)).args := congrArg Op.args hop
  rw [hargs]
  cases field with
  | left => exact .inr ⟨anchor, hanchor, rfl⟩
  | right => exact .inl ⟨0, rfl⟩
  | dest => exact .inl ⟨t.set.registers.counter, rfl⟩

theorem mem_of_insert_ok {p p' : Program} {site : Int} {i j : Instr}
    (h : p.insert site i = .ok p') : j ∈ p'.code.toList ↔ j = i ∨ j ∈ p.code.toList := by
  obtain ⟨_, hhigh, hcode⟩ := Program.insert_ok h
  rw [hcode, List.mem_insertIdx (Program.toNat_le_length hhigh)]

/-- The instructions behind an accepted line: old ones, those of the line, and the jump over the
block that the line closed. -/
theorem Drafted.mem_code (h : Drafted t) (hfeed : t.feed line = (.ok emitted, t'))
    (hi : i ∈ t'.program.code.toList) :
    i ∈ t.program.code.toList ∨ i ∈ emitted ∨
      ∃ anchor ∈ t'.serials, i.op = t.set.skipOp.fill (.after anchor) := by
  obtain ⟨ops, next, hrun, hemit⟩ := feed_ok hfeed
  obtain ⟨rfl, rfl⟩ : emitted = (next.emit line ops).1 ∧ t' = (next.emit line ops).2 := by
    rw [hemit]
    exact ⟨rfl, rfl⟩
  have hcode : (next.emit line ops).2.program.code.toList =
      next.program.code.toList ++ (next.emit line ops).1 := Program.toList_append _ _
  rcases List.mem_append.mp (hcode ▸ hi) with hold | hnew
  swap
  · exact .inr (.inl hnew)
  cases effect_of_process hrun with
  | names | define | condition => exact .inl hold
  | @endDefine d position rest program hk hstack hrecord hdepth hinsert =>
    rcases (mem_of_insert_ok hinsert).mp hold with rfl | hold
    · refine .inr (.inr ⟨t.nextSerial, ?_, ?_⟩)
      swap
      · rw [← h.definitions d (Array.mem_of_getElem? hrecord)]
        rfl
      -- the return is the instruction that the line emits
      rw [serials, hcode, List.map_append]
      exact List.mem_append_right _ List.mem_cons_self
    · exact .inl hold
  | @endCondition c rest program hk hstack hdepth hinsert =>
    rcases (mem_of_insert_ok hinsert).mp hold with rfl | hold
    · refine .inr (.inr ⟨t.lastOf c, ?_, ?_⟩)
      swap
      · rw [← h.conditions c (by simp [hstack])]
        rfl
      rw [serials, hcode, List.map_append]
      refine List.mem_append_left _ (List.mem_map.mpr ?_)
      rcases t.lastOf_eq_or_mem c with hlast | hlast
      · exact ⟨_, (mem_of_insert_ok hinsert).mpr (.inl rfl), hlast.symm⟩
      · obtain ⟨last, hmem, hserial⟩ := List.mem_map.mp hlast
        exact ⟨last, (mem_of_insert_ok hinsert).mpr (.inr hmem), hserial⟩
    · exact .inl hold

theorem Progress.serials_subset (h : Progress t emitted t') :
    t.serials ++ emitted.map (·.serial) ⊆ t'.serials := by
  cases h with
  | stays _ _ _ hcode | opens _ _ _ _ _ _ hcode =>
    rw [serials, serials, hcode, List.map_append]
    exact List.Subset.refl _
  | closes b jump _ _ _ _ hhigh _ _ hcode =>
    have hperm := (List.perm_insertIdx jump t.program.code.toList
      (Program.toNat_le_length hhigh)).map (·.serial)
    rw [serials, serials, hcode, List.map_append, List.append_subset]
    refine ⟨fun serial hserial => ?_, List.subset_append_right _ _⟩
    exact List.mem_append_left _ (hperm.mem_iff.mpr (List.mem_cons_of_mem _ hserial))

/-- The operands of the program, and what instructions that jump into a block hold. -/
structure Wired (t : Translator) (history : List Transition) : Prop where
  /-- An instruction that jumps into a block holds the place behind the jump over it. -/
  enters : ∀ s ∈ history, ∀ (i : Instr) (field : Field) (b : Block), s.Enters i field b →
    i.args.get field = .target (.after b.skip) ∧ b ∈ opened history
  /-- Every operand is a number, or the place behind an instruction of the program, or the operand
  of a jump into a block. -/
  operands : ∀ i ∈ t.program.code.toList, ∀ field, (i.args.get field).IsNumber ∨
    (i.args.get field).IsBehind t.serials ∨ ∃ s ∈ history, ∃ b, s.Enters i field b

theorem wired_new (config : Config) : Wired (new config) [] := by
  constructor <;> simp [new]

theorem Wired.feed (h : Wired t history) (hrecorded : Recorded t history) (hdrafted : Drafted t)
    (hseated : Seated t) (hstacked : Stacked t) (hfeed : t.feed line = (.ok emitted, t')) :
    Wired t' (history ++ [⟨t, line, emitted, t'⟩]) := by
  have hemission := emission_of_feed hstacked hfeed
  have hserials := (hstacked.progress_of_feed hseated hfeed).serials_subset
  constructor
  case enters =>
    intro s hs i field b henters
    rcases List.mem_append.mp hs with hs | hs
    · obtain ⟨hoperand, hopened⟩ := h.enters s hs i field b henters
      exact ⟨hoperand, mem_opened_concat hopened⟩
    · obtain rfl := List.mem_singleton.mp hs
      exact ⟨hemission.operand_of_enters hrecorded.entry henters, henters.mem_opened hrecorded⟩
  case operands =>
    intro i hi field
    rcases hdrafted.mem_code hfeed hi with hold | hnew | ⟨anchor, hanchor, hop⟩
    · rcases h.operands i hold field with hn | ⟨serial, hserial, heq⟩ | ⟨s, hs, henters⟩
      · exact .inl hn
      · exact .inr (.inl ⟨serial, hserials (List.mem_append_left _ hserial), heq⟩)
      · exact .inr (.inr ⟨s, List.mem_append_left _ hs, henters⟩)
    · rcases hemission.operand hnew field with hn | ⟨serial, hserial, heq⟩ | henters
      · exact .inl hn
      · exact .inr (.inl ⟨serial, hserials (List.mem_append_right _ hserial), heq⟩)
      · exact .inr (.inr ⟨_, List.mem_append_right _ List.mem_cons_self, henters⟩)
    · exact (operand_of_skip hop hanchor field).imp id .inl

end Translator

end AccuAsm
