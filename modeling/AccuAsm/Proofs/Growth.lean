import AccuAsm.Proofs.Agreement

/-!
# How a program grows

Accepted lines put instructions at the end of a program and leave the rest alone, once
every block that they open is closed.  The jump over a block is put in front of the
instructions of its body when the block ends.

There are two groups.

* Lines.  `feed_define`, `feed_condition`, `feed_endDefine` and `feed_endCondition` are
  what an accepted line of each role does, and `process_plain` is what all others do.
* Growth.  `Appends` says what accepted lines leave alone and what they put at the end.
  `Appends.trans` puts stretches one behind the other, and `Appends.definition` and
  `Appends.condition` put a block around one.
-/

namespace AccuAsm

/-! ## Lines -/

namespace Translator

variable {t t' u v : Translator} {line : Line} {instrs new new' : List Instr} {ops : List Op}

theorem effect_of_feed (h : t.feed line = (.ok instrs, t')) :
    ∃ ops next, Effect t line ops next ∧ t' = (next.emit line ops).2 := by
  obtain ⟨ops, next, hrun, hemit⟩ := feed_ok h
  exact ⟨ops, next, effect_of_process hrun, by rw [hemit]⟩

/-- The statement of a line, if the effect of the line has one and its role another. -/
theorem opener_eq (hseparate : t.set.Separate) {kind : BlockKind} (hrole : line.role = .opens kind)
    {k : Keyword} (hk : t.set.statement? line = some k) : k = kind.opener := by
  rw [hseparate.statement?_eq, Line.role_eq_opens hrole, Option.some.injEq] at hk
  exact hk.symm

theorem closer_eq (hseparate : t.set.Separate) {kind : BlockKind}
    (hrole : line.role = .closes kind) {k : Keyword} (hk : t.set.statement? line = some k) :
    k = kind.closer := by
  rw [hseparate.statement?_eq, Line.role_eq_closes hrole, Option.some.injEq] at hk
  exact hk.symm

@[simp] theorem emit_nil (t : Translator) (line : Line) : (t.emit line []).2 = t := by
  simp [emit, number, Program.append]

theorem feed_define (hseparate : t.set.Separate) (hrole : line.role = .opens .definition)
    (h : t.feed line = (.ok instrs, t')) :
    ∃ keyword name rest, line.fields = keyword :: name :: rest ∧
      t.definitions.contains name = false ∧ t' = t.defined line name := by
  obtain ⟨ops, next, heffect, ht'⟩ := effect_of_feed h
  cases heffect with
  | define hk hfields hname hfresh hscope =>
    exact ⟨_, _, _, hfields, hfresh, by rw [ht', emit_nil]⟩
  | names change memory hk =>
    have := hk _ ((hseparate.statement?_eq line).trans (Line.role_eq_opens hrole))
    simp [BlockKind.opener, Keyword.isBlock] at this
  | condition hk | endDefine hk | endCondition hk =>
    exact absurd (opener_eq hseparate hrole hk) (by decide)

theorem feed_condition (hseparate : t.set.Separate) (hrole : line.role = .opens .condition)
    (h : t.feed line = (.ok instrs, t')) :
    ∃ keyword comparison a b rest code left right ops,
      line.fields = keyword :: comparison :: a :: b :: rest ∧
      t.set.conditionCode? comparison = some code ∧ t.resolve a = .ok left ∧
      t.resolve b = .ok right ∧
      ops = t.set.branchOps code left right (.target (.after t.nextSerial)) ∧
      t' = ((t.conditioned line ops.length).emit line ops).2 := by
  obtain ⟨ops, next, heffect, ht'⟩ := effect_of_feed h
  cases heffect with
  | condition hk hfields hcode hleft hright =>
    exact ⟨_, _, _, _, _, _, _, _, _, hfields, hcode, hleft, hright, rfl, ht'⟩
  | names change memory hk =>
    have := hk _ ((hseparate.statement?_eq line).trans (Line.role_eq_opens hrole))
    simp [BlockKind.opener, Keyword.isBlock] at this
  | define hk | endDefine hk | endCondition hk =>
    exact absurd (opener_eq hseparate hrole hk) (by decide)

theorem feed_endDefine (hseparate : t.set.Separate) (hrole : line.role = .closes .definition)
    (h : t.feed line = (.ok instrs, t')) :
    ∃ d position rest program, t.definitions.stack = position :: rest ∧
      t.definitions.records[position]? = some d ∧
      t.program.insert d.site (t.definitionSkip d) = .ok program ∧
      t' = ((t.endedDefinition d position rest program).emit line [t.set.returnOp]).2 := by
  obtain ⟨ops, next, heffect, ht'⟩ := effect_of_feed h
  cases heffect with
  | endDefine hk hstack hrecord hdepth hinsert =>
    exact ⟨_, _, _, _, hstack, hrecord, hinsert, ht'⟩
  | names change memory hk =>
    have := hk _ ((hseparate.statement?_eq line).trans (Line.role_eq_closes hrole))
    simp [BlockKind.closer, Keyword.isBlock] at this
  | define hk | condition hk | endCondition hk =>
    exact absurd (closer_eq hseparate hrole hk) (by decide)

theorem feed_endCondition (hseparate : t.set.Separate) (hrole : line.role = .closes .condition)
    (h : t.feed line = (.ok instrs, t')) :
    ∃ c rest program, t.conditions.stack = c :: rest ∧
      t.program.insert c.site (t.conditionSkip c) = .ok program ∧
      t' = t.endedCondition rest program := by
  obtain ⟨ops, next, heffect, ht'⟩ := effect_of_feed h
  cases heffect with
  | endCondition hk hstack hdepth hinsert =>
    exact ⟨_, _, _, hstack, hinsert, by rw [ht', emit_nil]⟩
  | names change memory hk =>
    have := hk _ ((hseparate.statement?_eq line).trans (Line.role_eq_closes hrole))
    simp [BlockKind.closer, Keyword.isBlock] at this
  | define hk | condition hk | endDefine hk =>
    exact absurd (closer_eq hseparate hrole hk) (by decide)

/-- The line cannot have changed anything but names and memory. -/
theorem process_plain {next : Translator} (hseparate : t.set.Separate) (hrole : line.role = .plain)
    (h : (process line).on t = (.ok ops, next)) :
    ∃ change memory,
      next = { t with scopes := t.scopes.modifyBindings t.scope change, memory } := by
  have hplain {k : Keyword} (hk : t.set.statement? line = some k) : k.role = .plain := by
    rw [hseparate.statement?_eq] at hk
    simpa [Line.role, hk] using hrole
  cases effect_of_process h with
  | names change memory _ => exact ⟨change, memory, rfl⟩
  | define hk | condition hk | endDefine hk | endCondition hk =>
    exact absurd (hplain hk) (by decide)

/-! ## Growth -/

/-- What accepted lines put at the end of the program, and what they leave alone. -/
structure Appends (t : Translator) (new : List Instr) (t' : Translator) : Prop where
  /-- The new instructions stand at the end. -/
  code : t'.program.code.toList = t.program.code.toList ++ new
  config : t'.config = t.config
  /-- Every block that was opened has been closed. -/
  conditions : t'.conditions = t.conditions
  stack : t'.definitions.stack = t.definitions.stack
  /-- Definitions stay as they were. -/
  records : ∀ (position : Nat) (d : Definition), t.definitions.records[position]? = some d →
    t'.definitions.records[position]? = some d
  scopes : t.scopes.Grows t'.scopes
  /-- Serial numbers go up, and every new instruction has one of its own. -/
  serial_le : t.nextSerial ≤ t'.nextSerial
  fresh : ∀ i ∈ new, t.nextSerial ≤ i.serial ∧ i.serial < t'.nextSerial
  nodup : (new.map (·.serial)).Nodup

theorem Appends.refl (t : Translator) : Appends t [] t where
  code := by simp
  config := rfl
  conditions := rfl
  stack := rfl
  records := fun _ _ h => h
  scopes := .refl _
  serial_le := Nat.le_refl _
  fresh := by simp
  nodup := by simp

theorem Appends.trans (h : Appends t new u) (h' : Appends u new' v) :
    Appends t (new ++ new') v where
  code := by rw [h'.code, h.code, List.append_assoc]
  config := h'.config.trans h.config
  conditions := h'.conditions.trans h.conditions
  stack := h'.stack.trans h.stack
  records := fun position d hd => h'.records position d (h.records position d hd)
  scopes := h.scopes.trans h'.scopes
  serial_le := Nat.le_trans h.serial_le h'.serial_le
  fresh := by
    intro i hi
    have hle := h.serial_le
    have hle' := h'.serial_le
    rcases List.mem_append.mp hi with hi | hi
    · have := h.fresh i hi
      omega
    · have := h'.fresh i hi
      omega
  nodup := by
    rw [List.map_append, List.nodup_append]
    refine ⟨h.nodup, h'.nodup, ?_⟩
    intro a ha b hb
    obtain ⟨i, hi, rfl⟩ := List.mem_map.mp ha
    obtain ⟨j, hj, rfl⟩ := List.mem_map.mp hb
    have := h.fresh i hi
    have := h'.fresh j hj
    omega

theorem Appends.not_mem_serials {serial : Nat} (h : Appends t new u)
    (hserial : serial < t.nextSerial) : serial ∉ new.map (·.serial) := by
  intro hmem
  obtain ⟨i, hi, rfl⟩ := List.mem_map.mp hmem
  exact absurd (h.fresh i hi).1 (Nat.not_le.mpr hserial)

theorem map_serial_number (serial : Nat) (line : Int) (comment : Text) (ops : List Op) :
    (number serial line comment ops).map (·.serial) = List.range' serial ops.length := by
  induction ops generalizing serial comment with
  | nil => rfl
  | cons op rest ih =>
    rw [number, List.map_cons, ih, List.length_cons, List.range'_succ]
    rfl

/-- The operations of a statement at the end of the program. -/
theorem appends_emit (t : Translator) (line : Line) (ops : List Op) :
    Appends t (number t.nextSerial line.number (t.annotation line.text) ops)
      (t.emit line ops).2 where
  code := Program.toList_append _ _
  config := rfl
  conditions := rfl
  stack := rfl
  records := fun _ _ h => h
  scopes := .refl _
  serial_le := Nat.le_add_right _ _
  fresh := by
    intro i hi
    have hserial : i.serial ∈ List.range' t.nextSerial ops.length := by
      rw [← map_serial_number]
      exact List.mem_map_of_mem hi
    simpa [emit, List.mem_range'_1] using hserial
  nodup := by
    rw [map_serial_number]
    exact List.nodup_range'

theorem appends_names (t : Translator) (change : Dictionary Value → Dictionary Value)
    (memory : Memory) :
    Appends t [] { t with scopes := t.scopes.modifyBindings t.scope change, memory } :=
  { Appends.refl t with scopes := .modifyBindings t.scopes change }

end Translator

theorem insertIdx_append_length {α : Type} (xs ys : List α) (a : α) :
    (xs ++ ys).insertIdx xs.length a = xs ++ a :: ys := by
  induction xs with
  | nil => rfl
  | cons x xs ih => simp [ih]

/-- Placing an instruction in front of what has been put at the end. -/
theorem Program.toList_of_insert_ok {p q program : Program} {new : List Instr} {i : Instr}
    (hcode : q.code.toList = p.code.toList ++ new) (h : q.insert p.size i = .ok program) :
    program.code.toList = p.code.toList ++ i :: new := by
  obtain ⟨_, _, hprogram⟩ := insert_ok h
  have hlength : (p.size : Int).toNat = p.code.toList.length := by simp [size]
  rw [hprogram, hcode, hlength, insertIdx_append_length]

namespace Translator

variable {t u : Translator} {head tail : Line} {name : Text} {new : List Instr} {d : Definition}
  {c : Condition} {ops : List Op} {program : Program}

/-! ## Blocks -/

/-- The instructions of a definition, given those of its body; `serial` is that of the return. -/
def definitionCode (t : Translator) (head : Line) (name : Text) (new : List Instr) (tail : Line)
    (serial : Nat) : List Instr :=
  (t.skip head.number ("skip DEF " ++ name)).fill (.after serial) ::
    (new ++ number serial tail.number (t.annotation tail.text) [t.set.returnOp])

/-- The innermost definition at the end of a body is the one whose body it is. -/
theorem Appends.current_definition {position : Nat} {rest : List Nat}
    (hbody : Appends (t.defined head name) new u)
    (hstack : u.definitions.stack = position :: rest)
    (hrecord : u.definitions.records[position]? = some d) :
    position = t.definitions.records.size ∧ rest = t.definitions.stack ∧
      d = t.newDefinition head.number name (t.skip head.number ("skip DEF " ++ name)) := by
  have hopen : t.definitions.records.size :: t.definitions.stack = position :: rest :=
    hbody.stack.symm.trans hstack
  obtain ⟨rfl, rfl⟩ := List.cons.inj hopen
  have hknown := hbody.records t.definitions.records.size _ Array.getElem?_push_size
  rw [hrecord, Option.some.injEq] at hknown
  exact ⟨rfl, rfl, hknown⟩

/-- A definition puts the jump over it, its body and the return at the end of the program. -/
theorem Appends.definition (hbody : Appends (t.defined head name) new u)
    (hd : d = t.newDefinition head.number name (t.skip head.number ("skip DEF " ++ name)))
    (hinsert : u.program.insert d.site (u.definitionSkip d) = .ok program) :
    Appends t (t.definitionCode head name new tail u.nextSerial)
      ((u.endedDefinition d t.definitions.records.size t.definitions.stack program).emit tail
        [u.set.returnOp]).2 := by
  have hconfig : u.config = t.config := hbody.config
  have hset : u.set = t.set := congrArg Config.set hconfig
  have houter : u.outerScope d = t.scope := outerScope_eq (by rw [hd]; rfl) rfl hbody.scopes
  have hskip : u.definitionSkip d =
      (t.skip head.number ("skip DEF " ++ name)).fill (.after u.nextSerial) := by
    rw [hd]
    rfl
  have hserial : t.nextSerial + 1 ≤ u.nextSerial := hbody.serial_le
  have hclosed : Appends t
      ((t.skip head.number ("skip DEF " ++ name)).fill (.after u.nextSerial) :: new)
      (u.endedDefinition d t.definitions.records.size t.definitions.stack program) :=
    { code := by
        rw [hskip, hd] at hinsert
        exact Program.toList_of_insert_ok hbody.code hinsert
      config := hconfig
      conditions := hbody.conditions
      stack := rfl
      records := by
        intro position e he
        have hlt := (Array.getElem?_eq_some_iff.mp he).1
        have hpush : (t.defined head name).definitions.records[position]? = some e := by
          rw [defined, Array.getElem?_push, if_neg (by omega), he]
        rw [endedDefinition, Array.getElem?_modify, if_neg (by omega)]
        exact hbody.records position e hpush
      scopes := by
        have hleave := hbody.scopes.leave
        rw [endedDefinition, houter]
        exact hleave
      serial_le := by
        show t.nextSerial ≤ u.nextSerial
        omega
      fresh := by
        intro i hi
        rcases List.mem_cons.mp hi with rfl | hi
        · exact ⟨Nat.le_refl _, hserial⟩
        · have := hbody.fresh i hi
          exact ⟨Nat.le_of_succ_le this.1, this.2⟩
      nodup := by
        rw [List.map_cons, List.nodup_cons]
        exact ⟨hbody.not_mem_serials (Nat.lt_succ_self t.nextSerial), hbody.nodup⟩ }
  -- the return is the one operation that ENDDEF itself emits
  have hback := appends_emit
    (u.endedDefinition d t.definitions.records.size t.definitions.stack program) tail
    [u.set.returnOp]
  have hremark (comment : Text) : annotation
      (u.endedDefinition d t.definitions.records.size t.definitions.stack program) comment =
        t.annotation comment := by
    show (if u.config.annotate then comment else []) = if t.config.annotate then comment else []
    rw [hconfig]
  rw [hremark, hset] at hback
  rw [hset]
  exact hclosed.trans hback

/-- The instructions of a condition, given those of its body; the body ends behind `last`. -/
def conditionCode (t : Translator) (head : Line) (ops : List Op) (new : List Instr) (last : Nat) :
    List Instr :=
  number (t.nextSerial + 1) head.number (t.annotation head.text) ops ++
    (t.skip head.number "skip IF").fill (.after last) :: new

/-- The state inside a condition that has just been opened. -/
def insideCondition (t : Translator) (head : Line) (ops : List Op) : Translator :=
  ((t.conditioned head ops.length).emit head ops).2

/-- The innermost condition at the end of a body is the one whose body it is. -/
theorem Appends.current_condition {rest : List Condition}
    (hbody : Appends (t.insideCondition head ops) new u) (hstack : u.conditions.stack = c :: rest) :
    rest = t.conditions.stack ∧
      c = t.newCondition head.number ops.length (t.skip head.number "skip IF") := by
  have hopen : t.newCondition head.number ops.length (t.skip head.number "skip IF") ::
      t.conditions.stack = c :: rest := by
    rw [← hstack, hbody.conditions]
    rfl
  obtain ⟨rfl, rfl⟩ := List.cons.inj hopen
  exact ⟨rfl, rfl⟩

/-- A condition puts its head, the jump over its body and the body at the end of the program. -/
theorem Appends.condition (hbody : Appends (t.insideCondition head ops) new u)
    (hc : c = t.newCondition head.number ops.length (t.skip head.number "skip IF"))
    (hinsert : u.program.insert c.site (u.conditionSkip c) = .ok program) :
    Appends t (t.conditionCode head ops new (u.lastOf c))
      (u.endedCondition t.conditions.stack program) := by
  have hfront := appends_emit (t.conditioned head ops.length) head ops
  have hserial : t.nextSerial + 1 + ops.length ≤ u.nextSerial := hbody.serial_le
  have hskip : u.conditionSkip c =
      (t.skip head.number "skip IF").fill (.after (u.lastOf c)) := by
    rw [hc]
    rfl
  -- the site was counted before the head was emitted, and allows for it
  have hsite : c.site = (t.insideCondition head ops).program.size := by
    rw [hc]
    simp [newCondition, insideCondition, emit, conditioned]
  exact
    { code := by
        rw [hsite, hskip] at hinsert
        rw [endedCondition, Program.toList_of_insert_ok hbody.code hinsert]
        simp only [insideCondition, hfront.code, conditionCode, List.append_assoc]
        rfl
      config := hbody.config
      conditions := rfl
      stack := hbody.stack
      records := hbody.records
      scopes := hbody.scopes
      serial_le := by
        show t.nextSerial ≤ u.nextSerial
        omega
      fresh := by
        -- the jump has its serial number from before the head, though it stands behind it
        intro i hi
        show t.nextSerial ≤ i.serial ∧ i.serial < u.nextSerial
        rcases List.mem_append.mp hi with hi | hi
        · have hlow : t.nextSerial + 1 ≤ i.serial := (hfront.fresh i hi).1
          have hhigh : i.serial < t.nextSerial + 1 + ops.length := (hfront.fresh i hi).2
          omega
        · rcases List.mem_cons.mp hi with rfl | hi
          · exact ⟨Nat.le_refl _, by show t.nextSerial < _; omega⟩
          · have hlow : t.nextSerial + 1 + ops.length ≤ i.serial := (hbody.fresh i hi).1
            exact ⟨by omega, (hbody.fresh i hi).2⟩
      nodup := by
        rw [conditionCode, List.map_append, List.map_cons, List.nodup_append, List.nodup_cons]
        have hlow : t.nextSerial < (t.insideCondition head ops).nextSerial := by
          show t.nextSerial < t.nextSerial + 1 + ops.length
          omega
        refine ⟨hfront.nodup, ⟨hbody.not_mem_serials hlow, hbody.nodup⟩, ?_⟩
        intro a ha b hb
        obtain ⟨i, hi, rfl⟩ := List.mem_map.mp ha
        rcases List.mem_cons.mp hb with rfl | hb
        · have hlow : t.nextSerial + 1 ≤ i.serial := (hfront.fresh i hi).1
          show i.serial ≠ t.nextSerial
          omega
        · rintro rfl
          exact hbody.not_mem_serials (hfront.fresh i hi).2 hb }

end Translator

end AccuAsm
