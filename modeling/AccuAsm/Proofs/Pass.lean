import AccuAsm.Proofs.Growth
import AccuAsm.Proofs.Layout

/-!
# The pass and the layout

The single pass of the translator, with its late insertions and late addresses, gives the
words of the layout.

There are three groups.

* Stretches.  `LaysOut` says that new instructions become the words of a stretch of the
  layout, wherever they stand.  There is one lemma for each kind of statement.
* The pass.  `Outline.covers` is the induction over the tree of blocks.
* Resolution.  `Appends.resolve` takes a whole program to its words, and
  `resolve_eq_layout` is the result.
-/

namespace AccuAsm

/-! ## Stretches -/

namespace Translator

variable {t t' u v : Translator} {line head tail : Line} {name : Text}
  {instrs new new' front back : List Instr} {i : Instr} {ops : List Op} {c : Condition}
  {names : Names} {piece piece' : Piece} {place : Nat → Option Nat} {base : Nat}
  {entries : Entries}

/-- The instructions stand one behind the other, the first one at `base`. -/
def Placed (place : Nat → Option Nat) (base : Nat) (instrs : List Instr) : Prop :=
  ∀ (index : Nat) (i : Instr), instrs[index]? = some i → place i.serial = some (base + index)

theorem Placed.left (h : Placed place base (front ++ back)) : Placed place base front := by
  intro index i hi
  have hlt := (List.getElem?_eq_some_iff.mp hi).1
  exact h index i (by rw [List.getElem?_append_left hlt, hi])

theorem Placed.right (h : Placed place base (front ++ back)) :
    Placed place (base + front.length) back := by
  intro index i hi
  have := h (front.length + index) i (by rw [List.getElem?_append_right (by omega)]; simpa using hi)
  rw [this, Nat.add_assoc]

theorem Placed.first (h : Placed place base (i :: back)) : place i.serial = some base := h 0 i rfl

theorem Placed.behind (h : Placed place base (i :: back)) : Placed place (base + 1) back :=
  @Placed.right [i] back place base h

/-- Calls enter behind the jumps over the definitions, and the entries say where those stand. -/
def Entered (t : Translator) (place : Nat → Option Nat) (entries : Entries) : Prop :=
  ∀ d, d ∈ t.definitions.records →
    d.entry = .after d.skip.serial ∧ place d.skip.serial = some (entries d.name)

/-- The new instructions become the words of a stretch of the layout, wherever they stand. -/
def LaysOut (t : Translator) (new : List Instr) (t' : Translator) (piece : Piece) : Prop :=
  ∀ place base entries, Placed place base new → Entered t place entries →
    new.map (·.word? place) = (piece base entries).1.map some ∧
      Entered t' place (piece base entries).2

theorem laysOut_nil (t : Translator) : LaysOut t [] t .nil :=
  fun _ _ _ _ hentered => ⟨rfl, hentered⟩

theorem LaysOut.append (h : LaysOut t new u piece) (h' : LaysOut u new' v piece') :
    LaysOut t (new ++ new') v (piece.append piece') := by
  intro place base entries hplaced hentered
  obtain ⟨hwords, hentered⟩ := h place base entries hplaced.left hentered
  have hlength : new.length = (piece base entries).1.length := by
    simpa using congrArg List.length hwords
  obtain ⟨hwords', hentered⟩ := h' place _ _ (hlength ▸ hplaced.right) hentered
  exact ⟨by rw [List.map_append, hwords, hwords', ← List.map_append]; rfl, hentered⟩

theorem laysOut_plain {action : Action} {change : Dictionary Value → Dictionary Value}
    {memory : Memory}
    (hops : ops = action.ops t.set (.target (.after (t.nextSerial + 1))) t.entryOf)
    (hcall : ∀ name, action = .call name → ∃ d, t.definitions.find name = .ok d)
    (hu : u = { t with scopes := t.scopes.modifyBindings t.scope change, memory }) :
    LaysOut t (number t.nextSerial line.number (t.annotation line.text) ops) (u.emit line ops).2
      (.plain t.config line action) := by
  intro place base entries hplaced hentered
  subst hu
  refine ⟨?_, hentered⟩
  refine Settles.number ?_ _ _ _
  rw [hops] at hplaced ⊢
  refine settles_ops action ?_ ?_
  · rintro name rfl
    -- The address to resume at counts from the second of the two instructions.
    exact Operand.at?_after (hplaced 1 _ rfl)
  · rintro name rfl
    obtain ⟨d, hfind⟩ := hcall name rfl
    obtain ⟨hmem, rfl⟩ := Definitions.find_ok hfind
    obtain ⟨hentry, hplace⟩ := hentered d hmem
    simp only [entryOf, hfind, hentry]
    exact Operand.at?_after hplace

/-- The jump over a block that ends behind the instruction `last`. -/
theorem word?_skip {last index : Nat} {line : Int} {comment : Text}
    (h : place last = some index) :
    ((t.skip line comment).fill (.after last)).word? place =
      some ((t.set.jumpOp (.index (index + 1)) true).word line (t.annotation comment)) := by
  have hskip := settles_moveOp t.set true t.set.registers.counter (Operand.at?_after h) line
    (t.annotation comment)
  exact (List.cons.inj hskip).1

/-- The entries inside a definition that has just been opened. -/
theorem Entered.define (h : Entered t place entries)
    (hfresh : t.definitions.contains name = false)
    (hplace : place t.nextSerial = some base) :
    Entered (t.defined head name) place (entries.insert name base) := by
  intro d hd
  rcases Array.mem_push.mp hd with hold | rfl
  · have hother : d.name ≠ name := by
      intro hname
      have hknown : t.definitions.contains name = true :=
        Definitions.contains_iff.mpr ⟨d, hold, hname⟩
      simp [hfresh] at hknown
    obtain ⟨hentry, hplace⟩ := h d hold
    exact ⟨hentry, by simp [Entries.insert, hother, hplace]⟩
  · refine ⟨rfl, ?_⟩
    show place t.nextSerial = some (if name = name then base else _)
    rw [if_pos rfl, hplace]

theorem Entered.close {d : Definition} {position : Nat} (h : Entered u place entries)
    (hrecord : u.definitions.records[position]? = some d) (rest : List Nat) (program : Program) :
    Entered (u.endedDefinition d position rest program) place entries := by
  intro e he
  obtain ⟨e', he', rfl | rfl⟩ := exists_of_mem_modify_closed hrecord he
  · exact h e he'
  · exact h e' he'

theorem LaysOut.definition {d : Definition} {program : Program}
    (hbody : LaysOut (t.defined head name) new u piece)
    (hfresh : t.definitions.contains name = false)
    (hrecord : u.definitions.records[t.definitions.records.size]? = some d) (rest : List Nat) :
    LaysOut t (t.definitionCode head name new tail u.nextSerial)
      ((u.endedDefinition d t.definitions.records.size rest program).emit tail [u.set.returnOp]).2
      (.definition t.config head name piece tail) := by
  intro place base entries hplaced hentered
  -- the entry is the index of the jump, so the body can already call the definition
  have hinner : Placed place (base + 1) (new ++ _) := hplaced.behind
  obtain ⟨hwords, hentered'⟩ := hbody place (base + 1) (entries.insert name base) hinner.left
    (hentered.define hfresh hplaced.first)
  refine ⟨?_, hentered'.close hrecord rest program⟩
  have hlength : new.length = (piece (base + 1) (entries.insert name base)).1.length := by
    simpa using congrArg List.length hwords
  have hback : place u.nextSerial = some (base + 1 + new.length) := hinner.right.first
  have hreturn : Settles place [t.set.returnOp] [t.set.returnOp] :=
    settles_moveOp t.set false _ rfl
  rw [definitionCode, List.map_cons, List.map_append, hreturn.number, hwords, word?_skip hback,
    hlength]
  rw [← List.map_append, ← List.map_cons]
  rfl

/-- A condition ends behind the last instruction of its body, or behind the jump over it. -/
theorem Appends.lastOf_placed {site : Nat} {skip : Instr}
    (hbody : Appends (t.insideCondition head ops) new u)
    (hc : c = t.newCondition head.number ops.length (t.skip head.number "skip IF"))
    (hskip : skip.serial = t.nextSerial) (hplaced : Placed place site (skip :: new)) :
    place (u.lastOf c) = some (site + new.length) := by
  have hsize : u.program.size = t.program.size + ops.length + new.length := by
    have hcode := congrArg List.length hbody.code
    simpa [insideCondition, emit, conditioned, Program.size, Nat.add_assoc] using hcode
  have hsite : c.site = t.program.size + ops.length := by rw [hc]; rfl
  have hserial : c.skip.serial = t.nextSerial := by rw [hc]; rfl
  rcases List.eq_nil_or_concat new with rfl | ⟨front, last, rfl⟩
  · -- with an empty body the site is the end of the program, and the jump leads behind itself
    rw [lastOf, if_pos (by rw [hsite, hsize]; simp), hserial, ← hskip, hplaced.first]
    rfl
  · have hlast : u.program.last? = some last := by
      rw [Program.last?, ← Array.getLast?_toList, hbody.code]
      simp
    have hne : c.site ≠ u.program.size := by
      rw [hsite, hsize]
      simp only [List.concat_eq_append, List.length_append, List.length_cons]
      omega
    rw [lastOf, if_neg hne, hlast]
    have hplace := hplaced (front.length + 1) last (by simp)
    simpa [Nat.add_assoc] using hplace

theorem LaysOut.condition {code : Int64} {left right : Value} {program : Program}
    (hops : ops = t.set.branchOps code left right (.target (.after t.nextSerial)))
    (hc : c = t.newCondition head.number ops.length (t.skip head.number "skip IF"))
    (happends : Appends (t.insideCondition head ops) new u)
    (hbody : LaysOut (t.insideCondition head ops) new u piece) (rest : List Condition) :
    LaysOut t (t.conditionCode head ops new (u.lastOf c)) (u.endedCondition rest program)
      (.condition t.config head code left right piece) := by
  intro place base entries hplaced hentered
  have hsize : ops.length = (t.set.branchOps code left right .pending).length := by
    rw [hops, InstructionSet.length_branchOps_eq]
  have hinner := hplaced.right
  rw [length_number] at hinner
  obtain ⟨hwords, hentered'⟩ := hbody place _ entries hinner.behind hentered
  have hlength : new.length = (piece (base + ops.length + 1) entries).1.length := by
    simpa using congrArg List.length hwords
  -- the head was emitted with a reference to the jump, which stands right behind it
  have hfront : Settles place ops
      (t.set.branchOps code left right (.index (base + ops.length + 1))) := by
    have hsettles : Settles place
        (t.set.branchOps code left right (.target (.after t.nextSerial)))
        (t.set.branchOps code left right (.index (base + ops.length + 1))) :=
      settles_binaryOps (fun _ _ => rfl) (Operand.at?_after hinner.first)
    rwa [← hops] at hsettles
  have hpiece : Piece.condition t.config head code left right piece base entries =
      (Op.words head.number (t.annotation head.text)
          (t.set.branchOps code left right (.index (base + ops.length + 1))) ++
        (t.set.jumpOp (.index (base + ops.length + 1 + new.length)) true).word head.number
          (t.annotation "skip IF") :: (piece (base + ops.length + 1) entries).1,
        (piece (base + ops.length + 1) entries).2) := by
    rw [hlength, hsize]
    rfl
  rw [hpiece]
  refine ⟨?_, hentered'⟩
  have hlast := happends.lastOf_placed hc rfl hinner
  rw [conditionCode, List.map_append, List.map_cons, hfront.number, hwords, word?_skip hlast,
    Nat.add_right_comm (base + ops.length) new.length 1, List.map_append, List.map_cons]

/-! ## The pass -/

/-- The lines have a reading, and what they put at the end of the program is laid out as the
statements of the reading. -/
def Covers (t : Translator) (names : Names) (outline : Outline) (t' : Translator) : Prop :=
  ∃ body names' new, outline.read t.set names = some (body, names') ∧ Agrees t' names' ∧
    Appends t new t' ∧ LaysOut t new t' (body.layout t.config)

theorem Covers.under {outline : Outline} (h : Covers u names outline v)
    (hconfig : u.config = t.config) :
    ∃ body names' new, outline.read t.set names = some (body, names') ∧ Agrees v names' ∧
      Appends u new v ∧ LaysOut u new v (body.layout t.config) := by
  obtain ⟨body, names', new, hread, hagrees, happends, hlays⟩ := h
  rw [hconfig] at hlays
  rw [show u.set = t.set from congrArg Config.set hconfig] at hread
  exact ⟨body, names', new, hread, hagrees, happends, hlays⟩

theorem exists_laysOut_plain (hagrees : Agrees t names) (hseparate : t.set.Separate)
    (hrole : line.role = .plain) (hfeed : t.feed line = (.ok instrs, t')) :
    ∃ action names' new, names.read t.set line = some (action, names') ∧ Agrees t' names' ∧
      Appends t new t' ∧ LaysOut t new t' (.plain t.config line action) := by
  obtain ⟨ops, next, hrun, hemit⟩ := feed_ok hfeed
  obtain ⟨action, names', hread, hagrees', hops⟩ := hagrees.read hseparate hrole hrun
  obtain ⟨change, memory, hnext⟩ := process_plain hseparate hrole hrun
  have ht' : t' = (next.emit line ops).2 := by rw [hemit]
  refine ⟨action, names', number t.nextSerial line.number (t.annotation line.text) ops, hread,
    ?_, ?_, ?_⟩
  · subst ht'
    exact { hagrees' with }
  · subst ht' hnext
    exact (appends_names t change memory).trans (appends_emit _ line ops)
  · rw [ht']
    refine laysOut_plain hops ?_ hnext
    rintro name rfl
    exact Definitions.exists_find ((hagrees.routines name).mp (Names.read_sound hread).1)

/-- A definition, given that the lines of its body are covered. -/
theorem exists_laysOut_definition {body : Outline}
    (hagrees : Agrees t names) (hseparate : t.set.Separate) (hhead : head.role = .opens .definition)
    (hopen : t.feed head = (.ok instrs, t')) (htail : tail.role = .closes .definition) :
    ∃ name, head.fields[1]? = some name ∧ Agrees t' (names.enter name) ∧ t'.config = t.config ∧
      (Covers t' (names.enter name) body u → ∀ {instrs v}, u.feed tail = (.ok instrs, v) →
        ∃ inside inner new, body.read t.set (names.enter name) = some (inside, inner) ∧
          Agrees v { inner with frames := names.frames } ∧ Appends t new v ∧
          LaysOut t new v (.definition t.config head name (inside.layout t.config) tail)) := by
  obtain ⟨keyword, name, rest, hfields, hfresh, rfl⟩ := feed_define hseparate hhead hopen
  refine ⟨name, by simp [hfields], hagrees.define head name, rfl, ?_⟩
  rintro ⟨inside, inner, new, hread, hagrees', happends, hlays⟩ instrs v hclose
  have hset : u.set = t.set := congrArg Config.set happends.config
  obtain ⟨d, position, rest, program, hstack, hrecord, hinsert, rfl⟩ :=
    feed_endDefine (hset ▸ hseparate) htail hclose
  obtain ⟨rfl, rfl, hd⟩ := happends.current_definition hstack hrecord
  have houter : u.outerScope d = t.scope := outerScope_eq (by rw [hd]; rfl) rfl happends.scopes
  refine ⟨inside, inner, _, hread, ?_, happends.definition hd hinsert,
    hlays.definition hfresh hrecord _⟩
  exact { hagrees.leave hagrees' happends.scopes d hrecord houter t.definitions.stack program with }

/-- A condition, given that the lines of its body are covered. -/
theorem exists_laysOut_condition {body : Outline}
    (hagrees : Agrees t names) (hseparate : t.set.Separate) (hhead : head.role = .opens .condition)
    (hopen : t.feed head = (.ok instrs, t')) (htail : tail.role = .closes .condition) :
    ∃ code left right, names.head t.set head = some (code, left, right) ∧ Agrees t' names ∧
      t'.config = t.config ∧
      (Covers t' names body u → ∀ {instrs v}, u.feed tail = (.ok instrs, v) →
        ∃ inside inner new, body.read t.set names = some (inside, inner) ∧ Agrees v inner ∧
          Appends t new v ∧
          LaysOut t new v (.condition t.config head code left right (inside.layout t.config))) := by
  obtain ⟨keyword, comparison, a, b, rest, code, left, right, ops, hfields, hcode, hleft, hright,
    hops, rfl⟩ := feed_condition hseparate hhead hopen
  refine ⟨code, left, right, ?_, { hagrees with }, rfl, ?_⟩
  · simp [Names.head, hfields, hcode, hagrees.resolve hleft, hagrees.resolve hright]
  · rintro ⟨inside, inner, new, hread, hagrees', happends, hlays⟩ instrs v hclose
    have hset : u.set = t.set := congrArg Config.set happends.config
    obtain ⟨c, rest, program, hstack, hinsert, rfl⟩ :=
      feed_endCondition (hset ▸ hseparate) htail hclose
    obtain ⟨rfl, hc⟩ := happends.current_condition hstack
    exact ⟨inside, inner, _, hread, { hagrees' with }, happends.condition hc hinsert,
      LaysOut.condition hops hc happends hlays _⟩

end Translator

open Translator in
/-- Accepted lines are read and laid out as the tree of their blocks.  The induction is over that
tree: the lines of a block are fed between the lines that open and close it. -/
theorem Outline.covers (outline : Outline) {t t' : Translator} {names : Names}
    (hagrees : Agrees t names) (hseparate : t.set.Separate)
    (hrun : t.feedAll outline.lines = (.ok (), t')) : Covers t names outline t' := by
  induction outline generalizing t t' names with
  | nil =>
    simp only [lines, feedAll, Prod.mk.injEq, true_and] at hrun
    subst hrun
    exact ⟨.nil, names, [], rfl, hagrees, .refl t, laysOut_nil t⟩
  | plain line hrole rest ih =>
    obtain ⟨instrs, u, hfeed, hrest⟩ := feedAll_cons_ok hrun
    obtain ⟨action, names₁, new, hread, hagrees₁, happends, hlays⟩ :=
      exists_laysOut_plain hagrees hseparate hrole hfeed
    have hset : u.set = t.set := congrArg Config.set happends.config
    obtain ⟨body, names₂, new', hread', hagrees₂, happends', hlays'⟩ :=
      (ih hagrees₁ (hset ▸ hseparate) hrest).under happends.config
    exact ⟨.action line action body, names₂, new ++ new', by simp [Outline.read, hread, hread'],
      hagrees₂, happends.trans happends', hlays.append hlays'⟩
  | block kind head hhead body tail htail rest ihbody ihrest =>
    obtain ⟨_, u, hopen, hrun⟩ := feedAll_cons_ok hrun
    obtain ⟨v, hbody, hrun⟩ := feedAll_append_ok hrun
    obtain ⟨_, w, hclose, hrest⟩ := feedAll_cons_ok hrun
    cases kind with
    | definition =>
      obtain ⟨name, hname, hinside, hconfig, hblock⟩ :=
        exists_laysOut_definition hagrees hseparate hhead hopen htail
      have hset : u.set = t.set := congrArg Config.set hconfig
      obtain ⟨inside, inner, new, hread, hagrees₁, happends, hlays⟩ :=
        hblock (ihbody hinside (hset ▸ hseparate) hbody) hclose
      have hset : w.set = t.set := congrArg Config.set happends.config
      obtain ⟨behind, names₂, new', hread', hagrees₂, happends', hlays'⟩ :=
        (ihrest hagrees₁ (hset ▸ hseparate) hrest).under happends.config
      exact ⟨.definition head name inside tail behind, names₂, new ++ new',
        by simp [Outline.read, hname, hread, hread'], hagrees₂, happends.trans happends',
        hlays.append hlays'⟩
    | condition =>
      obtain ⟨code, left, right, hcompare, hinside, hconfig, hblock⟩ :=
        exists_laysOut_condition hagrees hseparate hhead hopen htail
      have hset : u.set = t.set := congrArg Config.set hconfig
      obtain ⟨inside, inner, new, hread, hagrees₁, happends, hlays⟩ :=
        hblock (ihbody hinside (hset ▸ hseparate) hbody) hclose
      have hset : w.set = t.set := congrArg Config.set happends.config
      obtain ⟨behind, names₂, new', hread', hagrees₂, happends', hlays'⟩ :=
        (ihrest hagrees₁ (hset ▸ hseparate) hrest).under happends.config
      exact ⟨.condition head code left right inside behind, names₂, new ++ new',
        by simp [Outline.read, hcompare, hread, hread'], hagrees₂, happends.trans happends',
        hlays.append hlays'⟩

/-! ## Resolution -/

namespace Program

variable {p : Program} {index : Nat} {i : Instr}

/-- The search from behind stops at an instruction if none behind it has the same serial number. -/
theorem lastBelow_eq {code : Array Instr} {bound : Nat} (hi : code[index]? = some i)
    (hindex : index < bound)
    (hlater : ∀ later, index < later → ∀ j, code[later]? = some j → j.serial ≠ i.serial) :
    lastBelow code i.serial bound = some index := by
  induction bound with
  | zero => omega
  | succ bound ih =>
    rw [lastBelow]
    by_cases hhere : index = bound
    · subst hhere
      simp [hi]
    · have hbelow := ih (by omega)
      split
      · next j hj => rw [if_neg (hlater bound (by omega) j hj), hbelow]
      · exact hbelow

/-- An instruction stands where it was put if serial numbers are not used twice. -/
theorem place?_eq (hnodup : (p.code.toList.map (·.serial)).Nodup)
    (hi : p.code.toList[index]? = some i) : p.place? i.serial = some index := by
  have hindex : p.code[index]? = some i := by simpa using hi
  refine lastBelow_eq hindex (Array.getElem?_eq_some_iff.mp hindex).1 ?_
  intro later hlater j hj
  have hpairs := List.pairwise_map.mp hnodup
  have hj : p.code.toList[later]? = some j := by simpa using hj
  obtain ⟨hlt, rfl⟩ := List.getElem?_eq_some_iff.mp hi
  obtain ⟨hlt', rfl⟩ := List.getElem?_eq_some_iff.mp hj
  exact (List.pairwise_iff_getElem.mp hpairs index later hlt hlt' hlater).symm

theorem resolveOperand_eq {operand : Operand} {n : Int64} (line : Int)
    (h : operand.at? p.place? = some n) : p.resolveOperand index line operand = .ok n := by
  cases operand with
  | literal m =>
    rw [Operand.at?_literal, Option.some.injEq] at h
    rw [h]
    rfl
  | pending => simp [Operand.at?] at h
  | target place =>
    have haddress : p.addressOf? place = some n := h
    rw [resolveOperand, haddress]

theorem resolveInstr_eq {w : Word} (h : i.word? p.place? = some w) :
    p.resolveInstr i index = .ok w := by
  obtain ⟨left, hleft, h⟩ := Option.bind_eq_some_iff.mp h
  obtain ⟨right, hright, h⟩ := Option.bind_eq_some_iff.mp h
  obtain ⟨dest, hdest, h⟩ := Option.bind_eq_some_iff.mp h
  rw [resolveInstr, Args.mapM, resolveOperand_eq i.line hleft, resolveOperand_eq i.line hright,
    resolveOperand_eq i.line hdest]
  exact congrArg Except.ok (Option.some.inj h)

theorem mapM_resolveInstr_eq {code : List Instr} {words : List Word} (start : Nat)
    (h : code.map (·.word? p.place?) = words.map some) :
    (code.zipIdx start).mapM (fun (i, index) => p.resolveInstr i index) = .ok words := by
  induction code generalizing words start with
  | nil =>
    have hnil : words = [] := by simpa using h.symm
    rw [hnil]
    rfl
  | cons i rest ih =>
    cases words with
    | nil => simp at h
    | cons w others =>
      rw [List.map_cons, List.map_cons, List.cons.injEq] at h
      rw [List.zipIdx_cons, List.mapM_cons, ih (start + 1) h.2]
      dsimp only
      rw [resolveInstr_eq h.1]
      rfl

/-- A program resolves if the words of all its instructions are known. -/
theorem resolve_eq {words : List Word}
    (h : p.code.toList.map (·.word? p.place?) = words.map some) : p.resolve = .ok words :=
  mapM_resolveInstr_eq 0 h

end Program

theorem Translator.finish_ok {t : Translator} {program : Program} (h : t.finish = .ok program) :
    program = t.program := by
  rw [finish] at h
  split at h
  · simp at h
  · split at h
    · simp at h
    · exact (Except.ok.inj h).symm

/-- A source that is accepted to its end is a tree of blocks that the pass covers. -/
theorem Translator.covers_run {config : Config} {source : Text} {t : Translator} {program : Program}
    (hseparate : config.set.Separate) (hrun : (new config).run source = (.ok (), t))
    (hfinish : t.finish = .ok program) :
    ∃ outline, Outline.ofLines (Line.tokenize source) = some outline ∧
      Covers (new config) (.initial config.set) outline t := by
  obtain ⟨outline, houtline⟩ := Outline.exists_ofLines hseparate hrun hfinish
  have hlines := Outline.lines_of_ofLines houtline
  exact ⟨outline, houtline, outline.covers (agrees_new config) hseparate (hlines ▸ hrun)⟩

/-- A program that was laid out from its beginning resolves to the words of the layout. -/
theorem Translator.Appends.resolve {config : Config} {new : List Instr} {t : Translator}
    {body : Body} (h : Appends (.new config) new t)
    (hlays : LaysOut (.new config) new t (body.layout config)) :
    t.program.resolve = .ok (body.words config) := by
  have hcode : t.program.code.toList = new := by simpa [Translator.new] using h.code
  have hplaced : Placed t.program.place? 0 new := by
    intro index i hi
    rw [Nat.zero_add]
    exact Program.place?_eq (hcode ▸ h.nodup) (hcode ▸ hi)
  have hentered : Entered (.new config) t.program.place? fun _ => 0 := by
    intro d hd
    simp [Translator.new] at hd
  refine Program.resolve_eq ?_
  rw [hcode]
  exact (hlays _ 0 _ hplaced hentered).1

/-- The statements of a source whose tree of blocks has a reading. -/
theorem Body.ofLines_eq {set : InstructionSet} {lines : List Line} {outline : Outline} {body : Body}
    {names : Names} (houtline : Outline.ofLines lines = some outline)
    (hread : outline.read set (.initial set) = some (body, names)) :
    Body.ofLines set lines = some body := by
  simp [ofLines, houtline, hread]

open Translator in
/-- The single pass gives the words of the layout.  A source that is accepted to its end is a tree
of blocks whose statements have a reading, and the words of the finished program are those of the
reading, laid out from left to right. -/
theorem resolve_eq_layout (config : Config) (source : Text) (hseparate : config.set.Separate)
    {t : Translator} {program : Program} (hrun : (new config).run source = (.ok (), t))
    (hfinish : t.finish = .ok program) :
    ∃ body, Body.ofLines config.set (Line.tokenize source) = some body ∧
      program.resolve = .ok (body.words config) := by
  obtain ⟨outline, houtline, body, names, new, hread, _, happends, hlays⟩ :=
    covers_run hseparate hrun hfinish
  rw [finish_ok hfinish]
  exact ⟨body, Body.ofLines_eq houtline hread, happends.resolve hlays⟩

open Translator in
/-- A condition inside a definition, and a call. -/
theorem layout_of_nested_blocks :
    let source : Text := "DEF f\nIF EQ 1 2\nSET $a 3\nENDIF\nENDDEF\nCALL f\n"
    let t := ((new {}).run source).2
    ∃ body : Body, t.program.resolve = .ok (body.words {}) ∧
      (body.words {}).map (·.fields) =
        [[128, 24, 0, 2], [216, 1, 2, 12], [128, 20, 0, 2], [128, 0, 0, 3], [128, 3, 0, 0],
          [0, 1, 0, 2], [128, 32, 0, 1], [128, 4, 0, 2]] := by
  intro source t
  have hrun : (new {}).run source = (.ok (), t) :=
    Prod.ext (eq_ok_of_toOption (by decide +kernel)) rfl
  have hfinish : t.finish = .ok t.program := eq_ok_of_toOption (by decide +kernel)
  obtain ⟨body, hbody, hresolve⟩ :=
    resolve_eq_layout {} source (by decide +kernel) hrun hfinish
  refine ⟨body, hresolve, ?_⟩
  have hwords : (Body.ofLines .standard (Line.tokenize source)).map
      (fun b => (b.words {}).map (·.fields)) = some
        [[128, 24, 0, 2], [216, 1, 2, 12], [128, 20, 0, 2], [128, 0, 0, 3], [128, 3, 0, 0],
          [0, 1, 0, 2], [128, 32, 0, 1], [128, 4, 0, 2]] := by decide +kernel
  have hbody : Body.ofLines .standard (Line.tokenize source) = some body := hbody
  simpa [hbody] using hwords

end AccuAsm
