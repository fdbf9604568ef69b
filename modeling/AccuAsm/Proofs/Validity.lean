import AccuAsm.InstructionSet.Validity
import AccuAsm.Proofs.Reading

/-!
# What makes an instruction set valid

`InstructionSet.validate` goes through the numbers of a set once.  It collects the flags in a
mask, one after the other, and holds every other number against the whole mask.  The codes of a
family are taken in the order of their names, and each is looked up among those before it.
This module says what that comes to, without a mask and without an order.

There are three groups.

* Bits.  `ShareNoBit` compares two numbers bit by bit.
* Checks.  `checkFlags_eq_ok_iff` is the induction over the flags and `checkCodes_eq_ok_iff` the
  induction over the codes of a family.  `and_maskFrom_eq_zero_iff` takes the mask apart again,
  and `validate_eq_ok_iff` lists the checks.
* Valid sets.  `Valid` is the condition itself.  Codes are given by their names in it
  (`FitsFlags`), so that it does not matter in which order they stand.  `valid_of_validate` is
  the half that later modules use.
-/

namespace AccuAsm

/-! ## Bits -/

section Bits

variable {x y : Int64}

/-- Whether a bit of a number is set. -/
def hasBit (x : Int64) (index : Nat) : Bool := x.toBitVec.getLsbD index

/-- No bit is set in both numbers. -/
def ShareNoBit (x y : Int64) : Prop := ∀ index, ¬(hasBit x index = true ∧ hasBit y index = true)

theorem shareNoBit_iff : ShareNoBit x y ↔ x &&& y = 0 := by
  rw [← Int64.toBitVec_inj, Int64.toBitVec_and]
  constructor
  · intro h
    apply BitVec.eq_of_getLsbD_eq
    intro index _
    have := h index
    simp only [hasBit] at this
    simpa using this
  · intro h index hboth
    have hbit := congrArg (BitVec.getLsbD · index) h
    simp only [hasBit] at hboth
    simp [hboth.1, hboth.2] at hbit

theorem ShareNoBit.symm (h : ShareNoBit x y) : ShareNoBit y x := by
  intro index hboth
  exact h index hboth.symm

theorem or_and_distrib (x y mask : Int64) : (x ||| y) &&& mask = x &&& mask ||| y &&& mask :=
  Int64.toBitVec_inj.mp BitVec.and_or_distrib_right

theorem and_eq_zero_comm : x &&& y = 0 ↔ y &&& x = 0 := by
  rw [Int64.and_comm]

end Bits

/-- Names ascend, so each occurs once. -/
theorem Dictionary.pairwise_names {α : Type} (d : Dictionary α) :
    d.entries.Pairwise fun entry other => entry.1 ≠ other.1 := by
  apply d.sorted.imp
  intro entry other hlt heq
  rw [heq] at hlt
  exact List.lt_irrefl _ hlt

/-- An entry is what a look-up finds. -/
theorem Dictionary.mem_entries_iff {α : Type} {d : Dictionary α} {name : Text} {value : α} :
    (name, value) ∈ d.entries ↔ d.find? name = some value := by
  unfold find?
  rw [List.lookup_eq_some_iff]
  constructor
  · intro h
    obtain ⟨front, back, hentries⟩ := List.append_of_mem h
    refine ⟨front, back, hentries, ?_⟩
    intro entry hentry
    have hnames := d.pairwise_names
    rw [hentries, List.pairwise_append] at hnames
    have hne : entry.1 ≠ name := hnames.2.2 entry hentry _ List.mem_cons_self
    simpa using hne.symm
  · rintro ⟨front, back, hentries, _⟩
    simp [hentries]

namespace InstructionSet

/-! ## Checks -/

section Checks

variable {flags codes : List (Text × Int64)} {used bits : Int64}

theorem checkFlag_eq_ok_iff {flag : Text × Int64} :
    checkFlag used flag = .ok bits ↔ 0 < flag.2 ∧ used &&& flag.2 = 0 ∧ used ||| flag.2 = bits := by
  unfold checkFlag
  split_ifs with hpositive hoverlap
  · simp [Int64.not_lt.mpr hpositive]
  · simp [hoverlap]
  · have hpositive : 0 < flag.2 := Int64.not_le.mp hpositive
    have hoverlap : used &&& flag.2 = 0 := not_not.mp hoverlap
    simp [hpositive, hoverlap]

/-- The bits of some flags, added to those that are used already. -/
def maskFrom (used : Int64) (flags : List (Text × Int64)) : Int64 :=
  flags.foldl (fun bits flag => bits ||| flag.2) used

/-- A number touches the mask exactly if it touches one of the flags in it. -/
theorem and_maskFrom_eq_zero_iff (x : Int64) :
    x &&& maskFrom used flags = 0 ↔ x &&& used = 0 ∧ ∀ flag ∈ flags, x &&& flag.2 = 0 := by
  induction flags generalizing used with
  | nil => simp [maskFrom]
  | cons flag rest ih =>
    have hsplit : x &&& (used ||| flag.2) = 0 ↔ x &&& used = 0 ∧ x &&& flag.2 = 0 := by
      rw [and_eq_zero_comm, or_and_distrib, Int64.or_eq_zero_iff, and_eq_zero_comm,
        and_eq_zero_comm (x := flag.2)]
    calc x &&& maskFrom used (flag :: rest) = 0
      _ ↔ x &&& (used ||| flag.2) = 0 ∧ ∀ other ∈ rest, x &&& other.2 = 0 := ih
      _ ↔ x &&& used = 0 ∧ ∀ other ∈ flag :: rest, x &&& other.2 = 0 := by
        rw [hsplit, List.forall_mem_cons, and_assoc]

/-- The flags pass if they are positive and touch neither the bits in use nor each other.  In the
induction the bits in use are those of all flags in front. -/
theorem checkFlags_eq_ok_iff :
    flags.foldlM checkFlag used = .ok bits ↔
      (∀ flag ∈ flags, 0 < flag.2 ∧ used &&& flag.2 = 0) ∧
        flags.Pairwise (fun flag other => flag.2 &&& other.2 = 0) ∧ maskFrom used flags = bits := by
  induction flags generalizing used with
  | nil =>
    rw [List.foldlM_nil]
    simp [maskFrom, Pure.pure, Except.pure]
  | cons flag rest ih =>
    have hhead : (flag :: rest).foldlM checkFlag used = .ok bits ↔
        0 < flag.2 ∧ used &&& flag.2 = 0 ∧ rest.foldlM checkFlag (used ||| flag.2) = .ok bits := by
      rw [List.foldlM_cons]
      constructor
      · intro h
        obtain ⟨next, hflag, hrest⟩ := exists_of_bind_ok h
        obtain ⟨hpositive, hfree, rfl⟩ := checkFlag_eq_ok_iff.mp hflag
        exact ⟨hpositive, hfree, hrest⟩
      · rintro ⟨hpositive, hfree, hrest⟩
        rw [checkFlag_eq_ok_iff.mpr ⟨hpositive, hfree, rfl⟩]
        exact hrest
    have hfree (x : Int64) :
        (used ||| flag.2) &&& x = 0 ↔ used &&& x = 0 ∧ flag.2 &&& x = 0 := by
      rw [or_and_distrib, Int64.or_eq_zero_iff]
    rw [hhead, ih, List.forall_mem_cons, List.pairwise_cons]
    simp only [hfree]
    constructor
    · rintro ⟨hpositive, hused, hrest, hpairs, hbits⟩
      refine ⟨⟨⟨hpositive, hused⟩, ?_⟩, ⟨?_, hpairs⟩, hbits⟩
      · exact fun other hother => ⟨(hrest other hother).1, (hrest other hother).2.1⟩
      · exact fun other hother => (hrest other hother).2.2
    · rintro ⟨⟨⟨hpositive, hused⟩, hrest⟩, ⟨hflag, hpairs⟩, hbits⟩
      refine ⟨hpositive, hused, ?_, hpairs, hbits⟩
      exact fun other hother =>
        ⟨(hrest other hother).1, (hrest other hother).2, hflag other hother⟩

/-- The codes of a family pass if they are not negative, touch no flag, and differ from each other
and from those that have been seen. -/
theorem checkCodes_eq_ok_iff {family : CodeFamily} {seen : List (Int64 × Text)} :
    checkCodes family bits seen codes = .ok () ↔
      (∀ entry ∈ codes, 0 ≤ entry.2 ∧ entry.2 &&& bits = 0 ∧ ∀ old ∈ seen, entry.2 ≠ old.1) ∧
        codes.Pairwise fun entry other => entry.2 ≠ other.2 := by
  induction codes generalizing seen with
  | nil => simp [checkCodes]
  | cons entry rest ih =>
    obtain ⟨name, code⟩ := entry
    have hhead : checkCodes family bits seen ((name, code) :: rest) = .ok () ↔
        0 ≤ code ∧ code &&& bits = 0 ∧ (∀ old ∈ seen, code ≠ old.1) ∧
          checkCodes family bits ((code, name) :: seen) rest = .ok () := by
      rw [checkCodes]
      split_ifs with hnegative hoverlap
      · simp [Int64.not_le.mpr hnegative]
      · simp [hoverlap]
      · have hnegative : 0 ≤ code := Int64.not_lt.mp hnegative
        have hoverlap : code &&& bits = 0 := not_not.mp hoverlap
        have hseen : (∀ old ∈ seen, code ≠ old.1) ↔ seen.lookup code = none := by
          simp [List.lookup_eq_none_iff]
        rw [hseen]
        cases hlookup : seen.lookup code with
        | none => simp [hnegative, hoverlap]
        | some other => simp
    rw [hhead, ih, List.pairwise_cons, List.forall_mem_cons]
    simp only [List.forall_mem_cons]
    constructor
    · rintro ⟨hnonneg, hfree, hseen, hrest, hpairs⟩
      refine ⟨⟨⟨hnonneg, hfree, hseen⟩, ?_⟩, ?_, hpairs⟩
      · intro other hother
        obtain ⟨hnonneg, hfree, _, hseen⟩ := hrest other hother
        exact ⟨hnonneg, hfree, hseen⟩
      · exact fun other hother => (hrest other hother).2.2.1.symm
    · rintro ⟨⟨⟨hnonneg, hfree, hseen⟩, hrest⟩, hcode, hpairs⟩
      refine ⟨hnonneg, hfree, hseen, ?_, hpairs⟩
      intro other hother
      obtain ⟨hnonneg, hfree, hseen⟩ := hrest other hother
      exact ⟨hnonneg, hfree, (hcode other hother).symm, hseen⟩

end Checks

/-- The bits of all flags. -/
def mask (set : InstructionSet) : Int64 := maskFrom 0 set.flags

theorem and_mask_eq_zero_iff (set : InstructionSet) (x : Int64) :
    x &&& set.mask = 0 ↔ ∀ flag ∈ set.flags, x &&& flag.2 = 0 := by
  rw [mask, and_maskFrom_eq_zero_iff, Int64.and_zero]
  simp

/-- The checks, one after the other. -/
theorem validate_eq_ok_iff (set : InstructionSet) :
    set.validate = .ok () ↔ set.flags.foldlM checkFlag 0 = .ok set.mask ∧
      set.alu &&& set.mask = 0 ∧ checkCodes .operation set.mask [] set.operations = .ok () ∧
      set.conditions.entries ≠ [] ∧
      checkCodes .comparison set.mask [] set.conditions.entries = .ok () := by
  have hvalidate : set.validate = (do
      let bits ← set.flags.foldlM checkFlag 0
      if set.alu &&& bits ≠ 0 then .error (.groupOverlap set.alu)
      else do
        checkCodes .operation bits [] set.operations
        if set.conditions.entries.isEmpty then .error .noConditions
        else checkCodes .comparison bits [] set.conditions.entries) := rfl
  rw [hvalidate]
  constructor
  · intro h
    obtain ⟨bits, hflags, h⟩ := exists_of_bind_ok h
    obtain rfl : set.mask = bits := (checkFlags_eq_ok_iff.mp hflags).2.2
    split_ifs at h with hgroup hempty
    · obtain ⟨_, _, h⟩ := exists_of_bind_ok h
      cases h
    · obtain ⟨_, hoperations, h⟩ := exists_of_bind_ok h
      refine ⟨hflags, not_not.mp hgroup, hoperations, ?_, h⟩
      simpa using hempty
  · rintro ⟨hflags, hgroup, hoperations, hnonempty, hconditions⟩
    rw [hflags]
    show (if set.alu &&& set.mask ≠ 0 then _ else _) = Except.ok ()
    rw [if_neg (not_not.mpr hgroup), hoperations]
    show (if set.conditions.entries.isEmpty then _ else _) = Except.ok ()
    rw [if_neg (by simpa using hnonempty)]
    exact hconditions

/-! ## Valid sets -/

end InstructionSet

/-- The flags of an opcode. -/
inductive OpcodeFlag where
  /-- The first source is a constant. -/
  | immediate0
  /-- The second source is a constant. -/
  | immediate1
  /-- The high word of the result is wanted. -/
  | wordHigh
  /-- The group of the comparisons. -/
  | condition
  /-- The comparison jumps. -/
  | jump
  deriving DecidableEq, Repr

/-- Every flag, in the order in which they are checked. -/
def OpcodeFlag.all : List OpcodeFlag := [.immediate0, .immediate1, .wordHigh, .condition, .jump]

theorem OpcodeFlag.mem_all (flag : OpcodeFlag) : flag ∈ all := by
  cases flag <;> decide

theorem OpcodeFlag.nodup_all : all.Nodup := by decide

namespace InstructionSet

/-- The bits of a flag. -/
def flag (set : InstructionSet) : OpcodeFlag → Int64
  | .immediate0 => set.immediate0
  | .immediate1 => set.immediate1
  | .wordHigh => set.wordHigh
  | .condition => set.condition
  | .jump => set.jump

/-- The code in the ALU group. -/
def aluCode (set : InstructionSet) : Option Operation → Int64
  | none => set.move
  | some operation => set.operationCode operation

/-- The name of a code in the ALU group, as messages have it. -/
def aluName : Option Operation → Text
  | none => "move"
  | some .add => "add"
  | some .subtract => "subtract"
  | some .multiply => "multiply"
  | some .divide => "divide"

variable {set : InstructionSet}

theorem flags_eq_map (set : InstructionSet) :
    set.flags.map (·.2) = OpcodeFlag.all.map set.flag := rfl

theorem forall_mem_flags_iff {p : Int64 → Prop} :
    (∀ entry ∈ set.flags, p entry.2) ↔ ∀ flag, p (set.flag flag) := by
  rw [← List.forall_mem_map, flags_eq_map, List.forall_mem_map]
  exact ⟨fun h flag => h flag flag.mem_all, fun h flag _ => h flag⟩

/-- The flags pass if they are positive and no two of them share a bit. -/
theorem checkFlags_iff :
    set.flags.foldlM checkFlag 0 = .ok set.mask ↔ (∀ flag, 0 < set.flag flag) ∧
      ∀ flag other, flag ≠ other → ShareNoBit (set.flag flag) (set.flag other) := by
  have hpairs : set.flags.Pairwise (fun entry other => entry.2 &&& other.2 = 0) ↔
      OpcodeFlag.all.Pairwise fun flag other => ShareNoBit (set.flag flag) (set.flag other) := by
    have hmap : (set.flags.map (·.2)).Pairwise (fun x y => x &&& y = 0) ↔
        (OpcodeFlag.all.map set.flag).Pairwise fun x y => x &&& y = 0 := by rw [flags_eq_map]
    simpa only [List.pairwise_map, ← shareNoBit_iff] using hmap
  have hpositive : (∀ entry ∈ set.flags, 0 < entry.2 ∧ 0 &&& entry.2 = 0) ↔
      ∀ flag, 0 < set.flag flag := by
    simp only [Int64.zero_and, and_true]
    exact forall_mem_flags_iff
  rw [checkFlags_eq_ok_iff, hpositive, hpairs]
  constructor
  · rintro ⟨hall, hapart, _⟩
    refine ⟨hall, ?_⟩
    intro flag other hother
    have hsymm : Std.Symm fun flag other => ShareNoBit (set.flag flag) (set.flag other) :=
      ⟨fun _ _ => ShareNoBit.symm⟩
    exact hapart.forall flag.mem_all other.mem_all hother
  · rintro ⟨hall, hapart⟩
    refine ⟨hall, ?_, rfl⟩
    exact OpcodeFlag.nodup_all.pairwise_of_forall_ne fun flag _ other _ => hapart flag other

/-- What touches no flag does not touch the mask. -/
theorem and_mask_iff (x : Int64) :
    x &&& set.mask = 0 ↔ ∀ flag, ShareNoBit x (set.flag flag) := by
  rw [and_mask_eq_zero_iff, forall_mem_flags_iff (p := fun y => x &&& y = 0)]
  simp only [shareNoBit_iff]

/-- The codes of a family by name: none is negative, no two names have one code, and no code shares
a bit with a flag. -/
structure FitsFlags (set : InstructionSet) {ι : Type} (code? : ι → Option Int64) : Prop where
  nonneg : ∀ name code, code? name = some code → 0 ≤ code
  distinct : ∀ name other code, code? name = some code → code? other = some code → name = other
  apart : ∀ name code, code? name = some code → ∀ flag, ShareNoBit code (set.flag flag)

/-- Going through a list of codes is the same as asking about all names, whatever the order of the
list. -/
theorem checkCodes_iff {ι : Type} {code? : ι → Option Int64} {entries : List (Text × Int64)}
    (family : CodeFamily) (label : ι → Text) (hlabel : Function.Injective label)
    (hnames : entries.Pairwise fun entry other => entry.1 ≠ other.1)
    (hentries : ∀ entry, entry ∈ entries ↔
      ∃ name, entry.1 = label name ∧ code? name = some entry.2) :
    checkCodes family set.mask [] entries = .ok () ↔ set.FitsFlags code? := by
  rw [checkCodes_eq_ok_iff]
  constructor
  · rintro ⟨hall, hpairs⟩
    have hmem {name : ι} {code : Int64} (h : code? name = some code) :
        (label name, code) ∈ entries := (hentries _).mpr ⟨name, rfl, h⟩
    constructor
    case nonneg => exact fun name code h => (hall _ (hmem h)).1
    case apart => exact fun name code h => (and_mask_iff code).mp (hall _ (hmem h)).2.1
    case distinct =>
      intro name other code hname hother
      by_contra hne
      have hsymm : Std.Symm fun entry other : Text × Int64 => entry.2 ≠ other.2 :=
        ⟨fun _ _ => Ne.symm⟩
      refine hpairs.forall (hmem hname) (hmem hother) ?_ rfl
      intro heq
      exact hne (hlabel (congrArg Prod.fst heq))
  · intro h
    constructor
    · intro entry hentry
      obtain ⟨name, _, hcode⟩ := (hentries entry).mp hentry
      exact ⟨h.nonneg name _ hcode, (and_mask_iff _).mpr (h.apart name _ hcode), by simp⟩
    · apply hnames.imp_of_mem
      intro entry other hentry hother hne heq
      obtain ⟨name, hname, hcode⟩ := (hentries entry).mp hentry
      obtain ⟨name', hname', hcode'⟩ := (hentries other).mp hother
      apply hne
      rw [hname, hname', h.distinct name name' _ hcode (heq ▸ hcode')]

/-- The numbers of an instruction set are told apart in every opcode. -/
structure Valid (set : InstructionSet) : Prop where
  /-- Flags are positive. -/
  positive : ∀ flag, 0 < set.flag flag
  /-- No two flags share a bit. -/
  flags : ∀ flag other, flag ≠ other → ShareNoBit (set.flag flag) (set.flag other)
  /-- The ALU group shares no bit with a flag. -/
  group : ∀ flag, ShareNoBit set.alu (set.flag flag)
  /-- The codes of the ALU operations. -/
  operations : set.FitsFlags fun operation => some (set.aluCode operation)
  /-- There is a comparison. -/
  nonempty : ∃ keyword code, set.conditionCode? keyword = some code
  /-- The codes of the comparisons. -/
  conditions : set.FitsFlags set.conditionCode?

theorem aluName_injective : Function.Injective aluName := by
  intro operation other h
  rcases operation with _ | _ | _ | _ | _ <;> rcases other with _ | _ | _ | _ | _ <;>
    revert h <;> decide

theorem pairwise_operations (set : InstructionSet) :
    set.operations.Pairwise fun entry other => entry.1 ≠ other.1 := by
  rw [← List.pairwise_map (R := (· ≠ ·))]
  show ([Text.ofString "add", "divide", "move", "multiply", "subtract"] : List Text).Nodup
  decide

theorem mem_operations_iff (entry : Text × Int64) :
    entry ∈ set.operations ↔
      ∃ operation, entry.1 = aluName operation ∧ some (set.aluCode operation) = some entry.2 := by
  constructor
  · intro h
    simp only [InstructionSet.operations, List.mem_cons, List.not_mem_nil, or_false] at h
    rcases h with rfl | rfl | rfl | rfl | rfl
    · exact ⟨some .add, rfl, rfl⟩
    · exact ⟨some .divide, rfl, rfl⟩
    · exact ⟨none, rfl, rfl⟩
    · exact ⟨some .multiply, rfl, rfl⟩
    · exact ⟨some .subtract, rfl, rfl⟩
  · rintro ⟨operation, hname, hcode⟩
    have hentry : entry = (aluName operation, set.aluCode operation) :=
      Prod.ext hname (Option.some.inj hcode).symm
    rw [hentry]
    match operation with
    | none | some .add | some .subtract | some .multiply | some .divide =>
      simp [InstructionSet.operations, aluName, aluCode, operationCode]

theorem checkOperations_iff :
    checkCodes .operation set.mask [] set.operations = .ok () ↔
      set.FitsFlags fun operation => some (set.aluCode operation) :=
  checkCodes_iff .operation aluName aluName_injective set.pairwise_operations mem_operations_iff

theorem checkConditions_iff :
    checkCodes .comparison set.mask [] set.conditions.entries = .ok () ↔
      set.FitsFlags set.conditionCode? := by
  apply checkCodes_iff .comparison id Function.injective_id set.conditions.pairwise_names
  intro entry
  simp [conditionCode?, ← Dictionary.mem_entries_iff]

theorem conditions_ne_nil_iff :
    set.conditions.entries ≠ [] ↔ ∃ keyword code, set.conditionCode? keyword = some code := by
  constructor
  · intro h
    obtain ⟨⟨keyword, code⟩, rest, hentries⟩ := List.exists_cons_of_ne_nil h
    exact ⟨keyword, code, Dictionary.mem_entries_iff.mp (by simp [hentries])⟩
  · rintro ⟨keyword, code, hcode⟩ hnil
    have hmem := Dictionary.mem_entries_iff.mpr hcode
    simp [hnil] at hmem

/-- What the checks have established about a set that passes them. -/
theorem valid_of_validate (h : set.validate = .ok ()) : set.Valid := by
  obtain ⟨hflags, hgroup, hoperations, hnonempty, hconditions⟩ := set.validate_eq_ok_iff.mp h
  obtain ⟨hpositive, hapart⟩ := checkFlags_iff.mp hflags
  exact ⟨hpositive, hapart, (and_mask_iff _).mp hgroup, checkOperations_iff.mp hoperations,
    conditions_ne_nil_iff.mp hnonempty, checkConditions_iff.mp hconditions⟩

/-- An instruction set is accepted exactly if it is valid.  The five flags are positive and share
no bits with each other, nor with the ALU group.  The codes of the five ALU operations, and so those
of the comparisons, are not negative, differ from each other and share no bit with a flag.  There is
a comparison. -/
theorem validate_decides (set : InstructionSet) : set.validate = .ok () ↔ set.Valid := by
  constructor
  · exact valid_of_validate
  · intro h
    rw [validate_eq_ok_iff, checkFlags_iff, and_mask_iff, checkOperations_iff,
      conditions_ne_nil_iff, checkConditions_iff]
    exact ⟨⟨h.positive, h.flags⟩, h.group, h.operations, h.nonempty, h.conditions⟩

end InstructionSet

end AccuAsm
