import AccuAsm.Proofs.OpenBlocks

/-!
# What a run has placed

Every instruction and every jump over a block has a serial number of its own.  A jump
gets its number when the block is opened and its place when the block is closed, so the
numbers in the program tell which blocks are closed.

There are two groups.

* Numbers.  `Ledger` relates the numbers in the program to the blocks of a run.  It is
  kept when instructions are put at the end (`Ledger.append`), when a block is opened
  (`Ledger.enter`) and when one is closed (`Ledger.leave`).  `Traced.feed` is the step
  lemma.
* Definitions.  `Recorded` is what the records of the definitions say about their blocks,
  and `Recorded.feed` the step lemma.
-/

namespace AccuAsm

namespace Translator

/-! ## Numbers -/

/-- Serial numbers in a program, the next one to be drawn, the blocks that are open and all that
have been opened. -/
structure Ledger (serials : List Nat) (next : Nat) (blocks opened : List Block) : Prop where
  /-- The numbers in the program have been drawn. -/
  drawn : ∀ serial ∈ serials, serial < next
  /-- No instruction stands in the program twice. -/
  nodup : serials.Nodup
  /-- Blocks that were opened later have greater numbers. -/
  ascending : opened.Pairwise fun a b => a.skip < b.skip
  /-- The numbers of all blocks have been drawn. -/
  known : ∀ b ∈ opened, b.skip < next
  /-- Open blocks have been opened. -/
  mem_opened : ∀ b ∈ blocks, b ∈ opened
  /-- The jump over a block stands in the program exactly if the block is closed. -/
  placed_iff : ∀ b ∈ opened, b.skip ∈ serials ↔ b ∉ blocks

namespace Ledger

variable {serials serials' : List Nat} {next : Nat} {blocks blocks' opened : List Block}
  {a b : Block}

theorem eq_of_skip_eq (h : Ledger serials next blocks opened) (ha : a ∈ opened) (hb : b ∈ opened)
    (hskip : a.skip = b.skip) : a = b :=
  List.inj_on_of_nodup_map (List.pairwise_map.mpr (h.ascending.imp Nat.ne_of_lt)) ha hb hskip

/-- Instructions with new numbers are put at the end. -/
theorem append (h : Ledger serials next blocks opened) (new : List Nat)
    (hnew : new = List.range' next new.length) :
    Ledger (serials ++ new) (next + new.length) blocks opened := by
  have hfresh {serial : Nat} (hserial : serial ∈ new) :
      next ≤ serial ∧ serial < next + new.length := by
    rw [hnew, List.mem_range'_1] at hserial
    simpa using hserial
  exact {
    drawn := by
      intro serial hserial
      rcases List.mem_append.mp hserial with hold | hserial
      · have := h.drawn serial hold
        omega
      · exact (hfresh hserial).2
    nodup := by
      rw [List.nodup_append]
      refine ⟨h.nodup, hnew ▸ List.nodup_range', ?_⟩
      intro old hold serial hserial
      have := h.drawn old hold
      have := hfresh hserial
      omega
    ascending := h.ascending
    known := by
      intro b hb
      have := h.known b hb
      omega
    mem_opened := h.mem_opened
    placed_iff := by
      intro b hb
      rw [List.mem_append, h.placed_iff b hb, or_iff_left_iff_imp]
      intro hmem
      have := hfresh hmem
      have := h.known b hb
      omega }

/-- A block is opened, and the jump over it gets the next number. -/
theorem enter (h : Ledger serials next blocks opened) (hskip : b.skip = next)
    (hblocks : blocks'.Perm (b :: blocks)) :
    Ledger serials (next + 1) blocks' (opened ++ [b]) where
  drawn := fun serial hserial => Nat.lt_succ_of_lt (h.drawn serial hserial)
  nodup := h.nodup
  ascending := by
    rw [List.pairwise_append]
    refine ⟨h.ascending, List.pairwise_singleton _ _, ?_⟩
    intro a ha c hc
    rw [List.mem_singleton.mp hc, hskip]
    exact h.known a ha
  known := by
    intro a ha
    rcases List.mem_append.mp ha with ha | ha
    · exact Nat.lt_succ_of_lt (h.known a ha)
    · rw [List.mem_singleton.mp ha, hskip]
      exact Nat.lt_succ_self _
  mem_opened := by
    intro a ha
    rcases List.mem_cons.mp (hblocks.mem_iff.mp ha) with rfl | ha
    · simp
    · exact List.mem_append_left _ (h.mem_opened a ha)
  placed_iff := by
    intro a ha
    rw [hblocks.mem_iff, List.mem_cons]
    rcases List.mem_append.mp ha with hold | hnew
    · have hne : a ≠ b := fun heq => by
        have := h.known a hold
        rw [heq] at this
        omega
      rw [h.placed_iff a hold]
      simp [hne]
    · rw [List.mem_singleton.mp hnew]
      have : b.skip ∉ serials := fun hmem => by
        have := h.drawn _ hmem
        omega
      simp [this]

/-- A block is closed, and the jump over it is put into the program. -/
theorem leave (h : Ledger serials next blocks opened) (hblocks : blocks.Perm (b :: blocks'))
    (hinner : b ∉ blocks') (hserials : serials'.Perm (b.skip :: serials)) :
    Ledger serials' next blocks' opened := by
  have hopen : b ∈ blocks := hblocks.mem_iff.mpr List.mem_cons_self
  have hb : b ∈ opened := h.mem_opened b hopen
  exact {
    drawn := by
      intro serial hserial
      rcases List.mem_cons.mp (hserials.mem_iff.mp hserial) with rfl | hserial
      · exact h.known b hb
      · exact h.drawn serial hserial
    nodup := by
      rw [hserials.nodup_iff, List.nodup_cons]
      exact ⟨fun hmem => (h.placed_iff b hb).mp hmem hopen, h.nodup⟩
    ascending := h.ascending
    known := h.known
    mem_opened := fun a ha =>
      h.mem_opened a (hblocks.mem_iff.mpr (List.mem_cons_of_mem _ ha))
    placed_iff := by
      intro a ha
      rw [hserials.mem_iff, List.mem_cons, h.placed_iff a ha, hblocks.mem_iff, List.mem_cons]
      by_cases hsame : a = b
      · simp [hsame, hinner]
      · have hskip : a.skip ≠ b.skip := fun heq => hsame (h.eq_of_skip_eq ha hb heq)
        simp [hsame, hskip] }

end Ledger

variable {t t' : Translator} {line : Line} {emitted : List Instr} {a b : Block}
  {history : List Transition}

/-- The instructions of the program and the blocks of its history, by their serial numbers. -/
def Traced (t : Translator) (history : List Transition) : Prop :=
  Ledger t.serials t.nextSerial t.openBlocks (opened history)

theorem traced_new (config : Config) : Traced (new config) [] := by
  constructor <;> simp [serials, openBlocks, opened, show (new config).program = {} from rfl]

/-- What one accepted line does to the numbers. -/
theorem Traced.feed (h : Traced t history) (hseated : Seated t) (hstacked : Stacked t)
    (hfeed : t.feed line = (.ok emitted, t')) :
    Traced t' (history ++ [⟨t, line, emitted, t'⟩]) := by
  rw [Traced, opened_concat]
  cases hstacked.progress_of_feed hseated hfeed with
  | stays hopen hserials hnext hcode =>
    have happend := Ledger.append h (emitted.map (·.serial)) (by simpa using hserials)
    rw [opened?_of_subset fun b hb => hopen ▸ hb]
    simpa [serials, hcode, hnext, hopen] using happend
  | opens b hopen hskip hsite hserials hnext hcode =>
    have happend := (Ledger.enter h hskip hopen).append (emitted.map (·.serial))
      (by simpa using hserials)
    rw [hstacked.opened?_of_opens hopen hskip]
    simpa [serials, hcode, hnext] using happend
  | closes b jump hopen hinner hjump hlow hhigh hserials hnext hcode =>
    have hsite := Program.toNat_le_length hhigh
    have hplaced := (List.perm_insertIdx jump t.program.code.toList hsite).map (·.serial)
    rw [List.map_cons, hjump] at hplaced
    have hleave := Ledger.leave h hopen (fun hold => Nat.lt_irrefl _ (hinner b hold)) hplaced
    have happend := hleave.append (emitted.map (·.serial)) (by simpa using hserials)
    rw [opened?_of_closes hopen]
    simpa [serials, hcode, hnext] using happend

/-! ## Definitions -/

theorem kind_of_mem_openOf {kind : BlockKind} (h : b ∈ t.openOf kind) : b.kind = kind := by
  cases kind with
  | definition =>
    obtain ⟨position, _, hb⟩ := List.mem_filterMap.mp h
    obtain ⟨d, _, rfl⟩ := Option.map_eq_some_iff.mp hb
    rfl
  | condition =>
    obtain ⟨c, _, rfl⟩ := List.mem_map.mp h
    rfl

theorem block_mem_openBlocks {d : Definition} :
    d.block ∈ t.openBlocks ↔ d.block ∈ t.openOf .definition := by
  rw [mem_openBlocks_iff]
  constructor
  · rintro ⟨kind, h⟩
    obtain rfl : BlockKind.definition = kind := kind_of_mem_openOf h
    exact h
  · exact fun h => ⟨_, h⟩

/-- What the records of the definitions say about their blocks. -/
structure Recorded (t : Translator) (history : List Transition) : Prop where
  /-- A call enters behind the jump over the block. -/
  entry : ∀ d ∈ t.definitions.records, d.entry = .after d.skip.serial
  /-- Every definition has been opened. -/
  mem_opened : ∀ d ∈ t.definitions.records, d.block ∈ opened history
  /-- No two definitions share a jump. -/
  skip_inj : ∀ (p q : Nat) (d e : Definition), t.definitions.records[p]? = some d →
    t.definitions.records[q]? = some e → d.skip.serial = e.skip.serial → p = q
  /-- The record tells whether the definition is closed. -/
  closed_iff : ∀ d ∈ t.definitions.records, d.closed = true ↔ d.block ∉ t.openOf .definition

theorem recorded_new (config : Config) : Recorded (new config) [] := by
  constructor <;> simp [new]

theorem mem_opened_concat {s : Transition} (h : b ∈ opened history) : b ∈ opened (history ++ [s]) :=
  opened_concat history s ▸ List.mem_append_left _ h

/-- A line that does not touch the definitions. -/
theorem Recorded.keep (h : Recorded t history) (hsame : t'.definitions = t.definitions)
    (s : Transition) : Recorded t' (history ++ [s]) where
  entry := hsame ▸ h.entry
  mem_opened := fun d hd => mem_opened_concat (h.mem_opened d (hsame ▸ hd))
  skip_inj := hsame ▸ h.skip_inj
  closed_iff := by
    have hopen : t'.openOf .definition = t.openOf .definition := by
      rw [openOf, openOf, openRecords, openRecords, hsame]
    rw [hsame, hopen]
    exact h.closed_iff

/-- DEF adds a record. -/
theorem Recorded.define {s : Transition} (h : Recorded t history) (hknown : Traced t history)
    (hseated : Seated t) (name : Text) (hs : s.opened? = some (t.newDefinition line.number name
      (t.skip line.number ("skip DEF " ++ name))).block) :
    Recorded (t.defined line name) (history ++ [s]) := by
  have hold {d : Definition} (hd : d ∈ t.definitions.records) : d.skip.serial < t.nextSerial :=
    hknown.known _ (h.mem_opened d hd)
  have hopen := hseated.openOf_defined line name
  constructor
  case entry =>
    intro d hd
    rcases Array.mem_push.mp hd with hd | rfl
    · exact h.entry d hd
    · rfl
  case mem_opened =>
    intro d hd
    rcases Array.mem_push.mp hd with hd | rfl
    · exact mem_opened_concat (h.mem_opened d hd)
    · rw [opened_concat, hs]
      simp
  case skip_inj =>
    intro p q d e hd he hskip
    simp only [defined, Array.getElem?_push] at hd he
    split at hd
    · split at he
      · omega
      · have := hold (Array.mem_of_getElem? he)
        rw [← hskip, ← Option.some.inj hd] at this
        exact absurd this (Nat.lt_irrefl _)
    · split at he
      · have := hold (Array.mem_of_getElem? hd)
        rw [hskip, ← Option.some.inj he] at this
        exact absurd this (Nat.lt_irrefl _)
      · exact h.skip_inj p q d e hd he hskip
  case closed_iff =>
    intro d hd
    rw [hopen, List.mem_cons]
    rcases Array.mem_push.mp hd with hd | rfl
    · have hne : d.block ≠ (t.newDefinition line.number name
          (t.skip line.number ("skip DEF " ++ name))).block := fun heq => by
        have hskip : d.skip.serial = t.nextSerial := congrArg Block.skip heq
        exact absurd (hold hd) (by omega)
      rw [h.closed_iff d hd]
      simp [hne]
    · simp [newDefinition, Definition.new]

/-- ENDDEF marks a record. -/
theorem Recorded.close {d : Definition} {position : Nat} {rest : List Nat} (h : Recorded t history)
    (hstacked : Stacked t) (hstack : t.definitions.stack = position :: rest)
    (hrecord : t.definitions.records[position]? = some d) (program : Program) (s : Transition) :
    Recorded (t.endedDefinition d position rest program) (history ++ [s]) := by
  have hopen := openOf_endedDefinition hstack hrecord program
  have hgone : d.block ∉ (t.endedDefinition d position rest program).openOf .definition := by
    have hpairs := hstacked.descending .definition
    rw [hopen, List.pairwise_cons] at hpairs
    exact fun hmem => Nat.lt_irrefl _ (hpairs.1 _ hmem)
  have hbefore {p : Nat} {e : Definition}
      (he : (t.endedDefinition d position rest program).definitions.records[p]? = some e) :
      ∃ e', t.definitions.records[p]? = some e' ∧ e'.block = e.block ∧ e'.entry = e.entry ∧
        e'.skip = e.skip ∧ (e.closed = true ↔ p = position ∨ e'.closed = true) := by
    simp only [endedDefinition, Array.getElem?_modify] at he
    split at he
    · next hsame =>
      subst hsame
      simp only [hrecord, Option.map_some, Option.some.injEq] at he
      subst he
      exact ⟨d, hrecord, rfl, rfl, rfl, by simp⟩
    · next hother => exact ⟨e, he, rfl, rfl, rfl, by simp [Ne.symm hother]⟩
  constructor
  case entry =>
    intro e he
    obtain ⟨p, hp⟩ := Array.mem_iff_getElem?.mp he
    obtain ⟨e', he', _, hentry, hskip, _⟩ := hbefore hp
    rw [← hentry, ← hskip]
    exact h.entry e' (Array.mem_of_getElem? he')
  case mem_opened =>
    intro e he
    obtain ⟨p, hp⟩ := Array.mem_iff_getElem?.mp he
    obtain ⟨e', he', hblock, _⟩ := hbefore hp
    rw [← hblock]
    exact mem_opened_concat (h.mem_opened e' (Array.mem_of_getElem? he'))
  case skip_inj =>
    intro p q e f he hf hskip
    obtain ⟨e', he', _, _, hsame, _⟩ := hbefore he
    obtain ⟨f', hf', _, _, hsame', _⟩ := hbefore hf
    exact h.skip_inj p q e' f' he' hf' (by rw [hsame, hsame', hskip])
  case closed_iff =>
    intro e he
    obtain ⟨p, hp⟩ := Array.mem_iff_getElem?.mp he
    obtain ⟨e', he', hblock, _, _, hclosed⟩ := hbefore hp
    rw [hclosed, h.closed_iff e' (Array.mem_of_getElem? he'), ← hblock, hopen, List.mem_cons]
    by_cases hsame : p = position
    · subst hsame
      rw [hrecord, Option.some.injEq] at he'
      subst he'
      simp [hgone]
    · have hne : e'.block ≠ d.block := fun heq =>
        hsame (h.skip_inj p position e' d he' hrecord (congrArg Block.skip heq))
      simp [hsame, hne]

/-- What one accepted line does to the records. -/
theorem Recorded.feed (h : Recorded t history) (hknown : Traced t history) (hseated : Seated t)
    (hstacked : Stacked t) (hfeed : t.feed line = (.ok emitted, t')) :
    Recorded t' (history ++ [⟨t, line, emitted, t'⟩]) := by
  obtain ⟨ops, next, heffect, rfl⟩ := effect_of_feed hfeed
  cases heffect with
  | names | condition | endCondition =>
    refine h.keep ?_ _
    rfl
  | @define keyword name rest hk hfields hname hfresh hscope =>
    rw [emit_nil]
    apply h.define hknown hseated name
    exact hstacked.opened?_of_opens
      (openBlocks_perm_of_opens (hseated.openOf_defined line name) rfl) rfl
  | @endDefine d position rest program hk hstack hrecord hdepth hinsert =>
    exact { h.close hstacked hstack hrecord program _ with }

end Translator

end AccuAsm
