import AccuAsm.Proofs.Buffer

/-!
# Where instructions go

An instruction moves up by one each time that a block around it or in front of it is
closed.  Blocks are closed in the reverse order of their opening and their sites do not
descend, so it can be said beforehand which blocks those are: the ones that are open now
and whose site is not behind the instruction.

There are three groups.

* Counting.  `moved` counts the blocks that are open in one state, closed in a later one,
  and not behind an index.
* The law.  `Displaced` relates a state to a later one.  `Displaced.stays`,
  `Displaced.opens` and `Displaced.closes` are the three turns, and `displaced_feedEach` is
  the run lemma.
* Entries.  `Settling` follows a block from its opening over its closing to the end, and
  `displacement_law` is the result.
-/

namespace AccuAsm

namespace Translator

variable {s t t' : Translator} {line : Line} {emitted : List Instr} {b c : Block}
  {history : List Transition} {index : Nat}

/-! ## Counting -/

/-- The number of blocks that are open in `s`, closed in `t`, and do not lie behind `index`. -/
def moved (s t : Translator) (index : Nat) : Nat :=
  s.openBlocks.countP fun b => b ∉ t.openBlocks ∧ b.site ≤ index

theorem moved_self (t : Translator) (index : Nat) : moved t t index = 0 := by
  rw [moved, List.countP_eq_zero]
  intro b hb
  simp [hb]

theorem moved_congr (h : ∀ b ∈ s.openBlocks, b ∈ t'.openBlocks ↔ b ∈ t.openBlocks) (index : Nat) :
    moved s t' index = moved s t index := by
  apply List.countP_congr
  intro b hb
  simp [h b hb]

theorem moved_mono (s t : Translator) {i j : Nat} (h : i ≤ j) : moved s t i ≤ moved s t j := by
  apply List.countP_mono_left
  intro b hb
  simp only [decide_eq_true_eq]
  rintro ⟨hclosed, hsite⟩
  exact ⟨hclosed, by omega⟩

/-- One more block of `s` is closed. -/
theorem moved_closes (hnodup : s.openBlocks.Nodup) (hc : c ∈ s.openBlocks)
    (hopen : c ∈ t.openBlocks) (hclosed : c ∉ t'.openBlocks)
    (hothers : ∀ b, b ≠ c → (b ∈ t'.openBlocks ↔ b ∈ t.openBlocks)) (index : Nat) :
    moved s t' index = moved s t index + if c.site ≤ index then 1 else 0 := by
  have hperm : s.openBlocks.Perm (c :: s.openBlocks.erase c) := List.perm_cons_erase hc
  have hrest : (s.openBlocks.erase c).countP (fun b => b ∉ t'.openBlocks ∧ b.site ≤ index) =
      (s.openBlocks.erase c).countP fun b => b ∉ t.openBlocks ∧ b.site ≤ index := by
    apply List.countP_congr
    intro b hb
    simp [hothers b (hnodup.mem_erase_iff.mp hb).1]
  rw [moved, moved, hperm.countP_eq, hperm.countP_eq, List.countP_cons, List.countP_cons, hrest]
  simp [hopen, hclosed]

/-! ## The law -/

/-- A state and a later one of the same run. -/
structure Displaced (s t : Translator) : Prop where
  next_le : s.nextSerial ≤ t.nextSerial
  /-- Blocks that have been opened since have new numbers. -/
  recent : ∀ c ∈ t.openBlocks, c ∉ s.openBlocks → s.nextSerial ≤ c.skip
  /-- Inner blocks have been closed before outer ones. -/
  inner : ∀ b ∈ s.openBlocks, b ∉ t.openBlocks → ∀ c ∈ s.openBlocks, c ∈ t.openBlocks →
    c.skip < b.skip
  /-- Blocks that have been opened since lie behind all instructions that were there. -/
  behind : ∀ (index : Nat) (i : Instr), s.program.code.toList[index]? = some i →
    ∀ c ∈ t.openBlocks, c ∉ s.openBlocks → index + moved s t index < c.site
  /-- Every instruction is still there. -/
  place : ∀ (index : Nat) (i : Instr), s.program.code.toList[index]? = some i →
    t.program.code.toList[index + moved s t index]? = some i

theorem Displaced.refl (t : Translator) : Displaced t t where
  next_le := Nat.le_refl _
  recent := fun _ hopen hclosed => absurd hopen hclosed
  inner := fun _ hopen hclosed => absurd hopen hclosed
  behind := fun _ _ _ _ hopen hclosed => absurd hopen hclosed
  place := by
    intro index i hi
    rw [moved_self, Nat.add_zero, hi]

theorem Displaced.stays (h : Displaced s t) (hopen : t'.openBlocks = t.openBlocks)
    (hnext : t.nextSerial ≤ t'.nextSerial)
    (hcode : t'.program.code.toList = t.program.code.toList ++ emitted) : Displaced s t' := by
  have hmoved := @moved_congr s t t' (by simp [hopen])
  constructor
  case next_le => exact Nat.le_trans h.next_le hnext
  case recent => exact hopen ▸ h.recent
  case inner => exact hopen ▸ h.inner
  case behind =>
    intro index i hi c hc
    rw [hmoved]
    exact h.behind index i hi c (hopen ▸ hc)
  case place =>
    intro index i hi
    have hplace := h.place index i hi
    have hlt := (List.getElem?_eq_some_iff.mp hplace).1
    rw [hmoved, hcode, List.getElem?_append_left hlt, hplace]

theorem Displaced.opens (h : Displaced s t) (hs : Stacked s)
    (hopen : t'.openBlocks.Perm (c :: t.openBlocks)) (hskip : c.skip = t.nextSerial)
    (hsite : c.site = t'.program.size) (hnext : t.nextSerial ≤ t'.nextSerial)
    (hcode : t'.program.code.toList = t.program.code.toList ++ emitted) : Displaced s t' := by
  have hmem {b : Block} : b ∈ t'.openBlocks ↔ b = c ∨ b ∈ t.openBlocks :=
    hopen.mem_iff.trans List.mem_cons
  -- the new block has a number that no block of `s` can have
  have hold {b : Block} (hb : b ∈ s.openBlocks) : b ∈ t'.openBlocks ↔ b ∈ t.openBlocks := by
    refine hmem.trans (or_iff_right fun heq => ?_)
    have := hs.drawn b hb
    have := h.next_le
    rw [heq] at *
    omega
  have hmoved := @moved_congr s t t' fun b => hold
  have hplaced : ∀ (index : Nat) (i : Instr), s.program.code.toList[index]? = some i →
      t'.program.code.toList[index + moved s t' index]? = some i := by
    intro index i hi
    have hplace := h.place index i hi
    have hlt := (List.getElem?_eq_some_iff.mp hplace).1
    rw [hmoved, hcode, List.getElem?_append_left hlt, hplace]
  constructor
  case next_le => exact Nat.le_trans h.next_le hnext
  case recent =>
    intro e he hnew
    rcases hmem.mp he with rfl | he
    · rw [hskip]
      exact h.next_le
    · exact h.recent e he hnew
  case inner =>
    intro b hb hclosed e he hstill
    exact h.inner b hb (fun hopen => hclosed ((hold hb).mpr hopen)) e he ((hold he).mp hstill)
  case behind =>
    intro index i hi e he hnew
    rcases hmem.mp he with rfl | he
    · have hlt := (List.getElem?_eq_some_iff.mp (hplaced index i hi)).1
      rw [hsite, Program.size, ← Array.length_toList]
      exact_mod_cast hlt
    · rw [hmoved]
      exact h.behind index i hi e he hnew
  case place => exact hplaced

/-- Whether closing a block moves an instruction is known from where the instruction was. -/
theorem Displaced.site_le_iff {i : Instr} (h : Displaced s t) (hs : Stacked s)
    (hc : c ∈ t.openBlocks) (hi : s.program.code.toList[index]? = some i) :
    c.site ≤ (index + moved s t index : Nat) ↔ c ∈ s.openBlocks ∧ c.site ≤ index := by
  by_cases hold : c ∈ s.openBlocks
  · constructor
    · intro hle
      refine ⟨hold, ?_⟩
      by_contra hlt
      -- blocks that have moved the instruction would lie inside this one, but in front of it
      have hzero : moved s t index = 0 := by
        rw [moved, List.countP_eq_zero]
        intro b hb
        simp only [decide_eq_true_eq]
        rintro ⟨hclosed, hsite⟩
        have hnested := h.inner b hb hclosed c hold hc
        have := hs.sites c hold b hb hnested
        omega
      omega
    · rintro ⟨_, hle⟩
      omega
  · have := h.behind index i hi c hc hold
    constructor
    · intro hle
      omega
    · exact fun hboth => absurd hboth.1 hold

theorem getElem?_insertIdx_append {code emitted : List Instr} {jump i : Instr} {site : Int}
    (hi : code[index]? = some i) (hlow : 0 ≤ site) :
    (code.insertIdx site.toNat jump ++ emitted)[if site ≤ index then index + 1 else index]? =
      some i := by
  have hlt := (List.getElem?_eq_some_iff.mp hi).1
  have hinserted : (code.insertIdx site.toNat jump)[if site ≤ index then index + 1 else index]? =
      some i := by
    rw [List.getElem?_insertIdx]
    split
    · next hle =>
      rw [if_neg (by omega), if_neg (by omega)]
      exact hi
    · next hbefore =>
      rw [if_pos (by omega)]
      exact hi
  rw [List.getElem?_append_left (List.getElem?_eq_some_iff.mp hinserted).1, hinserted]

theorem Displaced.closes {jump : Instr} (h : Displaced s t) (hs : Stacked s)
    (hopen : t.openBlocks.Perm (c :: t'.openBlocks))
    (hinner : ∀ a ∈ t'.openBlocks, a.skip < c.skip) (hlow : 0 ≤ c.site)
    (hnext : t.nextSerial ≤ t'.nextSerial)
    (hcode : t'.program.code.toList =
      t.program.code.toList.insertIdx c.site.toNat jump ++ emitted) : Displaced s t' := by
  have hc : c ∈ t.openBlocks := hopen.mem_iff.mpr List.mem_cons_self
  have hgone : c ∉ t'.openBlocks := fun hmem => Nat.lt_irrefl _ (hinner c hmem)
  have hothers (b : Block) (hne : b ≠ c) : b ∈ t'.openBlocks ↔ b ∈ t.openBlocks := by
    rw [hopen.mem_iff, List.mem_cons, or_iff_right hne]
  have hsub {b : Block} (hb : b ∈ t'.openBlocks) : b ∈ t.openBlocks :=
    hopen.mem_iff.mpr (List.mem_cons_of_mem _ hb)
  have hmoved (index : Nat) : moved s t' index =
      moved s t index + if c ∈ s.openBlocks ∧ c.site ≤ index then 1 else 0 := by
    by_cases hold : c ∈ s.openBlocks
    · simp only [hold, true_and]
      exact moved_closes hs.nodup hold hc hgone hothers index
    · rw [if_neg (fun hboth => hold hboth.1), Nat.add_zero]
      apply moved_congr
      intro b hb
      exact hothers b fun heq => hold (heq ▸ hb)
  constructor
  case next_le => exact Nat.le_trans h.next_le hnext
  case recent => exact fun e he hnew => h.recent e (hsub he) hnew
  case inner =>
    intro b hb hclosed e he hstill
    by_cases hsame : b = c
    · exact hsame ▸ hinner e hstill
    · exact h.inner b hb (fun hb => hclosed ((hothers b hsame).mpr hb)) e he (hsub hstill)
  case behind =>
    intro index i hi e he hnew
    -- a block of `s` cannot be closed while one is open that was opened since
    have hlate : c ∉ s.openBlocks := by
      intro hold
      have := h.recent e (hsub he) hnew
      have := hs.drawn c hold
      have := hinner e he
      omega
    rw [hmoved, if_neg (fun hboth => hlate hboth.1), Nat.add_zero]
    exact h.behind index i hi e (hsub he) hnew
  case place =>
    intro index i hi
    have hinsert := @getElem?_insertIdx_append (index + moved s t index) _ emitted jump _ _
      (h.place index i hi) hlow
    have hsite := h.site_le_iff hs hc hi
    rw [hcode, hmoved]
    by_cases hshift : c.site ≤ (index + moved s t index : Nat)
    · rw [if_pos hshift] at hinsert
      rw [if_pos (hsite.mp hshift), ← Nat.add_assoc, hinsert]
    · rw [if_neg hshift] at hinsert
      rw [if_neg (fun hboth => hshift (hsite.mpr hboth)), Nat.add_zero, hinsert]

theorem Displaced.feed (h : Displaced s t) (hs : Stacked s) (hseated : Seated t)
    (hstacked : Stacked t) (hfeed : t.feed line = (.ok emitted, t')) : Displaced s t' := by
  have hnext := (turn_of_feed hseated hfeed).nextSerial_le
  cases hstacked.progress_of_feed hseated hfeed with
  | stays hopen _ _ hcode => exact h.stays hopen hnext hcode
  | opens c hopen hskip hsite _ _ hcode => exact h.opens hs hopen hskip hsite hnext hcode
  | closes c jump hopen hinner _ hlow _ _ _ hcode => exact h.closes hs hopen hinner hlow hnext hcode

/-- A state is related to every later state of its run. -/
theorem displaced_feedEach (hseated : Seated s) (hstacked : Stacked s) (lines : List Line) :
    Displaced s (s.feedEach lines) :=
  @run_induction_from (fun t _ => Displaced s t)
    (fun _ hseated' hstacked' h hfeed => h.feed hstacked hseated' hstacked' hfeed) s [] hseated
    hstacked (.refl s) lines

/-! ## Entries -/

/-- A block that was opened inside `depth` others. -/
inductive Settling (t : Translator) (b : Block) (depth : Nat) : Prop where
  /-- It is open, and so are those around it. -/
  | around (hopen : b ∈ t.openBlocks) (hdepth : t.openBlocks.countP (·.skip < b.skip) = depth)
  /-- It has been closed.  At that time the jump over it stood at its site, and those around it were
  open. -/
  | closed (s : Translator) (jump : Instr) (hs : Stacked s) (hdisplaced : Displaced s t)
      (hjump : s.program.code.toList[b.site.toNat]? = some jump) (hserial : jump.serial = b.skip)
      (hlow : 0 ≤ b.site) (hdepth : s.openBlocks.length = depth)
      (hsites : ∀ c ∈ s.openBlocks, c.site ≤ b.site)

theorem Settling.feed {depth : Nat} (h : Settling t b depth) (hseated : Seated t)
    (hstacked : Stacked t) (hfeed : t.feed line = (.ok emitted, t')) : Settling t' b depth := by
  have hstacked' : Stacked t' := hstacked.turn (turn_of_feed hseated hfeed)
  cases h with
  | closed s jump hs hdisplaced hjump hserial hlow hdepth hsites =>
    exact .closed s jump hs (hdisplaced.feed hs hseated hstacked hfeed) hjump hserial hlow hdepth
      hsites
  | around hb hdepth =>
    cases hstacked.progress_of_feed hseated hfeed with
    | stays hopen => exact .around (hopen ▸ hb) (hopen ▸ hdepth)
    | opens c hopen hskip =>
      refine .around (hopen.mem_iff.mpr (List.mem_cons_of_mem _ hb)) ?_
      have := hstacked.drawn b hb
      rw [hopen.countP_eq, List.countP_cons_of_neg (by simp; omega), hdepth]
    | closes c jump hopen hinner hjump hlow hhigh _ _ hcode =>
      by_cases hsame : b = c
      · subst hsame
        -- those that stay open are the ones around it
        have hall : t'.openBlocks.countP (·.skip < b.skip) = t'.openBlocks.length := by
          rw [List.countP_eq_length]
          simpa using hinner
        rw [hopen.countP_eq, List.countP_cons_of_neg (by simp), hall] at hdepth
        refine .closed t' jump hstacked' (.refl t') ?_ hjump hlow hdepth ?_
        · have hsite := Program.toNat_le_length hhigh
          have hlength := List.length_insertIdx_of_le_length (a := jump) hsite
          rw [hcode, List.getElem?_append_left (by omega), List.getElem?_insertIdx_self,
            if_pos hsite]
        · intro e he
          exact hstacked.sites e (hopen.mem_iff.mpr (List.mem_cons_of_mem _ he)) b hb (hinner e he)
      · have hstill : b ∈ t'.openBlocks :=
          (List.mem_cons.mp (hopen.mem_iff.mp hb)).resolve_left hsame
        refine .around hstill ?_
        have := hinner b hstill
        rw [hopen.countP_eq, List.countP_cons_of_neg (by simp; omega)] at hdepth
        exact hdepth

/-- Every block of a run, with the number of blocks that were open when it was opened. -/
theorem settling_feedEach (config : Config) (lines : List Line) :
    ∀ s ∈ (new config).transitions lines, ∀ b, s.opened? = some b →
      Settling ((new config).feedEach lines) b s.before.openBlocks.length := by
  refine run_induction (motive := fun t history => ∀ s ∈ history, ∀ b, s.opened? = some b →
    Settling t b s.before.openBlocks.length) (by simp) ?_ lines
  intro t t' line emitted history hseated hstacked h hfeed s hs b hb
  rcases List.mem_append.mp hs with hs | hs
  · exact (h s hs b hb).feed hseated hstacked hfeed
  · obtain rfl := List.mem_singleton.mp hs
    cases hstacked.progress_of_feed hseated hfeed with
    | stays hopen =>
      rw [opened?_of_subset fun b hb => hopen ▸ hb] at hb
      cases hb
    | closes c jump hopen =>
      rw [opened?_of_closes hopen] at hb
      cases hb
    | opens c hopen hskip =>
      rw [hstacked.opened?_of_opens hopen hskip, Option.some.injEq] at hb
      subst hb
      refine .around (hopen.mem_iff.mpr List.mem_cons_self) ?_
      rw [hopen.countP_eq, List.countP_cons_of_neg (by simp), List.countP_eq_length]
      intro a ha
      have := hstacked.drawn a ha
      simp
      omega

theorem Seated.openBlocks_of_finish (h : Seated t) {program : Program}
    (hfinish : t.finish = .ok program) : t.openBlocks = [] := by
  rw [finish] at hfinish
  split at hfinish
  · cases hfinish
  · next hdefinition =>
    split at hfinish
    · cases hfinish
    · next hcondition =>
      have hstack : t.definitions.stack = [] := by
        rw [List.eq_nil_iff_forall_not_mem]
        intro position hposition
        cases hstack : t.definitions.stack with
        | nil => simp [hstack] at hposition
        | cons first rest =>
          obtain ⟨d, hd, _⟩ := h.definitions first (by simp [hstack])
          simp [Definitions.current?, hstack, hd] at hdefinition
      have hconditions : t.conditions.stack = [] := by
        simpa [Conditions.current?] using hcondition
      simp [openBlocks, openOf, openRecords, hstack, hconditions]

theorem address_eq (index : Nat) :
    address (Int64.ofNat index + 1) = Int64.ofInt (4 * ((index : Int) + 1)) := by
  have hint : 4 * ((index : Int) + 1) = (((index + 1) * 4 : Nat) : Int) := by omega
  rw [hint, Int64.ofInt_eq_ofNat, Int64.ofNat_mul, Int64.ofNat_add]
  rfl

/-- The address behind the jump over a block, once all blocks are closed. -/
theorem Settling.addressOf?_eq {depth : Nat} (h : Settling t b depth) (hnodup : t.serials.Nodup)
    (hclosed : t.openBlocks = []) :
    t.program.addressOf? (.after b.skip) = some (Int64.ofInt (4 * (b.site + depth + 1))) := by
  cases h with
  | around hopen => simp [hclosed] at hopen
  | closed s jump hs hdisplaced hjump hserial hlow hdepth hsites =>
    have hmoved : moved s t b.site.toNat = depth := by
      rw [← hdepth, moved, List.countP_eq_length]
      intro c hc
      have := hsites c hc
      simp [hclosed]
      omega
    have hplace := hdisplaced.place _ _ hjump
    rw [hmoved] at hplace
    have hindex := Program.place?_eq hnodup hplace
    rw [hserial] at hindex
    have hsum : b.site + depth + 1 = ((b.site.toNat + depth : Nat) : Int) + 1 := by omega
    rw [Program.addressOf?, Target.after, hindex, Option.map_some, hsum]
    exact congrArg some (address_eq _)

theorem feedEach_append (t : Translator) (lines more : List Line) :
    t.feedEach (lines ++ more) = (t.feedEach lines).feedEach more := by
  induction lines generalizing t with
  | nil => rfl
  | cons line rest ih => exact ih _

/-- How far instructions move from a state of a run to a later one, and where the entries of the
definitions are when the run is finished. -/
theorem displacement_law (config : Config) (lines more : List Line) :
    let s := (new config).feedEach lines
    let t := (new config).feedEach (lines ++ more)
    let history := (new config).transitions (lines ++ more)
    -- an instruction goes up by the number of blocks that have been closed in front of it
    (∀ (index : Nat) (i : Instr), s.program.code.toList[index]? = some i →
      t.program.code.toList[index + moved s t index]? = some i) ∧
    -- no instruction overtakes another
    (∀ i j, i < j → i + moved s t i < j + moved s t j) ∧
    -- a definition is entered behind the jumps over all blocks around it and over itself
    ∀ program, t.finish = .ok program → ∀ d ∈ t.definitions.records,
      (∃ o ∈ history, o.opened? = some d.block) ∧
      ∀ o ∈ history, o.opened? = some d.block → program.addressOf? d.entry =
        some (Int64.ofInt (4 * (d.site + o.before.openBlocks.length + 1))) := by
  intro s t history
  have hseated := (seated_new config).feedEach lines
  have hstacked := (stacked_new config).feedEach (seated_new config) lines
  refine ⟨?_, ?_, ?_⟩
  · have hlater : t = s.feedEach more := feedEach_append (new config) lines more
    have hdisplaced : Displaced s (s.feedEach more) := displaced_feedEach hseated hstacked more
    exact hlater ▸ hdisplaced.place
  · intro i j hlt
    have := moved_mono s t (Nat.le_of_lt hlt)
    omega
  · intro program hfinish d hd
    have hcoherent : Coherent t history := coherent_feedEach config (lines ++ more)
    have hclosed : t.openBlocks = [] :=
      ((seated_new config).feedEach (lines ++ more)).openBlocks_of_finish hfinish
    refine ⟨List.mem_filterMap.mp (hcoherent.recorded.mem_opened d hd), ?_⟩
    intro o ho hopened
    have hprogram : program = t.program := finish_ok hfinish
    have hentry : d.entry = .after d.block.skip := hcoherent.recorded.entry d hd
    rw [hprogram, hentry]
    exact (settling_feedEach config (lines ++ more) o ho d.block hopened).addressOf?_eq
      hcoherent.traced.nodup hclosed

-- a definition inside a condition is entered behind two jumps, not one
example :
    let t := (new {}).feedEach [⟨1, ["IF", "EQ", "1", "2"], []⟩, ⟨2, ["DEF", "F"], []⟩,
      ⟨3, ["ENDDEF"], []⟩, ⟨4, ["ENDIF"], []⟩]
    t.definitions.all.map (fun d => (d.site, t.program.addressOf? d.entry)) = [(1, some 12)] := by
  cbv

end Translator

end AccuAsm
