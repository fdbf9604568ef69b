import AccuAsm.Proofs.OpenBlocks
import AccuAsm.Proofs.Refusals

/-!
# Names around a definition

A definition has a scope of its own, and statements bind names in the current scope alone.
So the names outside a definition are the same behind it as in front of it, whatever its
body holds.

There are three groups.

* One line.  `unchanged_of_feed` says that a line leaves all scopes alone but the current
  one, `heading_of_feed` that scopes keep their names and places, and `record_of_feed` that
  definitions keep their names and scopes.  `Move` lists what a line does to the open
  definitions and to the current scope.
* Definitions.  `DistinctNames` says that a definition is known by its name.
* The body.  `Within` says of a state that it lies in the body of a definition: the
  current scope is a new one, and the old ones are as they were.  `Behind` follows the
  definition from its head on.  `Behind.feed` is the step lemma and `Behind.feedEach` the
  run lemma; `Behind.leave` is what the closing line does.
-/

namespace AccuAsm

/-- A look-up depends on the scope and those in front of it in the table. -/
theorem ScopeTable.lookup_congr {t t' : ScopeTable} {scope : Nat}
    (h : ∀ s ≤ scope, t'.scopes[s]? = t.scopes[s]?) (name : Text) (parents : Bool) :
    t'.lookup scope name parents = t.lookup scope name parents := by
  cases parents with
  | true => rw [lookup_eq_findSome?, lookup_eq_findSome?, frames_congr h]
  | false =>
    show t'.scopes[scope]? >>= _ = t.scopes[scope]? >>= _
    rw [h scope (Nat.le_refl _)]

namespace Translator

variable {t t' u u' : Translator} {line : Line} {emitted : List Instr}

/-! ## One line -/

/-- A scope keeps its name and stays where it is. -/
theorem heading_of_feed (hfeed : t.feed line = (.ok emitted, t')) {i : Nat} {s : Scope}
    (hs : t.scopes.scopes[i]? = some s) :
    ∃ s', t'.scopes.scopes[i]? = some s' ∧ s'.name = s.name ∧ s'.parent = s.parent := by
  obtain ⟨ops, next, heffect, rfl⟩ := effect_of_feed hfeed
  cases heffect with
  | names change memory =>
    show ∃ s', (t.scopes.scopes.modify t.scope _)[i]? = some s' ∧ _
    rw [Array.getElem?_modify, hs]
    split
    · exact ⟨_, rfl, rfl, rfl⟩
    · exact ⟨s, rfl, rfl, rfl⟩
  | define =>
    have hi := (Array.getElem?_eq_some_iff.mp hs).1
    refine ⟨s, ?_, rfl, rfl⟩
    show (t.scopes.scopes.push _)[i]? = _
    rw [ScopeTable.getElem?_push hi, hs]
  | condition | endDefine | endCondition => exact ⟨s, hs, rfl, rfl⟩

/-- A definition keeps its name and the scope of its body. -/
theorem record_of_feed (hfeed : t.feed line = (.ok emitted, t')) {position : Nat} {d : Definition}
    (hd : t.definitions.records[position]? = some d) :
    ∃ d', t'.definitions.records[position]? = some d' ∧ d'.name = d.name ∧ d'.scope = d.scope := by
  obtain ⟨ops, next, heffect, rfl⟩ := effect_of_feed hfeed
  cases heffect with
  | names | condition | endCondition => exact ⟨d, hd, rfl, rfl⟩
  | define =>
    have hposition := (Array.getElem?_eq_some_iff.mp hd).1
    refine ⟨d, ?_, rfl, rfl⟩
    show (t.definitions.records.push _)[position]? = _
    rw [Array.getElem?_push, if_neg (by omega), hd]
  | endDefine hk hstack hrecord =>
    obtain ⟨d', hd', rfl⟩ := getElem?_modify_closed hrecord position d hd
    refine ⟨_, hd', ?_⟩
    split <;> exact ⟨rfl, rfl⟩

/-- The scope around a definition stays the same. -/
theorem outerScope_of_feed (h : Housed t) (hfeed : t.feed line = (.ok emitted, t'))
    {d d' : Definition} (hd : d ∈ t.definitions.records) (hscope : d'.scope = d.scope) :
    t'.outerScope d' = t.outerScope d := by
  obtain ⟨s, outer, hs, hparent, _⟩ := h.bodies d hd
  obtain ⟨s', hs', _, hsame⟩ := heading_of_feed hfeed hs
  unfold outerScope
  rw [hscope, hs, hs']
  simp [hsame]

/-- What an accepted line does to the open definitions and to the current scope. -/
inductive Move (t : Translator) (line : Line) (t' : Translator) : Prop where
  /-- No definition is opened or closed. -/
  | stays (hk : t.set.statement? line ≠ some .define ∧ t.set.statement? line ≠ some .endDefine)
      (hrecords : t'.definitions.records = t.definitions.records)
      (hstack : t'.definitions.stack = t.definitions.stack)
      (hscopes : ∀ i ≠ t.scope, t'.scopes.scopes[i]? = t.scopes.scopes[i]?)
      (hscope : t'.scope = t.scope)
  /-- DEF opens a definition, with a new scope inside the current one. -/
  | enters {keyword : Text} {rest : List Text} (d : Definition) (s : Scope)
      (hk : t.set.statement? line = some .define)
      (hfields : line.fields = keyword :: d.name :: rest)
      (hfresh : t.definitions.contains d.name = false)
      (hrecords : t'.definitions.records = t.definitions.records.push d)
      (hstack : t'.definitions.stack = t.definitions.records.size :: t.definitions.stack)
      (hscopes : t'.scopes.scopes = t.scopes.scopes.push s) (hscope : t'.scope = t.scopes.size)
      (houter : t'.outerScope d = t.scope)
  /-- ENDDEF closes the innermost definition, and the scope around it becomes the current one. -/
  | leaves (position : Nat) (d : Definition) (hk : t.set.statement? line = some .endDefine)
      (hsize : t'.definitions.records.size = t.definitions.records.size)
      (hstack : t.definitions.stack = position :: t'.definitions.stack)
      (hrecord : t.definitions.records[position]? = some d)
      (hscopes : t'.scopes.scopes = t.scopes.scopes) (hscope : t'.scope = t.outerScope d)

/-- Every accepted line is one of the three moves. -/
theorem move_of_feed (hfeed : t.feed line = (.ok emitted, t')) : Move t line t' := by
  obtain ⟨ops, next, heffect, rfl⟩ := effect_of_feed hfeed
  cases heffect with
  | names change memory hk =>
    refine .stays ⟨fun h => ?_, fun h => ?_⟩ rfl rfl (fun i hi => ?_) rfl
    · exact absurd (hk _ h) (by decide)
    · exact absurd (hk _ h) (by decide)
    · show (t.scopes.scopes.modify t.scope _)[i]? = _
      rw [Array.getElem?_modify, if_neg (Ne.symm hi)]
  | condition hk => exact .stays (by rw [hk]; decide) rfl rfl (fun _ _ => rfl) rfl
  | endCondition hk => exact .stays (by rw [hk]; decide) rfl rfl (fun _ _ => rfl) rfl
  | @define keyword name rest hk hfields hname hfresh =>
    refine .enters (t.newDefinition line.number name _) _ hk hfields hfresh rfl rfl rfl rfl ?_
    show ((t.scopes.scopes.push _)[t.scopes.scopes.size]? >>= _).getD _ = _
    rw [Array.getElem?_push_size]
    rfl
  | endDefine hk hstack hrecord =>
    exact .leaves _ _ hk (Array.size_modify ..) hstack hrecord rfl rfl

/-- A line works in the current scope and in a scope that it opens. -/
theorem unchanged_of_feed (hfeed : t.feed line = (.ok emitted, t')) {i : Nat}
    (hi : i < t.scopes.size) (hother : i ≠ t.scope) :
    t'.scopes.scopes[i]? = t.scopes.scopes[i]? := by
  cases move_of_feed hfeed with
  | stays _ _ _ hscopes => exact hscopes i hother
  | enters _ _ _ _ _ _ _ hscopes =>
    rw [hscopes, ScopeTable.getElem?_push hi]
  | leaves _ _ _ _ _ _ hscopes => rw [hscopes]

/-! ## Definitions -/

/-- A definition is known by its name. -/
def DistinctNames (t : Translator) : Prop :=
  ∀ (i j : Nat) (d e : Definition), t.definitions.records[i]? = some d →
    t.definitions.records[j]? = some e → d.name = e.name → i = j

theorem distinctNames_new (config : Config) : DistinctNames (new config) := by
  intro i j d e hd
  simp [new] at hd

theorem DistinctNames.push {d : Definition} (h : DistinctNames t)
    (hfresh : t.definitions.contains d.name = false)
    (hrecords : t'.definitions.records = t.definitions.records.push d) : DistinctNames t' := by
  have hother {i : Nat} {e : Definition} (he : t.definitions.records[i]? = some e) :
      e.name ≠ d.name := by
    intro hsame
    have hknown := Definitions.contains_iff.mpr ⟨e, Array.mem_of_getElem? he, hsame⟩
    simp [hfresh] at hknown
  intro i j a b ha hb hname
  rw [hrecords, Array.getElem?_push] at ha hb
  split at ha
  · next hi =>
    split at hb
    · next hj => rw [hi, hj]
    · rw [Option.some.injEq] at ha
      exact absurd (ha ▸ hname.symm) (hother hb)
  · split at hb
    · rw [Option.some.injEq] at hb
      exact absurd (hb ▸ hname) (hother ha)
    · exact h i j a b ha hb hname

theorem DistinctNames.feed (h : DistinctNames t) (hfeed : t.feed line = (.ok emitted, t')) :
    DistinctNames t' := by
  cases move_of_feed hfeed with
  | stays _ hrecords =>
    unfold DistinctNames
    rw [hrecords]
    exact h
  | enters d _ _ _ hfresh hrecords => exact h.push hfresh hrecords
  | leaves position d _ hsize =>
    -- the names are those from before
    have hbefore {i : Nat} {d' : Definition} (hd' : t'.definitions.records[i]? = some d') :
        ∃ d, t.definitions.records[i]? = some d ∧ d'.name = d.name := by
      have hi := (Array.getElem?_eq_some_iff.mp hd').1
      have hd := Array.getElem?_eq_getElem (hsize ▸ hi)
      obtain ⟨found, hfound, hname, _⟩ := record_of_feed hfeed hd
      rw [hd', Option.some.injEq] at hfound
      exact ⟨_, hd, hfound ▸ hname⟩
    intro i j a b ha hb hname
    obtain ⟨a', ha', hsame⟩ := hbefore ha
    obtain ⟨b', hb', hsame'⟩ := hbefore hb
    exact h i j a' b' ha' hb' (by rw [← hsame, hname, hsame'])

/-! ## The body -/

/-- A state in the body of the definition whose head comes next in `t`, where the definitions at
`inner` are open inside it.  The old scopes are as they were, and one only comes back to them by
closing the definition itself. -/
structure Within (t : Translator) (inner : List Nat) (u : Translator) : Prop where
  stack : u.definitions.stack = inner ++ t.definitions.records.size :: t.definitions.stack
  current : t.scopes.size ≤ u.scope
  outer : ∀ position ∈ inner, ∃ d, u.definitions.records[position]? = some d ∧
    t.scopes.size ≤ u.outerScope d
  kept : ∀ i < t.scopes.size, u.scopes.scopes[i]? = t.scopes.scopes[i]?

variable {inner inner' : List Nat} {name : Text}

theorem Within.carry (h : Within t inner u) (housed : Housed u)
    (hfeed : u.feed line = (.ok emitted, u'))
    (hstack : u'.definitions.stack = inner' ++ t.definitions.records.size :: t.definitions.stack)
    (hcurrent : t.scopes.size ≤ u'.scope)
    (hinner : ∀ position ∈ inner', position ∈ inner ∨ ∃ d,
      u'.definitions.records[position]? = some d ∧ t.scopes.size ≤ u'.outerScope d) :
    Within t inner' u' where
  stack := hstack
  current := hcurrent
  outer := by
    intro position hposition
    rcases hinner position hposition with hold | hnew
    · obtain ⟨d, hd, houter⟩ := h.outer position hold
      obtain ⟨d', hd', _, hscope⟩ := record_of_feed hfeed hd
      refine ⟨d', hd', ?_⟩
      rw [outerScope_of_feed housed hfeed (Array.mem_of_getElem? hd) hscope]
      exact houter
    · exact hnew
  kept := by
    intro i hi
    have := h.current
    have := housed.current
    rw [unchanged_of_feed hfeed (by omega) (by omega), h.kept i hi]

/-- What one accepted line does in the body, if it does not close the definition. -/
theorem Within.feed (h : Within t inner u) (housed : Housed u)
    (hfeed : u.feed line = (.ok emitted, u'))
    (hopen : u'.definitions.stack ≠ t.definitions.stack) : ∃ inner', Within t inner' u' := by
  have hcurrent := h.current
  cases move_of_feed hfeed with
  | stays _ _ hstack _ hscope =>
    exact ⟨inner, h.carry housed hfeed (hstack.trans h.stack) (hscope ▸ hcurrent) fun _ => .inl⟩
  | enters d _ _ _ _ hrecords hstack _ hscope houter =>
    have := housed.current
    refine ⟨u.definitions.records.size :: inner, h.carry housed hfeed ?_ (by omega) ?_⟩
    · rw [hstack, h.stack, List.cons_append]
    · intro position hposition
      rcases List.mem_cons.mp hposition with rfl | hold
      · refine .inr ⟨d, ?_, houter ▸ hcurrent⟩
        rw [hrecords, Array.getElem?_push_size]
      · exact .inl hold
  | leaves position d _ _ hstack hrecord _ hscope =>
    rw [h.stack] at hstack
    match inner with
    | [] => exact absurd (List.cons.inj hstack).2.symm hopen
    | head :: rest =>
      obtain ⟨rfl, hrest⟩ := List.cons.inj hstack
      obtain ⟨found, hfound, houter⟩ := h.outer head List.mem_cons_self
      rw [hrecord, Option.some.injEq] at hfound
      subst hfound
      refine ⟨rest, h.carry housed hfeed hrest.symm (hscope ▸ houter) fun position hposition => ?_⟩
      exact .inl (List.mem_cons_of_mem _ hposition)

/-- A state behind the head of a definition that comes next in `t`.  The definition is still open,
or it is not. -/
structure Behind (t : Translator) (name : Text) (u : Translator) : Prop where
  housed : Housed u
  distinct : DistinctNames u
  /-- The definition lies in the scope that was current. -/
  record : ∃ d, u.definitions.records[t.definitions.records.size]? = some d ∧ d.name = name ∧
    u.outerScope d = t.scope
  within : t.definitions.records.size ∈ u.definitions.stack → ∃ inner, Within t inner u

/-- The head of a definition leads into its body. -/
theorem behind_of_define (housed : Housed t) (hdistinct : DistinctNames t)
    (hk : t.set.statement? line = some .define) (hname : line.fields[1]? = some name)
    (hfeed : t.feed line = (.ok emitted, t')) : Behind t name t' := by
  cases move_of_feed hfeed with
  | stays hother => exact absurd hk hother.1
  | leaves _ _ hother => exact absurd (hk.symm.trans hother) (by decide)
  | enters d s _ hfields _ hrecords hstack hscopes hscope houter =>
    refine ⟨housed.feed hfeed, hdistinct.feed hfeed, ⟨d, ?_, ?_, houter⟩, fun _ => ⟨[], ?_⟩⟩
    · rw [hrecords, Array.getElem?_push_size]
    · rw [hfields] at hname
      exact Option.some.inj hname
    · refine ⟨hstack, Nat.le_of_eq hscope.symm, by simp, fun i hi => ?_⟩
      rw [hscopes, ScopeTable.getElem?_push hi]

theorem Seated.size_not_mem (h : Seated t) :
    t.definitions.records.size ∉ t.definitions.stack := by
  intro hmem
  obtain ⟨d, hd, _⟩ := h.definitions _ hmem
  simp at hd

/-- What one accepted line does behind the head of a definition. -/
theorem Behind.feed (h : Behind t name u) (hseated : Seated t)
    (hfeed : u.feed line = (.ok emitted, u')) : Behind t name u' := by
  obtain ⟨d, hd, hname, houter⟩ := h.record
  have hknown := (Array.getElem?_eq_some_iff.mp hd).1
  refine ⟨h.housed.feed hfeed, h.distinct.feed hfeed, ?_, fun hopen => ?_⟩
  · obtain ⟨d', hd', hsame, hscope⟩ := record_of_feed hfeed hd
    refine ⟨d', hd', hsame.trans hname, ?_⟩
    rw [outerScope_of_feed h.housed hfeed (Array.mem_of_getElem? hd) hscope, houter]
  · -- a definition that is open has been open all the time
    have hbefore : t.definitions.records.size ∈ u.definitions.stack := by
      cases move_of_feed hfeed with
      | stays _ _ hstack => exact hstack ▸ hopen
      | enters _ _ _ _ _ _ hstack =>
        rw [hstack] at hopen
        exact (List.mem_cons.mp hopen).resolve_left (Nat.ne_of_lt hknown)
      | leaves position _ _ _ hstack =>
        rw [hstack]
        exact List.mem_cons_of_mem _ hopen
    obtain ⟨inner, hwithin⟩ := h.within hbefore
    refine hwithin.feed h.housed hfeed fun hclosed => ?_
    exact hseated.size_not_mem (hclosed ▸ hopen)

/-- A definition can be followed through any lines, refused ones among them. -/
theorem Behind.feedEach (h : Behind t name u) (hseated : Seated t) (hseated' : Seated u)
    (lines : List Line) : Behind t name (u.feedEach lines) := by
  induction lines generalizing u with
  | nil => exact h
  | cons line rest ih =>
    refine ih ?_ (hseated'.feed_any line)
    rcases hfeed : u.feed line with ⟨fault | emitted, next⟩
    · exact hseated'.feed_error_eq hfeed ▸ h
    · exact h.feed hseated hfeed

/-- The line that closes the definition leads back to where its head was. -/
theorem Behind.leave {d : Definition} (h : Behind t name u)
    (hcurrent : u.definitions.current? = some d) (hname : d.name = name)
    (hk : u.set.statement? line = some .endDefine) (hfeed : u.feed line = (.ok emitted, u')) :
    u'.scope = t.scope ∧ ∀ i < t.scopes.size, u'.scopes.scopes[i]? = t.scopes.scopes[i]? := by
  obtain ⟨position, rest, hinnermost, hrecord⟩ := current?_eq_some hcurrent
  obtain ⟨e, he, hsame, houter⟩ := h.record
  have hposition := h.distinct _ _ d e hrecord he (hname.trans hsame.symm)
  subst hposition
  obtain ⟨inner, hwithin⟩ := h.within (by rw [hinnermost]; exact List.mem_cons_self)
  cases move_of_feed hfeed with
  | stays hother => exact absurd hk hother.2
  | enters _ _ hother => exact absurd (hk.symm.trans hother) (by decide)
  | leaves position f _ _ hstack hf hscopes hscope =>
    obtain ⟨rfl, _⟩ := List.cons.inj (hinnermost.symm.trans hstack)
    obtain rfl : e = f := Option.some.inj (he.symm.trans hf)
    exact ⟨hscope.trans houter, fun i hi => by rw [hscopes, hwithin.kept i hi]⟩

theorem housed_and_distinct (config : Config) (lines : List Line) :
    Housed ((new config).feedEach lines) ∧ DistinctNames ((new config).feedEach lines) :=
  @run_induction (fun t _ => Housed t ∧ DistinctNames t) config
    ⟨housed_new config, distinctNames_new config⟩
    (fun _ _ _ h hfeed => ⟨h.1.feed hfeed, h.2.feed hfeed⟩) lines

/-- A definition leaves the names around it alone.  Take a definition that is opened behind any
lines, any lines behind its head, and the line that closes it.  Behind that line the current scope
is the one in front of the head, all scopes that there were then are as they were, and so every
name is bound to what it was bound to. -/
theorem names_around_definition (config : Config) (lines body : List Line) (head tail : Line)
    (name : Text) (d : Definition) (emitted emitted' : List Instr) (inside behind : Translator)
    (hdefine : ((new config).feedEach lines).set.statement? head = some .define)
    (hname : head.fields[1]? = some name)
    (hopen : ((new config).feedEach lines).feed head = (.ok emitted, inside))
    (hendDefine : (inside.feedEach body).set.statement? tail = some .endDefine)
    (hcurrent : (inside.feedEach body).definitions.current? = some d) (hd : d.name = name)
    (hclose : (inside.feedEach body).feed tail = (.ok emitted', behind)) :
    behind.scope = ((new config).feedEach lines).scope ∧
      (∀ i < ((new config).feedEach lines).scopes.size,
        behind.scopes.scopes[i]? = ((new config).feedEach lines).scopes.scopes[i]?) ∧
      ∀ (other : Text) (parents : Bool),
        behind.scopes.lookup behind.scope other parents =
          ((new config).feedEach lines).scopes.lookup ((new config).feedEach lines).scope other
            parents := by
  have hseated := (seated_new config).feedEach lines
  obtain ⟨housed, hdistinct⟩ := housed_and_distinct config lines
  have hbody := (behind_of_define housed hdistinct hdefine hname hopen).feedEach hseated
    (hseated.feed hopen) body
  obtain ⟨hscope, hkept⟩ := hbody.leave hcurrent hd hendDefine hclose
  refine ⟨hscope, hkept, fun other parents => ?_⟩
  rw [hscope]
  have := housed.current
  exact ScopeTable.lookup_congr (fun s hs => hkept s (by omega)) other parents

theorem exists_feed_eq (h : (t.feed line).1.toOption.isSome = true) :
    ∃ emitted, t.feed line = (.ok emitted, (t.feed line).2) := by
  obtain ⟨emitted, hemitted⟩ := Option.isSome_iff_exists.mp h
  exact ⟨emitted, Prod.ext (eq_ok_of_toOption hemitted) rfl⟩

/-- A definition with another one in its body, names that hide outer ones, and refused lines. -/
theorem names_around_nested_definitions :
    let lines : List Line :=
      [⟨1, ["SET", "$x", "1"], []⟩, ⟨2, ["CONST", "c", "5"], []⟩]
    let head : Line := ⟨3, ["DEF", "f"], []⟩
    let body : List Line :=
      [⟨4, ["SETADR", "$x", "&9"], []⟩, ⟨5, ["SET", "$c", "2"], []⟩, ⟨6, ["DEF", "g"], []⟩,
        ⟨7, ["CONST", "k", "3"], []⟩, ⟨8, ["ENDIF"], []⟩, ⟨9, ["ENDDEF"], []⟩]
    let tail : Line := ⟨10, ["ENDDEF"], []⟩
    let t := (new {}).feedEach lines
    let u := (t.feed head).2.feedEach body
    let behind := (u.feed tail).2
    u.scope = 1 ∧ u.scopes.lookup u.scope "x" false = some (.cell 9) ∧ behind.scope = t.scope ∧
      behind.scopes.scopes[0]? = t.scopes.scopes[0]? ∧
      behind.scopes.lookup behind.scope "x" false = some (Memory.cell 0) := by
  intro lines head body tail t u behind
  have hopens : (t.feed head).1.toOption.isSome = true := by decide +kernel
  have hcloses : (u.feed tail).1.toOption.isSome = true := by decide +kernel
  have hinnermost : u.definitions.current?.map (·.name) = some "f" := by decide +kernel
  obtain ⟨emitted, hopen⟩ := exists_feed_eq hopens
  obtain ⟨emitted', hclose⟩ := exists_feed_eq hcloses
  obtain ⟨d, hcurrent, hname⟩ := Option.map_eq_some_iff.mp hinnermost
  have hdefine : t.set.statement? head = some .define := by decide +kernel
  have hendDefine : u.set.statement? tail = some .endDefine := by decide +kernel
  obtain ⟨hscope, hkept, hlookup⟩ := names_around_definition {} lines body head tail "f" d emitted
    emitted' _ behind hdefine rfl hopen hendDefine hcurrent hname hclose
  refine ⟨by decide +kernel, by decide +kernel, hscope, hkept 0 (by decide +kernel), ?_⟩
  rw [hlookup]
  decide +kernel

end Translator

end AccuAsm
