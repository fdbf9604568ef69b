import AccuAsm.Proofs.Cells
import AccuAsm.Proofs.Operands
import AccuAsm.Proofs.ScopeTree

/-!
# Constants

CONST binds a name that is not visible.  From then on the name is visible in that scope and
in the scopes that are opened below it, and so neither CONST nor SET binds it there anew.
Only UNSET and SETADR could do that: `Rebinds` says when they are about a name.

There are four groups.

* Scopes.  `ScopeTable.lookup_eq_outer` follows a look-up to the next scope, and
  `ScopeTable.chain_congr` says that the way through the scopes stays the same.
* Names.  `lookupIn_of_feed` says that a line that does not rebind a name leaves its bindings
  alone, unless the name is not visible.
* Constants.  `Kept` says what has become of a binding since a given time.  `Kept.lookup` is
  what it is good for, `Kept.feed` is the step lemma and `Kept.feedEach` the run lemma.
* Results.  `destination_of_feed` says where an accepted line stores its result.
-/

namespace AccuAsm

theorem Text.stripPrefix?_eq_some_iff {token beginning rest : Text} :
    token.stripPrefix? beginning = some rest ↔ beginning ++ rest = token :=
  List.isPrefixOf?_eq_some_iff_append_eq

/-! ## Scopes -/

namespace ScopeTable

variable {t t' : ScopeTable} {scope outer i : Nat} {s : Scope} {name other : Text} {value : Value}

/-- A scope, or one below it that was opened since there were `first` scopes. -/
def IsUnder (t : ScopeTable) (scope first i : Nat) : Prop :=
  i = scope ∨ (first ≤ i ∧ scope ∈ t.chain i)

theorem chain_eq_cons (hs : t.scopes[scope]? = some s) (hparent : s.parent = some outer)
    (houter : outer < scope) : t.chain scope = scope :: t.chain outer := by
  rw [chain, hs]
  dsimp only
  rw [hparent]
  dsimp only
  rw [if_pos houter]

/-- The chain of a scope: none without a scope, and else the scope and what lies around it. -/
theorem chain_cases (t : ScopeTable) (scope : Nat) :
    (t.chain scope = [] ∧ t.scopes[scope]? = none) ∨ t.chain scope = [scope] ∨
      ∃ outer < scope, t.chain scope = scope :: t.chain outer := by
  cases hs : t.scopes[scope]? with
  | none =>
    rw [chain, hs]
    exact .inl ⟨rfl, rfl⟩
  | some s =>
    right
    cases hparent : s.parent with
    | none =>
      rw [chain, hs]
      dsimp only
      rw [hparent]
      exact .inl rfl
    | some outer =>
      by_cases houter : outer < scope
      · exact .inr ⟨outer, houter, chain_eq_cons hs hparent houter⟩
      · rw [chain, hs]
        dsimp only
        rw [hparent]
        exact .inl (congrArg (scope :: ·) (if_neg houter))

theorem le_of_mem_chain (h : i ∈ t.chain scope) : i ≤ scope := by
  induction scope using Nat.strongRecOn with
  | ind scope ih =>
    obtain ⟨hchain, _⟩ | hchain | ⟨outer, houter, hchain⟩ := t.chain_cases scope
    · rw [hchain] at h
      cases h
    · rw [hchain] at h
      exact Nat.le_of_eq (List.mem_singleton.mp h)
    · rw [hchain] at h
      rcases List.mem_cons.mp h with rfl | h
      · exact Nat.le_refl _
      · have := ih outer houter h
        omega

/-- The way from a scope outwards depends on where the scopes lie. -/
theorem chain_congr (h : ∀ (i : Nat) (s : Scope), t.scopes[i]? = some s →
      ∃ s', t'.scopes[i]? = some s' ∧ s'.parent = s.parent) (hscope : scope < t.size) :
    t'.chain scope = t.chain scope := by
  induction scope using Nat.strongRecOn with
  | ind scope ih =>
    have hs : t.scopes[scope]? = some t.scopes[scope] := Array.getElem?_eq_getElem hscope
    obtain ⟨s', hs', hparent⟩ := h _ _ hs
    rw [chain, hs', chain.eq_def t, hs]
    dsimp only
    rw [hparent]
    split
    · rfl
    · next outer _ =>
      split
      · next hlt => rw [ih outer hlt (by omega)]
      · rfl

theorem lookup_eq_here (h : t.lookupIn scope name = some value) :
    t.lookup scope name true = some value := by
  obtain ⟨s, hs, _⟩ := Option.bind_eq_some_iff.mp h
  rw [lookup, if_pos rfl, chain, hs, List.findSome?_cons, h]

/-- A name that is not bound in a scope is the one of the scope around it. -/
theorem lookup_eq_outer (hs : t.scopes[scope]? = some s) (hparent : s.parent = some outer)
    (houter : outer < scope) (hfree : t.lookupIn scope name = none) :
    t.lookup scope name true = t.lookup outer name true := by
  rw [lookup, if_pos rfl, chain_eq_cons hs hparent houter, List.findSome?_cons, hfree, lookup,
    if_pos rfl]

theorem lookupIn_modifyBindings {change : Dictionary Value → Dictionary Value}
    (h : ∀ bindings, (change bindings).find? name = bindings.find? name) :
    (t.modifyBindings scope change).lookupIn i name = t.lookupIn i name := by
  show (t.scopes.modify scope _)[i]? >>= _ = t.scopes[i]? >>= _
  rw [Array.getElem?_modify]
  split
  · cases t.scopes[i]? with
    | none => rfl
    | some s => exact h s.bindings
  · rfl

theorem lookupIn_declare_ne (h : name ≠ other) :
    (t.declare scope other value).lookupIn i name = t.lookupIn i name := by
  apply lookupIn_modifyBindings
  intro bindings
  rw [Dictionary.find?_insert, if_neg h]

theorem lookupIn_remove_ne (h : name ≠ other) :
    (t.remove scope other).lookupIn i name = t.lookupIn i name := by
  apply lookupIn_modifyBindings
  intro bindings
  rw [Dictionary.find?_erase, if_neg h]

theorem lookupIn_other {change : Dictionary Value → Dictionary Value} (h : i ≠ scope) :
    (t.modifyBindings scope change).lookupIn i name = t.lookupIn i name := by
  show (t.scopes.modify scope _)[i]? >>= _ = _
  rw [Array.getElem?_modify, if_neg h.symm]
  rfl

end ScopeTable

/-! ## Names -/

/-- Whether a line is an UNSET or a SETADR that is about a name. -/
def InstructionSet.Rebinds (set : InstructionSet) (name : Text) (line : Line) : Prop :=
  (set.statement? line = some .unset ∧ "$" ++ name ∈ line.fields.tail) ∨
    (set.statement? line = some .setAddress ∧ line.fields[1]? = some ("$" ++ name))

instance (set : InstructionSet) (name : Text) (line : Line) : Decidable (set.Rebinds name line) :=
  inferInstanceAs (Decidable (_ ∨ _))

/-- The field of a statement that a result is written to. -/
def Keyword.resultField? : Keyword → Option Nat
  | .assign => some 1
  | .add | .subtract => some 3
  | .multiply | .divide => some 4
  | _ => none

/-- The operand of a line that a result is written to. -/
def InstructionSet.destination? (set : InstructionSet) (line : Line) : Option Text :=
  match set.statement? line with
  | some k => k.resultField? >>= (line.fields[·]?)
  | none => if (line.fields.head? >>= set.conditionCode?).isSome then line.fields[3]? else none

namespace Translator

open Step

variable {t t' u u' : Translator} {line : Line} {emitted : List Instr} {ops : List Op}
  {name other token : Text} {value : Value} {i : Nat}

theorem lookupIn_foldl_unbind {names : List Text} (h : name ∉ names) :
    (names.foldl (·.unbind ·) t).scopes.lookupIn i name = t.scopes.lookupIn i name := by
  induction names generalizing t with
  | nil => rfl
  | cons other rest ih =>
    rw [List.foldl_cons, ih (List.not_mem_of_not_mem_cons h)]
    exact ScopeTable.lookupIn_remove_ne (List.ne_of_not_mem_cons h)

/-- Binding another name, or a name that was not visible. -/
theorem lookupIn_bind (h : other = name → t.visible name = false) :
    (t.bind other value).scopes.lookupIn i name = t.scopes.lookupIn i name ∨
      (i = t.scope ∧ t.visible name = false) := by
  by_cases hname : other = name
  · by_cases hi : i = t.scope
    · exact .inr ⟨hi, h hname⟩
    · exact .inl (ScopeTable.lookupIn_other hi)
  · exact .inl (ScopeTable.lookupIn_declare_ne (Ne.symm hname))

/-- The names that an UNSET drops are those of its operands. -/
theorem operand_of_mem_unset {operands names : List Text}
    (h : operands.mapM t.localName = .ok names) (hname : name ∈ names) :
    "$" ++ name ∈ operands := by
  obtain ⟨token, htoken, hlocal⟩ := exists_of_mem_mapM h hname
  have hsame := Text.stripPrefix?_eq_some_iff.mp (stripPrefix?_of_localName hlocal)
  rw [hsame]
  exact htoken

theorem lookupIn_of_process (hrun : (process line).on t = (.ok ops, t'))
    (hkeeps : ¬t.set.Rebinds name line) (hi : i < t.scopes.size) :
    t'.scopes.lookupIn i name = t.scopes.lookupIn i name ∨
      (i = t.scope ∧ t.visible name = false) := by
  cases hk : t.set.statement? line with
  | none =>
    obtain ⟨_, _, _, _, _, hprocess⟩ | ⟨_, hprocess⟩ := on_process_of_none hk
    · rw [hprocess] at hrun
      rw [(check_ok hrun).2]
      exact .inl rfl
    · rw [hprocess] at hrun
      rw [(Prod.mk.inj hrun).2]
      exact .inl rfl
  | some k =>
    obtain ⟨keyword, operands, hfields, _, _, hprocess⟩ := on_process hk
    rw [hprocess] at hrun
    cases k with
    | constant =>
      obtain ⟨other, _, _, _, _, _, _, hhidden, _, rfl⟩ := constant_ok hrun
      exact lookupIn_bind fun hsame => hsame ▸ hhidden
    | assign =>
      obtain ⟨_, _, _, _, _, _, _, hassignee, _⟩ := assign_ok hrun
      obtain ⟨_, _, rfl⟩ | ⟨other, _, _, hhidden, _, _, _, rfl⟩ := assignee_ok hassignee
      · exact .inl rfl
      · exact lookupIn_bind fun hsame => hsame ▸ hhidden
    | setAddress =>
      obtain ⟨dest, _, _, other, _, rfl, hstrip, _, _, _, _, rfl⟩ := setAddress_ok hrun
      refine lookupIn_bind fun hsame => absurd (.inr ⟨hk, ?_⟩) hkeeps
      rw [hfields, ← hsame, Text.stripPrefix?_eq_some_iff.mp hstrip]
      rfl
    | unset =>
      obtain ⟨names, hnames, _, rfl⟩ := unset_ok hrun
      refine .inl (lookupIn_foldl_unbind fun hmem => hkeeps (.inl ⟨hk, ?_⟩))
      rw [hfields]
      exact operand_of_mem_unset hnames hmem
    | add | subtract | multiply | divide | call =>
      rw [(plain_ok hrun).2]
      exact .inl rfl
    | define =>
      obtain ⟨_, _, _, _, _, _, _, rfl⟩ := define_ok hrun
      refine .inl ?_
      show (t.scopes.scopes.push _)[i]? >>= _ = _
      rw [ScopeTable.getElem?_push hi]
      rfl
    | condition =>
      obtain ⟨_, _, _, _, _, _, _, _, _, _, _, _, rfl⟩ := condition_ok hrun
      exact .inl rfl
    | endDefine =>
      obtain ⟨_, _, _, _, _, _, _, _, _, rfl⟩ := endDefine_ok hrun
      exact .inl rfl
    | endCondition =>
      obtain ⟨_, _, _, _, _, _, _, rfl⟩ := endCondition_ok hrun
      exact .inl rfl

/-- A line that does not rebind a name leaves its bindings alone, unless it binds the name in the
current scope, where it was not visible. -/
theorem lookupIn_of_feed (hfeed : t.feed line = (.ok emitted, t'))
    (hkeeps : ¬t.set.Rebinds name line) (hi : i < t.scopes.size) :
    t'.scopes.lookupIn i name = t.scopes.lookupIn i name ∨
      (i = t.scope ∧ t.visible name = false) := by
  obtain ⟨ops, next, hrun, hemit⟩ := feed_ok hfeed
  have hscopes : t'.scopes = next.scopes := by
    rw [show t' = (next.emit line ops).2 by rw [hemit]]
    rfl
  rw [hscopes]
  exact lookupIn_of_process hrun hkeeps hi

/-- A scope that was not there before is the one of a DEF. -/
theorem fresh_of_feed (hfeed : t.feed line = (.ok emitted, t')) {s : Scope}
    (hs : t'.scopes.scopes[i]? = some s) (hi : t.scopes.size ≤ i) :
    i = t.scopes.size ∧ s.parent = some t.scope ∧ s.bindings = {} := by
  have hlt : i < t'.scopes.size := (Array.getElem?_eq_some_iff.mp hs).1
  obtain ⟨ops, next, heffect, rfl⟩ := effect_of_feed hfeed
  cases heffect with
  | names change memory =>
    have hsize : (t.scopes.modifyBindings t.scope change).size = t.scopes.size :=
      Array.size_modify ..
    exact absurd (hsize ▸ hlt) (Nat.not_lt.mpr hi)
  | condition | endDefine | endCondition => exact absurd hlt (Nat.not_lt.mpr hi)
  | @define keyword name =>
    have hsize : (t.defined line name).scopes.size = t.scopes.size + 1 := Array.size_push _
    have hlast : i = t.scopes.size := by
      have : i < (t.defined line name).scopes.size := hlt
      omega
    subst hlast
    have hs : (t.scopes.scopes.push _)[t.scopes.scopes.size]? = some s := hs
    rw [Array.getElem?_push_size, Option.some.injEq] at hs
    exact ⟨rfl, hs ▸ rfl, hs ▸ rfl⟩

theorem size_le_of_feed (hfeed : t.feed line = (.ok emitted, t')) :
    t.scopes.size ≤ t'.scopes.size := by
  refine Nat.le_of_not_lt fun hlt => ?_
  obtain ⟨s, hs, _⟩ := heading_of_feed hfeed (Array.getElem?_eq_getElem hlt)
  have : t'.scopes.size < t'.scopes.size := (Array.getElem?_eq_some_iff.mp hs).1
  omega

/-! ## Constants -/

/-- What has become of the binding of a name in a scope, since there were `first` scopes. -/
structure Kept (set : InstructionSet) (scope first : Nat) (name : Text) (value : Value)
    (u : Translator) : Prop where
  set : u.set = set
  seated : Seated u
  inStep : ∃ history, InStep u history
  old : scope < first
  size : first ≤ u.scopes.size
  bound : u.scopes.lookupIn scope name = some value
  /-- A new scope lies in a new one, or else in the scope or around it. -/
  parents : ∀ (i : Nat) (s : Scope), first ≤ i → u.scopes.scopes[i]? = some s →
    ∃ outer, s.parent = some outer ∧ outer < i ∧ (outer ≤ scope ∨ first ≤ outer)
  /-- The scopes that one comes back to. -/
  stack : ∀ position ∈ u.definitions.stack, position + 1 ≤ scope ∨ first ≤ position + 1
  /-- No new scope below hides the name. -/
  free : ∀ i, first ≤ i → scope ∈ u.scopes.chain i → u.scopes.lookupIn i name = none

namespace Kept

variable {set : InstructionSet} {scope first : Nat}

/-- The name is seen in the scope and in new scopes below it. -/
theorem lookup (h : Kept set scope first name value u)
    (hi : u.scopes.IsUnder scope first i) : u.scopes.lookup i name true = some value := by
  induction i using Nat.strongRecOn with
  | ind i ih =>
    rcases hi with rfl | ⟨hnew, hbelow⟩
    · exact ScopeTable.lookup_eq_here h.bound
    · have hfree := h.free i hnew hbelow
      have hthere : ∃ s, u.scopes.scopes[i]? = some s := by
        rw [ScopeTable.chain] at hbelow
        split at hbelow
        · cases hbelow
        · next s hs => exact ⟨s, hs⟩
      obtain ⟨s, hs⟩ := hthere
      obtain ⟨outer, hparent, hlt, hplace⟩ := h.parents i s hnew hs
      rw [ScopeTable.lookup_eq_outer hs hparent hlt hfree]
      apply ih outer hlt
      rw [ScopeTable.chain_eq_cons hs hparent hlt] at hbelow
      have hbelow : scope ∈ u.scopes.chain outer := by
        refine (List.mem_cons.mp hbelow).resolve_left fun hsame => ?_
        have := h.old
        omega
      rcases hplace with hplace | hplace
      · have := ScopeTable.le_of_mem_chain hbelow
        exact .inl (by omega)
      · exact .inr ⟨hplace, hbelow⟩

/-- The current scope is a new one, or the scope itself or one around it. -/
theorem current (h : Kept set scope first name value u) : u.scope ≤ scope ∨ first ≤ u.scope := by
  obtain ⟨history, hin⟩ := h.inStep
  have hstack := h.stack
  rw [hin.current]
  cases hopen : u.definitions.stack with
  | nil => exact .inl (Nat.zero_le _)
  | cons position rest =>
    rw [hopen] at hstack
    exact hstack position List.mem_cons_self

/-- A line leaves the bindings of the name alone where it is seen. -/
theorem lookupIn_eq (h : Kept set scope first name value u)
    (hfeed : u.feed line = (.ok emitted, u')) (hkeeps : ¬set.Rebinds name line)
    (hi : u.scopes.IsUnder scope first i) (hthere : i < u.scopes.size) :
    u'.scopes.lookupIn i name = u.scopes.lookupIn i name := by
  rw [← h.set] at hkeeps
  refine (lookupIn_of_feed hfeed hkeeps hthere).resolve_right ?_
  rintro ⟨rfl, hhidden⟩
  have hvisible : u.visible name = true := by
    rw [visible, ScopeTable.bound, h.lookup hi]
    rfl
  rw [hvisible] at hhidden
  cases hhidden

/-- What one accepted line does to the binding. -/
theorem feed (h : Kept set scope first name value u) (hfeed : u.feed line = (.ok emitted, u'))
    (hkeeps : ¬set.Rebinds name line) : Kept set scope first name value u' := by
  have hold := h.old
  have hsize := h.size
  obtain ⟨history, hin⟩ := h.inStep
  have hlt := hin.current_lt
  have hchain {i : Nat} (hi : i < u.scopes.size) : u'.scopes.chain i = u.scopes.chain i := by
    refine ScopeTable.chain_congr (fun i s hs => ?_) hi
    obtain ⟨s', hs', _, hparent⟩ := heading_of_feed hfeed hs
    exact ⟨s', hs', hparent⟩
  constructor
  case set =>
    rw [← h.set]
    exact congrArg Config.set (feed_config hfeed)
  case seated => exact h.seated.feed hfeed
  case inStep => exact ⟨_, hin.feed hfeed⟩
  case old => exact hold
  case size => exact Nat.le_trans hsize (size_le_of_feed hfeed)
  case bound =>
    rw [h.lookupIn_eq hfeed hkeeps (.inl rfl) (by omega)]
    exact h.bound
  case parents =>
    intro i s hi hs
    by_cases hthere : i < u.scopes.size
    · have hbefore := Array.getElem?_eq_getElem hthere
      obtain ⟨s', hs', _, hparent⟩ := heading_of_feed hfeed hbefore
      obtain rfl : s = s' := Option.some.inj (hs.symm.trans hs')
      rw [hparent]
      exact h.parents i _ hi hbefore
    · obtain ⟨rfl, hparent, _⟩ := fresh_of_feed hfeed hs (by omega)
      exact ⟨u.scope, hparent, hlt, h.current⟩
  case stack =>
    have hstack := h.stack
    cases move_of_feed hfeed with
    | stays _ _ hsame =>
      rw [hsame]
      exact hstack
    | enters _ _ _ _ _ _ hopens =>
      rw [hopens]
      intro position hposition
      rcases List.mem_cons.mp hposition with rfl | hposition
      · have := hin.size_eq
        omega
      · exact hstack position hposition
    | leaves _ _ _ _ hcloses =>
      rw [hcloses] at hstack
      exact fun position hposition => hstack position (List.mem_cons_of_mem _ hposition)
  case free =>
    intro i hi hbelow
    by_cases hthere : i < u.scopes.size
    · rw [hchain hthere] at hbelow
      rw [h.lookupIn_eq hfeed hkeeps (.inr ⟨hi, hbelow⟩) hthere]
      exact h.free i hi hbelow
    · unfold ScopeTable.lookupIn
      cases hs : u'.scopes.scopes[i]? with
      | none => rfl
      | some s =>
        obtain ⟨_, _, hempty⟩ := fresh_of_feed hfeed hs (by omega)
        show s.bindings.find? name = none
        rw [hempty]
        exact Dictionary.find?_empty name

/-- The binding is kept by any lines that do not rebind the name, refused ones among them. -/
theorem feedEach (h : Kept set scope first name value u) (lines : List Line)
    (hkeeps : ∀ line ∈ lines, ¬set.Rebinds name line) :
    Kept set scope first name value (u.feedEach lines) := by
  induction lines generalizing u with
  | nil => exact h
  | cons line rest ih =>
    rw [List.forall_mem_cons] at hkeeps
    refine ih ?_ hkeeps.2
    rcases hfeed : u.feed line with ⟨fault | emitted, next⟩
    · exact h.seated.feed_error_eq hfeed ▸ h
    · exact h.feed hfeed hkeeps.1

end Kept

/-- CONST binds a name in the current scope, and no scope below it has been opened since. -/
theorem kept_of_constant {history : List Transition} (hseated : Seated t) (hin : InStep t history)
    (hk : t.set.statement? line = some .constant) (hname : line.fields[1]? = some name)
    (hfeed : t.feed line = (.ok emitted, t')) :
    ∃ literal n, line.fields[2]? = some literal ∧ Literal.parse literal = .ok n ∧
      t'.scopes.size = t.scopes.size ∧
      Kept t.set t.scope t.scopes.size name (.immediate (Int64.ofInt n)) t' := by
  obtain ⟨ops, next, hrun, hemit⟩ := feed_ok hfeed
  have ht' : t' = (next.emit line ops).2 := by rw [hemit]
  obtain ⟨keyword, operands, hfields, _, _, hprocess⟩ := on_process hk
  rw [hprocess] at hrun
  obtain ⟨other, literal, rest, n, rfl, _, hn, _, _, rfl⟩ := constant_ok hrun
  obtain rfl : other = name := by
    rw [hfields] at hname
    exact Option.some.inj hname
  have hscopes : t'.scopes = t.scopes.declare t.scope other (.immediate (Int64.ofInt n)) := by
    rw [ht']
    rfl
  have hsize : t'.scopes.size = t.scopes.size := by
    rw [hscopes]
    exact Array.size_modify ..
  have hstack : t'.definitions.stack = t.definitions.stack := by
    rw [ht']
    rfl
  have hnone {i : Nat} (hi : t.scopes.size ≤ i) : t'.scopes.scopes[i]? = none := by
    rw [← hsize] at hi
    exact Array.getElem?_eq_none hi
  refine ⟨literal, n, by rw [hfields]; rfl, hn, hsize, ?_⟩
  constructor
  case set => exact congrArg Config.set (feed_config hfeed)
  case seated => exact hseated.feed hfeed
  case inStep => exact ⟨_, hin.feed hfeed⟩
  case old => exact hin.current_lt
  case size => exact Nat.le_of_eq hsize.symm
  case bound =>
    rw [hscopes]
    exact ScopeTable.lookupIn_declare hin.current_lt _ _
  case parents =>
    intro i s hi hs
    rw [hnone hi] at hs
    cases hs
  case stack =>
    intro position hposition
    rw [hstack] at hposition
    rw [hin.current]
    exact .inl (hin.enclosed.le_scopeOf hposition)
  case free =>
    intro i hi _
    rw [ScopeTable.lookupIn, hnone hi]
    rfl

/-! ## Results -/

/-- An accepted line stores its result in a place, or creates a variable for it. -/
theorem destination_of_feed (hfeed : t.feed line = (.ok emitted, t'))
    (hdest : t.set.destination? line = some token) :
    (∃ place, t.destination token = .ok place) ∨
      ∃ name, token.stripPrefix? "$" = some name ∧ t.visible name = false := by
  obtain ⟨ops, next, hrun, _⟩ := feed_ok hfeed
  unfold InstructionSet.destination? at hdest
  split at hdest
  · next k hk =>
    obtain ⟨keyword, operands, hfields, _, _, hprocess⟩ := on_process hk
    rw [hprocess] at hrun
    rw [hfields] at hdest
    cases k with
    | constant | setAddress | unset | define | endDefine | call | condition | endCondition =>
      cases hdest
    | assign =>
      obtain ⟨dest, _, _, _, _, rfl, _, hassignee, _⟩ := assign_ok hrun
      obtain rfl : dest = token := Option.some.inj hdest
      obtain ⟨_, hplace, _⟩ | ⟨name, _, hstrip, hhidden, _⟩ := assignee_ok hassignee
      · exact .inl ⟨_, hplace⟩
      · exact .inr ⟨name, hstrip, hhidden⟩
    | add | subtract =>
      obtain ⟨_, _, place, _, dest, hoperand, hplace⟩ := arithmetic_ok (plain_ok hrun).1
      obtain rfl : dest = token := Option.some.inj (hoperand.symm.trans hdest)
      exact .inl ⟨place, hplace⟩
    | multiply | divide =>
      obtain ⟨_, _, _, place, _, dest, hoperand, hplace⟩ := wideArithmetic_ok (plain_ok hrun).1
      obtain rfl : dest = token := Option.some.inj (hoperand.symm.trans hdest)
      exact .inl ⟨place, hplace⟩
  · next hk =>
    obtain ⟨keyword, operands, code, hfields, hcode, hprocess⟩ | ⟨hnone, _⟩ :=
      on_process_of_none hk
    · rw [hprocess] at hrun
      have hcomparison : (line.fields.head? >>= t.set.conditionCode?).isSome = true := by
        rw [hfields]
        exact Option.isSome_of_eq_some hcode
      rw [if_pos hcomparison, hfields] at hdest
      obtain ⟨_, _, place, _, dest, hoperand, hplace⟩ := comparison_ok (check_ok hrun).1
      obtain rfl : dest = token := Option.some.inj (hoperand.symm.trans hdest)
      exact .inl ⟨place, hplace⟩
    · have hother : line.fields.head? >>= t.set.conditionCode? = none := by
        cases hfields : line.fields with
        | nil => rfl
        | cons keyword operands => exact (hnone keyword operands hfields).1
      rw [hother] at hdest
      cases hdest

/-- While a constant is seen, no line stores a result under its name. -/
theorem Kept.refuses {set : InstructionSet} {scope first : Nat} {n : Int64}
    (h : Kept set scope first name (.immediate n) u) (hi : u.scopes.IsUnder scope first u.scope)
    (hdest : set.destination? line = some ("$" ++ name)) :
    ∃ d, u.feed line = (.error (.rejected d), u) := by
  have hlookup := h.lookup hi
  have hstrip : Text.stripPrefix? ("$" ++ name) "$" = some name :=
    Text.stripPrefix?_eq_some_iff.mpr rfl
  rcases hfeed : u.feed line with ⟨fault | emitted, next⟩
  · obtain rfl := h.seated.feed_error_eq hfeed
    obtain ⟨d, rfl⟩ := h.seated.refused_of_feed hfeed
    exact ⟨d, rfl⟩
  · rw [← h.set] at hdest
    obtain ⟨place, hplace⟩ | ⟨other, hother, hhidden⟩ := destination_of_feed hfeed hdest
    · rw [destination, Translator.resolve, ScopeTable.resolve, hstrip] at hplace
      simp only [hlookup] at hplace
      cases hplace
    · obtain rfl : name = other := Option.some.inj (hstrip.symm.trans hother)
      rw [visible, ScopeTable.bound, hlookup] at hhidden
      cases hhidden

/-- Constants stay constant.  Take a CONST that is accepted behind any lines, and any lines behind
it with no UNSET and no SETADR about its name.  In the scope of the CONST, and in scopes that were
opened below it since, the name stands for the number from the CONST, and while one of these is the
current scope no line is accepted that has the name where its result goes. -/
theorem constants_stay_constant (config : Config) (lines later : List Line) (line : Line)
    (name : Text) (emitted : List Instr) (next : Translator)
    (hk : config.set.statement? line = some .constant) (hname : line.fields[1]? = some name)
    (hfeed : ((new config).feedEach lines).feed line = (.ok emitted, next))
    (hkeeps : ∀ other ∈ later, ¬config.set.Rebinds name other) :
    ∃ literal n, line.fields[2]? = some literal ∧ Literal.parse literal = .ok n ∧
      ∀ scope, (next.feedEach later).scopes.IsUnder ((new config).feedEach lines).scope
          next.scopes.size scope →
        (next.feedEach later).scopes.resolve scope ("$" ++ name) true =
            .ok (.immediate (Int64.ofInt n)) ∧
          ((next.feedEach later).scope = scope →
            ∀ other, config.set.destination? other = some ("$" ++ name) →
              ∃ d, (next.feedEach later).feed other =
                (.error (.rejected d), next.feedEach later)) := by
  have hseated := (seated_new config).feedEach lines
  have hset : ((new config).feedEach lines).set = config.set :=
    congrArg Config.set ((seated_new config).feedEach_config lines)
  rw [← hset] at hk
  obtain ⟨literal, n, hliteral, hn, hsize, hkept⟩ :=
    kept_of_constant hseated (inStep_feedEach config lines) hk hname hfeed
  rw [hset, ← hsize] at hkept
  have hkept := hkept.feedEach later hkeeps
  refine ⟨literal, n, hliteral, hn, fun scope hscope => ⟨?_, fun hcurrent other hother => ?_⟩⟩
  · rw [ScopeTable.resolve, Text.stripPrefix?_eq_some_iff.mpr rfl]
    simp only [hkept.lookup hscope]
  · rw [← hcurrent] at hscope
    exact hkept.refuses hscope hother

/-- A constant of a definition, seen from another definition in its body.  The lines between try to
bind the name once more, and some of them are refused. -/
theorem constant_in_nested_definitions :
    let lines : List Line := [⟨1, ["DEF", "f"], []⟩, ⟨2, ["SET", "$x", "1"], []⟩]
    let line : Line := ⟨3, ["CONST", "c", "5"], []⟩
    let later : List Line :=
      [⟨4, ["SET", "$c", "9"], []⟩, ⟨5, ["UNSET", "$x"], []⟩, ⟨6, ["DEF", "g"], []⟩,
        ⟨7, ["CONST", "c", "7"], []⟩, ⟨8, ["SETADR", "$d", "&3"], []⟩]
    let last : Line := ⟨9, ["MUL", "LOW", "1", "$d", "$c"], []⟩
    let t := (new {}).feedEach lines
    let u := (t.feed line).2.feedEach later
    t.scope = 1 ∧ u.scope = 2 ∧ u.scopes.resolve 2 "$c" true = .ok (.immediate 5) ∧
      ∃ d, u.feed last = (.error (.rejected d), u) := by
  intro lines line later last t u
  have haccepted : (t.feed line).1.toOption.isSome = true := by decide +kernel
  obtain ⟨emitted, hfeed⟩ := exists_feed_eq haccepted
  have hkeeps : ∀ other ∈ later, ¬InstructionSet.standard.Rebinds "c" other := by decide +kernel
  have hunder : u.scopes.IsUnder t.scope (t.feed line).2.scopes.size 2 :=
    .inr ⟨by decide +kernel, by decide +kernel⟩
  have hcurrent : u.scope = 2 := by decide +kernel
  obtain ⟨literal, n, hliteral, hn, hconstant⟩ := constants_stay_constant {} lines later line "c"
    emitted _ (by decide +kernel) rfl hfeed hkeeps
  obtain rfl : ("5" : Text) = literal := Option.some.inj hliteral
  have hfive : Literal.parse "5" = .ok 5 := by decide +kernel
  obtain rfl : 5 = n := Except.ok.inj (hfive.symm.trans hn)
  obtain ⟨hresolve, hrefused⟩ := hconstant 2 hunder
  exact ⟨by decide +kernel, hcurrent, hresolve, hrefused hcurrent last (by decide +kernel)⟩

end Translator

end AccuAsm
