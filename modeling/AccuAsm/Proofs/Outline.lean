import AccuAsm.Proofs.Nesting

/-!
# The tree of blocks

The lines of a source as a tree: plain lines, and blocks with the lines that open and
close them.  The translator never builds it.

* `Outline.ofLines` reads the tree off the roles of the lines, and `lines_of_ofLines`
  says that no line is lost.
* `Outline.exists_ofLines` is the main result: a source that is accepted to its end has
  a tree.  The step is `exists_build`, an induction over the lines that keeps the open
  blocks in line with the closing lines that are still to come.
-/

namespace AccuAsm

/-- Lines as a tree of blocks.  Every line has the role that its place in the tree asks for. -/
inductive Outline where
  /-- No line. -/
  | nil
  /-- A line that neither opens nor closes a block. -/
  | plain (line : Line) (hrole : line.role = .plain) (rest : Outline)
  /-- A block with the lines that open and close it. -/
  | block (kind : BlockKind) (head : Line) (hhead : head.role = .opens kind) (body : Outline)
      (tail : Line) (htail : tail.role = .closes kind) (rest : Outline)

namespace Outline

/-- The lines from top to bottom. -/
def lines : Outline → List Line
  | nil => []
  | plain line _ rest => line :: rest.lines
  | block _ head _ body tail _ rest => head :: (body.lines ++ tail :: rest.lines)

/-- A closing line whose block was opened further up, and the lines behind it. -/
structure Ending where
  /-- The kind of the block. -/
  kind : BlockKind
  /-- The closing line. -/
  line : Line
  /-- It closes a block of the kind. -/
  closes : line.role = .closes kind
  /-- The lines up to the next closing line without an opening one. -/
  after : Outline

/-- The tree of the lines up to the first closing line without an opening one, and the endings
from there on.  Lines are added from the last one to the first. -/
def build : List Line → Option (Outline × List Ending)
  | [] => some (nil, [])
  | line :: rest =>
    match build rest with
    | none => none
    | some (current, endings) =>
      match hrole : line.role with
      | .plain => some (plain line hrole current, endings)
      | .closes kind => some (nil, ⟨kind, line, hrole, current⟩ :: endings)
      | .opens kind =>
        match endings with
        | [] => none
        | ending :: endings =>
          if hkind : ending.kind = kind then
            some (block kind line hrole current ending.line (hkind ▸ ending.closes) ending.after,
              endings)
          else none

/-- The tree of all lines, if every block is opened and closed. -/
def ofLines (lines : List Line) : Option Outline :=
  match build lines with
  | some (outline, []) => some outline
  | _ => none

/-- No line is lost on the way to the tree. -/
theorem lines_of_build {lines : List Line} {outline : Outline} {endings : List Ending}
    (h : build lines = some (outline, endings)) :
    outline.lines ++ endings.flatMap (fun e => e.line :: e.after.lines) = lines := by
  induction lines generalizing outline endings with
  | nil =>
    simp only [build, Option.some.injEq, Prod.mk.injEq] at h
    obtain ⟨rfl, rfl⟩ := h
    rfl
  | cons line rest ih =>
    rw [build] at h
    split at h
    · simp at h
    · next current pending hrest =>
      have hlines := ih hrest
      split at h
      · simp only [Option.some.injEq, Prod.mk.injEq] at h
        obtain ⟨rfl, rfl⟩ := h
        simp [Outline.lines, hlines]
      · simp only [Option.some.injEq, Prod.mk.injEq] at h
        obtain ⟨rfl, rfl⟩ := h
        simpa [Outline.lines] using hlines
      · split at h
        · simp at h
        · next ending others =>
          split at h
          · simp only [Option.some.injEq, Prod.mk.injEq] at h
            obtain ⟨rfl, rfl⟩ := h
            simpa [Outline.lines] using hlines
          · simp at h

theorem lines_of_ofLines {lines : List Line} {outline : Outline}
    (h : ofLines lines = some outline) : outline.lines = lines := by
  rw [ofLines] at h
  split at h
  · next other hbuild =>
    rw [Option.some.injEq] at h
    subst h
    simpa using lines_of_build hbuild
  · simp at h

open Translator in
/-- The lines that are accepted from some state to the end of a source have a tree.  Each block that
is open in front of them has its ending, in the same order. -/
theorem exists_build {t t' : Translator} {stack : List OpenBlock} {lines : List Line}
    {program : Program} (hnested : Nested t stack) (hseated : Seated t)
    (hseparate : t.set.Separate) (hrun : t.feedAll lines = (.ok (), t'))
    (hfinish : t'.finish = .ok program) :
    ∃ outline endings, build lines = some (outline, endings) ∧
      endings.map (·.kind) = stack.map (·.kind) := by
  induction lines generalizing t stack with
  | nil =>
    simp only [feedAll, Prod.mk.injEq, true_and] at hrun
    subst hrun
    cases stack with
    | nil => exact ⟨nil, [], rfl, rfl⟩
    | cons b rest =>
      obtain ⟨d, _, herror, _⟩ := hnested.finish_open (by simp)
      simp [hfinish] at herror
  | cons line rest ih =>
    -- the tree grows from the last line to the first, the blocks from the first to the last
    obtain ⟨instrs, next, hfeed, hrest⟩ := feedAll_cons_ok hrun
    have hset : next.set = t.set := congrArg Config.set (feed_config hfeed)
    obtain ⟨outline, endings, hbuild, hkinds⟩ :=
      ih (hnested.feed hseparate hfeed) (hseated.feed hfeed) (hset ▸ hseparate) hrest
    rw [advance] at hkinds
    simp only [build, hbuild]
    split
    · next hrole =>
      rw [hrole] at hkinds
      exact ⟨_, _, rfl, hkinds⟩
    · next kind hrole =>
      have htop := (hnested.close hseated hseparate hrole).iff.1.mp ⟨instrs, next, hfeed⟩
      cases stack with
      | nil => simp at htop
      | cons b others =>
        simp only [List.head?_cons, Option.map_some, Option.some.injEq] at htop
        simp only [hrole, List.tail_cons] at hkinds
        exact ⟨_, _, rfl, by simp [hkinds, htop]⟩
    · next kind hrole =>
      simp only [hrole, List.map_cons] at hkinds
      cases endings with
      | nil => simp at hkinds
      | cons ending others =>
        simp only [List.map_cons, List.cons.injEq] at hkinds
        simp only [dif_pos hkinds.1]
        exact ⟨_, _, rfl, hkinds.2⟩

/-- A source that is accepted to its end has a tree. -/
theorem exists_ofLines {config : Config} {lines : List Line} {t' : Translator} {program : Program}
    (hseparate : config.set.Separate)
    (hrun : (Translator.new config).feedAll lines = (.ok (), t'))
    (hfinish : t'.finish = .ok program) : ∃ outline, ofLines lines = some outline := by
  obtain ⟨outline, endings, hbuild, hkinds⟩ := exists_build (Translator.nested_new config)
    (Translator.seated_new config) hseparate hrun hfinish
  have hnil : endings = [] := by simpa using hkinds
  subst hnil
  exact ⟨outline, by rw [ofLines, hbuild]⟩

end Outline

end AccuAsm
