import AccuAsm.CommandLine.Run
import AccuAsm.Proofs.Files
import AccuAsm.Proofs.Listing
import AccuAsm.Proofs.Remarks

/-!
# From a source to an image

`build` writes the image of a source, or its listing, from which `pack` makes an image.  Both
ways lead to the same bytes.

There are four groups.

* Actions.  `Action.on` is the outcome of an action on a console, with a lemma for each thing an
  action can do.  `Action.Quiet` actions leave the files alone.
* Files of a command.  `Delivers` says that a file has some content in the end, unless the
  files could not be written.
* Commands.  `translated` is what both formats of `build` have in common.
* Agreement.  `image_of_listing` puts the parts together.
-/

namespace AccuAsm

namespace CommandLine

/-! ## Actions -/

namespace Action

variable {α β : Type} {c c' : Console}

/-- The result of an action on a console, and the console behind it. -/
def on (action : Action α) (c : Console) : Except Text α × Console := ExceptT.run action c

theorem on_bind (x : Action α) (f : α → Action β) (c : Console) :
    on (x >>= f) c =
      match on x c with
      | (.ok a, next) => on (f a) next
      | (.error message, next) => (.error message, next) := by
  show StateT.bind (ExceptT.run x) (ExceptT.bindCont f) c = _
  unfold StateT.bind on
  rcases ExceptT.run x c with ⟨message | a, next⟩ <;> rfl

theorem on_bind_of_ok {x : Action α} {f : α → Action β} {a : α} (h : on x c = (.ok a, c')) :
    on (x >>= f) c = on (f a) c' := by
  rw [on_bind, h]

theorem on_bind_of_error {x : Action α} {f : α → Action β} {message : Text}
    (h : on x c = (.error message, c')) : on (x >>= f) c = (.error message, c') := by
  rw [on_bind, h]

theorem on_bind_ok {x : Action α} {f : α → Action β} {b : β} (h : on (x >>= f) c = (.ok b, c')) :
    ∃ a next, on x c = (.ok a, next) ∧ on (f a) next = (.ok b, c') := by
  rw [on_bind] at h
  rcases hx : on x c with ⟨message | a, next⟩
  · simp [hx] at h
  · rw [hx] at h
    exact ⟨a, next, rfl, h⟩

theorem on_ofExcept_ok {ε : Type} (message : ε → Text) (a : α) (c : Console) :
    on (ofExcept message (.ok a)) c = (.ok a, c) := rfl

theorem on_ofExcept_error {ε : Type} (message : ε → Text) (e : ε) (c : Console) :
    on (ofExcept message (.error e) : Action α) c = (.error (message e), c) := rfl

theorem ofExcept_ok {ε : Type} {message : ε → Text} {x : Except ε α} {a : α}
    (h : on (ofExcept message x) c = (.ok a, c')) : x = .ok a ∧ c' = c := by
  cases x with
  | ok b =>
    cases h
    exact ⟨rfl, rfl⟩
  | error e => cases h

theorem on_readFile (message : Text → Text) (path : Text) (c : Console) :
    on (readFile message path) c =
      on (ofExcept (fun e : FileError => message e.message) (c.storage.read path)) c := rfl

theorem on_writeFile_ok {message : Text → Text} {path content : Text} {s : Storage}
    (h : c.storage.write path content = .ok s) :
    on (writeFile message path content) c = (.ok (), { c with storage := s }) := by
  show on (ofExcept _ (c.storage.write path content) >>= _) c = _
  rw [h]
  rfl

theorem on_writeFile_error {message : Text → Text} {path content : Text} {e : FileError}
    (h : c.storage.write path content = .error e) :
    on (writeFile message path content) c = (.error (message e.message), c) := by
  show on (ofExcept _ (c.storage.write path content) >>= _) c = _
  rw [h]
  rfl

theorem writeFile_ok {message : Text → Text} {path content : Text}
    (h : on (writeFile message path content) c = (.ok (), c')) :
    c.storage.write path content = .ok c'.storage := by
  cases hwrite : c.storage.write path content with
  | ok s =>
    rw [on_writeFile_ok hwrite] at h
    cases h
    rfl
  | error e =>
    rw [on_writeFile_error hwrite] at h
    cases h

/-- An action that leaves the files alone. -/
def Quiet (action : Action α) : Prop := ∀ c, (on action c).2.storage = c.storage

theorem Quiet.storage_eq {x : Action α} {result : Except Text α} (h : Quiet x)
    (hon : on x c = (result, c')) : c'.storage = c.storage := by
  have hquiet := h c
  rwa [hon] at hquiet

theorem Quiet.bind {x : Action α} {f : α → Action β} (hx : Quiet x) (hf : ∀ a, Quiet (f a)) :
    Quiet (x >>= f) := by
  intro c
  rw [on_bind]
  rcases hon : on x c with ⟨message | a, next⟩
  · exact hx.storage_eq hon
  · exact (hf a next).trans (hx.storage_eq hon)

theorem quiet_pure (a : α) : Quiet (pure a : Action α) := fun _ => rfl

theorem quiet_ofExcept {ε : Type} (message : ε → Text) (x : Except ε α) :
    Quiet (ofExcept message x) := by
  intro c
  cases x <;> rfl

theorem quiet_readFile (message : Text → Text) (path : Text) : Quiet (readFile message path) := by
  intro c
  rw [on_readFile]
  exact quiet_ofExcept _ _ c

/-- An action that always succeeds and leaves the files alone. -/
def Harmless (action : Action Unit) : Prop :=
  ∀ c, ∃ c', on action c = (.ok (), c') ∧ c'.storage = c.storage

theorem Harmless.quiet {action : Action Unit} (h : Harmless action) : Quiet action := by
  intro c
  obtain ⟨c', hon, hstorage⟩ := h c
  rw [hon]
  exact hstorage

theorem Harmless.bind {x y : Action Unit} (hx : Harmless x) (hy : Harmless y) :
    Harmless (x >>= fun _ => y) := by
  intro c
  obtain ⟨c₁, hon₁, hstorage₁⟩ := hx c
  obtain ⟨c₂, hon₂, hstorage₂⟩ := hy c₁
  exact ⟨c₂, (on_bind_of_ok hon₁).trans hon₂, hstorage₂.trans hstorage₁⟩

theorem harmless_pure : Harmless (pure ()) := fun c => ⟨c, rfl, rfl⟩

theorem harmless_print (text : Text) : Harmless (print text) := fun c => ⟨c.print text, rfl, rfl⟩

theorem harmless_log (verbose : Bool) (text : Text) : Harmless (log verbose text) := by
  intro c
  unfold log
  cases verbose
  · exact ⟨c, rfl, rfl⟩
  · exact ⟨_, rfl, rfl⟩

end Action

open AccuAsm.CommandLine.Action

/-! ## Files of a command -/

/-- In the end a file has this content, unless a file could not be written. -/
def Delivers (action : Action Unit) (c : Console) (path content : Text) : Prop :=
  (∃ c', on action c = (.ok (), c') ∧ c'.storage.read path = .ok content) ∨
    ∃ c' target cause, on action c = (.error (writeFailure target cause), c')

theorem Delivers.of_on {action action' : Action Unit} {c c' : Console} {path content : Text}
    (h : Delivers action' c' path content) (hon : on action c = on action' c') :
    Delivers action c path content := by
  unfold Delivers at h ⊢
  rwa [hon]

/-- The command ends because there is no image. -/
def Refuses (action : Action Unit) (c : Console) : Prop :=
  ∃ (fault : ImageFault) (c' : Console),
    on action c = (.error ("packing failed: " ++ fault.message), c')

theorem delivers_image {before : Action Unit} {after : Text → Action Unit}
    (hbefore : Harmless before) (hafter : ∀ path, Harmless (after path)) (c : Console)
    (output content : Text) (map : SourceMap) :
    Delivers (do
      Action.writeFile (writeFailure output) output content
      before
      let path ← writeSourceMap output map
      after path) c output content := by
  cases hwrite : c.storage.write output content with
  | error e => exact .inr ⟨c, output, e.message, on_bind_of_error (on_writeFile_error hwrite)⟩
  | ok s =>
    obtain ⟨c₁, hon₁, hstorage₁⟩ := hbefore { c with storage := s }
    unfold Delivers
    rw [on_bind_of_ok (on_writeFile_ok hwrite), on_bind_of_ok hon₁]
    cases hmap : s.write (Path.withExtension output ".map") map.text with
    | error e =>
      refine .inr ⟨c₁, Path.withExtension output ".map", e.message, on_bind_of_error ?_⟩
      exact on_bind_of_error (on_writeFile_error (hstorage₁ ▸ hmap))
    | ok s' =>
      have hsource : on (writeSourceMap output map) c₁ =
          (.ok (Path.withExtension output ".map"), { c₁ with storage := s' }) :=
        on_bind_of_ok (on_writeFile_ok (hstorage₁ ▸ hmap))
      obtain ⟨c₂, hon₂, hstorage₂⟩ :=
        hafter (Path.withExtension output ".map") { c₁ with storage := s' }
      refine .inl ⟨c₂, (on_bind_of_ok hsource).trans hon₂, ?_⟩
      rw [hstorage₂]
      exact Storage.read_write_beside (show Text.ofString ".map" ≠ [] by decide)
        (show Path.slash ∉ Text.ofString ".map" by decide) hwrite hmap

/-! ## Commands -/

/-- The part of `build` that does not depend on the format: the input and its words. -/
def translated (o : Options) : Action (Text × List Word) := do
  let config ← configure o
  let input ← inputPath o
  let source ← Action.readFile (readFailure input) input
  Action.log o.verbose ("translating " ++ input)
  let (t, words) ← Action.ofExcept (fun f : Fault => "translation failed: " ++ f.message)
    (compile config source)
  Action.log o.verbose (Numeral.ofNat words.length ++ " instructions, " ++
    Numeral.ofNat t.memory.used ++ " RAM cells, " ++ Numeral.ofNat t.definitions.all.length ++
    " definitions")
  return (input, words)

/-- The last words of `build`. -/
def report (o : Options) (words : List Word) (output : Text) : Action Unit :=
  Action.print ("translated " ++ Numeral.ofNat words.length ++ " instructions -> " ++
    Style.green.paint (!o.noColour) output ++ "\n")

theorem build_text (o : Options) : build { o with format := "text" } = (do
    let (input, words) ← translated o
    Action.writeFile (writeFailure (outputPath o input ".tc")) (outputPath o input ".tc")
      (listingText words)
    report o words (outputPath o input ".tc")) := by
  have hformat : Text.ofString "text" ≠ Text.ofString "bin" := by decide
  unfold build translated
  simp only [ne_eq, not_true, false_and, if_false, hformat, bind_assoc, pure_bind]
  rfl

theorem build_bin (o : Options) : build { o with format := "bin" } = (do
    let (input, words) ← translated o
    let image ← Action.ofExcept (fun f : ImageFault => "packing failed: " ++ f.message)
      (Image.pack words)
    Action.writeFile (writeFailure (outputPath o input ".bin")) (outputPath o input ".bin")
      image.bytes.toList
    report o words (outputPath o input ".bin")
    let path ← writeSourceMap (outputPath o input ".bin") image.map
    Action.log o.verbose ("source map -> " ++ path)) := by
  unfold build translated
  simp only [ne_eq, not_true, and_false, if_false, if_true, bind_assoc, pure_bind]
  rfl

theorem quiet_configure (o : Options) : Quiet (configure o) := by
  unfold configure
  split
  · exact quiet_pure _
  · refine (quiet_readFile _ _).bind fun document => ?_
    refine (quiet_ofExcept _ _).bind fun set => ?_
    exact (harmless_log _ _).quiet.bind fun _ => quiet_pure _

/-- The path of the input of a command. -/
def inputOf (o : Options) (c : Console) : Text :=
  Path.absolute c.storage.workingDirectory (o.positional.headD [])

theorem on_inputPath (o : Options) (c : Console) :
    on (inputPath o) c = (.ok (inputOf o c), c) := rfl

theorem quiet_translated (o : Options) : Quiet (translated o) := by
  refine (quiet_configure o).bind fun config => ?_
  refine Quiet.bind (fun _ => rfl) fun input => ?_
  refine (quiet_readFile _ _).bind fun source => ?_
  refine (harmless_log _ _).quiet.bind fun _ => ?_
  refine (quiet_ofExcept _ _).bind fun result => ?_
  exact (harmless_log _ _).quiet.bind fun _ => quiet_pure _

/-- A source that was translated has words without line ends in their comments, and no file has
changed. -/
theorem translated_ok {o : Options} {c c' : Console} {input : Text} {words : List Word}
    (h : on (translated o) c = (.ok (input, words), c')) :
    input = inputOf o c ∧ c'.storage = c.storage ∧ ∀ w ∈ words, Text.newline ∉ w.comment := by
  have hstorage := (quiet_translated o).storage_eq h
  unfold translated at h
  obtain ⟨config, c₁, hconfigure, h⟩ := on_bind_ok h
  rw [on_bind_of_ok (on_inputPath o c₁)] at h
  obtain ⟨source, c₂, _, h⟩ := on_bind_ok h
  obtain ⟨_, c₃, _, h⟩ := on_bind_ok h
  obtain ⟨⟨t, found⟩, c₄, hcompile, h⟩ := on_bind_ok h
  obtain ⟨_, c₅, _, h⟩ := on_bind_ok h
  cases h
  refine ⟨?_, hstorage, newline_notMem_of_compile (ofExcept_ok hcompile).1⟩
  rw [inputOf, (quiet_configure o).storage_eq hconfigure, inputOf]

/-! ## Agreement -/

section Agreement

variable {words : List Word}

/-- The two images of words, which differ in their lines only. -/
theorem exists_images (h : ∀ w ∈ words, Text.newline ∉ w.comment) (hwords : Packable words) :
    ∃ listed packed, Image.assemble (listingText words) = .ok listed ∧
      Image.pack words = .ok packed ∧ listed.bytes = packed.bytes :=
  ⟨_, _, (Image.assemble_eq_ok_iff h _).mpr ⟨hwords, rfl⟩,
    (Image.pack_eq_ok_iff words _).mpr ⟨hwords, rfl⟩, Image.bytes_ofWords_eq⟩

theorem exists_faults (h : ∀ w ∈ words, Text.newline ∉ w.comment) (hwords : ¬Packable words) :
    ∃ fault fault', Image.assemble (listingText words) = .error fault ∧
      Image.pack words = .error fault' := by
  cases hassemble : Image.assemble (listingText words) with
  | ok image => exact absurd ((Image.assemble_eq_ok_iff h image).mp hassemble).1 hwords
  | error fault =>
    cases hpack : Image.pack words with
    | ok image => exact absurd ((Image.pack_eq_ok_iff words image).mp hpack).1 hwords
    | error fault' => exact ⟨fault, fault', rfl, rfl⟩

/-- `pack` on a file that holds a listing. -/
theorem on_pack {p : Options} {c : Console} {listing : Text}
    (h : c.storage.read (inputOf p c) = .ok listing) : on (pack p) c = on (do
      let image ← Action.ofExcept (fun f : ImageFault => "packing failed: " ++ f.message)
        (Image.assemble listing)
      Action.writeFile (writeFailure (outputPath p (inputOf p c) ".bin"))
        (outputPath p (inputOf p c) ".bin") image.bytes.toList
      pure ()
      let path ← writeSourceMap (outputPath p (inputOf p c) ".bin") image.map
      do
        Action.log p.verbose ("source map -> " ++ path)
        Action.print ("packed " ++ Numeral.ofNat image.bytes.size ++ " bytes -> " ++
          Style.green.paint (!p.noColour) (outputPath p (inputOf p c) ".bin") ++ "\n")) c := by
  have hread : on (Action.readFile (readFailure (inputOf p c)) (inputOf p c)) c =
      (.ok listing, c) := by
    rw [on_readFile, h]
    rfl
  unfold pack
  rw [on_bind_of_ok (on_inputPath p c), on_bind_of_ok hread]

/-- `build` for an image of a source that was translated. -/
theorem on_build_bin {o : Options} {c c' : Console} {input : Text}
    (h : on (translated o) c = (.ok (input, words), c')) :
    on (build { o with format := "bin" }) c = on (do
      let image ← Action.ofExcept (fun f : ImageFault => "packing failed: " ++ f.message)
        (Image.pack words)
      Action.writeFile (writeFailure (outputPath o input ".bin")) (outputPath o input ".bin")
        image.bytes.toList
      report o words (outputPath o input ".bin")
      let path ← writeSourceMap (outputPath o input ".bin") image.map
      Action.log o.verbose ("source map -> " ++ path)) c' := by
  rw [build_bin, on_bind_of_ok h]

/-- Where there is an image, both commands write its bytes.  Otherwise both end without one. -/
theorem pack_of_build {o p : Options} {c c₁ : Console}
    (hbuild : on (build { o with format := "text" }) c = (.ok (), c₁))
    (hfile : c₁.storage.read (inputOf p c₁) = c₁.storage.read (outputPath o (inputOf o c) ".tc")) :
    (∃ bytes, Delivers (pack p) c₁ (outputPath p (inputOf p c₁) ".bin") bytes ∧
      Delivers (build { o with format := "bin" }) c (outputPath o (inputOf o c) ".bin") bytes) ∨
    Refuses (pack p) c₁ ∧ Refuses (build { o with format := "bin" }) c := by
  rw [build_text] at hbuild
  obtain ⟨⟨input, words⟩, c₂, htranslated, hbuild⟩ := on_bind_ok hbuild
  obtain ⟨rfl, hstorage, hcomments⟩ := translated_ok htranslated
  obtain ⟨_, c₃, hwrite, hreport⟩ := on_bind_ok hbuild
  have hlisting : c₁.storage.read (inputOf p c₁) = .ok (listingText words) := by
    rw [hfile, (harmless_print _).quiet.storage_eq hreport]
    exact (Storage.read_write (writeFile_ok hwrite)).1
  have hpack := on_pack hlisting
  have hbin := on_build_bin htranslated
  by_cases hwords : Packable words
  · obtain ⟨listed, packed, hassemble, hpacked, hbytes⟩ := exists_images hcomments hwords
    rw [hassemble, on_bind_of_ok (on_ofExcept_ok _ _ _)] at hpack
    rw [hpacked, on_bind_of_ok (on_ofExcept_ok _ _ _), ← hbytes] at hbin
    refine .inl ⟨listed.bytes.toList, ?_, ?_⟩
    · refine (delivers_image harmless_pure (fun path => ?_) c₁ _ _ _).of_on hpack
      exact (harmless_log _ _).bind (harmless_print _)
    · refine (delivers_image (harmless_print _) (fun path => ?_) c₂ _ _ _).of_on hbin
      exact harmless_log _ _
  · obtain ⟨fault, fault', hassemble, hpacked⟩ := exists_faults hcomments hwords
    rw [hassemble, on_bind_of_error (on_ofExcept_error _ _ _)] at hpack
    rw [hpacked, on_bind_of_error (on_ofExcept_error _ _ _)] at hbin
    exact .inr ⟨⟨fault, c₁, hpack⟩, ⟨fault', c₂, hbin⟩⟩

/-- The listing of words and the words themselves give the same image.  There is one if and only if
every word has an address and every number is a byte.  The words of a source have comments on
one line, so `build` and `pack` write the image that `build` writes for the other format. -/
theorem image_of_listing :
    (∀ words : List Word, (∀ w ∈ words, Text.newline ∉ w.comment) →
      ((∃ image, Image.assemble (listingText words) = .ok image) ↔ Packable words) ∧
      ((∃ image, Image.pack words = .ok image) ↔ Packable words) ∧
      ∀ listed packed, Image.assemble (listingText words) = .ok listed →
        Image.pack words = .ok packed → listed.bytes = packed.bytes ∧
          listed.Shows words (fun _ index => (index + 1 : Nat)) ∧
          packed.Shows words (fun w _ => w.line)) ∧
    (∀ config source outcome t words, (Translator.new config).run source = (outcome, t) →
      t.program.resolve = .ok words → ∀ w ∈ words, Text.newline ∉ w.comment) ∧
    ∀ (o p : Options) (c c₁ : Console),
      on (build { o with format := "text" }) c = (.ok (), c₁) →
      c₁.storage.read (inputOf p c₁) = c₁.storage.read (outputPath o (inputOf o c) ".tc") →
        (∃ bytes, Delivers (pack p) c₁ (outputPath p (inputOf p c₁) ".bin") bytes ∧
          Delivers (build { o with format := "bin" }) c (outputPath o (inputOf o c) ".bin")
            bytes) ∨
        Refuses (pack p) c₁ ∧ Refuses (build { o with format := "bin" }) c := by
  refine ⟨?_, ?_, ?_⟩
  · intro words hcomments
    have hassemble := Image.assemble_eq_ok_iff hcomments
    have hpack := Image.pack_eq_ok_iff words
    refine ⟨⟨?_, ?_⟩, ⟨?_, ?_⟩, ?_⟩
    · rintro ⟨image, himage⟩
      exact ((hassemble image).mp himage).1
    · intro hwords
      exact ⟨_, (hassemble _).mpr ⟨hwords, rfl⟩⟩
    · rintro ⟨image, himage⟩
      exact ((hpack image).mp himage).1
    · intro hwords
      exact ⟨_, (hpack _).mpr ⟨hwords, rfl⟩⟩
    · intro listed packed hlisted hpacked
      obtain ⟨hwords, rfl⟩ := (hassemble listed).mp hlisted
      obtain ⟨_, rfl⟩ := (hpack packed).mp hpacked
      exact ⟨Image.bytes_ofWords_eq, Image.shows_ofWords hwords.1, Image.shows_ofWords hwords.1⟩
  · intro config source outcome t words hrun hresolve w hw
    exact (Translator.remarked_run hrun).newline_notMem_comment hresolve hw
  · intro o p c c₁ hbuild hfile
    exact pack_of_build hbuild hfile

end Agreement

end CommandLine

end AccuAsm
