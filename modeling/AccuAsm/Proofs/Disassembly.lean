import AccuAsm.Proofs.Listing
import AccuAsm.Proofs.Steps

/-!
# Images, read back

The listing of an image has one line for each four bytes, with a number for each of them.
It is the canonical one among all listings that have this image: numbers in any base, signs,
comments and blank lines are gone, and the image of it is the image that it was read from.

There are three groups.

* Words of bytes.  `Word.ofBytes` is the word of four bytes and `wordsOf` the words of an
  image.  `disassemble_eq_ok_iff` says that the listing of an image is the listing of its
  words, so that everything that is known of listings of words applies to it.
* Images of listings.  `Sized.addLine` is the step lemma and `sized_of_assemble` the run
  lemma: every image has complete instructions, and not more of them than there are
  addresses.
* Both ways.  `assemble_listing_of_bytes` makes an image from its own listing, and
  `listing_of_image` puts the parts together.
-/

namespace AccuAsm

/-! ## Words of bytes -/

/-- The number of a byte. -/
def byteNumber (byte : UInt8) : Int64 := Int64.ofNat byte.toNat

theorem toInt_byteNumber (byte : UInt8) : (byteNumber byte).toInt = byte.toNat := by
  have hbyte := byte.toNat_lt
  exact Int64.toInt_ofNat_of_lt (by omega)

theorem lowByte_byteNumber (byte : UInt8) : lowByte (byteNumber byte) = byte := by
  have hbyte := byte.toNat_lt
  unfold lowByte
  rw [toInt_byteNumber, show ((byte.toNat : Int) % 256).toNat = byte.toNat by omega]
  exact UInt8.ofNat_toNat

/-- A number that is reduced to a byte and written again. -/
theorem byteNumber_lowByte (n : Int64) : byteNumber (lowByte n) = Int64.ofInt (n.toInt % 256) := by
  have hlow : (lowByte n).toNat = (n.toInt % 256).toNat :=
    UInt8.toNat_ofNat_of_lt' (by rw [UInt8.size]; omega)
  unfold byteNumber
  rw [hlow, ← Int64.ofInt_eq_ofNat, Int.toNat_of_nonneg (by omega)]

theorem ofWord_byteNumber (byte : UInt8) :
    Numeral.ofWord (byteNumber byte) = Numeral.ofNat byte.toNat := by
  unfold Numeral.ofWord Numeral.ofNat Numeral.decimal
  rw [toInt_byteNumber, if_neg (by omega), Int.natAbs_natCast]

namespace Word

/-- The word of four bytes. -/
def ofBytes (a b c d : UInt8) : Word where
  opcode := byteNumber a
  args := ⟨byteNumber b, byteNumber c, byteNumber d⟩

/-- The word with every number reduced to a byte, and without its comment. -/
def reduced (w : Word) : Word where
  opcode := Int64.ofInt (w.opcode.toInt % 256)
  args := w.args.map fun n => Int64.ofInt (n.toInt % 256)

variable (a b c d : UInt8)

theorem bytes_ofBytes : (ofBytes a b c d).bytes = [a, b, c, d] := by
  simp [bytes, fields, ofBytes, Args.toList, lowByte_byteNumber]

theorem fits_ofBytes : (ofBytes a b c d).Fits := by
  intro n hn
  have hbyte : ∃ byte, n = byteNumber byte := by
    simp only [fields, ofBytes, Args.toList, List.mem_cons, List.not_mem_nil, or_false] at hn
    rcases hn with rfl | rfl | rfl | rfl <;> exact ⟨_, rfl⟩
  obtain ⟨byte, rfl⟩ := hbyte
  have := byte.toNat_lt
  rw [toInt_byteNumber]
  omega

theorem text_ofBytes : (ofBytes a b c d).text =
    Text.joinWith " " ([a, b, c, d].map fun byte => Numeral.ofNat byte.toNat) := by
  have hspace : Text.ofString " " = [Text.space] := rfl
  simp [text, renderFields, ofBytes, Args.map, Args.toList, ofWord_byteNumber, Text.joinWith,
    hspace, List.intercalate]

theorem reduced_eq (w : Word) :
    w.reduced = ofBytes (lowByte w.opcode) (lowByte w.args.left) (lowByte w.args.right)
      (lowByte w.args.dest) := by
  simp only [reduced, ofBytes, byteNumber_lowByte, Args.map]

end Word

/-- The words of an image.  Bytes behind the last complete instruction are left out. -/
def wordsOf : List UInt8 → List Word
  | a :: b :: c :: d :: rest => .ofBytes a b c d :: wordsOf rest
  | _ => []

/-- What is not at least one instruction has less than four bytes. -/
theorem length_lt_four {bytes : List UInt8}
    (h : ∀ a b c d rest, bytes = a :: b :: c :: d :: rest → False) : bytes.length < 4 := by
  match bytes with
  | [] | [_] | [_, _] | [_, _, _] => simp
  | a :: b :: c :: d :: rest => exact absurd rfl (h a b c d rest)

theorem length_wordsOf (bytes : List UInt8) : (wordsOf bytes).length = bytes.length / 4 := by
  fun_induction wordsOf bytes with
  | case1 a b c d rest ih =>
    simp only [List.length_cons, ih]
    omega
  | case2 bytes hshort =>
    have := length_lt_four hshort
    rw [List.length_nil]
    omega

theorem flatMap_bytes_wordsOf {bytes : List UInt8} (h : bytes.length % 4 = 0) :
    (wordsOf bytes).flatMap Word.bytes = bytes := by
  fun_induction wordsOf bytes with
  | case1 a b c d rest ih =>
    simp only [List.length_cons] at h
    rw [List.flatMap_cons, Word.bytes_ofBytes, ih (by omega)]
    rfl
  | case2 bytes hshort =>
    have := length_lt_four hshort
    have hnil : bytes = [] := List.eq_nil_of_length_eq_zero (by omega)
    rw [hnil, List.flatMap_nil]

theorem wordsOf_flatMap_bytes (words : List Word) :
    wordsOf (words.flatMap Word.bytes) = words.map Word.reduced := by
  induction words with
  | nil => rfl
  | cons w rest ih =>
    rw [List.flatMap_cons, List.map_cons, Word.reduced_eq, ← ih]
    rfl

theorem mem_wordsOf {bytes : List UInt8} {w : Word} (h : w ∈ wordsOf bytes) :
    ∃ a b c d, w = .ofBytes a b c d := by
  fun_induction wordsOf bytes with
  | case1 a b c d rest ih =>
    rcases List.mem_cons.mp h with rfl | h
    · exact ⟨a, b, c, d, rfl⟩
    · exact ih h
  | case2 => cases h

theorem packable_wordsOf {bytes : List UInt8} (h : bytes.length % 4 = 0) :
    Packable (wordsOf bytes) ↔ bytes.length ≤ 65536 := by
  have hfits : ∀ w ∈ wordsOf bytes, w.Fits := by
    intro w hw
    obtain ⟨a, b, c, d, rfl⟩ := mem_wordsOf hw
    exact Word.fits_ofBytes a b c d
  unfold Packable
  rw [length_wordsOf]
  constructor
  · rintro ⟨hlength, _⟩
    omega
  · intro hlength
    exact ⟨by omega, hfits⟩

theorem newline_notMem_wordsOf {bytes : List UInt8} :
    ∀ w ∈ wordsOf bytes, Text.newline ∉ w.comment := by
  intro w hw
  obtain ⟨a, b, c, d, rfl⟩ := mem_wordsOf hw
  exact List.not_mem_nil

namespace Image

theorem flatten_listingLines (bytes : List UInt8) :
    (listingLines bytes).flatten = listingText (wordsOf bytes) := by
  fun_induction wordsOf bytes with
  | case1 a b c d rest ih =>
    have hnewline : Text.ofString "\n" = [Text.newline] := rfl
    rw [listingLines, List.flatten_cons, ih, listingText, listingText, List.flatMap_cons,
      Word.text_ofBytes, hnewline]
  | case2 bytes hshort =>
    rw [listingLines]
    · rfl
    · exact hshort

/-- The listing of an image is the listing of its words. -/
theorem disassemble_eq_ok_iff (bytes : List UInt8) (text : Text) :
    disassemble bytes = .ok text ↔ bytes.length % 4 = 0 ∧ text = listingText (wordsOf bytes) := by
  unfold disassemble instructionWidth
  rw [flatten_listingLines]
  by_cases h : bytes.length % 4 = 0
  · simp [h, eq_comm]
  · simp [h]

/-! ## Images of listings -/

/-- Instructions are complete, and there is an address for each byte. -/
def Sized (image : Image) : Prop := image.bytes.size % 4 = 0 ∧ image.bytes.size ≤ 65536

/-- What one line of a listing does to the size. -/
theorem Sized.addLine {image image' : Image} {line : Nat} {content : Text} (h : image.Sized)
    (hadd : image.addLine line content = .ok image') : image'.Sized := by
  unfold Image.addLine at hadd
  dsimp only at hadd
  split at hadd
  · cases hadd
    exact h
  · split at hadd
    · cases hadd
    · next hwidth =>
      split at hadd
      · cases hadd
      · next hroom =>
        obtain ⟨bytes, hbytes, hadd⟩ := exists_of_bind_ok hadd
        have hlength : bytes.length = 4 :=
          (forall₂_of_mapM_ok hbytes).length_eq.symm.trans (Decidable.not_not.mp hwidth)
        cases hadd
        unfold Sized lastAddress at *
        rw [← Array.length_toList, Array.toList_appendList, List.length_append, hlength,
          Array.length_toList]
        omega

theorem sized_of_assemble {listing : Text} {image : Image} (h : assemble listing = .ok image) :
    image.Sized := by
  have hfold (lines : List (Text × Nat)) (start : Image) (hstart : start.Sized)
      (hlines : lines.foldlM (fun image entry => image.addLine entry.2 entry.1) start = .ok image) :
      image.Sized := by
    induction lines generalizing start with
    | nil =>
      cases hlines
      exact hstart
    | cons line rest ih =>
      rw [List.foldlM_cons] at hlines
      obtain ⟨next, hnext, hlines⟩ := exists_of_bind_ok hlines
      exact ih next (hstart.addLine hnext) hlines
  exact hfold _ {} ⟨rfl, Nat.zero_le _⟩ h

/-! ## Both ways -/

/-- The map of an image that was made from one line for each instruction. -/
def NumbersLines (image : Image) : Prop :=
  image.map.size = image.bytes.size / 4 ∧
    ∀ address : UInt16, image.map[address]? =
      if address.toNat % 4 = 0 ∧ address.toNat < image.bytes.size then
        some (address.toNat / 4 + 1 : Int)
      else none

theorem Shows.numbersLines {image : Image} {words : List Word}
    (h : image.Shows words fun _ index => (index + 1 : Nat)) : image.NumbersLines := by
  have hsize := h.size
  refine ⟨?_, fun address => ?_⟩
  · rw [h.entries, hsize]
    omega
  · rw [h.lines]
    by_cases haligned : address.toNat % 4 = 0
    · by_cases hinside : address.toNat < image.bytes.size
      · rw [if_pos haligned, if_pos ⟨haligned, hinside⟩,
          List.getElem?_eq_getElem (by omega), Option.map_some]
        rfl
      · rw [if_pos haligned, if_neg (fun hboth => hinside hboth.2),
          List.getElem?_eq_none (by omega), Option.map_none]
    · rw [if_neg haligned, if_neg (fun hboth => haligned hboth.1)]

/-- The image of the listing of an image has the bytes that it was read from. -/
theorem assemble_listing_of_bytes {bytes : List UInt8} (h : bytes.length % 4 = 0)
    (image : Image) (himage : assemble (listingText (wordsOf bytes)) = .ok image) :
    image.bytes.toList = bytes ∧ image.NumbersLines := by
  obtain ⟨hpackable, rfl⟩ := (assemble_eq_ok_iff newline_notMem_wordsOf image).mp himage
  refine ⟨?_, (shows_ofWords hpackable.1).numbersLines⟩
  rw [toList_bytes_ofWords, flatMap_bytes_wordsOf h]

theorem exists_assemble_iff {bytes : List UInt8} (h : bytes.length % 4 = 0) :
    (∃ image, assemble (listingText (wordsOf bytes)) = .ok image) ↔ bytes.length ≤ 65536 := by
  rw [← packable_wordsOf h]
  constructor
  · rintro ⟨image, himage⟩
    exact ((assemble_eq_ok_iff newline_notMem_wordsOf image).mp himage).1
  · intro hpackable
    exact ⟨_, (assemble_eq_ok_iff newline_notMem_wordsOf _).mpr ⟨hpackable, rfl⟩⟩

/-- An image that was made from a listing is made again from its own listing. -/
theorem exists_assemble_of_assemble {listing : Text} {image : Image}
    (h : assemble listing = .ok image) : ∃ text again,
      disassemble image.bytes.toList = .ok text ∧ assemble text = .ok again ∧
        again.bytes = image.bytes := by
  obtain ⟨hwhole, hroom⟩ := sized_of_assemble h
  rw [← Array.length_toList] at hwhole hroom
  obtain ⟨again, hagain⟩ := (exists_assemble_iff hwhole).mpr hroom
  refine ⟨_, again, (disassemble_eq_ok_iff _ _).mpr ⟨hwhole, rfl⟩, hagain, ?_⟩
  exact Array.toList_inj.mp (assemble_listing_of_bytes hwhole again hagain).1

/-- Reading images and making them are inverse.  An image has a listing if its instructions are
complete, and from the listing it is made again if it has an address for each byte.  Images
that were made from a listing are such images, so their listing is a canonical form of it.
For an image of words it is the listing of the words, reduced to bytes. -/
theorem listing_of_image :
    (∀ bytes : List UInt8,
      ((∃ text, disassemble bytes = .ok text) ↔ bytes.length % 4 = 0) ∧
      ∀ text, disassemble bytes = .ok text →
        ((∃ image, assemble text = .ok image) ↔ bytes.length ≤ 65536) ∧
        ∀ image, assemble text = .ok image → image.bytes.toList = bytes ∧ image.NumbersLines) ∧
    (∀ listing image, assemble listing = .ok image → ∃ text again,
      disassemble image.bytes.toList = .ok text ∧ assemble text = .ok again ∧
        again.bytes = image.bytes) ∧
    ∀ words image, pack words = .ok image →
      disassemble image.bytes.toList = .ok (listingText (words.map Word.reduced)) := by
  refine ⟨fun bytes => ⟨⟨?_, ?_⟩, ?_⟩, ?_, ?_⟩
  · rintro ⟨text, htext⟩
    exact ((disassemble_eq_ok_iff bytes text).mp htext).1
  · intro hwhole
    exact ⟨_, (disassemble_eq_ok_iff bytes _).mpr ⟨hwhole, rfl⟩⟩
  · intro text htext
    obtain ⟨hwhole, rfl⟩ := (disassemble_eq_ok_iff bytes text).mp htext
    exact ⟨exists_assemble_iff hwhole, assemble_listing_of_bytes hwhole⟩
  · intro listing image himage
    exact exists_assemble_of_assemble himage
  · intro words image himage
    obtain ⟨_, rfl⟩ := (pack_eq_ok_iff words image).mp himage
    refine (disassemble_eq_ok_iff _ _).mpr ⟨?_, ?_⟩
    · rw [Array.length_toList, size_bytes_ofWords]
      omega
    · rw [toList_bytes_ofWords, wordsOf_flatMap_bytes]

end Image

end AccuAsm
