import TerminalMarkup.Proofs.TagGrammar

/-!
# Pieces found among bytes

The scanner compares bytes and the grammar speaks of characters.  They agree
since no byte of a character beyond ASCII is taken for a bracket, a backslash, a
slash or a letter.  The comparison goes from the inside of a tag to marks, and
from the leftmost mark to the next piece.
-/

namespace TerminalMarkup

/-- Bytes that are no ASCII character. -/
def HighBytes (bytes : List UInt8) : Prop :=
  ∀ byte ∈ bytes, 127 < byte.toNat

theorem HighBytes.of_cons {byte : UInt8} {rest : List UInt8}
    (hhigh : HighBytes (byte :: rest)) :
    127 < byte.toNat ∧ HighBytes rest :=
  ⟨hhigh byte List.mem_cons_self,
    fun other hother => hhigh other (List.mem_cons_of_mem _ hother)⟩

theorem ne_of_high {byte mark : UInt8} (hbyte : 127 < byte.toNat)
    (hmark : mark.toNat ≤ 127) : byte ≠ mark := by
  rintro rfl
  omega

theorem utf8EncodeChar_of_ascii {char : Char} (hascii : char.val ≤ 127) :
    String.utf8EncodeChar char = [char.toUInt8] :=
  String.utf8EncodeChar_eq_singleton (Char.utf8Size_eq_one_iff.mpr hascii)

theorem highBytes_utf8EncodeChar {char : Char} (hhigh : ¬ char.val ≤ 127) :
    HighBytes (String.utf8EncodeChar char) := by
  have hvalue : ¬ char.val.toNat ≤ 127 := hhigh
  simp only [HighBytes, String.utf8EncodeChar, if_neg hvalue]
  split
  · simp only [List.forall_mem_cons, UInt8.toNat_ofNat', List.not_mem_nil,
      false_imp_iff, implies_true, and_true]
    omega
  · split
    · simp only [List.forall_mem_cons, UInt8.toNat_ofNat', List.not_mem_nil,
        false_imp_iff, implies_true, and_true]
      omega
    · simp only [List.forall_mem_cons, UInt8.toNat_ofNat', List.not_mem_nil,
        false_imp_iff, implies_true, and_true]
      omega

theorem toNat_toUInt8_of_ascii {char : Char} (hascii : char.val ≤ 127) :
    char.toUInt8.toNat = char.val.toNat := by
  have hvalue : char.val.toNat ≤ 127 := hascii
  rw [Char.toUInt8, UInt32.toNat_toUInt8]
  omega

theorem toUInt8_eq_iff {char mark : Char} (hascii : char.val ≤ 127)
    (hmark : mark.val ≤ 127) : char.toUInt8 = mark.toUInt8 ↔ char = mark := by
  rw [← UInt8.toNat_inj, toNat_toUInt8_of_ascii hascii,
    toNat_toUInt8_of_ascii hmark, UInt32.toNat_inj, Char.ext_iff]

theorem isAlpha_iff (char : Char) :
    char.isAlpha = true ↔
      ('A'.val ≤ char.val ∧ char.val ≤ 'Z'.val) ∨
        ('a'.val ≤ char.val ∧ char.val ≤ 'z'.val) := by
  have hletter : char.isAlpha = (char.isUpper || char.isLower) := rfl
  have hupper :
      char.isUpper = decide ('A'.val ≤ char.val ∧ char.val ≤ 'Z'.val) := rfl
  have hlower :
      char.isLower =
        (decide ('a'.val ≤ char.val) && decide (char.val ≤ 'z'.val)) := rfl
  rw [hletter, hupper, hlower, Bool.or_eq_true, Bool.and_eq_true,
    decide_eq_true_iff, decide_eq_true_iff, decide_eq_true_iff]

theorem isLetterByte_of_ascii {char : Char} (hascii : char.val ≤ 127) :
    isLetterByte char.toUInt8 = char.isAlpha := by
  have hbyte := toNat_toUInt8_of_ascii hascii
  rw [Bool.eq_iff_iff, isAlpha_iff]
  simp only [isLetterByte, UInt8.le_iff_toNat_le, UInt32.le_iff_toNat_le, hbyte,
    Bool.or_eq_true, Bool.and_eq_true, decide_eq_true_iff]
  rfl

theorem Text.bytes_cons (char : Char) (rest : Text) :
    Text.bytes (char :: rest) = String.utf8EncodeChar char ++ Text.bytes rest :=
  List.flatMap_cons

theorem Text.bytes_cons_of_ascii {char : Char} (hascii : char.val ≤ 127)
    (rest : Text) :
    Text.bytes (char :: rest) = char.toUInt8 :: Text.bytes rest := by
  rw [bytes_cons, utf8EncodeChar_of_ascii hascii]
  rfl

/-- A character beyond ASCII begins with such a byte and goes on with more. -/
theorem Text.exists_bytes_cons_of_high {char : Char}
    (hhigh : ¬ char.val ≤ 127) (rest : Text) :
    ∃ first others,
      Text.bytes (char :: rest) = first :: (others ++ Text.bytes rest) ∧
        127 < first.toNat ∧ HighBytes others ∧
        others.length + 1 = char.utf8Size := by
  have hbytes := highBytes_utf8EncodeChar hhigh
  have hlength := String.length_utf8EncodeChar char
  rw [bytes_cons]
  cases hchar : String.utf8EncodeChar char with
  | nil =>
      have := char.utf8Size_pos
      simp only [hchar, List.length_nil] at hlength
      omega
  | cons first others =>
      rw [hchar] at hbytes hlength
      exact
        ⟨first, others, rfl, hbytes.of_cons.1, hbytes.of_cons.2, hlength⟩

theorem ne_of_not_ascii {char mark : Char} (hhigh : ¬ char.val ≤ 127)
    (hmark : mark.val ≤ 127) : char ≠ mark := by
  rintro rfl
  exact hhigh hmark

theorem isAlpha_of_high {char : Char} (hhigh : ¬ char.val ≤ 127) :
    char.isAlpha = false := by
  rw [Bool.eq_false_iff, ne_eq, isAlpha_iff]
  intro hletter
  apply hhigh
  rcases hletter with ⟨-, hlast⟩ | ⟨-, hlast⟩
  · exact Nat.le_trans hlast (by decide)
  · exact Nat.le_trans hlast (by decide)

theorem isLetterByte_of_high {byte : UInt8} (hbyte : 127 < byte.toNat) :
    isLetterByte byte = false := by
  rw [Bool.eq_false_iff]
  intro hletter
  simp only [isLetterByte, Bool.or_eq_true, Bool.and_eq_true,
    decide_eq_true_iff] at hletter
  apply Nat.not_le_of_lt hbyte
  rcases hletter with ⟨-, hlast⟩ | ⟨-, hlast⟩
  · exact Nat.le_trans hlast (by decide)
  · exact Nat.le_trans hlast (by decide)

/-! ## Tags among bytes -/

theorem tagEnd?_cons_of_ne {byte : UInt8} (hbackslash : byte ≠ '\\'.toUInt8)
    (hopen : byte ≠ '<'.toUInt8) (hclose : byte ≠ '>'.toUInt8) (offset : Nat)
    (bytes : List UInt8) :
    tagEnd? offset (byte :: bytes) = tagEnd? (offset + 1) bytes := by
  rw [tagEnd?.eq_def]
  simp only [if_neg hbackslash, if_neg hopen, if_neg hclose]

theorem tagEnd?_backslash (offset : Nat) (byte : UInt8) (bytes : List UInt8) :
    tagEnd? offset ('\\'.toUInt8 :: byte :: bytes) =
      tagEnd? (offset + 2) bytes := by
  rw [tagEnd?.eq_def]
  rfl

theorem tagEnd?_append_of_high {high : List UInt8} (hhigh : HighBytes high)
    (offset : Nat) (bytes : List UInt8) :
    tagEnd? offset (high ++ bytes) = tagEnd? (offset + high.length) bytes := by
  induction high generalizing offset with
  | nil => rfl
  | cons byte rest ih =>
      obtain ⟨hbyte, hothers⟩ := hhigh.of_cons
      have hrest := ih hothers
      rw [List.cons_append,
        tagEnd?_cons_of_ne (ne_of_high hbyte (by decide))
          (ne_of_high hbyte (by decide)) (ne_of_high hbyte (by decide)),
        hrest, List.length_cons, Nat.add_assoc, Nat.add_comm 1]

/-- A plain character is passed as a whole. -/
theorem tagEnd?_bytes_cons_of_ne {char : Char} (hopen : char ≠ '<')
    (hclose : char ≠ '>') (hbackslash : char ≠ '\\') (offset : Nat)
    (rest : Text) :
    tagEnd? offset (Text.bytes (char :: rest)) =
      tagEnd? (offset + char.utf8Size) (Text.bytes rest) := by
  by_cases hascii : char.val ≤ 127
  · have hne {mark : Char} (hmark : mark.val ≤ 127) (hchar : char ≠ mark) :
        char.toUInt8 ≠ mark.toUInt8 := by
      rwa [ne_eq, toUInt8_eq_iff hascii hmark]
    rw [Text.bytes_cons_of_ascii hascii,
      tagEnd?_cons_of_ne (hne (by decide) hbackslash) (hne (by decide) hopen)
        (hne (by decide) hclose),
      Char.utf8Size_eq_one_iff.mpr hascii]
  · rw [Text.bytes_cons,
      tagEnd?_append_of_high (highBytes_utf8EncodeChar hascii),
      String.length_utf8EncodeChar]

/-- A backslash takes the first byte of the next character with it, and the
others are passed. -/
theorem tagEnd?_bytes_escaped (char : Char) (offset : Nat) (rest : Text) :
    tagEnd? offset (Text.bytes ('\\' :: char :: rest)) =
      tagEnd? (offset + 1 + char.utf8Size) (Text.bytes rest) := by
  rw [Text.bytes_cons_of_ascii (by decide)]
  by_cases hascii : char.val ≤ 127
  · rw [Text.bytes_cons_of_ascii hascii, tagEnd?_backslash,
      Char.utf8Size_eq_one_iff.mpr hascii]
  · obtain ⟨first, others, hbytes, -, hothers, hlength⟩ :=
      Text.exists_bytes_cons_of_high hascii rest
    have hoffset :
        offset + 2 + others.length = offset + 1 + char.utf8Size := by
      omega
    rw [hbytes, tagEnd?_backslash, tagEnd?_append_of_high hothers, hoffset]

/-- The bytes tell the end of a tag as the characters do. -/
theorem tagEnd?_bytes (offset : Nat) (text : Text) :
    tagEnd? offset text.bytes =
      (tagBody? text).map fun found => offset + found.1.byteLength + 1 := by
  induction text using tagBody?.induct generalizing offset with
  | case1 => rfl
  | case2 rest =>
      rw [Text.bytes_cons_of_ascii (by decide), tagEnd?.eq_def]
      rfl
  | case3 rest =>
      rw [Text.bytes_cons_of_ascii (by decide), tagEnd?.eq_def]
      rfl
  | case4 char rest ih =>
      rw [tagEnd?_bytes_escaped, ih, tagBody?, Option.map_map]
      congr
      funext found
      have hsize : ('\\').utf8Size = 1 := rfl
      simp only [Function.comp_apply, Text.byteLength, hsize]
      omega
  | case5 char rest hclose hopen hescape ih =>
      by_cases hbackslash : char = '\\'
      · cases rest with
        | nil =>
            subst char
            rfl
        | cons next others => exact (hescape next others hbackslash rfl).elim
      · rw [tagEnd?_bytes_cons_of_ne hopen hclose hbackslash, ih,
          tagBody?_cons_of_ne hopen hclose hbackslash, Option.map_map]
        congr
        funext found
        simp only [Function.comp_apply, Text.byteLength]
        omega

theorem Event.byteLength_raw_opening (body : Text) :
    (opening body).raw.byteLength = body.byteLength + 2 := by
  have hopen : ('<').utf8Size = 1 := rfl
  have hclose : ('>').utf8Size = 1 := rfl
  simp only [raw, List.cons_append, Text.byteLength, Text.byteLength_append,
    hopen, hclose]
  omega

theorem Event.byteLength_raw_closing (body : Text) :
    (closing body).raw.byteLength = body.byteLength + 3 := by
  have hopen : ('<').utf8Size = 1 := rfl
  have hslash : ('/').utf8Size = 1 := rfl
  have hclose : ('>').utf8Size = 1 := rfl
  simp only [raw, List.cons_append, Text.byteLength, Text.byteLength_append,
    hopen, hslash, hclose]
  omega

/-- A tag is as long among the bytes as its event is written. -/
theorem tagLength?_bytes (text : Text) :
    tagLength? text.bytes =
      (mark? ('<' :: text)).map fun found => found.1.raw.byteLength := by
  cases text with
  | nil => rfl
  | cons char rest =>
      by_cases hchar : char = '/'
      · subst char
        rw [Text.bytes_cons_of_ascii (by decide), tagLength?, if_pos rfl,
          tagEnd?_bytes, mark?, Option.map_map]
        congr
        funext found
        simp only [Function.comp_apply, Event.byteLength_raw_closing]
        omega
      · rw [mark?.eq_3 char rest hchar]
        by_cases hascii : char.val ≤ 127
        · have hbyte : char.toUInt8 ≠ '/'.toUInt8 := by
            rwa [ne_eq, toUInt8_eq_iff hascii (by decide)]
          rw [Text.bytes_cons_of_ascii hascii, tagLength?, if_neg hbyte,
            isLetterByte_of_ascii hascii, ← Text.bytes_cons_of_ascii hascii,
            tagEnd?_bytes]
          split
          next =>
            rw [Option.map_map]
            congr
            funext found
            simp only [Function.comp_apply, Event.byteLength_raw_opening]
            omega
          next => rfl
        · obtain ⟨first, others, hbytes, hfirst, -, -⟩ :=
            Text.exists_bytes_cons_of_high hascii rest
          rw [hbytes, tagLength?, if_neg (ne_of_high hfirst (by decide)),
            isLetterByte_of_high hfirst, isAlpha_of_high hascii]
          rfl

/-! ## Marks among bytes -/

/-- The mark of an event as the bytes show it. -/
def Event.byteMark : Event → ByteMark
  | text _ => .bracket
  | event => .tag event.raw.byteLength

theorem mark?_cons_of_ne {char : Char} (hopen : char ≠ '<')
    (hbackslash : char ≠ '\\') (rest : Text) :
    mark? (char :: rest) = none := by
  cases rest with
  | nil => simp [mark?]
  | cons next others =>
      exact mark?_eq_none_of_ne hopen (fun h => hbackslash h.1) others

theorem byteMark?_of_high {byte : UInt8} (hbyte : 127 < byte.toNat)
    (bytes : List UInt8) : byteMark? byte bytes = none := by
  rw [byteMark?, if_neg (ne_of_high hbyte (by decide)),
    if_neg (ne_of_high hbyte (by decide))]

theorem head?_bytes_eq_iff (text : Text) {mark : Char}
    (hmark : mark.val ≤ 127) :
    text.bytes.head? = some mark.toUInt8 ↔ text.head? = some mark := by
  cases text with
  | nil => simp [Text.bytes]
  | cons char rest =>
      by_cases hascii : char.val ≤ 127
      · simp only [Text.bytes_cons_of_ascii hascii, List.head?_cons,
          Option.some.injEq, toUInt8_eq_iff hascii hmark]
      · obtain ⟨first, others, hbytes, hfirst, -, -⟩ :=
          Text.exists_bytes_cons_of_high hascii rest
        have hbyte : first ≠ mark.toUInt8 := by
          apply ne_of_high hfirst
          rw [toNat_toUInt8_of_ascii hmark]
          exact hmark
        simp [hbytes, hbyte, ne_of_not_ascii hascii hmark]

theorem byteMark_of_mark? {text rest : Text} {event : Event}
    (hmark : mark? ('<' :: text) = some (event, rest)) :
    event.byteMark = .tag event.raw.byteLength := by
  have hbegins := beginsWithMark_of_mark? hmark
  cases event with
  | text content => cases hbegins
  | opening body => rfl
  | closing body => rfl

theorem byteMark?_of_ascii {char : Char} (hascii : char.val ≤ 127)
    (rest : Text) :
    byteMark? char.toUInt8 rest.bytes =
      (mark? (char :: rest)).map fun found => found.1.byteMark := by
  have hbackslash : char.toUInt8 = '\\'.toUInt8 ↔ char = '\\' :=
    toUInt8_eq_iff hascii (by decide)
  have hopen : char.toUInt8 = '<'.toUInt8 ↔ char = '<' :=
    toUInt8_eq_iff hascii (by decide)
  have hnext : rest.bytes.head? = some '<'.toUInt8 ↔ rest.head? = some '<' :=
    head?_bytes_eq_iff rest (by decide)
  simp only [byteMark?, hbackslash, hopen, hnext]
  split
  next hchar =>
    subst char
    cases rest with
    | nil => rfl
    | cons next others =>
        by_cases hbracket : next = '<'
        · subst next
          rfl
        · rw [mark?_eq_none_of_ne (by decide) fun h => hbracket h.2]
          simp [hbracket]
  next hchar =>
    split
    next hmarked =>
      subst char
      rw [tagLength?_bytes, Option.map_map]
      apply Option.map_congr
      intro found hfound
      exact (byteMark_of_mark? hfound).symm
    next hmarked =>
      rw [mark?_cons_of_ne hmarked hchar]
      rfl

theorem leftmostMark?_append_of_high {high : List UInt8}
    (hhigh : HighBytes high) (offset : Nat) (bytes : List UInt8) :
    leftmostMark? offset (high ++ bytes) =
      leftmostMark? (offset + high.length) bytes := by
  induction high generalizing offset with
  | nil => rfl
  | cons byte rest ih =>
      obtain ⟨hbyte, hothers⟩ := hhigh.of_cons
      have hrest := ih hothers
      rw [List.cons_append, leftmostMark?, byteMark?_of_high hbyte]
      simp only [hrest, List.length_cons, Nat.add_assoc, Nat.add_comm 1]

/-- The leftmost mark among the bytes is that among the characters. -/
theorem leftmostMark?_bytes (offset : Nat) (text : Text) :
    leftmostMark? offset text.bytes =
      (mark? (cutAtMark text).2).map fun found =>
        (offset + (cutAtMark text).1.byteLength, found.1.byteMark) := by
  induction text generalizing offset with
  | nil => rfl
  | cons char rest ih =>
      by_cases hascii : char.val ≤ 127
      · have hsize : char.utf8Size = 1 := Char.utf8Size_eq_one_iff.mpr hascii
        rw [Text.bytes_cons_of_ascii hascii, leftmostMark?,
          byteMark?_of_ascii hascii]
        cases hmark : mark? (char :: rest) with
        | some found =>
            rw [cutAtMark_of_mark? hmark, hmark]
            rfl
        | none =>
            rw [cutAtMark_cons_of_mark?_eq_none hmark]
            simp only [Option.map_none, ih, Text.byteLength, hsize,
              Nat.add_assoc]
      · have hmark : mark? (char :: rest) = none :=
          mark?_cons_of_ne (ne_of_not_ascii hascii (by decide))
            (ne_of_not_ascii hascii (by decide)) rest
        rw [Text.bytes_cons,
          leftmostMark?_append_of_high (highBytes_utf8EncodeChar hascii), ih,
          cutAtMark_cons_of_mark?_eq_none hmark]
        simp only [Text.byteLength, String.length_utf8EncodeChar, Nat.add_assoc]

/-! ## The next piece -/

theorem BeginsWithMark.head?_ne_slash {text raw body rest : Text}
    (hbegins : BeginsWithMark text (.opening raw body) rest) :
    body.head? ≠ some '/' := by
  cases hbegins with
  | opening hletter hitems =>
      simpa using ne_of_isAlpha hletter (by decide)

theorem Piece.ofTag_opening {body : Text} (hslash : body.head? ≠ some '/') :
    ofTag (Event.opening body).raw (Event.opening body).raw.byteLength =
      (Event.opening body).piece := by
  have hprefix : ['<', '/'].isPrefixOf (Event.opening body).raw = false := by
    cases body with
    | nil => rfl
    | cons char rest =>
        have hchar : ¬ '/' = char := fun heq => hslash (by rw [← heq]; rfl)
        simp [Event.raw, List.isPrefixOf, hchar]
  have hbody :
      (Event.opening body).raw.substring 1
          ((Event.opening body).raw.byteLength - 1) = body :=
    Text.substring_append ['<'] body ['>'] rfl (by
      rw [Event.byteLength_raw_opening]
      show _ = (1 : Int) + _
      omega)
  rw [ofTag, hprefix, hbody]
  rfl

theorem Piece.ofTag_closing (body : Text) :
    ofTag (Event.closing body).raw (Event.closing body).raw.byteLength =
      (Event.closing body).piece := by
  have hprefix : ['<', '/'].isPrefixOf (Event.closing body).raw = true := rfl
  have hbody :
      (Event.closing body).raw.substring 2
          ((Event.closing body).raw.byteLength - 1) = body :=
    Text.substring_append ['<', '/'] body ['>'] rfl (by
      rw [Event.byteLength_raw_closing]
      show _ = (2 : Int) + _
      omega)
  rw [ofTag, hprefix, hbody]
  rfl

namespace Scanner

/-- The scanner stands between two characters, and a text is left. -/
def StandsBefore (scanner : Scanner) (text : Text) : Prop :=
  ∃ front,
    scanner.input = front ++ text ∧ scanner.position = front.byteLength

theorem standsBefore_start (text : Text) : (start text).StandsBefore text :=
  ⟨[], rfl, rfl⟩

namespace StandsBefore

variable {scanner : Scanner} {text rest : Text}

theorem rest_eq (hstands : scanner.StandsBefore text) :
    scanner.rest = text := by
  obtain ⟨front, hinput, hposition⟩ := hstands
  have hdrop := Text.dropBytes_append front text 0
  rw [rest_eq_dropBytes, hinput, hposition, ← Nat.add_zero front.byteLength,
    hdrop, Text.dropBytes_zero]

theorem advance {taken : Text} (hstands : scanner.StandsBefore (taken ++ rest))
    {count : Nat} (hcount : count = taken.byteLength) :
    (scanner.advance count).StandsBefore rest := by
  obtain ⟨front, hinput, hposition⟩ := hstands
  refine ⟨front ++ taken, ?_, ?_⟩
  · rw [List.append_assoc]
    exact hinput
  · rw [Text.byteLength_append, ← hposition, ← hcount]
    rfl

theorem leftmostMark?_of_mark? {event : Event}
    (hmark : mark? text = some (event, rest)) :
    leftmostMark? 0 text.bytes = some (0, event.byteMark) := by
  rw [leftmostMark?_bytes, cutAtMark_of_mark? hmark, hmark]
  rfl

/-- The backslash before a bracket is passed over, and the bracket is cut. -/
theorem next?_of_bracket
    (hstands : scanner.StandsBefore ('\\' :: '<' :: rest)) :
    scanner.next? = some (.text ['<'], scanner.advance 2) := by
  have hmark : mark? ('\\' :: '<' :: rest) = some (.text ['<'], rest) := rfl
  have hleft := leftmostMark?_of_mark? hmark
  have hkept :
      Text.substring ('\\' :: '<' :: rest) 1
          (Text.byteLength ('\\' :: '<' :: rest)) = '<' :: rest :=
    Text.substring_append_right ['\\'] ('<' :: rest)
  have hbracket : Text.substring ('<' :: rest) 0 1 = ['<'] :=
    Text.substring_append_left ['<'] rest
  simp only [next?, hstands.rest_eq, hleft, Event.byteMark, hkept, hbracket]
  rfl

theorem next?_of_tag {raw : Text} (hstands : scanner.StandsBefore (raw ++ rest))
    (hraw : raw ≠ [])
    (hleft :
      leftmostMark? 0 (Text.bytes (raw ++ rest)) =
        some (0, .tag raw.byteLength)) :
    scanner.next? =
      some (Piece.ofTag raw raw.byteLength,
        scanner.advance raw.byteLength) := by
  have hcut := Text.substring_append_left raw rest
  have hempty : (raw ++ rest).isEmpty = false := by
    simp [hraw]
  simp [next?, hstands.rest_eq, hleft, hcut, hempty]

theorem next?_of_mark? {event : Event} (hstands : scanner.StandsBefore text)
    (hmark : mark? text = some (event, rest)) :
    ∃ following,
      scanner.next? = some (event.piece, following) ∧
        following.StandsBefore rest := by
  have hleft := leftmostMark?_of_mark? hmark
  have hbegins := beginsWithMark_of_mark? hmark
  have hsplit := eq_append_of_mark? hmark
  cases event with
  | text content =>
      cases hbegins with
      | bracket =>
          exact
            ⟨scanner.advance 2, hstands.next?_of_bracket,
              @advance _ _ ['\\', '<'] hstands 2 rfl⟩
  | opening body =>
      simp only [reduceCtorEq, false_and, or_false] at hsplit
      rw [hsplit] at hstands hleft
      refine ⟨_, ?_, hstands.advance rfl⟩
      rw [hstands.next?_of_tag (List.cons_ne_nil _ _) hleft,
        Piece.ofTag_opening hbegins.head?_ne_slash]
  | closing body =>
      simp only [reduceCtorEq, false_and, or_false] at hsplit
      rw [hsplit] at hstands hleft
      refine ⟨_, ?_, hstands.advance rfl⟩
      rw [hstands.next?_of_tag (List.cons_ne_nil _ _) hleft,
        Piece.ofTag_closing]

/-- Without a mark at the beginning, the text before the leftmost one is cut. -/
theorem next?_of_cut (hstands : scanner.StandsBefore text) (htext : text ≠ [])
    (hmark : mark? text = none) :
    scanner.next? =
      some (scanner.takeText (cutAtMark text).1.byteLength) := by
  have hleft := leftmostMark?_bytes 0 text
  have hempty : text.isEmpty = false := by
    simp [htext]
  simp only [next?, hstands.rest_eq, hempty, hleft]
  cases hafter : mark? (cutAtMark text).2 with
  | none =>
      have hwhole := cutAtMark_append text
      rw [cutAtMark_snd_eq_nil hafter, List.append_nil] at hwhole
      rw [hwhole]
      rfl
  | some found =>
      have hbefore := Text.byteLength_pos (cutAtMark_fst_ne_nil htext hmark)
      obtain ⟨count, hcount⟩ :=
        Nat.exists_eq_succ_of_ne_zero (Nat.ne_of_gt hbefore)
      rw [hcount]
      simp

theorem takeText_eq {before after : Text}
    (hstands : scanner.StandsBefore (before ++ after)) :
    scanner.takeText before.byteLength =
      (.text before, scanner.advance before.byteLength) := by
  rw [takeText, hstands.rest_eq, Text.substring_append_left]

theorem next?_of_nextEvent? {event : Event}
    (hstands : scanner.StandsBefore text)
    (hnext : nextEvent? text = some (event, rest)) :
    ∃ following,
      scanner.next? = some (event.piece, following) ∧
        following.StandsBefore rest := by
  rcases nextEvent?_cases hnext with hmark | ⟨htext, hmark, rfl, rfl⟩
  · exact hstands.next?_of_mark? hmark
  · have hcut := hstands.next?_of_cut htext hmark
    rw [← cutAtMark_append text] at hstands
    rw [hstands.takeText_eq] at hcut
    exact ⟨_, hcut, hstands.advance rfl⟩

end StandsBefore

theorem pieces_of_next?_eq_none {scanner : Scanner}
    (hnext : scanner.next? = none) : scanner.pieces = [] := by
  rw [pieces]
  split
  · rfl
  next hsome =>
    rw [hnext] at hsome
    contradiction

theorem pieces_of_next? {scanner following : Scanner} {piece : Piece}
    (hnext : scanner.next? = some (piece, following)) :
    scanner.pieces = piece :: following.pieces := by
  rw [pieces]
  split
  next hnone =>
    rw [hnext] at hnone
    contradiction
  next found others hfound =>
    rw [hnext] at hfound
    simp only [Option.some.injEq, Prod.mk.injEq] at hfound
    rw [hfound.1, hfound.2]

theorem StandsBefore.pieces_eq {scanner : Scanner} {text : Text}
    (hstands : scanner.StandsBefore text) :
    scanner.pieces = (events text).map Event.piece := by
  induction text using events.induct generalizing scanner with
  | case1 text hnone =>
      obtain rfl := eq_nil_of_nextEvent?_eq_none hnone
      rw [events_nil]
      apply pieces_of_next?_eq_none
      rw [next?, hstands.rest_eq]
      rfl
  | case2 text event rest hnext ih =>
      obtain ⟨following, hpiece, hfollowing⟩ :=
        hstands.next?_of_nextEvent? hnext
      rw [pieces_of_next? hpiece, events_of_nextEvent? hnext, List.map_cons,
        ih hfollowing]

/-- The pieces of a text stand for its events. -/
theorem map_event_pieces (text : Text) :
    (start text).pieces.map Piece.event = events text := by
  rw [(standsBefore_start text).pieces_eq, List.map_map]
  calc
    (events text).map (Piece.event ∘ Event.piece) = (events text).map id :=
      List.map_congr_left fun event _ => event.event_piece
    _ = events text := List.map_id _

/-- The scanner recognises exactly the grammar: its pieces are those of the one
tokenisation of the text. -/
theorem tokenised_iff_pieces (text : Text) (pieces : List Piece) :
    Tokenised text pieces ↔ (start text).pieces = pieces := by
  rw [(standsBefore_start text).pieces_eq, tokenised_iff, eq_comm]

example :
    (start "1 <<b\\é>x\\<i>".toList).pieces =
      [.text "1 <".toList, .opening "<b\\é>".toList "b\\é".toList,
        .text "x".toList, .text "<".toList, .text "i>".toList] := by
  decide +kernel

end Scanner

end TerminalMarkup
