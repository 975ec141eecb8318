import TerminalMarkup.MarkupEvent

/-!
# Scanning the UTF-8 form of a text

A scanner stands at a byte offset, looks for the leftmost mark byte by byte, and
cuts the next piece by byte ranges.  In a tag it skips one byte behind a
backslash, which may be the first of several that make up a character.
-/

namespace TerminalMarkup

/-- The UTF-8 form of a text. -/
def Text.bytes (text : Text) : List UInt8 :=
  text.flatMap String.utf8EncodeChar

/-! ## Marks among bytes -/

def isLetterByte (byte : UInt8) : Bool :=
  ('A'.toUInt8 ≤ byte && byte ≤ 'Z'.toUInt8) ||
    ('a'.toUInt8 ≤ byte && byte ≤ 'z'.toUInt8)

/-- Where the tag ends whose items begin with the given bytes, at an offset from
the start of the tag. -/
def tagEnd? (offset : Nat) : List UInt8 → Option Nat
  | [] => none
  | byte :: rest =>
      if byte = '\\'.toUInt8 then
        match rest with
        | [] => none
        | _ :: others => tagEnd? (offset + 2) others
      else if byte = '<'.toUInt8 then
        none
      else if byte = '>'.toUInt8 then
        some (offset + 1)
      else
        tagEnd? (offset + 1) rest

/-- The number of bytes of the tag that begins with a bracket, told from the
bytes behind the bracket. -/
def tagLength? : List UInt8 → Option Nat
  | [] => none
  | byte :: rest =>
      if byte = '/'.toUInt8 then
        tagEnd? 2 rest
      else if isLetterByte byte then
        tagEnd? 1 (byte :: rest)
      else
        none

/-- A bracket that a backslash keeps, or a tag with its number of bytes. -/
inductive ByteMark
  | bracket
  | tag (length : Nat)
deriving DecidableEq, Repr

/-- The mark that begins with a byte, told from the byte and those behind it. -/
def byteMark? (byte : UInt8) (rest : List UInt8) : Option ByteMark :=
  if byte = '\\'.toUInt8 then
    if rest.head? = some '<'.toUInt8 then some .bracket else none
  else if byte = '<'.toUInt8 then
    (tagLength? rest).map .tag
  else
    none

/-- The leftmost mark and its offset. -/
def leftmostMark? (offset : Nat) : List UInt8 → Option (Nat × ByteMark)
  | [] => none
  | byte :: rest =>
      match byteMark? byte rest with
      | some mark => some (offset, mark)
      | none => leftmostMark? (offset + 1) rest

/-! ## Pieces -/

/-- What is cut from a text: a text, or a tag as it was written with its
body. -/
inductive Piece
  | text (content : Text)
  | opening (raw body : Text)
  | closing (raw body : Text)
deriving DecidableEq, Repr

namespace Piece

/-- The piece of a tag with some number of bytes. -/
def ofTag (raw : Text) (length : Nat) : Piece :=
  if ['<', '/'].isPrefixOf raw then
    closing raw (raw.substring 2 (length - 1))
  else
    opening raw (raw.substring 1 (length - 1))

/-- The event that a piece stands for. -/
def event : Piece → Event
  | text content => .text content
  | opening _ body => .opening body
  | closing _ body => .closing body

end Piece

structure Scanner where
  input : Text
  /-- The offset of the first byte that is not yet read. -/
  position : Nat
deriving DecidableEq, Repr

namespace Scanner

def start (input : Text) : Scanner := ⟨input, 0⟩

def rest (scanner : Scanner) : Text :=
  scanner.input.substring scanner.position scanner.input.byteLength

def advance (scanner : Scanner) (count : Nat) : Scanner :=
  { scanner with position := scanner.position + count }

/-- Cut the first bytes of the rest off as text. -/
def takeText (scanner : Scanner) (length : Nat) : Piece × Scanner :=
  (.text (scanner.rest.substring 0 length), scanner.advance length)

/-- The next piece and the scanner behind it. -/
def next? (scanner : Scanner) : Option (Piece × Scanner) :=
  if scanner.rest.isEmpty then
    none
  else
    match leftmostMark? 0 scanner.rest.bytes with
    | none => some (scanner.takeText scanner.rest.byteLength)
    | some (0, .bracket) =>
        -- The backslash is passed over, and the bracket cut from what is left.
        let kept := scanner.rest.substring 1 scanner.rest.byteLength
        some (.text (kept.substring 0 1), scanner.advance 2)
    | some (0, .tag length) =>
        let raw := scanner.rest.substring 0 length
        some (Piece.ofTag raw length, scanner.advance length)
    | some (offset + 1, _) => some (scanner.takeText (offset + 1))

end Scanner

/-! ## The end of scanning -/

theorem lt_of_tagEnd? {offset length : Nat} {bytes : List UInt8}
    (hend : tagEnd? offset bytes = some length) : offset < length := by
  fun_induction tagEnd? offset bytes with
  | case1 => contradiction
  | case2 => contradiction
  | case3 offset byte others ih =>
      have := ih hend
      omega
  | case4 => contradiction
  | case5 offset rest =>
      simp only [Option.some.injEq] at hend
      omega
  | case6 offset byte rest _ _ _ ih =>
      have := ih hend
      omega

theorem pos_of_byteMark? {byte : UInt8} {rest : List UInt8} {length : Nat}
    (hmark : byteMark? byte rest = some (.tag length)) : 0 < length := by
  unfold byteMark? at hmark
  split at hmark
  · split at hmark <;> simp at hmark
  · split at hmark
    · simp only [Option.map_eq_some_iff, ByteMark.tag.injEq] at hmark
      obtain ⟨found, hfound, rfl⟩ := hmark
      unfold tagLength? at hfound
      split at hfound
      · simp at hfound
      · split at hfound
        · exact Nat.zero_lt_of_lt (lt_of_tagEnd? hfound)
        · split at hfound
          · exact Nat.zero_lt_of_lt (lt_of_tagEnd? hfound)
          · simp at hfound
    · simp at hmark

theorem pos_of_leftmostMark? {offset place length : Nat} {bytes : List UInt8}
    (hmark : leftmostMark? offset bytes = some (place, .tag length)) :
    0 < length := by
  induction bytes generalizing offset with
  | nil => simp [leftmostMark?] at hmark
  | cons byte rest ih =>
      simp only [leftmostMark?] at hmark
      split at hmark
      next mark hfirst =>
        simp only [Option.some.injEq, Prod.mk.injEq] at hmark
        rw [hmark.2] at hfirst
        exact pos_of_byteMark? hfirst
      next => exact ih hmark

namespace Scanner

theorem rest_eq_dropBytes (scanner : Scanner) :
    scanner.rest = scanner.input.dropBytes scanner.position := by
  simp only [rest, Text.substring, Int.toNat_natCast]
  rw [Text.takeBytes_of_byteLength_le (Nat.le_refl _)]

/-- Every piece moves the scanner on within its text. -/
theorem position_lt_of_next? {scanner following : Scanner} {piece : Piece}
    (hnext : scanner.next? = some (piece, following)) :
    following.input = scanner.input ∧
      scanner.position < following.position ∧
      scanner.position < scanner.input.byteLength := by
  unfold next? at hnext
  split at hnext
  · contradiction
  next hempty =>
    have hrest : scanner.rest ≠ [] := by
      simpa using hempty
    have hend : scanner.position < scanner.input.byteLength := by
      apply Nat.lt_of_not_le
      intro hle
      apply hrest
      rw [rest_eq_dropBytes]
      exact Text.dropBytes_of_byteLength_le hle
    have hmoved (count : Nat) (hcount : 0 < count) :
        (scanner.advance count).input = scanner.input ∧
          scanner.position < (scanner.advance count).position ∧
          scanner.position < scanner.input.byteLength :=
      ⟨rfl, by simpa [advance] using hcount, hend⟩
    split at hnext
    all_goals
      simp only [takeText, Option.some.injEq, Prod.mk.injEq] at hnext
      rw [← hnext.2]
      apply hmoved
    next => exact Text.byteLength_pos hrest
    next => decide
    next length hmark => exact pos_of_leftmostMark? hmark
    next => omega

/-- All pieces from where the scanner stands. -/
def pieces (scanner : Scanner) : List Piece :=
  match _hnext : scanner.next? with
  | none => []
  | some (piece, following) => piece :: following.pieces
termination_by scanner.input.byteLength - scanner.position
decreasing_by
  obtain ⟨hinput, hposition, hend⟩ := position_lt_of_next? _hnext
  rw [hinput]
  omega

end Scanner

end TerminalMarkup
