import TerminalMarkup.Proofs.ScannedPieces

/-!
# The way of a scanner through its text

Cuts by byte ranges never fail, so a wrong offset would lose characters or read
them twice in silence.  No offset is wrong: the scanner stands between two
characters at every call and moves on over what it answers.  A whole tag ends
its lookahead, so the texts on both sides are scanned apart.
-/

namespace TerminalMarkup

namespace Text

/-- An offset of the text with whole characters before and behind it. -/
def IsBoundary (text : Text) (offset : Nat) : Prop :=
  ∃ front back, text = front ++ back ∧ offset = front.byteLength

/-- Ranges that begin and end between characters, in this order, are cut right.
Of other ranges nothing is said. -/
def CutsExactRanges (cut : Text → Int → Int → Text) : Prop :=
  ∀ front middle back : Text,
    cut (front ++ (middle ++ back)) front.byteLength
        (front.byteLength + middle.byteLength) = middle

theorem cutsExactRanges_substring : CutsExactRanges substring :=
  fun front middle back => substring_append front middle back rfl rfl

namespace CutsExactRanges

variable {cut : Text → Int → Int → Text}

theorem cut_eq (hcut : CutsExactRanges cut) (front middle back : Text)
    {start stop : Int} (hstart : start = front.byteLength)
    (hstop : stop = front.byteLength + middle.byteLength) :
    cut (front ++ (middle ++ back)) start stop = middle := by
  rw [hstart, hstop, hcut]

theorem cut_append_left (hcut : CutsExactRanges cut) (front back : Text) :
    cut (front ++ back) 0 front.byteLength = front :=
  hcut.cut_eq [] front back rfl (Int.zero_add _).symm

theorem cut_append_right (hcut : CutsExactRanges cut) (front back : Text) :
    cut (front ++ back) front.byteLength (front ++ back).byteLength = back := by
  have hstop :
      ((front ++ back).byteLength : Int) =
        front.byteLength + back.byteLength := by
    rw [byteLength_append]
    exact Int.natCast_add _ _
  have hback := hcut.cut_eq front back [] rfl hstop
  rwa [List.append_nil] at hback

end CutsExactRanges

theorem length_bytes (text : Text) : text.bytes.length = text.byteLength := by
  induction text with
  | nil => rfl
  | cons char rest ih =>
      rw [bytes_cons, List.length_append, String.length_utf8EncodeChar, ih,
        byteLength]

theorem bytes_append (front back : Text) :
    (front ++ back).bytes = front.bytes ++ back.bytes :=
  List.flatMap_append

theorem escapedBracket_prefix_bytes_iff (text : Text) :
    bytes ['\\', '<'] <+: text.bytes ↔ ['\\', '<'] <+: text := by
  constructor
  · rintro ⟨others, hbytes⟩
    have hfirst : text.head? = some '\\' := by
      rw [← head?_bytes_eq_iff text (by decide), ← hbytes]
      rfl
    obtain ⟨rest, rfl⟩ := List.head?_eq_some_iff.mp hfirst
    have hrest : bytes ('\\' :: rest) = '\\'.toUInt8 :: bytes rest :=
      bytes_cons_of_ascii (by decide) rest
    rw [hrest] at hbytes
    have hsecond : rest.head? = some '<' := by
      rw [← head?_bytes_eq_iff rest (by decide), ← (List.cons.inj hbytes).2]
      rfl
    obtain ⟨tail, rfl⟩ := List.head?_eq_some_iff.mp hsecond
    exact ⟨tail, rfl⟩
  · rintro ⟨tail, rfl⟩
    rw [bytes_append]
    exact List.prefix_append _ _

end Text

/-- What a piece says of the text: its content, or the tag as it was
written. -/
def Piece.written : Piece → Text
  | text content => content
  | opening raw _ => raw
  | closing raw _ => raw

namespace Scanner

/-! ## Calls -/

/-- One call: the piece, if there is any, and the scanner for the next call. -/
def call (scanner : Scanner) : Option Piece × Scanner :=
  match scanner.next? with
  | some (piece, following) => (some piece, following)
  | none => (none, scanner)

def afterCalls (scanner : Scanner) : Nat → Scanner
  | 0 => scanner
  | turn + 1 => (scanner.afterCalls turn).call.2

/-- The bytes that are not read yet. -/
def unread (scanner : Scanner) : List UInt8 :=
  scanner.input.bytes.drop scanner.position

/-- The bytes between the positions of two scanners of one text. -/
def bytesUntil (scanner following : Scanner) : List UInt8 :=
  scanner.unread.take (following.position - scanner.position)

/-- A scanner moves on over the bytes of a piece, or over an escaped bracket. -/
structure Reads (scanner : Scanner) (piece : Piece) (following : Scanner) :
    Prop where
  input_eq : following.input = scanner.input
  isBoundary : scanner.input.IsBoundary scanner.position
  isBoundary_following : scanner.input.IsBoundary following.position
  position_lt : scanner.position < following.position
  written_ne_nil : piece.written ≠ []
  bytes_of_escaped :
    Text.bytes ['\\', '<'] <+: scanner.unread →
      piece = .text ['<'] ∧
        scanner.bytesUntil following = Text.bytes ['\\', '<']
  bytes_of_not_escaped :
    ¬ Text.bytes ['\\', '<'] <+: scanner.unread →
      scanner.bytesUntil following = piece.written.bytes

theorem call_of_next? {scanner following : Scanner} {piece : Piece}
    (hnext : scanner.next? = some (piece, following)) :
    scanner.call = (some piece, following) := by
  rw [call, hnext]

theorem call_of_next?_eq_none {scanner : Scanner}
    (hnext : scanner.next? = none) : scanner.call = (none, scanner) := by
  rw [call, hnext]

theorem afterCalls_succ (scanner : Scanner) (turn : Nat) :
    scanner.afterCalls (turn + 1) = scanner.call.2.afterCalls turn := by
  induction turn with
  | zero => rfl
  | succ turn ih =>
      rw [afterCalls, ih]
      rfl

theorem afterCalls_of_next?_eq_none {scanner : Scanner}
    (hnext : scanner.next? = none) (turn : Nat) :
    scanner.afterCalls turn = scanner := by
  induction turn with
  | zero => rfl
  | succ turn ih => rw [afterCalls, ih, call_of_next?_eq_none hnext]

namespace StandsBefore

variable {scanner following : Scanner} {text taken rest : Text}

theorem isBoundary (hstands : scanner.StandsBefore text) :
    scanner.input.IsBoundary scanner.position := by
  obtain ⟨front, hinput, hposition⟩ := hstands
  exact ⟨front, text, hinput, hposition⟩

theorem unread_eq (hstands : scanner.StandsBefore text) :
    scanner.unread = text.bytes := by
  obtain ⟨front, hinput, hposition⟩ := hstands
  rw [unread, hinput, hposition, Text.bytes_append, ← Text.length_bytes,
    List.drop_left]

theorem position_of_nil (hstands : scanner.StandsBefore []) :
    scanner.position = scanner.input.byteLength := by
  obtain ⟨front, hinput, hposition⟩ := hstands
  rw [hposition, hinput, List.append_nil]

theorem next?_of_nil (hstands : scanner.StandsBefore []) :
    scanner.next? = none := by
  rw [next?, hstands.rest_eq]
  rfl

theorem position_following (hstands : scanner.StandsBefore (taken ++ rest))
    (hfollowing : following.StandsBefore rest)
    (hinput : following.input = scanner.input) :
    following.position = scanner.position + taken.byteLength := by
  obtain ⟨front, hfront, hposition⟩ := hstands
  obtain ⟨before, hbefore, hbehind⟩ := hfollowing
  rw [hinput, hfront, ← List.append_assoc, List.append_left_inj] at hbefore
  rw [hbehind, ← hbefore, Text.byteLength_append, hposition]

theorem bytesUntil_eq (hstands : scanner.StandsBefore (taken ++ rest))
    (hfollowing : following.StandsBefore rest)
    (hinput : following.input = scanner.input) :
    scanner.bytesUntil following = taken.bytes := by
  rw [bytesUntil, hstands.unread_eq,
    hstands.position_following hfollowing hinput, Nat.add_sub_cancel_left,
    Text.bytes_append, ← Text.length_bytes, List.take_left]

/-- The next piece is the text before the leftmost mark, the tag at the
beginning, or the bracket that is escaped there. -/
theorem exists_next? (hstands : scanner.StandsBefore text) (htext : text ≠ []) :
    ∃ piece following taken rest,
      scanner.next? = some (piece, following) ∧
        following.StandsBefore rest ∧ text = taken ++ rest ∧
        piece.written ≠ [] ∧
        if ['\\', '<'] <+: text then
          piece = .text ['<'] ∧ taken = ['\\', '<']
        else
          taken = piece.written := by
  cases hmark : mark? text with
  | some found =>
      obtain ⟨event, rest⟩ := found
      obtain ⟨following, hnext, hfollowing⟩ := hstands.next?_of_mark? hmark
      have hbegins := beginsWithMark_of_mark? hmark
      refine ⟨event.piece, following, ?_⟩
      cases event with
      | text content =>
          cases hbegins with
          | bracket =>
              refine
                ⟨['\\', '<'], rest, hnext, hfollowing, rfl,
                  List.cons_ne_nil _ _, ?_⟩
              rw [if_pos ⟨rest, rfl⟩]
              exact ⟨rfl, rfl⟩
      | opening body =>
          have hsplit : text = (Event.opening body).raw ++ rest := by
            simpa using eq_append_of_mark? hmark
          refine
            ⟨_, rest, hnext, hfollowing, hsplit, List.cons_ne_nil _ _, ?_⟩
          rw [if_neg, Event.piece, Piece.written]
          rintro ⟨tail, htail⟩
          simp [hsplit, Event.raw] at htail
      | closing body =>
          have hsplit : text = (Event.closing body).raw ++ rest := by
            simpa using eq_append_of_mark? hmark
          refine
            ⟨_, rest, hnext, hfollowing, hsplit, List.cons_ne_nil _ _, ?_⟩
          rw [if_neg, Event.piece, Piece.written]
          rintro ⟨tail, htail⟩
          simp [hsplit, Event.raw] at htail
  | none =>
      have hnext := hstands.next?_of_cut htext hmark
      have happend := cutAtMark_append text
      rw [← happend] at hstands
      rw [hstands.takeText_eq] at hnext
      refine
        ⟨_, _, _, _, hnext, hstands.advance rfl, happend.symm,
          cutAtMark_fst_ne_nil htext hmark, ?_⟩
      rw [if_neg, Piece.written]
      rintro ⟨tail, rfl⟩
      simp [mark?] at hmark

/-- A call on a text reads a piece and leaves a shorter text. -/
theorem exists_reads (hstands : scanner.StandsBefore text) (htext : text ≠ []) :
    ∃ piece following taken rest,
      scanner.next? = some (piece, following) ∧
        scanner.Reads piece following ∧ following.StandsBefore rest ∧
        text = taken ++ rest ∧ taken ≠ [] ∧
        scanner.bytesUntil following = taken.bytes := by
  obtain ⟨piece, following, taken, rest, hnext, hfollowing, rfl, hwritten,
    htaken⟩ := hstands.exists_next? htext
  obtain ⟨hinput, hposition, -⟩ := position_lt_of_next? hnext
  have hbytes := hstands.bytesUntil_eq hfollowing hinput
  have hescaped :
      Text.bytes ['\\', '<'] <+: scanner.unread ↔
        ['\\', '<'] <+: taken ++ rest := by
    rw [hstands.unread_eq, Text.escapedBracket_prefix_bytes_iff]
  have hne : taken ≠ [] := by
    split at htaken
    · simp [htaken.2]
    · rwa [htaken]
  refine
    ⟨piece, following, taken, rest, hnext, ?_, hfollowing, rfl, hne, hbytes⟩
  refine
    { input_eq := hinput
      isBoundary := hstands.isBoundary
      isBoundary_following := hinput ▸ hfollowing.isBoundary
      position_lt := hposition
      written_ne_nil := hwritten
      bytes_of_escaped := ?_
      bytes_of_not_escaped := ?_ }
  · intro hprefix
    rw [if_pos (hescaped.mp hprefix)] at htaken
    rw [hbytes, htaken.2]
    exact ⟨htaken.1, rfl⟩
  · intro hprefix
    rw [if_neg (fun hmp => hprefix (hescaped.mpr hmp))] at htaken
    rw [hbytes, htaken]

theorem exists_call (hstands : scanner.StandsBefore text) :
    ∃ rest, scanner.call.2.StandsBefore rest := by
  by_cases htext : text = []
  · subst text
    rw [call_of_next?_eq_none hstands.next?_of_nil]
    exact ⟨[], hstands⟩
  · obtain ⟨piece, following, taken, rest, hnext, -, hfollowing, -⟩ :=
      hstands.exists_reads htext
    rw [call_of_next? hnext]
    exact ⟨rest, hfollowing⟩

/-! ## All calls -/

theorem exists_afterCalls (hstands : scanner.StandsBefore text) (turn : Nat) :
    ∃ rest, (scanner.afterCalls turn).StandsBefore rest := by
  induction turn with
  | zero => exact ⟨text, hstands⟩
  | succ turn ih =>
      obtain ⟨rest, hrest⟩ := ih
      exact hrest.exists_call

/-- Some number of calls reads the whole text, and no call after them answers
any piece. -/
theorem exists_count (hstands : scanner.StandsBefore text) :
    ∃ count ≤ text.byteLength,
      (∀ turn < count,
        ∃ piece,
          (scanner.afterCalls turn).call.1 = some piece ∧
            (scanner.afterCalls turn).Reads piece
              (scanner.afterCalls (turn + 1))) ∧
      (∀ turn ≥ count,
        (scanner.afterCalls turn).call.1 = none ∧
          (scanner.afterCalls turn).position = scanner.input.byteLength) ∧
      ((List.range count).flatMap fun turn =>
          (scanner.afterCalls turn).bytesUntil
            (scanner.afterCalls (turn + 1))) = text.bytes := by
  -- Each piece leaves fewer bytes, and one call is spent on it.
  induction hlength : text.byteLength using Nat.strongRecOn
    generalizing scanner text with
  | ind length ih =>
    by_cases htext : text = []
    · subst text
      have hnext := hstands.next?_of_nil
      refine ⟨0, Nat.zero_le _, ?_, ?_, rfl⟩
      · intro turn hturn
        exact absurd hturn (Nat.not_lt_zero turn)
      · intro turn _
        rw [afterCalls_of_next?_eq_none hnext, call_of_next?_eq_none hnext]
        exact ⟨rfl, hstands.position_of_nil⟩
    · obtain ⟨piece, following, taken, rest, hnext, hreads, hfollowing, rfl, hne,
        hbytes⟩ := hstands.exists_reads htext
      have htaken := Text.byteLength_pos hne
      rw [Text.byteLength_append] at hlength
      have hcall := call_of_next? hnext
      have hafter (turn : Nat) :
          scanner.afterCalls (turn + 1) = following.afterCalls turn := by
        rw [afterCalls_succ, hcall]
      obtain ⟨count, hcount, hpieces, hend, hconcat⟩ :=
        ih rest.byteLength (by omega) hfollowing rfl
      refine ⟨count + 1, by omega, ?_, ?_, ?_⟩
      · intro turn hturn
        cases turn with
        | zero =>
            refine ⟨piece, by rw [afterCalls, hcall], ?_⟩
            rw [hafter]
            exact hreads
        | succ turn =>
            rw [hafter, hafter]
            exact hpieces turn (by omega)
      · intro turn hturn
        obtain ⟨earlier, rfl⟩ : ∃ earlier, turn = earlier + 1 :=
          Nat.exists_eq_succ_of_ne_zero (by omega)
        rw [hafter, ← hreads.input_eq]
        exact hend earlier (by omega)
      · rw [List.range_succ_eq_map, List.flatMap_cons, List.flatMap_map]
        simp only [hafter, Nat.succ_eq_add_one, hconcat]
        rw [afterCalls, afterCalls, hbytes, Text.bytes_append]

end StandsBefore

/-! ## Cuts of a call -/

/-- The next piece and the scanner behind it, with another function to cut
ranges of a text. -/
def nextBy? (cut : Text → Int → Int → Text) (scanner : Scanner) :
    Option (Piece × Scanner) :=
  let rest := cut scanner.input scanner.position scanner.input.byteLength
  let takeText (length : Nat) : Piece × Scanner :=
    (.text (cut rest 0 length), scanner.advance length)
  if rest.isEmpty then
    none
  else
    match leftmostMark? 0 rest.bytes with
    | none => some (takeText rest.byteLength)
    | some (0, .bracket) =>
        let kept := cut rest 1 rest.byteLength
        some (.text (cut kept 0 1), scanner.advance 2)
    | some (0, .tag length) =>
        let raw := cut rest 0 length
        let piece : Piece :=
          if ['<', '/'].isPrefixOf raw then
            .closing raw (cut raw 2 (length - 1))
          else
            .opening raw (cut raw 1 (length - 1))
        some (piece, scanner.advance length)
    | some (offset + 1, _) => some (takeText (offset + 1))

/-- The body of a tag is cut between characters, whichever kind the tag is. -/
theorem cut_body {cut : Text → Int → Int → Text}
    (hcut : Text.CutsExactRanges cut) (inside : Text) :
    let raw := (Event.opening inside).raw
    (if ['<', '/'].isPrefixOf raw then
        Piece.closing raw (cut raw 2 ((raw.byteLength : Int) - 1))
      else
        Piece.opening raw (cut raw 1 ((raw.byteLength : Int) - 1))) =
      Piece.ofTag raw raw.byteLength := by
  intro raw
  have hlength : raw.byteLength = inside.byteLength + 2 :=
    Event.byteLength_raw_opening inside
  rw [Piece.ofTag]
  split
  next hprefix =>
    have hbody : ∃ body, inside = '/' :: body := by
      cases inside with
      | nil => simp [raw, Event.raw] at hprefix
      | cons char body =>
          have hchar : '/' = char := by
            simpa [raw, Event.raw] using hprefix
          exact ⟨body, by rw [hchar]⟩
    obtain ⟨body, rfl⟩ := hbody
    have hstop :
        (raw.byteLength : Int) - 1 =
          Text.byteLength ['<', '/'] + Text.byteLength body := by
      have hslash : ('/').utf8Size = 1 := rfl
      rw [hlength, Text.byteLength, hslash]
      show _ = (2 : Int) + _
      omega
    have hclosing := hcut.cut_eq ['<', '/'] body ['>'] rfl hstop
    have hsubstring :=
      Text.cutsExactRanges_substring.cut_eq ['<', '/'] body ['>'] rfl hstop
    exact congrArg (Piece.closing raw) (hclosing.trans hsubstring.symm)
  · have hstop :
        (raw.byteLength : Int) - 1 =
          Text.byteLength ['<'] + Text.byteLength inside := by
      rw [hlength]
      show _ = (1 : Int) + _
      omega
    have hopening := hcut.cut_eq ['<'] inside ['>'] rfl hstop
    have hsubstring :=
      Text.cutsExactRanges_substring.cut_eq ['<'] inside ['>'] rfl hstop
    exact congrArg (Piece.opening raw) (hopening.trans hsubstring.symm)

namespace StandsBefore

variable {scanner : Scanner} {text : Text} {cut : Text → Int → Int → Text}

theorem cut_rest (hstands : scanner.StandsBefore text)
    (hcut : Text.CutsExactRanges cut) :
    cut scanner.input scanner.position scanner.input.byteLength = text := by
  obtain ⟨front, hinput, hposition⟩ := hstands
  rw [hinput, hposition, hcut.cut_append_right]

theorem nextBy?_of_bracket {rest : Text}
    (hstands : scanner.StandsBefore ('\\' :: '<' :: rest))
    (hcut : Text.CutsExactRanges cut) :
    scanner.nextBy? cut = scanner.next? := by
  have hmark : mark? ('\\' :: '<' :: rest) = some (.text ['<'], rest) := rfl
  have hleft := leftmostMark?_of_mark? hmark
  have hkept :
      cut ('\\' :: '<' :: rest) 1 (Text.byteLength ('\\' :: '<' :: rest)) =
        '<' :: rest :=
    hcut.cut_append_right ['\\'] ('<' :: rest)
  have hbracket : cut ('<' :: rest) 0 1 = ['<'] :=
    hcut.cut_append_left ['<'] rest
  rw [hstands.next?_of_bracket, nextBy?, hstands.cut_rest hcut]
  simp only [hleft, Event.byteMark, hkept, hbracket]
  rfl

theorem nextBy?_of_tag {inside rest : Text}
    (hstands : scanner.StandsBefore ((Event.opening inside).raw ++ rest))
    (hleft :
      leftmostMark? 0 (Text.bytes ((Event.opening inside).raw ++ rest)) =
        some (0, .tag (Event.opening inside).raw.byteLength))
    (hcut : Text.CutsExactRanges cut) :
    scanner.nextBy? cut = scanner.next? := by
  have hraw := hcut.cut_append_left (Event.opening inside).raw rest
  rw [hstands.next?_of_tag (List.cons_ne_nil _ _) hleft, nextBy?,
    hstands.cut_rest hcut]
  simp only [hleft, hraw, cut_body hcut]
  rfl

theorem nextBy?_of_cut (hstands : scanner.StandsBefore text)
    (htext : text ≠ []) (hmark : mark? text = none)
    (hcut : Text.CutsExactRanges cut) :
    scanner.nextBy? cut = scanner.next? := by
  have hleft := leftmostMark?_bytes 0 text
  have happend := cutAtMark_append text
  have hempty : text.isEmpty = false := by
    simp [htext]
  have hbefore := hcut.cut_append_left (cutAtMark text).1 (cutAtMark text).2
  have hnext := hstands.next?_of_cut htext hmark
  have htake := hstands
  rw [← happend] at htake
  rw [happend] at hbefore
  rw [hnext, htake.takeText_eq, nextBy?, hstands.cut_rest hcut]
  simp only [hempty, hleft]
  cases hafter : mark? (cutAtMark text).2 with
  | none =>
      rw [cutAtMark_snd_eq_nil hafter, List.append_nil] at happend
      rw [happend] at hbefore ⊢
      simp [hbefore]
  | some found =>
      have hposition := Text.byteLength_pos (cutAtMark_fst_ne_nil htext hmark)
      obtain ⟨offset, hoffset⟩ :=
        Nat.exists_eq_succ_of_ne_zero (Nat.ne_of_gt hposition)
      rw [hoffset] at hbefore
      simpa [hoffset] using hbefore

/-- All ranges that are cut in a call begin and end between characters. -/
theorem nextBy?_eq (hstands : scanner.StandsBefore text)
    (hcut : Text.CutsExactRanges cut) :
    scanner.nextBy? cut = scanner.next? := by
  by_cases htext : text = []
  · subst text
    rw [hstands.next?_of_nil, nextBy?, hstands.cut_rest hcut]
    rfl
  · cases hmark : mark? text with
    | none => exact hstands.nextBy?_of_cut htext hmark hcut
    | some found =>
        obtain ⟨event, rest⟩ := found
        have hbegins := beginsWithMark_of_mark? hmark
        have hleft := leftmostMark?_of_mark? hmark
        have hsplit := eq_append_of_mark? hmark
        cases event with
        | text content =>
            cases hbegins with
            | bracket => exact hstands.nextBy?_of_bracket hcut
        | opening body =>
            simp only [reduceCtorEq, false_and, or_false] at hsplit
            subst hsplit
            exact hstands.nextBy?_of_tag hleft hcut
        | closing body =>
            -- A closing tag is an opening bracket whose inside has a slash.
            simp only [reduceCtorEq, false_and, or_false] at hsplit
            subst hsplit
            exact
              @nextBy?_of_tag scanner cut ('/' :: body) rest hstands hleft hcut

end StandsBefore

/-- The calls on a text read it from its beginning to its end: each of the
first calls answers the piece that it reads, the bytes read are those of the
text, and from then on the scanner stays at the end.  In none of the calls is a
range cut that does not begin and end between characters. -/
theorem calls_read_input (input : Text) :
    let scanner (turn : Nat) := (start input).afterCalls turn
    ∃ count ≤ input.byteLength,
      (∀ turn < count,
        ∃ piece,
          (scanner turn).call.1 = some piece ∧
            (scanner turn).Reads piece (scanner (turn + 1))) ∧
      (∀ turn ≥ count,
        (scanner turn).call.1 = none ∧
          (scanner turn).position = input.byteLength) ∧
      ((List.range count).flatMap fun turn =>
          (scanner turn).bytesUntil (scanner (turn + 1))) = input.bytes ∧
      ∀ turn cut, Text.CutsExactRanges cut →
        (scanner turn).nextBy? cut = (scanner turn).next? := by
  intro scanner
  have hstart := standsBefore_start input
  obtain ⟨count, hcount, hpieces, hend, hconcat⟩ := hstart.exists_count
  refine ⟨count, hcount, hpieces, hend, hconcat, ?_⟩
  intro turn cut hcut
  obtain ⟨rest, hrest⟩ := hstart.exists_afterCalls turn
  exact hrest.nextBy?_eq hcut

example :
    let scanner (turn : Nat) := (start "é\\<<b>".toList).afterCalls turn
    (List.range 4).map
        (fun turn => ((scanner turn).position, (scanner turn).call.1)) =
      [(0, some (.text "é".toList)), (2, some (.text "<".toList)),
        (4, some (.opening "<b>".toList "b".toList)), (7, none)] := by
  decide +kernel

end Scanner

/-! ## What is left of a text -/

/-- What is left of a text when some number of events has been read. -/
def restAfter (text : Text) : Nat → Text
  | 0 => text
  | turn + 1 =>
      match nextEvent? text with
      | some (_, rest) => restAfter rest turn
      | none => text

theorem restAfter_succ {text rest : Text} {event : Event}
    (hnext : nextEvent? text = some (event, rest)) (turn : Nat) :
    restAfter text (turn + 1) = restAfter rest turn := by
  rw [restAfter, hnext]

theorem restAfter_nil (turn : Nat) : restAfter [] turn = [] := by
  cases turn with
  | zero => rfl
  | succ turn => simp [restAfter]

theorem restAfter_length_events (text : Text) :
    restAfter text (events text).length = [] := by
  induction text using events.induct with
  | case1 text hnone =>
      rw [eq_nil_of_nextEvent?_eq_none hnone, restAfter_nil]
  | case2 text event rest hnext ih =>
      rw [events_of_nextEvent? hnext, List.length_cons, restAfter_succ hnext, ih]

theorem restAfter_add (text : Text) (first second : Nat) :
    restAfter text (first + second) =
      restAfter (restAfter text first) second := by
  induction first generalizing text with
  | zero => rw [Nat.zero_add, restAfter]
  | succ first ih =>
      cases hnext : nextEvent? text with
      | none =>
          rw [eq_nil_of_nextEvent?_eq_none hnext, restAfter_nil, restAfter_nil,
            restAfter_nil]
      | some found =>
          rw [Nat.add_right_comm, restAfter_succ hnext, restAfter_succ hnext, ih]

/-- Until the last tag is read, the text behind it is left untouched. -/
theorem EndsWithTag.restAfter_append {before : Text}
    (hbefore : EndsWithTag before) (after : Text) {turn : Nat}
    (hturn : turn ≤ (events before).length) :
    restAfter (before ++ after) turn = restAfter before turn ++ after := by
  induction turn generalizing before with
  | zero => rfl
  | succ turn ih =>
      cases hnext : nextEvent? before with
      | none =>
          rw [eq_nil_of_nextEvent?_eq_none hnext, events_nil] at hturn
          contradiction
      | some found =>
          obtain ⟨event, rest⟩ := found
          have hevents := events_of_nextEvent? hnext
          rw [restAfter_succ (hbefore.nextEvent?_append hnext after),
            restAfter_succ hnext]
          by_cases hrest : rest = []
          · rw [hevents, hrest, events_nil, List.length_singleton] at hturn
            obtain rfl : turn = 0 := by omega
            rfl
          · apply ih (hbefore.of_cons hevents hrest)
            rw [hevents, List.length_cons] at hturn
            omega

/-! ## Where the scanner stands -/

namespace Scanner

theorem input_afterCalls (scanner : Scanner) (turn : Nat) :
    (scanner.afterCalls turn).input = scanner.input := by
  induction turn with
  | zero => rfl
  | succ turn ih =>
      rw [afterCalls, ← ih, call]
      cases hnext : (scanner.afterCalls turn).next? with
      | none => rfl
      | some found => exact (position_lt_of_next? hnext).1

namespace StandsBefore

variable {scanner : Scanner} {text : Text}

theorem afterCalls (hstands : scanner.StandsBefore text) (turn : Nat) :
    (scanner.afterCalls turn).StandsBefore (restAfter text turn) := by
  induction turn generalizing scanner text with
  | zero => exact hstands
  | succ turn ih =>
      rw [afterCalls_succ]
      cases hnext : nextEvent? text with
      | none =>
          obtain rfl := eq_nil_of_nextEvent?_eq_none hnext
          rw [call_of_next?_eq_none hstands.next?_of_nil, restAfter_nil]
          simpa [restAfter_nil] using ih hstands
      | some found =>
          obtain ⟨following, hfollowing, hrest⟩ :=
            hstands.next?_of_nextEvent? hnext
          rw [call_of_next? hfollowing, restAfter_succ hnext]
          exact ih hrest

theorem position_add_byteLength (hstands : scanner.StandsBefore text) :
    scanner.position + text.byteLength = scanner.input.byteLength := by
  obtain ⟨front, hinput, hposition⟩ := hstands
  rw [hinput, hposition, Text.byteLength_append]

end StandsBefore

theorem position_afterCalls_start (input : Text) (turn : Nat) :
    ((start input).afterCalls turn).position +
        (restAfter input turn).byteLength =
      input.byteLength := by
  have hstands := (standsBefore_start input).afterCalls turn
  rw [hstands.position_add_byteLength, input_afterCalls]
  rfl

theorem endsWithTag_of_getLast? {input : Text} {tag : Piece}
    (hlast : (start input).pieces.getLast? = some tag)
    (htag : tag.event.isTag = true) : EndsWithTag input := by
  refine ⟨tag.event, ?_, htag⟩
  rw [← map_event_pieces, List.getLast?_map, hlast]
  rfl

/-- A tag cuts the scan in two: a text with a tag at its end and the text behind
it are scanned one after the other, each as if there were only one of them.
Neither the pieces nor the places at which the scanner stops between them
change. -/
theorem pieces_append_of_tag {before : Text} {tag : Piece}
    (hlast : (start before).pieces.getLast? = some tag)
    (htag : tag.event.isTag = true) (after : Text) :
    let whole (turn : Nat) := (start (before ++ after)).afterCalls turn
    let count := (start before).pieces.length
    (start (before ++ after)).pieces =
        (start before).pieces ++ (start after).pieces ∧
      (∀ turn ≤ count,
        (whole turn).position = ((start before).afterCalls turn).position) ∧
      ∀ turn,
        (whole (count + turn)).position =
          before.byteLength + ((start after).afterCalls turn).position := by
  intro whole count
  have hbefore := endsWithTag_of_getLast? hlast htag
  have hpieces (text : Text) :
      (start text).pieces = (events text).map Event.piece :=
    (standsBefore_start text).pieces_eq
  have hcount : count = (events before).length := by
    simp only [count, hpieces, List.length_map]
  refine ⟨?_, ?_, ?_⟩
  · rw [hpieces, hpieces, hpieces, hbefore.events_append, List.map_append]
  · intro turn hturn
    have hwhole := position_afterCalls_start (before ++ after) turn
    have hfirst := position_afterCalls_start before turn
    rw [hbefore.restAfter_append after (hcount ▸ hturn),
      Text.byteLength_append, Text.byteLength_append] at hwhole
    change ((start (before ++ after)).afterCalls turn).position = _
    omega
  · intro turn
    have hwhole := position_afterCalls_start (before ++ after) (count + turn)
    have hsecond := position_afterCalls_start after turn
    rw [restAfter_add, hcount, hbefore.restAfter_append after (Nat.le_refl _),
      restAfter_length_events, List.nil_append, Text.byteLength_append,
      ← hcount] at hwhole
    change ((start (before ++ after)).afterCalls (count + turn)).position = _
    omega

/-- The tag `<a` is open up to the end, and what follows would close it. -/
theorem pieces_append_of_tag_open_bracket :
    let before := "<a\\<b</>".toList
    let after := "c>\\<d>".toList
    (start before).pieces.getLast? = some (.closing "</>".toList []) ∧
      (start (before ++ after)).pieces =
        (start before).pieces ++
          [.text "c>".toList, .text "<".toList, .text "d>".toList] ∧
      ((start (before ++ after)).afterCalls 4).position = 8 := by
  intro before after
  have hlast :
      (start before).pieces.getLast? = some (.closing "</>".toList []) := by
    decide +kernel
  have hafter :
      (start after).pieces =
        [.text "c>".toList, .text "<".toList, .text "d>".toList] := by
    decide +kernel
  obtain ⟨hpieces, hfirst, -⟩ := pieces_append_of_tag hlast rfl after
  have hcount : (start before).pieces.length = 4 := by decide +kernel
  have hend : ((start before).afterCalls 4).position = 8 := by decide +kernel
  rw [hafter] at hpieces
  exact ⟨hlast, hpieces, (hfirst 4 (Nat.le_of_eq hcount.symm)).trans hend⟩

end Scanner

end TerminalMarkup
