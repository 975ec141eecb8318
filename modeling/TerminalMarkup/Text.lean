/-!
# Texts and their byte ranges

A text is the list of its characters.  Blanks are the characters with the
Unicode property `White_Space`, and only ASCII letters have two cases.  Ranges
count the bytes of the UTF-8 form, and an offset inside a character counts as
the offset at which that character starts.
-/

namespace TerminalMarkup

/-- A text is the list of its characters, one per Unicode scalar value. -/
abbrev Text := List Char

/-- The code points with the property `White_Space`, as closed ranges. -/
def blankRanges : List (Nat × Nat) :=
  [(0x09, 0x0d), (0x20, 0x20), (0x85, 0x85), (0xa0, 0xa0), (0x1680, 0x1680),
    (0x2000, 0x200a), (0x2028, 0x2029), (0x202f, 0x202f), (0x205f, 0x205f),
    (0x3000, 0x3000)]

def isBlank (char : Char) : Bool :=
  blankRanges.any fun range =>
    range.1 ≤ char.toNat && char.toNat ≤ range.2

namespace Text

def trimStart (text : Text) : Text :=
  text.dropWhile isBlank

def trimEnd (text : Text) : Text :=
  (trimStart text.reverse).reverse

def trim (text : Text) : Text :=
  trimEnd (trimStart text)

/-- Replace the ASCII capitals by their small letters and keep all else, so
letters beyond ASCII keep their case. -/
def lowerCase (text : Text) : Text :=
  text.map Char.toLower

/-- What stands before and after the first `mark`, if there is one. -/
def cut? (mark : Char) (text : Text) : Option (Text × Text) :=
  match text.dropWhile (· != mark) with
  | [] => none
  | _ :: after => some (text.takeWhile (· != mark), after)

/-- The decimal digits of a number, without leading zeros. -/
def ofNat (number : Nat) : Text :=
  Nat.toDigits 10 number

end Text

/-! ## Byte ranges -/

namespace Text

/-- The number of bytes of the UTF-8 form. -/
def byteLength : Text → Nat
  | [] => 0
  | char :: rest => char.utf8Size + byteLength rest

/-- The longest beginning of the text that fits in `count` bytes. -/
def takeBytes : Nat → Text → Text
  | _, [] => []
  | count, char :: rest =>
      if char.utf8Size ≤ count then
        char :: takeBytes (count - char.utf8Size) rest
      else
        []

/-- What follows the longest beginning that fits in `count` bytes. -/
def dropBytes : Nat → Text → Text
  | _, [] => []
  | count, char :: rest =>
      if char.utf8Size ≤ count then
        dropBytes (count - char.utf8Size) rest
      else
        char :: rest

/-- The characters between two byte offsets.  A range whose start is not below
its end is empty. -/
def substring (text : Text) (start stop : Int) : Text :=
  (text.takeBytes stop.toNat).dropBytes start.toNat

theorem takeBytes_append_dropBytes (count : Nat) (text : Text) :
    text.takeBytes count ++ text.dropBytes count = text := by
  induction text generalizing count with
  | nil => rfl
  | cons char rest ih =>
      simp only [takeBytes, dropBytes]
      split
      · simp [ih]
      · rfl

theorem dropBytes_of_byteLength_le {text : Text} {count : Nat}
    (hcount : text.byteLength ≤ count) : text.dropBytes count = [] := by
  induction text generalizing count with
  | nil => rfl
  | cons char rest ih =>
      simp only [byteLength] at hcount
      rw [dropBytes, if_pos (by omega)]
      exact ih (by omega)

theorem takeBytes_of_byteLength_le {text : Text} {count : Nat}
    (hcount : text.byteLength ≤ count) : text.takeBytes count = text := by
  have happend := takeBytes_append_dropBytes count text
  rwa [dropBytes_of_byteLength_le hcount, List.append_nil] at happend

theorem byteLength_pos {text : Text} (htext : text ≠ []) :
    0 < text.byteLength := by
  cases text with
  | nil => contradiction
  | cons char rest =>
      have := char.utf8Size_pos
      simp only [byteLength]
      omega

theorem byteLength_append (front back : Text) :
    (front ++ back).byteLength = front.byteLength + back.byteLength := by
  induction front with
  | nil => simp [byteLength]
  | cons char rest ih => simp [byteLength, ih, Nat.add_assoc]

theorem takeBytes_append (front back : Text) (count : Nat) :
    (front ++ back).takeBytes (front.byteLength + count) =
      front ++ back.takeBytes count := by
  induction front with
  | nil => simp [byteLength]
  | cons char rest ih =>
      have hcount :
          char.utf8Size + byteLength rest + count - char.utf8Size =
            byteLength rest + count := by
        omega
      rw [List.cons_append, byteLength, takeBytes, if_pos (by omega), hcount,
        ih, List.cons_append]

theorem dropBytes_append (front back : Text) (count : Nat) :
    (front ++ back).dropBytes (front.byteLength + count) =
      back.dropBytes count := by
  induction front with
  | nil => simp [byteLength]
  | cons char rest ih =>
      have hcount :
          char.utf8Size + byteLength rest + count - char.utf8Size =
            byteLength rest + count := by
        omega
      rw [List.cons_append, byteLength, dropBytes, if_pos (by omega), hcount,
        ih]

theorem dropBytes_zero (text : Text) : text.dropBytes 0 = text := by
  cases text with
  | nil => rfl
  | cons char rest =>
      have := char.utf8Size_pos
      rw [dropBytes, if_neg (by omega)]

theorem takeBytes_zero (text : Text) : text.takeBytes 0 = [] := by
  cases text with
  | nil => rfl
  | cons char rest =>
      have := char.utf8Size_pos
      rw [takeBytes, if_neg (by omega)]

/-- A range that begins and ends between characters is what stands there. -/
theorem substring_append (front middle back : Text) {start stop : Int}
    (hstart : start = front.byteLength)
    (hstop : stop = front.byteLength + middle.byteLength) :
    (front ++ (middle ++ back)).substring start stop = middle := by
  have htake := takeBytes_append (front ++ middle) back 0
  have hdrop := dropBytes_append front middle 0
  rw [takeBytes_zero, List.append_nil, List.append_assoc,
    byteLength_append] at htake
  rw [dropBytes_zero] at hdrop
  have hcount : stop.toNat = front.byteLength + middle.byteLength + 0 := by
    omega
  have hfrom : start.toNat = front.byteLength + 0 := by
    omega
  rw [substring, hcount, hfrom, htake, hdrop]

theorem substring_append_left (front back : Text) :
    (front ++ back).substring 0 front.byteLength = front :=
  substring_append [] front back rfl (Int.zero_add _).symm

theorem substring_append_right (front back : Text) :
    (front ++ back).substring front.byteLength (front ++ back).byteLength =
      back := by
  have hstop :
      ((front ++ back).byteLength : Int) =
        front.byteLength + back.byteLength := by
    rw [byteLength_append]
    exact Int.natCast_add _ _
  have hcut := substring_append front back [] rfl hstop
  rwa [List.append_nil] at hcut

end Text

end TerminalMarkup
