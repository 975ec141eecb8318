import Mathlib.Data.List.Forall2
import Mathlib.Data.List.TakeWhile
import TerminalMarkup.Color

/-!
# The grammar of color tokens

No token has two of the shapes, so the order in which they are tried does not
count.  The reader of hexadecimal digits is also told by slices of two bytes,
which never fall within a character.
-/

namespace TerminalMarkup

/-- The value of a hexadecimal digit: its place behind `0`, or behind `a` for
those from ten. -/
def IsHexDigit (char : Char) (value : Nat) : Prop :=
  (value < 10 ∧ char.toNat = 0x30 + value) ∨
    (10 ≤ value ∧ value < 16 ∧ char.toNat + 10 = 0x61 + value)

/-- Two hexadecimal digits write a byte. -/
def WritesByte (high low : Char) (byte : UInt8) : Prop :=
  ∃ first second,
    IsHexDigit high first ∧ IsHexDigit low second ∧
      byte.toNat = 16 * first + second

/-- Six hexadecimal digits write a mixture, two for each channel. -/
inductive WritesRgb : Text → Rgb → Prop
  | digits {red red' green green' blue blue' : Char} {value : Rgb}
      (hred : WritesByte red red' value.red)
      (hgreen : WritesByte green green' value.green)
      (hblue : WritesByte blue blue' value.blue) :
      WritesRgb [red, red', green, green', blue, blue'] value

/-- A hue is written by its name, and magenta also as purple. -/
def Hue.IsWrittenAs (hue : Hue) (word : Text) : Prop :=
  word = hue.name ∨ (hue = .magenta ∧ word = "purple".toList)

/-- A token without blanks and capitals writes a color. -/
inductive WritesColor : Text → Color → Prop
  | longMixture {digits : Text} {value : Rgb}
      (hdigits : WritesRgb digits value) :
      WritesColor ('#' :: digits) (.rgb value)
  | shortMixture {red green blue : Char} {value : Rgb}
      (hdigits : WritesRgb [red, red, green, green, blue, blue] value) :
      WritesColor ['#', red, green, blue] (.rgb value)
  | number {sign digits : Text} {number : UInt8}
      (hsign : sign = [] ∨ sign = ['+']) (hdigits : digits ≠ [])
      (hall : ∀ char ∈ digits, char.isDigit = true)
      (hvalue : Nat.ofDigitChars 10 digits 0 = number.toNat) :
      WritesColor (sign ++ digits) (.indexed number)
  | default : WritesColor "default".toList .default
  | hue {hue : Hue} {word : Text} (hword : hue.IsWrittenAs word) :
      WritesColor word (.named ⟨.normal, hue⟩)
  | gray : WritesColor "gray".toList (.named ⟨.bright, .black⟩)
  | grey : WritesColor "grey".toList (.named ⟨.bright, .black⟩)
  | bright {hue : Hue} {word : Text} (hword : hue.IsWrittenAs word) :
      WritesColor ("bright-".toList ++ word) (.named ⟨.bright, hue⟩)

/-! ## Hexadecimal digits -/

theorem IsHexDigit.lt {char : Char} {value : Nat}
    (hdigit : IsHexDigit char value) : value < 16 := by
  unfold IsHexDigit at hdigit
  omega

theorem hexDigit?_eq_some_iff (char : Char) (value : Nat) :
    hexDigit? char = some value ↔ IsHexDigit char value := by
  constructor
  · intro hvalue
    obtain ⟨hplace, hchar, -⟩ := List.idxOf?_eq_some_iff.mp hvalue
    have hall :
        ∀ entry ∈ "0123456789abcdef".toList.zipIdx,
          IsHexDigit entry.1 entry.2 := by
      unfold IsHexDigit
      decide
    apply hall (char, value)
    rw [List.mk_mem_zipIdx_iff_getElem?]
    exact List.getElem?_eq_some_iff.mpr ⟨hplace, hchar⟩
  · intro hdigit
    have hdecimal :
        ∀ place : Fin 10,
          hexDigit? (Char.ofNat (0x30 + place.val)) = some place.val := by
      decide
    have hletter :
        ∀ place : Fin 6,
          hexDigit? (Char.ofNat (0x61 + place.val)) =
            some (10 + place.val) := by
      decide
    rw [← Char.ofNat_toNat char]
    rcases hdigit with ⟨hvalue, hnumber⟩ | ⟨hten, hvalue, hnumber⟩
    · rw [hnumber]
      exact hdecimal ⟨value, hvalue⟩
    · obtain ⟨place, rfl⟩ := Nat.exists_eq_add_of_le hten
      have hplace : char.toNat = 0x61 + place := by omega
      rw [hplace]
      exact hletter ⟨place, by omega⟩

theorem mapM_eq_some_iff {α β : Type} {read : α → Option β} {list : List α}
    {results : List β} :
    list.mapM read = some results ↔
      List.Forall₂ (fun item result => read item = some result) list
        results := by
  induction list generalizing results with
  | nil => cases results <;> simp
  | cons first rest ih =>
      simp only [List.mapM_cons, Option.bind_eq_bind, Option.bind_eq_some_iff,
        Option.pure_def, Option.some.injEq, List.forall₂_cons_left_iff, ih]
      grind

theorem writesByte_iff (high low : Char) (byte : UInt8) :
    WritesByte high low byte ↔
      ∃ first second,
        hexDigit? high = some first ∧ hexDigit? low = some second ∧
          UInt8.ofNat (16 * first + second) = byte := by
  simp only [WritesByte, hexDigit?_eq_some_iff]
  refine exists₂_congr fun first second => and_congr_right fun hfirst =>
    and_congr_right fun hsecond => ?_
  have hfirstBound := hfirst.lt
  have hsecondBound := hsecond.lt
  rw [← UInt8.toNat_inj, UInt8.toNat_ofNat_of_lt' (by show _ < 256; omega)]
  exact eq_comm

namespace Rgb

theorem ofHex?_of_writesRgb {digits : Text} {value : Rgb}
    (hdigits : WritesRgb digits value) : ofHex? digits = some value := by
  obtain ⟨hred, hgreen, hblue⟩ := hdigits
  obtain ⟨red, red', hr, hr', hredValue⟩ := (writesByte_iff _ _ _).mp hred
  obtain ⟨green, green', hg, hg', hgreenValue⟩ :=
    (writesByte_iff _ _ _).mp hgreen
  obtain ⟨blue, blue', hb, hb', hblueValue⟩ := (writesByte_iff _ _ _).mp hblue
  simp [ofHex?, hr, hr', hg, hg', hb, hb', hredValue, hgreenValue, hblueValue]

/-- A digit that stands for itself twice counts seventeen times. -/
theorem ofHex?_twice (red green blue : Char) :
    ofHex? [red, red, green, green, blue, blue] =
      ofHex? [red, green, blue] := by
  have htwice (digit : Nat) : 16 * digit + digit = 17 * digit := by omega
  simp only [ofHex?, List.mapM_cons, List.mapM_nil]
  cases hexDigit? red <;> cases hexDigit? green <;> cases hexDigit? blue <;>
    simp [htwice]

theorem ofHex?_eq_some_iff (digits : Text) (value : Rgb) :
    ofHex? digits = some value ↔
      WritesRgb digits value ∨
        ∃ red green blue,
          digits = [red, green, blue] ∧
            WritesRgb [red, red, green, green, blue, blue] value := by
  constructor
  · intro hvalue
    unfold ofHex? at hvalue
    split at hvalue
    next red green blue hread =>
      have htwice (digit : Nat) :
          UInt8.ofNat (16 * digit + digit) = UInt8.ofNat (17 * digit) := by
        congr 1
        omega
      rw [mapM_eq_some_iff] at hread
      obtain _ | ⟨hred, _ | ⟨hgreen, _ | ⟨hblue, _ | _⟩⟩⟩ := hread
      obtain rfl := Option.some.inj hvalue
      refine .inr ⟨_, _, _, rfl, .digits ?_ ?_ ?_⟩
      · exact (writesByte_iff _ _ _).mpr ⟨red, red, hred, hred, htwice red⟩
      · exact
          (writesByte_iff _ _ _).mpr
            ⟨green, green, hgreen, hgreen, htwice green⟩
      · exact (writesByte_iff _ _ _).mpr ⟨blue, blue, hblue, hblue, htwice blue⟩
    next red red' green green' blue blue' hread =>
      rw [mapM_eq_some_iff] at hread
      obtain _ | ⟨hr, _ | ⟨hr', _ | ⟨hg, hrest⟩⟩⟩ := hread
      obtain _ | ⟨hg', _ | ⟨hb, _ | ⟨hb', _ | _⟩⟩⟩ := hrest
      obtain rfl := Option.some.inj hvalue
      refine .inl (.digits ?_ ?_ ?_)
      · exact (writesByte_iff _ _ _).mpr ⟨red, red', hr, hr', rfl⟩
      · exact (writesByte_iff _ _ _).mpr ⟨green, green', hg, hg', rfl⟩
      · exact (writesByte_iff _ _ _).mpr ⟨blue, blue', hb, hb', rfl⟩
    · contradiction
  · rintro (hlong | ⟨red, green, blue, rfl, hshort⟩)
    · exact ofHex?_of_writesRgb hlong
    · rw [← ofHex?_twice]
      exact ofHex?_of_writesRgb hshort

end Rgb

/-! ## Numbers and words -/

theorem paletteNumber?_append {sign digits : Text}
    (hsign : (sign = [] ∧ digits.head? ≠ some '+') ∨ sign = ['+'])
    (number : UInt8) :
    paletteNumber? (sign ++ digits) = some number ↔
      digits ≠ [] ∧ (∀ char ∈ digits, char.isDigit = true) ∧
        Nat.ofDigitChars 10 digits 0 = number.toNat := by
  have hread :
      paletteNumber? (sign ++ digits) =
        if digits ≠ [] ∧ ∀ char ∈ digits, char.isDigit = true then
          if Nat.ofDigitChars 10 digits 0 ≤ 255 then
            some (UInt8.ofNat (Nat.ofDigitChars 10 digits 0))
          else none
        else none := by
    simp only [paletteNumber?, ← List.all_eq_true]
    rcases hsign with ⟨rfl, hhead⟩ | rfl
    · rw [List.nil_append]
      split
      · simp at hhead
      · rfl
    · rfl
  rw [hread]
  by_cases hdigits : digits ≠ [] ∧ ∀ char ∈ digits, char.isDigit = true
  · rw [if_pos hdigits]
    by_cases hvalue : Nat.ofDigitChars 10 digits 0 ≤ 255
    · rw [if_pos hvalue, Option.some.injEq, ← UInt8.toNat_inj,
        UInt8.toNat_ofNat_of_lt' (by show _ < 256; omega)]
      constructor
      · intro hsame
        exact ⟨hdigits.1, hdigits.2, hsame⟩
      · rintro ⟨-, -, hsame⟩
        exact hsame
    · have hnumber := number.toNat_lt
      rw [if_neg hvalue]
      constructor
      · intro hnone
        contradiction
      · rintro ⟨-, -, hsame⟩
        omega
  · rw [if_neg hdigits]
    constructor
    · intro hnone
      contradiction
    · rintro ⟨hne, hall, -⟩
      exact absurd ⟨hne, hall⟩ hdigits

theorem paletteNumber?_eq_some_iff (token : Text) (number : UInt8) :
    paletteNumber? token = some number ↔
      ∃ sign digits,
        (sign = [] ∨ sign = ['+']) ∧ token = sign ++ digits ∧ digits ≠ [] ∧
          (∀ char ∈ digits, char.isDigit = true) ∧
          Nat.ofDigitChars 10 digits 0 = number.toNat := by
  constructor
  · intro hnumber
    by_cases hsign : token.head? = some '+'
    · obtain ⟨digits, rfl⟩ := List.head?_eq_some_iff.mp hsign
      exact
        ⟨['+'], digits, .inr rfl, rfl,
          (paletteNumber?_append (.inr rfl) number).mp hnumber⟩
    · exact
        ⟨[], token, .inl rfl, rfl,
          (paletteNumber?_append (.inl ⟨rfl, hsign⟩) number).mp hnumber⟩
  · rintro ⟨sign, digits, hsign, rfl, hdigits⟩
    apply (paletteNumber?_append ?_ number).mpr hdigits
    rcases hsign with rfl | rfl
    · refine .inl ⟨rfl, fun hhead => ?_⟩
      have hplus := hdigits.2.1 '+' (List.mem_of_mem_head? hhead)
      contradiction
    · exact .inr rfl

theorem Hue.ofWord?_eq_some_iff (word : Text) (hue : Hue) :
    Hue.ofWord? word = some hue ↔ hue.IsWrittenAs word := by
  constructor
  · intro hfound
    obtain ⟨before, after, hsplit, -⟩ := List.lookup_eq_some_iff.mp hfound
    have hmem : (word, hue) ∈ words := by
      simp [hsplit]
    rcases List.mem_cons.mp hmem with hsecond | hname
    · simp only [Prod.mk.injEq] at hsecond
      exact .inr ⟨hsecond.2, hsecond.1⟩
    · obtain ⟨other, -, hother⟩ := List.mem_map.mp hname
      simp only [Prod.mk.injEq] at hother
      rw [hother.2] at hother
      exact .inl hother.1.symm
  · rintro (rfl | ⟨rfl, rfl⟩)
    · cases hue <;> decide
    · decide

namespace Color

theorem writesColor_of_ofWord? {word : Text} {color : Color}
    (hword : ofWord? word = some color) : WritesColor word color := by
  unfold ofWord? at hword
  split at hword
  next hdefault =>
    obtain rfl := Option.some.inj hword
    rw [hdefault]
    exact .default
  · split at hword
    next hgray =>
      obtain rfl := Option.some.inj hword
      rcases hgray with rfl | rfl
      · exact .gray
      · exact .grey
    · obtain ⟨hue, hhue, rfl⟩ := Option.map_eq_some_iff.mp hword
      exact .hue ((Hue.ofWord?_eq_some_iff _ _).mp hhue)

theorem writesColor_of_ofPlainToken? {token : Text} {color : Color}
    (htoken : ofPlainToken? token = some color) : WritesColor token color := by
  unfold ofPlainToken? at htoken
  split at htoken
  next digits =>
    obtain ⟨value, hvalue, rfl⟩ := Option.map_eq_some_iff.mp htoken
    rcases (Rgb.ofHex?_eq_some_iff _ _).mp hvalue with
      hlong | ⟨red, green, blue, rfl, hshort⟩
    · exact .longMixture hlong
    · exact .shortMixture hshort
  · split at htoken
    next number hnumber =>
      obtain rfl := Option.some.inj htoken
      obtain ⟨sign, digits, hsign, rfl, hdigits, hall, hvalue⟩ :=
        (paletteNumber?_eq_some_iff _ _).mp hnumber
      exact .number hsign hdigits hall hvalue
    · split at htoken
      next hbright =>
        obtain ⟨hue, hhue, rfl⟩ := Option.map_eq_some_iff.mp htoken
        have hprefix := List.isPrefixOf_iff_prefix.mp hbright
        rw [← List.prefix_iff_eq_append.mp hprefix]
        exact .bright ((Hue.ofWord?_eq_some_iff _ _).mp hhue)
      · exact writesColor_of_ofWord? htoken

theorem ofPlainToken?_of_paletteNumber? {token : Text} {number : UInt8}
    (hnumber : paletteNumber? token = some number) :
    ofPlainToken? token = some (.indexed number) := by
  unfold ofPlainToken?
  split
  next digits =>
    obtain ⟨-, hall, -⟩ :=
      (paletteNumber?_append (.inl ⟨rfl, by simp⟩) number).mp hnumber
    exact absurd (hall '#' List.mem_cons_self) (by decide)
  · rw [hnumber]

theorem ofPlainToken?_of_writesColor {token : Text} {color : Color}
    (hwrites : WritesColor token color) : ofPlainToken? token = some color := by
  cases hwrites with
  | longMixture hdigits =>
      simp [ofPlainToken?, Rgb.ofHex?_of_writesRgb hdigits]
  | shortMixture hdigits =>
      simp [ofPlainToken?, ← Rgb.ofHex?_twice, Rgb.ofHex?_of_writesRgb hdigits]
  | number hsign hdigits hall hvalue =>
      apply ofPlainToken?_of_paletteNumber?
      exact
        (paletteNumber?_eq_some_iff _ _).mpr
          ⟨_, _, hsign, rfl, hdigits, hall, hvalue⟩
  | default => decide
  | @hue hue word hword =>
      rcases hword with rfl | ⟨rfl, rfl⟩
      · cases hue <;> decide
      · decide
  | gray => decide
  | grey => decide
  | @bright hue word hword =>
      rcases hword with rfl | ⟨rfl, rfl⟩
      · cases hue <;> decide
      · decide

theorem ofPlainToken?_eq_some_iff (token : Text) (color : Color) :
    ofPlainToken? token = some color ↔ WritesColor token color :=
  ⟨writesColor_of_ofPlainToken?, ofPlainToken?_of_writesColor⟩

end Color

/-! ## Digits by bytes -/

/-- The characters between two byte offsets, if both offsets stand between
characters of the text in this order. -/
def Text.slice? (text : Text) (start stop : Nat) : Option Text :=
  if start ≤ stop ∧ (text.takeBytes start).byteLength = start ∧
      (text.takeBytes stop).byteLength = stop then
    some ((text.takeBytes stop).dropBytes start)
  else
    none

/-- The byte that hexadecimal digits write, if there are any and it fits. -/
def hexByte? (digits : Text) : Option UInt8 :=
  match digits.mapM hexDigit? with
  | some (first :: rest) =>
      let value :=
        (first :: rest).foldl (fun value digit => 16 * value + digit) 0
      if value ≤ 255 then some (UInt8.ofNat value) else none
  | _ => none

/-- Digits read by their number of bytes and by slices; there is no answer at
all if a slice cannot be cut. -/
def Rgb.ofHexSlices? (digits : Text) : Option (Option Rgb) :=
  if digits.all fun char => (hexDigit? char).isSome then
    match digits.byteLength with
    | 3 =>
        match digits.filterMap hexDigit? with
        | red :: green :: blue :: _ =>
            some (some
              ⟨UInt8.ofNat (17 * red), UInt8.ofNat (17 * green),
                UInt8.ofNat (17 * blue)⟩)
        | _ => some none
    | 6 => do
        let red ← digits.slice? 0 2
        let green ← digits.slice? 2 4
        let blue ← digits.slice? 4 6
        return do
          return ⟨← hexByte? red, ← hexByte? green, ← hexByte? blue⟩
    | _ => some none
  else
    some none

theorem mapM_isSome_iff {α β : Type} (read : α → Option β) (list : List α) :
    (list.mapM read).isSome ↔ ∀ item ∈ list, (read item).isSome := by
  induction list with
  | nil => simp
  | cons first rest ih =>
      rw [List.forall_mem_cons, ← ih, List.mapM_cons]
      cases read first <;> cases rest.mapM read <;> simp

theorem utf8Size_eq_of_hexDigit? {char : Char}
    (hdigit : (hexDigit? char).isSome) : char.utf8Size = 1 := by
  obtain ⟨value, hvalue⟩ := Option.isSome_iff_exists.mp hdigit
  have hwritten := (hexDigit?_eq_some_iff _ _).mp hvalue
  unfold IsHexDigit at hwritten
  rw [Char.utf8Size_eq_one_iff, UInt32.le_iff_toNat_le]
  show char.toNat ≤ 127
  omega

theorem hexByte?_pair {high low : Char} {first second : Nat}
    (hfirst : hexDigit? high = some first)
    (hsecond : hexDigit? low = some second) :
    hexByte? [high, low] = some (UInt8.ofNat (16 * first + second)) := by
  have hfirstBound := ((hexDigit?_eq_some_iff _ _).mp hfirst).lt
  have hsecondBound := ((hexDigit?_eq_some_iff _ _).mp hsecond).lt
  have hfits : 16 * first + second ≤ 255 := by omega
  simp [hexByte?, hfirst, hsecond, hfits]

theorem byteLength_eq_of_hexDigit? {digits : Text}
    (hall : ∀ char ∈ digits, (hexDigit? char).isSome) :
    digits.byteLength = digits.length := by
  induction digits with
  | nil => rfl
  | cons char rest ih =>
      obtain ⟨hchar, hrest⟩ := List.forall_mem_cons.mp hall
      rw [Text.byteLength, utf8Size_eq_of_hexDigit? hchar, ih hrest,
        List.length_cons, Nat.add_comm]

/-- Six characters of one byte each fall into three pairs. -/
theorem Text.slice?_pairs {a b c d e f : Char}
    (hsize : ∀ char ∈ [a, b, c, d, e, f], char.utf8Size = 1) :
    Text.slice? [a, b, c, d, e, f] 0 2 = some [a, b] ∧
      Text.slice? [a, b, c, d, e, f] 2 4 = some [c, d] ∧
      Text.slice? [a, b, c, d, e, f] 4 6 = some [e, f] := by
  simp only [List.forall_mem_cons] at hsize
  obtain ⟨ha, hb, hc, hd, he, hf, -⟩ := hsize
  simp [slice?, takeBytes, dropBytes, byteLength, ha, hb, hc, hd, he, hf]

namespace Rgb

theorem length_of_ofHex? {digits : Text} {value : Rgb}
    (hvalue : ofHex? digits = some value) :
    digits.length = 3 ∨ digits.length = 6 := by
  rcases (ofHex?_eq_some_iff _ _).mp hvalue with
    hlong | ⟨red, green, blue, rfl, -⟩
  · obtain ⟨-, -, -⟩ := hlong
    exact .inr rfl
  · exact .inl rfl

/-- Only digits are cut, so no slice begins or ends within a character. -/
theorem ofHexSlices?_eq (digits : Text) :
    ofHexSlices? digits = some (ofHex? digits) := by
  by_cases hall : ∀ char ∈ digits, (hexDigit? char).isSome
  · obtain ⟨values, hvalues⟩ :=
      Option.isSome_iff_exists.mp ((mapM_isSome_iff _ _).mpr hall)
    rw [mapM_eq_some_iff] at hvalues
    rw [ofHexSlices?, if_pos (List.all_eq_true.mpr hall),
      byteLength_eq_of_hexDigit? hall]
    split
    next hlength =>
      obtain ⟨a, b, c, rfl⟩ := List.length_eq_three.mp hlength
      obtain _ | ⟨ha, _ | ⟨hb, _ | ⟨hc, _ | _⟩⟩⟩ := hvalues
      simp [ofHex?, ha, hb, hc]
    next hlength =>
      match digits, hlength, hall, hvalues with
      | [a, b, c, d, e, f], _, hall, hvalues =>
          obtain _ | ⟨ha, _ | ⟨hb, _ | ⟨hc, hrest⟩⟩⟩ := hvalues
          obtain _ | ⟨hd, _ | ⟨he, _ | ⟨hf, _ | _⟩⟩⟩ := hrest
          obtain ⟨hred, hgreen, hblue⟩ := Text.slice?_pairs fun char hchar =>
            utf8Size_eq_of_hexDigit? (hall char hchar)
          simp [hred, hgreen, hblue, hexByte?_pair ha hb, hexByte?_pair hc hd,
            hexByte?_pair he hf, ofHex?, ha, hb, hc, hd, he, hf]
    next hthree hsix =>
      cases hvalue : ofHex? digits with
      | none => rfl
      | some value =>
          rcases length_of_ofHex? hvalue with hlength | hlength
          · exact absurd hlength hthree
          · exact absurd hlength hsix
  · have hnone : digits.mapM hexDigit? = none := by
      rw [← Option.not_isSome_iff_eq_none, mapM_isSome_iff]
      exact hall
    rw [ofHexSlices?, if_neg (by rwa [List.all_eq_true]), ofHex?, hnone]

end Rgb

/-! ## Blanks and case -/

theorem isBlank_eq_false {char : Char} (hlower : 0x41 ≤ char.toNat)
    (hupper : char.toNat ≤ 0x7a) : isBlank char = false := by
  simp only [isBlank, blankRanges, List.any_cons, List.any_nil, Bool.or_false,
    Bool.or_eq_false_iff, Bool.and_eq_false_iff, decide_eq_false_iff_not]
  omega

/-- There is no blank among the ASCII letters, so a blank is one in any case. -/
theorem isBlank_toLower (char : Char) :
    isBlank char.toLower = isBlank char := by
  unfold Char.toLower
  split
  next hcapital =>
    have hlower : 65 ≤ char.toNat := hcapital.1
    have hupper : char.toNat ≤ 90 := hcapital.2
    have hsmall : (char.val + ('a'.val - 'A'.val)).toNat = char.toNat + 32 := by
      have hstep : 'a'.val - 'A'.val = 32 := by decide
      rw [hstep, UInt32.toNat_add]
      show (char.toNat + 32) % 4294967296 = char.toNat + 32
      omega
    rw [isBlank_eq_false hlower (by omega)]
    apply isBlank_eq_false
    · show 65 ≤ (char.val + ('a'.val - 'A'.val)).toNat
      omega
    · show (char.val + ('a'.val - 'A'.val)).toNat ≤ 122
      omega
  · rfl

namespace Text

theorem trimStart_lowerCase (text : Text) :
    text.lowerCase.trimStart = text.trimStart.lowerCase := by
  have hblank : isBlank ∘ Char.toLower = isBlank := funext isBlank_toLower
  rw [lowerCase, trimStart, List.dropWhile_map, hblank]
  rfl

theorem trim_lowerCase (text : Text) :
    text.lowerCase.trim = text.trim.lowerCase := by
  rw [trim, trim, trimStart_lowerCase, trimEnd, trimEnd, lowerCase,
    ← List.map_reverse]
  have hstart := trimStart_lowerCase text.trimStart.reverse
  rw [lowerCase] at hstart
  rw [hstart, lowerCase, lowerCase, List.map_reverse]

theorem trimStart_append_of_blank {before : Text}
    (hbefore : ∀ char ∈ before, isBlank char = true) (text : Text) :
    trimStart (before ++ text) = text.trimStart :=
  List.dropWhile_append_of_pos hbefore

theorem trim_blanks {before after : Text}
    (hbefore : ∀ char ∈ before, isBlank char = true)
    (hafter : ∀ char ∈ after, isBlank char = true) (text : Text) :
    trim (before ++ (text ++ after)) = text.trim := by
  rw [trim, trim, trimStart_append_of_blank hbefore]
  by_cases htext : text.trimStart = []
  · have hnone : trimStart (text ++ after) = [] := by
      rw [trimStart, List.dropWhile_eq_nil_iff]
      rw [trimStart, List.dropWhile_eq_nil_iff] at htext
      intro char hchar
      rcases List.mem_append.mp hchar with hfirst | hsecond
      · exact htext char hfirst
      · exact hafter char hsecond
    rw [hnone, htext]
  · have hkept : trimStart (text ++ after) = text.trimStart ++ after := by
      rw [trimStart, List.dropWhile_append, if_neg]
      · rfl
      · rwa [List.isEmpty_iff]
    have hreverse : ∀ char ∈ after.reverse, isBlank char = true :=
      fun char hchar => hafter char (List.mem_reverse.mp hchar)
    rw [hkept, trimEnd, List.reverse_append, trimStart_append_of_blank hreverse,
      trimEnd]

end Text

/-! ## The language of tokens -/

namespace Color

/-- A token without its blanks and in lower case writes at most one color, and
that color is the answer; a token that writes none has no answer.  Blanks around
the token and the case of its letters do not count, and no slice of hexadecimal
digits is cut within a character. -/
theorem ofToken?_iff_writesColor :
    (∀ token : Text,
        (∀ color,
            ofToken? token = some color ↔
              WritesColor token.trim.lowerCase color) ∧
          (ofToken? token = none ↔
            ∀ color, ¬ WritesColor token.trim.lowerCase color)) ∧
      (∀ digits : Text, Rgb.ofHexSlices? digits = some (Rgb.ofHex? digits)) ∧
      ∀ before after first second : Text,
        (∀ char ∈ before, isBlank char = true) →
          (∀ char ∈ after, isBlank char = true) →
            first.lowerCase = second.lowerCase →
              ofToken? (before ++ (first ++ after)) = ofToken? second := by
  refine ⟨?_, Rgb.ofHexSlices?_eq, ?_⟩
  · intro token
    have hsome (color : Color) :
        ofToken? token = some color ↔ WritesColor token.trim.lowerCase color :=
      ofPlainToken?_eq_some_iff _ _
    refine ⟨hsome, ?_⟩
    rw [Option.eq_none_iff_forall_ne_some]
    simp only [ne_eq, hsome]
  · intro before after first second hbefore hafter hcase
    rw [ofToken?, ofToken?, Text.trim_blanks hbefore hafter,
      ← Text.trim_lowerCase, hcase, Text.trim_lowerCase]

/-- A bright hue in capitals, with a blank that is not of ASCII before it. -/
theorem ofToken?_iff_writesColor_bright :
    let token : Text := "Bright-PURPLE".toList
    let plain : Text := "bright-purple".toList
    (∀ char ∈ ['\u2003'], isBlank char = true) ∧
      (∀ char ∈ ['\n', ' '], isBlank char = true) ∧
      token.lowerCase = plain.lowerCase ∧
      WritesColor plain (.named ⟨.bright, .magenta⟩) ∧
      ofToken? (['\u2003'] ++ (token ++ ['\n', ' '])) =
        some (.named ⟨.bright, .magenta⟩) := by
  intro token plain
  have hbefore : ∀ char ∈ ['\u2003'], isBlank char = true := by
    simp [isBlank, blankRanges]
  have hafter : ∀ char ∈ ['\n', ' '], isBlank char = true := by
    simp [isBlank, blankRanges]
  have hcase : token.lowerCase = plain.lowerCase := by decide
  obtain ⟨hcolors, -, hsame⟩ := ofToken?_iff_writesColor
  have hwrites : WritesColor plain (.named ⟨.bright, .magenta⟩) :=
    .bright (.inr ⟨rfl, rfl⟩)
  have hcolor := (hcolors plain).1 (.named ⟨.bright, .magenta⟩)
  refine ⟨hbefore, hafter, hcase, hwrites, ?_⟩
  rw [hsame _ _ token plain hbefore hafter hcase, hcolor]
  exact hwrites

end Color

end TerminalMarkup
