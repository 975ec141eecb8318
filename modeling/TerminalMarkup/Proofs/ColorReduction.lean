import Mathlib.Algebra.Order.Ring.Abs
import Mathlib.Tactic.Linarith
import TerminalMarkup.Color

/-!
# Reduction to the nearest color

Of the named colors the one with the least distance is taken, and of several the
one with the least number.  In the color cube no rule for equal distances is
needed: the levels of a channel lie an odd distance apart, so one is nearest.
No word overflows on the way.
-/

namespace TerminalMarkup

/-- The word for a number, if the number fits into a word. -/
def word? (value : Int) : Option Int32 :=
  if hfits : Int32.minValue.toInt ≤ value ∧ value ≤ Int32.maxValue.toInt then
    some (Int32.ofIntLE value hfits.1 hfits.2)
  else
    none

/-- The squared difference of two channels in words, if all steps fit. -/
def wordSquare? (first second : UInt8) : Option Int32 := do
  let difference ← word? ((first.toNat : Int) - second.toNat)
  word? (difference.toInt * difference.toInt)

/-- The squared distance of two mixtures in words, if all steps fit. -/
def Rgb.wordDistance? (first second : Rgb) : Option Int32 := do
  let red ← wordSquare? first.red second.red
  let green ← wordSquare? first.green second.green
  let blue ← wordSquare? first.blue second.blue
  let sum ← word? (red.toInt + green.toInt)
  word? (sum.toInt + blue.toInt)

theorem exists_word?_eq {value : Int} (hlower : -2147483648 ≤ value)
    (hupper : value ≤ 2147483647) :
    ∃ word, word? value = some word ∧ word.toInt = value := by
  have hleast : Int32.minValue.toInt = -2147483648 := by decide
  have hmost : Int32.maxValue.toInt = 2147483647 := by decide
  have hfits :
      Int32.minValue.toInt ≤ value ∧ value ≤ Int32.maxValue.toInt := by
    omega
  exact ⟨_, dif_pos hfits, Int32.toInt_ofIntLE⟩

theorem square_le {difference : Int} (hlower : -255 ≤ difference)
    (hupper : difference ≤ 255) : difference * difference ≤ 65025 := by
  nlinarith

theorem exists_wordSquare?_eq (first second : UInt8) :
    let difference : Int := (first.toNat : Int) - second.toNat
    ∃ word,
      wordSquare? first second = some word ∧
        word.toInt = difference * difference ∧
        0 ≤ word.toInt ∧ word.toInt ≤ 65025 := by
  intro difference
  have hfirst := first.toNat_lt
  have hsecond := second.toNat_lt
  have hlower : -255 ≤ difference := by omega
  have hupper : difference ≤ 255 := by omega
  have hsquare := square_le hlower hupper
  have hpositive : 0 ≤ difference * difference :=
    mul_self_nonneg difference
  obtain ⟨word, hword, hvalue⟩ :=
    @exists_word?_eq difference (by omega) (by omega)
  obtain ⟨square, hfits, hsquared⟩ :=
    @exists_word?_eq (difference * difference) (by omega) (by omega)
  refine ⟨square, ?_, hsquared, by omega, by omega⟩
  rw [wordSquare?, hword, Option.bind_eq_bind, Option.bind_some, hvalue, hfits]

/-- No step of the distance of two mixtures overflows a word. -/
theorem Rgb.exists_wordDistance?_eq (first second : Rgb) :
    ∃ word,
      first.wordDistance? second = some word ∧
        word.toInt = first.squaredDistance second := by
  obtain ⟨red, hred, hredValue, hredLower, hredUpper⟩ :=
    exists_wordSquare?_eq first.red second.red
  obtain ⟨green, hgreen, hgreenValue, hgreenLower, hgreenUpper⟩ :=
    exists_wordSquare?_eq first.green second.green
  obtain ⟨blue, hblue, hblueValue, hblueLower, hblueUpper⟩ :=
    exists_wordSquare?_eq first.blue second.blue
  obtain ⟨sum, hsum, hsumValue⟩ :=
    @exists_word?_eq (red.toInt + green.toInt) (by omega) (by omega)
  obtain ⟨word, hword, hvalue⟩ :=
    @exists_word?_eq (sum.toInt + blue.toInt) (by omega) (by omega)
  refine ⟨word, ?_, ?_⟩
  · simp only [wordDistance?, hred, hgreen, hblue, hsum, hword,
      Option.bind_eq_bind, Option.bind_some]
  · rw [hvalue, hsumValue, hredValue, hgreenValue, hblueValue]
    rfl

namespace Rgb

theorem squaredDistance_self (value : Rgb) : value.squaredDistance value = 0 := by
  simp [squaredDistance]

theorem squaredDistance_nonneg (first second : Rgb) :
    0 ≤ first.squaredDistance second := by
  have hred := mul_self_nonneg ((first.red.toNat : Int) - second.red.toNat)
  have hgreen := mul_self_nonneg ((first.green.toNat : Int) - second.green.toNat)
  have hblue := mul_self_nonneg ((first.blue.toNat : Int) - second.blue.toNat)
  simp only [squaredDistance]
  omega

theorem eq_of_squaredDistance_eq_zero {first second : Rgb}
    (hdistance : first.squaredDistance second = 0) : first = second := by
  obtain ⟨red, green, blue⟩ := first
  obtain ⟨red', green', blue'⟩ := second
  have hredSquare := mul_self_nonneg ((red.toNat : Int) - red'.toNat)
  have hgreenSquare := mul_self_nonneg ((green.toNat : Int) - green'.toNat)
  have hblueSquare := mul_self_nonneg ((blue.toNat : Int) - blue'.toNat)
  have heq {left right : UInt8}
      (hzero :
        ((left.toNat : Int) - right.toNat) * (left.toNat - right.toNat) = 0) :
      left = right := by
    have hdifference := mul_self_eq_zero.mp hzero
    exact UInt8.toNat_inj.mp (by omega)
  simp only [squaredDistance] at hdistance
  obtain rfl : red = red' := heq (by omega)
  obtain rfl : green = green' := heq (by omega)
  obtain rfl : blue = blue' := heq (by omega)
  rfl

end Rgb

/-! ## Named colors in their order -/

namespace NamedColor

theorem getElem_number (color : NamedColor) :
    all[color.number]? = some color := by
  obtain ⟨intensity, hue⟩ := color
  cases intensity <;> cases hue <;> rfl

theorem number_getElem {place : Nat} (hplace : place < all.length) :
    all[place].number = place := by
  have hall : ∀ index : Fin all.length, (all.get index).number = index.val := by
    decide
  exact hall ⟨place, hplace⟩

theorem number_injective {first second : NamedColor}
    (hnumber : first.number = second.number) : first = second := by
  have hfirst := getElem_number first
  rw [hnumber, getElem_number, Option.some.injEq] at hfirst
  exact hfirst.symm

theorem mem_all (color : NamedColor) : color ∈ all :=
  List.mem_of_getElem? (getElem_number color)

theorem rgb_injective {first second : NamedColor}
    (hrgb : first.rgb = second.rgb) : first = second := by
  have hall :
      ∀ first ∈ all, ∀ second ∈ all, first.rgb = second.rgb → first = second := by
    decide
  exact hall first (mem_all first) second (mem_all second) hrgb

/-- No named color is nearer to the mixture, and none that is as near comes
before in the palette. -/
structure IsNearest (color : NamedColor) (target : Rgb) : Prop where
  distance_le :
    ∀ other : NamedColor,
      target.squaredDistance color.rgb ≤ target.squaredDistance other.rgb
  number_le :
    ∀ other : NamedColor,
      target.squaredDistance other.rgb = target.squaredDistance color.rgb →
        color.number ≤ other.number

theorem IsNearest.unique {first second : NamedColor} {target : Rgb}
    (hfirst : first.IsNearest target) (hsecond : second.IsNearest target) :
    first = second := by
  have hdistance :
      target.squaredDistance first.rgb = target.squaredDistance second.rgb :=
    Int.le_antisymm (hfirst.distance_le second) (hsecond.distance_le first)
  apply number_injective
  exact
    Nat.le_antisymm (hfirst.number_le second hdistance.symm)
      (hsecond.number_le first hdistance)

theorem isNearest_nearest (target : Rgb) : (nearest target).IsNearest target := by
  let distance (color : NamedColor) := target.squaredDistance color.rgb
  -- The search keeps the first place with the least distance, and the place of a
  -- color is its number.
  have hfirst : all.minIdxOn distance all_ne_nil < all.length :=
    List.minIdxOn_lt_length all_ne_nil
  have hplace : all[all.minIdxOn distance all_ne_nil] = nearest target :=
    List.getElem_minIdxOn all_ne_nil
  constructor
  · intro other
    exact List.apply_minOn_le_of_mem (f := distance) (mem_all other)
  · intro other hsame
    obtain ⟨hother, hfound⟩ := List.getElem?_eq_some_iff.mp (getElem_number other)
    rw [← hplace, number_getElem]
    apply List.minIdxOn_le_of_apply_getElem_le_apply_minOn all_ne_nil hother
    rw [hfound]
    exact Int.le_of_eq hsame

theorem isNearest_iff (color : NamedColor) (target : Rgb) :
    color.IsNearest target ↔ color = nearest target := by
  constructor
  · intro hcolor
    exact hcolor.unique (isNearest_nearest target)
  · rintro rfl
    exact isNearest_nearest target

theorem isNearest_rgb (color : NamedColor) : color.IsNearest color.rgb := by
  constructor
  · intro other
    rw [Rgb.squaredDistance_self]
    exact Rgb.squaredDistance_nonneg _ _
  · intro other hsame
    rw [Rgb.squaredDistance_self] at hsame
    rw [rgb_injective (Rgb.eq_of_squaredDistance_eq_zero hsame)]

end NamedColor

/-! ## Reduction to named colors -/

namespace Color

/-- The color is neither the default nor one of the first sixteen in the
palette. -/
def HasNoName (color : Color) : Prop :=
  (∃ value, color = .rgb value) ∨
    ∃ number, color = .indexed number ∧ 16 ≤ number.toNat

theorem HasNoName.exists_reduced {color : Color} (hcolor : color.HasNoName) :
    ∃ target,
      color.toTrueColor = .rgb target ∧
        color.toBasic = .named (NamedColor.nearest target) := by
  rcases hcolor with ⟨value, rfl⟩ | ⟨number, rfl, hnumber⟩
  · exact ⟨value, rfl, rfl⟩
  · have hlow : ¬ number.toNat < NamedColor.all.length := by
      have hlength : NamedColor.all.length = 16 := rfl
      omega
    exact ⟨indexedRgb number, rfl, dif_neg hlow⟩

/-- A color without a name is reduced to the one named color that is nearest to
its mixture, and a named color to itself, alike by way of its mixture.  No step
of any distance overflows a word. -/
theorem toBasic_nearest :
    (∀ color : Color, color.HasNoName →
        ∃ target entry,
          color.toTrueColor = .rgb target ∧ color.toBasic = .named entry ∧
            ∀ other, NamedColor.IsNearest other target ↔ other = entry) ∧
      (∀ entry : NamedColor,
        (Color.named entry).toTrueColor = .rgb entry.rgb ∧
          (Color.named entry).toTrueColor.toBasic = .named entry ∧
          (Color.named entry).toBasic = .named entry) ∧
      ∀ first second : Rgb,
        ∃ word,
          first.wordDistance? second = some word ∧
            word.toInt = first.squaredDistance second := by
  refine ⟨?_, ?_, Rgb.exists_wordDistance?_eq⟩
  · intro color hcolor
    obtain ⟨target, hmixture, hbasic⟩ := hcolor.exists_reduced
    refine ⟨target, _, hmixture, hbasic, ?_⟩
    intro other
    exact NamedColor.isNearest_iff other target
  · intro entry
    have hnearest :=
      (NamedColor.isNearest_iff entry entry.rgb).mp entry.isNearest_rgb
    exact ⟨rfl, congrArg Color.named hnearest.symm, rfl⟩

/-- The dark and the bright red are equally near. -/
theorem toBasic_nearest_two_reds :
    let target : Rgb := ⟨230, 0, 0⟩
    let red : NamedColor := ⟨.normal, .red⟩
    let brightRed : NamedColor := ⟨.bright, .red⟩
    (Color.rgb target).HasNoName ∧ (Color.rgb target).toBasic = .named red ∧
      red.IsNearest target ∧
      target.squaredDistance red.rgb = target.squaredDistance brightRed.rgb := by
  intro target red brightRed
  have hcolor : (Color.rgb target).HasNoName := .inl ⟨target, rfl⟩
  have hbasic : (Color.rgb target).toBasic = .named red := by
    decide +kernel
  obtain ⟨mixture, entry, hmixture, hentry, hnearest⟩ :=
    toBasic_nearest.1 (.rgb target) hcolor
  obtain rfl : target = mixture := Color.rgb.inj hmixture
  rw [hbasic] at hentry
  have hred : red = entry := Color.named.inj hentry
  exact ⟨hcolor, hbasic, (hnearest red).mpr hred, by decide⟩

end Color

/-! ## The color cube -/

/-- The word of 16 bits for a number, if the number fits into it. -/
def shortWord? (value : Nat) : Option UInt16 :=
  if value < UInt16.size then some (UInt16.ofNat value) else none

/-- The level of a channel in words, if all steps fit. -/
def cubeLevelWord? (channel : UInt8) : Option UInt16 := do
  let scaled ← shortWord? (channel.toNat * 5)
  let raised ← shortWord? (scaled.toNat + 127)
  shortWord? (raised.toNat / 255)

/-- The number of the entry for a mixture in words, if all steps fit. -/
def Rgb.cubeWord? (value : Rgb) : Option UInt16 := do
  let red ← cubeLevelWord? value.red
  let green ← cubeLevelWord? value.green
  let blue ← cubeLevelWord? value.blue
  let squares ← shortWord? (36 * red.toNat)
  let start ← shortWord? (16 + squares.toNat)
  let rows ← shortWord? (6 * green.toNat)
  let row ← shortWord? (start.toNat + rows.toNat)
  shortWord? (row.toNat + blue.toNat)

theorem exists_shortWord?_eq {value : Nat} (hvalue : value < 65536) :
    ∃ word, shortWord? value = some word ∧ word.toNat = value :=
  ⟨_, if_pos hvalue, UInt16.toNat_ofNat_of_lt' hvalue⟩

theorem cubeLevel_lt (channel : UInt8) : cubeLevel channel < 6 := by
  have hchannel := channel.toNat_lt
  unfold cubeLevel
  omega

theorem exists_cubeLevelWord?_eq (channel : UInt8) :
    ∃ word,
      cubeLevelWord? channel = some word ∧ word.toNat = cubeLevel channel := by
  have hchannel := channel.toNat_lt
  obtain ⟨scaled, hscaled, hscaledValue⟩ :=
    @exists_shortWord?_eq (channel.toNat * 5) (by omega)
  obtain ⟨raised, hraised, hraisedValue⟩ :=
    @exists_shortWord?_eq (scaled.toNat + 127) (by omega)
  obtain ⟨word, hword, hvalue⟩ :=
    @exists_shortWord?_eq (raised.toNat / 255) (by omega)
  refine ⟨word, ?_, ?_⟩
  · simp only [cubeLevelWord?, hscaled, hraised, hword, Option.bind_eq_bind,
      Option.bind_some]
  · rw [hvalue, hraisedValue, hscaledValue, cubeLevel]

/-- No step towards the number of an entry overflows a word. -/
theorem Rgb.exists_cubeWord?_eq (value : Rgb) :
    ∃ word, value.cubeWord? = some word ∧ word.toNat = value.cubeNumber := by
  have hredLevel := cubeLevel_lt value.red
  have hgreenLevel := cubeLevel_lt value.green
  have hblueLevel := cubeLevel_lt value.blue
  obtain ⟨red, hred, hredValue⟩ := exists_cubeLevelWord?_eq value.red
  obtain ⟨green, hgreen, hgreenValue⟩ := exists_cubeLevelWord?_eq value.green
  obtain ⟨blue, hblue, hblueValue⟩ := exists_cubeLevelWord?_eq value.blue
  obtain ⟨squares, hsquares, hsquaresValue⟩ :=
    @exists_shortWord?_eq (36 * red.toNat) (by omega)
  obtain ⟨start, hstart, hstartValue⟩ :=
    @exists_shortWord?_eq (16 + squares.toNat) (by omega)
  obtain ⟨rows, hrows, hrowsValue⟩ :=
    @exists_shortWord?_eq (6 * green.toNat) (by omega)
  obtain ⟨row, hrow, hrowValue⟩ :=
    @exists_shortWord?_eq (start.toNat + rows.toNat) (by omega)
  obtain ⟨word, hword, hvalue⟩ :=
    @exists_shortWord?_eq (row.toNat + blue.toNat) (by omega)
  refine ⟨word, ?_, ?_⟩
  · simp only [cubeWord?, hred, hgreen, hblue, hsquares, hstart, hrows, hrow,
      hword, Option.bind_eq_bind, Option.bind_some]
  · rw [cubeNumber]
    omega

/-- A place in the color cube: one of six levels for each channel. -/
structure CubePlace where
  red : Fin 6
  green : Fin 6
  blue : Fin 6
deriving DecidableEq, Repr

/-- The palette numbers of the color cube. -/
def InCube (number : UInt8) : Prop :=
  16 ≤ number.toNat ∧ number.toNat ≤ 231

/-- The mixture of the entry is at least as near as that of any other entry of
the cube, and no other is as near. -/
structure IsNearestInCube (number : UInt8) (target : Rgb) : Prop where
  inCube : InCube number
  distance_le :
    ∀ other, InCube other →
      target.squaredDistance (indexedRgb number) ≤
        target.squaredDistance (indexedRgb other)
  eq_of_distance_eq :
    ∀ other, InCube other →
      target.squaredDistance (indexedRgb other) =
          target.squaredDistance (indexedRgb number) →
        other = number

namespace CubePlace

def number (place : CubePlace) : UInt8 :=
  UInt8.ofNat
    (16 + 36 * place.red.val + 6 * place.green.val + place.blue.val)

def rgb (place : CubePlace) : Rgb :=
  ⟨UInt8.ofNat (51 * place.red.val), UInt8.ofNat (51 * place.green.val),
    UInt8.ofNat (51 * place.blue.val)⟩

theorem toNat_number (place : CubePlace) :
    place.number.toNat =
      16 + 36 * place.red.val + 6 * place.green.val + place.blue.val := by
  have hred := place.red.isLt
  have hgreen := place.green.isLt
  have hblue := place.blue.isLt
  apply UInt8.toNat_ofNat_of_lt'
  show _ < 256
  omega

theorem inCube_number (place : CubePlace) : InCube place.number := by
  have hred := place.red.isLt
  have hgreen := place.green.isLt
  have hblue := place.blue.isLt
  rw [InCube, toNat_number]
  omega

theorem exists_number_eq {number : UInt8} (hnumber : InCube number) :
    ∃ place : CubePlace, place.number = number := by
  obtain ⟨hlower, hupper⟩ := hnumber
  let place : CubePlace :=
    ⟨⟨(number.toNat - 16) / 36, by omega⟩,
      ⟨(number.toNat - 16) % 36 / 6, by omega⟩,
      ⟨(number.toNat - 16) % 6, by omega⟩⟩
  refine ⟨place, UInt8.toNat_inj.mp ?_⟩
  rw [toNat_number]
  show
    16 + 36 * ((number.toNat - 16) / 36) +
        6 * ((number.toNat - 16) % 36 / 6) + (number.toNat - 16) % 6 =
      number.toNat
  omega

/-- The palette has at the number of a place the mixture of its levels. -/
theorem indexedRgb_number (place : CubePlace) :
    indexedRgb place.number = place.rgb := by
  have hlength : NamedColor.all.length = 16 := rfl
  have hgreen := place.green.isLt
  have hblue := place.blue.isLt
  have hcube := place.inCube_number
  rw [InCube] at hcube
  have hnumber := place.toNat_number
  have hredLevel :
      (place.number.toNat - 16) / 36 * 51 = 51 * place.red.val := by
    omega
  have hgreenLevel :
      (place.number.toNat - 16) % 36 / 6 * 51 = 51 * place.green.val := by
    omega
  have hblueLevel :
      (place.number.toNat - 16) % 6 * 51 = 51 * place.blue.val := by
    omega
  rw [indexedRgb, dif_neg (by omega), if_pos (by omega)]
  simp only [hredLevel, hgreenLevel, hblueLevel, rgb]

end CubePlace

/-! ## The nearest levels -/

/-- The squared distance of a channel from a level. -/
def levelDistance (channel : UInt8) (level : Fin 6) : Int :=
  let difference : Int := (channel.toNat : Int) - 51 * level.val
  difference * difference

def nearestLevel (channel : UInt8) : Fin 6 :=
  ⟨cubeLevel channel, cubeLevel_lt channel⟩

theorem levelDistance_lt {channel : UInt8} {level : Fin 6}
    (hlevel : level ≠ nearestLevel channel) :
    levelDistance channel (nearestLevel channel) <
      levelDistance channel level := by
  have hother : level.val ≠ cubeLevel channel :=
    fun hsame => hlevel (Fin.ext hsame)
  have hnear : |(channel.toNat : Int) - 51 * cubeLevel channel| ≤ 25 := by
    rw [abs_le, cubeLevel]
    omega
  -- Two levels are at least 51 apart, and 25 of them are used up.
  have hfar : 26 ≤ |(channel.toNat : Int) - 51 * level.val| := by
    rw [le_abs]
    rw [abs_le] at hnear
    omega
  apply abs_lt_iff_mul_self_lt.mp
  show
    |(channel.toNat : Int) - 51 * cubeLevel channel| <
      |(channel.toNat : Int) - 51 * level.val|
  omega

theorem levelDistance_le (channel : UInt8) (level : Fin 6) :
    levelDistance channel (nearestLevel channel) ≤
      levelDistance channel level := by
  by_cases hlevel : level = nearestLevel channel
  · rw [hlevel]
  · exact (levelDistance_lt hlevel).le

theorem eq_nearestLevel_of_le {channel : UInt8} {level : Fin 6}
    (hle :
      levelDistance channel level ≤
        levelDistance channel (nearestLevel channel)) :
    level = nearestLevel channel := by
  by_contra hlevel
  exact absurd hle (levelDistance_lt hlevel).not_ge

theorem cubeLevel_mono {first second : UInt8} (hle : first ≤ second) :
    cubeLevel first ≤ cubeLevel second := by
  have hvalue : first.toNat ≤ second.toNat := UInt8.le_iff_toNat_le.mp hle
  apply Nat.div_le_div_right
  omega

namespace Rgb

def cubePlace (value : Rgb) : CubePlace :=
  ⟨nearestLevel value.red, nearestLevel value.green, nearestLevel value.blue⟩

theorem toNat_cubePlace (value : Rgb) :
    value.cubePlace.number.toNat = value.cubeNumber :=
  value.cubePlace.toNat_number

theorem squaredDistance_rgb (value : Rgb) (place : CubePlace) :
    value.squaredDistance place.rgb =
      levelDistance value.red place.red +
        levelDistance value.green place.green +
        levelDistance value.blue place.blue := by
  have hlevel (level : Fin 6) :
      ((UInt8.ofNat (51 * level.val)).toNat : Int) = 51 * level.val := by
    have hbound := level.isLt
    rw [UInt8.toNat_ofNat_of_lt' (by show _ < 256; omega)]
    exact Int.natCast_mul _ _
  simp only [squaredDistance, CubePlace.rgb, hlevel, levelDistance]

theorem isNearestInCube_cubePlace (value : Rgb) :
    IsNearestInCube value.cubePlace.number value := by
  refine ⟨value.cubePlace.inCube_number, ?_, ?_⟩
  · intro other hother
    obtain ⟨place, rfl⟩ := CubePlace.exists_number_eq hother
    have hred := levelDistance_le value.red place.red
    have hgreen := levelDistance_le value.green place.green
    have hblue := levelDistance_le value.blue place.blue
    simp only [CubePlace.indexedRgb_number, squaredDistance_rgb, cubePlace]
    omega
  · intro other hother hsame
    obtain ⟨place, rfl⟩ := CubePlace.exists_number_eq hother
    have hred := levelDistance_le value.red place.red
    have hgreen := levelDistance_le value.green place.green
    have hblue := levelDistance_le value.blue place.blue
    simp only [CubePlace.indexedRgb_number, squaredDistance_rgb,
      cubePlace] at hsame
    -- A level that is farther away makes the whole distance larger.
    have hredLevel : place.red = nearestLevel value.red :=
      eq_nearestLevel_of_le (by omega)
    have hgreenLevel : place.green = nearestLevel value.green :=
      eq_nearestLevel_of_le (by omega)
    have hblueLevel : place.blue = nearestLevel value.blue :=
      eq_nearestLevel_of_le (by omega)
    rw [cubePlace, ← hredLevel, ← hgreenLevel, ← hblueLevel]

/-- An entry of the cube is the nearest one to its own mixture. -/
theorem cubePlace_indexedRgb {number : UInt8} (hnumber : InCube number) :
    (indexedRgb number).cubePlace.number = number := by
  have hnearest := isNearestInCube_cubePlace (indexedRgb number)
  have hle := hnearest.distance_le number hnumber
  rw [squaredDistance_self] at hle
  have hpositive :=
    (indexedRgb number).squaredDistance_nonneg
      (indexedRgb (indexedRgb number).cubePlace.number)
  symm
  apply hnearest.eq_of_distance_eq number hnumber
  rw [squaredDistance_self]
  omega

theorem cubePlace_number_mono {first second : Rgb}
    (hred : first.red ≤ second.red) (hgreen : first.green ≤ second.green)
    (hblue : first.blue ≤ second.blue) :
    first.cubePlace.number ≤ second.cubePlace.number := by
  have hredLevel := cubeLevel_mono hred
  have hgreenLevel := cubeLevel_mono hgreen
  have hblueLevel := cubeLevel_mono hblue
  rw [UInt8.le_iff_toNat_le, toNat_cubePlace, toNat_cubePlace, cubeNumber,
    cubeNumber]
  omega

end Rgb

/-! ## Reduction to the cube -/

namespace Color

theorem toIndexed_rgb (value : Rgb) :
    (Color.rgb value).toIndexed = .indexed value.cubePlace.number := rfl

/-- A mixture is reduced to the one entry of the color cube that is nearest to
it, and no step towards the number of the entry overflows a word.  An entry of
the cube is found again from its mixture, and a mixture that is larger in some
channels has no smaller number. -/
theorem toIndexed_nearest :
    (∀ target : Rgb,
        ∃ word number,
          target.cubeWord? = some word ∧ word.toNat = number.toNat ∧
            word.toUInt8 = number ∧
            (Color.rgb target).toIndexed = .indexed number ∧
            IsNearestInCube number target) ∧
      (∀ number, InCube number →
        ∃ value,
          (Color.indexed number).toTrueColor = .rgb value ∧
            (Color.rgb value).toIndexed = .indexed number) ∧
      ∀ first second : Rgb,
        first.red ≤ second.red → first.green ≤ second.green →
          first.blue ≤ second.blue →
            ∃ low high,
              (Color.rgb first).toIndexed = .indexed low ∧
                (Color.rgb second).toIndexed = .indexed high ∧ low ≤ high := by
  refine ⟨?_, ?_, ?_⟩
  · intro target
    obtain ⟨word, hword, hvalue⟩ := target.exists_cubeWord?_eq
    rw [← target.toNat_cubePlace] at hvalue
    have hcut : word.toUInt8 = target.cubePlace.number := by
      apply UInt8.toNat_inj.mp
      have hbound := target.cubePlace.number.toNat_lt
      rw [UInt16.toNat_toUInt8, hvalue]
      exact Nat.mod_eq_of_lt hbound
    exact
      ⟨word, _, hword, hvalue, hcut, toIndexed_rgb target,
        target.isNearestInCube_cubePlace⟩
  · intro number hnumber
    refine ⟨indexedRgb number, rfl, ?_⟩
    rw [toIndexed_rgb, Rgb.cubePlace_indexedRgb hnumber]
  · intro first second hred hgreen hblue
    exact
      ⟨_, _, toIndexed_rgb first, toIndexed_rgb second,
        Rgb.cubePlace_number_mono hred hgreen hblue⟩

/-- Channels on either side of the middle between two levels. -/
theorem toIndexed_nearest_middles :
    let dark : Rgb := ⟨25, 26, 127⟩
    let light : Rgb := ⟨26, 26, 128⟩
    dark.red ≤ light.red ∧ dark.green ≤ light.green ∧ dark.blue ≤ light.blue ∧
      (Color.rgb dark).toIndexed = .indexed 24 ∧
      (Color.rgb light).toIndexed = .indexed 61 ∧ (24 : UInt8) ≤ 61 ∧
      InCube 61 ∧ (Color.indexed 61).toTrueColor = .rgb ⟨51, 51, 153⟩ ∧
      (Color.rgb ⟨51, 51, 153⟩).toIndexed = .indexed 61 ∧
      IsNearestInCube 61 light := by
  intro dark light
  have hred : dark.red ≤ light.red := by decide
  have hgreen : dark.green ≤ light.green := by decide
  have hblue : dark.blue ≤ light.blue := by decide
  have hdark : (Color.rgb dark).toIndexed = .indexed 24 := by decide
  have hlight : (Color.rgb light).toIndexed = .indexed 61 := by decide
  have hmixture : (Color.indexed 61).toTrueColor = .rgb ⟨51, 51, 153⟩ := by
    decide
  obtain ⟨hreduced, hentries, hmono⟩ := toIndexed_nearest
  obtain ⟨word, number, -, -, -, hnumber, hnearest⟩ := hreduced light
  obtain rfl : number = 61 := Color.indexed.inj (hnumber.symm.trans hlight)
  obtain ⟨value, hvalue, hback⟩ := hentries 61 hnearest.inCube
  obtain rfl : value = ⟨51, 51, 153⟩ :=
    Color.rgb.inj (hvalue.symm.trans hmixture)
  obtain ⟨low, high, hlow, hhigh, hle⟩ := hmono dark light hred hgreen hblue
  obtain rfl : low = 24 := Color.indexed.inj (hlow.symm.trans hdark)
  obtain rfl : high = 61 := Color.indexed.inj (hhigh.symm.trans hlight)
  exact
    ⟨hred, hgreen, hblue, hdark, hlight, hle, hnearest.inCube, hmixture, hback,
      hnearest⟩

end Color

end TerminalMarkup
