import Mathlib.Order.Bounds.Basic
import TerminalMarkup.Proofs.ScannerProgress
import TerminalMarkup.Proofs.TokenGrammar

/-!
# Cuts at any offsets

Offsets are clamped to the text, compared, and moved down to a place between two
characters.  The comparison comes first, but a cut is still decided by each of
its two offsets alone, so neighbouring ranges meet without gap or overlap.
-/

namespace TerminalMarkup

namespace Text

/-! ## Offsets between characters -/

theorem byteLength_takeBytes_le (count : Nat) (text : Text) :
    (text.takeBytes count).byteLength ≤ count := by
  induction text generalizing count with
  | nil => exact Nat.zero_le count
  | cons char rest ih =>
      rw [takeBytes]
      split
      next hfits =>
        have hrest := ih (count - char.utf8Size)
        rw [byteLength]
        omega
      next => exact Nat.zero_le count

theorem isBoundary_takeBytes (text : Text) (count : Nat) :
    text.IsBoundary (text.takeBytes count).byteLength :=
  ⟨text.takeBytes count, text.dropBytes count,
    (takeBytes_append_dropBytes count text).symm, rfl⟩

/-- What fits into a number of bytes ends at the last offset between characters
that is not behind them. -/
theorem isGreatest_takeBytes (text : Text) (count : Nat) :
    IsGreatest {offset | text.IsBoundary offset ∧ offset ≤ count}
      (text.takeBytes count).byteLength := by
  constructor
  · exact ⟨text.isBoundary_takeBytes count, byteLength_takeBytes_le count text⟩
  · rintro offset ⟨⟨front, back, rfl, rfl⟩, hcount⟩
    obtain ⟨more, rfl⟩ := Nat.exists_eq_add_of_le hcount
    rw [takeBytes_append, byteLength_append]
    exact Nat.le_add_right _ _

theorem isBoundary_iff (text : Text) (offset : Nat) :
    text.IsBoundary offset ↔ (text.takeBytes offset).byteLength = offset := by
  constructor
  · intro hoffset
    have hgreatest := text.isGreatest_takeBytes offset
    exact Nat.le_antisymm hgreatest.1.2 (hgreatest.2 ⟨hoffset, Nat.le_refl _⟩)
  · intro hlength
    rw [← hlength]
    exact text.isBoundary_takeBytes offset

instance (text : Text) (offset : Nat) : Decidable (text.IsBoundary offset) :=
  decidable_of_iff _ (text.isBoundary_iff offset).symm

/-! ## Neighbouring ranges -/

theorem takeBytes_takeBytes {first last : Nat} (hle : first ≤ last)
    (text : Text) :
    (text.takeBytes last).takeBytes first = text.takeBytes first := by
  induction text generalizing first last with
  | nil => rfl
  | cons char rest ih =>
      simp only [takeBytes]
      by_cases hfirst : char.utf8Size ≤ first
      · rw [if_pos (hfirst.trans hle), takeBytes, if_pos hfirst,
          if_pos hfirst, ih (by omega)]
      · by_cases hlast : char.utf8Size ≤ last
        · rw [if_pos hlast, takeBytes, if_neg hfirst, if_neg hfirst]
        · rw [if_neg hlast, if_neg hfirst]
          rfl

theorem takeBytes_append_substring (text : Text) {start stop : Int}
    (hle : start ≤ stop) :
    text.takeBytes start.toNat ++ text.substring start stop =
      text.takeBytes stop.toNat := by
  have happend :=
    takeBytes_append_dropBytes start.toNat (text.takeBytes stop.toNat)
  rwa [takeBytes_takeBytes (Int.toNat_le_toNat hle)] at happend

theorem substring_append_substring (text : Text) {first second third : Int}
    (hfirst : first ≤ second) (hsecond : second ≤ third) :
    text.substring first second ++ text.substring second third =
      text.substring first third := by
  rw [← List.append_right_inj (text.takeBytes first.toNat),
    ← List.append_assoc, takeBytes_append_substring text hfirst,
    takeBytes_append_substring text hsecond,
    takeBytes_append_substring text (hfirst.trans hsecond)]

def parts (text : Text) (offsets : List Int) : List Text :=
  List.zipWith text.substring offsets offsets.tail

theorem takeBytes_append_flatten_parts (text : Text) {first : Int}
    {others : List Int} (hascending : (first :: others).Pairwise (· ≤ ·)) :
    text.takeBytes first.toNat ++ (text.parts (first :: others)).flatten =
      text.takeBytes
        ((first :: others).getLast (List.cons_ne_nil _ _)).toNat := by
  induction others generalizing first with
  | nil => simp [parts]
  | cons second rest ih =>
      have hsecond : first ≤ second :=
        List.rel_of_pairwise_cons hascending List.mem_cons_self
      have hrest := ih hascending.of_cons
      have hparts :
          text.parts (first :: second :: rest) =
            text.substring first second :: text.parts (second :: rest) := rfl
      rw [hparts, List.flatten_cons, ← List.append_assoc,
        takeBytes_append_substring text hsecond, hrest]
      rfl

theorem flatten_parts (text : Text) {first : Int} {others : List Int}
    (hascending : (first :: others).Pairwise (· ≤ ·)) (hfirst : first ≤ 0)
    (hlast :
      (text.byteLength : Int) ≤
        (first :: others).getLast (List.cons_ne_nil _ _)) :
    (text.parts (first :: others)).flatten = text := by
  have hparts := text.takeBytes_append_flatten_parts hascending
  have hcount :
      text.byteLength ≤
        ((first :: others).getLast (List.cons_ne_nil _ _)).toNat := by
    omega
  rwa [Int.toNat_of_nonpos hfirst, takeBytes_zero, List.nil_append,
    takeBytes_of_byteLength_le hcount] at hparts

/-! ## The steps of a cut -/

/-- The offset itself within the text, or else the end of the text to which it
is nearer. -/
def clampOffset (text : Text) (offset : Int) : Nat :=
  (min (max offset 0) text.byteLength).toNat

/-- Go down by single bytes to an offset between characters; there is no answer
if none is found down to the beginning. -/
def boundaryFrom? (text : Text) : Nat → Option Nat
  | 0 => if text.IsBoundary 0 then some 0 else none
  | offset + 1 =>
      if text.IsBoundary (offset + 1) then some (offset + 1)
      else text.boundaryFrom? offset

/-- The steps of a cut, each of which could fail: the offsets are clamped and
compared, both are moved down, and the slice between them is taken. -/
def cutRange? (text : Text) (start stop : Int) : Option Text :=
  let first := text.clampOffset start
  let last := text.clampOffset stop
  if last ≤ first then
    some []
  else do
    let low ← text.boundaryFrom? first
    let high ← text.boundaryFrom? last
    text.slice? low high

theorem takeBytes_clampOffset (text : Text) (offset : Int) :
    text.takeBytes (text.clampOffset offset) = text.takeBytes offset.toNat := by
  by_cases hoffset : offset ≤ text.byteLength
  · rw [show text.clampOffset offset = offset.toNat by
      unfold clampOffset
      omega]
  · rw [takeBytes_of_byteLength_le (by unfold clampOffset; omega),
      takeBytes_of_byteLength_le (by omega)]

theorem boundaryFrom?_eq (text : Text) (offset : Nat) :
    text.boundaryFrom? offset = some (text.takeBytes offset).byteLength := by
  induction offset with
  | zero =>
      rw [boundaryFrom?, takeBytes_zero]
      exact if_pos ⟨[], text, rfl, rfl⟩
  | succ offset ih =>
      rw [boundaryFrom?]
      split
      next hboundary => rw [(text.isBoundary_iff _).mp hboundary]
      next hinside =>
        -- The last offset between characters is not `offset + 1` itself.
        have hgreatest := text.isGreatest_takeBytes (offset + 1)
        have hne : (text.takeBytes (offset + 1)).byteLength ≠ offset + 1 :=
          fun heq => hinside ((text.isBoundary_iff _).mpr heq)
        have hsame :
            IsGreatest {found | text.IsBoundary found ∧ found ≤ offset}
              (text.takeBytes (offset + 1)).byteLength := by
          refine ⟨⟨hgreatest.1.1, ?_⟩, ?_⟩
          · have hle := hgreatest.1.2
            omega
          · rintro found ⟨hfound, hle⟩
            exact hgreatest.2 ⟨hfound, Nat.le_succ_of_le hle⟩
        rw [ih, (text.isGreatest_takeBytes offset).unique hsame]

theorem slice?_append (front middle back : Text) :
    (front ++ (middle ++ back)).slice? front.byteLength
        (front ++ middle).byteLength =
      some middle := by
  have hlength := byteLength_append front middle
  have hfirst : IsBoundary (front ++ (middle ++ back)) front.byteLength :=
    ⟨front, middle ++ back, rfl, rfl⟩
  have hlast :
      IsBoundary (front ++ (middle ++ back)) (front ++ middle).byteLength :=
    ⟨front ++ middle, back, (List.append_assoc _ _ _).symm, rfl⟩
  have hmiddle :=
    @substring_append front middle back front.byteLength
      (front ++ middle).byteLength rfl (by omega)
  rw [slice?, if_pos ⟨by omega, (isBoundary_iff _ _).mp hfirst,
    (isBoundary_iff _ _).mp hlast⟩]
  exact congrArg some hmiddle

/-! ## Cuts at any offsets -/

theorem substring_eq_nil (text : Text) {start stop : Int}
    (hreversed : text.clampOffset stop ≤ text.clampOffset start) :
    text.substring start stop = [] := by
  have hstart : text.clampOffset start ≤ start.toNat := by
    unfold clampOffset
    omega
  have hstop := byteLength_takeBytes_le (text.clampOffset stop) text
  rw [takeBytes_clampOffset] at hstop
  exact dropBytes_of_byteLength_le (hstop.trans (hreversed.trans hstart))

theorem exists_substring (text : Text) {start stop : Int}
    (hrange : text.clampOffset start < text.clampOffset stop) :
    ∃ front back, text = front ++ (text.substring start stop ++ back) ∧
      IsGreatest
        {offset | text.IsBoundary offset ∧ offset ≤ text.clampOffset start}
        front.byteLength ∧
      IsGreatest
        {offset | text.IsBoundary offset ∧ offset ≤ text.clampOffset stop}
        (front ++ text.substring start stop).byteLength := by
  have hle : start ≤ stop := by
    unfold clampOffset at hrange
    omega
  have hfirst := text.isGreatest_takeBytes (text.clampOffset start)
  have hlast := text.isGreatest_takeBytes (text.clampOffset stop)
  rw [takeBytes_clampOffset] at hfirst hlast
  rw [← takeBytes_append_substring text hle] at hlast
  refine
    ⟨text.takeBytes start.toNat, text.dropBytes stop.toNat, ?_, hfirst, hlast⟩
  rw [← List.append_assoc, takeBytes_append_substring text hle,
    takeBytes_append_dropBytes]

/-- No step of a cut fails. -/
theorem cutRange?_eq (text : Text) (start stop : Int) :
    text.cutRange? start stop = some (text.substring start stop) := by
  unfold cutRange?
  by_cases hrange : text.clampOffset stop ≤ text.clampOffset start
  · simp only [if_pos hrange, substring_eq_nil text hrange]
  · obtain ⟨front, back, htext, hfirst, hlast⟩ :=
      text.exists_substring (Nat.lt_of_not_le hrange)
    have hlow := text.isGreatest_takeBytes (text.clampOffset start)
    have hhigh := text.isGreatest_takeBytes (text.clampOffset stop)
    have hslice := slice?_append front (text.substring start stop) back
    rw [← htext] at hslice
    simp only [if_neg hrange, boundaryFrom?_eq, hlow.unique hfirst,
      hhigh.unique hlast]
    exact hslice

/-- A cut never fails.  It gives nothing if the clamped offsets are reversed or
equal, and else what stands between the last offsets between characters that are
not above them.  Neighbouring ranges join, and ascending offsets from the
beginning to the end tile the text. -/
theorem substring_tiles (text : Text) :
    (∀ start stop : Int,
        text.cutRange? start stop = some (text.substring start stop) ∧
          (text.clampOffset stop ≤ text.clampOffset start →
            text.substring start stop = []) ∧
          (text.clampOffset start < text.clampOffset stop →
            ∃ front back,
              text = front ++ (text.substring start stop ++ back) ∧
                IsGreatest
                  {offset |
                    text.IsBoundary offset ∧ offset ≤ text.clampOffset start}
                  front.byteLength ∧
                IsGreatest
                  {offset |
                    text.IsBoundary offset ∧ offset ≤ text.clampOffset stop}
                  (front ++ text.substring start stop).byteLength)) ∧
      (∀ first second third : Int, first ≤ second → second ≤ third →
        text.substring first second ++ text.substring second third =
          text.substring first third) ∧
      ∀ (first : Int) (others : List Int),
        (first :: others).Pairwise (· ≤ ·) → first ≤ 0 →
          (text.byteLength : Int) ≤
              (first :: others).getLast (List.cons_ne_nil _ _) →
            (text.parts (first :: others)).flatten = text := by
  refine ⟨?_, ?_, ?_⟩
  · intro start stop
    exact
      ⟨text.cutRange?_eq start stop, text.substring_eq_nil,
        text.exists_substring⟩
  · intro first second third hfirst hsecond
    exact text.substring_append_substring hfirst hsecond
  · intro first others hascending hfirst hlast
    exact text.flatten_parts hascending hfirst hlast

/-- Some of the offsets lie within characters of two and of four bytes, one
before the text and one behind it. -/
theorem substring_tiles_within_characters :
    let text : Text := "aé😀z".toList
    let offsets : List Int := [-3, 2, 2, 5, 7, 40]
    (offsets.Pairwise (· ≤ ·) ∧ text.byteLength = 8) ∧
      text.parts offsets =
          ["a".toList, [], "é".toList, "😀".toList, "z".toList] ∧
        (text.parts offsets).flatten = text ∧
      text.substring 2 5 ++ text.substring 5 40 = text.substring 2 40 ∧
      text.cutRange? 2 5 = some "é".toList ∧
      (text.clampOffset 2 = 2 ∧ text.clampOffset 40 = 8) ∧
      text.substring 40 2 = [] ∧
      ∃ front back, text = front ++ (text.substring 2 40 ++ back) ∧
        IsGreatest {offset | text.IsBoundary offset ∧ offset ≤ 2}
          front.byteLength ∧
        IsGreatest {offset | text.IsBoundary offset ∧ offset ≤ 8}
          (front ++ text.substring 2 40).byteLength := by
  intro text offsets
  obtain ⟨hcut, hjoin, htile⟩ := substring_tiles text
  have hascending : offsets.Pairwise (· ≤ ·) := by decide
  have hlength : text.byteLength = 8 := by decide
  have hflatten : (text.parts offsets).flatten = text :=
    htile (-3) [2, 2, 5, 7, 40] hascending (by decide) (by decide)
  exact
    ⟨⟨hascending, hlength⟩, by decide, hflatten,
      hjoin 2 5 40 (by decide) (by decide), (hcut 2 5).1, by decide,
      (hcut 40 2).2.1 (by decide), (hcut 2 40).2.2 (by decide)⟩

end Text

end TerminalMarkup
