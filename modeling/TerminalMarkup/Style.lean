import TerminalMarkup.Text

/-!
# Styles

A style gives two colors, the target of a link, and effects.  All but the
effects may be absent.  Colors are kept as the tokens they were written with.
Styles are stacked as the tags of a text are opened, and found by names
regardless of the case of ASCII letters.
-/

namespace TerminalMarkup

inductive Effect
  | bold
  | dim
  | italic
  | underscore
  | blink
  | reverse
  | conceal
  | strikethrough
deriving DecidableEq, Repr

namespace Effect

def all : List Effect :=
  [bold, dim, italic, underscore, blink, reverse, conceal, strikethrough]

theorem mem_all (effect : Effect) : effect ∈ all := by
  cases effect <;> decide

def name : Effect → Text
  | bold => "bold".toList
  | dim => "dim".toList
  | italic => "italic".toList
  | underscore => "underscore".toList
  | blink => "blink".toList
  | reverse => "reverse".toList
  | conceal => "conceal".toList
  | strikethrough => "strikethrough".toList

def setParameter : Effect → Nat
  | bold => 1
  | dim => 2
  | italic => 3
  | underscore => 4
  | blink => 5
  | reverse => 7
  | conceal => 8
  | strikethrough => 9

/-- The parameter that unsets an effect; bold and dim share theirs. -/
def unsetParameter : Effect → Nat
  | bold | dim => 22
  | italic => 23
  | underscore => 24
  | blink => 25
  | reverse => 27
  | conceal => 28
  | strikethrough => 29

/-- The names by which an effect can be asked for: its own, and `underline` for
the underscore. -/
def tokens : List (Text × Effect) :=
  ("underline".toList, underscore) :: all.map fun effect => (effect.name, effect)

/-- The effect that a token names.  Blanks around the token and the case of its
ASCII letters do not matter. -/
def ofToken? (token : Text) : Option Effect :=
  tokens.lookup token.trim.lowerCase

end Effect

@[ext] structure EffectSet where
  contains : Effect → Bool

namespace EffectSet

def empty : EffectSet :=
  ⟨fun _ => false⟩

def insert (set : EffectSet) (effect : Effect) : EffectSet :=
  ⟨fun other => other = effect || set.contains other⟩

def union (first second : EffectSet) : EffectSet :=
  ⟨fun effect => first.contains effect || second.contains effect⟩

/-- The set of the effects in a list, whatever their order and number. -/
def ofList (effects : List Effect) : EffectSet :=
  ⟨fun effect => effects.contains effect⟩

/-- The members in their common order, each once. -/
def toList (set : EffectSet) : List Effect :=
  Effect.all.filter set.contains

def isEmpty (set : EffectSet) : Bool :=
  set.toList.isEmpty

theorem mem_toList (set : EffectSet) (effect : Effect) :
    effect ∈ set.toList ↔ set.contains effect = true := by
  simp [toList, Effect.mem_all]

theorem toList_inj (first second : EffectSet) :
    first.toList = second.toList ↔ first = second := by
  constructor
  · intro hlist
    ext effect
    have hmem := mem_toList first effect
    rw [hlist, mem_toList] at hmem
    exact Bool.eq_iff_iff.mpr hmem.symm
  · intro hset
    rw [hset]

instance : DecidableEq EffectSet := fun first second =>
  decidable_of_iff _ (toList_inj first second)

end EffectSet

/-! ## Styles -/

structure Style where
  foreground : Option Text := none
  background : Option Text := none
  link : Option Text := none
  effects : EffectSet := .empty
deriving DecidableEq

namespace Style

def empty : Style := {}

def isEmpty (style : Style) : Bool :=
  style.foreground.isNone && style.background.isNone && style.link.isNone &&
    style.effects.isEmpty

/-- Lay one style on top of another: attributes of the top style hide those
below, and the effects of both are kept. -/
def overlay (base top : Style) : Style where
  foreground := top.foreground.or base.foreground
  background := top.background.or base.background
  link := top.link.or base.link
  effects := base.effects.union top.effects

end Style

/-! ## Stacks of styles -/

/-- The styles in force, the innermost first. -/
structure StyleStack where
  layers : List Style := []
deriving DecidableEq

namespace StyleStack

def empty : StyleStack := {}

def depth (stack : StyleStack) : Nat :=
  stack.layers.length

def isEmpty (stack : StyleStack) : Bool :=
  stack.layers.isEmpty

def push (stack : StyleStack) (style : Style) : StyleStack :=
  ⟨style :: stack.layers⟩

def top? (stack : StyleStack) : Option Style :=
  stack.layers.head?

def pop (stack : StyleStack) : StyleStack :=
  ⟨stack.layers.tail⟩

/-- All styles of the stack laid on top of each other. -/
def current (stack : StyleStack) : Style :=
  stack.layers.foldr (fun top below => below.overlay top) .empty

@[simp] theorem pop_push (stack : StyleStack) (style : Style) :
    (stack.push style).pop = stack := rfl

@[simp] theorem top?_push (stack : StyleStack) (style : Style) :
    (stack.push style).top? = some style := rfl

theorem current_push (stack : StyleStack) (style : Style) :
    (stack.push style).current = stack.current.overlay style := rfl

end StyleStack

/-! ## Tables of named styles -/

/-- Styles under names in lower case; of several under one name the first
counts. -/
structure StyleTable where
  entries : List (Text × Style) := []
deriving DecidableEq

namespace StyleTable

def empty : StyleTable := {}

def insert (table : StyleTable) (name : Text) (style : Style) : StyleTable :=
  ⟨(name.lowerCase, style) :: table.entries⟩

def find? (table : StyleTable) (name : Text) : Option Style :=
  table.entries.lookup name.lowerCase

def contains (table : StyleTable) (name : Text) : Bool :=
  (table.find? name).isSome

/-- The styles for messages: errors, information, comments and questions. -/
def messageStyles : StyleTable :=
  empty
    |>.insert "error".toList
      { foreground := some "white".toList, background := some "red".toList }
    |>.insert "info".toList { foreground := some "green".toList }
    |>.insert "comment".toList { foreground := some "yellow".toList }
    |>.insert "question".toList
      { foreground := some "black".toList, background := some "cyan".toList }

end StyleTable

end TerminalMarkup
