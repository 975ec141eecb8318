import TerminalMarkup.Style

/-!
# Styles as attribute texts

A style is written as a list of attributes such as `fg=red;options=bold,dim`.
Reading takes the pieces between semicolons in order: later values replace
earlier ones and effects add up.  The leftmost faulty piece is reported.
-/

namespace TerminalMarkup

inductive AttributeKey
  | foreground
  | background
  | link
  | effects
deriving DecidableEq, Repr

namespace AttributeKey

/-- The keys in the order in which attributes are written. -/
def all : List AttributeKey :=
  [foreground, background, link, effects]

def name : AttributeKey → Text
  | foreground => "fg".toList
  | background => "bg".toList
  | link => "href".toList
  | effects => "options".toList

/-- The key of a name, in whatever case its ASCII letters are. -/
def ofName? (name : Text) : Option AttributeKey :=
  all.find? fun key => key.name = name.lowerCase

end AttributeKey

inductive StyleError
  | unknownKey (key : Text)
  | missingValue (pair : Text)
deriving DecidableEq, Repr

namespace StyleError

def fragment : StyleError → Text
  | unknownKey key => key
  | missingValue pair => pair

def message : StyleError → Text
  | unknownKey key => "Unknown style key '".toList ++ key ++ "'".toList
  | missingValue pair =>
      "Style attribute '".toList ++ pair ++ "' is missing a value".toList

end StyleError

/-- One attribute as it was written.  Its value is absent if it was blank. -/
structure Attribute where
  key : AttributeKey
  value : Option Text
deriving DecidableEq, Repr

def Attribute.read (piece : Text) : Except StyleError Attribute :=
  match piece.cut? '=' with
  | none => .error (.missingValue piece)
  | some (before, after) =>
      match AttributeKey.ofName? before.trim with
      | none => .error (.unknownKey before.trim)
      | some key =>
          let value := after.trim
          .ok ⟨key, if value.isEmpty then none else some value⟩

/-- The effects named in a list of tokens with commas between them. -/
def EffectSet.ofTokens (tokens : Text) : EffectSet :=
  .ofList ((tokens.splitOn ',').filterMap Effect.ofToken?)

namespace Style

def assign (style : Style) (written : Attribute) : Style :=
  match written.key with
  | .foreground => { style with foreground := written.value }
  | .background => { style with background := written.value }
  | .link => { style with link := written.value }
  | .effects =>
      match written.value with
      | some tokens =>
          { style with effects := style.effects.union (.ofTokens tokens) }
      | none => style

/-- The pieces between semicolons that hold more than blanks. -/
def pieces (attributes : Text) : List Text :=
  ((attributes.splitOn ';').map Text.trim).filter fun piece => !piece.isEmpty

def read (attributes : Text) : Except StyleError Style := do
  let assignments ← (pieces attributes).mapM Attribute.read
  return assignments.foldl assign .empty

/-- The value that a style gives to a key, as it is written. -/
def value? (style : Style) : AttributeKey → Option Text
  | .foreground => style.foreground
  | .background => style.background
  | .link => style.link
  | .effects =>
      if style.effects.isEmpty then
        none
      else
        some ([','].intercalate (style.effects.toList.map Effect.name))

/-- The attributes of a style, each written as a key and a value. -/
def writtenAttributes (style : Style) : List Text :=
  AttributeKey.all.filterMap fun key =>
    (style.value? key).map fun value => key.name ++ '=' :: value

def write (style : Style) : Text :=
  [';'].intercalate style.writtenAttributes

end Style

end TerminalMarkup
