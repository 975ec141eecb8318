import TerminalMarkup.MarkupEvent
import TerminalMarkup.SpanWrap
import TerminalMarkup.StyleAttributes

/-!
# Formatting of marked-up text

Final backslashes are guarded, the events of the text are read, and the spans
they print are wrapped one after another with a common cursor.  An opening tag
that nobody understands is printed as it was written, and every closing tag
leaves the innermost style.
-/

namespace TerminalMarkup

/-- The width of a terminal that tells nothing else. -/
def defaultWidth : UInt64 := 80

structure Configuration where
  width : UInt64 := defaultWidth
  depth : ColorDepth := .trueColor
deriving DecidableEq, Repr

namespace Configuration

def plain : Configuration := { depth := .plain }

def basic : Configuration := { depth := .basic }

def indexed : Configuration := { depth := .indexed }

def trueColor : Configuration := { depth := .trueColor }

def withWidth (configuration : Configuration) (width : UInt64) :
    Configuration :=
  { configuration with width := width }

end Configuration

/-! ## Directives and spans -/

inductive Directive
  | print (text : Text)
  | enter (style : Style)
  | leave
deriving DecidableEq

/-- The style that the body of an opening tag asks for. -/
def StyleTable.resolve? (table : StyleTable) (body : Text) : Option Style :=
  let meant := unescapeBody body
  (table.find? meant).or (Style.read meant).toOption

namespace Directive

def ofEvent (table : StyleTable) : Event → Directive
  | .text content => print content
  | .opening body =>
      match table.resolve? body with
      | some style => enter style
      | none => print (Event.opening body).raw
  | .closing _ => leave

/-- Put a directive in front of others; two texts to print become one. -/
def cons : Directive → List Directive → List Directive
  | print first, print second :: rest => print (first ++ second) :: rest
  | directive, rest => directive :: rest

def join (directives : List Directive) : List Directive :=
  directives.foldr cons []

end Directive

/-- A stretch of text in one style. -/
structure Span where
  text : Text
  style : Style
deriving DecidableEq

/-- The spans that directives print, when some styles are open already. -/
def Directive.spans : StyleStack → List Directive → List Span
  | _, [] => []
  | stack, .print text :: rest => ⟨text, stack.current⟩ :: spans stack rest
  | stack, .enter style :: rest => spans (stack.push style) rest
  | stack, .leave :: rest => spans stack.pop rest

/-! ## Formatters -/

structure Formatter where
  configuration : Configuration := {}
  styles : StyleTable := .empty
deriving DecidableEq

namespace Formatter

/-- A formatter that knows the styles for messages. -/
def withMessageStyles (configuration : Configuration) : Formatter :=
  { configuration := configuration, styles := .messageStyles }

def setStyle (formatter : Formatter) (name : Text) (style : Style) : Formatter :=
  { formatter with styles := formatter.styles.insert name style }

def spansOf (formatter : Formatter) (markup : Text) : List Span :=
  Directive.spans .empty
    (Directive.join ((events markup).map (.ofEvent formatter.styles)))

/-- Wrap spans one after another: their output and the cursor after it. -/
def wrapSpans (configuration : Configuration) : Cursor → List Span → Text × Cursor
  | cursor, [] => ([], cursor)
  | cursor, span :: rest =>
      let written :=
        wrapSpan configuration.width (span.style.codes configuration.depth)
          cursor span.text
      let (others, last) :=
        wrapSpans configuration (cursor.after configuration.width span.text) rest
      (written ++ others, last)

/-- Write a marked-up text from a column on, with its backslashes as they are:
the output and the column after it. -/
def render (formatter : Formatter) (column : Int64) (markup : Text) :
    Text × Int64 :=
  let (written, cursor) :=
    wrapSpans formatter.configuration ⟨column, false⟩ (formatter.spansOf markup)
  (written, cursor.column)

/-- Write a marked-up text from a column on: the output and the column after
it, from which the next text continues. -/
def flow (formatter : Formatter) (column : Int64) (markup : Text) :
    Text × Int64 :=
  let (written, last) :=
    formatter.render column (guardFinalBackslashes markup)
  (restoreBackslashes written, last)

def format (formatter : Formatter) (markup : Text) : Text :=
  (formatter.flow 0 markup).1

/-- Add the output to a buffer: the buffer and the number of bytes added. -/
def writeTo (formatter : Formatter) (buffer markup : Text) : Text × Nat :=
  let written := formatter.format markup
  (buffer ++ written, written.byteLength)

end Formatter

/-- Write a marked-up text on lines of a given width, with colors as they are
written and no named styles. -/
def formatText (markup : Text) (width : UInt64) : Text :=
  Formatter.format { configuration := Configuration.trueColor.withWidth width }
    markup

end TerminalMarkup
