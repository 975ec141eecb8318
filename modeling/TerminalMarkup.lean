import TerminalMarkup.EscapeRemoval
import TerminalMarkup.MarkupScanner
import TerminalMarkup.Formatter
import TerminalMarkup.Proofs.EventScan
import TerminalMarkup.Proofs.TagGrammar
import TerminalMarkup.Proofs.BackslashGuard
import TerminalMarkup.Proofs.ScannedPieces
import TerminalMarkup.Proofs.ScannerProgress
import TerminalMarkup.Proofs.TagBodies
import TerminalMarkup.Proofs.SpanFlow
import TerminalMarkup.Proofs.LiteralText
import TerminalMarkup.Proofs.LinkTargets
import TerminalMarkup.Proofs.PlainFlow
import TerminalMarkup.Proofs.LeadingBreak
import TerminalMarkup.Proofs.Terminal
import TerminalMarkup.Proofs.CodeReading
import TerminalMarkup.Proofs.EscapeSegments
import TerminalMarkup.Proofs.DepthLimits
import TerminalMarkup.Proofs.ColorReduction
import TerminalMarkup.Proofs.TokenGrammar
import TerminalMarkup.Proofs.WrittenDirectives
import TerminalMarkup.Proofs.StyleAttribution
import TerminalMarkup.Proofs.DepthIndependence
import TerminalMarkup.Proofs.CursorColumn
import TerminalMarkup.Proofs.ContinuousFlow
import TerminalMarkup.Proofs.ClosingTags
import TerminalMarkup.Proofs.EscapedMarkup
import TerminalMarkup.Proofs.WrittenAttributes
import TerminalMarkup.Proofs.AttributeReading
import TerminalMarkup.Proofs.NamedStyles
import TerminalMarkup.Proofs.StackHistory
import TerminalMarkup.Proofs.RangeCuts
