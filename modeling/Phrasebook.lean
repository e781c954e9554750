import Phrasebook.CommandLine
import Phrasebook.Main
import Phrasebook.Proofs.Outcome
import Phrasebook.Proofs.Spelling
import Phrasebook.Proofs.Requests
import Phrasebook.Proofs.RenderedText
import Phrasebook.Proofs.Grammar
import Phrasebook.Proofs.Scanning
import Phrasebook.Proofs.Placeholders
import Phrasebook.Proofs.Messages
import Phrasebook.Proofs.RoundTrip
import Phrasebook.Proofs.Nesting
import Phrasebook.Proofs.Acceptance
import Phrasebook.Proofs.Selection
import Phrasebook.Proofs.Shadowing
import Phrasebook.Proofs.Html
import Phrasebook.Proofs.Skeleton
import Phrasebook.Proofs.FormattedParts
import Phrasebook.Proofs.DecodedParts
import Phrasebook.Proofs.CacheAccount
import Phrasebook.Proofs.Tracing
import Phrasebook.Proofs.PlaceholderTraces
import Phrasebook.Proofs.SourceSpans
import Phrasebook.Proofs.Tiling
import Phrasebook.Proofs.Correspondence
import Phrasebook.Proofs.Concatenation
import Phrasebook.Proofs.Scopes
import Phrasebook.Proofs.Declarations
import Phrasebook.Proofs.MissingArguments
import Phrasebook.Proofs.Annotations
import Phrasebook.Proofs.Calendar
import Phrasebook.Proofs.Numerals
import Phrasebook.Proofs.Timestamps
import Phrasebook.Proofs.SignOfZero
import Phrasebook.Proofs.Overrides
import Phrasebook.Proofs.Echo
import Phrasebook.Proofs.VariableNames
import Phrasebook.Proofs.Splitting
import Phrasebook.Proofs.Invocations
import Phrasebook.Proofs.Runs
import Phrasebook.Proofs.EscapeErrors
import Phrasebook.Proofs.ScannedForms
import Phrasebook.Proofs.PlaceholderPrefixes
import Phrasebook.Proofs.MessagePrefixes
