import PhelAssist.Datum.Marked
import PhelAssist.Assistant
import PhelAssist.Log.Session
import PhelAssist.Catalog.Builtin
import PhelAssist.Tree.Event
import PhelAssist.Proofs.Acceptance
import PhelAssist.Proofs.Offering
import PhelAssist.Proofs.Truncation
import PhelAssist.Proofs.Shape
import PhelAssist.Proofs.Decoding
import PhelAssist.Proofs.Printing
import PhelAssist.Proofs.Cover
import PhelAssist.Proofs.BodyScope
import PhelAssist.Proofs.Agreement
import PhelAssist.Proofs.Fallback
import PhelAssist.Proofs.Documenting
import PhelAssist.Proofs.Positions
import PhelAssist.Proofs.Hovering
import PhelAssist.Proofs.PairScope
import PhelAssist.Proofs.Repeats
import PhelAssist.Proofs.SortOrder
import PhelAssist.Proofs.Precedence
import PhelAssist.Proofs.Confinement
import PhelAssist.Proofs.BindingForms
import PhelAssist.Proofs.Arities
import PhelAssist.Proofs.Concatenation
import PhelAssist.Proofs.Defining
import PhelAssist.Proofs.CursorSearch
import PhelAssist.Proofs.Cutting
import PhelAssist.Proofs.Marking
import PhelAssist.Proofs.RankOrder
import PhelAssist.Proofs.Loading
import PhelAssist.Proofs.Snippets
import PhelAssist.Proofs.Marks
import PhelAssist.Proofs.Pieces
import PhelAssist.Proofs.SnippetReading
import PhelAssist.Proofs.Clamping
import PhelAssist.Proofs.Escaping
import PhelAssist.Proofs.StackSearch
import PhelAssist.Proofs.ElementIndex
