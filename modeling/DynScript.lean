import DynScript.Interner
import DynScript.Main
import DynScript.Token.Cursor
import DynScript.Proofs.Analysis.Exports
import DynScript.Proofs.Run.Bounds
import DynScript.Proofs.Run.Composing
import DynScript.Proofs.Run.Depth
import DynScript.Proofs.Run.Scoping
import DynScript.Proofs.Session.Direct
import DynScript.Proofs.Session.Directories
import DynScript.Proofs.Session.Failures
import DynScript.Proofs.Session.Loading
import DynScript.Proofs.Session.Receivers
import DynScript.Proofs.Session.Reports
import DynScript.Proofs.Session.Returns
import DynScript.Proofs.Session.Safety
import DynScript.Proofs.Analysis.Assignments
import DynScript.Proofs.Run.Shielding
import DynScript.Proofs.Run.Reassigning
import DynScript.Proofs.Run.Values
import DynScript.Proofs.Session.Assignments
import DynScript.Proofs.Analysis.Checking
import DynScript.Proofs.Analysis.Opening
import DynScript.Proofs.Syntax.CorrectPrefix
import DynScript.Proofs.Session.Orders
import DynScript.Proofs.Session.Gating
import DynScript.Proofs.Grammar.Listing
import DynScript.Proofs.Analysis.Splicing
import DynScript.Proofs.Syntax.Sentences
import DynScript.Proofs.Value.Copies
import DynScript.Proofs.Value.Avoiding
import DynScript.Proofs.Run.Assigning
import DynScript.Proofs.Run.Naming
import DynScript.Proofs.Run.Veiling
import DynScript.Proofs.Run.Blind
import DynScript.Proofs.Run.Blindness
import DynScript.Proofs.Run.Constructing
import DynScript.Proofs.Session.Naming
import DynScript.Proofs.Session.Copies
import DynScript.Proofs.Session.Blindness
import DynScript.Proofs.Session.Constructing
import DynScript.Proofs.Scope.Invariants
import DynScript.Proofs.Session.Looping
import DynScript.Proofs.Session.Telling
import DynScript.Proofs.Session.Standing
import DynScript.Proofs.Value.Display
import DynScript.Proofs.Token.Writing
import DynScript.Proofs.Token.Interning
import DynScript.Proofs.Analysis.Keeping
import DynScript.Proofs.Analysis.Transcripts
import DynScript.Proofs.Session.Once
