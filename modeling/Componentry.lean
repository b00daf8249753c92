import Componentry.Main
import Componentry.Proofs.Console.Nearest
import Componentry.Proofs.Debounce
import Componentry.Proofs.Guard.Interchange
import Componentry.Proofs.Guard.Monotone
import Componentry.Proofs.Guard.Reasons
import Componentry.Proofs.Guard.Structural
import Componentry.Proofs.Guard.Warnings
import Componentry.Proofs.Identity.Calls
import Componentry.Proofs.Lifecycle.Constants
import Componentry.Proofs.Lifecycle.Initialization
import Componentry.Proofs.Lifecycle.Names
import Componentry.Proofs.Metadata.Configuration
import Componentry.Proofs.Metadata.RecordList
import Componentry.Proofs.Output.Artifacts
import Componentry.Proofs.Snippet.Fields
import Componentry.Proofs.Snippet.Lines
import Componentry.Proofs.Snippet.Precedence
import Componentry.Proofs.Types.Arguments
import Componentry.Proofs.Types.Classes
import Componentry.Proofs.Types.Termination
import Componentry.Proofs.Guard.Failure
import Componentry.Proofs.Guard.Spelling
