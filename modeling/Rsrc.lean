import Rsrc.Options.Read
import Rsrc.Proofs.Archive.Attributes
import Rsrc.Proofs.Archive.Extended
import Rsrc.Proofs.Archive.Numerals
import Rsrc.Proofs.Encoding.Hexadecimal
import Rsrc.Proofs.Encoding.Sizes
import Rsrc.Proofs.Encoding.Terminated
import Rsrc.Proofs.Exclusion
import Rsrc.Proofs.Expr.Climbing
import Rsrc.Proofs.Expr.Exact
import Rsrc.Proofs.Import
import Rsrc.Proofs.Import.Once
import Rsrc.Proofs.Isolation
import Rsrc.Proofs.Lexeme.Printed
import Rsrc.Proofs.Progress.Termination
import Rsrc.Proofs.Reference.Codec
import Rsrc.Proofs.Resource.Joined
import Rsrc.Proofs.Resource.Writes
import Rsrc.Proofs.Scopes.Chains
import Rsrc.Proofs.Stream
import Rsrc.Proofs.Template.Grammar
import Rsrc.Proofs.TypeDef.Labels
