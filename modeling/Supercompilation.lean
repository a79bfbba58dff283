import Supercompilation.ErrorKind
import Supercompilation.Main
import Supercompilation.Session.Completion
import Supercompilation.Proofs.Specialization
import Supercompilation.Proofs.ClosedTree
import Supercompilation.Proofs.Hygiene
import Supercompilation.Proofs.Independence
import Supercompilation.Proofs.RoundTrip
import Supercompilation.Proofs.GroundValue
import Supercompilation.Proofs.Preorder
import Supercompilation.Proofs.Worklist
import Supercompilation.Proofs.Outcome
import Supercompilation.Proofs.Operations
import Supercompilation.Proofs.Ranking
import Supercompilation.Proofs.Termination
import Supercompilation.Proofs.Census
import Supercompilation.Proofs.Tracing
import Supercompilation.Proofs.Session
import Supercompilation.Proofs.Dialogue
import Supercompilation.Proofs.ExitCode
import Supercompilation.Proofs.Instance
import Supercompilation.Proofs.CaseSplit
import Supercompilation.Proofs.Selection
import Supercompilation.Proofs.Redefinition
import Supercompilation.Proofs.Folding
import Supercompilation.Proofs.CommentLine
import Supercompilation.Proofs.Classification
import Supercompilation.Proofs.Rounds
import Supercompilation.Proofs.Lossless
import Supercompilation.Proofs.Blame
import Supercompilation.Proofs.Joining
import Supercompilation.Proofs.Place
import Supercompilation.Proofs.Layout
import Supercompilation.Proofs.Indexing
import Supercompilation.Proofs.Outline
import Supercompilation.Proofs.EarlyRejection
