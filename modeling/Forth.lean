import Forth.CommandLine.FileTree
import Forth.Main
import Forth.Compiler.Descent
import Forth.Dictionary.Directory
import Forth.Token.Reader
import Forth.Proofs.Grammar
import Forth.Proofs.Parsing
import Forth.Proofs.Linking
import Forth.Proofs.Layout
import Forth.Proofs.Safety
import Forth.Proofs.Semantics
import Forth.Proofs.Simulation
import Forth.Proofs.Correctness
import Forth.Proofs.Termination
import Forth.Proofs.Binding
import Forth.Proofs.Relocation
import Forth.Proofs.Isolation
import Forth.Proofs.Places
import Forth.Proofs.Splitting
import Forth.Proofs.Staging
import Forth.Proofs.Transcripts
import Forth.Proofs.Frames
import Forth.Proofs.Tokenizing
import Forth.Proofs.Failures
import Forth.Proofs.Underneath
import Forth.Proofs.Reformatting
import Forth.Proofs.Resolution
import Forth.Proofs.Limits
import Forth.Proofs.Fields
import Forth.Proofs.Listings
import Forth.Proofs.Descent
import Forth.Proofs.Calls
import Forth.Proofs.OpenConstructs
import Forth.Proofs.Blame
import Forth.Proofs.Literals
import Forth.Proofs.Lookahead
import Forth.Proofs.Lookups
import Forth.Proofs.Provenance
import Forth.Proofs.StraightLine
import Forth.Proofs.Arithmetic
import Forth.Proofs.Rounds
import Forth.Proofs.Dumps
import Forth.Proofs.Buffering
import Forth.Proofs.Quoting
