import BlockScript.Main
import BlockScript.Proofs.Correctness
import BlockScript.Proofs.Hoisting
import BlockScript.Proofs.Machine.Invariant
import BlockScript.Proofs.Nesting
import BlockScript.Proofs.Parsing
import BlockScript.Proofs.Printing
import BlockScript.Proofs.Progress
import BlockScript.Proofs.Pruning
import BlockScript.Proofs.Renaming
import BlockScript.Proofs.Session
import BlockScript.Proofs.Token.Partition
import BlockScript.Proofs.Sharing
import BlockScript.Proofs.Notes
import BlockScript.Proofs.Balance
import BlockScript.Proofs.Machine.Stopping
import BlockScript.Proofs.Placement
import BlockScript.Proofs.Machine.Room
import BlockScript.Proofs.Machine.Contents
import BlockScript.Proofs.Code.Encoding
import BlockScript.Proofs.Token.Spacing
import BlockScript.Proofs.Token.Numerals
import BlockScript.Proofs.SyntaxErrors
import BlockScript.Proofs.Concatenation
import BlockScript.Proofs.Scope.Visibility
import BlockScript.Proofs.Code.Backlog
import BlockScript.Proofs.Code.Listing
import BlockScript.Proofs.Listing
import BlockScript.Proofs.Toml.Quoted
import BlockScript.Proofs.Toml.Document
import BlockScript.Proofs.Settings
