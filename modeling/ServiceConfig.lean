import ServiceConfig.Main
import ServiceConfig.Session
import ServiceConfig.Table.Stats
import ServiceConfig.Proofs.Table.Lookup
import ServiceConfig.Proofs.Tree.RoundTrip
import ServiceConfig.Proofs.Tree.Search
import ServiceConfig.Proofs.Tree.Acceptance
import ServiceConfig.Proofs.Tree.Concatenation
import ServiceConfig.Proofs.Tree.Splicing
import ServiceConfig.Proofs.Session.History
import ServiceConfig.Proofs.Table.Integrity
import ServiceConfig.Proofs.Table.Comparison
import ServiceConfig.Proofs.Tree.Bounds
import ServiceConfig.Proofs.Document.Verbatim
import ServiceConfig.Proofs.Log.Balance
import ServiceConfig.Proofs.Log.Erasure
import ServiceConfig.Proofs.Log.Account
import ServiceConfig.Proofs.Log.Truncation
import ServiceConfig.Proofs.Log.Delivery
import ServiceConfig.Proofs.Log.Amplification
import ServiceConfig.Proofs.Tree.Numbering
import ServiceConfig.Proofs.Document.Relocation
import ServiceConfig.Proofs.Grammar.Removal
import ServiceConfig.Proofs.Tree.Destruction
import ServiceConfig.Proofs.Tree.Enumeration
import ServiceConfig.Proofs.Dump.Output
import ServiceConfig.Proofs.Hash.Evahash
import ServiceConfig.Proofs.Hash.Injectivity
import ServiceConfig.Proofs.Grammar.Characters
import ServiceConfig.Proofs.Grammar.Faithful
import ServiceConfig.Proofs.Table.Occupancy
import ServiceConfig.Proofs.Tree.Display
import ServiceConfig.Proofs.Tree.Naming
import ServiceConfig.Proofs.Session.Report
import ServiceConfig.Proofs.Tree.Insertion
import ServiceConfig.Proofs.Text.Number
import ServiceConfig.Proofs.Tree.Typed
import ServiceConfig.Proofs.Grammar.Spacing
import ServiceConfig.Proofs.Grammar.Parts
import ServiceConfig.Proofs.Grammar.Place
import ServiceConfig.Proofs.Grammar.Progress
import ServiceConfig.Proofs.Live
import ServiceConfig.Proofs.Trail
import ServiceConfig.Proofs.Document.Trail
