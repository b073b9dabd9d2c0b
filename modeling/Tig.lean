import Tig.Core.CanonicalEncode
import Tig.Core.Encoding
import Tig.Core.Hash
import Tig.Fs.Canonical
import Tig.Guarantees.Blames
import Tig.Guarantees.Callers
import Tig.Guarantees.CanonicalForms
import Tig.Guarantees.ChangeRecords
import Tig.Guarantees.CloneWorkspaces
import Tig.Guarantees.Collector
import Tig.Guarantees.Comparison
import Tig.Guarantees.Containment
import Tig.Guarantees.Copies
import Tig.Guarantees.Differences
import Tig.Guarantees.Edits
import Tig.Guarantees.Watches
import Tig.Guarantees.Encodings
import Tig.Guarantees.Failures
import Tig.Guarantees.Handles
import Tig.Guarantees.HiddenChanges
import Tig.Guarantees.HiddenHashes
import Tig.Guarantees.Hunks
import Tig.Guarantees.Landings
import Tig.Guarantees.LiveData
import Tig.Guarantees.LogFraming
import Tig.Guarantees.LostEdits
import Tig.Guarantees.Materializations
import Tig.Guarantees.OpIds
import Tig.Guarantees.Ownership
import Tig.Guarantees.PathEdits
import Tig.Guarantees.PathReaders
import Tig.Guarantees.Plumbing
import Tig.Guarantees.Pointers
import Tig.Guarantees.Prefixes
import Tig.Guarantees.RacingPuts
import Tig.Guarantees.Recoveries
import Tig.Guarantees.RefMaps
import Tig.Guarantees.Redaction
import Tig.Guarantees.Restores
import Tig.Guarantees.Returns
import Tig.Guarantees.RoundTrip
import Tig.Guarantees.SealedPaths
import Tig.Guarantees.Sealing
import Tig.Guarantees.Searches
import Tig.Guarantees.Subjects
import Tig.Guarantees.Tokens
import Tig.Guarantees.TreeAlgebra
import Tig.Guarantees.TreeMaps
import Tig.Guarantees.UndoLinks
import Tig.Guarantees.WorkspaceNames
import Tig.Guarantees.Writes
import Tig.Lib.Cbor
import Tig.Lib.CborWire
import Tig.Lib.Marking
import Tig.Lib.Relational
import Tig.Lib.Serde
import Tig.Guarantees.ObjectFiles
import Tig.Store.Shards
import Tig.System.Writers
import Tig.Vis.Minting
import Tig.Vis.PrincipalFiles
