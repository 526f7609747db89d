import Harpia.AfterCommit
import Harpia.AllowList
import Harpia.Base64url
import Harpia.CommentRemover
import Harpia.DaoPlaintext
import Harpia.Delivery
import Harpia.EncryptedFrames
import Harpia.EncryptedRuns
import Harpia.EventChannel
import Harpia.FieldMapRegenerate
import Harpia.LayoutMessages
import Harpia.LexemeRuns
import Harpia.LocalKeyFaults
import Harpia.MessageDeclarations
import Harpia.MigrationSafety
import Harpia.ModelCoverage
import Harpia.ModelNamesApart
import Harpia.NamedStreamRuns
import Harpia.PoolClose
import Harpia.RbacGates
import Harpia.RedactedRoundTrip
import Harpia.ResolveImports
import Harpia.RestPut
import Harpia.SessionRuns
import Harpia.Sha256
import Harpia.YamlAgreement
import Harpia.DaoOwnerRuns
import Harpia.MigrationAgain
import Harpia.DaoCreateRuns
import Harpia.DaoRemove
import Harpia.DaoList
import Harpia.DaoImport
import Harpia.Mailbox
