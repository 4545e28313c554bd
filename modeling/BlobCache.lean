import BlobCache.Main
import BlobCache.Session.Step
import BlobCache.Proofs.Directories
import BlobCache.Proofs.Budget
import BlobCache.Proofs.BudgetRuns
import BlobCache.Proofs.Keeping
import BlobCache.Proofs.Fidelity
import BlobCache.Proofs.Preimage
import BlobCache.Proofs.Transparency
import BlobCache.Proofs.Checking
import BlobCache.Proofs.Pinning
import BlobCache.Proofs.Drafts
import BlobCache.Proofs.Custody
import BlobCache.Proofs.Containment
import BlobCache.Proofs.Disabled
import BlobCache.Proofs.Finding
import BlobCache.Proofs.Recency
import BlobCache.Proofs.RoundTrip
import BlobCache.Proofs.Tearing
import BlobCache.Proofs.Verifying
import BlobCache.Proofs.Words
import BlobCache.Proofs.Accounting
import BlobCache.Proofs.LostWrites
import BlobCache.Proofs.LoadTrouble
import BlobCache.Proofs.KeyLayout
import BlobCache.Proofs.Settling
import BlobCache.Proofs.ScanOrder
import BlobCache.Proofs.Commuting
import BlobCache.Proofs.Numerals
import BlobCache.Proofs.ConfigTexts
import BlobCache.Proofs.Delivery
import BlobCache.Proofs.PrintedKeys
import BlobCache.Proofs.Hashing
import BlobCache.Proofs.FormatTexts
import BlobCache.Proofs.Overrides
