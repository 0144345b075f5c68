import GeneCalculus.Main
import GeneCalculus.Registry.Genes
import GeneCalculus.Registry.Organisms
import GeneCalculus.Registry.Recording
import GeneCalculus.Registry.Status
import GeneCalculus.Proofs.Canonical.Application
import GeneCalculus.Proofs.Canonical.Decoding
import GeneCalculus.Proofs.Canonical.Soundness
import GeneCalculus.Proofs.Canonical.Finality
import GeneCalculus.Proofs.Canonical.Layout
import GeneCalculus.Proofs.Canonical.Numbering
import GeneCalculus.Proofs.Canonical.Walk
import GeneCalculus.Proofs.Registry.Meaning
import GeneCalculus.Proofs.Registry.Reign
import GeneCalculus.Proofs.Registry.Storage
import GeneCalculus.Proofs.Canonical.Fixpoint
import GeneCalculus.Proofs.Registry.Certification
import GeneCalculus.Proofs.Sharing.Extraction
import GeneCalculus.Proofs.Snapshot.Reading
import GeneCalculus.Proofs.Snapshot.Restoring
import GeneCalculus.Proofs.Canonical.Atoms
import GeneCalculus.Proofs.Surgery.Stability
import GeneCalculus.Proofs.Sharing.History
import GeneCalculus.Proofs.Surface.Renaming
import GeneCalculus.Proofs.Surface.Spelling
import GeneCalculus.Proofs.Calculus.Irreducible
import GeneCalculus.Proofs.Calculus.Reducts
import GeneCalculus.Proofs.Calculus.Completeness
import GeneCalculus.Proofs.Reduction.Budget
import GeneCalculus.Proofs.Calculus.Shifting
import GeneCalculus.Proofs.Registry.Submission
import GeneCalculus.Proofs.Rewrite.OnePass
import GeneCalculus.Proofs.Sharing.Copying
import GeneCalculus.Proofs.Canonical.Programs
import GeneCalculus.Proofs.Registry.Refusal
import GeneCalculus.Proofs.Registry.Repetition
import GeneCalculus.Proofs.Registry.Classes
import GeneCalculus.Proofs.Fitness.Ranking
import GeneCalculus.Proofs.Expr.Exactness
import GeneCalculus.Proofs.Surface.Reading
import GeneCalculus.Proofs.Registry.Forging
import GeneCalculus.Proofs.Registry.ReadingBack
