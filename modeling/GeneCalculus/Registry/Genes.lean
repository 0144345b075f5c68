import GeneCalculus.Canonical.Report
import GeneCalculus.Registry.Champions
import GeneCalculus.Registry.Store
import GeneCalculus.Surface.Print

/-!
Genes. A gene is never changed, and all genes of one soul have the same canonical bytes: souls are
short, so two canonical forms may share one, and the later of them is refused.
-/

namespace GeneCalculus

namespace Registry

/-- What keeps a gene out: its object is not stored, or its soul stands for other bytes. -/
def checkGene (R : Registry) (g : Gene) : Except Error Unit :=
  match R.object? g.cid with
  | none => .error (.unknownObject g.cid)
  | some _ =>
    match R.genes.find? fun other => other.soul = g.soul ∧ other.cid ≠ g.cid with
    | some other => .error (.soulCollision g.soul other.cid g.cid)
    | none => .ok ()

/-- Inserts a gene, or answers with the one that is there for its soul and source. In both cases the
row is read, and a new one is there by then. -/
def insertGene (R : Registry) (g : Gene) : Outcome Gene :=
  match R.checkGene g with
  | .error e => (.error e, R)
  | .ok _ =>
    match tabled? g.complexity, tabled? g.purity with
    | some complexity, some purity =>
      match R.gene? g.soul g.source with
      | some stored => (stored.read, R)
      | none =>
        let g := { g with complexity, purity }
        let R := { R with genes := R.genes ++ [g] }
        match g.read with
        | .error e => (.error e, R)
        | .ok stored => R.settle g.soul stored
    | _, _ => (.error (.notNumber .gene), R)

/-- A registered expression: its gene, the object with the expression as it was submitted, and a
report on its canonical form. -/
structure Registration where
  gene : Gene
  source : Cid
  report : Report

/-- Whether the expression at `root` uses primitives of the host. -/
def usesHost (A : Arena) (root : NodeId) : Bool :=
  (A.reachable root).any fun i =>
    match A.node? i with
    | some (.prim _) => true
    | _ => false

/-- Registers the expression at `root` as a gene. It must be closed and its soul final. What uses no
primitives is pure, whatever is said; anything else is as pure as it is said to be. -/
def register (R : Registry) (A : Arena) (root : NodeId) (source : String)
    (purity : Option Float) : Outcome Registration :=
  match A.validateClosed root with
  | .error cause => (.error (.malformed cause), R)
  | .ok _ =>
    let snapshot := A.snapshot root
    let (c, A) := A.canonicalize R.policy.limits root
    if c.soul.provisional then (.error (.provisionalSoul c.soul.id), R)
    else
      let (sourceCid, R) := R.put snapshot .source (some source)
      let (cid, R) := R.put c.bytes .ir (some source)
      let gene : Gene :=
        { soul := c.soul.id
          source
          cid
          ir := A.print c.root
          complexity := (UInt64.ofNat c.finalCost).toFloat
          purity := if usesHost A c.root then purity.getD 0.0 else 1.0
          size := c.bytes.length }
      (R.insertGene gene).map fun gene => ⟨gene, sourceCid, c.report⟩

end Registry

end GeneCalculus
