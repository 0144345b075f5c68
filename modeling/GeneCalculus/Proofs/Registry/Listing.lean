import GeneCalculus.Proofs.Json.Members
import GeneCalculus.Proofs.Registry.Manifest
import GeneCalculus.Proofs.Text.Utf8
import GeneCalculus.Settings.Text

/-!
Reading a manifest. The bytes of a manifest are the text of a JSON object that names every soul and
its objects, so the whole manifest is read back from them.
-/

namespace GeneCalculus

/-- A list is read back if its items are. -/
theorem mapM_map_of_read {α β : Type} (read : β → Option α) (write : α → β)
    (back : ∀ x, read (write x) = some x) (xs : List α) : (xs.map write).mapM read = some xs := by
  induction xs with
  | nil => rfl
  | cons x xs ih =>
    rw [List.map_cons, List.mapM_cons, back, ih]
    rfl

namespace Manifest

def readCid : Json.Reader Cid := fun v => (Json.readStr v).map Cid.mk

/-- Reads the soul and the objects of an entry. -/
def readGene (member : Option String × Json) : Option (SoulId × List Cid) := do
  return (⟨← member.1⟩, ← Json.readList readCid member.2)

/-- Reads a manifest: its fields in order. -/
def read? : Json.Reader Manifest
  | .object [(some "name", name), (some "targets", targets), (some "genes", .object genes)] => do
    return ⟨← Json.readStr name, ← Json.readList Json.readStr targets, ← genes.mapM readGene⟩
  | _ => none

/-- The manifest that stored bytes are the text of. -/
def ofBytes? (bytes : List UInt8) : Option Manifest := do
  let text ← (Text.Utf8.decode bytes).toOption
  read? (← Json.parse text)

/-- An entry as it is written. -/
def writeGene (entry : SoulId × List Cid) : Option String × Json :=
  (some entry.1.text, .array (entry.2.map fun cid => .str cid.text))

theorem readGene_writeGene (entry : SoulId × List Cid) :
    readGene (writeGene entry) = some entry := by
  have cids : (entry.2.map fun cid => Json.str cid.text).mapM readCid = some entry.2 :=
    mapM_map_of_read readCid _ (fun _ => rfl) entry.2
  unfold readGene
  show (do return (SoulId.mk entry.1.text, ← List.mapM readCid _)) = _
  rw [cids]
  rfl

theorem json_eq (m : Manifest) : m.json = .object [(some "name", .str m.name),
    (some "targets", .array (m.targets.map .str)),
    (some "genes", .object (m.genes.map writeGene))] := by
  simp only [json, Json.record, List.map_cons, List.map_nil, List.map_map]
  rfl

theorem read?_json (m : Manifest) : read? m.json = some m := by
  have targets : (m.targets.map Json.str).mapM Json.readStr = some m.targets :=
    mapM_map_of_read Json.readStr Json.str (fun _ => rfl) m.targets
  have genes : (m.genes.map writeGene).mapM readGene = some m.genes :=
    mapM_map_of_read readGene writeGene readGene_writeGene m.genes
  rw [json_eq, read?]
  show (do return Manifest.mk m.name (← List.mapM Json.readStr _) (← List.mapM readGene _)) = _
  rw [targets, genes]
  rfl

theorem faithful_strs {α : Type} (text : α → String) (xs : List α) :
    Json.Faithful (.array (xs.map fun x => .str (text x))) := by
  apply Json.faithful_array
  intro v hv
  obtain ⟨x, -, rfl⟩ := List.mem_map.1 hv
  exact Json.faithful_str _

theorem faithful_json (m : Manifest) : Json.Faithful m.json := by
  have genes : Json.Faithful (.record (m.genes.map fun entry =>
      (entry.1.text, .array (entry.2.map fun cid => .str cid.text)))) := by
    apply Json.faithful_record
    intro member hm
    obtain ⟨entry, -, rfl⟩ := List.mem_map.1 hm
    exact faithful_strs Cid.text entry.2
  apply Json.faithful_record
  simp only [List.forall_mem_cons]
  exact ⟨Json.faithful_str _, faithful_strs id m.targets, genes, nofun⟩

/-- What is stored of a manifest tells all of it. -/
theorem ofBytes?_bytes (m : Manifest) : ofBytes? m.bytes = some m := by
  have text : Text.Utf8.decode m.bytes = .ok m.json.compact := Text.Utf8.decode_iff.2 rfl
  unfold ofBytes?
  rw [text]
  show (Json.parse m.json.compact >>= read?) = _
  rw [m.faithful_json.parse]
  exact read?_json m

end Manifest

end GeneCalculus
