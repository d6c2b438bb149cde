import OpsBlobs.CodeUnits
import OpsBlobs.Types

namespace OpsBlobs.Operations

open Types Hlc CodeUnits

/-- The order of `sort` on strings, which goes by code units. -/
def sortStrings (l : List String) : List String :=
  l.insertionSort fun a b => ¬units b < units a

/-- The content-addressed id of a merge node: both devices derive the same one. -/
def mergeVersionId (P : Platform) (contentHash : String) (parents : List String) : String :=
  let canonical := "\x00".intercalate ("merge" :: sortStrings parents ++ [contentHash])
  "m-" ++ P.sha256Hex (P.encode canonical.toList)

def stamp (hlc : Hlc) (fileId : String) (type : OperationType) (path : Path)
    (contentHash : String) (parents : List String) : Operation :=
  ⟨OP_FORMAT_VERSION, hlcToString hlc, hlc, fileId, type, path, contentHash, parents⟩

/-- An empty version id reads as no parent. -/
def parentList (parentVersion : Option String) : List String :=
  (parentVersion.filter (· ≠ "")).toList

namespace Ops

def create (fileId : String) (path : Path) (contentHash : String) (hlc : Hlc) : Operation :=
  stamp hlc fileId .create path contentHash []

def update (fileId : String) (path : Path) (contentHash : String) (hlc : Hlc)
    (parentVersion : Option String) : Operation :=
  stamp hlc fileId .update path contentHash (parentList parentVersion)

def delete (fileId : String) (path : Path) (contentHash : String) (hlc : Hlc)
    (parentVersion : Option String) : Operation :=
  stamp hlc fileId .delete path contentHash (parentList parentVersion)

def move (fileId : String) (path : Path) (contentHash : String) (hlc : Hlc)
    (parentVersion : Option String) : Operation :=
  stamp hlc fileId .move path contentHash (parentList parentVersion)

def merge (fileId : String) (path : Path) (contentHash : String) (hlc : Hlc)
    (parents : List String) (id : String) : Operation :=
  ⟨OP_FORMAT_VERSION, id, hlc, fileId, .update, path, contentHash, parents⟩

def mergeDelete (fileId : String) (path : Path) (contentHash : String) (hlc : Hlc)
    (parents : List String) (id : String) : Operation :=
  ⟨OP_FORMAT_VERSION, id, hlc, fileId, .delete, path, contentHash, parents⟩

end Ops

def dedupeFrom (seen : List String) : List Operation → List Operation
  | [] => []
  | op :: rest =>
      if op.id ∈ seen then dedupeFrom seen rest else op :: dedupeFrom (op.id :: seen) rest

/-- The first op of each id, in order. -/
def dedupeOpsById (ops : List Operation) : List Operation := dedupeFrom [] ops

end OpsBlobs.Operations
