import OpsBlobs.JsMap

namespace OpsBlobs.VersionDag

structure VersionNode where
  parents : List String
  contentHash : String
  fileId : String
  deriving DecidableEq, Repr

end OpsBlobs.VersionDag

abbrev OpsBlobs.VersionDag := OpsBlobs.JsMap String OpsBlobs.VersionDag.VersionNode

namespace OpsBlobs.VersionDag

inductive MergeBaseResult
  | none
  | base (id : String)
  | multipleBases
  deriving DecidableEq, Repr

def parentsOf (dag : VersionDag) (id : String) : List String :=
  match dag.get id with
  | some node => node.parents
  | none => []

/-- The upward walk with a stack: every id is expanded once, so it pops at most one id
more than there are edges and starting ids. -/
def walkUp (dag : VersionDag) : Nat → List String → List String → List String
  | 0, _, seen => seen
  | _, [], seen => seen
  | fuel + 1, cur :: stack, seen =>
      if cur ∈ seen then walkUp dag fuel stack seen
      else walkUp dag fuel ((parentsOf dag cur).reverse ++ stack) (seen ++ [cur])

def edgeCount (dag : VersionDag) : Nat := (dag.values.map (fun node => node.parents.length)).sum

def ancestors (dag : VersionDag) (id : String) : List String :=
  walkUp dag (edgeCount dag + 1) [id] []

/-- The same walk, stopping as soon as the sought id shows up among some parents. -/
def reaches (dag : VersionDag) (maybeAncestor : String) :
    Nat → List String → List String → Bool
  | 0, _, _ => false
  | _, [], _ => false
  | fuel + 1, cur :: stack, seen =>
      if cur ∈ seen then reaches dag maybeAncestor fuel stack seen
      else if maybeAncestor ∈ parentsOf dag cur then true
      else reaches dag maybeAncestor fuel ((parentsOf dag cur).reverse ++ stack) (seen ++ [cur])

def isAncestor (dag : VersionDag) (maybeAncestor descendant : String) : Bool :=
  if maybeAncestor = descendant then true
  else reaches dag maybeAncestor (edgeCount dag + 1) [descendant] []

def isMergeNode (dag : VersionDag) (versionId : String) : Bool :=
  2 ≤ (parentsOf dag versionId).length

/-- An empty content hash reads as unknown. -/
def contentHashOf (dag : VersionDag) (versionId : String) : Option String :=
  ((dag.get versionId).map (·.contentHash)).filter (· ≠ "")

def mergeBase (dag : VersionDag) (a b : String) : MergeBaseResult :=
  let common := (ancestors dag a).filter (· ∈ ancestors dag b)
  if common = [] then .none
  else
    let stack := common.flatMap (parentsOf dag)
    let dominated := walkUp dag (edgeCount dag + stack.length) stack.reverse []
    match common.filter (· ∉ dominated) with
    | [base] => .base base
    | _ => .multipleBases

def unionParents (versionId : String) (known added : List String) : List String :=
  added.foldl (fun ps p => if p = versionId ∨ p ∈ ps then ps else ps ++ [p]) known

def addVersion (dag : VersionDag) (versionId : String) (parents : List String)
    (contentHash fileId : String) : VersionDag :=
  match dag.get versionId with
  | none => dag.set versionId ⟨unionParents versionId [] parents, contentHash, fileId⟩
  | some node =>
      dag.set versionId
        { parents := unionParents versionId node.parents parents
          contentHash := if node.contentHash = "" then contentHash else node.contentHash
          fileId := if node.fileId = "" then fileId else node.fileId }

end OpsBlobs.VersionDag
