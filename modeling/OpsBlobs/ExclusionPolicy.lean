import OpsBlobs.RegExp
import OpsBlobs.Types

namespace OpsBlobs.ExclusionPolicy

open Types CodeUnits RegExp

structure SyncSettings where
  excludedPatterns : List String
  syncObsidianConfig : Bool
  maxFileSizeMb : Nat
  ancestorRetentionDays : Nat
  deriving DecidableEq, Repr

def STATE_DIR : String := ".opsblobs/"

def OWN_PLUGIN_DIR : String := ".obsidian/plugins/opsblobs/"

def WORKSPACE_FILES : List String :=
  [".obsidian/workspace.json", ".obsidian/workspace-mobile.json"]

def OBSIDIAN_DIR : String := ".obsidian/"

def escapeRegExpChar (ch : Fin 65536) : Units :=
  if ch ∈ units ".+^$\x7b\x7d()|[]\\" then [unit '\\', ch] else [ch]

/-- What one unit of a glob is translated to, but for the first of two stars. -/
def globUnit (ch : Fin 65536) : Units :=
  if ch = unit '*' then units "[^/]*"
  else if ch = unit '?' then units "[^/]"
  else escapeRegExpChar ch

def globSource : Units → Units
  | [] => []
  | [ch] => globUnit ch
  | ch :: next :: rest =>
      if ch = unit '*' ∧ next = unit '*' then units ".*" ++ globSource rest
      else globUnit ch ++ globSource (next :: rest)

def globToRegExp (pattern : Units) : Option (List Term) :=
  compile (unit '^' :: (globSource pattern ++ [unit '$']))

def startsWith (path dir : Units) : Bool := dir.isPrefixOf path

/-- Does one of the user's globs match? A glob always compiles. -/
def matchesPattern (path : Units) (excludedPatterns : List Units) : Bool :=
  excludedPatterns.any fun pattern => (globToRegExp pattern).any (test · path)

def isExcludedUnits (path : Units) (excludedPatterns : List Units) (syncObsidianConfig : Bool) :
    Bool :=
  startsWith path (units STATE_DIR) || startsWith path (units OWN_PLUGIN_DIR) ||
    (WORKSPACE_FILES.map units).contains path ||
    (startsWith path (units OBSIDIAN_DIR) && !syncObsidianConfig) ||
    matchesPattern path excludedPatterns

def isExcluded (path : Path) (settings : SyncSettings) : Bool :=
  isExcludedUnits (units path) (settings.excludedPatterns.map units) settings.syncObsidianConfig

/-- A cap of zero is no cap. -/
def isTooLarge (sizeBytes : Nat) (settings : SyncSettings) : Bool :=
  settings.maxFileSizeMb ≠ 0 && settings.maxFileSizeMb * 1024 * 1024 < sizeBytes

example : isExcluded "drafts/a/b.md" ⟨["drafts/**"], false, 0, 30⟩ = true ∧
    isExcluded "drafts/a/b.md" ⟨["drafts/*"], false, 0, 30⟩ = false := by
  decide +kernel

end OpsBlobs.ExclusionPolicy
