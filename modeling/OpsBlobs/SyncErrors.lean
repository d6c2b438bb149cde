import OpsBlobs.Types

/-- The failures of a round. `missingBlob` is the answer to an append that names a blob the server
does not have. -/
inductive OpsBlobs.SyncError : Type
  | staleCursor
  | batchTooLarge
  | keyMismatch
  | auth (status : Nat)
  | notFound
  | server (status : Nat) (operation : String)
  | network (operation : String)
  | timeout (operation : String) (timeoutMs : Nat)
  | decrypt
  | missingBlob (hash : String)
  | cancelled
  | other (message : String)
  deriving DecidableEq, Repr

namespace OpsBlobs.SyncError

def message : SyncError → String
  | staleCursor => "Server rejected append: cursor too stale, re-pull first"
  | batchTooLarge => "Server rejected blob batch: response too large, split and retry"
  | keyMismatch =>
      "This device's sync passphrase doesn't match the vault already on the server. " ++
        "Check the passphrase in OpsBlobs settings — it must be identical on every device."
  | auth status =>
      "The sync server rejected this device's access token (HTTP " ++ toString status ++ "). " ++
        "Check the access token in OpsBlobs settings — it may be wrong, expired, or not " ++
        "authorized for this vault."
  | notFound =>
      "The sync server couldn't find this vault (HTTP 404). " ++
        "Check the server URL and vault ID in OpsBlobs settings."
  | server status operation =>
      "The sync server had a problem while " ++ operation ++ " (HTTP " ++ toString status ++
        "). " ++ "It may be temporarily unavailable — the next sync will retry."
  | network operation =>
      "Couldn't reach the sync server while " ++ operation ++ ". " ++
        "Check the server URL and your network connection."
  | timeout operation timeoutMs =>
      "The sync server didn't respond within " ++ toString ((timeoutMs + 500) / 1000) ++
        "s while " ++ operation ++ ". " ++
        "It may be slow or unreachable — the next sync will retry."
  | decrypt =>
      "Couldn't decrypt data from the server — this device's passphrase likely doesn't match " ++
        "the vault. " ++ "Check the passphrase in OpsBlobs settings."
  | missingBlob hash => "Blob " ++ hash ++ " not present; upload blobs before ops"
  | cancelled => "Sync cancelled"
  | other message => message

/-- A failure of the link rather than an answer of the server. -/
def isTransientLinkError : SyncError → Bool
  | network _ | timeout _ _ => true
  | _ => false

/-- One the user has to fix in the settings. -/
def isSetupError : SyncError → Bool
  | auth _ | notFound | keyMismatch | decrypt => true
  | _ => false

/-- What is retried within a round is not shown as a fault of the settings. -/
theorem not_setup_of_transient {e : SyncError} (h : e.isTransientLinkError = true) :
    e.isSetupError = false := by
  cases e <;> simp_all [isTransientLinkError, isSetupError]

end OpsBlobs.SyncError
