import OpsBlobs.Base64
import OpsBlobs.Types

namespace OpsBlobs.Encryption

open Types Base64

/-- The platform's cryptography, and its text and JSON codecs. `decrypt` fails where the tag of the
ciphertext does not fit; `tagOf` is what `JSON.parse` finds under `tag`. -/
structure WebCrypto where
  pbkdf2 : Bytes → Bytes → Nat → Bytes
  hkdf : Bytes → Bytes → Nat → Bytes
  encrypt : Bytes → Bytes → Bytes → Bytes
  decrypt : Bytes → Bytes → Bytes → Option Bytes
  hmac : Bytes → Bytes → Bytes
  sha256 : Bytes → Bytes
  encodeText : String → Bytes
  decodeText : Bytes → String
  stringifyOp : Operation → String
  parseOp : String → Option Operation
  tagOf : String → Option String

def hexDigit (n : Nat) : Char := "0123456789abcdef".toList.getD n '0'

def bytesToHex (bytes : Bytes) : String :=
  String.ofList (bytes.flatMap fun b => [hexDigit (b.toNat / 16), hexDigit (b.toNat % 16)])

def bytesToBase64 (bytes : Bytes) : String := String.ofList (btoa bytes)

def base64ToBytes (b64 : String) : Option Bytes := atob b64.toList

def PBKDF2_ITERATIONS : Nat := 210000

def HKDF_INFO_ENC : String := "obsidian-vault-sync:enc:v1"

def HKDF_INFO_BLIND : String := "obsidian-vault-sync:blind:v1"

def HKDF_INFO_VERIFY : String := "obsidian-vault-sync:verify:v1"

def GCM_NONCE_BYTES : Nat := 12

/-- What a device derives from the passphrase. -/
structure VaultCrypto where
  encKey : Bytes
  blindKey : Bytes
  verifyTag : String
  deriving DecidableEq, Repr

variable (W : WebCrypto)

section Keys

def saltForVault (vaultId : String) : Bytes := W.sha256 (W.encodeText ("vault-sync:salt:" ++ vaultId))

def VaultCrypto.deriveFromPassphrase (passphrase : String) (salt : Bytes) : VaultCrypto :=
  let masterBits := W.pbkdf2 (W.encodeText passphrase) salt PBKDF2_ITERATIONS
  { encKey := W.hkdf masterBits (W.encodeText HKDF_INFO_ENC) 256
    blindKey := W.hkdf masterBits (W.encodeText HKDF_INFO_BLIND) 512
    verifyTag := bytesToBase64 (W.hkdf masterBits (W.encodeText HKDF_INFO_VERIFY) 128) }

def sha256Hex (content : Bytes) : String := bytesToHex (W.sha256 content)

/-- A fixed slot, so that a device with another passphrase looks at the same record. -/
def keyCheckBlobKey : String := sha256Hex W (W.encodeText "vault-sync:keycheck:v1")

end Keys

section Envelopes

variable (C : VaultCrypto)

def VaultCrypto.seal (nonce plaintext : Bytes) : Bytes :=
  nonce ++ W.encrypt C.encKey nonce plaintext

def VaultCrypto.open (envelope : Bytes) : Option Bytes :=
  W.decrypt C.encKey (envelope.take GCM_NONCE_BYTES) (envelope.drop GCM_NONCE_BYTES)

def VaultCrypto.encryptOp (nonce : Bytes) (op : Operation) : String :=
  bytesToBase64 (C.seal W nonce (W.encodeText (W.stringifyOp op)))

/-- `none` stands for whatever the call throws. -/
def VaultCrypto.decryptOp (ciphertextBase64 : String) : Option Operation :=
  (base64ToBytes ciphertextBase64).bind fun envelope =>
    (C.open W envelope).bind fun plaintext => W.parseOp (W.decodeText plaintext)

def VaultCrypto.encryptBlob (nonce content : Bytes) : Bytes := C.seal W nonce content

def VaultCrypto.decryptBlob (envelope : Bytes) : Option Bytes := C.open W envelope

def VaultCrypto.blindHash (rawHashHex : String) : String :=
  bytesToHex (W.hmac C.blindKey (W.encodeText rawHashHex))

def keyCheckJson (tag : String) : String := "\x7b\"v\":1,\"tag\":\"" ++ tag ++ "\"\x7d"

def VaultCrypto.buildKeyCheck (nonce : Bytes) : Bytes :=
  C.seal W nonce (W.encodeText (keyCheckJson C.verifyTag))

def VaultCrypto.verifyKeyCheck (envelope : Bytes) : Bool :=
  match C.open W envelope with
  | none => false
  | some plaintext => W.tagOf (W.decodeText plaintext) = some C.verifyTag

end Envelopes

/-- AES-GCM opens exactly what was sealed with the same key and nonce; the codecs invert. -/
structure Lawful : Prop where
  decrypt_iff : ∀ key nonce ciphertext plaintext,
    W.decrypt key nonce ciphertext = some plaintext ↔ ciphertext = W.encrypt key nonce plaintext
  decodeText : ∀ text, W.decodeText (W.encodeText text) = text
  parseOp : ∀ op, W.parseOp (W.stringifyOp op) = some op
  tagOf : ∀ tag, W.tagOf (keyCheckJson tag) = some tag

section RoundTrip

variable {W} {C : VaultCrypto} {nonce plaintext envelope : Bytes} {op : Operation}

theorem base64ToBytes_bytesToBase64 (bytes : Bytes) :
    base64ToBytes (bytesToBase64 bytes) = some bytes := by
  rw [base64ToBytes, bytesToBase64, String.toList_ofList, atob_btoa]

/-- What opens is a nonce with what the key seals under it, and nothing else is. -/
theorem open_iff (hW : Lawful W) :
    C.open W envelope = some plaintext ↔
      envelope = C.seal W (envelope.take GCM_NONCE_BYTES) plaintext := by
  rw [VaultCrypto.open, hW.decrypt_iff, VaultCrypto.seal]
  constructor
  · intro h
    rw [← h, List.take_append_drop]
  · intro h
    exact List.append_cancel_left ((List.take_append_drop _ _).trans h)

theorem open_seal (hW : Lawful W) (hnonce : nonce.length = GCM_NONCE_BYTES) :
    C.open W (C.seal W nonce plaintext) = some plaintext := by
  have htake : (C.seal W nonce plaintext).take GCM_NONCE_BYTES = nonce := by
    rw [VaultCrypto.seal, List.take_left' hnonce]
  rw [open_iff hW, htake]

theorem decryptOp_encryptOp (hW : Lawful W) (hnonce : nonce.length = GCM_NONCE_BYTES) :
    C.decryptOp W (C.encryptOp W nonce op) = some op := by
  rw [VaultCrypto.decryptOp, VaultCrypto.encryptOp, base64ToBytes_bytesToBase64, Option.bind_some,
    open_seal hW hnonce, Option.bind_some, hW.decodeText, hW.parseOp]

theorem verifyKeyCheck_buildKeyCheck (hW : Lawful W) (hnonce : nonce.length = GCM_NONCE_BYTES) :
    C.verifyKeyCheck W (C.buildKeyCheck W nonce) = true := by
  simp [VaultCrypto.verifyKeyCheck, VaultCrypto.buildKeyCheck, open_seal hW hnonce, hW.decodeText,
    hW.tagOf]

end RoundTrip

section Example

/-- The fields of a record one after the other, each character behind a mark. -/
def writeFields (fields : List (List Char)) : List Char :=
  fields.flatMap fun field => field.flatMap (fun c => ['=', c]) ++ ['.']

def readFields : List Char → List Char → List (List Char)
  | '.' :: rest, field => field :: readFields rest []
  | _ :: c :: rest, field => readFields rest (field ++ [c])
  | _, _ => []

theorem readFields_field (field rest before : List Char) :
    readFields (field.flatMap (fun c => ['=', c]) ++ '.' :: rest) before =
      (before ++ field) :: readFields rest [] := by
  induction field generalizing before with
  | nil => rw [List.append_nil]; rfl
  | cons c field ih =>
      have hstep := ih (before ++ [c])
      rw [List.append_assoc] at hstep
      exact hstep

theorem readFields_writeFields (fields : List (List Char)) :
    readFields (writeFields fields) [] = fields := by
  induction fields with
  | nil => rfl
  | cons field rest ih =>
      rw [writeFields, List.flatMap_cons, List.append_assoc, List.singleton_append,
        readFields_field, List.nil_append]
      exact congrArg (field :: ·) ih

def writeType : OperationType → List Char
  | .create => ['c']
  | .update => ['u']
  | .delete => ['d']
  | .move => ['m']

def readType : List Char → OperationType
  | ['c'] => .create
  | ['u'] => .update
  | ['d'] => .delete
  | _ => .move

def writeNat (n : Nat) : List Char := List.replicate n '1'

def writeOp (op : Operation) : List (List Char) :=
  [writeNat op.v, op.id.toList, writeNat op.hlcTimestamp.wallTime,
    writeNat op.hlcTimestamp.counter, op.hlcTimestamp.deviceId.toList, op.fileId.toList,
    writeType op.type, op.path.toList, op.contentHash.toList] ++ op.parents.map String.toList

def readOp : List (List Char) → Option Operation
  | v :: id :: wallTime :: counter :: deviceId :: fileId :: type :: path :: contentHash ::
      parents =>
      some ⟨v.length, String.ofList id,
        ⟨wallTime.length, counter.length, String.ofList deviceId⟩, String.ofList fileId,
        readType type, String.ofList path, String.ofList contentHash, parents.map String.ofList⟩
  | _ => none

theorem readOp_writeOp (op : Operation) : readOp (writeOp op) = some op := by
  have htype : readType (writeType op.type) = op.type := by
    cases op.type <;> rfl
  simp [writeOp, readOp, writeNat, htype, Function.comp_def]

/-- A platform to run examples on, which hides nothing. -/
def plainCrypto : WebCrypto where
  pbkdf2 password salt _ := password ++ salt
  hkdf key info _ := info ++ key
  encrypt key nonce plaintext := key ++ nonce ++ plaintext
  decrypt key nonce ciphertext :=
    if key ++ nonce <+: ciphertext then some (ciphertext.drop (key ++ nonce).length) else none
  hmac key message := key ++ message
  sha256 bytes := bytes
  encodeText text := text.toByteArray.data.toList
  decodeText bytes := (String.fromUTF8? ⟨bytes.toArray⟩).getD ""
  stringifyOp op := String.ofList (writeFields (writeOp op))
  parseOp text := readOp (readFields text.toList [])
  tagOf text := some (String.ofList ((text.toList.drop 14).dropLast.dropLast))

def plainVault : VaultCrypto := .deriveFromPassphrase plainCrypto "secret" [0]

theorem fromUTF8?_toByteArray (text : String) : String.fromUTF8? text.toByteArray = some text :=
  dif_pos text.isValidUTF8

theorem lawful_plainCrypto : Lawful plainCrypto where
  decrypt_iff := by
    intro key nonce ciphertext plaintext
    simp only [plainCrypto]
    constructor
    · intro h
      split at h
      · rename_i hprefix
        obtain ⟨rest, rfl⟩ := hprefix
        rw [List.drop_left, Option.some.injEq] at h
        rw [h]
      · cases h
    · rintro rfl
      rw [if_pos (List.prefix_append _ _), List.drop_left]
  decodeText := by
    intro text
    simp only [plainCrypto]
    exact congrArg (·.getD "") (fromUTF8?_toByteArray text)
  parseOp := by
    intro op
    simp only [plainCrypto]
    rw [String.toList_ofList, readFields_writeFields, readOp_writeOp]
  tagOf := by
    intro tag
    simp [plainCrypto, keyCheckJson]

theorem hexDigit_inj : ∀ m < 16, ∀ n < 16, hexDigit m = hexDigit n → m = n := by decide

theorem bytesToHex_inj {bytes bytes' : Bytes} (h : bytesToHex bytes = bytesToHex bytes') :
    bytes = bytes' := by
  replace h := String.ofList_inj.1 h
  induction bytes generalizing bytes' with
  | nil =>
      cases bytes' with
      | nil => rfl
      | cons b' rest' => cases h
  | cons b rest ih =>
      cases bytes' with
      | nil => cases h
      | cons b' rest' =>
          simp only [List.flatMap_cons, List.cons_append, List.nil_append, List.cons.injEq] at h
          obtain ⟨hhigh, hlow, hrest⟩ := h
          have hb := b.toNat_lt
          have hb' := b'.toNat_lt
          replace hhigh := hexDigit_inj _ (by omega) _ (by omega) hhigh
          replace hlow := hexDigit_inj _ (by omega) _ (by omega) hlow
          rw [ih hrest, UInt8.toNat_inj.1 (show b.toNat = b'.toNat by omega)]

theorem blindHash_plainCrypto_inj : Function.Injective (plainVault.blindHash plainCrypto) := by
  intro hash hash' h
  have hbytes := List.append_cancel_left (bytesToHex_inj h)
  exact String.toByteArray_inj.1 (ByteArray.ext (Array.toList_inj.1 hbytes))

end Example

end OpsBlobs.Encryption
