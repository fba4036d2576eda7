import Prismal.Identity.Base58
import Prismal.Identity.Delegation
import Prismal.Providers.Batch

namespace Prismal.Identity
open Prismal.Lib Prismal.Providers
set_option autoImplicit true

/-! Identifiers of agents: `did:key` carries its key, `did:web` names a document. -/

def ed25519Multicodec : Bytes := [0xed, 0x01]

def multibaseForPubkey (publicKey : Bytes) : String :=
  "z" ++ b58encode (ed25519Multicodec ++ publicKey)

/-- `text[len(start):]` -/
def dropStart (text start : String) : String :=
  String.ofList (text.toList.drop start.toList.length)

def pubkeyFromMultibase (multibase : String) : Except DidVerificationError Bytes := do
  if !startsWith multibase "z" then
    throw (.multibase (String.ofList (multibase.toList.take 1)))
  let decoded ← b58decode (dropStart multibase "z")
  if !ed25519Multicodec.isPrefixOf decoded then
    throw .notEd25519
  return decoded.drop ed25519Multicodec.length

def issueDidKey (publicKey : Bytes) : DID := "did:key:" ++ multibaseForPubkey publicKey

structure VerificationMethod where
  publicKeyMultibase : Option String
  deriving DecidableEq, Repr

structure DidDocument where
  docId : String
  verificationMethod : List VerificationMethod
  deriving DecidableEq, Repr

def didWebUrl (did : DID) : String :=
  let parts := (dropStart did "did:web:").splitOn ":"
  let domain := parts.headD ""
  let segments := parts.tail
  if segments.isEmpty then "https://" ++ domain ++ "/.well-known/did.json"
  else "https://" ++ domain ++ "/" ++ "/".intercalate segments ++ "/did.json"

structure DidHost where
  get : String → Option DidDocument
  verify : Bytes → Bytes → Bytes → Bool

def didDocumentFromKey (did : DID) (multibase : String) : DidDocument :=
  ⟨did, [⟨some multibase⟩]⟩

def resolveDid (host : DidHost) (did : DID) : Except DidVerificationError DidDocument :=
  if startsWith did "did:key:" then do
    let multibase := dropStart did "did:key:"
    let _ ← pubkeyFromMultibase multibase
    return didDocumentFromKey did multibase
  else if startsWith did "did:web:" then
    match host.get (didWebUrl did) with
    | some document => .ok document
    | none => .error (.unresolved did)
  else .error (.unsupportedMethod did)

/-- `none` for a signature asks for the structure only. -/
def checkSignature (host : DidHost) (did : DID) (signature : Option Bytes) (publicKey : Bytes) :
    Bool :=
  match signature with
  | none => true
  | some signature => host.verify publicKey signature did.toUTF8.data.toList

def verifyMultibase (host : DidHost) (did : DID) (signature : Option Bytes) (multibase : String) :
    Bool :=
  match pubkeyFromMultibase multibase with
  | .error _ => false
  | .ok publicKey => checkSignature host did signature publicKey

/-- Whether the identifier is valid; every error counts as `false`. -/
def verifyDid (host : DidHost) (did : DID) (signature : Option Bytes) : Bool :=
  if startsWith did "did:key:" then
    verifyMultibase host did signature (dropStart did "did:key:")
  else if startsWith did "did:web:" then
    match resolveDid host did with
    | .error _ => false
    | .ok document =>
      match document.verificationMethod with
      | [] => signature.isNone && document.docId != ""
      | m :: _ =>
        match m.publicKeyMultibase with
        | none => false
        | some multibase => verifyMultibase host did signature multibase
  else false

/-! What a `did:key` is. -/

theorem dropStart_append (start text : String) : dropStart (start ++ text) start = text := by
  rw [dropStart, String.toList_append, List.drop_left, String.ofList_toList]

theorem append_dropStart (h : startsWith text start = true) :
    start ++ dropStart text start = text := by
  rw [startsWith, List.isPrefixOf_iff_prefix] at h
  obtain ⟨rest, hrest⟩ := h
  apply String.toList_injective
  rw [dropStart, String.toList_append, String.toList_ofList, ← hrest, List.drop_left]

theorem pubkeyFromMultibase_issued (key : Bytes) :
    pubkeyFromMultibase (multibaseForPubkey key) = .ok key := by
  have hpre : ed25519Multicodec.isPrefixOf (ed25519Multicodec ++ key) = true :=
    List.isPrefixOf_iff_prefix.2 (List.prefix_append _ _)
  rw [pubkeyFromMultibase, multibaseForPubkey, startsWith_append, dropStart_append,
    b58decode_b58encode]
  change (if !ed25519Multicodec.isPrefixOf (ed25519Multicodec ++ key) then _ else _) = _
  rw [hpre]
  exact congrArg Except.ok List.drop_left

theorem multibaseForPubkey_of_ok (h : pubkeyFromMultibase multibase = .ok key) :
    multibase = multibaseForPubkey key := by
  rw [pubkeyFromMultibase] at h
  cases hz : startsWith multibase "z" with
  | false =>
    rw [hz] at h
    cases h
  | true =>
    rw [hz] at h
    obtain ⟨decoded, hdecoded, h⟩ := except_bind_ok h
    cases hcodec : ed25519Multicodec.isPrefixOf decoded with
    | false =>
      rw [hcodec] at h
      cases h
    | true =>
      rw [hcodec] at h
      obtain ⟨rest, rfl⟩ := List.isPrefixOf_iff_prefix.1 hcodec
      have hkey : rest = key := List.drop_left.symm.trans (Except.ok.inj h)
      rw [multibaseForPubkey, ← hkey, b58encode_of_b58decode hdecoded, append_dropStart hz]

theorem startsWith_issueDidKey (key : Bytes) : startsWith (issueDidKey key) "did:key:" = true :=
  startsWith_append _ _

theorem dropStart_issueDidKey (key : Bytes) :
    dropStart (issueDidKey key) "did:key:" = multibaseForPubkey key :=
  dropStart_append _ _

theorem verifyDid_key_iff (host : DidHost) (did : DID) :
    (startsWith did "did:key:" = true ∧ verifyDid host did none = true) ↔
      ∃ key, did = issueDidKey key := by
  apply Iff.intro
  · intro ⟨hkey, haccepted⟩
    rw [verifyDid, if_pos hkey, verifyMultibase] at haccepted
    cases hread : pubkeyFromMultibase (dropStart did "did:key:") with
    | error e =>
      rw [hread] at haccepted
      cases haccepted
    | ok key =>
      refine ⟨key, ?_⟩
      rw [issueDidKey, ← multibaseForPubkey_of_ok hread, append_dropStart hkey]
  · intro ⟨key, hkey⟩
    rw [hkey]
    apply And.intro (startsWith_issueDidKey key)
    rw [verifyDid, if_pos (startsWith_issueDidKey key), dropStart_issueDidKey, verifyMultibase,
      pubkeyFromMultibase_issued]
    rfl

theorem verifyDid_signed (host : DidHost) (key signature : Bytes) :
    verifyDid host (issueDidKey key) (some signature) =
      host.verify key signature (issueDidKey key).toUTF8.data.toList := by
  rw [verifyDid, if_pos (startsWith_issueDidKey key), dropStart_issueDidKey, verifyMultibase,
    pubkeyFromMultibase_issued]
  rfl

theorem issueDidKey_injective (h : issueDidKey key = issueDidKey key') : key = key' := by
  have hread := pubkeyFromMultibase_issued key
  have hmultibase := congrArg (dropStart · "did:key:") h
  rw [dropStart_issueDidKey, dropStart_issueDidKey] at hmultibase
  rw [hmultibase, pubkeyFromMultibase_issued] at hread
  exact (Except.ok.inj hread).symm

/-- The accepted `did:key`s are those of 32-byte keys exactly for the identifiers that no
key of another length has. -/
theorem verifyDid_exact_iff (host : DidHost) (did : DID) :
    ((startsWith did "did:key:" = true ∧ verifyDid host did none = true) ↔
      ∃ key, key.length = 32 ∧ did = issueDidKey key) ↔
    ∀ key, did = issueDidKey key → key.length = 32 := by
  rw [verifyDid_key_iff]
  apply Iff.intro
  · intro h key hkey
    obtain ⟨key', hlength, hkey'⟩ := h.1 ⟨key, hkey⟩
    rw [issueDidKey_injective (hkey.symm.trans hkey')]
    exact hlength
  · intro h
    apply Iff.intro
    · intro ⟨key, hkey⟩
      exact ⟨key, h key hkey, hkey⟩
    · intro ⟨key, _, hkey⟩
      exact ⟨key, hkey⟩

theorem issueDidKey_nil : issueDidKey [] = "did:key:zK36" := by
  have hdigits : Nat.digits 58 (fromBytes [0xed, 0x01]) = [5, 2, 18] := by
    change Nat.digits 58 60673 = _
    norm_num
  rw [issueDidKey, multibaseForPubkey, ed25519Multicodec, List.append_nil, b58encode, hdigits]
  decide

/-- The identifier of an empty key is accepted. -/
theorem empty_key_accepted :
    ¬((startsWith "did:key:zK36" "did:key:" = true ∧
        verifyDid ⟨fun _ => none, fun _ _ _ => false⟩ "did:key:zK36" none = true) ↔
      ∃ key, key.length = 32 ∧ "did:key:zK36" = issueDidKey key) := by
  rw [verifyDid_key_iff]
  intro h
  obtain ⟨key, hlength, hkey⟩ := h.1 ⟨[], issueDidKey_nil.symm⟩
  cases issueDidKey_injective (issueDidKey_nil.trans hkey)
  cases hlength

end Prismal.Identity
