import Ledge.Server.Tenants

/-!
# Ledge.Server.AuthStore

The store of API keys (`auth/store.rs`) on its log file, under **concurrent callers**, failing
writes and crashes.

* `verify` reads the index, at any time.
* `put`, `mint`, `revoke` and `compact` take the lock of the file, write, and change the index
  before they give it back.
* A crash loses the calls that are inside, and what they were writing may be in the file in part.
  The store is then opened again, and the index rebuilt from the file.

The store without a file, which is used where authentication is off, is left out, and so is
`put_token`, which is a `put` of an operator's key.
-/

namespace Ledge.Server

open Ledge.Core Ledge.Objects Ledge.Workspace Ledge.Wal

/-! ### Tokens -/

/-- A verified request identity. -/
structure Principal where
  tenantId : String
  principalId : String
  kind : PrincipalKind
  scopes : Scopes
  deriving DecidableEq

namespace ApiKeyRecord

def principal (r : ApiKeyRecord) : Principal := ⟨r.tenantId, r.keyId, r.kind, r.scopes⟩

/-- `is_live`: not revoked and not past expiry. -/
def isLive (r : ApiKeyRecord) (nowMs : Nat) : Bool :=
  !r.revoked && (r.expiresAtMs.map (fun e => decide (e > nowMs))).getD true

end ApiKeyRecord

/-- `str::split_once` -/
def splitOnce (c : Char) (s : String) : Option (String × String) :=
  match s.toList.dropWhile (fun x => x ≠ c) with
  | [] => none
  | _ :: rest => some (String.ofList (s.toList.takeWhile (fun x => x ≠ c)), String.ofList rest)

/-- `parse_token`: the id of the key and the encoded secret. -/
def parseToken (token : String) : Option (String × String) :=
  match stripPrefix "ledge_" token with
  | none => none
  | some rest =>
    match splitOnce '_' rest with
    | none => none
    | some (keyId, secret) => if keyId = "" ∨ secret = "" then none else some (keyId, secret)

/-- The six bits of a digit. -/
def base64Value (c : Char) : Option Nat := base64Alphabet.idxOf? c

/-- `URL_SAFE_NO_PAD.decode`: no padding, and the bits that are left over at the end are zero. -/
def base64UrlDecode : List Char → Option (List UInt8)
  | a :: b :: c :: d :: rest =>
    (base64Value a).bind fun a => (base64Value b).bind fun b => (base64Value c).bind fun c =>
      (base64Value d).bind fun d => (base64UrlDecode rest).map fun bytes =>
        UInt8.ofNat (a * 4 + b / 16) :: UInt8.ofNat (b % 16 * 16 + c / 4) ::
          UInt8.ofNat (c % 4 * 64 + d) :: bytes
  | [a, b, c] =>
    (base64Value a).bind fun a => (base64Value b).bind fun b => (base64Value c).bind fun c =>
      if c % 4 = 0 then some [UInt8.ofNat (a * 4 + b / 16), UInt8.ofNat (b % 16 * 16 + c / 4)] else
        none
  | [a, b] =>
    (base64Value a).bind fun a => (base64Value b).bind fun b =>
      if b % 16 = 0 then some [UInt8.ofNat (a * 4 + b / 16)] else none
  | [_] => none
  | [] => some []

/-- `verify` -/
def AuthStore.verify (P : Primitives) (keys : AuthStore) (token : String) (nowMs : Nat) :
    Option Principal :=
  match parseToken token with
  | none => none
  | some (keyId, secret) =>
    match base64UrlDecode secret.toList with
    | none => none
    | some secretBytes =>
      match keys keyId with
      | none => none
      | some r =>
        if !r.isLive nowMs then none
        else if P.blake3 secretBytes = r.secretHash then some r.principal
        else none

/-! ### The log -/

/-- `map_wal` -/
def mapAuthWal : WalError → LedgeError
  | .io => .io
  | .encode s => .corruption ("auth WAL: " ++ s)
  | .corruption s =>
    .corruption ("auth WAL: " ++ s ++ ". Refusing to truncate — restore from a backup.")

/-- A frame of the log of keys. -/
inductive AuthWalEntry
  | put (r : ApiKeyRecord)
  | revoke (keyId : String) (hlc : Nat)
  | checkpoint (keys : List ApiKeyRecord)
  deriving DecidableEq

namespace AuthStore

def empty : AuthStore := fun _ => none

/-- `index.insert(r.key_id, r)` -/
def insert (keys : AuthStore) (r : ApiKeyRecord) : AuthStore :=
  Function.update keys r.keyId (some r)

/-- `revoked = true` for a key that is there -/
def setRevoked (keys : AuthStore) (keyId : String) : AuthStore :=
  Function.update keys keyId ((keys keyId).map (fun r => { r with revoked := true }))

/-- `index.retain(|_, r| !r.revoked)` -/
def retainLive (keys : AuthStore) : AuthStore :=
  fun keyId => (keys keyId).filter (fun r => !r.revoked)

/-- One entry of `rebuild_index` -/
def replay (keys : AuthStore) : AuthWalEntry → AuthStore
  | .put r => keys.insert r
  | .revoke keyId _ => keys.setRevoked keyId
  | .checkpoint checkpoint => checkpoint.foldl insert empty

/-- `rebuild_index` -/
def rebuildIndex (all : List AuthWalEntry) : AuthStore := all.foldl replay empty

/-- `index.values()`, in some order -/
def Lists (keys : AuthStore) (order : List ApiKeyRecord) : Prop :=
  ∀ r, r ∈ order ↔ ∃ keyId, keys keyId = some r

end AuthStore

/-- `open`; the directory is the file. -/
def openAuth (C : Codec AuthWalEntry) (disk : Bytes) : Except LedgeError (LogFile × AuthStore) :=
  match C.openReplay disk with
  | .error e => .error (mapAuthWal e)
  | .ok (file, all) => .ok (file, AuthStore.rebuildIndex all)

/-! ### Calls -/

/-- The calls that write. -/
inductive AuthCall
  | put (r : ApiKeyRecord)
  /-- The random bytes are part of the call. -/
  | mint (idBytes secretBytes : List UInt8) (tenantId : String) (kind : PrincipalKind)
      (scopes : Scopes) (ttlMs : Option Nat) (nowMs : Nat)
  /-- `hlc` is the stamp that it draws. -/
  | revoke (keyId : String) (hlc : Nat)
  | compact

inductive AuthReply
  | done
  | minted (token : String)
  /-- Whether there was a key. -/
  | revoked (present : Bool)
  deriving DecidableEq

namespace AuthCall

variable (P : Primitives)

/-- The frame that is appended. -/
def record : AuthCall → Option AuthWalEntry
  | .put r => some (.put r)
  | .mint idBytes secretBytes tenantId kind scopes ttlMs nowMs =>
    some (.put (mintRecord P idBytes secretBytes tenantId kind scopes ttlMs nowMs))
  | .revoke keyId hlc => some (.revoke keyId hlc)
  | .compact => none

/-- What the call does to the index after its append. -/
def apply (keys : AuthStore) : AuthCall → AuthStore
  | .put r => keys.insert r
  | .mint idBytes secretBytes tenantId kind scopes ttlMs nowMs =>
    keys.insert (mintRecord P idBytes secretBytes tenantId kind scopes ttlMs nowMs)
  | .revoke keyId _ => keys.setRevoked keyId
  | .compact => keys

/-- What it returns then. -/
def reply (keys : AuthStore) : AuthCall → AuthReply
  | .put _ | .compact => .done
  | .mint idBytes secretBytes .. => .minted (mintToken idBytes secretBytes)
  | .revoke keyId _ => .revoked (keys keyId).isSome

end AuthCall

/-- Where a call is. -/
inductive AuthPc
  | waiting
  /-- It has the lock of the file. -/
  | locked
  /-- Its frame is in the file, and the index is still to be changed. -/
  | appended
  /-- A compaction has copied the keys that are not revoked. -/
  | listed (keys : List ApiKeyRecord)
  | returned (result : Except LedgeError AuthReply)
  /-- The process has ended. -/
  | lost

/-- It has the lock. -/
def AuthPc.inside : AuthPc → Bool
  | .waiting | .returned _ | .lost => false
  | .locked | .appended | .listed _ => true

/-- The file, the index, the lock and the calls. A store that does not open is down. -/
structure AuthState (I : Type) where
  file : LogFile
  index : AuthStore
  holder : Option I
  pc : I → AuthPc
  up : Bool

inductive AuthEvent (I : Type)
  /-- The next step of a call, with the failures that it meets. `order` is the order of the
  index. -/
  | step (i : I) (fault : Option Nat) (replaceFault : Option ReplaceFault)
    (order : List ApiKeyRecord)
  /-- The process ends, and the store is opened again. Of a frame that is being appended `cut` bytes
  are in the file, and a replacement may have got to its rename. -/
  | restart (cut : Nat) (renamed : Bool)

namespace AuthState

variable {I : Type} [DecidableEq I] (P : Primitives) (C : Codec AuthWalEntry) (calls : I → AuthCall)

/-- A store in a new directory. -/
def fresh : AuthState I := ⟨⟨[], none⟩, .empty, none, fun _ => .waiting, true⟩

def setPc (s : AuthState I) (i : I) (pc : AuthPc) : AuthState I :=
  { s with pc := Function.update s.pc i pc }

/-- The call `i` returns and gives the lock back. -/
def finish (s : AuthState I) (i : I) (result : Except LedgeError AuthReply) : AuthState I :=
  { s with holder := none, pc := Function.update s.pc i (.returned result) }

/-- The next step of the call `i`. -/
def step (s : AuthState I) (i : I) (fault : Option Nat) (replaceFault : Option ReplaceFault)
    (order : List ApiKeyRecord) : AuthState I :=
  match s.pc i with
  | .waiting =>
    match s.holder with
    | some _ => s
    | none => { s with holder := some i, pc := Function.update s.pc i .locked }
  | .locked =>
    match (calls i).record P with
    | none => s.setPc i (.listed (order.filter (fun r => !r.revoked)))
    | some r =>
      match C.appendRecord s.file fault r with
      | (file, .ok ()) => { s with file := file, pc := Function.update s.pc i .appended }
      | (file, .error e) => finish { s with file := file } i (.error (mapAuthWal e))
  | .appended =>
    finish { s with index := (calls i).apply P s.index } i (.ok ((calls i).reply s.index))
  | .listed keys =>
    match C.writeCheckpoint s.file replaceFault (.checkpoint keys) with
    | (file, .ok ()) =>
      finish { s with file := file, index := s.index.retainLive } i (.ok .done)
    | (file, .error e) => finish { s with file := file } i (.error (mapAuthWal e))
  | .returned _ | .lost => s

/-- The file as a crash leaves it. -/
def crashFile (s : AuthState I) (cut : Nat) (renamed : Bool) : LogFile :=
  match s.holder with
  | none => s.file
  | some i =>
    match s.pc i with
    | .locked =>
      match (calls i).record P with
      | none => s.file
      | some r => (C.appendRecord s.file (some cut) r).1
    | .listed keys =>
      if renamed then (C.writeCheckpoint s.file (some .reopen) (.checkpoint keys)).1 else s.file
    | .waiting | .appended | .returned _ | .lost => s.file

/-- A crash and what follows. -/
def restart (s : AuthState I) (cut : Nat) (renamed : Bool) : AuthState I :=
  let file := s.crashFile P C calls cut renamed
  let pc := fun i => if (s.pc i).inside then AuthPc.lost else s.pc i
  match openAuth C file.disk with
  | .ok (file, index) => ⟨file, index, none, pc, true⟩
  | .error _ => ⟨⟨file.disk, none⟩, .empty, none, pc, false⟩

/-- One access of a call of `AuthStore`, or a crash and the `open` after it. -/
def next (s : AuthState I) : AuthEvent I → AuthState I
  | .step i fault replaceFault order =>
    if s.up then s.step P C calls i fault replaceFault order else s
  | .restart cut renamed => s.restart P C calls cut renamed

/-- Accesses and crashes in the order in which they happen. -/
def run (s : AuthState I) (events : List (AuthEvent I)) : AuthState I :=
  events.foldl (next P C calls) s

/-- What `verify` returns in a state. -/
def verify (s : AuthState I) (token : String) (nowMs : Nat) : Option Principal :=
  if s.up then s.index.verify P token nowMs else none

end AuthState

end Ledge.Server
