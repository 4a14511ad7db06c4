import Ledge.Git.Push
import Ledge.Workspace.Gc
import Mathlib.Data.List.TakeWhile

/-!
# Ledge.Server.Tenants

**The namespaces of tenants**: the refs that a push (`store_ref`) and a commit (`durable_ref`) can
write for a tenant, the tenant that a ref is counted for (`tenant_of_ref`), and the directory of a
tenant's LFS objects.

All of them are built from the id of the tenant, and `mint` hands out keys for every id. The
namespaces of two tenants are apart if neither id has a slash in it, and if the ids do not vanish as
path components (`tenants_apart_iff`).
-/

namespace Ledge.Server

open Ledge.Core Ledge.RefStore Ledge.Objects Ledge.Workspace Ledge.Git

/-! ### Keys -/

inductive PrincipalKind
  | user
  | service
  deriving DecidableEq

structure Scopes where
  read : Bool
  write : Bool
  admin : Bool
  deriving DecidableEq

/-- A persisted key, with the hash of its secret. -/
structure ApiKeyRecord where
  keyId : String
  secretHash : ObjectId
  tenantId : String
  kind : PrincipalKind
  scopes : Scopes
  createdAtMs : Nat
  expiresAtMs : Option Nat
  revoked : Bool
  deriving DecidableEq

/-- The index of the keys. -/
abbrev AuthStore := String → Option ApiKeyRecord

/-- The random bytes of a new key, and what becomes of its record in the log. -/
structure MintEnv where
  idBytes : List UInt8
  secretBytes : List UInt8
  append : Except LedgeError Unit

def base64Alphabet : List Char :=
  "ABCDEFGHIJKLMNOPQRSTUVWXYZabcdefghijklmnopqrstuvwxyz0123456789-_".toList

/-- The digit of the six bits of `n` above the lowest `shift`. -/
def base64Digit (n shift : Nat) : Char := base64Alphabet.getD (n / 2 ^ shift % 64) 'A'

/-- `URL_SAFE_NO_PAD.encode` -/
def base64Url : List UInt8 → List Char
  | a :: b :: c :: rest =>
    let n := a.toNat * 65536 + b.toNat * 256 + c.toNat
    [base64Digit n 18, base64Digit n 12, base64Digit n 6, base64Digit n 0] ++ base64Url rest
  | [a, b] =>
    let n := a.toNat * 65536 + b.toNat * 256
    [base64Digit n 18, base64Digit n 12, base64Digit n 6]
  | [a] =>
    let n := a.toNat * 65536
    [base64Digit n 18, base64Digit n 12]
  | [] => []

/-- The record that `mint` puts. -/
def mintRecord (P : Primitives) (idBytes secretBytes : List UInt8) (tenantId : String)
    (kind : PrincipalKind) (scopes : Scopes) (ttlMs : Option Nat) (nowMs : Nat) : ApiKeyRecord where
  keyId := String.ofList (idBytes.flatMap hexDigits)
  secretHash := P.blake3 secretBytes
  tenantId := tenantId
  kind := kind
  scopes := scopes
  createdAtMs := nowMs
  expiresAtMs := ttlMs.map (fun ttl => (nowMs + ttl % 2 ^ 64) % 2 ^ 64)
  revoked := false

/-- The token that `mint` returns. -/
def mintToken (idBytes secretBytes : List UInt8) : String :=
  "ledge_" ++ String.ofList (idBytes.flatMap hexDigits) ++ "_" ++ String.ofList
    (base64Url secretBytes)

/-- `mint` -/
def AuthStore.mint (P : Primitives) (env : MintEnv) (keys : AuthStore) (tenantId : String)
    (kind : PrincipalKind) (scopes : Scopes) (ttlMs : Option Nat) (nowMs : Nat) :
    Except LedgeError (AuthStore × String) :=
  let record := mintRecord P env.idBytes env.secretBytes tenantId kind scopes ttlMs nowMs
  match env.append with
  | .error e => .error e
  | .ok () =>
    .ok (Function.update keys record.keyId (some record), mintToken env.idBytes env.secretBytes)

/-- `mint` returns a key for the tenant. -/
def Mintable (P : Primitives) (tenantId : String) : Prop :=
  ∃ env keys kind scopes ttlMs nowMs keys' token,
    AuthStore.mint P env keys tenantId kind scopes ttlMs nowMs = .ok (keys', token)

theorem mintable (P : Primitives) (tenantId : String) : Mintable P tenantId :=
  ⟨⟨[], [], .ok ()⟩, fun _ => none, .user, ⟨true, true, false⟩, none, 0, _, _, rfl⟩

/-! ### Names -/

/-- The first half of `str::split_once('/')` -/
def beforeSlash (s : String) : Option String :=
  if '/' ∈ s.toList then some (String.ofList (s.toList.takeWhile (fun c => c ≠ '/'))) else none

/-- `tenant_of_ref` -/
def tenantOfRef (name : String) : String :=
  match stripPrefix "refs/tenants/" name with
  | none => "root"
  | some rest =>
    match beforeSlash rest with
    | none => "root"
    | some tenant => if tenant = "" then "root" else tenant

/-- The ref is one that a push or a commit can write for the tenant. -/
def Writes (tenant : String) (n : RefName) : Prop :=
  (∃ client, RefName.new (storeRef client (tenantPrefix tenant)) = .ok n) ∨
    ∃ client, durableRef tenant client = .ok n

/-- What the refs of a tenant are listed by. -/
def listing (tenant : String) : String := "refs/" ++ tenantPrefix tenant

/-- A tenant with a namespace of its own. -/
def Proper (tenant : String) : Prop := tenant ≠ "" ∧ tenant ≠ "root"

variable {tenant s a b : String}

theorem Proper.tenantPrefix (h : Proper tenant) :
    tenantPrefix tenant = "tenants/" ++ tenant ++ "/" :=
  if_neg (not_or.mpr h)

theorem Proper.tenantPrefix_ne (h : Proper tenant) : Workspace.tenantPrefix tenant ≠ "" := by
  rw [h.tenantPrefix, String.append_assoc]
  intro heq
  have hlist := congrArg String.toList heq
  rw [String.toList_append] at hlist
  cases hlist

/-- A ref name starts with `refs/`. -/
theorem exists_append_asStr (n : RefName) : ∃ rest, n.asStr = "refs/" ++ rest := by
  obtain ⟨hrefs, -⟩ := refNameFault_eq_none_iff.mp n.valid
  exact exists_append_of_strBytes hrefs

/-- A tenant can write the valid names that its refs are listed by. -/
theorem writes_iff (h : Proper tenant) {n : RefName} :
    Writes tenant n ↔ ∃ rest, n.asStr = listing tenant ++ rest := by
  constructor
  · rintro (⟨client, hnew⟩ | ⟨client, hnew⟩)
    · have hname := RefName.asStr_of_new hnew
      rw [storeRef, if_neg h.tenantPrefix_ne] at hname
      split at hname
      · rename_i rest _
        exact ⟨rest, hname⟩
      · -- a name without `refs/` is passed on, and is not valid
        rename_i hnone
        obtain ⟨rest, hrest⟩ := exists_append_asStr n
        rw [← hname, hrest, stripPrefix_append] at hnone
        cases hnone
    · rw [durableRef, if_neg h.tenantPrefix_ne] at hnew
      split at hnew
      · cases hnew
      · rename_i rest _
        exact ⟨rest, RefName.asStr_of_new hnew⟩
  · rintro ⟨rest, hrest⟩
    refine Or.inl ⟨"refs/" ++ rest, ?_⟩
    rw [storeRef, if_neg h.tenantPrefix_ne, stripPrefix_append]
    show RefName.new (listing tenant ++ rest) = _
    rw [← hrest]
    exact RefName.new_asStr n

theorem slash_notMem_tenantOfRef (name : String) : '/' ∉ (tenantOfRef name).toList := by
  have hroot : '/' ∉ "root".toList := by decide
  unfold tenantOfRef
  split
  · exact hroot
  · unfold beforeSlash
    split_ifs with hmem
    · dsimp only
      split_ifs
      · exact hroot
      · intro hslash
        rw [String.toList_ofList] at hslash
        have hne := List.mem_takeWhile_imp hslash
        exact of_decide_eq_true hne rfl
    · exact hroot

theorem takeWhile_ne_slash {cs : List Char} (h : '/' ∉ cs) (ds : List Char) :
    (cs ++ '/' :: ds).takeWhile (fun c => c ≠ '/') = cs := by
  rw [List.takeWhile_append_of_pos]
  · simp
  · intro c hc
    refine decide_eq_true fun heq => h ?_
    rw [← heq]
    exact hc

/-- A ref is counted for the tenant that can write it, if its id has no slash in it. -/
theorem tenantOfRef_listing (h : Proper tenant) (hslash : '/' ∉ tenant.toList) (rest : String) :
    tenantOfRef (listing tenant ++ rest) = tenant := by
  have hsplit : listing tenant ++ rest = "refs/tenants/" ++ (tenant ++ "/" ++ rest) := by
    rw [listing, h.tenantPrefix]
    rfl
  have hlist : (tenant ++ "/" ++ rest).toList = tenant.toList ++ '/' :: rest.toList := by
    rw [String.toList_append, String.toList_append, List.append_assoc]
    rfl
  have hbefore : beforeSlash (tenant ++ "/" ++ rest) = some tenant := by
    rw [beforeSlash, hlist, if_pos (List.mem_append_right _ List.mem_cons_self),
      takeWhile_ne_slash hslash, String.ofList_toList]
  rw [hsplit, tenantOfRef, stripPrefix_append]
  dsimp only
  rw [hbefore]
  exact if_neg h.1

/-! ### Directories -/

/-- The parts of a path between its slashes. -/
def splitSlash : List Char → List (List Char)
  | [] => [[]]
  | c :: cs => if c = '/' then [] :: splitSlash cs else (splitSlash cs).modifyHead (c :: ·)

/-- The `Normal` components of a path. -/
def normalComponents (path : String) : List String :=
  ((splitSlash path.toList).filter (fun c => c ≠ [] ∧ c ≠ ['.'] ∧ c ≠ ['.', '.'])).map String.ofList

/-- `LfsStore::for_segment`: the root of a tenant's LFS objects. -/
def forSegment (dataDir : List String) (segment : String) : List String :=
  dataDir ++ "lfs" :: normalComponents segment

/-- `object_path` -/
def objectPath (root : List String) (oid : String) : List String :=
  root ++ [String.ofList (oid.toList.take 2), String.ofList ((oid.toList.drop 2).take 2), oid]

/-- `valid_oid` -/
def validOid (oid : String) : Bool :=
  oid.toList.length = 64 &&
    oid.toList.all (fun c => ('0' ≤ c && c ≤ '9') || ('a' ≤ c && c ≤ 'f'))

theorem splitSlash_ne_nil (cs : List Char) : splitSlash cs ≠ [] := by
  induction cs with
  | nil => exact List.cons_ne_nil _ _
  | cons c cs ih =>
    rw [splitSlash]
    split_ifs
    · exact List.cons_ne_nil _ _
    · obtain ⟨part, parts, hparts⟩ := List.exists_cons_of_ne_nil ih
      rw [hparts]
      exact List.cons_ne_nil _ _

theorem splitSlash_append (cs ds : List Char) :
    splitSlash (cs ++ '/' :: ds) = splitSlash cs ++ splitSlash ds := by
  induction cs with
  | nil => rfl
  | cons c cs ih =>
    rw [List.cons_append, splitSlash, splitSlash, ih]
    split_ifs
    · rfl
    · obtain ⟨part, parts, hparts⟩ := List.exists_cons_of_ne_nil (splitSlash_ne_nil cs)
      rw [hparts]
      rfl

theorem normalComponents_tenantPrefix (h : Proper tenant) :
    normalComponents (tenantPrefix tenant) = "tenants" :: normalComponents tenant := by
  have hlist : (tenantPrefix tenant).toList =
      "tenants".toList ++ '/' :: (tenant.toList ++ ['/']) := by
    rw [h.tenantPrefix, String.toList_append, String.toList_append]
    rfl
  rw [normalComponents, normalComponents, hlist, splitSlash_append, splitSlash_append]
  simp [splitSlash]

/-! ### Apart -/

/-- **The namespaces of two tenants do not meet**: neither the refs that they can write nor what
these are listed by, nor the paths of their LFS objects; and each ref is counted for the tenant that
can write it. -/
structure Apart (dataDir : List String) (a b : String) : Prop where
  names : ∀ n m, Writes a n → Writes b m → n ≠ m
  listed : ∀ n, Writes a n → ¬ strBytes (listing b) <+: n.bytes
  listed_other : ∀ n, Writes b n → ¬ strBytes (listing a) <+: n.bytes
  owner : ∀ n, Writes a n → tenantOfRef n.asStr = a
  owner_other : ∀ n, Writes b n → tenantOfRef n.asStr = b
  lfs : ∀ oid, validOid oid = true →
    objectPath (forSegment dataDir (tenantPrefix a)) oid ≠
      objectPath (forSegment dataDir (tenantPrefix b)) oid

/-- The id has no slash in it, or no valid name can have it in front. -/
def Confined (tenant : String) : Prop :=
  '/' ∉ tenant.toList ∨ refNameFault (listing tenant) ≠ none

instance (tenant : String) : Decidable (Confined tenant) := inferInstanceAs (Decidable (_ ∨ _))

theorem refs_prefix_listing (tenant : String) : strBytes "refs/" <+: strBytes (listing tenant) := by
  exact List.prefix_append _ _

theorem owner_iff (h : Proper tenant) :
    (∀ n, Writes tenant n → tenantOfRef n.asStr = tenant) ↔ Confined tenant := by
  constructor
  · intro howner
    by_contra hnot
    obtain ⟨hslash, hvalid⟩ := not_or.mp hnot
    -- the name that the refs are listed by is valid itself
    have hwrites : Writes tenant ⟨listing tenant, not_not.mp hvalid⟩ :=
      (writes_iff h).mpr ⟨"", String.append_empty.symm⟩
    have hmem := slash_notMem_tenantOfRef (listing tenant)
    rw [howner _ hwrites] at hmem
    exact hslash hmem
  · intro hconfined n hwrites
    obtain ⟨rest, hrest⟩ := (writes_iff h).mp hwrites
    rcases hconfined with hslash | hfault
    · rw [hrest]
      exact tenantOfRef_listing h hslash rest
    · have hlisted : strBytes (listing tenant) <+: strBytes n.asStr := by
        rw [hrest]
        exact List.prefix_append _ _
      exact absurd ( refNameFault_of_prefix (refs_prefix_listing tenant) hlisted n.valid) hfault

/-- Refs that are counted for the tenant that can write them are not listed by another. -/
theorem not_listed (hb : Proper b) (hab : a ≠ b)
    (howner : ∀ n, Writes a n → tenantOfRef n.asStr = a)
    (howner' : ∀ n, Writes b n → tenantOfRef n.asStr = b) {n : RefName} (h : Writes a n) :
    ¬ strBytes (listing b) <+: n.bytes := by
  intro hlisted
  have hwrites : Writes b n := (writes_iff hb).mpr (exists_append_of_strBytes hlisted)
  exact hab ((howner n h).symm.trans (howner' n hwrites))

theorem objectPath_eq_iff {dataDir : List String} (ha : Proper a) (hb : Proper b) (oid : String) :
    objectPath (forSegment dataDir (tenantPrefix a)) oid =
        objectPath (forSegment dataDir (tenantPrefix b)) oid ↔
      normalComponents a = normalComponents b := by
  rw [objectPath, objectPath, List.append_cancel_right_eq, forSegment, forSegment,
    normalComponents_tenantPrefix ha, normalComponents_tenantPrefix hb]
  simp

def zeroOid : String := String.ofList (List.replicate 64 '0')

/-- **The namespaces of two tenants are apart** if and only if each id has no slash in it, or no
valid name can have it in front, and the ids differ in their path components. -/
theorem tenants_apart_iff {a b : String} (ha : Proper a) (hb : Proper b) (hab : a ≠ b)
    (dataDir : List String) :
    Apart dataDir a b ↔
      Confined a ∧ Confined b ∧ normalComponents a ≠ normalComponents b := by
  constructor
  · intro h
    refine ⟨(owner_iff ha).mp h.owner, (owner_iff hb).mp h.owner_other, fun heq => ?_⟩
    exact h.lfs zeroOid (by decide +kernel) ((objectPath_eq_iff ha hb zeroOid).mpr heq)
  · rintro ⟨hconfined, hconfined', hcomponents⟩
    have howner := (owner_iff ha).mpr hconfined
    have howner' := (owner_iff hb).mpr hconfined'
    refine ⟨fun n m hn hm heq => ?_, fun n hn => not_listed hb hab howner howner' hn,
      fun n hn => not_listed ha hab.symm howner' howner hn, howner, howner', fun oid _ heq => ?_⟩
    · rw [← heq] at hm
      exact hab ((howner n hn).symm.trans (howner' n hm))
    · exact hcomponents ((objectPath_eq_iff ha hb oid).mp heq)

instance (tenant : String) : Decidable (Proper tenant) := inferInstanceAs (Decidable (_ ∧ _))

/-- The tenant `acme`, and one whose id goes on with a slash. -/
def acmeHeads : RefName := ⟨"refs/tenants/acme/heads/main", by decide⟩

/-- **A slash in an id**: both tenants can write the same ref. And the ids `.` and `..` are both
left out of the path of an LFS object. -/
theorem ids_collide :
    Mintable samplePrimitives "acme" ∧ Mintable samplePrimitives "acme/heads" ∧
    Writes "acme" acmeHeads ∧ Writes "acme/heads" acmeHeads ∧
    tenantOfRef acmeHeads.asStr ≠ "acme/heads" ∧
    objectPath (forSegment [] (tenantPrefix ".")) zeroOid =
      objectPath (forSegment [] (tenantPrefix "..")) zeroOid := by
  refine ⟨mintable _ _, mintable _ _, ?_, ?_, by decide +kernel, by decide +kernel⟩
  · exact (writes_iff (by decide)).mpr ⟨"heads/main", by decide⟩
  · exact (writes_iff (by decide)).mpr ⟨"main", by decide⟩

/-- Two ids without a slash. -/
theorem acme_globex_apart : Apart [] "acme" "globex" :=
  (tenants_apart_iff (by decide) (by decide) (by decide) []).mpr
    ⟨by decide, by decide, by decide +kernel⟩

end Ledge.Server
