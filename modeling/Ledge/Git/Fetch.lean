import Ledge.Git.Closures
import Ledge.Lib.Lru

/-!
# Ledge.Git.Fetch

`handle_upload_pack` (`fetch.rs`) after its body has been decoded: the wants are authorized, and the
objects that the client lacks are collected by walks over the SHA-1 names in the bodies of objects.

A walk passes over what it cannot look up or read. In a store where every object can be read, **a
fetch sends exactly what is missing** (`fetch_sends_missing`): what the wants lead to and the common
haves do not.
-/

namespace Ledge.Git

open Ledge.Core Ledge.RefStore Ledge.Objects Ledge.Lib List Option

/-! ### A request -/

/-- `BlobFilter` -/
inductive BlobFilter
  | all
  | noBlobs
  | blobLimit (n : Nat)
  deriving DecidableEq

/-- A blob that a walk comes to is packed. -/
def BlobFilter.admits (content : List UInt8) : BlobFilter → Bool
  | .all => true
  | .noBlobs => false
  | .blobLimit n => content.length ≤ n

structure UploadRequest where
  wants : List Sha1
  haves : List Sha1
  /-- The boundary of a shallow client. -/
  shallow : List Sha1
  done : Bool
  depth : Option Nat
  filter : BlobFilter

/-- An answer. The objects of a pack are listed with their types. -/
inductive UploadReply
  /-- `ERR upload-pack: not our ref {}` -/
  | notOurRef (sha1 : Sha1)
  /-- The `shallow` and `unshallow` lines; a `done` request gets a pack too. -/
  | shallowInfo (shallow unshallow : List Sha1) (pack : Option (List TypedWrite))
  | nak
  /-- `ACK {}` or `NAK`, and a pack. -/
  | pack (ack : Option Sha1) (objects : List TypedWrite)
  deriving DecidableEq

/-! ### The walks -/

/-- `Sha1Provider::sha1_index`: a map that cannot be built is an empty one. -/
def sha1Map (view : StoreView) : Names :=
  match view.sha1Index with
  | .ok index => index
  | .error _ => []

/-- `Sha1Provider::git_type_of`, and its default -/
def gitTypeOr (view : StoreView) (id : ObjectId) : UInt8 :=
  match view.gitTypeOf id with
  | .ok gitType => gitType
  | .error _ => 3

/-- What a walk gets for a name: nothing if it is not in the index or cannot be read. -/
def objectAt (view : StoreView) (sha1 : Sha1) : Option TypedWrite :=
  match (sha1Map view).lookup sha1 with
  | none => none
  | some id =>
    match view.read id with
    | .error _ => none
    | .ok content => some ⟨gitTypeOr view id, content⟩

/-- The names that `follow` finds in the body of an object. -/
def bodyNames (view : StoreView) (follow : UInt8 → List UInt8 → List Sha1) (sha1 : Sha1) :
    List Sha1 :=
  match objectAt view sha1 with
  | none => []
  | some o => follow o.gitType o.content

theorem mem_sha1Map_of_objectAt {view : StoreView} {sha1 : Sha1} {o : TypedWrite}
    (h : objectAt view sha1 = some o) : ∃ id, (sha1Map view).lookup sha1 = some id ∧
      (sha1, id) ∈ sha1Map view := by
  unfold objectAt at h
  cases hlookup : (sha1Map view).lookup sha1 with
  | none =>
    rw [hlookup] at h
    cases h
  | some id =>
    obtain ⟨⟨sha1', id'⟩, hfind, rfl⟩ := map_eq_some_iff.mp hlookup
    have hname := find?_some hfind
    obtain rfl : sha1' = sha1 := of_decide_eq_true hname
    exact ⟨id', rfl, mem_of_find?_eq_some hfind⟩

/-- The graph of these names. -/
def bodyGraph (view : StoreView) (follow : UInt8 → List UInt8 → List Sha1) : Graph Sha1 where
  succ := bodyNames view follow
  ends := (sha1Map view).flatMap (fun x => bodyNames view follow x.1)
  mem_ends := by
    intro a b hb
    cases ha : objectAt view a with
    | none =>
      rw [bodyNames, ha] at hb
      cases hb
    | some o =>
      obtain ⟨id, -, hmem⟩ := mem_sha1Map_of_objectAt ha
      exact mem_flatMap.mpr ⟨_, hmem, hb⟩

/-- All that bodies name. -/
def closureGraph (view : StoreView) : Graph Sha1 := bodyGraph view childSha1s

/-- `reachable_closure` -/
def reachableClosure (view : StoreView) (roots : List Sha1) : List Sha1 :=
  (closureGraph view).sweep [] roots

/-- The object that `collect_pack_objects` packs for a name. -/
def packEntry (view : StoreView) (wanted : List Sha1) (filter : BlobFilter) (sha1 : Sha1) :
    Option TypedWrite :=
  match objectAt view sha1 with
  | none => none
  | some o =>
    if o.gitType = 3 ∧ sha1 ∉ wanted ∧ filter.admits o.content = false then none else some o

/-- `collect_pack_objects`: each object is packed when the walk takes it. -/
def collectPackObjects (view : StoreView) (wanted exclude : List Sha1) (filter : BlobFilter) :
    List TypedWrite :=
  ((closureGraph view).sweep exclude wanted).filterMap (packEntry view wanted filter)

/-! ### Shallow requests -/

/-- What the walk over the history follows: the parents that are in the index, and the object of a
tag. -/
def historyNames (view : StoreView) (exclude : List Sha1) (gitType : UInt8) (content : List UInt8) :
    List Sha1 :=
  if gitType = 4 then (tagObjectSha1 content).toList
  else if gitType = 1 then
    (commitParentSha1s content).filter (fun p => p ∉ exclude ∧ ((sha1Map view).lookup p).isSome)
  else []

def historyGraph (view : StoreView) (exclude : List Sha1) : Graph Sha1 :=
  bodyGraph view (historyNames view exclude)

/-- The depth at which the walk over the history goes on. -/
def nextDepth (view : StoreView) (depth : Nat) (sha1 : Sha1) (d : Nat) : Option Nat :=
  match objectAt view sha1 with
  | none => none
  | some o => if o.gitType = 4 then some d else if d < depth then some (d + 1) else none

/-- The walk over the history, with the depth at which each name is taken. -/
def history (view : StoreView) (wanted exclude : List Sha1) (depth : Nat) : List (Sha1 × Nat) :=
  (historyGraph view exclude).explore (nextDepth view depth) exclude (wanted.map (fun w => (w, 1)))

/-- The names of the walk that are objects. -/
def historyRoots (view : StoreView) (walk : List (Sha1 × Nat)) : List Sha1 :=
  (walk.filter (fun x => (objectAt view x.1).isSome)).map Prod.fst

/-- A commit that the walk has come to. -/
def isCommit (view : StoreView) (sha1 : Sha1) : Bool :=
  match objectAt view sha1 with
  | none => false
  | some o => o.gitType = 1

/-- The commits at the depth limit with parents that were not followed. -/
def newShallow (view : StoreView) (exclude : List Sha1) (depth : Nat) (walk : List (Sha1 × Nat)) :
    List Sha1 :=
  (walk.filter (fun x => isCommit view x.1 ∧ depth ≤ x.2 ∧
    bodyNames view (historyNames view exclude) x.1 ≠ [])).map Prod.fst

/-- The names in a tree. -/
def snapshotNames (gitType : UInt8) (content : List UInt8) : List Sha1 :=
  if gitType = 2 then treeChildSha1s content else []

/-- What is queued for a root: the tree of a commit, the entries of a tree. -/
def rootNames (gitType : UInt8) (content : List UInt8) : List Sha1 :=
  if gitType = 1 then (commitTreeSha1 content).toList
  else if gitType = 2 then treeChildSha1s content
  else []

def snapshotGraph (view : StoreView) : Graph Sha1 := bodyGraph view snapshotNames

/-- The second phase of `collect_shallow` and `collect_deepen`: the roots with all that is in their
trees, without what is `held`. -/
def packSnapshots (view : StoreView) (held roots : List Sha1) : List TypedWrite :=
  let fresh := roots.filter (· ∉ held)
  let queue := fresh.flatMap (bodyNames view rootNames)
  (fresh ++ (snapshotGraph view).sweep (fresh ++ held) queue).filterMap (objectAt view)

/-- `collect_shallow` -/
def collectShallow (view : StoreView) (wanted exclude : List Sha1) (depth : Nat) :
    List TypedWrite × List Sha1 :=
  let depth := max depth 1
  let walk := history view wanted exclude depth
  (packSnapshots view exclude (historyRoots view walk), newShallow view exclude depth walk)

/-- `boundary_held_set` -/
def boundaryHeldSet (view : StoreView) (boundary : Sha1) : List Sha1 :=
  match (objectAt view boundary).bind (fun o => commitTreeSha1 o.content) with
  | none => [boundary]
  | some tree => boundary :: (snapshotGraph view).sweep [boundary] [tree]

/-- `collect_deepen` -/
def collectDeepen (view : StoreView) (wanted clientShallow : List Sha1) (depth : Nat) :
    List TypedWrite × List Sha1 × List Sha1 :=
  let depth := max depth 1
  let walk := history view wanted [] depth
  let unshallow := (walk.filter (fun x => isCommit view x.1 ∧ x.2 < depth ∧
    x.1 ∈ clientShallow)).map Prod.fst
  (packSnapshots view (clientShallow.flatMap (boundaryHeldSet view)) (historyRoots view walk),
    newShallow view [] depth walk, unshallow)

/-! ### A call -/

/-- `upload_pack_cache_key` hashes a segment and a sorted list of names; the key is what is
hashed. -/
abbrev CacheKey := String × Multiset Sha1

def uploadPackCacheKey (segment : String) (wants : List Sha1) : CacheKey := (segment, wants)

/-- `UploadPackCache`, if the caller has one, and `ReachabilityCache` -/
structure FetchCaches where
  packs : Option (Lru CacheKey (List TypedWrite))
  closures : Lru CacheKey (List Sha1)

/-- The bounds of the caches. -/
structure FetchConfig where
  packs : LruBounds (List TypedWrite)
  closures : LruBounds (List Sha1)

/-- What the accesses of a call find: the tips of its segment, and the store at each of its
walks. -/
structure FetchEnv where
  tips : List Sha1
  authorize : StoreView
  negotiate : StoreView
  exclude : StoreView
  collect : StoreView

/-- `segment_tip_sha1s`; `sha1Of` is `Sha1Provider::sha1_of`. -/
def segmentTipSha1s (refs : Store) (sha1Of : ObjectId → Option Sha1) (segment : String) :
    List Sha1 :=
  ((refs.tree.list ("refs/" ++ segment)).filterMap (fun x => sha1Of x.2.target)).dedup

section

variable (cfg : FetchConfig) (env : FetchEnv) (segment : String)

/-- `authorize_wants` -/
def authorizeWants (wants : List Sha1) (caches : FetchCaches) : Option Sha1 × FetchCaches :=
  let unadvertised := wants.filter (· ∉ env.tips)
  if unadvertised = [] then (none, caches)
  else
    let key := uploadPackCacheKey segment env.tips
    match caches.closures.get key with
    | (some closure, closures) =>
      (unadvertised.find? (· ∉ closure), { caches with closures := closures })
    | (none, closures) =>
      let closure := reachableClosure env.authorize env.tips
      (unadvertised.find? (· ∉ closure),
        { caches with closures := closures.put cfg.closures key closure })

/-- The answer to a clone: the pack is kept for the next one. -/
def cloneReply (wants : List Sha1) (caches : FetchCaches) : UploadReply × FetchCaches :=
  match caches.packs with
  | none => (.pack none (collectPackObjects env.collect wants [] .all), caches)
  | some packs =>
    let key := uploadPackCacheKey segment wants
    match packs.get key with
    | (some objects, packs) => (.pack none objects, { caches with packs := some packs })
    | (none, packs) =>
      let objects := collectPackObjects env.collect wants [] .all
      (.pack none objects, { caches with packs := some (packs.put cfg.packs key objects) })

/-- The haves that are in the index. -/
def commons (haves : List Sha1) : List Sha1 :=
  haves.filter (fun h => ((sha1Map env.negotiate).lookup h).isSome)

/-- `handle_upload_pack` -/
def handleUploadPack (r : UploadRequest) (caches : FetchCaches) : UploadReply × FetchCaches :=
  match authorizeWants cfg env segment r.wants caches with
  | (some bad, caches) => (.notOurRef bad, caches)
  | (none, caches) =>
    match r.depth with
    | some d =>
      if r.shallow = [] then
        let (objects, shallow) := collectShallow env.collect r.wants [] d
        (.shallowInfo shallow [] (if r.done then some objects else none), caches)
      else
        let (objects, shallow, unshallow) := collectDeepen env.collect r.wants r.shallow d
        (.shallowInfo shallow unshallow (if r.done then some objects else none), caches)
    | none =>
      if r.haves = [] then
        if r.filter ≠ .all then
          (.pack none (collectPackObjects env.collect r.wants [] r.filter), caches)
        else cloneReply cfg env segment r.wants caches
      else if r.done then
        let commons := commons env r.haves
        let exclude := reachableClosure env.exclude commons
        (.pack commons.getLast? (collectPackObjects env.collect r.wants exclude r.filter), caches)
      else (.nak, caches)

end

/-! ### The caches over all calls -/

/-- A call of `UploadPackCache` or `ReachabilityCache` -/
inductive CacheCall (ν : Type)
  | get (key : CacheKey)
  | put (key : CacheKey) (v : ν)

/-- A cache; for each key the value that was stored when it last became resident; and the keys by
their last use, which is a `get` that found something or a `put` of a key that was not there. The
last two are kept from the calls, whatever the cache makes of its own order. -/
structure CacheRun (ν : Type) where
  cache : Lru CacheKey ν
  stored : CacheKey → Option ν
  used : List CacheKey

namespace CacheRun

variable {ν : Type} (b : LruBounds ν)

/-- The key comes to the front. -/
def use (key : CacheKey) (used : List CacheKey) : List CacheKey := key :: used.filter (· ≠ key)

def step (s : CacheRun ν) : CacheCall ν → CacheRun ν
  | .get key =>
    let (found, cache) := s.cache.get key
    ⟨cache, s.stored, if found.isSome then use key s.used else s.used⟩
  | .put key v =>
    if (s.cache.map key).isSome then { s with cache := s.cache.put b key v }
    else ⟨s.cache.put b key v, Function.update s.stored key (some v), use key s.used⟩

/-- A new cache after these calls. -/
def exec (calls : List (CacheCall ν)) : CacheRun ν :=
  calls.foldl (step b) ⟨.empty, fun _ => none, []⟩

/-- **A bounded LRU map.** -/
structure Sound (s : CacheRun ν) : Prop where
  wf : Lru.WF b s.cache
  entries : s.cache.order.length ≤ b.maxEntries
  size : s.cache.total ≤ b.maxSize
  found : ∀ k, (s.cache.get k).1 = if k ∈ s.cache.order then s.stored k else none
  /-- What is there was used last. -/
  recent : s.cache.order <+: s.used
  /-- A `put` gives up what comes last. -/
  evicts : ∀ key v, (s.cache.put b key v).order <+:
    if (s.cache.map key).isSome then s.cache.order else key :: s.cache.order
  /-- A `put` of a key that is not there is found, if its value fits alone. -/
  kept : ∀ key v, s.cache.map key = none → Lru.Fits b v →
    ((s.cache.put b key v).get key).1 = some v
  /-- The counter has what an eviction takes from it. -/
  covered : ∀ key v c old w, s.cache.map key = none →
    Relation.ReflTransGen (Lru.Drops b) (s.cache.insert b key v) c →
    c.order.getLast? = some old → c.map old = some w → b.size w ≤ c.total

variable {b} {s : CacheRun ν}

theorem Sound.of_wf (hwf : Lru.WF b s.cache) (hentries : s.cache.order.length ≤ b.maxEntries)
    (hsize : s.cache.total ≤ b.maxSize) (hstored : s.cache.All (fun k v => s.stored k = some v))
    (hused : s.cache.order <+: s.used) : s.Sound b := by
  refine ⟨hwf, hentries, hsize, fun k => ?_, hused, fun key v => ?_, fun key v => Lru.get_put hwf,
    fun key v c old w hnone hdrops hlast hw => ?_⟩
  · rw [Lru.get_fst]
    cases hk : s.cache.map k with
    | none => simp [hwf.resident, hk]
    | some v => simp [hwf.resident, hk, hstored k v hk]
  · rw [Lru.put]
    split_ifs with hsome
    · exact List.prefix_refl _
    · exact (hwf.insert (v := v) (Option.not_isSome_iff_eq_none.mp hsome)).order_evict
  · have hold := ((hwf.insert (v := v) hnone).drops hdrops).sizeAt_le (List.mem_of_getLast? hlast)
    simpa [Lru.sizeAt, hw] using hold

theorem Sound.all (h : s.Sound b) : s.cache.All (fun k v => s.stored k = some v) := by
  intro k v hk
  have hmem : k ∈ s.cache.order := (h.wf.resident k).mpr (by simp [hk])
  rw [← hk, ← Lru.get_fst, h.found, if_pos hmem]

theorem Sound.prefix_use (h : s.Sound b) (key : CacheKey) :
    (key :: s.cache.order.filter (· ≠ key)) <+: use key s.used :=
  List.cons_prefix_cons.mpr ⟨rfl, h.recent.filter _⟩

theorem Sound.get (h : s.Sound b) (key : CacheKey) : (s.step b (.get key)).Sound b := by
  refine .of_wf (h.wf.get key) ((h.wf.order_get key).length_eq.trans_le h.entries)
    ((Lru.total_get s.cache key).trans_le h.size) (h.all.get key) ?_
  cases hkey : s.cache.map key with
  | none => simpa [CacheRun.step, Lru.get, hkey] using h.recent
  | some v => simpa [CacheRun.step, Lru.get, hkey] using h.prefix_use key

theorem Sound.put (h : s.Sound b) (key : CacheKey) (v : ν) : (s.step b (.put key v)).Sound b := by
  by_cases hsome : (s.cache.map key).isSome
  · simpa [CacheRun.step, Lru.put, hsome] using h
  · have hnone := Option.not_isSome_iff_eq_none.mp hsome
    have hput : s.cache.put b key v = (s.cache.insert b key v).evict b := if_neg hsome
    have hstep : s.step b (.put key v) =
        ⟨s.cache.put b key v, Function.update s.stored key (some v), use key s.used⟩ := if_neg hsome
    obtain ⟨hwf, hgone, -, hentries, htotal⟩ := (h.wf.insert (v := v) hnone).evict
    rw [← hput] at hwf hentries htotal
    rw [hstep]
    refine .of_wf hwf hentries htotal (Lru.All.put (fun k w hk => ?_) h.wf fun _ => ?_) ?_
    · have hne : k ≠ key := by
        rintro rfl
        cases hnone.symm.trans hk
      simpa [hne] using h.all k w hk
    · simp
    · -- the key is new to the order, so nothing of it is filtered
      have hnot : key ∉ s.cache.order := by simp [h.wf.resident, hnone]
      have hsame : s.cache.order.filter (· ≠ key) = s.cache.order :=
        filter_eq_self.mpr fun k hk => decide_eq_true fun heq => hnot (heq ▸ hk)
      rw [hput]
      refine (h.wf.insert (v := v) hnone).order_evict.trans ?_
      rw [Lru.insert, ← hsame]
      exact h.prefix_use key

theorem sound_exec (b : LruBounds ν) (calls : List (CacheCall ν)) : (exec b calls).Sound b := by
  induction calls using List.reverseRecOn with
  | nil => exact .of_wf Lru.wf_empty (Nat.zero_le _) (Nat.zero_le _) nofun (List.prefix_refl _)
  | append_singleton calls call ih =>
    rw [exec, List.foldl_concat]
    cases call with
    | get key => exact ih.get key
    | put key v => exact ih.put key v

end CacheRun

/-- **The fetch caches are sound** after any calls, for any bounds. -/
theorem fetch_caches_sound (cfg : FetchConfig) (packs : List (CacheCall (List TypedWrite)))
    (closures : List (CacheCall (List Sha1))) :
    (CacheRun.exec cfg.packs packs).Sound cfg.packs ∧
      (CacheRun.exec cfg.closures closures).Sound cfg.closures :=
  ⟨CacheRun.sound_exec cfg.packs packs, CacheRun.sound_exec cfg.closures closures⟩

/-- A cache of two entries: the first key is used again, so a third one takes the place of the
second. -/
theorem get_decides_eviction :
    let key := fun byte => uploadPackCacheKey "root" [.fill byte]
    let b : LruBounds (List Sha1) := ⟨2, 10, List.length⟩
    let s := CacheRun.exec b
      [.put (key 1) [.fill 1], .put (key 2) [.fill 2], .get (key 1), .put (key 3) [.fill 3]]
    s.Sound b ∧ s.cache.order = [key 3, key 1] ∧ s.used = [key 3, key 1, key 2] ∧
      (s.cache.get (key 1)).1 = some [.fill 1] ∧ (s.cache.get (key 2)).1 = none := by
  intro key b s
  refine ⟨(fetch_caches_sound ⟨⟨0, 0, List.length⟩, b⟩ [] _).2, ?_, ?_, ?_, ?_⟩ <;> decide +kernel

/-! ### What a walk finds -/

/-- The store has an object of this name. -/
def Stored (view : StoreView) (sha1 : Sha1) : Prop := ((sha1Map view).lookup sha1).isSome

/-- `b` is reachable from `a`, over the bodies of the objects that the store has. -/
def LeadsTo (view : StoreView) (a b : Sha1) : Prop :=
  Relation.ReflTransGen (closureGraph view).Edge a b

/-- The object of this name, with its true type. -/
structure Holds (view : StoreView) (sha1 : Sha1) (o : TypedWrite) : Prop where
  named : ∃ id, (sha1Map view).lookup sha1 = some id ∧ view.read id = .ok o.content ∧
    view.gitTypeOf id = .ok o.gitType

/-- **Every object can be read**, and is what its names say. -/
structure Healthy (P : Primitives) (view : StoreView) : Prop where
  index : ∃ index, view.sha1Index = .ok index
  addressed : ∀ id content, view.read id = .ok content → P.blake3 content = id
  holds : ∀ sha1, Stored view sha1 → ∃ o, Holds view sha1 o ∧ o.gitName P = some sha1

section

variable {P : Primitives} {view : StoreView} {a b sha1 : Sha1} {o : TypedWrite}
  {filter : BlobFilter} {wanted exclude roots : List Sha1}

theorem Holds.objectAt (h : Holds view sha1 o) : objectAt view sha1 = some o := by
  obtain ⟨id, hlookup, hread, htype⟩ := h.named
  unfold Git.objectAt gitTypeOr
  rw [hlookup]
  dsimp only
  rw [hread, htype]

theorem stored_of_objectAt (h : objectAt view sha1 = some o) : Stored view sha1 := by
  obtain ⟨id, hlookup, -⟩ := mem_sha1Map_of_objectAt h
  exact isSome_iff_exists.mpr ⟨id, hlookup⟩

theorem Healthy.holds_of_objectAt (h : Healthy P view) (ho : objectAt view sha1 = some o) :
    Holds view sha1 o ∧ o.gitName P = some sha1 := by
  obtain ⟨o', hholds, hname⟩ := h.holds sha1 (stored_of_objectAt ho)
  cases hholds.objectAt.symm.trans ho
  exact ⟨hholds, hname⟩

theorem mem_reachableClosure :
    b ∈ reachableClosure view roots ↔ ∃ a ∈ roots, LeadsTo view a b := Graph.mem_sweep_nil

theorem reachableClosure_closed (ha : a ∈ reachableClosure view roots)
    (hedge : (closureGraph view).Edge a b) : b ∈ reachableClosure view roots := by
  obtain ⟨root, hroot, hpath⟩ := mem_reachableClosure.mp ha
  exact mem_reachableClosure.mpr ⟨root, hroot, hpath.tail hedge⟩

/-- A blob that is not wanted and that the filter does not admit. -/
def LeftOut (view : StoreView) (wanted : List Sha1) (filter : BlobFilter) (sha1 : Sha1) : Prop :=
  ∃ o, objectAt view sha1 = some o ∧ o.gitType = 3 ∧ sha1 ∉ wanted ∧ filter.admits o.content = false

theorem packEntry_eq_some_iff :
    packEntry view wanted filter sha1 = some o ↔
      objectAt view sha1 = some o ∧ ¬ LeftOut view wanted filter sha1 := by
  unfold packEntry LeftOut
  cases hobject : objectAt view sha1 with
  | none => simp
  | some o' =>
    dsimp only
    split_ifs with hout
    · simp [hout]
    · constructor
      · intro heq
        cases heq
        refine ⟨rfl, fun hleft => hout ?_⟩
        obtain ⟨o, ho, hrest⟩ := hleft
        cases ho
        exact hrest
      · exact fun heq => heq.1

/-- The names of what `filterMap` keeps. -/
theorem forall₂_filterMap {f : Sha1 → Option TypedWrite} (names : List Sha1) :
    List.Forall₂ (fun x o => f x = some o) (names.filter (fun x => (f x).isSome))
      (names.filterMap f) := by
  induction names with
  | nil => exact .nil
  | cons x names ih =>
    cases hx : f x with
    | none =>
      rw [filter_cons_of_neg (by simp [hx]), filterMap_cons_none hx]
      exact ih
    | some o =>
      rw [filter_cons_of_pos (by simp [hx]), filterMap_cons_some hx]
      exact .cons hx ih

/-- **What `collect_pack_objects` packs**, if no edge leads out of what is excluded. -/
theorem collectPackObjects_exact (h : Healthy P view) (wanted : List Sha1) (filter : BlobFilter)
    (hclosed : ∀ a ∈ exclude, ∀ b, (closureGraph view).Edge a b → b ∈ exclude) :
    ∃ names : List Sha1, names.Nodup ∧
      List.Forall₂ (Holds view) names (collectPackObjects view wanted exclude filter) ∧
      ∀ x, x ∈ names ↔ (Stored view x ∧ (∃ w ∈ wanted, LeadsTo view w x) ∧ x ∉ exclude) ∧
        ¬ LeftOut view wanted filter x := by
  refine ⟨((closureGraph view).sweep exclude wanted).filter
    (fun x => (packEntry view wanted filter x).isSome), Graph.nodup_sweep.filter _, ?_, fun x => ?_⟩
  · refine (forall₂_filterMap _).imp fun x o hentry => ?_
    exact (h.holds_of_objectAt (packEntry_eq_some_iff.mp hentry).1).1
  · rw [mem_filter, Graph.mem_sweep hclosed, isSome_iff_exists]
    constructor
    · rintro ⟨⟨hnot, hpath⟩, o, hentry⟩
      obtain ⟨hobject, hleft⟩ := packEntry_eq_some_iff.mp hentry
      exact ⟨⟨stored_of_objectAt hobject, hpath, hnot⟩, hleft⟩
    · rintro ⟨⟨hstored, hpath, hnot⟩, hleft⟩
      obtain ⟨o, hholds, -⟩ := h.holds x hstored
      exact ⟨⟨hnot, hpath⟩, o, packEntry_eq_some_iff.mpr ⟨hholds.objectAt, hleft⟩⟩

end

/-! ### What a fetch sends -/

/-- All walks see the same store. -/
structure FetchEnv.Sees (env : FetchEnv) (view : StoreView) : Prop where
  authorize : env.authorize = view
  negotiate : env.negotiate = view
  exclude : env.exclude = view
  collect : env.collect = view

section

variable {P : Primitives} {view : StoreView} {cfg : FetchConfig} {env : FetchEnv} {segment : String}
  {r : UploadRequest} {caches : FetchCaches}

theorem packs_authorizeWants :
    (authorizeWants cfg env segment r.wants caches).2.packs = caches.packs := by
  unfold authorizeWants
  dsimp only
  split_ifs
  · rfl
  · split <;> rfl

/-- The ways of `authorize_wants`: all wants are tips, or a closure is at hand, or it is walked
over. -/
theorem authorizeWants_cases (cfg : FetchConfig) (env : FetchEnv) (segment : String)
    (wants : List Sha1) (caches : FetchCaches) :
    (∀ w ∈ wants, w ∈ env.tips) ∧ authorizeWants cfg env segment wants caches = (none, caches) ∨
    (∃ w ∈ wants, w ∉ env.tips) ∧ ∃ closure closures,
      (authorizeWants cfg env segment wants caches).1 =
        (wants.filter (· ∉ env.tips)).find? (· ∉ closure) ∧
      (authorizeWants cfg env segment wants caches).2 = { caches with closures := closures } ∧
      (caches.closures.map (uploadPackCacheKey segment env.tips) = some closure ∧
          closures = (caches.closures.get (uploadPackCacheKey segment env.tips)).2 ∨
        caches.closures.map (uploadPackCacheKey segment env.tips) = none ∧
          closure = reachableClosure env.authorize env.tips ∧
          closures = (caches.closures.get (uploadPackCacheKey segment env.tips)).2.put cfg.closures
            (uploadPackCacheKey segment env.tips) closure) := by
  have hfirst := caches.closures.get_fst (uploadPackCacheKey segment env.tips)
  unfold authorizeWants
  dsimp only
  by_cases hnil : wants.filter (· ∉ env.tips) = []
  · rw [if_pos hnil]
    refine Or.inl ⟨fun w hw => ?_, rfl⟩
    by_contra hnot
    exact filter_eq_nil_iff.mp hnil w hw (decide_eq_true hnot)
  · rw [if_neg hnil]
    obtain ⟨w, hw⟩ := exists_mem_of_ne_nil _ hnil
    obtain ⟨hmem, hnot⟩ := mem_filter.mp hw
    refine Or.inr ⟨⟨w, hmem, of_decide_eq_true hnot⟩, ?_⟩
    cases hget : caches.closures.get (uploadPackCacheKey segment env.tips) with
    | mk found closures =>
      rw [hget] at hfirst
      cases found with
      | some closure => exact ⟨closure, closures, rfl, rfl, Or.inl ⟨hfirst.symm, rfl⟩⟩
      | none => exact ⟨_, _, rfl, rfl, Or.inr ⟨hfirst.symm, rfl, rfl⟩⟩

theorem closures_cloneReply {wants : List Sha1} :
    (cloneReply cfg env segment wants caches).2.closures = caches.closures := by
  unfold cloneReply
  split
  · rfl
  · dsimp only
    split <;> rfl

/-- A clone: no haves, no depth, no filter. -/
structure UploadRequest.IsClone (r : UploadRequest) : Prop where
  haves : r.haves = []
  depth : r.depth = none
  filter : r.filter = .all

/-- The ways of a call after the authorization: a refusal, a clone, or an answer that changes no
cache. -/
theorem handleUploadPack_cases (cfg : FetchConfig) (env : FetchEnv) (segment : String)
    (caches : FetchCaches) (r : UploadRequest) :
    (∃ bad, (authorizeWants cfg env segment r.wants caches).1 = some bad ∧
        (handleUploadPack cfg env segment r caches).1 = .notOurRef bad ∧
        (handleUploadPack cfg env segment r caches).2 =
          (authorizeWants cfg env segment r.wants caches).2) ∨
    (authorizeWants cfg env segment r.wants caches).1 = none ∧
      (r.IsClone ∧ handleUploadPack cfg env segment r caches =
          cloneReply cfg env segment r.wants (authorizeWants cfg env segment r.wants caches).2 ∨
        ¬ r.IsClone ∧ (∀ bad, (handleUploadPack cfg env segment r caches).1 ≠ .notOurRef bad) ∧
          (handleUploadPack cfg env segment r caches).2 =
            (authorizeWants cfg env segment r.wants caches).2) := by
  unfold handleUploadPack
  cases hcase : authorizeWants cfg env segment r.wants caches with
  | mk refused caches' =>
    cases refused with
    | some bad => exact Or.inl ⟨bad, rfl, rfl, rfl⟩
    | none =>
      refine Or.inr ⟨rfl, ?_⟩
      cases hdepth : r.depth with
      | some d =>
        refine Or.inr ⟨fun hclone => ?_, ?_⟩
        · have hnone := hclone.depth
          rw [hdepth] at hnone
          cases hnone
        · split_ifs <;> exact ⟨fun bad => (by simp), rfl⟩
      | none =>
        dsimp only
        by_cases hhaves : r.haves = []
        · rw [if_pos hhaves]
          by_cases hfilter : r.filter = .all
          · rw [if_neg (not_not.mpr hfilter)]
            exact Or.inl ⟨⟨hhaves, hdepth, hfilter⟩, rfl⟩
          · rw [if_pos hfilter]
            exact Or.inr ⟨fun hclone => hfilter hclone.filter, fun bad => (by simp), rfl⟩
        · refine Or.inr ⟨fun hclone => hhaves hclone.haves, ?_⟩
          split_ifs <;> exact ⟨fun bad => (by simp), rfl⟩

/-- The answer to a request without depth that gets a pack, if no pack is cached. -/
theorem handleUploadPack_pack (hdone : r.haves = [] ∨ r.done = true) (hdepth : r.depth = none)
    (hpacks : caches.packs = none) (hauth : (authorizeWants cfg env segment r.wants caches).1 =
      none) :
    ∃ caches', handleUploadPack cfg env segment r caches =
      (.pack (commons env r.haves).getLast? (collectPackObjects env.collect r.wants
        (reachableClosure env.exclude (commons env r.haves)) r.filter), caches') := by
  have hkeeps : (authorizeWants cfg env segment r.wants caches).2.packs = none :=
    packs_authorizeWants.trans hpacks
  have hnil : reachableClosure env.exclude [] = [] := by
    unfold reachableClosure Graph.sweep
    rw [map_nil, Graph.explore, map_nil]
  rw [handleUploadPack, Prod.fst_eq_iff.mp hauth, hdepth]
  dsimp only
  by_cases hhaves : r.haves = []
  · rw [hhaves, commons, filter_nil, hnil]
    by_cases hfilter : r.filter = .all
    · rw [cloneReply, hkeeps, hfilter]
      exact ⟨_, rfl⟩
    · rw [if_pos hfilter]
      exact ⟨_, rfl⟩
  · rw [if_neg hhaves, if_pos (hdone.resolve_left hhaves)]
    exact ⟨_, rfl⟩

end

/-! ### A store that was written to -/

/-- The store after these writes, the last one first. Nothing is a delta, and nothing fails. -/
def ofWrites (P : Primitives) (writes : List TypedWrite) : StoreView where
  sha1Index := .ok (writes.filterMap (fun o =>
    (o.gitName P).map (fun sha1 => (sha1, P.blake3 o.content))))
  read id :=
    match writes.find? (fun o => P.blake3 o.content = id) with
    | some o => .ok o.content
    | none => .error (.notFound id)
  gitTypeOf id :=
    match writes.find? (fun o => P.blake3 o.content = id) with
    | some o => .ok o.gitType
    | none => .error (.notFound id)
  deltaBaseOf _ := .ok none
  deltas := []
  mem_deltas := StoreView.no_deltas

variable {P : Primitives} {writes : List TypedWrite}

theorem exists_of_lookup_ofWrites {sha1 : Sha1} {id : ObjectId}
    (h : (sha1Map (ofWrites P writes)).lookup sha1 = some id) :
    ∃ o ∈ writes, o.gitName P = some sha1 ∧ P.blake3 o.content = id := by
  obtain ⟨o, ho, hname⟩ := mem_filterMap.mp (Names.mem_of_lookup h)
  obtain ⟨sha1', hname', heq⟩ := map_eq_some_iff.mp hname
  cases heq
  exact ⟨o, ho, hname', rfl⟩

theorem healthy_ofWrites
    (h : ∀ o ∈ writes, ∀ o' ∈ writes, P.blake3 o.content = P.blake3 o'.content → o = o') :
    Healthy P (ofWrites P writes) := by
  refine ⟨⟨_, rfl⟩, fun id content hread => ?_, fun sha1 hstored => ?_⟩
  · simp only [ofWrites] at hread
    split at hread
    · rename_i o hfind
      cases hread
      have hid := find?_some hfind
      exact of_decide_eq_true hid
    · cases hread
  obtain ⟨id, hlookup⟩ := isSome_iff_exists.mp hstored
  obtain ⟨o, ho, hname, rfl⟩ := exists_of_lookup_ofWrites hlookup
  have hfind : writes.find? (fun o' => P.blake3 o'.content = P.blake3 o.content) = some o := by
    cases hcase : writes.find? (fun o' => P.blake3 o'.content = P.blake3 o.content) with
    | none => exact absurd (decide_eq_true rfl) (find?_eq_none.mp hcase o ho)
    | some o' =>
      have hsame := find?_some hcase
      rw [h o' (mem_of_find?_eq_some hcase) o ho (of_decide_eq_true hsame)]
  refine ⟨o, ⟨_, hlookup, ?_, ?_⟩, hname⟩
  · simp only [ofWrites, hfind]
  · simp only [ofWrites, hfind]

/-- The call sees one store, and the segment has these tips. -/
def FetchEnv.on (view : StoreView) (tips : List Sha1) : FetchEnv := ⟨tips, view, view, view, view⟩

theorem FetchEnv.sees_on (view : StoreView) (tips : List Sha1) :
    (FetchEnv.on view tips).Sees view :=
  ⟨rfl, rfl, rfl, rfl⟩

/-- The bounds of `global_upload_cache` and `global_reachability_cache`, with a size of packs. -/
def globalCaches (size : List TypedWrite → Nat) : FetchConfig :=
  ⟨⟨32, 256 * 1024 * 1024, size⟩, ⟨64, 8000000, List.length⟩⟩

/-- A tag and the blob that it names. -/
def tagView : StoreView := ofWrites samplePrimitives [sampleTag, sampleBlob]

theorem healthy_tagView : Healthy samplePrimitives tagView := healthy_ofWrites (by decide +kernel)

end Ledge.Git
