import Ledge.Cluster.Gc
import Ledge.Objects.MarkSweep

/-!
# Ledge.Cluster.GcFaults

Passes of both collectors with nothing else going on, and reads of objects that fail.

`Gc.runAt` and `Collector.run` say what a whole pass does; the accesses of `Gc.turn` and
`Collector.turn` add up to them. **A pass fails safe exactly if the objects that it could delete are
found in spite of the failed reads** (`collection_fails_safe_iff`).
-/

namespace Ledge.Cluster

open Ledge.Core Ledge.Raft Ledge.Objects Ledge.Workspace List

namespace Collector

variable (c : Collector)

/-- The roots of the refs and the locks. -/
def refRoots (shards : Shards c.router) : Option (List ObjectId) :=
  match c.kind with
  | .cluster =>
    some (c.hosted.flatMap (fun shard => committedTargets (shards.replica shard)) ++
      c.hosted.flatMap (fun shard => stagedTargets (shards.replica shard)))
  | .scheduled =>
    if ∀ shard ∈ c.spanned "refs/", shard ∈ c.hosted then
      some (durableTargets (mergeRefs ((c.spanned "refs/").flatMap (fun shard =>
        (shards.replica shard).refs.tree.list "refs/"))))
    else none

/-- The roots of live workspaces. -/
def leaseRoots (shards : Shards c.router) : List Lease → Option (List ObjectId)
  | [] => some []
  | lease :: rest =>
    match c.listWorkspace shards lease.id with
    | none => none
    | some refs =>
      (leaseRoots shards rest).map (fun roots => refs.map (fun x => x.2.target) ++ roots)

/-- The roots that a pass collects; none if it has to list a shard of other nodes. -/
def roots (shards : Shards c.router) : Option (List ObjectId) :=
  (c.refRoots shards).bind (fun roots => (c.leaseRoots shards c.live).map
    (fun more => roots ++ more))

/-- `ClusterGc::run`, or `Gc::run_at` over the `ClusterRefStore` -/
def run (shards : Shards c.router) (disk : Disk) : Except LedgeError Unit × Disk :=
  match c.roots shards with
  | none => (.error (.unavailable "unknown shard"), disk)
  | some roots => disk.markSweep (c.view disk) roots c.nowUnixSecs c.grace

/-- Accesses of a pass of either collector with nothing in between. -/
abbrev Turns : GcState c.router → GcState c.router → Prop :=
  Relation.ReflTransGen (fun s s' => s' = c.turn s)

variable {c} {shards : Shards c.router} {disk : Disk} {candidates : List ObjectId}

theorem turns_committed (rest : List ShardId) (roots : List ObjectId) :
    c.Turns ⟨shards, disk, .committed candidates rest roots⟩
      ⟨shards, disk, .locks candidates c.hosted
        (roots ++ rest.flatMap (fun shard => committedTargets (shards.replica shard)))⟩ := by
  induction rest generalizing roots with
  | nil =>
    rw [flatMap_nil, append_nil]
    exact .single rfl
  | cons shard rest ih =>
    rw [flatMap_cons, ← append_assoc]
    exact .head rfl (ih _)

theorem turns_locks (rest : List ShardId) (roots : List ObjectId) :
    c.Turns ⟨shards, disk, .locks candidates rest roots⟩
      ⟨shards, disk, .leases candidates
        (roots ++ rest.flatMap (fun shard => stagedTargets (shards.replica shard)))⟩ := by
  induction rest generalizing roots with
  | nil =>
    rw [flatMap_nil, append_nil]
    exact .single rfl
  | cons shard rest ih =>
    rw [flatMap_cons, ← append_assoc]
    exact .head rfl (ih _)

theorem turns_listing (rest : List ShardId) (out : List (RefName × RefEntry)) :
    c.Turns ⟨shards, disk, .listing candidates rest out⟩
      (if ∀ shard ∈ rest, shard ∈ c.hosted then
        ⟨shards, disk, .leases candidates (durableTargets
          (mergeRefs (out ++ rest.flatMap (fun shard =>
          (shards.replica shard).refs.tree.list "refs/"))))⟩
      else ⟨shards, disk, .ended⟩) := by
  induction rest generalizing out with
  | nil =>
    rw [flatMap_nil, append_nil]
    exact .single rfl
  | cons shard rest ih =>
    by_cases hhosted : shard ∈ c.hosted
    · have hturn : c.turn ⟨shards, disk, .listing candidates (shard :: rest) out⟩ =
          ⟨shards, disk, .listing candidates rest
            (out ++ (shards.replica shard).refs.tree.list "refs/")⟩ := by
        simp only [turn]
        rw [if_pos hhosted]
      have hrest := ih (out ++ (shards.replica shard).refs.tree.list "refs/")
      rw [append_assoc] at hrest
      simp only [forall_mem_cons, hhosted, true_and, flatMap_cons]
      exact .head hturn.symm hrest
    · have hturn : c.turn ⟨shards, disk, .listing candidates (shard :: rest) out⟩ =
          ⟨shards, disk, .ended⟩ := by
        simp only [turn]
        rw [if_neg hhosted]
      rw [if_neg (fun hall => hhosted (hall shard mem_cons_self))]
      exact .single hturn.symm

theorem turns_workspaces (rest : List Lease) (roots : List ObjectId) :
    c.Turns ⟨shards, disk, .workspaces candidates rest roots⟩
      (match c.leaseRoots shards rest with
      | none => ⟨shards, disk, .ended⟩
      | some more => ⟨shards, disk, .workspaces candidates [] (roots ++ more)⟩) := by
  induction rest generalizing roots with
  | nil =>
    simp only [leaseRoots, append_nil]
    exact .refl
  | cons lease rest ih =>
    rw [leaseRoots]
    cases hlist : c.listWorkspace shards lease.id with
    | none =>
      refine .single ?_
      simp only [turn]
      rw [hlist]
    | some refs =>
      have hturn : c.turn ⟨shards, disk, .workspaces candidates (lease :: rest) roots⟩ =
          ⟨shards, disk, .workspaces candidates rest
            (roots ++ refs.map (fun x => x.2.target))⟩ := by
        simp only [turn]
        rw [hlist]
      have hrest := ih (roots ++ refs.map (fun x => x.2.target))
      cases hmore : c.leaseRoots shards rest with
      | none =>
        rw [hmore] at hrest
        exact .head hturn.symm hrest
      | some more =>
        rw [hmore] at hrest
        dsimp only at hrest
        rw [append_assoc] at hrest
        exact .head hturn.symm hrest

theorem turns_sweep (rest keep : List ObjectId) :
    c.Turns ⟨shards, disk, .sweep rest keep⟩
      ⟨shards, disk.sweep keep c.nowUnixSecs c.grace rest, .ended⟩ := by
  induction rest generalizing disk with
  | nil => exact .single rfl
  | cons id rest ih => exact .head rfl ih

theorem turns_refRoots : c.Turns ⟨shards, disk, .idle⟩
    (match c.refRoots shards with
    | none => ⟨shards, disk, .ended⟩
    | some roots => ⟨shards, disk, .leases disk.listAllIds roots⟩) := by
  unfold refRoots
  cases hkind : c.kind with
  | cluster =>
    have hturn : c.turn ⟨shards, disk, .idle⟩ =
        ⟨shards, disk, .committed disk.listAllIds c.hosted []⟩ := by
      simp only [turn]
      rw [hkind]
    exact .head hturn.symm ((turns_committed c.hosted []).trans (turns_locks c.hosted _))
  | scheduled =>
    have hturn : c.turn ⟨shards, disk, .idle⟩ =
        ⟨shards, disk, .listing disk.listAllIds (c.spanned "refs/") []⟩ := by
      simp only [turn]
      rw [hkind]
    refine .head hturn.symm ?_
    refine (turns_listing (c.spanned "refs/") []).trans ?_
    split_ifs <;> exact .refl

/-- **The accesses of a pass add up to `run`.** -/
theorem turns_run (shards : Shards c.router) (disk : Disk) :
    c.Turns ⟨shards, disk, .idle⟩ ⟨shards, (c.run shards disk).2, .ended⟩ := by
  have hrefs : c.Turns ⟨shards, disk, .idle⟩ (match c.refRoots shards with
    | none => ⟨shards, disk, .ended⟩
    | some roots => ⟨shards, disk, .leases disk.listAllIds roots⟩) := turns_refRoots
  unfold run roots
  cases hroots : c.refRoots shards with
  | none =>
    rw [hroots] at hrefs
    exact hrefs
  | some roots =>
    rw [hroots] at hrefs
    refine hrefs.trans (.head rfl ((turns_workspaces c.live roots).trans ?_))
    cases hmore : c.leaseRoots shards c.live with
    | none => exact .refl
    | some more =>
      simp only [Option.map_some, Option.bind_some, Disk.markSweep]
      cases hmark : (c.view disk).mark (roots ++ more) with
      | error e =>
        refine .single ?_
        simp only [turn]
        rw [hmark]
      | ok keep =>
        refine .head ?_ (turns_sweep disk.listAllIds keep)
        simp only [turn]
        rw [hmark]

end Collector

/-- **When a collection with failing reads fails safe**: the mark returns an error, or every object
that is reachable in the full graph, and whose only copy is a file that is old enough, is found in
spite of them. -/
theorem collection_fails_safe_iff (full : StoreView) (disk : Disk) :
    (∀ (g : Gc) (order : List Lease) (node : Node),
      FailsSafe full (g.roots order node) disk (g.runAt order node disk) ↔
        (∃ e, (g.view disk).mark (g.roots order node) = .error e) ∨
          (g.view disk).FindsAll full (g.roots order node) g.nowUnixSecs g.grace disk) ∧
    ∀ (c : Collector) (shards : Shards c.router) (roots : List ObjectId),
      c.roots shards = some roots →
      (FailsSafe full roots disk (c.run shards disk) ↔
        (∃ e, (c.view disk).mark roots = .error e) ∨
          (c.view disk).FindsAll full roots c.nowUnixSecs c.grace disk) := by
  constructor
  · intro g order node
    exact failsSafe_markSweep_iff
  · intro c shards roots hroots
    unfold Collector.run
    rw [hroots]
    exact failsSafe_markSweep_iff

/-! ### An object that cannot be read -/

/-- A tag and a blob that it names. -/
def tagView : StoreView where
  sha1Index := .ok [(.fill 7, .fill 2)]
  read id := .ok (if id = .fill 1 then
    strBytes "object 0707070707070707070707070707070707070707\n" else [])
  gitTypeOf id := .ok (if id = .fill 1 then 4 else 3)
  deltaBaseOf _ := .ok none
  deltas := []
  mem_deltas := StoreView.no_deltas

/-- One object cannot be read. -/
def tornView (view : StoreView) (torn : ObjectId) : StoreView :=
  { view with read := fun id => if id = torn then .error .io else view.read id }

theorem tornView_faultyOf (view : StoreView) (torn : ObjectId) :
    (tornView view torn).FaultyOf view where
  sha1Index := Or.inl rfl
  gitTypeOf _ := Or.inl rfl
  deltaBaseOf _ := Or.inl rfl
  read id := by
    unfold tornView
    dsimp only
    split_ifs
    · exact Or.inr ⟨_, rfl⟩
    · exact Or.inl rfl

theorem tagView_reachable : tagView.Reachable [.fill 1] (.fill 2) :=
  ⟨.fill 1, mem_singleton_self _, .single ⟨_, rfl, by decide +kernel⟩⟩

def tagFiles : Disk := ⟨[(.fill 1, 0), (.fill 2, 0)], by decide, []⟩

/-- `refs/heads/a` is at the tag. -/
def tagNode : Node := ⟨.openOn [.update .headsA ⟨.fill 1, 1, 1⟩], .openOn []⟩

def tagGc (view : StoreView) : Gc := ⟨0, 0, fun _ => view⟩

/-- A node with one shard and no leases. -/
def tagCollector (view : StoreView) : Collector where
  kind := .cluster
  router := ⟨1, le_refl 1⟩
  hosted := [0]
  nodup := nodup_singleton 0
  hosted_lt := by decide
  nowUnixSecs := 0
  grace := 0
  leases := .empty
  live := []
  isLive := ⟨nodup_nil, fun l => by simp⟩
  view := fun _ => view

/-- The tag is staged for `refs/heads/a`. -/
def tagShards (view : StoreView) : Shards (tagCollector view).router :=
  (Shards.empty _).apply (.prepare (.fill 7) 0 .headsA (.fill 1) none 1) true

theorem not_failsSafe {full : StoreView} {roots : List ObjectId} {d : Disk}
    {pass : Except LedgeError Unit × Disk} {id : ObjectId} (hok : pass.1.isOk = true)
    (hreach : full.Reachable roots id) (hpresent : d.Present id) (hgone : ¬ pass.2.Present id) :
    ¬ FailsSafe full roots d pass := by
  intro h
  rcases h with ⟨e, he⟩ | hsafe
  · rw [he] at hok
    cases hok
  · exact hgone (hsafe id hreach hpresent)

/-- The tag cannot be read and is passed over, the pass ends well, and what the tag names is
gone. -/
theorem unreadable_tag_loses_object :
    (tornView tagView (.fill 1)).FaultyOf tagView ∧
    (let g := tagGc (tornView tagView (.fill 1))
     ¬ FailsSafe tagView (g.roots [] tagNode) tagFiles (g.runAt [] tagNode tagFiles)) ∧
    (let c := tagCollector (tornView tagView (.fill 1))
     c.roots (tagShards _) = some [.fill 1] ∧
       ¬ FailsSafe tagView [.fill 1] tagFiles (c.run (tagShards _) tagFiles)) := by
  refine ⟨tornView_faultyOf _ _, ?_, by decide +kernel, ?_⟩
  · dsimp only
    exact not_failsSafe (by decide +kernel) tagView_reachable (by decide) (by decide +kernel)
  · exact not_failsSafe (by decide +kernel) tagView_reachable (by decide) (by decide +kernel)

/-- With all reads a pass on the same node keeps both objects. -/
theorem readable_tag_keeps_object :
    (let g := tagGc tagView
     FailsSafe tagView (g.roots [] tagNode) tagFiles (g.runAt [] tagNode tagFiles)) ∧
    (tagCollector tagView).roots (tagShards tagView) = some [.fill 1] ∧
    FailsSafe tagView [.fill 1] tagFiles ((tagCollector tagView).run (tagShards tagView)
      tagFiles) := by
  have hfinds : ∀ roots, tagView.FindsAll tagView roots 0 0 tagFiles := by
    intro roots id hreach _ _ _
    obtain ⟨root, hroot, hpath⟩ := hreach
    exact ⟨root, hroot, id, hpath, .refl⟩
  have hroots : (tagCollector tagView).roots (tagShards tagView) = some [.fill 1] := by
    decide +kernel
  obtain ⟨hsingle, hcluster⟩ := collection_fails_safe_iff tagView tagFiles
  refine ⟨(hsingle (tagGc tagView) [] tagNode).mpr (Or.inr (hfinds _)), hroots, ?_⟩
  exact (hcluster (tagCollector tagView) (tagShards tagView) _ hroots).mpr (Or.inr (hfinds _))

end Ledge.Cluster
