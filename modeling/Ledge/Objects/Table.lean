import Ledge.Objects.Graph
import Ledge.Objects.Sweep

/-!
# Ledge.Objects.Table

A store whose reads do not fail: what an object holds is fixed, and a read of it succeeds exactly if
its file is there, and those of its delta bases.

`Complete` says that an object and **everything reachable from it** can be read. It is stated over
the objects, and not over what a walk finds: a walk passes over names that it cannot resolve. The
commit of a submodule is in another repository, and is not asked for.
-/

namespace Ledge.Objects

open Ledge.Core List

/-- `MAX_CHAIN` -/
def maxChain : Nat := 50

namespace Disk

/-- There is a loose file. -/
def IsLoose (d : Disk) (id : ObjectId) : Prop := id ∈ d.loose.map Prod.fst

instance (d : Disk) (id : ObjectId) : Decidable (d.IsLoose id) :=
  inferInstanceAs (Decidable (_ ∈ _))

/-- `exists` -/
def Present (d : Disk) (id : ObjectId) : Prop := d.IsLoose id ∨ id ∈ d.packed

instance (d : Disk) (id : ObjectId) : Decidable (d.Present id) :=
  inferInstanceAs (Decidable (_ ∨ _))

end Disk

/-- The objects of a store, as they are when it is read. A loose file and a packed copy of the same
object may be deltas against different bases. SHA-1 does not collide on the known objects. -/
structure ObjectTable where
  known : List ObjectId
  content : ObjectId → List UInt8
  gitType : ObjectId → UInt8
  sha1 : ObjectId → Sha1
  looseBase : ObjectId → Option ObjectId
  packBase : ObjectId → Option ObjectId
  sha1_inj : ∀ a ∈ known, ∀ b ∈ known, sha1 a = sha1 b → a = b

namespace ObjectTable

variable (t : ObjectTable)

/-- Whether `read_depth` succeeds with this many links still allowed. A pack holds the bases of its
own deltas. -/
def readable (d : Disk) (links : Nat) (id : ObjectId) : Bool :=
  if d.IsLoose id then
    match t.looseBase id, links with
    | none, _ => true
    | some _, 0 => false
    | some base, links + 1 => readable d links base
  else id ∈ d.packed

/-- `read` -/
def read (d : Disk) (id : ObjectId) : Except LedgeError (List UInt8) :=
  if t.readable d maxChain id then .ok (t.content id) else .error (.notFound id)

/-- `git_type_of` -/
def gitTypeOf (d : Disk) (id : ObjectId) : Except LedgeError UInt8 :=
  if d.Present id then .ok (t.gitType id) else .error (.notFound id)

/-- `delta_base_of` -/
def deltaBaseOf (d : Disk) (id : ObjectId) : Option ObjectId :=
  if d.IsLoose id then t.looseBase id else if id ∈ d.packed then t.packBase id else none

/-- The map that `sha1_index` builds: the packs come last, and later entries win. -/
def buildIndex (d : Disk) : List (Sha1 × ObjectId) :=
  (d.packed ++ d.loose.map Prod.fst).map (fun id => (t.sha1 id, id))

/-- What a walk reads, with the index that is cached. -/
def view (index : List (Sha1 × ObjectId)) (d : Disk) : StoreView where
  sha1Index := .ok index
  read := t.read d
  gitTypeOf := t.gitTypeOf d
  deltaBaseOf := fun id => .ok (t.deltaBaseOf d id)
  deltas := d.listAllIds
  mem_deltas := by
    intro id base h
    have hbase : t.deltaBaseOf d id = some base := Except.ok.inj h
    rw [Disk.listAllIds, mem_dedup, mem_append]
    unfold deltaBaseOf at hbase
    split_ifs at hbase with hloose hpacked
    · exact Or.inl hloose
    · exact Or.inr hpacked

/-- `id` names the stored object `child`, as one of its own repository. -/
def Edge (d : Disk) (id child : ObjectId) : Prop :=
  d.Present child ∧ t.sha1 child ∈ referencedSha1s (t.gitType id) (t.content id)

/-- All that is reachable from an object can be read, and whatever that names is stored. -/
def Complete (d : Disk) (x : ObjectId) : Prop :=
  ∀ id, Relation.ReflTransGen (t.Edge d) x id → t.readable d maxChain id = true ∧
    ∀ sha1 ∈ referencedSha1s (t.gitType id) (t.content id),
      ∃ child, d.Present child ∧ t.sha1 child = sha1

/-- The cached index has all stored objects, and otherwise known ones. -/
structure Indexes (index : List (Sha1 × ObjectId)) (d : Disk) : Prop where
  present : ∀ id, d.Present id → (t.sha1 id, id) ∈ index
  known : ∀ x ∈ index, x.2 ∈ t.known ∧ x.1 = t.sha1 x.2

/-- `id` names `child`, an object of the same repository. -/
def Refers (id child : ObjectId) : Prop :=
  child ∈ t.known ∧ t.sha1 child ∈ referencedSha1s (t.gitType id) (t.content id)

/-- `id` is reachable from `x`. -/
def Leads : ObjectId → ObjectId → Prop := Relation.ReflTransGen t.Refers

/-- Everything that is reachable from `x` is in the store. -/
def Closed (d : Disk) (x : ObjectId) : Prop := ∀ id, t.Leads x id → d.Present id

/-- The names are those of known objects. -/
def Resolves (names : List (Sha1 × ObjectId)) : Prop :=
  ∀ x ∈ names, x.2 ∈ t.known ∧ x.1 = t.sha1 x.2

/-- What a walk sees of the store: every object that is stored when it begins can be read and is in
the index. It may see more, since objects are written meanwhile; it reads each of them once. -/
structure Sees (view : StoreView) (d : Disk) : Prop where
  index : ∀ index, view.sha1Index = .ok index → t.Indexes index d
  read : ∀ id, d.Present id → view.read id = .ok (t.content id)
  gitTypeOf : ∀ id, d.Present id → view.gitTypeOf id = .ok (t.gitType id)

variable {t} {d d' : Disk} {index : List (Sha1 × ObjectId)} {id child x : ObjectId}

theorem present_of_readable {links : Nat} (h : t.readable d links id = true) : d.Present id := by
  unfold readable at h
  split_ifs at h with hloose
  · exact Or.inl hloose
  · exact Or.inr (of_decide_eq_true h)

theorem Indexes.buildIndex (h : ∀ id, d.Present id → id ∈ t.known) :
    t.Indexes (t.buildIndex d) d := by
  have hmem : ∀ id, id ∈ d.packed ++ d.loose.map Prod.fst ↔ d.Present id := fun id => by
    rw [mem_append, or_comm]
    rfl
  refine ⟨fun id hid => mem_map_of_mem ((hmem id).mpr hid), fun x hx => ?_⟩
  obtain ⟨id, hid, rfl⟩ := mem_map.mp hx
  exact ⟨h id ((hmem id).mp hid), rfl⟩

theorem Indexes.find? (h : t.Indexes index d) (hid : d.Present id) :
    (index.find? (fun x => x.1 = t.sha1 id)).map Prod.snd = some id := by
  have hmem := h.present id hid
  cases hfind : index.find? (fun x => x.1 = t.sha1 id) with
  | none =>
    have hnot := find?_eq_none.mp hfind _ hmem
    exact absurd (decide_eq_true rfl) hnot
  | some y =>
    obtain ⟨hknown, hsha1⟩ := h.known y (mem_of_find?_eq_some hfind)
    have hname : y.1 = t.sha1 id := by simpa using find?_some hfind
    have hsame := t.sha1_inj y.2 hknown id (h.known _ hmem).1 (hsha1.symm.trans hname)
    rw [Option.map_some, hsame]

/-- A walk finds what a readable object names; it follows submodules too. -/
theorem child_of_edge (h : t.Indexes index d) (hread : t.readable d maxChain id = true)
    (hedge : t.Edge d id child) : (t.view index d).Child id child := by
  refine ⟨index, rfl, ?_⟩
  have hcontent : (t.view index d).read id = .ok (t.content id) := if_pos hread
  have htype : (t.view index d).gitTypeOf id = .ok (t.gitType id) :=
    if_pos (present_of_readable hread)
  unfold StoreView.children
  rw [hcontent, htype]
  exact mem_filterMap.mpr
    ⟨t.sha1 child, referencedSha1s_subset _ _ hedge.2, h.find? hedge.1⟩

theorem Complete.walk (hcomplete : t.Complete d x) (h : t.Indexes index d)
    (hreach : Relation.ReflTransGen (t.Edge d) x id) :
    Relation.ReflTransGen (t.view index d).Child x id := by
  induction hreach with
  | refl => exact .refl
  | tail hreach hedge ih => exact ih.tail (child_of_edge h (hcomplete _ hreach).1 hedge)

/-- An object stays readable as long as its file and those of its bases stay. -/
theorem readable_of_kept {links : Nat} (hpacked : d'.packed = d.packed)
    (hsub : ∀ a, d'.IsLoose a → d.IsLoose a)
    (hkept : ∀ a, Relation.ReflTransGen (t.view index d).Base id a → d.IsLoose a → d'.IsLoose a)
    (h : t.readable d links id = true) : t.readable d' links id = true := by
  fun_induction t.readable d links id with
  | case1 links id hloose hbase =>
    unfold readable
    rw [if_pos (hkept id .refl hloose), hbase]
  | case2 id hloose base hbase => cases h
  | case3 id hloose base links hbase ih =>
    unfold readable
    rw [if_pos (hkept id .refl hloose), hbase]
    refine ih (fun a ha => hkept a (ha.head ?_)) h
    show Except.ok (t.deltaBaseOf d id) = .ok (some base)
    rw [deltaBaseOf, if_pos hloose, hbase]
  | case4 links id hloose =>
    unfold readable
    rw [if_neg (fun hl => hloose (hsub id hl)), hpacked]
    exact h

/-- **A complete object stays complete** when only loose files go, and none that it needs. -/
theorem Complete.of_kept (hcomplete : t.Complete d x) (h : t.Indexes index d)
    (hpacked : d'.packed = d.packed) (hsub : ∀ a, d'.IsLoose a → d.IsLoose a)
    (hkept : ∀ a, (t.view index d).Needs x a → d.IsLoose a → d'.IsLoose a) : t.Complete d' x := by
  have hpresent : ∀ a, d'.Present a → d.Present a := fun a ha =>
    ha.imp (hsub a) fun hp => hpacked ▸ hp
  have hedge : t.Edge d' ≤ t.Edge d := fun a b hab => ⟨hpresent b hab.1, hab.2⟩
  intro id hreach'
  have hreach : Relation.ReflTransGen (t.Edge d) x id :=
    Relation.ReflTransGen.mono hedge x id hreach'
  obtain ⟨hread, hnamed⟩ := hcomplete id hreach
  have hchild := hcomplete.walk h hreach
  refine ⟨readable_of_kept hpacked hsub (fun a ha => hkept a ⟨id, hchild, ha⟩) hread, ?_⟩
  intro sha1 hsha1
  obtain ⟨c, hc, rfl⟩ := hnamed sha1 hsha1
  have hneeds : (t.view index d).Needs x c :=
    ⟨c, hcomplete.walk h (hreach.tail ⟨hc, hsha1⟩), .refl⟩
  exact ⟨c, hc.imp (hkept c hneeds) fun hp => hpacked ▸ hp, rfl⟩

theorem Indexes.of_sub (h : t.Indexes index d) (hpacked : d'.packed = d.packed)
    (hsub : ∀ a, d'.IsLoose a → d.IsLoose a) : t.Indexes index d' :=
  ⟨fun id hid => h.present id (hid.imp (hsub id) fun hp => hpacked ▸ hp), h.known⟩

end ObjectTable

/-! ### Marks of what a table holds -/

namespace ObjectTable

variable {t : ObjectTable} {view : StoreView} {d : Disk} {x id : ObjectId}

theorem Sees.child (h : t.Sees view d) {index : List (Sha1 × ObjectId)}
    (hindex : view.sha1Index = .ok index) {child : ObjectId} (hid : d.Present id)
    (hchild : d.Present child) (hrefers : t.Refers id child) : view.Child id child := by
  refine ⟨index, hindex, ?_⟩
  unfold StoreView.children
  rw [h.read id hid, h.gitTypeOf id hid]
  refine List.mem_filterMap.mpr ⟨t.sha1 child, ?_, (h.index index hindex).find? hchild⟩
  exact referencedSha1s_subset _ _ hrefers.2

/-- `x` leads to `id` by way of objects that are in the store. -/
def LeadsWithin (t : ObjectTable) (d : Disk) : ObjectId → ObjectId → Prop :=
  Relation.ReflTransGen (fun id child => d.Present id ∧ d.Present child ∧ t.Refers id child)

theorem Closed.leadsWithin (hclosed : t.Closed d x) (hleads : t.Leads x id) :
    t.LeadsWithin d x id := by
  induction hleads with
  | refl => exact .refl
  | tail hpath hrefers ih =>
    exact ih.tail ⟨hclosed _ hpath, hclosed _ (hpath.tail hrefers), hrefers⟩

variable {roots keep : List ObjectId}

/-- **The mark** keeps all that a root leads to within the store. -/
theorem Sees.mem_mark_within (h : t.Sees view d) (hmark : view.mark roots = .ok keep)
    (hroot : x ∈ roots) (hleads : t.LeadsWithin d x id) : id ∈ keep := by
  obtain ⟨index, hindex⟩ : ∃ index, view.sha1Index = .ok index := by
    cases hindex : view.sha1Index with
    | ok index => exact ⟨index, rfl⟩
    | error e =>
      have hne : roots ≠ [] := List.ne_nil_of_mem hroot
      rw [StoreView.mark, StoreView.reachableFrom, if_neg hne, hindex] at hmark
      cases hmark
  refine (StoreView.mem_mark hmark).mpr ⟨x, hroot, id, ?_, .refl⟩
  induction hleads with
  | refl => exact .refl
  | tail _ hedge ih =>
    obtain ⟨hid, hchild, hrefers⟩ := hedge
    exact ih.tail (h.child hindex hid hchild hrefers)

theorem Sees.mem_mark (h : t.Sees view d) (hmark : view.mark roots = .ok keep) (hroot : x ∈ roots)
    (hclosed : t.Closed d x) (hleads : t.Leads x id) : id ∈ keep :=
  h.mem_mark_within hmark hroot (hclosed.leadsWithin hleads)

end ObjectTable

end Ledge.Objects
