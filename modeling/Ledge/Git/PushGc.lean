import Ledge.Git.Closures
import Ledge.Workspace.GcSafe

/-!
# Ledge.Git.PushGc

**A push while a collection runs**, in every interleaving of their accesses.

The grace period fences the objects that the push writes. It does nothing for those that the push
finds in the store: an old object that no ref leads to may be found by the check and swept after it
(`relied_object_swept`). Nor does it help an object that is written again between the look at its
age and its deletion. `Careful` excludes these steps. In the runs that are left, the refs that are
reported `ok` are at complete objects (`reported_refs_complete`).
-/

namespace Ledge.Git

open Ledge.Core Ledge.RefStore Ledge.Objects Ledge.Workspace List

/-- The stores of a node, a pass and a push. -/
structure PushGcSys where
  node : Node
  disk : Disk
  pass : GcPass
  pusher : Pusher

inductive PushGcEvent
  /-- An access of the push, at a time. -/
  | push (env : PushEnv) (nowUnixSecs : Nat)
  /-- An access of the pass, with the order in which the leases are iterated and what its walk
  sees. -/
  | turn (order : List Lease) (view : StoreView)

/-- The access changes a ref. -/
def PushPc.moving : PushPc → Bool
  | .updating .. | .deleting .. => true
  | _ => false

namespace PushGcSys

variable (P : Primitives) (r : PushRequest) (t : ObjectTable) (g : Gc)

/-- One access of `handle_receive_pack` or of `run_at`. -/
def step (s : PushGcSys) : PushGcEvent → PushGcSys
  | .push env nowUnixSecs =>
    let (refs, pusher) := s.pusher.step P r env s.node.refs
    { s with
      node := { s.node with refs := refs }
      disk := s.pusher.pc.store P nowUnixSecs s.disk
      pusher := pusher }
  | .turn order view =>
    let (disk, pass) := ({ g with view := fun _ => view } : Gc).turn order s.node s.disk s.pass
    { s with disk := disk, pass := pass }

/-! ### What the pass spares -/

/-- The candidates that the pass has still to look at. -/
def Candidate (s : PushGcSys) (id : ObjectId) : Prop :=
  match s.pass with
  | .idle => True
  | .frozen candidates | .listed candidates _ | .workspaces candidates _ _ | .sweep candidates _ =>
    id ∈ candidates
  | .doomed _ todo _ => id ∈ todo
  | .ended => False

/-- The pass has made up its mind to delete the file. -/
def Doomed (s : PushGcSys) (id : ObjectId) : Prop :=
  match s.pass with
  | .doomed id' _ _ => id = id'
  | _ => False

/-- Neither the roots nor the mark are needed to keep the object: it is in a pack, or it is no
candidate or too young. -/
def Fenced (s : PushGcSys) (id : ObjectId) : Prop :=
  id ∈ s.disk.packed ∨
    ¬ s.Doomed id ∧ (s.disk.Old g.nowUnixSecs g.grace id → ¬ s.Candidate id)

/-- The pass has the root, or will list it. -/
def Rooted (s : PushGcSys) (x : ObjectId) : Prop :=
  match s.pass with
  | .idle | .frozen _ => s.node.Holds g.nowMs x
  | .listed _ roots => x ∈ roots ∨
      ∃ id n, s.node.Live g.nowMs id ∧ InWorkspace id n ∧ s.node.PointsAt n x
  | .workspaces _ todo roots => x ∈ roots ∨
      ∃ l ∈ todo, ∃ n, InWorkspace l.id n ∧ s.node.PointsAt n x
  | .sweep _ _ | .doomed _ _ _ | .ended => False

/-- The pass keeps the object, or will find it from a root. -/
def Found (s : PushGcSys) (id : ObjectId) : Prop :=
  match s.pass with
  | .idle | .frozen _ | .listed _ _ | .workspaces _ _ _ =>
    ∃ x, s.Rooted g x ∧ t.Closed s.disk x ∧ t.Leads x id
  | .sweep _ keep => id ∈ keep
  | .doomed id' _ keep => id ≠ id' ∧ id ∈ keep
  | .ended => True

/-- The pass will not delete the object. -/
def Spared (s : PushGcSys) (id : ObjectId) : Prop := s.Fenced g id ∨ s.Found t g id

/-- What is stored stays stored. -/
def Kept (s : PushGcSys) (id : ObjectId) : Prop :=
  s.disk.Present id ∧ (s.pass ≠ .idle → s.Spared t g id)

/-! ### Steps -/

/-- The maps name known objects, times do not run backwards, and the walk sees what is stored. -/
def Legal (s : PushGcSys) : PushGcEvent → Prop
  | .push env nowUnixSecs => t.Resolves env.index ∧ (s.pass ≠ .idle → g.nowUnixSecs ≤ nowUnixSecs)
  | .turn order view => s.node.leases.index.Lists order ∧ (s.pass.marks = true → t.Sees view s.disk)

/-- What the push must not do, and when the pass may begin:
* an object is not written while the pass is about to delete its file;
* what the push takes from the store is complete and spared, and stays so when the push moves a ref;
* if the pass begins during the push, the objects written so far are fenced and those taken are
  spared; if it begins later, the refs that were reported `ok` are roots. -/
def Careful (s : PushGcSys) : PushGcEvent → Prop
  | .push env nowUnixSecs =>
    (∀ w, s.pusher.pc.writes = some w → s.Doomed (P.blake3 w.content) →
      P.blake3 w.content ∈ s.disk.packed) ∧
    (∀ x ∈ s.pusher.pc.takes env, ∀ id, t.Leads x id → s.Kept t g id) ∧
    (s.pusher.pc.moving = true → s.pass ≠ .idle → ∀ x ∈ s.pusher.relied, ∀ id, t.Leads x id →
      (s.step P r g (.push env nowUnixSecs)).Spared t g id)
  | .turn _ _ => s.pass = .idle →
      (s.pusher.pc.ended = false →
        (∀ id ∈ s.pusher.written, s.Fenced g id) ∧
        ∀ x ∈ s.pusher.relied, ∀ id, t.Leads x id → s.Spared t g id) ∧
      ∀ report, s.pusher.pc = .reported report → ∀ line ∈ report, line.refusal = none →
        ∀ name, RefName.new (storeRef line.refName r.segment) = .ok name →
          Durable name ∨ ∃ id, s.node.Live g.nowMs id ∧ InWorkspace id name

/-- The runs of careful steps. -/
inductive CarefulRun (s₀ : PushGcSys) : PushGcSys → Prop
  | start : CarefulRun s₀ s₀
  | step {s : PushGcSys} (h : CarefulRun s₀ s) (e : PushGcEvent) (hlegal : s.Legal t g e)
      (hcareful : s.Careful P r t g e) : CarefulRun s₀ (s.step P r g e)

variable {P r t g} {s : PushGcSys} {id : ObjectId}

/-! ### The pass -/

section

variable {order : List Lease} {view : StoreView}

variable (P r g order view) in
/-- What one access of the pass does to the files: none is touched, and a file that is doomed now
was a candidate and old; or the file that was doomed before goes. -/
theorem files_turn (s : PushGcSys) : let s' := s.step P r g (.turn order view)
    (∀ id, s'.Candidate id → s.Candidate id) ∧
    ((s'.disk = s.disk ∧
        ∀ id, s'.Doomed id → s.Candidate id ∧ s.disk.Old g.nowUnixSecs g.grace id) ∨
      ∃ id', s.Doomed id' ∧ s'.disk = s.disk.delete id' ∧ ∀ id, ¬ s'.Doomed id) := by
  obtain ⟨node, disk, pass, pusher⟩ := s
  cases pass with
  | idle => exact ⟨fun _ _ => trivial, Or.inl ⟨rfl, fun _ hdoomed => hdoomed.elim⟩⟩
  | frozen candidates | listed candidates roots =>
    exact ⟨fun _ hid => hid, Or.inl ⟨rfl, fun _ hdoomed => hdoomed.elim⟩⟩
  | ended => exact ⟨fun _ hid => hid, Or.inl ⟨rfl, fun _ hdoomed => hdoomed.elim⟩⟩
  | workspaces candidates todo roots =>
    cases todo with
    | cons lease todo => exact ⟨fun _ hid => hid, Or.inl ⟨rfl, fun _ hdoomed => hdoomed.elim⟩⟩
    | nil =>
      cases hmark : view.mark roots with
      | error e =>
        simp only [step, Gc.turn, hmark]
        exact ⟨fun _ hid => hid.elim, Or.inl ⟨trivial, fun _ hdoomed => hdoomed.elim⟩⟩
      | ok keep =>
        simp only [step, Gc.turn, hmark]
        exact ⟨fun _ hid => hid, Or.inl ⟨trivial, fun _ hdoomed => hdoomed.elim⟩⟩
  | sweep todo keep =>
    cases todo with
    | nil => exact ⟨fun _ hid => hid.elim, Or.inl ⟨rfl, fun _ hdoomed => hdoomed.elim⟩⟩
    | cons id' todo =>
      have hless : ∀ id, id ∈ todo → id ∈ id' :: todo := fun id => mem_cons_of_mem id'
      simp only [step, Gc.turn]
      split_ifs
      · exact ⟨hless, Or.inl ⟨rfl, fun _ hdoomed => hdoomed.elim⟩⟩
      · split
        · exact ⟨hless, Or.inl ⟨rfl, fun _ hdoomed => hdoomed.elim⟩⟩
        · rename_i mtime hmtime
          split_ifs with hyoung
          · exact ⟨hless, Or.inl ⟨rfl, fun _ hdoomed => hdoomed.elim⟩⟩
          · refine ⟨hless, Or.inl ⟨rfl, fun id hdoomed => ?_⟩⟩
            obtain rfl : id = id' := hdoomed
            exact ⟨mem_cons_self, mtime, hmtime, Nat.le_of_not_lt hyoung⟩
  | doomed id' todo keep =>
    exact ⟨fun _ hid => hid, Or.inr ⟨id', rfl, rfl, fun _ hdoomed => hdoomed.elim⟩⟩

variable {id' : ObjectId}

theorem ne_of_doomed (h : ¬ s.Doomed id) (h' : s.Doomed id') : id ≠ id' := by
  intro heq
  exact h (heq ▸ h')

theorem Fenced.turn (h : s.Fenced g id) : (s.step P r g (.turn order view)).Fenced g id := by
  obtain ⟨hless, hfiles⟩ := files_turn P r g order view s
  rcases hfiles with ⟨hdisk, hdoomed⟩ | ⟨id', hdoomed, hdisk, hnone⟩
  · unfold Fenced at h ⊢
    rw [hdisk]
    refine h.imp_right fun hfence => ⟨fun hid => ?_, fun hold hid => hfence.2 hold (hless id hid)⟩
    obtain ⟨hcandidate, hold⟩ := hdoomed id hid
    exact hfence.2 hold hcandidate
  · unfold Fenced at h ⊢
    rw [hdisk]
    refine h.imp_right fun hfence => ⟨hnone id, fun hold hid => ?_⟩
    rw [Disk.Old, Disk.mtime_delete (ne_of_doomed hfence.1 hdoomed)] at hold
    exact hfence.2 hold (hless id hid)

theorem Spared.present_turn (h : s.Spared t g id) (hid : s.disk.Present id) :
    (s.step P r g (.turn order view)).disk.Present id := by
  obtain ⟨-, ⟨hdisk, -⟩ | ⟨id', hdoomed, hdisk, -⟩⟩ := files_turn P r g order view s
  · rw [hdisk]
    exact hid
  · rw [hdisk]
    have hother : id ≠ id' → (s.disk.delete id').Present id := fun hne =>
      hid.imp_left fun hloose => Disk.isLoose_delete.mpr ⟨hloose, hne⟩
    rcases h with (hpacked | ⟨hfence, -⟩) | hfound
    · exact Or.inr hpacked
    · exact hother (ne_of_doomed hfence hdoomed)
    · obtain ⟨node, disk, pass, pusher⟩ := s
      cases pass with
      | doomed id'' todo keep =>
        obtain rfl : id' = id'' := hdoomed
        exact hother hfound.1
      | idle | frozen candidates | listed candidates roots | workspaces candidates leases roots
      | sweep todo keep | ended => exact hdoomed.elim

/-- The pass finds the roots that it is to list, and keeps what they lead to. -/
theorem Found.turn (hlegal : s.Legal t g (.turn order view)) (h : s.Found t g id) :
    (s.step P r g (.turn order view)).Found t g id := by
  obtain ⟨node, disk, pass, pusher⟩ := s
  obtain ⟨hlists, hsees⟩ := hlegal
  cases pass with
  | idle => exact h
  | frozen candidates =>
    obtain ⟨x, ⟨n, hpoints, hroot⟩, hclosed, hleads⟩ := h
    refine ⟨x, ?_, hclosed, hleads⟩
    rcases hroot with hdurable | ⟨id', hlive, hin⟩
    · obtain ⟨e, he, htarget⟩ := GcSys.mem_targets_of_pointsAt (refs_bytes n) hpoints
      exact Or.inl (mem_durableTargets.mpr ⟨n, e, he, hdurable, htarget⟩)
    · exact Or.inr ⟨id', n, hlive, hin, hpoints⟩
  | listed candidates roots =>
    obtain ⟨x, hroot | ⟨id', n, ⟨l, hl, hlive⟩, hin, hpoints⟩, hclosed, hleads⟩ := h
    · exact ⟨x, Or.inl hroot, hclosed, hleads⟩
    · obtain rfl : l.id = id' := LeaseIndex.id_of_lookup hl
      have hmem : l ∈ order := (hlists.mem l).mpr hl
      exact ⟨x, Or.inr ⟨l, mem_filter.mpr ⟨hmem, decide_eq_true hlive⟩, n, hin, hpoints⟩,
        hclosed, hleads⟩
  | workspaces candidates todo roots =>
    obtain ⟨x, hroot, hclosed, hleads⟩ := h
    cases todo with
    | nil =>
      have hmem : x ∈ roots := by
        rcases hroot with hroot | ⟨l, hl, -⟩
        · exact hroot
        · cases hl
      cases hmark : view.mark roots with
      | error e => simp only [step, Gc.turn, hmark, Found]
      | ok keep =>
        simp only [step, Gc.turn, hmark, Found]
        exact (hsees rfl).mem_mark hmark hmem hclosed hleads
    | cons lease todo =>
      refine ⟨x, ?_, hclosed, hleads⟩
      rcases hroot with hroot | ⟨l, hl, n, hin, hpoints⟩
      · exact Or.inl (mem_append_left _ hroot)
      · rcases mem_cons.mp hl with rfl | hl
        · obtain ⟨e, he, htarget⟩ := GcSys.mem_targets_of_pointsAt hin hpoints
          exact Or.inl (mem_append_right _ (mem_map.mpr ⟨(n, e), he, htarget⟩))
        · exact Or.inr ⟨l, hl, n, hin, hpoints⟩
  | sweep todo keep =>
    cases todo with
    | nil => trivial
    | cons id' todo =>
      simp only [step, Gc.turn]
      split_ifs with hkeep
      · exact h
      · split
        · exact h
        · split_ifs
          · exact h
          · exact ⟨fun heq => hkeep (heq ▸ h), h⟩
  | doomed id' todo keep => exact h.2
  | ended => trivial

/-- **What is spared stays so.** -/
theorem Spared.turn (hlegal : s.Legal t g (.turn order view)) (h : s.Spared t g id) :
    (s.step P r g (.turn order view)).Spared t g id :=
  h.imp Fenced.turn (Found.turn hlegal)

end

/-! ### The push -/

section

variable {env : PushEnv} {nowUnixSecs : Nat}

variable {pc : PushPc}

theorem packed_store {disk : Disk} : (pc.store P nowUnixSecs disk).packed = disk.packed := by
  unfold PushPc.store
  cases pc.writes <;> rfl

/-- A file that is written now is not old, and the others are as old as before. -/
theorem old_of_store {disk : Disk} {now grace : Nat} (hgrace : 0 < grace) (hnow : now ≤ nowUnixSecs)
    (h : (pc.store P nowUnixSecs disk).Old now grace id) :
    disk.Old now grace id ∧ ∀ w, pc.writes = some w → id ≠ P.blake3 w.content := by
  unfold PushPc.store at h
  cases hwrites : pc.writes with
  | none =>
    rw [hwrites] at h
    refine ⟨h, fun w hw => ?_⟩
    cases hw
  | some w =>
    rw [hwrites] at h
    obtain ⟨mtime, hmtime, hold⟩ := h
    rw [Disk.mtime_write] at hmtime
    split_ifs at hmtime with heq
    · cases hmtime
      omega
    · refine ⟨⟨mtime, hmtime, hold⟩, fun w' hw' => ?_⟩
      rwa [← Option.some.inj hw']

theorem Fenced.push (hgrace : 0 < g.grace) (hnow : g.nowUnixSecs ≤ nowUnixSecs)
    (h : s.Fenced g id) : (s.step P r g (.push env nowUnixSecs)).Fenced g id := by
  refine h.imp (fun hpacked => ?_) fun hfence => ⟨hfence.1, fun hold => hfence.2 ?_⟩
  · show id ∈ (s.pusher.pc.store P nowUnixSecs s.disk).packed
    rwa [packed_store]
  · exact (old_of_store hgrace hnow hold).1

theorem fenced_of_writes (hgrace : 0 < g.grace) (hnow : g.nowUnixSecs ≤ nowUnixSecs)
    {w : TypedWrite} (hw : s.pusher.pc.writes = some w)
    (hdoomed : s.Doomed (P.blake3 w.content) → P.blake3 w.content ∈ s.disk.packed) :
    (s.step P r g (.push env nowUnixSecs)).Fenced g (P.blake3 w.content) := by
  by_cases h : s.Doomed (P.blake3 w.content)
  · refine Or.inl ?_
    show _ ∈ (s.pusher.pc.store P nowUnixSecs s.disk).packed
    rw [packed_store]
    exact hdoomed h
  · refine Or.inr ⟨h, fun hold => ?_⟩
    exact absurd rfl ((old_of_store hgrace hnow hold).2 w hw)

theorem refs_of_not_moving {refs : Store} (h : pc.moving = false) :
    (pc.step P r env refs).1 = refs := by
  have haccess := PushPc.access_step P r env refs pc
  generalize (pc.step P r env refs).1 = refs' at haccess ⊢
  generalize (pc.step P r env refs).2 = pc' at haccess
  cases haccess with
  | updated | deleted => cases h
  | write | fail | missing | check | finish | refuse | delete | create | resolve | stale | update
  | notUpdated | notDeleted | reported | failed => rfl

theorem Found.push (hmoving : s.pusher.pc.moving = false) (h : s.Found t g id) :
    (s.step P r g (.push env nowUnixSecs)).Found t g id := by
  have hclosed : ∀ x, t.Closed s.disk x → t.Closed (s.pusher.pc.store P nowUnixSecs s.disk) x :=
    fun x hx id' hid => Repo.present_store.mpr (Or.inr (hx id' hid))
  have hstep : s.step P r g (.push env nowUnixSecs) = { s with
      disk := s.pusher.pc.store P nowUnixSecs s.disk
      pusher := (s.pusher.step P r env s.node.refs).2 } := by
    have hrefs : (s.pusher.step P r env s.node.refs).1 = s.node.refs := refs_of_not_moving hmoving
    simp only [step, hrefs]
  rw [hstep]
  obtain ⟨node, disk, pass, pusher⟩ := s
  cases pass with
  | idle | frozen candidates | listed candidates roots | workspaces candidates todo roots =>
    obtain ⟨x, hroot, hx, hleads⟩ := h
    exact ⟨x, hroot, hclosed x hx, hleads⟩
  | sweep todo keep | doomed id' todo keep | ended => exact h

/-- What is stored and spared stays so, if the push moves no ref. -/
theorem Kept.push (hgrace : 0 < g.grace) (hnow : s.pass ≠ .idle → g.nowUnixSecs ≤ nowUnixSecs)
    (hmoving : s.pusher.pc.moving = false) (h : s.Kept t g id) :
    (s.step P r g (.push env nowUnixSecs)).Kept t g id := by
  refine ⟨Repo.present_store.mpr (Or.inr h.1), fun hpass => ?_⟩
  exact (h.2 hpass).imp (Fenced.push hgrace (hnow hpass)) (Found.push hmoving)

end

/-! ### Whole runs -/

variable (P r t g) in
/-- What holds in every state: `refs₀` are the refs before the push. -/
structure Inv (refs₀ : Store) (s : PushGcSys) : Prop where
  sound : s.pusher.Sound P r t refs₀ s.node.refs
  written : s.pusher.pc.ended = false → ∀ id ∈ s.pusher.written,
    s.disk.Present id ∧ (s.pass ≠ .idle → s.Fenced g id)
  relied : s.pusher.pc.ended = false → ∀ x ∈ s.pusher.relied, ∀ id, t.Leads x id → s.Kept t g id
  reported : ∀ report, s.pusher.pc = .reported report → ∀ line ∈ report, line.refusal = none →
    ∀ name, RefName.new (storeRef line.refName r.segment) = .ok name →
      ∀ x, s.node.PointsAt name x → ∀ id, t.Leads x id → s.Kept t g id

variable {refs₀ : Store}

/-- **A step of the pass** keeps the invariant. -/
theorem Inv.turn (h : Inv P r t g refs₀ s) {order : List Lease} {view : StoreView}
    (hlegal : s.Legal t g (.turn order view)) (hcareful : s.Careful P r t g (.turn order view)) :
    Inv P r t g refs₀ (s.step P r g (.turn order view)) := by
  refine ⟨h.sound, fun hrunning id hid => ?_, fun hrunning x hx id hleads => ?_,
    fun report hreport line hline hok name hname x hx id hleads => ?_⟩
  · obtain ⟨hpresent, hfenced⟩ := h.written hrunning id hid
    have hfence : s.Fenced g id := by
      by_cases hidle : s.pass = .idle
      · exact ((hcareful hidle).1 hrunning).1 id hid
      · exact hfenced hidle
    exact ⟨Spared.present_turn (t := t) (Or.inl hfence) hpresent, fun _ => hfence.turn⟩
  · obtain ⟨hpresent, hspared⟩ := h.relied hrunning x hx id hleads
    have hspare : s.Spared t g id := by
      by_cases hidle : s.pass = .idle
      · exact ((hcareful hidle).1 hrunning).2 x hx id hleads
      · exact hspared hidle
    exact ⟨hspare.present_turn hpresent, fun _ => hspare.turn hlegal⟩
  · have hkept := h.reported report hreport line hline hok name hname x hx
    obtain ⟨hpresent, hspared⟩ := hkept id hleads
    have hspare : s.Spared t g id := by
      by_cases hidle : s.pass = .idle
      · -- the ref is a root
        have hroot := (hcareful hidle).2 report hreport line hline hok name hname
        have hfound : s.Found t g id := by
          unfold Found Rooted
          rw [hidle]
          exact ⟨x, ⟨name, hx, hroot⟩, fun id' hid' => (hkept id' hid').1, hleads⟩
        exact Or.inr hfound
      · exact hspared hidle
    exact ⟨hspare.present_turn hpresent, fun _ => hspare.turn hlegal⟩

variable {pc : PushPc} {env : PushEnv}

theorem step_of_ended {refs : Store} (h : pc.ended = true) : pc.step P r env refs = (refs, pc) := by
  cases pc with
  | reported report | failed => rfl
  | writing | commands | resolved | updating | deleting => cases h

theorem takes_of_moving (h : pc.moving = true) : pc.takes env = [] := by
  cases pc with
  | updating | deleting => rfl
  | writing | commands | resolved | reported | failed => cases h

theorem not_moving_of_ended (h : pc.ended = true) : pc.moving = false := by
  cases pc with
  | reported | failed => rfl
  | writing | commands | resolved | updating | deleting => cases h

/-- **A step of the push** keeps the invariant. -/
theorem Inv.push (h : Inv P r t g refs₀ s) (hgrace : 0 < g.grace) {nowUnixSecs : Nat}
    (hlegal : s.Legal t g (.push env nowUnixSecs))
    (hcareful : s.Careful P r t g (.push env nowUnixSecs)) :
    Inv P r t g refs₀ (s.step P r g (.push env nowUnixSecs)) := by
  obtain ⟨hindex, hnow⟩ := hlegal
  obtain ⟨hdoomed, htakes, hmoves⟩ := hcareful
  have hsound := h.sound.step hindex
  cases hended : s.pusher.pc.ended with
  | true =>
    -- nothing happens any more
    have hpc : (s.step P r g (.push env nowUnixSecs)).pusher.pc = s.pusher.pc :=
      congrArg Prod.snd (step_of_ended hended)
    have hrefs : (s.step P r g (.push env nowUnixSecs)).node.refs = s.node.refs :=
      congrArg Prod.fst (step_of_ended hended)
    refine ⟨hsound, fun hrunning => ?_, fun hrunning => ?_,
      fun report hreport line hline hok name hname x hx id hleads => ?_⟩
    · rw [hpc, hended] at hrunning
      cases hrunning
    · rw [hpc, hended] at hrunning
      cases hrunning
    · rw [hpc] at hreport
      rw [Node.PointsAt, hrefs] at hx
      exact (h.reported report hreport line hline hok name hname x hx id hleads).push hgrace hnow
        (not_moving_of_ended hended)
  | false =>
    have hwritten : ∀ id ∈ (s.step P r g (.push env nowUnixSecs)).pusher.written,
        (s.step P r g (.push env nowUnixSecs)).disk.Present id ∧
          (s.pass ≠ .idle → (s.step P r g (.push env nowUnixSecs)).Fenced g id) := by
      intro id hid
      rcases mem_append.mp hid with hid | hid
      · obtain ⟨hpresent, hfenced⟩ := h.written hended id hid
        exact ⟨Repo.present_store.mpr (Or.inr hpresent),
          fun hpass => (hfenced hpass).push hgrace (hnow hpass)⟩
      · obtain ⟨w, hw, rfl⟩ := Option.map_eq_some_iff.mp (Option.mem_toList.mp hid)
        exact ⟨Repo.present_store.mpr (Or.inl ⟨w, hw, rfl⟩),
          fun hpass => fenced_of_writes hgrace (hnow hpass) hw (hdoomed w hw)⟩
    have hrelied : ∀ x ∈ (s.step P r g (.push env nowUnixSecs)).pusher.relied,
        ∀ id, t.Leads x id → (s.step P r g (.push env nowUnixSecs)).Kept t g id := by
      intro x hx id hleads
      cases hmoving : s.pusher.pc.moving with
      | false =>
        refine Kept.push hgrace hnow hmoving ?_
        rcases mem_append.mp hx with hx | hx
        · exact h.relied hended x hx id hleads
        · exact htakes x hx id hleads
      | true =>
        rcases mem_append.mp hx with hx | hx
        · exact ⟨Repo.present_store.mpr (Or.inr (h.relied hended x hx id hleads).1),
            fun hpass => hmoves hmoving hpass x hx id hleads⟩
        · rw [takes_of_moving hmoving] at hx
          cases hx
    refine ⟨hsound, fun _ => hwritten, fun _ => hrelied,
      fun report hreport line hline hok name hname x hx id hleads => ?_⟩
    have hline' : line ∈ (s.step P r g (.push env nowUnixSecs)).pusher.pc.report := by
      rw [hreport]
      exact hline
    rcases hsound.reported line hline' hok name hname x hx id hleads with hw | ⟨y, hy, hyid⟩
    · obtain ⟨hpresent, hfenced⟩ := hwritten id hw
      exact ⟨hpresent, fun hpass => Or.inl (hfenced hpass)⟩
    · exact hrelied y hy id hyid

/-- **A push beside a collection.** The push has not begun in `s₀`, and the grace period is at least
a second. At every point of a run of careful steps, at its end too: a ref that the push has reported
`ok` is at an object whose closure is in the store. -/
theorem reported_refs_complete {s₀ : PushGcSys} (hstart : s₀.pusher = r.pusher)
    (hobjects : ∀ w ∈ r.objects, t.Has P w) (hgrace : 0 < g.grace)
    (hrun : CarefulRun P r t g s₀ s) {report : List ReportLine}
    (hreport : s.pusher.pc = .reported report) {line : ReportLine} (hline : line ∈ report)
    (hok : line.refusal = none) {name : RefName}
    (hname : RefName.new (storeRef line.refName r.segment) = .ok name) {x : ObjectId}
    (hx : s.node.PointsAt name x) : t.Closed s.disk x := by
  have hinv : Inv P r t g s₀.node.refs s := by
    clear hx hreport
    induction hrun with
    | start =>
      refine ⟨?_, fun _ id hid => ?_, fun _ x hx => ?_, fun report hreport => ?_⟩
      · rw [hstart]
        exact Pusher.sound_start hobjects
      · rw [hstart] at hid
        cases hid
      · rw [hstart] at hx
        cases hx
      · rw [hstart] at hreport
        cases hreport
    | step _ e hlegal hcareful ih =>
      cases e with
      | push env nowUnixSecs => exact ih.push hgrace hlegal hcareful
      | turn order view => exact ih.turn hlegal hcareful
  intro id hleads
  exact (hinv.reported report hreport line hline hok name hname x hx id hleads).1

variable (P r g) in
def exec (s : PushGcSys) (events : List PushGcEvent) : PushGcSys := events.foldl (step P r g) s

variable (P r t g) in
/-- The events of a run, each with what it finds. -/
def LegalRun (s : PushGcSys) : List PushGcEvent → Prop
  | [] => True
  | e :: events => s.Legal t g e ∧ LegalRun (s.step P r g e) events

end PushGcSys

/-! ### An old object that the push has not sent -/

/-- A collection at second 1000. -/
def minuteGc : Gc := ⟨1000, 300, fun _ => tagTable.view [] ⟨[], nodup_nil, []⟩⟩

/-- The blob is old, and nothing leads to it. -/
def oldBlob : Disk := ⟨[(.fill 218, 0)], by decide, []⟩

/-- Before a push into the store, and before the collection. -/
def beforePush (r : PushRequest) : PushGcSys := ⟨⟨.openOn [], .openOn []⟩, oldBlob, .idle, r.pusher⟩

/-- What the walk of the collection sees. -/
def blobView : StoreView := tagTable.view (tagTable.buildIndex oldBlob) oldBlob

theorem sees_blobView : tagTable.Sees blobView oldBlob := by
  have hknown : ∀ id, oldBlob.Present id → id ∈ tagTable.known := by
    rintro id (hid | hid)
    · obtain rfl := mem_singleton.mp hid
      decide
    · cases hid
  refine ⟨fun index hindex => ?_, fun id hid => ?_, fun id hid => if_pos hid⟩
  · cases hindex
    exact ObjectTable.Indexes.buildIndex hknown
  · refine if_pos ?_
    rcases hid with hid | hid
    · obtain rfl := mem_singleton.mp hid
      decide
    · cases hid

/-- Some accesses of the collection. -/
def gcTurns (n : Nat) : List PushGcEvent := replicate n (.turn [] blobView)

/-- An index with both objects. -/
def tagIndex : Names := [(.fill 184, .fill 48), (.fill 246, .fill 218)]

/-- Some accesses of the push. -/
def pushTurns (n : Nat) : List PushGcEvent := replicate n (.push ⟨tagIndex, 1⟩ 1000)

/-- The mark finds the store as it was. -/
def marksEarly (r : PushRequest) (s : PushGcSys) : List PushGcEvent → Bool
  | [] => true
  | e :: events =>
    (!s.pass.marks || (s.disk.loose = oldBlob.loose ∧ s.disk.packed = oldBlob.packed)) &&
      marksEarly r (s.step samplePrimitives r minuteGc e) events

theorem legalRun_of_marksEarly {r : PushRequest} {s : PushGcSys} {events : List PushGcEvent}
    (hleases : s.node.leases = .openOn [])
    (hevents : ∀ e ∈ events, e = .turn [] blobView ∨ e = .push ⟨tagIndex, 1⟩ 1000)
    (h : marksEarly r s events = true) : s.LegalRun samplePrimitives r tagTable minuteGc
      events := by
  induction events generalizing s with
  | nil => trivial
  | cons e events ih =>
    obtain ⟨hmark, hrest⟩ := Bool.and_eq_true_iff.mp h
    have hevents' : ∀ e' ∈ events, e' = .turn [] blobView ∨ e' = .push ⟨tagIndex, 1⟩ 1000 :=
      fun e' he' => hevents e' (mem_cons_of_mem e he')
    rcases hevents e mem_cons_self with rfl | rfl
    · refine ⟨⟨⟨nodup_nil, fun l => ?_⟩, fun hmarks => ?_⟩, ih hleases hevents' hrest⟩
      · rw [hleases]
        exact ⟨fun h => (not_mem_nil h).elim, nofun⟩
      · rw [hmarks, Bool.not_true] at hmark
        obtain ⟨hloose, hpacked⟩ := of_decide_eq_true hmark
        have hdisk : s.disk = oldBlob := by
          obtain ⟨node, ⟨loose, keyed, packed⟩, pass, pusher⟩ := s
          subst hloose hpacked
          rfl
        rw [hdisk]
        exact sees_blobView
    · refine ⟨⟨fun x hx => ?_, fun _ => Nat.le_refl 1000⟩, ih hleases hevents' hrest⟩
      rcases mem_pair.mp hx with rfl | rfl
      · decide
      · decide

/-- The push sends a tag of the old blob. The mark is over when it begins, the blob is in the index
when it looks for it, and is gone when both have ended. -/
theorem relied_object_swept :
    let events := gcTurns 4 ++ pushTurns 5 ++ gcTurns 3
    let s := (beforePush (pushTag [sampleTag])).exec samplePrimitives (pushTag [sampleTag]) minuteGc
      events
    tagTable.Has samplePrimitives sampleTag ∧
    (beforePush (pushTag [sampleTag])).LegalRun samplePrimitives (pushTag [sampleTag]) tagTable
      minuteGc events ∧
    s.pass = .ended ∧ s.pusher.pc = .reported [⟨"refs/heads/a", none⟩] ∧
    s.node.PointsAt .headsA (.fill 48) ∧ ¬ tagTable.Closed s.disk (.fill 48) := by
  refine ⟨tagTable_has_tag, ?_, by decide +kernel, by decide +kernel, by decide +kernel,
    fun hclosed => ?_⟩
  · exact legalRun_of_marksEarly rfl (by simp [gcTurns, pushTurns]) (by decide +kernel)
  · exact absurd (hclosed _ tagTable_leads) (by decide +kernel)

namespace PushGcSys

variable {P : Primitives} {r : PushRequest} {t : ObjectTable} {g : Gc} {s₀ s : PushGcSys}

variable (r) in
/-- The push takes nothing from the store, the pass begins before it, and the pass looks at no file
while the push goes on. -/
def plain (s : PushGcSys) : PushGcEvent → Bool
  | .push env _ => !s.pass.dooms && s.pusher.pc.takes env = [] && s.pusher.relied = []
  | .turn _ _ => s.pass ≠ .idle ||
      (s.pusher.pc = r.start && s.pusher.written = [] && s.pusher.relied = [])

variable (P r g) in
def plainRun (s : PushGcSys) : List PushGcEvent → Bool
  | [] => true
  | e :: events => s.plain r e && plainRun (s.step P r g e) events

theorem careful_of_plain {e : PushGcEvent} (h : s.plain r e = true) : s.Careful P r t g e := by
  cases e with
  | push env nowUnixSecs =>
    simp only [plain, Bool.and_eq_true, decide_eq_true_eq, Bool.not_eq_true'] at h
    obtain ⟨⟨hdooms, htakes⟩, hrelied⟩ := h
    refine ⟨fun w _ hid => ?_, fun x hx => ?_, fun _ _ x hx => ?_⟩
    · obtain ⟨node, disk, pass, pusher⟩ := s
      cases pass with
      | doomed => cases hdooms
      | idle | frozen | listed | workspaces | sweep | ended => exact hid.elim
    · rw [htakes] at hx
      cases hx
    · rw [hrelied] at hx
      cases hx
  | turn order view =>
    intro hidle
    simp only [plain, hidle, ne_eq, not_true_eq_false, decide_false, Bool.false_or,
      Bool.and_eq_true, decide_eq_true_eq] at h
    obtain ⟨⟨hpc, hwritten⟩, hrelied⟩ := h
    refine ⟨fun _ => ⟨fun id hid => ?_, fun x hx => ?_⟩, fun report hreport => ?_⟩
    · rw [hwritten] at hid
      cases hid
    · rw [hrelied] at hx
      cases hx
    · rw [hpc] at hreport
      cases hreport

theorem CarefulRun.exec {events : List PushGcEvent} (h : CarefulRun P r t g s₀ s)
    (hlegal : s.LegalRun P r t g events) (hplain : s.plainRun P r g events = true) :
    CarefulRun P r t g s₀ (s.exec P r g events) := by
  induction events generalizing s with
  | nil => exact h
  | cons e events ih =>
    obtain ⟨hfirst, hrest⟩ := Bool.and_eq_true_iff.mp hplain
    exact ih (h.step e hlegal.1 (careful_of_plain hfirst)) hlegal.2 hrest

end PushGcSys

/-- The push sends the blob as well. The collection has taken it for garbage before, but its new
file is young. -/
theorem sent_object_survives :
    let r := pushTag [sampleTag, sampleBlob]
    let s := (beforePush r).exec samplePrimitives r minuteGc (gcTurns 4 ++ pushTurns 6 ++ gcTurns 2)
    s.pass = .ended ∧ s.pusher.pc = .reported [⟨"refs/heads/a", none⟩] ∧
    s.node.PointsAt .headsA (.fill 48) ∧ tagTable.Closed s.disk (.fill 48) := by
  intro r s
  have hlegal : (beforePush r).LegalRun samplePrimitives r tagTable minuteGc
      (gcTurns 4 ++ pushTurns 6 ++ gcTurns 2) :=
    legalRun_of_marksEarly rfl (by simp [gcTurns, pushTurns]) (by decide +kernel)
  have hrun : PushGcSys.CarefulRun samplePrimitives r tagTable minuteGc (beforePush r) s :=
    PushGcSys.CarefulRun.start.exec hlegal (by decide +kernel)
  have hreport : s.pusher.pc = .reported [⟨"refs/heads/a", none⟩] := by decide +kernel
  have hpoints : s.node.PointsAt .headsA (.fill 48) := by decide +kernel
  refine ⟨by decide +kernel, hreport, hpoints, ?_⟩
  refine PushGcSys.reported_refs_complete rfl (fun w hw => ?_) (by decide) hrun hreport
    mem_cons_self rfl rfl hpoints
  rcases mem_pair.mp hw with rfl | rfl
  · exact tagTable_has_tag
  · exact tagTable_has_blob

end Ledge.Git
