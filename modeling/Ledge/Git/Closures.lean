import Ledge.Git.Connectivity

/-!
# Ledge.Git.Closures

Pushes **one after the other**, into a store that starts empty and from which nothing is deleted.

A refused push leaves its objects behind. The check of a later push takes them for complete, because
it is one step deep, and so a ref may end up at an object whose closure was never sent
(`refused_push_completes_nothing`). As long as a push takes only complete objects from the store,
every ref is at an object whose closure is there (`refs_name_closures`).
-/

namespace Ledge.Git

open Ledge.Core Ledge.RefStore Ledge.Objects Ledge.Workspace List

/-- What the next access of a call does to the object files. -/
def PushPc.store (P : Primitives) (nowUnixSecs : Nat) (disk : Disk) (pc : PushPc) : Disk :=
  match pc.writes with
  | none => disk
  | some w => disk.write (P.blake3 w.content) nowUnixSecs

/-- The call is over. -/
def PushPc.ended : PushPc → Bool
  | .reported _ | .failed => true
  | _ => false

/-- A store with the last request and how far it has got. -/
structure Repo where
  refs : Store
  disk : Disk
  request : PushRequest
  pusher : Pusher

inductive RepoEvent
  | request (r : PushRequest)
  | access (hlc nowUnixSecs : Nat)

/-- Nothing is stored, and there was no request. -/
def Repo.empty : Repo := ⟨.openOn [], ⟨[], nodup_nil, []⟩, ⟨[], [], ""⟩, ⟨.failed, [], []⟩⟩

namespace Repo

variable (P : Primitives) (t : ObjectTable)

/-- What an access finds: nobody else writes, so the index has what is stored. -/
def env (s : Repo) (hlc : Nat) : PushEnv := ⟨t.buildIndex s.disk, hlc⟩

/-- A new request, or one access of `handle_receive_pack`. -/
def step (s : Repo) : RepoEvent → Repo
  | .request r => { s with request := r, pusher := r.pusher }
  | .access hlc nowUnixSecs =>
    let (refs, pusher) := s.pusher.step P s.request (s.env t hlc) s.refs
    { s with refs := refs, disk := s.pusher.pc.store P nowUnixSecs s.disk, pusher := pusher }

/-- A request comes when the one before it is over. -/
def Legal (s : Repo) : RepoEvent → Prop
  | .request _ => s.pusher.pc.ended = true
  | .access _ _ => True

/-- The objects of a pack have the types that their contents have elsewhere, and what a push takes
from the store is complete. -/
def Careful (s : Repo) : RepoEvent → Prop
  | .request r => ∀ w ∈ r.objects, t.Has P w
  | .access hlc _ => ∀ x ∈ s.pusher.pc.takes (s.env t hlc), t.Closed s.disk x

/-- The runs of careful steps. -/
inductive CarefulRun (s₀ : Repo) : Repo → Prop
  | start : CarefulRun s₀ s₀
  | step {s : Repo} (h : CarefulRun s₀ s) (e : RepoEvent) (hlegal : s.Legal e)
      (hcareful : s.Careful P t e) : CarefulRun s₀ (s.step P t e)

/-! ### One step -/

/-- What holds in every state: `refs₀` are the refs before the request. -/
structure Inv (refs₀ : Store) (s : Repo) : Prop where
  known : ∀ x, s.disk.Present x → x ∈ t.known
  sound : s.pusher.Sound P s.request t refs₀ s.refs
  before : ∀ n x, Pusher.PointsAt refs₀ n x → t.Closed s.disk x
  written : ∀ x ∈ s.pusher.written, s.disk.Present x
  relied : ∀ x ∈ s.pusher.relied, t.Closed s.disk x

variable {P t} {refs₀ : Store} {s : Repo} {e : RepoEvent}

theorem Inv.closed (h : Inv P t refs₀ s) {n : RefName} {x : ObjectId}
    (hx : Pusher.PointsAt s.refs n x) : t.Closed s.disk x := by
  rcases h.sound.moved n x hx with hbefore | hwhole
  · exact h.before n x hbefore
  · intro id hid
    rcases hwhole id hid with hwritten | ⟨y, hy, hleads⟩
    · exact h.written id hwritten
    · exact h.relied y hy id hleads

theorem present_store {nowUnixSecs : Nat} {pc : PushPc} {disk : Disk} {x : ObjectId} :
    (pc.store P nowUnixSecs disk).Present x ↔
      (∃ w, pc.writes = some w ∧ x = P.blake3 w.content) ∨ disk.Present x := by
  unfold PushPc.store
  cases pc.writes with
  | none => simp
  | some w => simp [Disk.present_write]

theorem Inv.access (h : Inv P t refs₀ s) {hlc nowUnixSecs : Nat}
    (hcareful : s.Careful P t (.access hlc nowUnixSecs)) :
    Inv P t refs₀ (s.step P t (.access hlc nowUnixSecs)) := by
  have hindex : t.Resolves (s.env t hlc).index := (ObjectTable.Indexes.buildIndex h.known).known
  have hstays : ∀ x, s.disk.Present x → (s.pusher.pc.store P nowUnixSecs s.disk).Present x :=
    fun x hx => present_store.mpr (Or.inr hx)
  have hclosed : ∀ x, t.Closed s.disk x → t.Closed (s.pusher.pc.store P nowUnixSecs s.disk) x :=
    fun x hx id hid => hstays id (hx id hid)
  refine ⟨fun x hx => ?_, h.sound.step hindex, fun n x hx => hclosed x (h.before n x hx),
    fun x hx => ?_, fun x hx => ?_⟩
  · rcases present_store.mp hx with ⟨w, hw, rfl⟩ | hx
    · obtain ⟨todo, sent, referenced, typeName, hpc, -⟩ := PushPc.writing_of_writes hw
      exact ((h.sound.writing _ _ _ hpc).1 w mem_cons_self).known
    · exact h.known x hx
  · rcases mem_append.mp hx with hx | hx
    · exact hstays x (h.written x hx)
    · obtain ⟨w, hw, rfl⟩ := Option.map_eq_some_iff.mp (Option.mem_toList.mp hx)
      exact present_store.mpr (Or.inl ⟨w, hw, rfl⟩)
  · rcases mem_append.mp hx with hx | hx
    · exact hclosed x (h.relied x hx)
    · exact hclosed x (hcareful x hx)

theorem Inv.request (h : Inv P t refs₀ s) {r : PushRequest}
    (hcareful : s.Careful P t (.request r)) : Inv P t s.refs (s.step P t (.request r)) where
  known := h.known
  sound := Pusher.sound_start hcareful
  before _ _ hx := h.closed hx
  written := nofun
  relied := nofun

/-! ### Whole runs -/

theorem inv_empty : Inv P t (.openOn []) .empty where
  known _ hx := by
    rcases hx with hx | hx
    · cases hx
    · cases hx
  sound :=
    { sent := nofun
      resolves := nofun
      writing := nofun
      connected := nofun
      target := nofun
      ref := nofun
      moved := fun _ _ hx => Or.inl hx
      reported := nofun }
  before := nofun
  written := nofun
  relied := nofun

theorem exists_inv (hrun : CarefulRun P t .empty s) : ∃ refs₀, Inv P t refs₀ s := by
  induction hrun with
  | start => exact ⟨_, inv_empty⟩
  | step h e hlegal hcareful ih =>
    obtain ⟨refs₀, hinv⟩ := ih
    cases e with
    | request r => exact ⟨_, hinv.request hcareful⟩
    | access hlc nowUnixSecs => exact ⟨refs₀, hinv.access hcareful⟩

/-- **Refs name complete closures**, at every point of a run of careful steps from the empty
store. -/
theorem refs_name_closures (hrun : CarefulRun P t .empty s) {n : RefName} {x : ObjectId}
    (hx : Pusher.PointsAt s.refs n x) : t.Closed s.disk x := by
  obtain ⟨refs₀, hinv⟩ := exists_inv hrun
  exact hinv.closed hx

end Repo

/-! ### A tag and what it names -/

def sampleBlob : TypedWrite := ⟨3, [1]⟩

/-- An annotated tag of `sampleBlob`. -/
def sampleTag : TypedWrite := ⟨4, strBytes "object f6f6f6f6f6f6f6f6f6f6f6f6f6f6f6f6f6f6f6f6\n"⟩

def tagTable : ObjectTable where
  known := [.fill 48, .fill 218]
  content id := if id = .fill 48 then sampleTag.content else sampleBlob.content
  gitType id := if id = .fill 48 then 4 else 3
  sha1 id := if id = .fill 48 then .fill 184 else .fill 246
  looseBase _ := none
  packBase _ := none
  sha1_inj := by decide

theorem tagTable_has_tag : tagTable.Has samplePrimitives sampleTag where
  known := by decide +kernel
  content := by decide +kernel
  gitType := by decide +kernel
  sha1 typeName h := by
    obtain rfl : "tag" = typeName := Option.some.inj h
    decide +kernel

theorem tagTable_has_blob : tagTable.Has samplePrimitives sampleBlob where
  known := by decide +kernel
  content := by decide +kernel
  gitType := by decide +kernel
  sha1 typeName h := by
    obtain rfl : "blob" = typeName := Option.some.inj h
    decide +kernel

theorem tagTable_leads : tagTable.Leads (.fill 48) (.fill 218) :=
  .single ⟨by decide, by decide +kernel⟩

/-- Puts `refs/heads/a` at the tag, with these objects in the pack. -/
def pushTag (objects : List TypedWrite) : PushRequest :=
  ⟨[⟨nullSha1, .fill 184, "refs/heads/a"⟩], objects, ""⟩

/-- A push and its accesses. -/
def pushRun (r : PushRequest) (accesses : Nat) : List RepoEvent :=
  .request r :: replicate accesses (.access 1 0)

namespace Repo

variable (P : Primitives) (t : ObjectTable)

def exec (s : Repo) (events : List RepoEvent) : Repo := events.foldl (step P t) s

/-- Every event is legal where it comes. -/
def LegalRun (s : Repo) : List RepoEvent → Prop
  | [] => True
  | e :: events => s.Legal e ∧ LegalRun (s.step P t e) events

instance (s : Repo) (e : RepoEvent) : Decidable (s.Legal e) :=
  match e with
  | .request _ => inferInstanceAs (Decidable (_ = true))
  | .access _ _ => inferInstanceAs (Decidable True)

instance legalRunDecidable (s : Repo) : (events : List RepoEvent) →
    Decidable (s.LegalRun P t events)
  | [] => inferInstanceAs (Decidable True)
  | e :: events =>
    have := legalRunDecidable (s.step P t e) events
    inferInstanceAs (Decidable (_ ∧ _))

variable {P t} {s₀ s : Repo}

theorem CarefulRun.access (h : CarefulRun P t s₀ s) (hlc nowUnixSecs : Nat)
    (hnone : s.pusher.pc.takes (s.env t hlc) = []) :
    CarefulRun P t s₀ (s.step P t (.access hlc nowUnixSecs)) := by
  refine h.step _ trivial fun x hx => ?_
  rw [hnone] at hx
  cases hx

end Repo

/-- The tag is pushed without the object that it names and refused. Then a push of nothing puts a
ref at it, and the object is still missing. -/
theorem refused_push_completes_nothing :
    let events := pushRun (pushTag [sampleTag]) 2 ++ pushRun (pushTag []) 4
    let s := Repo.empty.exec samplePrimitives tagTable events
    tagTable.Has samplePrimitives sampleTag ∧
    Repo.empty.LegalRun samplePrimitives tagTable events ∧
    (Repo.empty.exec samplePrimitives tagTable (pushRun (pushTag [sampleTag]) 2)).pusher.pc =
      .reported [⟨"refs/heads/a", some (.missing (.fill 246))⟩] ∧
    s.pusher.pc = .reported [⟨"refs/heads/a", none⟩] ∧
    Pusher.PointsAt s.refs .headsA (.fill 48) ∧ ¬ tagTable.Closed s.disk (.fill 48) := by
  refine ⟨tagTable_has_tag, by decide +kernel, by decide +kernel, by decide +kernel,
    by decide +kernel, fun hclosed => ?_⟩
  exact absurd (hclosed _ tagTable_leads) (by decide +kernel)

/-- A push of both. -/
theorem complete_push_named :
    let s := Repo.empty.exec samplePrimitives tagTable (pushRun (pushTag [sampleTag, sampleBlob]) 6)
    s.pusher.pc = .reported [⟨"refs/heads/a", none⟩] ∧
    Pusher.PointsAt s.refs .headsA (.fill 48) ∧ tagTable.Closed s.disk (.fill 48) := by
  have hrun : Repo.CarefulRun samplePrimitives tagTable .empty
      (Repo.empty.exec samplePrimitives tagTable
        (pushRun (pushTag [sampleTag, sampleBlob]) 6)) := by
    have hempty : Repo.CarefulRun samplePrimitives tagTable .empty .empty := .start
    have hstart := hempty.step (.request (pushTag [sampleTag, sampleBlob])) rfl fun w hw => by
      rcases mem_pair.mp hw with rfl | rfl
      · exact tagTable_has_tag
      · exact tagTable_has_blob
    exact (((((hstart.access 1 0 (by decide +kernel)).access 1 0 (by decide +kernel)).access 1 0
      (by decide +kernel)).access 1 0 (by decide +kernel)).access 1 0 (by decide +kernel)).access 1
        0
      (by decide +kernel)
  have hpoints : Pusher.PointsAt (Repo.empty.exec samplePrimitives tagTable
      (pushRun (pushTag [sampleTag, sampleBlob]) 6)).refs .headsA (.fill 48) := by decide +kernel
  exact ⟨by decide +kernel, hpoints, Repo.refs_name_closures hrun hpoints⟩

end Ledge.Git
