import Ledge.Git.Fetch
import Mathlib.Data.List.Find

/-!
# Ledge.Git.Requests

The git plane of a server: **pushes and fetches of a segment, one after the other**, on refs,
objects and caches that all segments share.

A push is carried out by the accesses of `PushPc`, after its pack has been decoded. The second pass
of `decode_pack_objects` is part of the model, because it asks the store for the bases of a thin
pack; the first one reads nothing but the pack.
-/

namespace Ledge.Git

open Ledge.Core Ledge.RefStore Ledge.Objects Ledge.Lib List

/-! ### A pack -/

/-- What the first pass of `decode_pack_objects` leaves of an object. -/
inductive Parsed
  | base (gitType : UInt8) (content : List UInt8)
  | ofs (off : Nat) (delta : List UInt8)
  | ref (sha1 : Sha1) (delta : List UInt8)

/-- An object of the pack after the second pass, with its offset and its name. -/
structure Resolved where
  start : Nat
  name : Sha1
  object : TypedWrite

/-- `read_git_object_by_sha1` -/
def readGitObjectBySha1 (view : StoreView) (sha1 : Sha1) : Option TypedWrite :=
  match (sha1Map view).lookup sha1 with
  | none => none
  | some id =>
    match view.gitTypeOf id, view.read id with
    | .ok gitType, .ok content => some ⟨gitType, content⟩
    | _, _ => none

/-- A delta gives an object of the type of its base. -/
def patch (base : TypedWrite) (delta : List UInt8) : Except LedgeError TypedWrite :=
  (applyDelta base.content delta).map (fun content => ⟨base.gitType, content⟩)

section

variable (P : Primitives) (store : Sha1 → Option TypedWrite) (starts : List Nat)

/-- The name that the second pass computes for an object. -/
def packName (o : TypedWrite) : Sha1 := P.gitSha1 ((gitTypeName o.gitType).getD "unknown") o.content

/-- The base of a `REF_DELTA` is the last object of its name in the pack, or else one of the
store. -/
def refBase (done : List Resolved) (sha1 : Sha1) : Option TypedWrite :=
  ((done.find? (fun b => b.name = sha1)).map Resolved.object).or (store sha1)

/-- The second pass on one object; `done` are those before it, the last one first. -/
def resolveOne (done : List Resolved) (start : Nat) : Parsed → Except LedgeError TypedWrite
  | .base gitType content => .ok ⟨gitType, content⟩
  | .ofs off delta =>
    if start < off then .error (.corruption "pack: ofs underflow")
    else if start - off ∉ starts then .error (.corruption "pack: ofs base missing")
    else
      match done.find? (fun b => b.start = start - off) with
      | none => .error (.corruption "pack: ofs base unresolved")
      | some b => patch b.object delta
  | .ref sha1 delta =>
    match refBase store done sha1 with
    | none => .error (.corruption "pack: ref base not in pack or store")
    | some b => patch b delta

def resolveAll (done : List Resolved) : List (Nat × Parsed) → Except LedgeError (List TypedWrite)
  | [] => .ok (done.reverse.map Resolved.object)
  | (start, entry) :: entries =>
    match resolveOne store starts done start entry with
    | .error e => .error e
    | .ok o => resolveAll (⟨start, packName P o, o⟩ :: done) entries

/-- The names that the second pass asks the store for. -/
def asked (done : List Resolved) : List (Nat × Parsed) → List Sha1
  | [] => []
  | (start, entry) :: entries =>
    let here :=
      match entry with
      | .ref sha1 _ => if done.any (fun b => b.name = sha1) then [] else [sha1]
      | _ => []
    match resolveOne store starts done start entry with
    | .error _ => here
    | .ok o => here ++ asked (⟨start, packName P o, o⟩ :: done) entries

end

/-- `decode_pack_objects`, from the entries with their offsets -/
def decodePackObjects (P : Primitives) (store : Sha1 → Option TypedWrite)
    (entries : List (Nat × Parsed)) : Except LedgeError (List TypedWrite) :=
  resolveAll P store (entries.map Prod.fst) [] entries

def askedBases (P : Primitives) (store : Sha1 → Option TypedWrite) (entries : List (Nat × Parsed)) :
    List Sha1 :=
  asked P store (entries.map Prod.fst) [] entries

section

variable {P : Primitives} {store store' : Sha1 → Option TypedWrite} {starts : List Nat}

theorem refBase_congr {done : List Resolved} {sha1 : Sha1}
    (h : done.any (fun b => b.name = sha1) = false → store sha1 = store' sha1) :
    refBase store done sha1 = refBase store' done sha1 := by
  unfold refBase
  cases hfind : done.find? (fun b => b.name = sha1) with
  | some b => rfl
  | none =>
    rw [h ?_]
    rw [any_eq_false]
    exact find?_eq_none.mp hfind

/-- The pack decodes to the same objects, if the stores agree on what is asked for. -/
theorem resolveAll_congr {done : List Resolved} {entries : List (Nat × Parsed)}
    (h : ∀ x ∈ asked P store starts done entries, store x = store' x) :
    resolveAll P store starts done entries = resolveAll P store' starts done entries := by
  induction entries generalizing done with
  | nil => rfl
  | cons entry entries ih =>
    obtain ⟨start, entry⟩ := entry
    have hone : resolveOne store starts done start entry =
        resolveOne store' starts done start entry := by
      cases entry with
      | base gitType content | ofs off delta => rfl
      | ref sha1 delta =>
        simp only [resolveOne]
        rw [refBase_congr fun hany => h sha1 ?_]
        simp only [asked, hany]
        split <;> simp
    simp only [resolveAll, ← hone]
    cases hcase : resolveOne store starts done start entry with
    | error e => rfl
    | ok o =>
      refine ih fun x hx => h x ?_
      simp only [asked, hcase]
      exact mem_append_right _ hx

end

/-! ### Objects -/

/-- The objects of a store. The content of an object is stored once, with one type. -/
structure Shelf (P : Primitives) where
  objects : List TypedWrite
  ids : (objects.map (fun o => P.blake3 o.content)).Nodup

namespace Shelf

variable {P : Primitives}

def empty : Shelf P := ⟨[], nodup_nil⟩

/-- `write_git_object`: an object of the same content is replaced. -/
def write (s : Shelf P) (o : TypedWrite) : Shelf P where
  objects := o :: s.objects.filter (fun o' => P.blake3 o'.content ≠ P.blake3 o.content)
  ids := by
    rw [map_cons, nodup_cons]
    constructor
    · intro hmem
      obtain ⟨o', ho', heq⟩ := mem_map.mp hmem
      exact of_decide_eq_true (mem_filter.mp ho').2 heq
    · exact s.ids.sublist (filter_sublist.map _)

def writeAll (s : Shelf P) (objects : List TypedWrite) : Shelf P := objects.foldl write s

/-- What the walks read of it. Nothing fails. -/
def view (s : Shelf P) : StoreView := ofWrites P s.objects

/-- `sha1_of` -/
def sha1Of (s : Shelf P) (id : ObjectId) : Option Sha1 :=
  (s.objects.find? (fun o => P.blake3 o.content = id)).bind (fun o => o.gitName P)

variable {s : Shelf P} {o w : TypedWrite} {n : Sha1} {id : ObjectId} {objects : List TypedWrite}

/-! ### What is on a shelf -/

theorem find?_id (ho : o ∈ s.objects) :
    s.objects.find? (fun w => P.blake3 w.content = P.blake3 o.content) = some o := by
  cases hfind : s.objects.find? (fun w => P.blake3 w.content = P.blake3 o.content) with
  | none => exact absurd (decide_eq_true rfl) (find?_eq_none.mp hfind o ho)
  | some w =>
    have hid := find?_some hfind
    rw [inj_on_of_nodup_map s.ids (mem_of_find?_eq_some hfind) ho (of_decide_eq_true hid)]

theorem lookup_view (s : Shelf P) (n : Sha1) :
    (sha1Map s.view).lookup n =
      (s.objects.find? (fun o => o.gitName P = some n)).map (fun o => P.blake3 o.content) := by
  show Names.lookup (s.objects.filterMap _) n = _
  unfold Names.lookup
  induction s.objects with
  | nil => rfl
  | cons o objects ih =>
    cases hname : o.gitName P with
    | none =>
      rw [filterMap_cons_none (by rw [hname]; rfl), ih, find?_cons_of_neg (by simp [hname])]
    | some m =>
      rw [filterMap_cons_some (by rw [hname]; rfl)]
      by_cases hm : m = n
      · rw [find?_cons_of_pos (by simpa using hm), find?_cons_of_pos (by simp [hname, hm])]
        rfl
      · rw [find?_cons_of_neg (by simpa using hm), find?_cons_of_neg (by simp [hname, hm]), ih]

theorem objectAt_view (s : Shelf P) (n : Sha1) :
    objectAt s.view n = s.objects.find? (fun o => o.gitName P = some n) := by
  unfold objectAt
  rw [lookup_view]
  cases hfind : s.objects.find? (fun o => o.gitName P = some n) with
  | none => rfl
  | some o =>
    have hid := find?_id (mem_of_find?_eq_some hfind)
    simp [view, ofWrites, gitTypeOr, hid]

theorem readGitObjectBySha1_view (s : Shelf P) (n : Sha1) :
    readGitObjectBySha1 s.view n = objectAt s.view n := by
  rw [objectAt_view, readGitObjectBySha1, lookup_view]
  cases hfind : s.objects.find? (fun o => o.gitName P = some n) with
  | none => rfl
  | some o =>
    have hid := find?_id (mem_of_find?_eq_some hfind)
    simp [view, ofWrites, hid]

theorem lookup_eq_objectAt (s : Shelf P) (n : Sha1) :
    (sha1Map s.view).lookup n = (objectAt s.view n).map (fun o => P.blake3 o.content) := by
  rw [lookup_view, objectAt_view]

theorem mem_of_objectAt (h : objectAt s.view n = some o) : o ∈ s.objects ∧ o.gitName P =
    some n := by
  rw [objectAt_view] at h
  have hname := find?_some h
  exact ⟨mem_of_find?_eq_some h, of_decide_eq_true hname⟩

theorem sha1Of_of_mem (ho : o ∈ s.objects) : s.sha1Of (P.blake3 o.content) = o.gitName P := by
  rw [sha1Of, find?_id ho]
  rfl

/-! ### What a write does -/

theorem mem_write (h : w ∈ (s.write o).objects) : w = o ∨ w ∈ s.objects :=
  (mem_cons.mp h).imp_right fun hw => (mem_filter.mp hw).1

/-- The id of an object has its name, whatever was there before. -/
theorem sha1Of_write (s : Shelf P) (o : TypedWrite) (id : ObjectId) :
    (s.write o).sha1Of id = if P.blake3 o.content = id then o.gitName P else s.sha1Of id := by
  unfold sha1Of write
  by_cases hid : P.blake3 o.content = id
  · rw [if_pos hid, find?_cons_of_pos (by simpa using hid)]
    rfl
  · rw [if_neg hid, find?_cons_of_neg (by simpa using hid), find?_filter]
    refine congrArg (Option.bind · _) (find?_congr fun w _ => ?_)
    have hne : P.blake3 w.content = id → P.blake3 w.content ≠ P.blake3 o.content := fun heq h =>
      hid (h ▸ heq)
    simpa using hne

/-- The objects are new, or the same as what is stored: they share no id and no name with
another. -/
def Fresh (s : Shelf P) (objects : List TypedWrite) : Prop :=
  ∀ o ∈ objects, ∀ w, w ∈ s.objects ∨ w ∈ objects →
    P.blake3 w.content = P.blake3 o.content ∨ w.gitName P = o.gitName P → w = o

theorem Fresh.write (h : s.Fresh (o :: objects)) : (s.write o).Fresh objects := by
  intro o' ho' w hw hsame
  refine h o' (mem_cons_of_mem _ ho') w ?_ hsame
  rcases hw with hw | hw
  · rcases mem_write hw with rfl | hw
    · exact Or.inr mem_cons_self
    · exact Or.inl hw
  · exact Or.inr (mem_cons_of_mem _ hw)

theorem Fresh.objectAt_write (h : s.Fresh (o :: objects)) (n : Sha1) :
    objectAt (s.write o).view n = if o.gitName P = some n then some o else objectAt s.view n := by
  rw [objectAt_view, objectAt_view]
  unfold Shelf.write
  by_cases hname : o.gitName P = some n
  · rw [if_pos hname, find?_cons_of_pos (by simpa using hname)]
  · rw [if_neg hname, find?_cons_of_neg (by simpa using hname), find?_filter]
    refine find?_congr fun w hw => ?_
    -- an object that goes is the one that comes
    have hkept : w.gitName P = some n → P.blake3 w.content ≠ P.blake3 o.content := by
      intro hn hid
      obtain rfl := h o mem_cons_self w (Or.inl hw) (Or.inl hid)
      exact hname hn
    simpa using hkept

theorem Fresh.objectAt_of_forall_ne (h : s.Fresh objects)
    (hn : ∀ o ∈ objects, o.gitName P ≠ some n) :
    objectAt (s.writeAll objects).view n = objectAt s.view n := by
  induction objects generalizing s with
  | nil => rfl
  | cons o objects ih =>
    refine (ih h.write fun o' ho' => hn o' (mem_cons_of_mem _ ho')).trans ?_
    rw [h.objectAt_write, if_neg (hn o mem_cons_self)]

theorem Fresh.objectAt_of_mem (h : s.Fresh objects) (ho : o ∈ objects) (hn : o.gitName P = some n) :
    objectAt (s.writeAll objects).view n = some o := by
  induction objects generalizing s with
  | nil => cases ho
  | cons o' objects ih =>
    by_cases hlater : o ∈ objects
    · exact ih h.write hlater
    · obtain rfl := (mem_cons.mp ho).resolve_right hlater
      refine (h.write.objectAt_of_forall_ne fun w hw hname => hlater ?_).trans ?_
      · rwa [← h o mem_cons_self w (Or.inr (mem_cons_of_mem _ hw)) (Or.inr (hname.trans hn.symm))]
      · rw [h.objectAt_write, if_pos hn]

theorem Fresh.objectAt_mono (h : s.Fresh objects) (ho : objectAt s.view n = some o) :
    objectAt (s.writeAll objects).view n = some o := by
  obtain ⟨hmem, hname⟩ := mem_of_objectAt ho
  by_cases hw : ∃ w ∈ objects, w.gitName P = some n
  · obtain ⟨w, hw, hn⟩ := hw
    rw [h w hw o (Or.inl hmem) (Or.inr (hname.trans hn.symm))]
    exact h.objectAt_of_mem hw hn
  · rw [h.objectAt_of_forall_ne fun w hw' hn => hw ⟨w, hw', hn⟩, ho]

theorem sha1Of_writeAll_of_forall_ne (h : ∀ o ∈ objects, P.blake3 o.content ≠ id) :
    (s.writeAll objects).sha1Of id = s.sha1Of id := by
  induction objects generalizing s with
  | nil => rfl
  | cons o objects ih =>
    refine (ih fun o' ho' => h o' (mem_cons_of_mem _ ho')).trans ?_
    rw [sha1Of_write, if_neg (h o mem_cons_self)]

theorem Fresh.sha1Of_of_mem (h : s.Fresh objects) (ho : o ∈ objects) :
    (s.writeAll objects).sha1Of (P.blake3 o.content) = o.gitName P := by
  induction objects generalizing s with
  | nil => cases ho
  | cons o' objects ih =>
    by_cases hlater : o ∈ objects
    · exact ih h.write hlater
    · obtain rfl := (mem_cons.mp ho).resolve_right hlater
      have hkept : ((s.write o).writeAll objects).sha1Of (P.blake3 o.content) =
          (s.write o).sha1Of (P.blake3 o.content) := by
        refine sha1Of_writeAll_of_forall_ne fun w hw hid => hlater ?_
        rwa [← h o mem_cons_self w (Or.inr (mem_cons_of_mem _ hw)) (Or.inl hid)]
      refine hkept.trans ?_
      rw [sha1Of_write, if_pos rfl]

end Shelf

/-! ### Whole calls -/

/-- How many accesses a push may take. -/
def PushRequest.accesses (r : PushRequest) : Nat := r.objects.length + 3 * r.commands.length + 2

namespace PushPc

variable (P : Primitives) (r : PushRequest) (env : Nat → PushEnv)

/-- The first accesses of a call. -/
def run : Nat → Store × PushPc → Store × PushPc
  | 0, x => x
  | n + 1, x => (run n x).2.step P r (env n) (run n x).1

end PushPc

/-- A request. The ticks are those that the clock gives to the accesses of the push. -/
inductive GitRequest
  | receivePack (commands : List RefCommand) (pack : List (Nat × Parsed)) (ticks : Nat → Nat)
  | uploadPack (r : UploadRequest)

inductive GitReply
  /-- The pack cannot be decoded. -/
  | refused (e : LedgeError)
  /-- An object of the pack cannot be written. -/
  | failed
  | report (lines : List ReportLine)
  | upload (reply : UploadReply)
  deriving DecidableEq

/-- What the requests of all segments share. -/
structure GitState (P : Primitives) where
  refs : Store
  shelf : Shelf P
  caches : FetchCaches

namespace GitState

variable {P : Primitives}

/-- The tips of a segment. -/
def tips (s : GitState P) (segment : String) : List Sha1 :=
  segmentTipSha1s s.refs s.shelf.sha1Of segment

/-- What a fetch of the segment finds. -/
def fetchEnv (s : GitState P) (segment : String) : FetchEnv := .on s.shelf.view (s.tips segment)

/-- The objects of a push that are written: a type that is no git type ends it. -/
def written (objects : List TypedWrite) : List TypedWrite := objects.takeWhile (fun o => o.Valid)

def replyOf : PushPc → GitReply
  | .reported lines => .report lines
  | _ => .failed

/-- `handle_receive_pack` on the objects of the pack. The index is read after all of them have been
written. -/
def receiveObjects (s : GitState P) (r : PushRequest) (ticks : Nat → Nat) : GitReply × GitState P :=
  let shelf := s.shelf.writeAll (written r.objects)
  let (refs, pc) := PushPc.run P r (fun n => ⟨sha1Map shelf.view, ticks n⟩) r.accesses
    (s.refs, r.start)
  (replyOf pc, { s with refs := refs, shelf := shelf })

variable (cfg : FetchConfig) (segment : String)

/-- One request of the segment. -/
def handle (s : GitState P) : GitRequest → GitReply × GitState P
  | .receivePack commands pack ticks =>
    match decodePackObjects P (readGitObjectBySha1 s.shelf.view) pack with
    | .error e => (.refused e, s)
    | .ok objects => s.receiveObjects ⟨commands, objects, segment⟩ ticks
  | .uploadPack r =>
    let (reply, caches) := handleUploadPack cfg (s.fetchEnv segment) segment r s.caches
    (.upload reply, { s with caches := caches })

/-- One request after the other. -/
def serve (s : GitState P) : List GitRequest → List GitReply
  | [] => []
  | r :: requests => (s.handle cfg segment r).1 :: serve (s.handle cfg segment r).2 requests

end GitState

end Ledge.Git
