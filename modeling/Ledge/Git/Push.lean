import Ledge.Objects.MarkSweep
import Ledge.Objects.TypedWrites
import Ledge.Workspace.Manager

/-!
# Ledge.Git.Push

`handle_receive_pack` (`push.rs`) after its body has been decoded, **one access of a store at a
time**: the objects of the pack are written, whatever they name is looked for, and the commands are
carried out.

What a push does not find among its own objects it takes from the SHA-1 index of the store. The map
that it gets is part of `PushEnv`: it may be a cached one, which deletions do not clear. What a
write does to the object store is left to the systems that push into it (`PushPc.writes`).
-/

namespace Ledge.Git

open Ledge.Core Ledge.RefStore Ledge.Objects Ledge.Workspace

/-! ### A request -/

/-- One command of a push. -/
structure RefCommand where
  oldSha1 : Sha1
  newSha1 : Sha1
  refName : String
  deriving DecidableEq

/-- The name that stands for no object. -/
def nullSha1 : Sha1 := .fill 0

/-- A request: its commands, the objects of its pack with all deltas resolved, and the namespace
that it came in by. -/
structure PushRequest where
  commands : List RefCommand
  objects : List TypedWrite
  segment : String

/-- `store_ref` -/
def storeRef (client segment : String) : String :=
  if segment = "" then client
  else
    match stripPrefix "refs/" client with
    | some rest => "refs/" ++ segment ++ rest
    | none => client

/-- Why a command is refused. -/
inductive Refusal
  /-- `missing necessary objects: {}` -/
  | missing (sha1 : Sha1)
  /-- `invalid ref name: {}` -/
  | invalidName (e : LedgeError)
  /-- `cannot delete: old-sha1 is null` -/
  | oldIsNull
  /-- `ref {} not found` -/
  | refNotFound (refName : String)
  /-- `object for {} not found` -/
  | objectNotFound (sha1 : Sha1)
  /-- `stale info: unknown old object {}` -/
  | staleInfo (sha1 : Sha1)
  /-- What the ref store answers. -/
  | refused (e : LedgeError)
  deriving DecidableEq

/-- The line of the report for one command: `ok` or `ng`. -/
structure ReportLine where
  refName : String
  refusal : Option Refusal
  deriving DecidableEq

/-- Names of objects; the first entry for a name counts. -/
abbrev Names := List (Sha1 × ObjectId)

/-- `HashMap::get` -/
def Names.lookup (names : Names) (sha1 : Sha1) : Option ObjectId :=
  (names.find? (fun x => x.1 = sha1)).map Prod.snd

/-- `resolve_sha1_to_obj_id` -/
def resolveSha1ToObjId (sent index : Names) (sha1 : Sha1) : Option ObjectId :=
  (sent.lookup sha1).or (index.lookup sha1)

/-! ### A call -/

/-- Where a call is. `sent` are the objects of the pack that have been written. -/
inductive PushPc
  /-- The objects in `todo` are still to be written; `referenced` is what the others name. With
  nothing to write the check comes next. -/
  | writing (todo : List TypedWrite) (sent : Names) (referenced : List Sha1)
  | commands (todo : List RefCommand) (sent : Names) (report : List ReportLine)
  /-- The new object is known, the old one is to be looked up. -/
  | resolved (c : RefCommand) (name : RefName) (new : ObjectId) (todo : List RefCommand)
      (sent : Names) (report : List ReportLine)
  | updating (c : RefCommand) (name : RefName) (new : ObjectId) (expected : Option ObjectId)
      (todo : List RefCommand) (sent : Names) (report : List ReportLine)
  | deleting (c : RefCommand) (name : RefName) (old : ObjectId) (todo : List RefCommand)
      (sent : Names) (report : List ReportLine)
  | reported (report : List ReportLine)
  /-- The call has returned an error. -/
  | failed
  deriving DecidableEq

/-- What a step finds around it: the map that `sha1_index` returns, and the tick of the clock that
the ref store takes. -/
structure PushEnv where
  index : Names
  hlc : Nat

/-- How the answer of the ref store is reported. -/
def refusalOf {α : Type} : Except LedgeError α → Option Refusal
  | .ok _ => none
  | .error e => some (.refused e)

def PushRequest.start (r : PushRequest) : PushPc := .writing r.objects [] []

namespace PushPc

variable (P : Primitives) (r : PushRequest) (env : PushEnv)

/-- The next access of a call. -/
def step (refs : Store) : PushPc → Store × PushPc
  | .writing (o :: todo) sent referenced =>
    match gitTypeName o.gitType with
    | none => (refs, .failed)
    | some typeName =>
      (refs, .writing todo ((P.gitSha1 typeName o.content, P.blake3 o.content) :: sent)
        (referenced ++ referencedSha1s o.gitType o.content))
  | .writing [] sent referenced =>
    -- one missing object refuses every command
    match referenced.find? (fun sha1 => resolveSha1ToObjId sent env.index sha1 = none) with
    | some sha1 => (refs, .reported (r.commands.map (fun c => ⟨c.refName, some (.missing sha1)⟩)))
    | none => (refs, .commands r.commands sent [])
  | .commands [] _ report => (refs, .reported report)
  | .commands (c :: todo) sent report =>
    let refuse (refusal : Refusal) :=
      (refs, PushPc.commands todo sent (report ++ [⟨c.refName, some refusal⟩]))
    match RefName.new (storeRef c.refName r.segment) with
    | .error e => refuse (.invalidName e)
    | .ok name =>
      if c.newSha1 = nullSha1 then
        if c.oldSha1 = nullSha1 then refuse .oldIsNull
        else
          match resolveSha1ToObjId sent env.index c.oldSha1 with
          | none => refuse (.refNotFound c.refName)
          | some old => (refs, .deleting c name old todo sent report)
      else
        match resolveSha1ToObjId sent env.index c.newSha1 with
        | none => refuse (.objectNotFound c.newSha1)
        | some new =>
          if c.oldSha1 = nullSha1 then (refs, .updating c name new none todo sent report)
          else (refs, .resolved c name new todo sent report)
  | .resolved c name new todo sent report =>
    match resolveSha1ToObjId sent env.index c.oldSha1 with
    | none =>
      (refs, .commands todo sent (report ++ [⟨c.refName, some (.staleInfo c.oldSha1)⟩]))
    | some old => (refs, .updating c name new (some old) todo sent report)
  | .updating c name new expected todo sent report =>
    let (refs, result) := refs.update name new expected env.hlc
    (refs, .commands todo sent (report ++ [⟨c.refName, refusalOf result⟩]))
  | .deleting c name old todo sent report =>
    let (refs, result) := refs.delete name old env.hlc
    (refs, .commands todo sent (report ++ [⟨c.refName, refusalOf result⟩]))
  | .reported report => (refs, .reported report)
  | .failed => (refs, .failed)

/-- The object that the next access writes. -/
def writes : PushPc → Option TypedWrite
  | .writing (o :: _) _ _ => if o.Valid then some o else none
  | _ => none

/-- The objects that the next access takes from the store because the push has not sent them: what
its objects name, and the new target of a ref. -/
def takes : PushPc → List ObjectId
  | .writing [] sent referenced =>
    referenced.filterMap (fun sha1 => if sent.lookup sha1 =
      none then env.index.lookup sha1 else none)
  | .commands (c :: _) sent _ =>
    if c.newSha1 ≠ nullSha1 ∧ sent.lookup c.newSha1 = none then (env.index.lookup c.newSha1).toList
    else []
  | _ => []

theorem writes_of_type {o : TypedWrite} {todo : List TypedWrite} {sent : Names}
    {referenced : List Sha1} {typeName : String} (h : gitTypeName o.gitType = some typeName) :
    (PushPc.writing (o :: todo) sent referenced).writes = some o := by
  have hvalid : o.Valid := Option.isSome_iff_exists.mpr ⟨typeName, h⟩
  simp only [writes, if_pos hvalid]

theorem writing_of_writes {pc : PushPc} {o : TypedWrite} (h : pc.writes = some o) :
    ∃ todo sent referenced typeName, pc = .writing (o :: todo) sent referenced ∧
      gitTypeName o.gitType = some typeName := by
  unfold writes at h
  split at h
  · split_ifs at h with hvalid
    cases h
    obtain ⟨typeName, htype⟩ := Option.isSome_iff_exists.mp hvalid
    exact ⟨_, _, _, typeName, rfl, htype⟩
  · cases h

/-! ### What an access does -/

/-- The accesses of a call, one case for each way that they can go. The case is read off the state
before, the refs and the state after. -/
inductive Access (refs : Store) : PushPc → Store → PushPc → Prop
  | write {o : TypedWrite} {todo : List TypedWrite} {sent : Names} {referenced : List Sha1}
      {typeName : String} (htype : gitTypeName o.gitType = some typeName) :
      Access refs (.writing (o :: todo) sent referenced) refs
        (.writing todo ((P.gitSha1 typeName o.content, P.blake3 o.content) :: sent)
          (referenced ++ referencedSha1s o.gitType o.content))
  | fail {o : TypedWrite} {todo : List TypedWrite} {sent : Names} {referenced : List Sha1}
      (htype : gitTypeName o.gitType = none) :
      Access refs (.writing (o :: todo) sent referenced) refs .failed
  | missing {sent : Names} {referenced : List Sha1} {sha1 : Sha1} :
      Access refs (.writing [] sent referenced) refs
        (.reported (r.commands.map (fun c => ⟨c.refName, some (.missing sha1)⟩)))
  | check {sent : Names} {referenced : List Sha1}
      (hfound : ∀ sha1 ∈ referenced, resolveSha1ToObjId sent env.index sha1 ≠ none) :
      Access refs (.writing [] sent referenced) refs (.commands r.commands sent [])
  | finish {sent : Names} {report : List ReportLine} :
      Access refs (.commands [] sent report) refs (.reported report)
  | refuse {c : RefCommand} {todo : List RefCommand} {sent : Names} {report : List ReportLine}
      {refusal : Refusal} :
      Access refs (.commands (c :: todo) sent report) refs
        (.commands todo sent (report ++ [⟨c.refName, some refusal⟩]))
  | delete {c : RefCommand} {todo : List RefCommand} {sent : Names} {report : List ReportLine}
      {name : RefName} {old : ObjectId} (hname : RefName.new (storeRef c.refName r.segment) =
        .ok name)
      (hnew : c.newSha1 = nullSha1) (hold : c.oldSha1 ≠ nullSha1)
      (hfound : resolveSha1ToObjId sent env.index c.oldSha1 = some old) :
      Access refs (.commands (c :: todo) sent report) refs (.deleting c name old todo sent report)
  | create {c : RefCommand} {todo : List RefCommand} {sent : Names} {report : List ReportLine}
      {name : RefName} {new : ObjectId} (hname : RefName.new (storeRef c.refName r.segment) =
        .ok name)
      (hnew : c.newSha1 ≠ nullSha1) (hold : c.oldSha1 = nullSha1)
      (hfound : resolveSha1ToObjId sent env.index c.newSha1 = some new) :
      Access refs (.commands (c :: todo) sent report) refs
        (.updating c name new none todo sent report)
  | resolve {c : RefCommand} {todo : List RefCommand} {sent : Names} {report : List ReportLine}
      {name : RefName} {new : ObjectId} (hname : RefName.new (storeRef c.refName r.segment) =
        .ok name)
      (hnew : c.newSha1 ≠ nullSha1) (hold : c.oldSha1 ≠ nullSha1)
      (hfound : resolveSha1ToObjId sent env.index c.newSha1 = some new) :
      Access refs (.commands (c :: todo) sent report) refs (.resolved c name new todo sent report)
  | stale {c : RefCommand} {name : RefName} {new : ObjectId} {todo : List RefCommand} {sent : Names}
      {report : List ReportLine} :
      Access refs (.resolved c name new todo sent report) refs
        (.commands todo sent (report ++ [⟨c.refName, some (.staleInfo c.oldSha1)⟩]))
  | update {c : RefCommand} {name : RefName} {new old : ObjectId} {todo : List RefCommand}
      {sent : Names} {report : List ReportLine}
      (hfound : resolveSha1ToObjId sent env.index c.oldSha1 = some old) :
      Access refs (.resolved c name new todo sent report) refs
        (.updating c name new (some old) todo sent report)
  | updated {c : RefCommand} {name : RefName} {new : ObjectId} {expected : Option ObjectId}
      {todo : List RefCommand} {sent : Names} {report : List ReportLine} {refs' : Store}
        {e : RefEntry}
      (hstood : (refs.tree.get name).map RefEntry.target = expected) (htarget : e.target = new)
      (hget : ∀ n, refs'.tree.get n = if n = name then some e else refs.tree.get n)
      (hresult : (refs.update name new expected env.hlc).2 = .ok e) :
      Access refs (.updating c name new expected todo sent report) refs'
        (.commands todo sent (report ++ [⟨c.refName, none⟩]))
  | notUpdated {c : RefCommand} {name : RefName} {new : ObjectId} {expected : Option ObjectId}
      {todo : List RefCommand} {sent : Names} {report : List ReportLine} {err : LedgeError}
      (hresult : (refs.update name new expected env.hlc).2 = .error err) :
      Access refs (.updating c name new expected todo sent report) refs
        (.commands todo sent (report ++ [⟨c.refName, some (.refused err)⟩]))
  | deleted {c : RefCommand} {name : RefName} {old : ObjectId} {todo : List RefCommand}
      {sent : Names} {report : List ReportLine} {refs' : Store}
      (hstood : (refs.tree.get name).map RefEntry.target = some old)
      (hget : ∀ n, refs'.tree.get n = if n = name then none else refs.tree.get n)
      (hresult : (refs.delete name old env.hlc).2 = .ok ()) :
      Access refs (.deleting c name old todo sent report) refs'
        (.commands todo sent (report ++ [⟨c.refName, none⟩]))
  | notDeleted {c : RefCommand} {name : RefName} {old : ObjectId} {todo : List RefCommand}
      {sent : Names} {report : List ReportLine} {err : LedgeError}
      (hresult : (refs.delete name old env.hlc).2 = .error err) :
      Access refs (.deleting c name old todo sent report) refs
        (.commands todo sent (report ++ [⟨c.refName, some (.refused err)⟩]))
  | reported {report : List ReportLine} : Access refs (.reported report) refs (.reported report)
  | failed : Access refs .failed refs .failed

theorem access_step (refs : Store) (pc : PushPc) :
    Access P r env refs pc (pc.step P r env refs).1 (pc.step P r env refs).2 := by
  cases pc with
  | writing todo sent referenced =>
    cases todo with
    | cons o todo =>
      simp only [step]
      cases htype : gitTypeName o.gitType with
      | none => exact .fail htype
      | some typeName => exact .write htype
    | nil =>
      simp only [step]
      split
      · exact .missing
      · rename_i hnone
        refine .check fun sha1 hsha1 hmissing => ?_
        exact List.find?_eq_none.mp hnone sha1 hsha1 (decide_eq_true hmissing)
  | commands todo sent report =>
    cases todo with
    | nil => exact .finish
    | cons c todo =>
      simp only [step]
      cases hname : RefName.new (storeRef c.refName r.segment) with
      | error e => exact .refuse
      | ok name =>
        dsimp only
        split_ifs with hnew hold hold
        · exact .refuse
        · split
          · exact .refuse
          · rename_i old hfound
            exact .delete hname hnew hold hfound
        · split
          · exact .refuse
          · rename_i new hfound
            exact .create hname hnew hold hfound
        · split
          · exact .refuse
          · rename_i new hfound
            exact .resolve hname hnew hold hfound
  | resolved c name new todo sent report =>
    simp only [step]
    split
    · exact .stale
    · rename_i old hfound
      exact .update hfound
  | updating c name new expected todo sent report =>
    simp only [step]
    rcases refs.update_cases name env.hlc new expected with
      ⟨err, hupdate⟩ | ⟨hstood, refs', e, hupdate, htarget, hget⟩
    · have hresult : (refs.update name new expected env.hlc).2 = .error err := by rw [hupdate]
      rw [hupdate]
      exact .notUpdated hresult
    · have hresult : (refs.update name new expected env.hlc).2 = .ok e := by rw [hupdate]
      rw [hupdate]
      exact .updated hstood htarget hget hresult
  | deleting c name old todo sent report =>
    simp only [step]
    rcases refs.delete_cases name env.hlc old with
      ⟨err, hdelete⟩ | ⟨hstood, refs', hdelete, hget⟩
    · have hresult : (refs.delete name old env.hlc).2 = .error err := by rw [hdelete]
      rw [hdelete]
      exact .notDeleted hresult
    · have hresult : (refs.delete name old env.hlc).2 = .ok () := by rw [hdelete]
      rw [hdelete]
      exact .deleted hstood hget hresult
  | reported report => exact .reported
  | failed => exact .failed

end PushPc

end Ledge.Git
