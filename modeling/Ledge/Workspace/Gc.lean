import Ledge.Objects.MarkSweep
import Ledge.Workspace.Manager

/-!
# Ledge.Workspace.Gc

The single-node collector (`gc.rs`), **one access at a time**: a pass lists the stored objects,
the durable refs, the live leases and the refs of each of them, marks what is reachable, and then
looks at the age of each candidate and deletes it in two further accesses.

What reads of objects return is left to a parameter (`Gc.view`). The measurement of usage at the
end of a pass deletes nothing and is left out.
-/

namespace Ledge.Workspace

open Ledge.Core Ledge.RefStore Ledge.Objects

/-! ### Roots -/

/-- Refs of workspaces are roots only while their lease is live. -/
def Durable (n : RefName) : Prop := ¬ strBytes "refs/workspaces/" <+: n.bytes

instance (n : RefName) : Decidable (Durable n) := inferInstanceAs (Decidable (¬ _))

/-- The targets of the durable refs of a listing. -/
def durableTargets (refs : List (RefName × RefEntry)) : List ObjectId :=
  (refs.filter (fun x => Durable x.1)).map (fun x => x.2.target)

variable {x : ObjectId} {id : WorkspaceId}

theorem mem_durableTargets {refs : List (RefName × RefEntry)} :
    x ∈ durableTargets refs ↔ ∃ n e, (n, e) ∈ refs ∧ Durable n ∧ e.target = x := by
  rw [durableTargets, List.mem_map]
  constructor
  · intro h
    obtain ⟨⟨n, e⟩, hmem, htarget⟩ := h
    obtain ⟨hmem, hdurable⟩ := List.mem_filter.mp hmem
    exact ⟨n, e, hmem, of_decide_eq_true hdurable, htarget⟩
  · intro h
    obtain ⟨n, e, hmem, hdurable, htarget⟩ := h
    exact ⟨(n, e), List.mem_filter.mpr ⟨hmem, decide_eq_true hdurable⟩, htarget⟩

/-- Every ref name passes the filter of `list("refs/")`. -/
theorem refs_bytes (n : RefName) : strBytes "refs/" <+: n.bytes := by
  have hvalid := n.valid
  unfold refNameFault at hvalid
  split_ifs at hvalid with hrefs
  rw [Bool.not_eq_true, Bool.not_eq_false'] at hrefs
  exact List.isPrefixOf_iff_prefix.mp hrefs

/-! ### A pass -/

/-- A pass at a time in seconds; `grace` is in whole seconds as well. -/
structure Gc where
  nowUnixSecs : Nat
  grace : Nat
  view : Disk → StoreView

/-- `now_unix_secs.saturating_mul(1000)` -/
def Gc.nowMs (g : Gc) : Nat := min (g.nowUnixSecs * 1000) (2 ^ 64 - 1)

/-- Where a pass is. -/
inductive GcPass
  | idle
  /-- The candidates are known. -/
  | frozen (candidates : List ObjectId)
  /-- The durable refs have been listed. -/
  | listed (candidates roots : List ObjectId)
  /-- The refs of the workspaces in `todo` are still to be listed. -/
  | workspaces (candidates : List ObjectId) (todo : List Lease) (roots : List ObjectId)
  | sweep (todo keep : List ObjectId)
  /-- A candidate was found to be old enough. -/
  | doomed (id : ObjectId) (todo keep : List ObjectId)
  | ended
  deriving DecidableEq

/-- The next access of a pass; `order` is the order in which the leases are iterated. -/
def Gc.turn (g : Gc) (order : List Lease) (node : Node) (disk : Disk) : GcPass → Disk × GcPass
  | .idle => (disk, .frozen disk.listAllIds)
  | .frozen candidates => (disk, .listed candidates (durableTargets (node.refs.tree.list "refs/")))
  | .listed candidates roots =>
    (disk, .workspaces candidates (order.filter (fun l => g.nowMs < l.expiresAtMs)) roots)
  | .workspaces candidates (lease :: todo) roots =>
    let targets := (node.refs.tree.list (wsPrefix lease.id)).map (fun x => x.2.target)
    (disk, .workspaces candidates todo (roots ++ targets))
  | .workspaces candidates [] roots =>
    match (g.view disk).mark roots with
    | .error _ => (disk, .ended)
    | .ok keep => (disk, .sweep candidates keep)
  | .sweep [] _ => (disk, .ended)
  | .sweep (id :: todo) keep =>
    if id ∈ keep then (disk, .sweep todo keep)
    else
      match disk.mtime id with
      | none => (disk, .sweep todo keep)
      | some mtime =>
        if g.nowUnixSecs - mtime < g.grace then (disk, .sweep todo keep)
        else (disk, .doomed id todo keep)
  | .doomed id todo keep => (disk.delete id, .sweep todo keep)
  | .ended => (disk, .ended)

/-- Only the step after a candidate was found to be old enough deletes. -/
theorem Gc.disk_turn (g : Gc) (order : List Lease) (node : Node) (disk : Disk) (pass : GcPass) :
    (g.turn order node disk pass).1 = disk ∨ ∃ id todo keep, pass = .doomed id todo keep ∧
      (g.turn order node disk pass).1 = disk.delete id := by
  cases pass with
  | idle | frozen candidates | listed candidates roots | ended => exact Or.inl rfl
  | workspaces candidates todo roots =>
    refine Or.inl ?_
    cases todo with
    | cons lease todo => rfl
    | nil =>
      simp only [Gc.turn]
      split <;> rfl
  | sweep todo keep =>
    refine Or.inl ?_
    cases todo with
    | nil => rfl
    | cons id todo =>
      simp only [Gc.turn]
      split_ifs
      · rfl
      · split
        · rfl
        · split_ifs <;> rfl
  | doomed id todo keep => exact Or.inr ⟨id, todo, keep, rfl, rfl⟩

/-- A file is about to be deleted. -/
def GcPass.dooms : GcPass → Bool
  | .doomed _ _ _ => true
  | _ => false

/-- The mark is the next access. -/
def GcPass.marks : GcPass → Bool
  | .workspaces _ [] _ => true
  | _ => false

/-! ### Workspaces and their refs -/

/-- The lease of a workspace is live. -/
def Node.Live (node : Node) (nowMs : Nat) (id : WorkspaceId) : Prop :=
  ∃ l ∈ node.leases.get id, nowMs < l.expiresAtMs

/-- The ref belongs to a workspace. -/
def InWorkspace (id : WorkspaceId) (n : RefName) : Prop := strBytes (wsPrefix id) <+: n.bytes

/-- A ref points at an object. -/
def Node.PointsAt (node : Node) (n : RefName) (x : ObjectId) : Prop :=
  (node.refs.tree.get n).map RefEntry.target = some x

instance (id : WorkspaceId) (n : RefName) : Decidable (InWorkspace id n) :=
  inferInstanceAs (Decidable (_ <+: _))

instance (node : Node) (n : RefName) (x : ObjectId) : Decidable (node.PointsAt n x) :=
  inferInstanceAs (Decidable (_ = _))

/-- A durable ref or a ref of a live workspace points at an object. -/
def Node.Holds (node : Node) (nowMs : Nat) (x : ObjectId) : Prop :=
  ∃ n, node.PointsAt n x ∧ (Durable n ∨ ∃ id, node.Live nowMs id ∧ InWorkspace id n)

theorem Node.Holds.earlier {node : Node} {nowMs nowMs' : Nat} (h : node.Holds nowMs' x)
    (hle : nowMs ≤ nowMs') : node.Holds nowMs x := by
  obtain ⟨n, hpoints, hroot⟩ := h
  refine ⟨n, hpoints, hroot.imp_right fun hlive => ?_⟩
  obtain ⟨id, ⟨l, hl, hexpires⟩, hin⟩ := hlive
  exact ⟨id, ⟨l, hl, Nat.lt_of_le_of_lt hle hexpires⟩, hin⟩

/-- The two hex digits of a byte. -/
def hexDigits (b : UInt8) : List Char :=
  [Nat.digitChar (b.toNat / 16), Nat.digitChar (b.toNat % 16)]

theorem hexDigits_injective : Function.Injective hexDigits := by
  have hdigit : ∀ i j : Fin 16, Nat.digitChar i = Nat.digitChar j → i = j := by decide
  intro a b h
  obtain ⟨hhi, hlo⟩ := List.cons.inj h
  have hlo' := List.head_eq_of_cons_eq hlo
  have ha := a.toNat_lt
  have hb := b.toNat_lt
  have hhi' : a.toNat / 16 = b.toNat / 16 :=
    congrArg Fin.val (hdigit ⟨a.toNat / 16, by omega⟩ ⟨b.toNat / 16, by omega⟩ hhi)
  have hlo'' : a.toNat % 16 = b.toNat % 16 :=
    congrArg Fin.val (hdigit ⟨a.toNat % 16, by omega⟩ ⟨b.toNat % 16, by omega⟩ hlo')
  exact UInt8.toNat_inj.mp (by omega)

theorem flatMap_hexDigits_inj {l l' : List UInt8} (h : l.flatMap hexDigits = l'.flatMap hexDigits) :
    l = l' := by
  induction l generalizing l' with
  | nil =>
    cases l' with
    | nil => rfl
    | cons b l' => cases h
  | cons a l ih =>
    cases l' with
    | nil => cases h
    | cons b l' =>
      obtain ⟨hhead, htail⟩ := List.append_inj h rfl
      rw [hexDigits_injective hhead, ih htail]

theorem toHex_injective : Function.Injective WorkspaceId.toHex := by
  intro id id' h
  have hbytes : id.bytes = id'.bytes := flatMap_hexDigits_inj (String.ofList_inj.mp h)
  obtain ⟨bytes, hsize⟩ := id
  obtain ⟨bytes', hsize'⟩ := id'
  obtain rfl : bytes = bytes' := hbytes
  rfl

theorem length_strBytes_hexDigits (l : List UInt8) :
    (strBytes (String.ofList (l.flatMap hexDigits))).length = 2 * l.length := by
  have hdigit : ∀ i : Fin 16, (strBytes (String.ofList [Nat.digitChar i])).length = 1 := by decide
  induction l with
  | nil => rfl
  | cons b l ih =>
    have hb := b.toNat_lt
    have hhi := hdigit ⟨b.toNat / 16, by omega⟩
    have hlo := hdigit ⟨b.toNat % 16, by omega⟩
    rw [List.flatMap_cons, String.ofList_append, strBytes_append, List.length_append]
    have hsplit : hexDigits b = [Nat.digitChar (b.toNat / 16)] ++ [Nat.digitChar (b.toNat % 16)] :=
      rfl
    rw [hsplit, String.ofList_append, strBytes_append, List.length_append, hhi, hlo,
      List.length_cons]
    omega

theorem length_strBytes_toHex (id : WorkspaceId) : (strBytes id.toHex).length = 32 := by
  have hlength := length_strBytes_hexDigits id.bytes
  rw [← id.size] at hlength
  exact hlength

theorem notMem_strBytes_hexDigits (l : List UInt8) :
    (47 : UInt8) ∉ strBytes (String.ofList (l.flatMap hexDigits)) := by
  have hdigit : ∀ i : Fin 16, (47 : UInt8) ∉ strBytes (String.ofList [Nat.digitChar i]) := by decide
  induction l with
  | nil => decide
  | cons b l ih =>
    have hb := b.toNat_lt
    have hhi := hdigit ⟨b.toNat / 16, by omega⟩
    have hlo := hdigit ⟨b.toNat % 16, by omega⟩
    have hsplit : hexDigits b = [Nat.digitChar (b.toNat / 16)] ++ [Nat.digitChar (b.toNat % 16)] :=
      rfl
    rw [List.flatMap_cons, String.ofList_append, hsplit, String.ofList_append]
    intro hmem
    rcases List.mem_append.mp hmem with hmem | hmem
    · rcases List.mem_append.mp hmem with hmem | hmem
      · exact hhi hmem
      · exact hlo hmem
    · exact ih hmem

theorem notMem_strBytes_toHex (id : WorkspaceId) : (47 : UInt8) ∉ strBytes id.toHex :=
  notMem_strBytes_hexDigits id.bytes

theorem strBytes_wsPrefix (id : WorkspaceId) : strBytes (wsPrefix id) =
    strBytes "refs/workspaces/" ++ strBytes id.toHex ++ strBytes "/" :=
  (strBytes_append _ _).trans (congrArg (fun bytes => bytes ++ strBytes "/") (strBytes_append _ _))

theorem InWorkspace.unique {id' : WorkspaceId} {n : RefName} (h : InWorkspace id n)
    (h' : InWorkspace id' n) : id = id' := by
  have hlength : (strBytes (wsPrefix id)).length = (strBytes (wsPrefix id')).length := by
    rw [strBytes_wsPrefix, strBytes_wsPrefix, List.length_append, List.length_append,
      length_strBytes_toHex, List.length_append, List.length_append, length_strBytes_toHex]
  have heq := (List.prefix_of_prefix_length_le h h' (Nat.le_of_eq hlength)).eq_of_length hlength
  obtain ⟨hhex, -⟩ := List.append_inj' heq rfl
  exact toHex_injective (strBytes_injective (List.append_cancel_left hhex))

theorem InWorkspace.not_durable {n : RefName} (h : InWorkspace id n) : ¬ Durable n := by
  refine not_not.mpr (List.IsPrefix.trans ?_ h)
  exact List.prefix_append _ _

theorem inWorkspace_of_workspaceRef {src ws : RefName} (h : workspaceRef id src = .ok ws) :
    InWorkspace id ws := by
  unfold workspaceRef at h
  split at h
  · cases h
  · rw [InWorkspace, RefName.bytes, RefName.asStr_of_new h]
    exact List.prefix_append _ _

/-! ### A pass as a whole -/

namespace Gc

variable (g : Gc) (order : List Lease) (node : Node)

/-- The roots that a pass collects. -/
def roots : List ObjectId :=
  durableTargets (node.refs.tree.list "refs/") ++
    (order.filter (fun l => g.nowMs < l.expiresAtMs)).flatMap (fun lease =>
      (node.refs.tree.list (wsPrefix lease.id)).map (fun x => x.2.target))

/-- `run_at` -/
def runAt (disk : Disk) : Except LedgeError Unit × Disk :=
  disk.markSweep (g.view disk) (g.roots order node) g.nowUnixSecs g.grace

/-- One access of `run_at`: a listing, the mark, a look at the age of a file, or a deletion. -/
def Turn (x y : Disk × GcPass) : Prop := y = g.turn order node x.1 x.2

/-- Accesses of `run_at` with nothing in between. -/
abbrev Turns : Disk × GcPass → Disk × GcPass → Prop := Relation.ReflTransGen (g.Turn order node)

variable {g order node} {disk : Disk} {candidates : List ObjectId}

theorem turns_workspaces (leases : List Lease) (roots : List ObjectId) :
    g.Turns order node (disk, .workspaces candidates leases roots)
      (disk, .workspaces candidates [] (roots ++ leases.flatMap (fun lease =>
        (node.refs.tree.list (wsPrefix lease.id)).map (fun x => x.2.target)))) := by
  induction leases generalizing roots with
  | nil =>
    rw [List.flatMap_nil, List.append_nil]
  | cons lease leases ih =>
    rw [List.flatMap_cons, ← List.append_assoc]
    exact .head rfl (ih _)

theorem turns_sweep (todo keep : List ObjectId) :
    g.Turns order node (disk, .sweep todo keep)
      (disk.sweep keep g.nowUnixSecs g.grace todo, .ended) := by
  induction todo generalizing disk with
  | nil => exact .single rfl
  | cons id todo ih =>
    rw [Disk.sweep, List.foldl_cons]
    refine Relation.ReflTransGen.trans ?_ ih
    by_cases hgoes : id ∉ keep ∧ disk.Old g.nowUnixSecs g.grace id
    · -- the age is looked at first, and then the file goes
      obtain ⟨hkeep, hold⟩ := hgoes
      rw [Disk.sweepOne_eq_of_old hkeep hold]
      obtain ⟨mtime, hmtime, hage⟩ := hold
      have hdoomed : (disk, .doomed id todo keep) =
          g.turn order node disk (.sweep (id :: todo) keep) := by
        simp only [turn]
        rw [if_neg hkeep, hmtime]
        dsimp only
        rw [if_neg (Nat.not_lt_of_le hage)]
      exact .head hdoomed (.single rfl)
    · have hstays : id ∈ keep ∨ ¬ disk.Old g.nowUnixSecs g.grace id := by
        by_cases hid : id ∈ keep
        · exact Or.inl hid
        · exact Or.inr fun hold => hgoes ⟨hid, hold⟩
      rw [Disk.sweepOne_eq_self hstays]
      refine .single ?_
      simp only [Turn, turn]
      split_ifs with hkeep
      · rfl
      · split
        · rfl
        · rename_i mtime hmtime
          split_ifs with hyoung
          · rfl
          · exact absurd ⟨mtime, hmtime, Nat.le_of_not_lt hyoung⟩ (hstays.resolve_left hkeep)

/-- **The accesses of a pass add up to `run_at`.** -/
theorem turns_runAt (disk : Disk) :
    g.Turns order node (disk, .idle) ((g.runAt order node disk).2, .ended) := by
  have hcollect : g.Turns order node (disk, .idle)
      (disk, .workspaces disk.listAllIds [] (g.roots order node)) :=
    .head rfl (.head rfl (.head rfl (turns_workspaces _ _)))
  refine hcollect.trans ?_
  unfold runAt Disk.markSweep
  cases hmark : (g.view disk).mark (g.roots order node) with
  | error e =>
    refine .single ?_
    simp only [Turn, turn]
    rw [hmark]
  | ok keep =>
    refine .head ?_ (turns_sweep disk.listAllIds keep)
    simp only [Turn, turn]
    rw [hmark]

end Gc

end Ledge.Workspace
