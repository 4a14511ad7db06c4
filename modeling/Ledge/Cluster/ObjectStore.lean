import Ledge.Objects.TypedWrites
import Mathlib.Data.Fintype.Card

/-!
# Ledge.Cluster.ObjectStore

The replicated object store of a shard (`object_store.rs`), over the disk stores of its replicas.
Any number of writes, reads and existence checks at any replicas are interleaved **one peer call at
a time**; each call of a peer may fail, also after the peer has done what it was asked.

Peers are those of `net_http.rs` with the endpoints of `object_routes.rs`. The lists of errors in
the texts of errors are left out.
-/

namespace Ledge.Cluster

open Ledge.Core Ledge.Objects Function List Option

/-- The replicas of a shard: the peers of a replica are all the others. -/
structure ReplicaSet (I : Type) where
  peers : I → List I
  nodup : ∀ i, (peers i).Nodup
  mem_peers : ∀ i j, j ∈ peers i ↔ j ≠ i

/-- `quorum`, of a node with some number of peers -/
def quorum (peers : Nat) : Nat := (peers + 1) / 2 + 1

/-- The result of `write` and `write_git_object` when some peers have answered, and the node itself
has the object; none while the call waits. `label` is for the text of the error. -/
def quorumResult (peers : Nat) (label : String) (id : ObjectId) (acks answered : Nat) :
    Option (Except LedgeError ObjectId) :=
  let need := quorum peers
  if need ≤ acks then some (.ok id)
  else if answered = peers then
    some (.error (.unavailable (label ++ " " ++ id.toHex ++ " reached " ++ toString acks ++ "/" ++
      toString need ++ " acks")))
  else none

theorem quorumResult_ok_iff {peers : Nat} {label : String} {id id' : ObjectId}
    {acks answered : Nat} :
    quorumResult peers label id acks answered = some (.ok id') ↔ id' = id ∧
      quorum peers ≤ acks := by
  unfold quorumResult
  dsimp only
  split_ifs with hreached hall
  · simp [hreached, eq_comm]
  · simp [hreached]
  · simp [hreached]

/-- A put that was sent: the call, the peer and the object. -/
structure PeerPut (I : Type) where
  call : Nat
  peer : I
  object : TypedWrite
  deriving DecidableEq

/-- Where a call is. `owed` are the contents whose writes had returned when it started; the call
does not read it. -/
inductive ObjectCall (I : Type)
  /-- A write, with the peers that have answered. `label` is for the text of its error. -/
  | writing (node : I) (label : String) (w : TypedWrite) (acked failed : List I)
  | wrote (w : TypedWrite) (result : Except LedgeError ObjectId)
  /-- A read that has still to ask the peers in `todo`. -/
  | reading (node : I) (owed : List (List UInt8)) (id : ObjectId) (todo : List I) (errs : Nat)
  /-- A peer has the object, and it is still to be stored. -/
  | repairing (node : I) (owed : List (List UInt8)) (id : ObjectId) (gitType : UInt8)
      (bytes : List UInt8)
  | read (owed : List (List UInt8)) (id : ObjectId) (result : Except LedgeError (List UInt8))
  | probing (owed : List (List UInt8)) (id : ObjectId) (todo : List I) (errs : Nat)
  | probed (owed : List (List UInt8)) (id : ObjectId) (result : Except LedgeError Bool)

/-- The stores of the replicas and the calls. A put that was sent may be executed late, after its
caller has stopped waiting. `contents` are the contents that were written. -/
structure ObjectSys (I : Type) where
  store : I → DiskStore
  calls : List (ObjectCall I)
  puts : List (PeerPut I)
  executed : List (PeerPut I)
  contents : List (List UInt8)

inductive ObjectEvent (I : Type)
  /-- `write` and `write_git_object`, up to the local write -/
  | write (node : I) (label : String) (w : TypedWrite)
  /-- A peer executes a put. -/
  | deliver (put : PeerPut I)
  /-- A write gets the answer of a peer. -/
  | answer (k : Nat) (peer : I) (ok : Bool)
  /-- `read`, up to the local read -/
  | read (node : I) (id : ObjectId)
  /-- `exists`, up to the local check -/
  | probe (node : I) (id : ObjectId)
  /-- A read or a check asks its next peer, or ends. -/
  | ask (k : Nat) (reachable : Bool)
  /-- A read stores what it got. -/
  | repair (k : Nat)

namespace ObjectCall

variable {I : Type}

/-- The content of a write that has returned. -/
def durable : ObjectCall I → Option (List UInt8)
  | .wrote w (.ok _) => some w.content
  | _ => none

end ObjectCall

namespace ObjectSys

variable {I : Type}

/-- Empty stores and no calls. -/
def init : ObjectSys I := ⟨fun _ => .empty, [], [], [], []⟩

/-- The contents whose writes have returned. -/
def durable (s : ObjectSys I) : List (List UInt8) := s.calls.filterMap ObjectCall.durable

variable (P : Primitives)

/-- `get_object`, as its client sees it: the object, or nothing -/
def peerGet (store : DiskStore) (id : ObjectId) : Except LedgeError (Option (UInt8 × List UInt8)) :=
  match (store.read P id).1 with
  | .ok bytes => .ok (some ((store.gitTypeOf id).toOption.getD 3, bytes))
  | .error (.notFound _) => .ok none
  | .error _ => .error (.unavailable ("fetch " ++ id.toHex ++ " from peer returned 500"))

variable (rs : ReplicaSet I)

/-- What becomes of a write when some peers have answered. -/
def afterAnswers (node : I) (label : String) (w : TypedWrite) (acked failed : List I) :
    ObjectCall I :=
  match quorumResult (rs.peers node).length label (P.blake3 w.content) (acked.length + 1)
      (acked.length + failed.length) with
  | some result => .wrote w result
  | none => .writing node label w acked failed

/-- What a read returns when it has asked every peer. -/
def readMissed (id : ObjectId) (errs : Nat) : LedgeError :=
  if errs = 0 then .notFound id
  else .unavailable ("object " ++ id.toHex ++ " absent locally and " ++ toString errs ++
    " peer(s) unreachable")

/-- What a check returns when it has asked every peer. -/
def probeMissed (id : ObjectId) (errs : Nat) : Except LedgeError Bool :=
  if errs = 0 then .ok false
  else .error (.unavailable ("exists(" ++ id.toHex ++ ") inconclusive: " ++ toString errs ++
    " peer(s) unreachable"))

section

variable [DecidableEq I]

def setStore (s : ObjectSys I) (i : I) (store : DiskStore) : ObjectSys I :=
  { s with store := Function.update s.store i store }

/-- One event, if it can happen. -/
def exec (s : ObjectSys I) : ObjectEvent I → Option (ObjectSys I)
  | .write node label w =>
    let (result, store) := (s.store node).writeGitObject P w.gitType w.content
    match result with
    | .error e => some { s with calls := s.calls ++ [.wrote w (.error e)] }
    | .ok _ =>
      some { s.setStore node store with
        calls := s.calls ++ [afterAnswers P rs node label w [] []]
        puts := (rs.peers node).map (fun j => ⟨s.calls.length, j, w⟩) ++ s.puts
        contents := w.content :: s.contents }
  | .deliver put =>
    if put ∈ s.puts then
      some { s.setStore put.peer ((s.store put.peer).writeGitObject P put.object.gitType
          put.object.content).2 with
        executed := put :: s.executed }
    else none
  | .answer k j ok =>
    match s.calls[k]? with
    | some (.writing node label w acked failed) =>
      if j ∈ rs.peers node ∧ j ∉ acked ∧ j ∉ failed then
        if ok then
          if ⟨k, j, w⟩ ∈ s.executed then
            some { s with
              calls := s.calls.set k (afterAnswers P rs node label w (j :: acked) failed) }
          else none
        else
          some { s with
            calls := s.calls.set k (afterAnswers P rs node label w acked (j :: failed)) }
      else none
    | _ => none
  | .read node id =>
    let (result, store) := (s.store node).read P id
    let call : ObjectCall I := match result with
      | .ok bytes => .read s.durable id (.ok bytes)
      | .error (.notFound _) => .reading node s.durable id (rs.peers node) 0
      | .error e => .read s.durable id (.error e)
    some { s.setStore node store with calls := s.calls ++ [call] }
  | .probe node id =>
    let call : ObjectCall I :=
      if (s.store node).has id then .probed s.durable id (.ok true)
      else .probing s.durable id (rs.peers node) 0
    some { s with calls := s.calls ++ [call] }
  | .ask k reachable =>
    match s.calls[k]? with
    | some (.reading _ owed id [] errs) =>
      some { s with calls := s.calls.set k (.read owed id (.error (readMissed id errs))) }
    | some (.reading node owed id (j :: todo) errs) =>
      let call : ObjectCall I :=
        match if reachable then peerGet P (s.store j) id else .error (.unavailable "") with
        | .ok (some (gitType, bytes)) => .repairing node owed id gitType bytes
        | .ok none => .reading node owed id todo errs
        | .error _ => .reading node owed id todo (errs + 1)
      some { s.setStore j ((s.store j).read P id).2 with calls := s.calls.set k call }
    | some (.probing owed id [] errs) =>
      some { s with calls := s.calls.set k (.probed owed id (probeMissed id errs)) }
    | some (.probing owed id (j :: todo) errs) =>
      let call : ObjectCall I :=
        match if reachable then peerGet P (s.store j) id else .error (.unavailable "") with
        | .ok (some _) => .probed owed id (.ok true)
        | .ok none => .probing owed id todo errs
        | .error _ => .probing owed id todo (errs + 1)
      some { s.setStore j ((s.store j).read P id).2 with calls := s.calls.set k call }
    | _ => none
  | .repair k =>
    match s.calls[k]? with
    | some (.repairing node owed id gitType bytes) =>
      let (result, store) := (s.store node).writeGitObject P gitType bytes
      let result : Except LedgeError (List UInt8) := match result with
        | .error e => .error e
        | .ok stored =>
          if stored ≠ id then
            .error (.corruption ("peer object " ++ id.toHex ++ " hashed to " ++ stored.toHex))
          else .ok bytes
      some { s.setStore node store with calls := s.calls.set k (.read owed id result) }
    | _ => none

/-- Local writes, puts, answers and reads in their order, if each can happen. -/
def run (s : ObjectSys I) (events : List (ObjectEvent I)) : Option (ObjectSys I) :=
  events.foldlM (exec P rs) s

/-- What is written can be read again from a file, and its hash does not collide. -/
def Sound (s : ObjectSys I) : ObjectEvent I → Prop
  | .write _ _ w => P.Fits w.content ∧
      ∀ c ∈ s.contents, P.blake3 c = P.blake3 w.content → c = w.content
  | _ => True

instance (s : ObjectSys I) (e : ObjectEvent I) : Decidable (s.Sound P e) := by
  unfold Sound
  split <;> infer_instance

/-- Every write of a run is sound. -/
def SoundRun : ObjectSys I → List (ObjectEvent I) → Prop
  | _, [] => True
  | s, e :: events => s.Sound P e ∧ ∀ s' ∈ s.exec P rs e, SoundRun s' events

instance decidableSoundRun : ∀ (s : ObjectSys I) (events : List (ObjectEvent I)),
    Decidable (s.SoundRun P rs events)
  | _, [] => isTrue trivial
  | s, e :: events =>
    have := fun s' => decidableSoundRun s' events
    inferInstanceAs (Decidable (s.Sound P e ∧ ∀ s' ∈ s.exec P rs e, s'.SoundRun P rs events))

end

/-- The result of a read for which a content was owed. -/
def ReadOk (c : List UInt8) (result : Except LedgeError (List UInt8)) : Prop :=
  result = .ok c ∨ ∃ why, result = .error (.unavailable why)

/-- The result of a check for which a content was owed. -/
def ProbeOk (result : Except LedgeError Bool) : Prop :=
  result = .ok true ∨ ∃ why, result = .error (.unavailable why)

/-- **The promise of the store**: what was written is on a strict majority of the replicas; a read
that started later returns it or is unavailable, and so for a check; and what a read stores has the
hash that it asked for. -/
structure Promise [Fintype I] (s : ObjectSys I) : Prop where
  majority : ∀ w id, .wrote w (.ok id) ∈ s.calls → id = P.blake3 w.content ∧
    ∃ holders : Finset I, Fintype.card I < 2 * holders.card ∧
      ∀ i ∈ holders, ((s.store i).read P id).1 = .ok w.content
  reads : ∀ owed id result, .read owed id result ∈ s.calls →
    ∀ c ∈ owed, P.blake3 c = id → ReadOk c result
  probes : ∀ owed id result, .probed owed id result ∈ s.calls →
    ∀ c ∈ owed, P.blake3 c = id → ProbeOk result
  repairs : ∀ node owed id gitType bytes, .repairing node owed id gitType bytes ∈ s.calls →
    P.blake3 bytes = id

/-! ### The stores only grow -/

/-- The files of a store are of contents that were written. -/
structure StoreInv (contents : List (List UInt8)) (store : DiskStore) : Prop where
  packs : store.packs = []
  files : ∀ id raw, store.loose.lookup id = some raw →
    ∃ w : TypedWrite, w.content ∈ contents ∧ P.blake3 w.content = id ∧ w.file P = some raw

variable {P} {contents contents' : List (List UInt8)} {store : DiskStore} {w : TypedWrite}

theorem StoreInv.mono (h : StoreInv P contents store) (hsub : ∀ c ∈ contents, c ∈ contents') :
    StoreInv P contents' store := by
  refine ⟨h.packs, fun id raw hraw => ?_⟩
  obtain ⟨w, hw, hid, hfile⟩ := h.files id raw hraw
  exact ⟨w, hsub _ hw, hid, hfile⟩

theorem StoreInv.write (h : StoreInv P contents store) (hw : w.content ∈ contents) :
    StoreInv P contents (store.writeGitObject P w.gitType w.content).2 := by
  refine ⟨(DiskStore.packs_writeAll store [w]).trans h.packs, fun id raw hraw => ?_⟩
  rw [DiskStore.lookup_writeGitObject, TypedWrite.writeTo] at hraw
  split_ifs at hraw with hid
  · cases hfile : w.file P with
    | none =>
      rw [hfile] at hraw
      exact h.files id raw hraw
    | some file =>
      rw [hfile] at hraw
      obtain rfl : file = raw := some.inj hraw
      exact ⟨w, hw, hid, hfile⟩
  · exact h.files id raw hraw

variable {id : ObjectId} {todo : List I} {errs k : Nat} {c : List UInt8} {j node : I}
  {label : String}

theorem mem_write (h : id ∈ store.loose) :
    id ∈ (store.writeGitObject P w.gitType w.content).2.loose := by
  obtain ⟨raw, hraw⟩ := Finmap.mem_iff.mp h
  rw [Finmap.mem_iff, DiskStore.lookup_writeGitObject, hraw, TypedWrite.writeTo]
  split_ifs
  · cases w.file P with
    | none => exact ⟨raw, rfl⟩
    | some file => exact ⟨file, rfl⟩
  · exact ⟨raw, rfl⟩

theorem mem_write_self (hvalid : w.Valid) :
    P.blake3 w.content ∈ (store.writeGitObject P w.gitType w.content).2.loose := by
  obtain ⟨typeName, -, hfile, -⟩ := hvalid.file (P := P)
  rw [Finmap.mem_iff, DiskStore.lookup_writeGitObject, TypedWrite.writeTo, if_pos rfl, hfile]
  exact ⟨_, rfl⟩

theorem StoreInv.read_absent (h : StoreInv P contents store) (habsent : id ∉ store.loose) :
    store.read P id = (.error (.notFound id), store) := by
  have hlookup : store.loose.lookup id = none := Finmap.lookup_eq_none.mpr habsent
  unfold DiskStore.read DiskStore.readDepth
  rw [hlookup, h.packs]
  rfl

theorem StoreInv.read_present (h : StoreInv P contents store) (hfits : ∀ c ∈ contents, P.Fits c)
    (hpresent : id ∈ store.loose) : ∃ w : TypedWrite, w.Valid ∧ w.content ∈ contents ∧
      P.blake3 w.content = id ∧ store.read P id = (.ok w.content, store) ∧
      store.gitTypeOf id = .ok w.gitType := by
  obtain ⟨raw, hraw⟩ := Finmap.mem_iff.mp hpresent
  obtain ⟨w, hw, hid, hfile⟩ := h.files id raw hraw
  obtain ⟨typeName, hname, rfl⟩ := map_eq_some_iff.mp hfile
  refine ⟨w, isSome_iff_exists.mpr ⟨typeName, hname⟩, hw, hid, ?_, DiskStore.gitTypeOf_loose hraw⟩
  rw [DiskStore.read, DiskStore.readDepth_loose maxChain hraw, if_pos (hfits _ hw)]

/-! ### What calls have and will have -/

section

variable (P)

/-- A replica has a file for a content. -/
def Holds (s : ObjectSys I) (i : I) (c : List UInt8) : Prop := P.blake3 c ∈ (s.store i).loose

def Majority [Fintype I] (s : ObjectSys I) (c : List UInt8) : Prop :=
  ∃ holders : Finset I, Fintype.card I < 2 * holders.card ∧ ∀ i ∈ holders, s.Holds P i c

/-- A content that is owed will be found, or a peer could not be asked. -/
def WillFind (s : ObjectSys I) (todo : List I) (errs : Nat) (c : List UInt8) : Prop :=
  0 < errs ∨ ∃ j ∈ todo, s.Holds P j c

/-- What holds of a call. -/
def Good [Fintype I] (s : ObjectSys I) : ObjectCall I → Prop
  | .writing node _ w acked _ => w.content ∈ s.contents ∧ s.Holds P node w.content ∧
      acked.Nodup ∧ ∀ j ∈ acked, j ≠ node ∧ s.Holds P j w.content
  | .wrote w result => ∀ id, result = .ok id →
      id = P.blake3 w.content ∧ w.content ∈ s.contents ∧ s.Majority P w.content
  | .reading _ owed id todo errs => ∀ c ∈ owed, P.blake3 c = id →
      c ∈ s.contents ∧ s.WillFind P todo errs c
  | .repairing _ owed id gitType bytes => P.blake3 bytes = id ∧ (gitTypeName gitType).isSome ∧
      bytes ∈ s.contents ∧ ∀ c ∈ owed, P.blake3 c = id → c = bytes
  | .read owed id result => ∀ c ∈ owed, P.blake3 c = id → ReadOk c result
  | .probing owed id todo errs => ∀ c ∈ owed, P.blake3 c = id → s.WillFind P todo errs c
  | .probed owed id result => ∀ c ∈ owed, P.blake3 c = id → ProbeOk result

structure Inv [Fintype I] (s : ObjectSys I) : Prop where
  stores : ∀ i, StoreInv P s.contents (s.store i)
  fits : ∀ c ∈ s.contents, P.Fits c
  free : ∀ c ∈ s.contents, ∀ c' ∈ s.contents, P.blake3 c = P.blake3 c' → c = c'
  puts : ∀ put ∈ s.puts, put.object.Valid ∧ put.object.content ∈ s.contents
  executed : ∀ put ∈ s.executed, s.Holds P put.peer put.object.content
  calls : ∀ call ∈ s.calls, s.Good P call

end

variable {rs : ReplicaSet I} {s s' : ObjectSys I}

theorem WillFind.mono (h : s.WillFind P todo errs c)
    (hholds : ∀ i c, s.Holds P i c → s'.Holds P i c) : s'.WillFind P todo errs c := by
  refine h.imp_right fun hfind => ?_
  obtain ⟨j, hj, hheld⟩ := hfind
  exact ⟨j, hj, hholds j c hheld⟩

theorem WillFind.tail (h : s.WillFind P (j :: todo) errs c) (hcid : P.blake3 c = id)
    (habsent : id ∉ (s.store j).loose) : s.WillFind P todo errs c := by
  refine h.imp_right fun hfind => ?_
  obtain ⟨j', hj', hheld⟩ := hfind
  rcases mem_cons.mp hj' with rfl | hj'
  · exact absurd (hcid ▸ hheld) habsent
  · exact ⟨j', hj', hheld⟩

theorem WillFind.errs_ne_zero (h : s.WillFind P [] errs c) : errs ≠ 0 := by
  rcases h with h | ⟨j, hj, -⟩
  · omega
  · cases hj

theorem readOk_missed (h : s.WillFind P [] errs c) : ReadOk c (.error (readMissed id errs)) := by
  unfold readMissed
  rw [if_neg h.errs_ne_zero]
  exact Or.inr ⟨_, rfl⟩

theorem probeOk_missed (h : s.WillFind P [] errs c) : ProbeOk (probeMissed id errs) := by
  unfold probeMissed
  rw [if_neg h.errs_ne_zero]
  exact Or.inr ⟨_, rfl⟩

section

variable [Fintype I]

variable {c : List UInt8} {call : ObjectCall I}

theorem Majority.mono (h : s.Majority P c) (hholds : ∀ i c, s.Holds P i c → s'.Holds P i c) :
    s'.Majority P c := by
  obtain ⟨holders, hcard, hheld⟩ := h
  exact ⟨holders, hcard, fun i hi => hholds i c (hheld i hi)⟩

theorem Good.mono (h : s.Good P call) (hcontents : ∀ c ∈ s.contents, c ∈ s'.contents)
    (hholds : ∀ i c, s.Holds P i c → s'.Holds P i c) : s'.Good P call := by
  cases call with
  | writing node label w acked failed =>
    obtain ⟨hw, hnode, hnodup, hacked⟩ := h
    exact ⟨hcontents _ hw, hholds _ _ hnode, hnodup,
      fun j hj => ⟨(hacked j hj).1, hholds _ _ (hacked j hj).2⟩⟩
  | wrote w result =>
    intro id hid
    obtain ⟨heq, hw, hmajority⟩ := h id hid
    exact ⟨heq, hcontents _ hw, hmajority.mono hholds⟩
  | reading node owed id todo errs =>
    intro c hc hid
    exact ⟨hcontents _ (h c hc hid).1, (h c hc hid).2.mono hholds⟩
  | repairing node owed id gitType bytes =>
    obtain ⟨hhash, htype, hbytes, howed⟩ := h
    exact ⟨hhash, htype, hcontents _ hbytes, howed⟩
  | probing owed id todo errs => exact fun c hc hid => (h c hc hid).mono hholds
  | read owed id result | probed owed id result => exact h

theorem Inv.durable (h : s.Inv P) (hc : c ∈ s.durable) : c ∈ s.contents ∧ s.Majority P c := by
  obtain ⟨call, hcall, hdurable⟩ := mem_filterMap.mp hc
  have hgood := h.calls call hcall
  unfold ObjectCall.durable at hdurable
  split at hdurable
  · rename_i w id
    cases hdurable
    exact (hgood id rfl).2
  · cases hdurable

/-- A content on a majority is on a peer of a replica that lacks it. -/
theorem Majority.peer (h : s.Majority P c) {node : I} (habsent : ¬ s.Holds P node c) :
    ∃ j ∈ rs.peers node, s.Holds P j c := by
  obtain ⟨holders, hcard, hheld⟩ := h
  have hpos : 0 < holders.card := by omega
  obtain ⟨j, hj⟩ := Finset.card_pos.mp hpos
  have hne : j ≠ node := fun heq => habsent (heq ▸ hheld j hj)
  exact ⟨j, (rs.mem_peers node j).mpr hne, hheld j hj⟩

theorem Inv.setCall (h : s.Inv P) {k : Nat} (hcall : s.Good P call) :
    Inv P { s with calls := s.calls.set k call } := by
  refine ⟨h.stores, h.fits, h.free, h.puts, h.executed, fun c hc => ?_⟩
  rcases mem_or_eq_of_mem_set hc with hc | rfl
  · exact h.calls c hc
  · exact hcall

theorem Inv.addCall (h : s.Inv P) (hcall : s.Good P call) :
    Inv P { s with calls := s.calls ++ [call] } := by
  refine ⟨h.stores, h.fits, h.free, h.puts, h.executed, fun c hc => ?_⟩
  rcases mem_append.mp hc with hc | hc
  · exact h.calls c hc
  · obtain rfl := mem_singleton.mp hc
    exact hcall

/-- A write that starts adds its content to those that were written. -/
theorem Inv.addContent (h : s.Inv P) (hfits : P.Fits c)
    (hfree : ∀ c' ∈ s.contents, P.blake3 c' = P.blake3 c → c' = c) :
    Inv P { s with contents := c :: s.contents } := by
  have hsub : ∀ c' ∈ s.contents, c' ∈ c :: s.contents := fun c' hc' => mem_cons_of_mem c hc'
  refine ⟨fun i => (h.stores i).mono hsub, ?_, ?_, fun put hput => ⟨(h.puts put hput).1,
    hsub _ (h.puts put hput).2⟩, h.executed,
    fun call hcall => (h.calls call hcall).mono hsub fun i c hc => hc⟩
  · intro c' hc'
    rcases mem_cons.mp hc' with rfl | hc'
    · exact hfits
    · exact h.fits c' hc'
  · intro c₁ h₁ c₂ h₂ heq
    rcases mem_cons.mp h₁ with rfl | hold₁
    · rcases mem_cons.mp h₂ with rfl | hold₂
      · rfl
      · exact (hfree c₂ hold₂ heq.symm).symm
    · rcases mem_cons.mp h₂ with rfl | hold₂
      · exact hfree c₁ hold₁ heq
      · exact h.free c₁ hold₁ c₂ hold₂ heq

theorem Inv.addPuts (h : s.Inv P) {puts : List (PeerPut I)}
    (hputs : ∀ put ∈ puts, put.object.Valid ∧ put.object.content ∈ s.contents) :
    Inv P { s with puts := puts ++ s.puts } := by
  refine ⟨h.stores, h.fits, h.free, fun put hput => ?_, h.executed, h.calls⟩
  rcases mem_append.mp hput with hput | hput
  · exact hputs put hput
  · exact h.puts put hput

/-- What `peerGet` gives. -/
theorem Inv.peerGet (h : s.Inv P) (j : I) (id : ObjectId) : ((s.store j).read P id).2 = s.store j ∧
    (id ∉ (s.store j).loose ∧ ObjectSys.peerGet P (s.store j) id = .ok none ∨
      ∃ w : TypedWrite, w.Valid ∧ w.content ∈ s.contents ∧ P.blake3 w.content = id ∧
        ObjectSys.peerGet P (s.store j) id = .ok (some (w.gitType, w.content))) := by
  by_cases hpresent : id ∈ (s.store j).loose
  · obtain ⟨w, hvalid, hw, hid, hread, htype⟩ := (h.stores j).read_present h.fits hpresent
    refine ⟨by rw [hread], Or.inr ⟨w, hvalid, hw, hid, ?_⟩⟩
    unfold ObjectSys.peerGet
    rw [hread, htype]
    rfl
  · have hread := (h.stores j).read_absent hpresent
    refine ⟨by rw [hread], Or.inl ⟨hpresent, ?_⟩⟩
    unfold ObjectSys.peerGet
    rw [hread]

theorem inv_init : (init : ObjectSys I).Inv P where
  stores _ := ⟨rfl, nofun⟩
  fits := nofun
  free := nofun
  puts := nofun
  executed := nofun
  calls := nofun

theorem Inv.promise (h : s.Inv P) : s.Promise P where
  majority w id hcall := by
    obtain ⟨rfl, hw, holders, hcard, hheld⟩ := h.calls _ hcall id rfl
    refine ⟨rfl, holders, hcard, fun i hi => ?_⟩
    obtain ⟨w', -, hw', hid, hread, -⟩ := (h.stores i).read_present h.fits (hheld i hi)
    rw [hread, h.free w'.content hw' w.content hw hid]
  reads owed id result hcall := h.calls _ hcall
  probes owed id result hcall := h.calls _ hcall
  repairs node owed id gitType bytes hcall := (h.calls _ hcall).1

end

variable [DecidableEq I]

theorem setStore_self (s : ObjectSys I) (i : I) : s.setStore i (s.store i) = s := by
  unfold setStore
  rw [update_eq_self]

theorem holds_setStore {i : I} (h : s.Holds P i c) :
    (s.setStore node ((s.store node).writeGitObject P w.gitType w.content).2).Holds P i c := by
  unfold Holds setStore
  dsimp only
  by_cases hi : i = node
  · obtain rfl := hi
    rw [update_self]
    exact mem_write h
  · rw [update_of_ne hi]
    exact h

theorem holds_setStore_self (hvalid : w.Valid) :
    (s.setStore node ((s.store node).writeGitObject P w.gitType w.content).2).Holds P node
      w.content := by
  unfold Holds setStore
  dsimp only
  rw [update_self]
  exact mem_write_self hvalid

variable [Fintype I]

theorem card_eq_peers (rs : ReplicaSet I) (i : I) : Fintype.card I = (rs.peers i).length + 1 := by
  have hnodup : (i :: rs.peers i).Nodup :=
    nodup_cons.mpr ⟨fun hi => (rs.mem_peers i i).mp hi rfl, rs.nodup i⟩
  have hall : (i :: rs.peers i).toFinset = Finset.univ := by
    ext j
    simp only [List.mem_toFinset, mem_cons, rs.mem_peers, Finset.mem_univ, iff_true]
    exact em (j = i)
  rw [← Finset.card_univ, ← hall, toFinset_card_of_nodup hnodup, length_cons]

/-- **Enough answers are a majority.** -/
theorem good_afterAnswers {acked : List I} (h : s.Good P (.writing node label w acked []))
    (failed : List I) : s.Good P (afterAnswers P rs node label w acked failed) := by
  obtain ⟨hw, hnode, hnodup, hacked⟩ := h
  unfold afterAnswers
  split
  · rename_i result hresult
    intro id hid
    rw [hid] at hresult
    obtain ⟨rfl, henough⟩ := quorumResult_ok_iff.mp hresult
    refine ⟨rfl, hw, (node :: acked).toFinset, ?_, ?_⟩
    · have hnodup' : (node :: acked).Nodup :=
        nodup_cons.mpr ⟨fun hmem => (hacked node hmem).1 rfl, hnodup⟩
      rw [toFinset_card_of_nodup hnodup', length_cons, card_eq_peers rs node]
      unfold quorum at henough
      omega
    · intro i hi
      rcases mem_cons.mp (List.mem_toFinset.mp hi) with rfl | hi
      · exact hnode
      · exact (hacked i hi).2
  · exact ⟨hw, hnode, hnodup, hacked⟩

theorem Inv.setStore (h : s.Inv P) (node : I) (hw : w.content ∈ s.contents) :
    (s.setStore node ((s.store node).writeGitObject P w.gitType w.content).2).Inv P := by
  refine ⟨fun i => ?_, h.fits, h.free, h.puts, fun put hput => holds_setStore (h.executed put hput),
    fun call hcall => (h.calls call hcall).mono (fun c hc => hc) fun i c hc => holds_setStore hc⟩
  unfold ObjectSys.setStore
  dsimp only
  by_cases hi : i = node
  · obtain rfl := hi
    rw [update_self]
    exact (h.stores i).write hw
  · rw [update_of_ne hi]
    exact h.stores i

/-! ### Runs -/

theorem Inv.write (h : s.Inv P) (hsound : s.Sound P (.write node label w))
    (hexec : s.exec P rs (.write node label w) = some s') : s'.Inv P := by
  obtain ⟨hfits, hfree⟩ := hsound
  simp only [exec] at hexec
  cases hname : gitTypeName w.gitType with
  | none =>
    have hwrite : (s.store node).writeGitObject P w.gitType w.content =
        (.error (.corruption ("unknown git object type " ++ toString w.gitType.toNat)),
          s.store node) := by
      unfold DiskStore.writeGitObject
      rw [hname]
    rw [hwrite] at hexec
    cases hexec
    refine h.addCall fun id hid => ?_
    cases hid
  | some typeName =>
    have hvalid : w.Valid := isSome_iff_exists.mpr ⟨typeName, hname⟩
    have hresult : ((s.store node).writeGitObject P w.gitType w.content).1 =
        .ok (P.blake3 w.content) := by
      unfold DiskStore.writeGitObject
      rw [hname]
    rw [hresult] at hexec
    cases hexec
    have hwritten := (h.addContent hfits hfree).setStore node (w := w) mem_cons_self
    have hputs : ∀ put ∈ (rs.peers node).map (fun j => (⟨s.calls.length, j, w⟩ : PeerPut I)),
        put.object.Valid ∧ put.object.content ∈ w.content :: s.contents := by
      intro put hput
      obtain ⟨j, -, rfl⟩ := List.mem_map.mp hput
      exact ⟨hvalid, mem_cons_self⟩
    refine (hwritten.addPuts hputs).addCall
      (good_afterAnswers ⟨mem_cons_self, ?_, nodup_nil, ?_⟩ [])
    · exact holds_setStore_self hvalid
    · intro j hj
      cases hj

theorem Inv.deliver {put : PeerPut I} (h : s.Inv P) (hexec : s.exec P rs (.deliver put) = some s') :
    s'.Inv P := by
  simp only [exec] at hexec
  split_ifs at hexec with hput
  cases hexec
  obtain ⟨hvalid, hcontent⟩ := h.puts put hput
  have hstored := h.setStore put.peer hcontent
  refine ⟨hstored.stores, hstored.fits, hstored.free, hstored.puts, ?_, hstored.calls⟩
  intro put' hput'
  rcases mem_cons.mp hput' with rfl | hput'
  · exact holds_setStore_self hvalid
  · exact hstored.executed put' hput'

theorem Inv.answer {ok : Bool} (h : s.Inv P) (hexec : s.exec P rs (.answer k j ok) = some s') :
    s'.Inv P := by
  simp only [exec] at hexec
  split at hexec
  · rename_i node label w acked failed hcall
    have hgood := h.calls _ (mem_of_getElem? hcall)
    split_ifs at hexec with hnew hok hexecuted
    · cases hexec
      obtain ⟨hw, hnode, hnodup, hacked⟩ := hgood
      refine h.setCall (good_afterAnswers
        ⟨hw, hnode, nodup_cons.mpr ⟨hnew.2.1, hnodup⟩, fun j' hj' => ?_⟩ failed)
      rcases mem_cons.mp hj' with rfl | hj'
      · exact ⟨(rs.mem_peers node j').mp hnew.1, h.executed _ hexecuted⟩
      · exact hacked j' hj'
    · cases hexec
      exact h.setCall (good_afterAnswers hgood (j :: failed))
  · cases hexec

theorem Inv.read (h : s.Inv P) (hexec : s.exec P rs (.read node id) = some s') : s'.Inv P := by
  simp only [exec] at hexec
  cases hexec
  by_cases hpresent : id ∈ (s.store node).loose
  · obtain ⟨w, -, hw, hid, hread, -⟩ := (h.stores node).read_present h.fits hpresent
    rw [hread, setStore_self]
    refine h.addCall fun c hc hcid => Or.inl ?_
    rw [h.free c (h.durable hc).1 w.content hw (hcid.trans hid.symm)]
  · rw [(h.stores node).read_absent hpresent, setStore_self]
    refine h.addCall fun c hc hcid => ?_
    obtain ⟨hcontent, hmajority⟩ := h.durable hc
    have habsent : ¬ s.Holds P node c := by
      unfold Holds
      rwa [hcid]
    exact ⟨hcontent, Or.inr (hmajority.peer habsent)⟩

theorem Inv.probe (h : s.Inv P) (hexec : s.exec P rs (.probe node id) = some s') : s'.Inv P := by
  cases hexec
  refine h.addCall ?_
  split_ifs with hhas
  · exact fun c _ _ => Or.inl rfl
  · intro c hc hcid
    have habsent : ¬ s.Holds P node c := by
      intro hheld
      obtain ⟨raw, hraw⟩ := Finmap.mem_iff.mp hheld
      rw [hcid] at hraw
      refine hhas ?_
      unfold DiskStore.has
      rw [hraw]
      rfl
    exact Or.inr ((h.durable hc).2.peer habsent)

theorem Inv.ask {reachable : Bool} (h : s.Inv P)
    (hexec : s.exec P rs (.ask k reachable) = some s') :
    s'.Inv P := by
  simp only [exec] at hexec
  split at hexec
  · rename_i node owed id errs hcall
    have hgood := h.calls _ (mem_of_getElem? hcall)
    cases hexec
    exact h.setCall fun c hc hcid => readOk_missed (hgood c hc hcid).2
  · rename_i node owed id j todo errs hcall
    have hgood := h.calls _ (mem_of_getElem? hcall)
    cases hexec
    obtain ⟨hstore, hget⟩ := h.peerGet j id
    rw [hstore, setStore_self]
    refine h.setCall ?_
    cases reachable with
    | false => exact fun c hc hcid => ⟨(hgood c hc hcid).1, Or.inl (Nat.succ_pos errs)⟩
    | true =>
      rcases hget with ⟨habsent, hget⟩ | ⟨w, hvalid, hw, hid, hget⟩
      · rw [if_pos rfl, hget]
        exact fun c hc hcid => ⟨(hgood c hc hcid).1, (hgood c hc hcid).2.tail hcid habsent⟩
      · rw [if_pos rfl, hget]
        exact ⟨hid, hvalid, hw, fun c hc hcid =>
          h.free c (hgood c hc hcid).1 w.content hw (hcid.trans hid.symm)⟩
  · rename_i owed id errs hcall
    have hgood := h.calls _ (mem_of_getElem? hcall)
    cases hexec
    exact h.setCall fun c hc hcid => probeOk_missed (hgood c hc hcid)
  · rename_i owed id j todo errs hcall
    have hgood := h.calls _ (mem_of_getElem? hcall)
    cases hexec
    obtain ⟨hstore, hget⟩ := h.peerGet j id
    rw [hstore, setStore_self]
    refine h.setCall ?_
    cases reachable with
    | false => exact fun c hc hcid => Or.inl (Nat.succ_pos errs)
    | true =>
      rcases hget with ⟨habsent, hget⟩ | ⟨w, hvalid, hw, hid, hget⟩
      · rw [if_pos rfl, hget]
        exact fun c hc hcid => (hgood c hc hcid).tail hcid habsent
      · rw [if_pos rfl, hget]
        exact fun c _ _ => Or.inl rfl
  · cases hexec

theorem Inv.repair (h : s.Inv P) (hexec : s.exec P rs (.repair k) = some s') : s'.Inv P := by
  simp only [exec] at hexec
  split at hexec
  · rename_i node owed id gitType bytes hcall
    obtain ⟨hid, htype, hbytes, howed⟩ := h.calls _ (mem_of_getElem? hcall)
    cases hexec
    have hresult : ((s.store node).writeGitObject P gitType bytes).1 = .ok (P.blake3 bytes) := by
      obtain ⟨typeName, hname⟩ := isSome_iff_exists.mp htype
      unfold DiskStore.writeGitObject
      rw [hname]
    rw [hresult]
    refine (h.setStore node (w := ⟨gitType, bytes⟩) hbytes).setCall fun c hc hcid => ?_
    dsimp only
    rw [if_neg (not_not.mpr hid), howed c hc hcid]
    exact Or.inl rfl
  · cases hexec

/-- **Every event keeps the invariant.** -/
theorem Inv.exec {e : ObjectEvent I} (h : s.Inv P) (hsound : s.Sound P e)
    (hexec : s.exec P rs e = some s') : s'.Inv P := by
  cases e with
  | write node label w => exact h.write hsound hexec
  | deliver put => exact h.deliver hexec
  | answer k peer ok => exact h.answer hexec
  | read node id => exact h.read hexec
  | probe node id => exact h.probe hexec
  | ask k reachable => exact h.ask hexec
  | repair k => exact h.repair hexec

theorem Inv.run {events : List (ObjectEvent I)} (h : s.Inv P) (hsound : s.SoundRun P rs events)
    (hrun : s.run P rs events = some s') : s'.Inv P := by
  induction events generalizing s with
  | nil =>
    cases hrun
    exact h
  | cons e events ih =>
    obtain ⟨hfirst, hrest⟩ := hsound
    obtain ⟨s₁, hexec, hrun⟩ := bind_eq_some_iff.mp hrun
    exact ih (h.exec hfirst hexec) (hrest s₁ hexec) hrun

/-- **The replicated store keeps its promise** in every run in which what is written can be read
again from a file and does not collide. -/
theorem promise_of_soundRun (rs : ReplicaSet I) {events : List (ObjectEvent I)} {s : ObjectSys I}
    (hrun : init.run P rs events = some s) (hsound : init.SoundRun P rs events) : s.Promise P :=
  (inv_init.run hsound hrun).promise

end ObjectSys

/-! ### Contents that cannot be read again -/

/-- A shard with one replica. -/
def alone : ReplicaSet Unit := ⟨fun _ => [], fun _ => nodup_nil, fun _ _ => by simp⟩

/-- A write, and then a read of what was written. -/
def writeThenRead (P : Primitives) (content : List UInt8) : List (ObjectEvent Unit) :=
  [.write () "object" ⟨3, content⟩, .read () (P.blake3 content)]

/-- The write returns. -/
def afterWrite (P : Primitives) (content : List UInt8) : ObjectSys Unit where
  store := Function.update (fun _ => .empty) () (DiskStore.empty.writeGitObject P 3 content).2
  calls := [.wrote ⟨3, content⟩ (.ok (P.blake3 content))]
  puts := []
  executed := []
  contents := [content]

/-- A content that is too large for the reader is written, and the read of it is neither answered
nor unavailable. -/
theorem calls_writeThenRead (P : Primitives) {content : List UInt8} (h : ¬ P.Fits content) :
    ∃ s, ObjectSys.init.run P alone (writeThenRead P content) = some s ∧
      s.calls = [.wrote ⟨3, content⟩ (.ok (P.blake3 content)),
        .read [content] (P.blake3 content) (.error (.corruption
          ("object " ++ (P.blake3 content).toHex ++ ": inflated too large")))] := by
  have hlookup : ((DiskStore.empty.writeGitObject P 3 content).2.loose).lookup (P.blake3 content) =
      some (P.looseFile "blob" 3 content) := Finmap.lookup_insert _
  have hread := DiskStore.readDepth_loose maxChain hlookup
  rw [if_neg h] at hread
  have hexec : (afterWrite P content).exec P alone (.read () (P.blake3 content)) = some
      { (afterWrite P content).setStore () (DiskStore.empty.writeGitObject P 3 content).2 with
        calls := (afterWrite P content).calls ++
          [.read [content] (P.blake3 content) (.error (.corruption
          ("object " ++ (P.blake3 content).toHex ++ ": inflated too large")))] } := by
    have hstore : (afterWrite P content).store () =
        (DiskStore.empty.writeGitObject P 3 content).2 :=
      rfl
    simp only [ObjectSys.exec]
    rw [hstore, DiskStore.read, hread]
    rfl
  have hrun : ObjectSys.init.run P alone (writeThenRead P content) =
      (afterWrite P content).exec P alone (.read () (P.blake3 content)) := by
    rfl
  exact ⟨_, hrun.trans hexec, rfl⟩

/-- One byte more than the reader of loose files allows. -/
@[irreducible] def zeros : List UInt8 := replicate (maxDecompressed + 1) 0

/-- A codec that shrinks `zeros`. -/
def shrinkingPrimitives : Primitives where
  blake3 content := .fill (checksum content)
  sha1 content := .fill (checksum content)
  deflate content := if content = zeros then [2] else announce content
  inflate data := if data.head? = some 2 then some (zeros, 1) else readAnnounced data
  inflate_deflate content rest := by
    by_cases h : content = zeros
    · rw [if_pos h, h]
      rfl
    · have hhead : (announce content ++ rest).head? ≠ some 2 := by
        cases content with
        | nil | cons b content => exact nofun
      rw [if_neg h, if_neg hhead]
      exact readAnnounced_announce content rest

theorem not_fits_zeros : ¬ shrinkingPrimitives.Fits zeros := by
  have hlength : zeros.length = maxDecompressed + 1 := by
    unfold zeros
    exact length_replicate
  have hdeflate : shrinkingPrimitives.deflate zeros = [2] := if_pos rfl
  unfold Primitives.Fits
  rw [hlength, hdeflate]
  decide

/-- A write of more than 2 GiB returns, and a read of it at the same replica fails for good. -/
theorem large_object_unreadable :
    ∃ s, ObjectSys.init.run shrinkingPrimitives alone (writeThenRead shrinkingPrimitives zeros) =
      some s ∧ .wrote ⟨3, zeros⟩ (.ok (shrinkingPrimitives.blake3 zeros)) ∈ s.calls ∧
      ¬ s.Promise shrinkingPrimitives := by
  obtain ⟨s, hrun, hcalls⟩ := calls_writeThenRead shrinkingPrimitives not_fits_zeros
  refine ⟨s, hrun, by rw [hcalls]; exact mem_cons_self, fun hpromise => ?_⟩
  have hread := hpromise.reads _ _ _ (hcalls ▸ mem_cons_of_mem _ mem_cons_self) zeros
    mem_cons_self rfl
  rcases hread with h | ⟨why, h⟩
  · cases h
  · cases h

/-- Three replicas. -/
def trio : ReplicaSet (Fin 3) where
  peers i := (finRange 3).filter (fun j => j ≠ i)
  nodup i := (nodup_finRange 3).filter _
  mem_peers i j := by simp [mem_filter]

/-- The replica that writes. -/
def writer : Fin 3 := ⟨0, by decide⟩

/-- The replica that acknowledges. -/
def reached : Fin 3 := ⟨1, by decide⟩

/-- The replica that is not reached. -/
def missed : Fin 3 := ⟨2, by decide⟩

/-- A write that one peer acknowledges, and a read at the replica that it did not reach. -/
def quorumRun : List (ObjectEvent (Fin 3)) :=
  [.write writer "object" ⟨3, [1]⟩, .deliver ⟨0, reached, ⟨3, [1]⟩⟩, .answer 0 missed false,
    .answer 0 reached true, .read missed (samplePrimitives.blake3 [1]), .ask 1 false, .ask 1 true,
    .repair 1]

theorem quorum_write_readable : ∃ s, ObjectSys.init.run samplePrimitives trio quorumRun = some s ∧
    s.calls.length = 2 ∧ s.Promise samplePrimitives := by
  have hcalls : (ObjectSys.init.run samplePrimitives trio quorumRun).map (fun s => s.calls.length) =
      some 2 := by decide +kernel
  obtain ⟨s, hrun, hs⟩ := map_eq_some_iff.mp hcalls
  exact ⟨s, hrun, hs, ObjectSys.promise_of_soundRun trio hrun (by decide +kernel)⟩

end Ledge.Cluster
