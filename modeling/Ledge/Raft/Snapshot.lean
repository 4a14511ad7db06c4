import Ledge.Raft.Crash

/-!
# Ledge.Raft.Snapshot

**Snapshots**: what a payload carries, and what becomes of the directory of a state
machine that installs one.

A payload lists the visible refs, the leases that `live(0)` lists and the transaction
records. It carries no locks and no lease that expires at 0. `snapshot_install_iff` says
that this is all that can be missed.
-/

namespace Ledge.Raft

open Ledge.Core Ledge.RefStore Ledge.Workspace Ledge.Lib List Option StateMachine

/-! ### Building and installing -/

/-- `build_snapshot`: the payload is a dump of the replica, up to the applied position. -/
structure BuildsSnapshot (sm : StateMachine) (snap : PersistedSnapshot) : Prop where
  lastLogId : snap.lastLogId = sm.lastAppliedLog
  payload : StateMachine.Dumps sm.replica snap.payload

theorem checkRefs_names (entries : List (RefName × RefEntry)) :
    checkRefs (entries.map (fun x => (x.1.asStr, x.2))) = .ok entries := by
  induction entries with
  | nil => rfl
  | cons x entries ih =>
    simp only [map_cons, checkRefs, RefName.new_asStr, ih]
    rfl

variable {snap : PersistedSnapshot}

theorem installSnapshot_eq (sm₁ : StateMachine) {entries : List (RefName × RefEntry)}
    (h : checkRefs snap.payload.refs = .ok entries) :
    ∃ sm', sm₁.installSnapshot snap = .ok sm' ∧
      sm'.replica = restored entries snap.payload := by
  rw [StateMachine.installSnapshot, StateMachine.restore, h]
  exact ⟨_, rfl, rfl⟩

/-! ### What a dump restores -/

section Restored

variable {r : Replica} {d : StateDump}

theorem slot_restored (r : Replica) (d : StateDump) (n : RefName) :
    (restored (r.refs.tree.list "") d).refs.tree.slot n =
      (r.refs.tree.get n).map RefSlot.ofCommitted := by
  show ((r.refs.tree.list "").foldl insertCommitted .empty).slot n = _
  rw [slot_foldl_insertCommitted, lastFor_list]
  cases r.refs.tree.get n <;> rfl

theorem lookup_restored (h : StateMachine.Dumps r d) (id : WorkspaceId) :
    (restored (r.refs.tree.list "") d).leases.index.lookup id =
      (r.leases.index.lookup id).filter (fun l => 0 < l.expiresAtMs) :=
  LeaseStore.get_foldl_put h.leases id

variable {l : List (TxnId × TxnRecord)}

theorem lookup_foldl_insert_of_not_mem {t : TxnId} (h : t ∉ l.map Prod.fst) (m : TxnRecords) :
    (l.foldl (fun m x => m.insert x.1 x.2) m).lookup t = m.lookup t := by
  induction l generalizing m with
  | nil => rfl
  | cons x l ih =>
    simp only [map_cons, mem_cons, not_or] at h
    rw [foldl_cons, ih h.2, Finmap.lookup_insert_of_ne m h.1]

theorem lookup_foldl_insert_of_mem {t : TxnId} {record : TxnRecord}
    (hnodup : (l.map Prod.fst).Nodup) (h : (t, record) ∈ l) (m : TxnRecords) :
    (l.foldl (fun m x => m.insert x.1 x.2) m).lookup t = some record := by
  induction l generalizing m with
  | nil => cases h
  | cons x l ih =>
    obtain ⟨hx, hl⟩ := nodup_cons.mp hnodup
    rcases mem_cons.mp h with rfl | h
    · rw [foldl_cons, lookup_foldl_insert_of_not_mem hx, Finmap.lookup_insert]
    · exact ih hl h _

theorem txnRecords_restored (h : StateMachine.Dumps r d)
    (entries : List (RefName × RefEntry)) :
    (restored entries d).txnRecords = r.txnRecords := by
  have hnodup : (d.txnRecords.map Prod.fst).Nodup := by
    refine pairwise_map.mpr (h.txnSorted.imp fun {x y} hxy heq => ?_)
    rw [heq] at hxy
    exact List.lt_irrefl _ hxy
  apply Finmap.ext_lookup
  intro t
  show (d.txnRecords.foldl (fun (m : TxnRecords) x => m.insert x.1 x.2) ∅).lookup t = _
  cases hlook : r.txnRecords.lookup t with
  | some record => exact lookup_foldl_insert_of_mem hnodup ((h.txnRecords (t, record)).mpr hlook) ∅
  | none =>
    have habsent : t ∉ d.txnRecords.map Prod.fst := by
      intro ht
      obtain ⟨x, hx, rfl⟩ := List.mem_map.mp ht
      rw [(h.txnRecords x).mp hx] at hlook
      cases hlook
    rw [lookup_foldl_insert_of_not_mem habsent, Finmap.lookup_empty]

/-- Without locks and leases that expire at 0, nothing is missed. -/
theorem same_restored (h : StateMachine.Dumps r d) (htidy : r.refs.tree.Tidy)
    (hlock : ∀ n, r.refs.tree.lock n = none)
    (hlease : ∀ id l, r.leases.index.lookup id = some l → l.expiresAtMs ≠ 0) :
    (restored (r.refs.tree.list "") d).Same r := by
  have hplain : r.refs.tree.Plain := by
    refine htidy.plain fun n s hs => ?_
    have hn := hlock n
    rw [RefTree.lock, hs] at hn
    exact hn
  refine ⟨fun n => ?_, LeaseIndex.ext_lookup fun id => ?_, txnRecords_restored h _⟩
  · rw [slot_restored, hplain n]
  · rw [lookup_restored h]
    cases hlook : r.leases.index.lookup id with
    | none => rfl
    | some l => simp [Nat.pos_of_ne_zero (hlease id l hlook)]

end Restored

/-! ### Installing against replaying -/

/-- What is compared: the target and the version of the visible refs, the leases and the
transaction records. -/
structure Visible where
  refs : RefName → Option (ObjectId × Nat)
  leases : LeaseIndex
  txnRecords : TxnRecords

def Observed.visible (o : Observed) : Visible :=
  ⟨fun n => (o.refs n).map (fun e => (e.target, e.version)), o.leases, o.txnRecords⟩

/-- The responses from the `k`-th on and what is visible at the end. -/
def visibleFrom (k : Nat) (x : StateMachine × List LedgeResp) : List LedgeResp × Visible :=
  ((resultsFrom k x).1, (resultsFrom k x).2.visible)

/-- Installing the snapshot in `sm₁` and applying `S` gives for `S` what applying `P ++ S`
to `sm₀` gives. -/
def InstallEquivalent (sm₀ sm₁ : StateMachine) (P S : List Entry) (snap : PersistedSnapshot) :
    Prop :=
  ∃ sm', sm₁.installSnapshot snap = .ok sm' ∧
    (sm'.apply S).map (visibleFrom 0) = (sm₀.apply (P ++ S)).map (visibleFrom P.length)

theorem installEquivalent_iff {sm₀ : StateMachine} (sm₁ : StateMachine) {P : List Entry}
    (S : List Entry) {as : List (Action × Bool)} (has : actions (durably P) = some as)
    (hdump : StateMachine.Dumps (sm₀.replica.performAll as).1 snap.payload) :
    let r := (sm₀.replica.performAll as).1
    let r' := restored (r.refs.tree.list "") snap.payload
    InstallEquivalent sm₀ sm₁ P S snap ↔
      ∀ bs, actions (durably S) = some bs →
        (r'.performAll bs).2 = (r.performAll bs).2 ∧
          (r'.performAll bs).1.observed.visible = (r.performAll bs).1.observed.visible := by
  intro r r'
  have hnames : checkRefs snap.payload.refs = .ok (r.refs.tree.list "") := by
    rw [hdump.refs]
    exact checkRefs_names _
  obtain ⟨sm', hinstall, hreplica⟩ := installSnapshot_eq sm₁ hnames
  have hdirect : (sm₀.apply (P ++ S)).map (visibleFrom P.length) =
      (actions (durably S)).map (fun bs =>
        ((r.performAll bs).2, (r.performAll bs).1.observed.visible)) := by
    have hresults : Option.map (Prod.map id Observed.visible)
        ((sm₀.apply (P ++ S)).map (resultsFrom P.length)) = _ :=
      congrArg _ (apply_append_results has S)
    rw [Option.map_map, Option.map_map] at hresults
    exact hresults
  have hinstalled : (sm'.apply S).map (visibleFrom 0) =
      (actions (durably S)).map (fun bs =>
        ((r'.performAll bs).2, (r'.performAll bs).1.observed.visible)) := by
    rw [apply_eq, Option.map_map, hreplica]
    rfl
  simp only [InstallEquivalent, hinstall, Except.ok.injEq, exists_eq_left', hdirect, hinstalled]
  cases actions (durably S) with
  | none => simp
  | some bs =>
    simp only [map_some, some.injEq, forall_eq']
    exact Prod.mk.injEq .. ▸ Iff.rfl

/-- The entry that rolls a lock forward. -/
def commitEntry (t : TxnId) (n : RefName) : Entry :=
  ⟨⟨0, 0⟩, .normal (.refCommitPrepared t n.asStr)⟩

theorem actions_commitEntry (t : TxnId) (n : RefName) :
    actions (durably [commitEntry t n]) = some [(.ref (.commitPrepared t n), true)] := by
  simp only [durably, map_cons, map_nil, actions, commitEntry,
    EntryPayload.action, LedgeOp.action, LedgeOp.toApplied, RefName.new_asStr]
  rfl

/-- A replica that holds a lock and one that only shows the same refs answer the commit
differently. -/
theorem commit_tells_lock {r r' : Replica} {n : RefName} {p : PreparedIntent}
    (hlock : r.refs.tree.lock n = some p)
    (hslot : r'.refs.tree.slot n = (r.refs.tree.get n).map RefSlot.ofCommitted) :
    (r'.perform true (.ref (.commitPrepared p.txnId n))).2 ≠
      (r.perform true (.ref (.commitPrepared p.txnId n))).2 := by
  obtain ⟨s, hs, hp⟩ := bind_eq_some_iff.mp hlock
  simp only [Replica.perform, run_applyOp, AppliedOp.decide, AppliedOp.name, hslot, hs]
  rw [RefTree.get, hs, applyCommitPrepared, hp]
  simp only [if_true, bind_some]
  cases hv : s.visible with
  | none =>
    intro h
    cases h
  | some e =>
    obtain rfl : s.committed = e := by
      rw [RefSlot.visible] at hv
      split_ifs at hv
      exact some.inj hv
    intro h
    have hversion : s.committed.version = s.committed.version + 1 :=
      congrArg RefEntry.version (LedgeResp.committedPrepared.inj h)
    exact absurd hversion (Nat.ne_of_lt (Nat.lt_succ_self _))

/-- **When installing a snapshot is replaying the log.** Let `snap` be built after `P` on a
state machine that started empty. Installing it and going on with `S` is, for every `S`,
the same as going on without it if and only if no ref is locked after `P` and no lease
has expiry 0. -/
theorem snapshot_install_iff {sm₀ sm sm₁ : StateMachine} {P : List Entry}
    {resps : List LedgeResp} {snap : PersistedSnapshot} (hempty : sm₀.replica = .empty)
    (happly : sm₀.apply P = some (sm, resps)) (hbuild : BuildsSnapshot sm snap) :
    (∀ S, InstallEquivalent sm₀ sm₁ P S snap) ↔
      (∀ n, sm.replica.refs.tree.lock n = none) ∧
        ∀ id l, sm.replica.leases.index.lookup id = some l → l.expiresAtMs ≠ 0 := by
  have hdump := hbuild.payload
  rw [apply_eq, map_eq_some_iff] at happly
  obtain ⟨as, has, heq⟩ := happly
  cases heq
  simp only [appliedTo_replica] at hdump ⊢
  have htidy : (sm₀.replica.performAll as).1.refs.tree.Tidy := by
    refine performAll_induct (p := fun r => r.refs.tree.Tidy) ?_ fun r x _ hr => tidy_perform hr
    rw [hempty]
    exact tidy_empty
  have hiff := fun S => installEquivalent_iff sm₁ S has hdump
  generalize (sm₀.replica.performAll as).1 = r at hdump htidy hiff ⊢
  constructor
  · intro h
    refine ⟨fun n => ?_, fun id l hl hzero => ?_⟩
    · -- a lock is missed by the commit of its transaction
      by_contra hlock
      obtain ⟨p, hp⟩ := ne_none_iff_exists'.mp hlock
      have hcommit := ((hiff [commitEntry p.txnId n]).mp (h _) _ (actions_commitEntry p.txnId n)).1
      exact commit_tells_lock hp (slot_restored r snap.payload n) (head_eq_of_cons_eq hcommit)
    · have hleases := congrArg Visible.leases ((hiff []).mp (h []) [] rfl).2
      have hlook : (restored (r.refs.tree.list "") snap.payload).leases.index.lookup id =
          r.leases.index.lookup id := congrArg (LeaseIndex.lookup · id) hleases
      rw [lookup_restored hdump, hl, filter_some, hzero] at hlook
      cases hlook
  · rintro ⟨hlock, hlease⟩ S
    refine (hiff S).mpr fun bs _ => ?_
    obtain ⟨hresps, hsame⟩ := (same_restored hdump htidy hlock hlease).performAll
      (rfl : bs.map Prod.fst = bs.map Prod.fst)
    exact ⟨hresps, congrArg Observed.visible hsame.observed⟩

/-- A snapshot with one ref; whether the ref is locked is not in it. -/
def oneRefSnapshot : PersistedSnapshot :=
  ⟨some ⟨1, 2⟩, "1-2-1", ⟨[("refs/heads/a", ⟨.fill 1, 1, 1⟩)], [], []⟩⟩

theorem builds_oneRefSnapshot :
    ∃ sm resps, newTemp.apply lockedLog = some (sm, resps) ∧
      BuildsSnapshot sm oneRefSnapshot ∧ sm.replica.refs.tree.lock .headsA ≠ none := by
  have hrun : (newTemp.apply lockedLog).map (fun x =>
      (x.1.lastAppliedLog, x.1.replica.refs.tree.list "", x.1.replica.leases.wal,
        decide (x.1.replica.txnRecords = ∅), (x.1.replica.refs.tree.lock .headsA).isSome)) =
      some (some ⟨1, 2⟩, [(.headsA, ⟨.fill 1, 1, 1⟩)], [], true, true) := by decide +kernel
  obtain ⟨⟨sm, resps⟩, happly, hstate⟩ := map_eq_some_iff.mp hrun
  simp only [Prod.mk.injEq] at hstate
  obtain ⟨hlast, hrefs, hwal, htxn, hlock⟩ := hstate
  have hleases : sm.replica.leases.index = .empty := by
    rw [sm.replica.leases.replayed, hwal]
    rfl
  refine ⟨sm, resps, happly, ⟨hlast.symm, ?_, ⟨nodup_nil, ?_⟩, List.Pairwise.nil, ?_⟩, ?_⟩
  · rw [hrefs]
    rfl
  · intro l
    rw [hleases]
    simp [oneRefSnapshot]
  · intro x
    rw [of_decide_eq_true htxn]
    simp [oneRefSnapshot]
  · intro hnone
    rw [hnone] at hlock
    cases hlock

/-- The commit after an installed snapshot leaves the ref where it was; after the log
itself it moves the ref. -/
theorem snapshot_loses_lock :
    ∃ sm resps sm', newTemp.apply lockedLog = some (sm, resps) ∧
      BuildsSnapshot sm oneRefSnapshot ∧
      newTemp.installSnapshot oneRefSnapshot = .ok sm' ∧
      (sm'.apply rollForward).map Prod.snd = some [.committedPrepared ⟨.fill 1, 1, 1⟩] ∧
      (newTemp.apply (lockedLog ++ rollForward)).map (·.2.drop 2) =
        some [.committedPrepared ⟨.fill 2, 2, 2⟩] := by
  obtain ⟨sm, resps, happly, hbuild, -⟩ := builds_oneRefSnapshot
  exact ⟨sm, resps, _, happly, hbuild, rfl, by decide +kernel, by decide +kernel⟩

theorem snapshot_install_locked :
    ∃ sm resps, newTemp.apply lockedLog = some (sm, resps) ∧
      BuildsSnapshot sm oneRefSnapshot ∧
      ¬ ∀ S, InstallEquivalent .newTemp .newTemp lockedLog S oneRefSnapshot := by
  obtain ⟨sm, resps, happly, hbuild, hlock⟩ := builds_oneRefSnapshot
  refine ⟨sm, resps, happly, hbuild, fun h => hlock ?_⟩
  exact ((snapshot_install_iff rfl happly hbuild).mp h).1 .headsA

/-! ### Two machines with the same content -/

section Canonical

variable {sm sm' : StateMachine} {snap : PersistedSnapshot} {Bytes : Type}
  {encode : StateDump → Bytes}

/-- Of what two machines with the same content dump, only the order of the leases can differ. -/
theorem dumps_perm {r r' : Replica} {d d' : StateDump}
    (hrefs : ∀ n, r.refs.tree.get n = r'.refs.tree.get n)
    (hleases : r.leases.index = r'.leases.index) (htxn : r.txnRecords = r'.txnRecords)
    (h : StateMachine.Dumps r d) (h' : StateMachine.Dumps r' d') :
    d'.refs = d.refs ∧ d'.leases.Perm d.leases ∧ d'.txnRecords = d.txnRecords := by
  refine ⟨?_, ?_, ?_⟩
  · rw [h.refs, h'.refs, RefTree.list_congr hrefs]
  · refine (perm_ext_iff_of_nodup h'.leases.nodup h.leases.nodup).mpr fun l => ?_
    rw [h'.leases.mem, h.leases.mem, hleases]
  · refine eq_of_ordered (fun _ _ => List.lt_asymm) h'.txnSorted h.txnSorted fun x => ?_
    rw [h'.txnRecords, h.txnRecords, htxn]

/-- At most one of the leases expires later than at 0. -/
def OneLease (idx : LeaseIndex) : Prop :=
  ∀ l, idx.lookup l.id = some l ∧ 0 < l.expiresAtMs →
    ∀ l', idx.lookup l'.id = some l' ∧ 0 < l'.expiresAtMs → l = l'

theorem length_live_le_one_iff {idx : LeaseIndex} {leases : List Lease} (h : idx.Live 0 leases) :
    leases.length ≤ 1 ↔ OneLease idx := by
  have hmem : ∀ l, l ∈ leases.toFinset ↔ idx.lookup l.id = some l ∧ 0 < l.expiresAtMs :=
    fun l => List.mem_toFinset.trans (h.mem l)
  rw [← toFinset_card_of_nodup h.nodup, Finset.card_le_one]
  simp only [hmem, OneLease]

/-- **When snapshots are canonical.** Machines with the same content at the same position build the
same bytes, in whatever order their leases are iterated, if at most one of the leases that they hold
expires later than at 0, and only then. `encode` is the codec, which loses nothing. -/
theorem snapshot_canonical_iff (hencode : Function.Injective encode)
    (hlast : sm.lastAppliedLog = sm'.lastAppliedLog)
    (hrefs : ∀ n, sm.replica.refs.tree.get n = sm'.replica.refs.tree.get n)
    (hleases : sm.replica.leases.index = sm'.replica.leases.index)
    (htxn : sm.replica.txnRecords = sm'.replica.txnRecords) (hbuild : BuildsSnapshot sm snap) :
    (∀ snap', BuildsSnapshot sm' snap' → encode snap'.payload = encode snap.payload) ↔
      OneLease sm.replica.leases.index := by
  obtain ⟨hcovers, hdump⟩ := hbuild
  rw [← length_live_le_one_iff hdump.leases]
  constructor
  · intro hsame
    by_contra hmany
    rcases hpayload : snap.payload.leases with _ | ⟨l, _ | ⟨l', rest⟩⟩
    · simp [hpayload] at hmany
    · simp [hpayload] at hmany
    · -- the same leases with the first two exchanged
      have hswap : (l' :: l :: rest).Perm snap.payload.leases := hpayload ▸ List.Perm.swap l l' rest
      have hbuild' : BuildsSnapshot sm' { snap with
          payload := { snap.payload with leases := l' :: l :: rest } } := by
        refine ⟨hcovers.trans hlast, ?_, ⟨hswap.nodup_iff.mpr hdump.leases.nodup, fun x => ?_⟩,
          hdump.txnSorted, fun x => ?_⟩
        · rw [← RefTree.list_congr hrefs]
          exact hdump.refs
        · rw [hswap.mem_iff, hdump.leases.mem, hleases]
        · rw [hdump.txnRecords, htxn]
      have hpayloads := hencode (hsame _ hbuild')
      have hfirst := congrArg StateDump.leases hpayloads
      rw [hpayload] at hfirst
      have hnodup := hdump.leases.nodup
      rw [hpayload] at hnodup
      exact (nodup_cons.mp hnodup).1 ((List.cons.inj hfirst).1 ▸ mem_cons_self)
  · intro hfew snap' hbuild'
    obtain ⟨hrefs', hperm, htxn'⟩ := dumps_perm hrefs hleases htxn hdump hbuild'.payload
    have hleases' : snap'.payload.leases = snap.payload.leases := by
      rcases hpayload : snap.payload.leases with _ | ⟨l, _ | ⟨l', rest⟩⟩
      · exact List.Perm.eq_nil (hpayload ▸ hperm)
      · exact perm_singleton.mp (hpayload ▸ hperm)
      · simp [hpayload] at hfew
    rw [show snap'.payload = snap.payload by
      cases h : snap'.payload; cases h' : snap.payload; simp_all]

/-- A machine that was given two leases. -/
def leased (a b : Lease) : StateMachine := ⟨⟨⟨.empty, []⟩, .openOn [.put a, .put b], ∅⟩, none, none⟩

theorem lookup_leased (a b : Lease) (id : WorkspaceId) : (leased a b).replica.leases.index.lookup
    id = if b.id = id then some b else if a.id = id then some a else none := by
  simp [leased, LeaseStore.openOn, replayLease]

theorem builds_leased {a b : Lease} (hne : a.id ≠ b.id) (ha : 0 < a.expiresAtMs)
    (hb : 0 < b.expiresAtMs) : BuildsSnapshot (leased a b) ⟨none, "", ⟨[], [a, b], []⟩⟩ := by
  refine ⟨rfl, rfl, ⟨?_, fun l => ?_⟩, .nil, fun x => by simp [leased]⟩
  · exact nodup_cons.mpr ⟨by grind, nodup_singleton b⟩
  · rw [lookup_leased]
    grind

/-- **The bytes depend on the order of the leases.** Two machines were given the same two leases. -/
theorem leases_dumped_in_two_orders : ∃ sm sm' snap snap',
    BuildsSnapshot sm snap ∧ BuildsSnapshot sm' snap' ∧ sm.lastAppliedLog = sm'.lastAppliedLog ∧
      (∀ n, sm.replica.refs.tree.get n = sm'.replica.refs.tree.get n) ∧
      sm.replica.leases.index = sm'.replica.leases.index ∧
      sm.replica.txnRecords = sm'.replica.txnRecords ∧
        snap.payload.leases ≠ snap'.payload.leases := by
  let a : Lease := ⟨.fill 1, [], 0, 1000, 1, 1, "root"⟩
  let b : Lease := { a with id := .fill 2 }
  have hne : a.id ≠ b.id := by decide
  refine ⟨leased a b, leased b a, _, _, builds_leased hne (by decide) (by decide),
    builds_leased hne.symm (by decide) (by decide), rfl, fun _ => rfl,
    LeaseIndex.ext_lookup fun id => ?_, rfl, by decide⟩
  rw [lookup_leased, lookup_leased]
  grind

/-- A machine with a lease and one that expires at 0. -/
theorem one_lease_snapshot_canonical :
    let a : Lease := ⟨.fill 1, [], 0, 1000, 1, 1, "root"⟩
    let sm := leased a { a with id := .fill 2, expiresAtMs := 0 }
    BuildsSnapshot sm ⟨none, "", ⟨[], [a], []⟩⟩ ∧
      ∀ snap', BuildsSnapshot sm snap' → snap'.payload = ⟨[], [a], []⟩ := by
  intro a sm
  have hne : WorkspaceId.fill 2 ≠ .fill 1 := by decide
  have hlisted : ∀ l, sm.replica.leases.index.lookup l.id = some l ∧ 0 < l.expiresAtMs ↔ l = a := by
    intro l
    rw [lookup_leased]
    grind
  have hbuild : BuildsSnapshot sm ⟨none, "", ⟨[], [a], []⟩⟩ :=
    ⟨rfl, rfl, ⟨nodup_singleton a, fun l => by rw [hlisted, mem_singleton]⟩, .nil,
      fun x => by simp [sm, leased]⟩
  refine ⟨hbuild, (snapshot_canonical_iff Function.injective_id rfl (fun _ => rfl) rfl rfl
    hbuild).mpr ?_⟩
  intro l hl l' hl'
  rw [(hlisted l).mp hl, (hlisted l').mp hl']

end Canonical

end Ledge.Raft
