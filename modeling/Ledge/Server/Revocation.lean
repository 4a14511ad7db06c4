import Ledge.Server.AuthStore

/-!
# Ledge.Server.Revocation

**What callers of the key store were told, and what it holds to.** The standing of a key is the last
that a caller was told about it: that it was put, or that it was revoked. A revoked key must never
verify again, and a live one must be there, in every later state and after every restart.

The store keeps this up as long as every append starts where the last whole frame of the file at the
path ends, and as no frame is in the file whose call did not return and would have changed a
standing (`revocation_permanent`). It does not see to either. After a put that failed in the middle
of its frame, a revocation that was acknowledged is taken for the rest of that frame, and the key is
live again after a restart (`failed_put_revives_key`).
-/

namespace Ledge.Server

open Ledge.Core Ledge.Objects Ledge.Workspace Ledge.Wal Function List Option

/-! ### Standings -/

/-- The last that a caller was told about a key. -/
inductive Standing
  | live
  | revoked
  deriving DecidableEq

abbrev Standings := String → Option Standing

/-- What the call that has written the frame tells its caller: a key that is put is live, unless it
is put as a revoked one, and `revoke` returns whether there was a key. `keys` is the index in
memory. -/
def AuthWalEntry.acknowledge (keys : AuthStore) (standings : Standings) : AuthWalEntry → Standings
  | .put r => Function.update standings r.keyId (some (if r.revoked then .revoked else .live))
  | .revoke keyId _ =>
    if (keys keyId).isSome then Function.update standings keyId (some .revoked) else standings
  | .checkpoint _ => standings

/-- An index that agrees with what callers were told. -/
structure Honest (standings : Standings) (keys : AuthStore) : Prop where
  revoked : ∀ keyId r, standings keyId = some .revoked → keys keyId = some r → r.revoked = true
  live : ∀ keyId, standings keyId = some .live → ∃ r, keys keyId = some r ∧ r.revoked = false

/-- The frame would change nothing that a caller was told, if its call returned. -/
def AuthWalEntry.Harmless (keys : AuthStore) (standings : Standings) (r : AuthWalEntry) : Prop :=
  ∀ keyId, standings keyId ≠ none → r.acknowledge keys standings keyId = standings keyId

section Honesty

variable {standings : Standings} {keys mem : AuthStore} {r : AuthWalEntry}

theorem honest_none : Honest (fun _ => none) keys where
  revoked := nofun
  live := nofun

/-- The frame of a call, in the index in memory or in the one that the file replays to. -/
theorem Honest.replay (hmem : Honest standings mem) (h : Honest standings keys)
    (hplain : ∀ checkpoint, r ≠ .checkpoint checkpoint) :
    Honest (r.acknowledge mem standings) (keys.replay r) := by
  cases r with
  | checkpoint checkpoint => exact absurd rfl (hplain checkpoint)
  | put r =>
    refine ⟨fun keyId r' hrevoked hkey => ?_, fun keyId hlive => ?_⟩
    · simp only [AuthWalEntry.acknowledge, AuthStore.replay, AuthStore.insert,
        update_apply] at hrevoked hkey
      split_ifs at hrevoked hkey with hid hput
      · cases hkey
        exact hput
      · exact absurd (some.inj hrevoked) (by simp)
      · exact h.revoked keyId r' hrevoked hkey
    · simp only [AuthWalEntry.acknowledge, AuthStore.replay, AuthStore.insert,
        update_apply] at hlive ⊢
      split_ifs at hlive ⊢ with hid hput
      · exact absurd (some.inj hlive) (by simp)
      · exact ⟨r, rfl, by simpa using hput⟩
      · exact h.live keyId hlive
  | revoke keyId' hlc =>
    simp only [AuthWalEntry.acknowledge, AuthStore.replay, AuthStore.setRevoked]
    refine ⟨fun keyId r' hrevoked hkey => ?_, fun keyId hlive => ?_⟩
    · rw [update_apply] at hkey
      split_ifs at hkey with hid
      · obtain ⟨r, -, rfl⟩ := map_eq_some_iff.mp hkey
        rfl
      · refine h.revoked keyId r' ?_ hkey
        split_ifs at hrevoked
        · rwa [update_of_ne hid] at hrevoked
        · exact hrevoked
    · have hid : keyId ≠ keyId' ∧ standings keyId = some .live := by
        split_ifs at hlive with hsome
        · rw [update_apply] at hlive
          split_ifs at hlive with hid
          · exact absurd (some.inj hlive) (by simp)
          · exact ⟨hid, hlive⟩
        · -- the index in memory has every live key
          refine ⟨fun heq => hsome ?_, hlive⟩
          obtain ⟨r, hr, -⟩ := hmem.live keyId hlive
          rw [← heq, hr]
          rfl
      rw [update_of_ne hid.1]
      exact h.live keyId hid.2

theorem Honest.of_harmless (h : Honest (r.acknowledge mem standings) keys)
    (hharmless : r.Harmless mem standings) : Honest standings keys := by
  refine ⟨fun keyId r' hrevoked => h.revoked keyId r' ?_, fun keyId hlive => h.live keyId ?_⟩
  · rw [hharmless keyId (by simp [hrevoked]), hrevoked]
  · rw [hharmless keyId (by simp [hlive]), hlive]

theorem Honest.retainLive (h : Honest standings keys) : Honest standings keys.retainLive := by
  refine ⟨fun keyId r hrevoked hkey => ?_, fun keyId hlive => ?_⟩
  · exact h.revoked keyId r hrevoked (filter_eq_some_iff.mp hkey).1
  · obtain ⟨r, hr, hnot⟩ := h.live keyId hlive
    exact ⟨r, filter_eq_some_iff.mpr ⟨hr, by simp [hnot]⟩, hnot⟩

end Honesty

/-! ### Indexes that are rebuilt -/

section Rebuilt

variable {keys : AuthStore} {checkpoint : List ApiKeyRecord} {keyId : String}

/-- Every record is under its id. -/
def AuthStore.Keyed (keys : AuthStore) : Prop := ∀ keyId r, keys keyId = some r → r.keyId = keyId

/-- The keys of a checkpoint are those of the index that are not revoked. -/
def AuthStore.ListsLive (keys : AuthStore) (checkpoint : List ApiKeyRecord) : Prop :=
  ∀ r, r ∈ checkpoint ↔ keys r.keyId = some r ∧ r.revoked = false

theorem AuthStore.foldl_insert (keys : AuthStore) (checkpoint : List ApiKeyRecord)
    (keyId : String) :
    (∃ r ∈ checkpoint, r.keyId = keyId ∧ checkpoint.foldl insert keys keyId = some r) ∨
      (∀ r ∈ checkpoint, r.keyId ≠ keyId) ∧ checkpoint.foldl insert keys keyId = keys keyId := by
  induction checkpoint generalizing keys with
  | nil => exact Or.inr ⟨fun r hr => by simp at hr, rfl⟩
  | cons r checkpoint ih =>
    rcases ih (keys.insert r) with ⟨r', hmem, hid, heq⟩ | ⟨hnone, heq⟩
    · exact Or.inl ⟨r', mem_cons_of_mem r hmem, hid, heq⟩
    · by_cases hid : r.keyId = keyId
      · refine Or.inl ⟨r, mem_cons_self, hid, heq.trans ?_⟩
        rw [insert, hid, update_self]
      · refine Or.inr ⟨forall_mem_cons.mpr ⟨hid, hnone⟩, heq.trans ?_⟩
        rw [insert, update_of_ne (Ne.symm hid)]

theorem AuthStore.Keyed.insert (h : keys.Keyed) (r : ApiKeyRecord) : (keys.insert r).Keyed := by
  intro keyId r' hkey
  rw [AuthStore.insert, update_apply] at hkey
  split_ifs at hkey with hid
  · cases hkey
    exact hid.symm
  · exact h keyId r' hkey

theorem AuthStore.keyed_empty : AuthStore.empty.Keyed := nofun

theorem AuthStore.Keyed.replay (h : keys.Keyed) (r : AuthWalEntry) : (keys.replay r).Keyed := by
  cases r with
  | put r => exact h.insert r
  | revoke keyId' hlc =>
    intro keyId r hkey
    rw [AuthStore.replay, AuthStore.setRevoked, update_apply] at hkey
    split_ifs at hkey with hid
    · obtain ⟨r', hr', rfl⟩ := map_eq_some_iff.mp hkey
      exact (h keyId' r' hr').trans hid.symm
    · exact h keyId r hkey
  | checkpoint checkpoint =>
    intro keyId r hkey
    rcases AuthStore.foldl_insert .empty checkpoint keyId with ⟨r', -, hid, heq⟩ | ⟨-, heq⟩
    · cases hkey.symm.trans heq
      exact hid
    · cases hkey.symm.trans heq

theorem AuthStore.keyed_rebuildIndex (all : List AuthWalEntry) : (rebuildIndex all).Keyed := by
  unfold rebuildIndex
  induction all using reverseRecOn with
  | nil => exact keyed_empty
  | append_singleton all r ih =>
    rw [foldl_concat]
    exact ih.replay r

theorem AuthStore.rebuildIndex_concat (all : List AuthWalEntry) (r : AuthWalEntry) :
    rebuildIndex (all ++ [r]) = (rebuildIndex all).replay r :=
  foldl_concat ..

theorem AuthStore.Lists.live {order : List ApiKeyRecord} (h : keys.Lists order)
    (hkeyed : keys.Keyed) : keys.ListsLive (order.filter (fun r => !r.revoked)) := by
  intro r
  rw [mem_filter, h r]
  constructor
  · intro hr
    obtain ⟨⟨keyId, hkey⟩, hlive⟩ := hr
    rw [hkeyed keyId r hkey]
    exact ⟨hkey, by simpa using hlive⟩
  · intro hr
    exact ⟨⟨r.keyId, hr.1⟩, by simp [hr.2]⟩

/-- A checkpoint agrees with what callers were told if the index does. -/
theorem Honest.rebuild_checkpoint {standings : Standings} (h : Honest standings keys)
    (hkeyed : keys.Keyed) (hlists : keys.ListsLive checkpoint) :
    Honest standings (AuthStore.rebuildIndex [.checkpoint checkpoint]) := by
  have hlookup (keyId : String) := AuthStore.foldl_insert .empty checkpoint keyId
  refine ⟨fun keyId r hrevoked hkey => ?_, fun keyId hlive => ?_⟩
  · rcases hlookup keyId with ⟨r', hmem, hid, heq⟩ | ⟨-, heq⟩
    · cases hkey.symm.trans heq
      exact h.revoked keyId r hrevoked (hid ▸ ((hlists r).mp hmem).1)
    · cases hkey.symm.trans heq
  · obtain ⟨r, hr, hnot⟩ := h.live keyId hlive
    rcases hlookup keyId with ⟨r', hmem, -, heq⟩ | ⟨hnone, -⟩
    · exact ⟨r', heq, ((hlists r').mp hmem).2⟩
    · have hid : r.keyId = keyId := hkeyed keyId r hr
      exact absurd hid (hnone r ((hlists r).mpr ⟨hid.symm ▸ hr, hnot⟩))

end Rebuilt

/-! ### Careful runs -/

namespace AuthState

variable {I : Type} [DecidableEq I] (P : Primitives) (C : Codec AuthWalEntry) (calls : I → AuthCall)

/-- The frame of a call that has appended it and has not returned. -/
def pending (s : AuthState I) : Option AuthWalEntry :=
  match s.holder with
  | none => none
  | some i =>
    match s.pc i with
    | .appended => (calls i).record P
    | _ => none

/-- The standings once the call that has appended its frame returns. -/
def ahead (s : AuthState I) (standings : Standings) : Standings :=
  match s.pending P calls with
  | none => standings
  | some r => r.acknowledge s.index standings

/-- The standings after an event: a call returns in the step after its append. -/
def acknowledged (s : AuthState I) (standings : Standings) : AuthEvent I → Standings
  | .step i .. =>
    match s.up, s.pc i, (calls i).record P with
    | true, .appended, some r => r.acknowledge s.index standings
    | _, _, _ => standings
  | .restart .. => standings

/-- An append that writes anything starts where the last whole frame of the file at the path ends.
If it fails with the whole frame in the file, the frame is harmless. -/
def AppendsWell (s : AuthState I) (standings : Standings) (fault : Option Nat) (r : AuthWalEntry) :
    Prop :=
  fault = some 0 ∨ C.Small r ∧ C.Clean s.file ∧ ∀ n frame, fault = some n → C.encodeFrame r =
    .ok frame → frame.length ≤ n → r.Harmless s.index standings

/-- A compaction copies the index. -/
def Legal (s : AuthState I) : AuthEvent I → Prop
  | .step i _ _ order => s.pc i = .locked → (calls i).record P = none → s.index.Lists order
  | .restart .. => True

/-- Appends go well, also where a crash cuts them off, a crash does not catch a call between its
append and its return, unless its frame is harmless, and payloads have less than 2^32 bytes. -/
def Careful (s : AuthState I) (standings : Standings) : AuthEvent I → Prop
  | .step i fault _ _ =>
    (∀ r, s.pc i = .locked → (calls i).record P = some r → s.AppendsWell C standings fault r) ∧
    ∀ keys, s.pc i = .listed keys → C.Small (.checkpoint keys)
  | .restart cut _ => ∀ i, s.holder = some i →
      (∀ r, s.pc i = .locked → (calls i).record P = some r →
        s.AppendsWell C standings (some cut) r) ∧
      (∀ r, s.pc i = .appended → (calls i).record P = some r → r.Harmless s.index standings) ∧
      ∀ keys, s.pc i = .listed keys → C.Small (.checkpoint keys)

end AuthState

/-- The runs of careful events from a new directory, with the standings of the keys. -/
inductive AuthRun {I : Type} [DecidableEq I] (P : Primitives) (C : Codec AuthWalEntry)
    (calls : I → AuthCall) : AuthState I → Standings → Prop
  | start : AuthRun P C calls .fresh (fun _ => none)
  | event {s : AuthState I} {standings : Standings} (h : AuthRun P C calls s standings)
      (e : AuthEvent I) (hlegal : s.Legal P calls e) (hcareful : s.Careful P C calls standings e) :
      AuthRun P C calls (s.next P C calls e) (s.acknowledged P calls standings e)

/-! ### Steps -/

section Steps

variable {I : Type} {P : Primitives} {C : Codec AuthWalEntry} {calls : I → AuthCall}
  {s : AuthState I} {standings : Standings} {i : I}

/-- The file replays to an index that agrees with what callers were told. -/
def FileHonest (C : Codec AuthWalEntry) (standings : Standings) (w : LogFile) : Prop :=
  ∃ records, C.Holds w.disk records ∧ Honest standings (AuthStore.rebuildIndex records)

/-- What holds of the lock, the index and the file in every state of a run. -/
structure AuthInv (P : Primitives) (C : Codec AuthWalEntry) (calls : I → AuthCall) (s : AuthState I)
    (standings : Standings) : Prop where
  up : s.up = true
  held : ∀ i, (s.pc i).inside = true → s.holder = some i
  keyed : s.index.Keyed
  listed : ∀ i keys, s.pc i = .listed keys → s.index.ListsLive keys
  memory : Honest standings s.index
  file : FileHonest C (s.ahead P calls standings) s.file

theorem authInv_fresh : AuthInv P C calls (.fresh : AuthState I) (fun _ => none) where
  up := rfl
  held := nofun
  keyed := AuthStore.keyed_empty
  listed := nofun
  memory := honest_none
  file := ⟨[], Codec.holds_nil, honest_none⟩

variable {c : AuthCall} {r : AuthWalEntry} {fault : Option Nat} {result : Except WalError Unit}
  {renamed : Bool} {s' : AuthState I} {standings' : Standings}

theorem AuthCall.record_ne_checkpoint (h : c.record P = some r) (checkpoint : List ApiKeyRecord) :
    r ≠ .checkpoint checkpoint := by
  cases c <;> cases h <;> simp

theorem AuthCall.replay_record (h : c.record P = some r) (keys : AuthStore) :
    keys.replay r = c.apply P keys := by
  cases c <;> cases h <;> rfl

theorem AuthCall.apply_of_record_none (h : c.record P = none) (keys : AuthStore) :
    c.apply P keys = keys := by
  cases c <;> cases h
  rfl

section Standings

variable {fault : Option Nat} {replaceFault : Option ReplaceFault} {order : List ApiKeyRecord}

theorem AuthState.acknowledged_of_ne (hpc : s.pc i ≠ .appended) :
    s.acknowledged P calls standings (.step i fault replaceFault order) = standings := by
  simp only [AuthState.acknowledged]
  split
  · rename_i happended _
    exact absurd happended hpc
  · rfl

theorem AuthState.acknowledged_of_record_none (hrecord : (calls i).record P = none) :
    s.acknowledged P calls standings (.step i fault replaceFault order) = standings := by
  simp only [AuthState.acknowledged]
  split
  · rename_i hsome
    cases hrecord.symm.trans hsome
  · rfl

theorem AuthState.acknowledged_appended {r : AuthWalEntry} (hup : s.up = true)
    (hpc : s.pc i = .appended) (hrecord : (calls i).record P = some r) :
    s.acknowledged P calls standings (.step i fault replaceFault order) =
      r.acknowledge s.index standings := by
  simp only [AuthState.acknowledged, hup, hpc, hrecord]

end Standings

theorem AuthState.pending_of_holder (hholder : s.holder = some i) (hpc : s.pc i ≠ .appended) :
    s.pending P calls = none := by
  unfold AuthState.pending
  rw [hholder]
  dsimp only
  split
  · rename_i happended
    exact absurd happended hpc
  · rfl

theorem AuthState.ahead_of_pending (h : s.pending P calls = none) :
    s.ahead P calls standings = standings := by
  unfold AuthState.ahead
  rw [h]

theorem FileHonest.append {w' : LogFile} (h : FileHonest C standings s.file)
    (hmem : Honest standings s.index) (hplain : ∀ checkpoint, r ≠ .checkpoint checkpoint)
    (hwell : s.AppendsWell C standings fault r)
    (hwrite : C.appendRecord s.file fault r = (w', result)) :
    FileHonest C (if result = .ok () then r.acknowledge s.index standings else standings) w' := by
  obtain ⟨records, hholds, hhonest⟩ := h
  have hreplay := hmem.replay hhonest hplain
  rw [← AuthStore.rebuildIndex_concat] at hreplay
  rcases hwell with hzero | ⟨hsmall, hclean, hwhole⟩
  · have hdisk := Codec.disk_appendRecord_zero (C := C) s.file r
    have hresult := Codec.appendRecord_some_ne_ok (C := C) s.file 0 r
    rw [← hzero, hwrite] at hdisk hresult
    rw [if_neg hresult]
    exact ⟨records, hdisk ▸ hholds, hhonest⟩
  · cases result with
    | ok u =>
      exact ⟨_, hholds.appendRecord_ok hclean hsmall hwrite, hreplay⟩
    | error e =>
      rcases hholds.appendRecord_error hclean hsmall hwrite with hsame | hnew
      · exact ⟨records, hsame, hhonest⟩
      · -- the whole frame is in the file, although the call fails
        obtain ⟨hholds', n, frame, hfault, hframe, hn⟩ := hnew
        exact ⟨_, hholds', hreplay.of_harmless (hwhole n frame hfault hframe hn)⟩

theorem FileHonest.checkpoint {w w' : LogFile} {keys : List ApiKeyRecord}
    {fault : Option ReplaceFault} (h : FileHonest C standings w) (hmem : Honest standings s.index)
    (hkeyed : s.index.Keyed) (hlists : s.index.ListsLive keys) (hsmall : C.Small (.checkpoint keys))
    (hwrite : C.writeCheckpoint w fault (.checkpoint keys) = (w', result)) :
    FileHonest C standings w' := by
  obtain ⟨records, hholds, hhonest⟩ := h
  rcases hholds.writeCheckpoint hsmall hwrite with hnew | ⟨hold, -⟩
  · exact ⟨_, hnew, hmem.rebuild_checkpoint hkeyed hlists⟩
  · exact ⟨records, hold, hhonest⟩

/-- **The file after a crash.** -/
theorem AuthInv.crashFile {cut : Nat} (h : AuthInv P C calls s standings)
    (hcareful : s.Careful P C calls standings (.restart cut renamed)) :
    FileHonest C standings (s.crashFile P C calls cut renamed) := by
  have hfile := h.file
  unfold AuthState.crashFile
  cases hholder : s.holder with
  | none =>
    have hpending : s.pending P calls = none := by
      unfold AuthState.pending
      rw [hholder]
    rw [AuthState.ahead_of_pending hpending] at hfile
    exact hfile
  | some i =>
    obtain ⟨happends, hharmless, hsmall⟩ := hcareful i hholder
    have hsame : s.pc i ≠ .appended → FileHonest C standings s.file := by
      intro hpc
      rw [AuthState.ahead_of_pending (AuthState.pending_of_holder hholder hpc)] at hfile
      exact hfile
    dsimp only
    cases hpc : s.pc i with
    | waiting | returned | lost => exact hsame (by simp [hpc])
    | locked =>
      have hbefore := hsame (by simp [hpc])
      cases hrecord : (calls i).record P with
      | none => exact hbefore
      | some r =>
        have hcut := hbefore.append h.memory (AuthCall.record_ne_checkpoint hrecord)
          (happends r hpc hrecord) (Prod.mk.eta (p := C.appendRecord s.file (some cut) r)).symm
        rw [if_neg (Codec.appendRecord_some_ne_ok s.file cut r)] at hcut
        exact hcut
    | appended =>
      cases hrecord : (calls i).record P with
      | none =>
        unfold AuthState.ahead AuthState.pending at hfile
        simp only [hholder, hpc, hrecord] at hfile
        exact hfile
      | some r =>
        unfold AuthState.ahead AuthState.pending at hfile
        simp only [hholder, hpc, hrecord] at hfile
        obtain ⟨records, hholds, hhonest⟩ := hfile
        exact ⟨records, hholds, hhonest.of_harmless (hharmless r hpc hrecord)⟩
    | listed keys =>
      have hbefore := hsame (by simp [hpc])
      dsimp only
      split_ifs
      · exact hbefore.checkpoint h.memory h.keyed (h.listed i keys hpc) (hsmall keys hpc)
          (Prod.mk.eta (p := C.writeCheckpoint s.file (some .reopen) (.checkpoint keys))).symm
      · exact hbefore

theorem AuthInv.idle (hup : s'.up = true) (hholder : s'.holder = none)
    (houtside : ∀ j, (s'.pc j).inside = false) (hkeyed : s'.index.Keyed)
    (hmemory : Honest standings' s'.index) (hfile : FileHonest C standings' s'.file) :
    AuthInv P C calls s' standings' where
  up := hup
  held j hj := by
    rw [houtside j] at hj
    cases hj
  keyed := hkeyed
  listed j keys hj := by
    have hinside := houtside j
    rw [hj] at hinside
    cases hinside
  memory := hmemory
  file := by
    have hpending : s'.pending P calls = none := by
      unfold AuthState.pending
      rw [hholder]
    rw [AuthState.ahead_of_pending hpending]
    exact hfile

/-- **A crash and the restart after it.** -/
theorem AuthInv.restart {cut : Nat} (h : AuthInv P C calls s standings)
    (hcareful : s.Careful P C calls standings (.restart cut renamed)) :
    AuthInv P C calls (s.restart P C calls cut renamed) standings := by
  obtain ⟨records, hholds, hhonest⟩ := h.crashFile hcareful
  obtain ⟨w, hopen, -, hholds'⟩ := hholds.openReplay
  have hopened : openAuth C (s.crashFile P C calls cut renamed).disk =
      .ok (w, AuthStore.rebuildIndex records) := by
    unfold openAuth
    rw [hopen]
  unfold AuthState.restart
  dsimp only
  rw [hopened]
  refine AuthInv.idle rfl rfl (fun j => ?_) (AuthStore.keyed_rebuildIndex records) hhonest
    ⟨records, hholds', hhonest⟩
  dsimp only
  split_ifs with hinside
  · rfl
  · simpa using hinside

variable [DecidableEq I]

theorem AuthInv.goto (h : AuthInv P C calls s standings) (pc : AuthPc) (hindex : s'.index = s.index)
    (hup : s'.up = s.up) (hholder : s'.holder = some i)
    (hfree : s.holder = none ∨ s.holder = some i) (hpc : s'.pc = Function.update s.pc i pc)
    (hlisted : ∀ keys, pc = .listed keys → s.index.ListsLive keys)
    (hfile : FileHonest C (s'.ahead P calls standings) s'.file) :
    AuthInv P C calls s' standings where
  up := hup.trans h.up
  held j hj := by
    by_cases hji : j = i
    · rw [hji, hholder]
    · rw [hpc, update_of_ne hji] at hj
      rcases hfree with hnone | hsome
      · exact absurd (hnone.symm.trans (h.held j hj)) (by simp)
      · exact absurd (some.inj (hsome.symm.trans (h.held j hj))) (Ne.symm hji)
  keyed := hindex ▸ h.keyed
  listed j keys hj := by
    rw [hindex]
    by_cases hji : j = i
    · rw [hpc, hji, update_self] at hj
      exact hlisted keys hj
    · rw [hpc, update_of_ne hji] at hj
      exact h.listed j keys hj
  memory := hindex ▸ h.memory
  file := hfile

theorem AuthInv.finish {result : Except LedgeError AuthReply} (h : AuthInv P C calls s standings)
    (hholder : s.holder = some i) (hpc : s'.pc = s.pc) (hup : s'.up = s.up)
    (hkeyed : s'.index.Keyed) (hmemory : Honest standings' s'.index)
    (hfile : FileHonest C standings' s'.file) :
    AuthInv P C calls (s'.finish i result) standings' := by
  refine AuthInv.idle (hup.trans h.up) rfl (fun j => ?_) hkeyed hmemory hfile
  show ((Function.update s'.pc i (.returned result)) j).inside = false
  by_cases hji : j = i
  · rw [hji, update_self]
    rfl
  · rw [update_of_ne hji, hpc]
    by_contra hinside
    have hj := h.held j (by simpa using hinside)
    exact hji (some.inj (hj.symm.trans hholder))

/-- **One step of a call.** -/
theorem AuthInv.step {replaceFault : Option ReplaceFault} {order : List ApiKeyRecord}
    (h : AuthInv P C calls s standings)
    (hlegal : s.Legal P calls (.step i fault replaceFault order))
    (hcareful : s.Careful P C calls standings (.step i fault replaceFault order)) :
    AuthInv P C calls (s.step P C calls i fault replaceFault order)
      (s.acknowledged P calls standings (.step i fault replaceFault order)) := by
  obtain ⟨happends, hsmall⟩ := hcareful
  have hheld := h.held i
  unfold AuthState.step
  cases hpc : s.pc i with
  | waiting =>
    rw [AuthState.acknowledged_of_ne (by simp [hpc])]
    cases hholder : s.holder with
    | some j => exact h
    | none =>
      have hpending : s.pending P calls = none := by
        unfold AuthState.pending
        rw [hholder]
      have hfile := h.file
      rw [AuthState.ahead_of_pending hpending] at hfile
      have hlocked : (Function.update s.pc i .locked) i ≠ .appended := by
        simp
      refine h.goto .locked rfl rfl rfl (Or.inl hholder) rfl (by simp) ?_
      rw [AuthState.ahead_of_pending (AuthState.pending_of_holder rfl hlocked)]
      exact hfile
  | locked =>
    rw [AuthState.acknowledged_of_ne (by simp [hpc])]
    rw [hpc] at hheld
    have hholder := hheld rfl
    have hfile := h.file
    rw [AuthState.ahead_of_pending (AuthState.pending_of_holder hholder (by simp [hpc]))] at hfile
    dsimp only
    cases hrecord : (calls i).record P with
    | none =>
      have hlisted : (Function.update s.pc i
          (.listed (order.filter (fun r => !r.revoked)))) i ≠ .appended := by
        rw [update_self]
        simp
      refine h.goto (.listed _) rfl rfl hholder (Or.inr hholder) rfl (fun keys heq => ?_) ?_
      · cases heq
        exact (hlegal hpc hrecord).live h.keyed
      · have hpending : (s.setPc i (.listed (order.filter (fun r => !r.revoked)))).pending P calls =
            none := AuthState.pending_of_holder hholder hlisted
        rw [AuthState.ahead_of_pending hpending]
        exact hfile
    | some r =>
      have happend {w' : LogFile} {result : Except WalError Unit}
          (hwrite : C.appendRecord s.file fault r = (w', result)) :=
        hfile.append h.memory (AuthCall.record_ne_checkpoint hrecord)
          (happends r hpc hrecord) hwrite
      dsimp only
      split
      · rename_i file hwrite
        refine h.goto .appended rfl rfl hholder (Or.inr hholder) rfl (by simp) ?_
        unfold AuthState.ahead AuthState.pending
        simpa [hholder, hrecord] using happend hwrite
      · rename_i file e hwrite
        refine h.finish hholder rfl rfl h.keyed h.memory ?_
        simpa using happend hwrite
  | appended =>
    rw [hpc] at hheld
    have hholder := hheld rfl
    have hfile := h.file
    unfold AuthState.ahead AuthState.pending at hfile
    cases hrecord : (calls i).record P with
    | none =>
      simp only [hholder, hpc, hrecord] at hfile
      simp only [AuthCall.apply_of_record_none hrecord]
      rw [AuthState.acknowledged_of_record_none hrecord]
      exact h.finish hholder rfl rfl h.keyed h.memory hfile
    | some r =>
      simp only [hholder, hpc, hrecord] at hfile
      rw [AuthState.acknowledged_appended h.up hpc hrecord]
      refine h.finish hholder rfl rfl ?_ ?_ hfile
      · rw [← AuthCall.replay_record hrecord]
        exact h.keyed.replay r
      · rw [← AuthCall.replay_record hrecord]
        exact h.memory.replay h.memory (AuthCall.record_ne_checkpoint hrecord)
  | listed keys =>
    rw [AuthState.acknowledged_of_ne (by simp [hpc])]
    rw [hpc] at hheld
    have hholder := hheld rfl
    have hfile := h.file
    rw [AuthState.ahead_of_pending (AuthState.pending_of_holder hholder (by simp [hpc]))] at hfile
    dsimp only
    split
    · rename_i file hwrite
      refine h.finish hholder rfl rfl ?_ h.memory.retainLive
        (hfile.checkpoint h.memory h.keyed (h.listed i keys hpc) (hsmall keys hpc) hwrite)
      exact fun keyId r hr => h.keyed keyId r (filter_eq_some_iff.mp hr).1
    · rename_i file e hwrite
      exact h.finish hholder rfl rfl h.keyed h.memory
        (hfile.checkpoint h.memory h.keyed (h.listed i keys hpc) (hsmall keys hpc) hwrite)
  | returned result | lost =>
    rw [AuthState.acknowledged_of_ne (by simp [hpc])]
    exact h

/-- **A whole run.** -/
theorem AuthRun.inv (h : AuthRun P C calls s standings) : AuthInv P C calls s standings := by
  induction h with
  | start => exact authInv_fresh
  | event _ e hlegal hcareful ih =>
    cases e with
    | step i fault replaceFault order =>
      simp only [AuthState.next, ih.up, if_true]
      exact ih.step hlegal hcareful
    | restart cut renamed => exact ih.restart hcareful

end Steps

theorem AuthStore.verify_revoked {P : Primitives} {keys : AuthStore} {keyId : String}
    (h : ∀ r, keys keyId = some r → r.revoked = true) {token secret : String}
    (htoken : parseToken token = some (keyId, secret)) (nowMs : Nat) :
    keys.verify P token nowMs = none := by
  unfold AuthStore.verify
  rw [htoken]
  dsimp only
  split
  · rfl
  · split
    · rfl
    · rename_i r hr
      simp [ApiKeyRecord.isLive, h r hr]

/-- **Revocation is permanent.** In every run of careful events, in any interleaving of the calls
and with restarts after crashes at any point: the store is open, no token of a key verifies whose
revocation was the last that a caller was told about it, at whatever time, and every key is there
that was last put. -/
theorem revocation_permanent {I : Type} [DecidableEq I] {P : Primitives} {C : Codec AuthWalEntry}
    {calls : I → AuthCall} {s : AuthState I} {standings : Standings}
    (h : AuthRun P C calls s standings) : s.up = true ∧
      (∀ keyId, standings keyId = some .revoked → ∀ token secret nowMs,
        parseToken token = some (keyId, secret) → s.verify P token nowMs = none) ∧
      ∀ keyId, standings keyId = some .live →
        ∃ r, s.index keyId = some r ∧ r.keyId = keyId ∧ r.revoked = false := by
  have hinv := h.inv
  refine ⟨hinv.up, fun keyId hrevoked token secret nowMs htoken => ?_, fun keyId hlive => ?_⟩
  · unfold AuthState.verify
    rw [if_pos hinv.up]
    exact AuthStore.verify_revoked (fun r hr => hinv.memory.revoked keyId r hrevoked hr) htoken
      nowMs
  · obtain ⟨r, hr, hnot⟩ := hinv.memory.live keyId hlive
    exact ⟨r, hr, hinv.keyed keyId r hr, hnot⟩

/-! ### A put that fails -/

/-- The record of a key with the id `01` and the secret `[1]`. -/
def firstKey : ApiKeyRecord :=
  mintRecord samplePrimitives [1] [1] "acme" .user ⟨true, true, false⟩ none 0

def secondKey : ApiKeyRecord :=
  mintRecord samplePrimitives [2] [2] "acme" .user ⟨true, true, false⟩ none 0

/-- Payloads of these records. -/
def keyPayloads : List (AuthWalEntry × Bytes) :=
  [(.put firstKey, [0, 1, 1]), (.put secondKey, [0, 2, 2, 2, 2, 2, 2, 2, 2, 2]),
    (.revoke "01" 1, [1, 1]), (.checkpoint [firstKey], [2, 1])]

theorem nodup_keyPayloads : (keyPayloads.map Prod.snd).Nodup := by decide

def keyCodec : Codec AuthWalEntry := tableCodec keyPayloads nodup_keyPayloads

theorem keyCodec_small (r : AuthWalEntry) : keyCodec.Small r := by
  intro payload hencode
  have hall : ∀ p ∈ keyPayloads.map Prod.snd, p.length < 2 ^ 32 := by decide
  exact hall payload (mem_of_encode_tableCodec hencode)

/-- The calls that put two keys, revoke the first and compact the log. -/
inductive KeyCall
  | mint | put | revoke | compact
  deriving DecidableEq

def keyCalls : KeyCall → AuthCall
  | .mint => .mint [1] [1] "acme" .user ⟨true, true, false⟩ none 0
  | .put => .put secondKey
  | .revoke => .revoke "01" 1
  | .compact => .compact

/-- The three steps of a call without failures. -/
def wholeCall (i : KeyCall) : List (AuthEvent KeyCall) :=
  [.step i none none [], .step i none none [], .step i none none []]

def keyRun (events : List (AuthEvent KeyCall)) : AuthState KeyCall :=
  AuthState.fresh.run samplePrimitives keyCodec keyCalls events

/-- The put of another key fails after four bytes, or a compaction fails behind its rename. The
revocation returns `Ok(true)`, and the key does not verify. After a restart it does. -/
theorem failed_put_revives_key :
    (let events := wholeCall .mint ++ [.step .put none none [], .step .put (some 4) none []] ++
       wholeCall .revoke
     (keyRun events).pc .revoke = .returned (.ok (.revoked true)) ∧
     (keyRun events).verify samplePrimitives "ledge_01_AQ" 0 = none ∧
     (keyRun (events ++ [.restart 0 false])).verify samplePrimitives "ledge_01_AQ" 0 =
       some ⟨"acme", "01", .user, ⟨true, true, false⟩⟩) ∧
    (let events := wholeCall .mint ++ [.step .compact none none [firstKey],
       .step .compact none none [firstKey], .step .compact none (some .reopen) []] ++
       wholeCall .revoke
     (keyRun events).pc .revoke = .returned (.ok (.revoked true)) ∧
     (keyRun events).verify samplePrimitives "ledge_01_AQ" 0 = none ∧
     (keyRun (events ++ [.restart 0 false])).verify samplePrimitives "ledge_01_AQ" 0 =
       some ⟨"acme", "01", .user, ⟨true, true, false⟩⟩) := by
  refine ⟨⟨rfl, by decide +kernel, by decide +kernel⟩, rfl, by decide +kernel, by decide +kernel⟩

/-! ### A crash within a put -/

def AuthPc.isLocked : AuthPc → Bool
  | .locked => true
  | _ => false

/-- The event is a step of a put or a revocation that does not fail, or a crash within the first
bytes of the second put, and the file is clean. -/
def AuthState.plain (s : AuthState KeyCall) : AuthEvent KeyCall → Bool
  | .step i none _ _ => i ≠ .compact && keyCodec.isClean s.file
  | .restart cut _ =>
    (s.holder = some .put) && (s.pc .put).isLocked && cut < 8 && keyCodec.isClean s.file
  | _ => false

theorem careful_of_plain {s : AuthState KeyCall} {e : AuthEvent KeyCall} (standings : Standings)
    (h : s.plain e = true) : s.Legal samplePrimitives keyCalls e ∧
      s.Careful samplePrimitives keyCodec keyCalls standings e := by
  cases e with
  | step i fault replaceFault order =>
    cases fault with
    | some n => cases h
    | none =>
      obtain ⟨hi, hclean⟩ := Bool.and_eq_true_iff.mp h
      have hrecord : ∀ i, i ≠ .compact → (keyCalls i).record samplePrimitives ≠ none := by
        intro i hne
        cases i with
        | mint | put | revoke => exact Option.some_ne_none _
        | compact => exact absurd rfl hne
      refine ⟨fun _ hnone => absurd hnone (hrecord i (of_decide_eq_true hi)), fun r _ _ =>
        Or.inr ?_, fun keys _ => keyCodec_small _⟩
      exact ⟨keyCodec_small r, Codec.clean_of_isClean hclean, nofun⟩
  | restart cut renamed =>
    simp only [AuthState.plain, Bool.and_eq_true, decide_eq_true_eq] at h
    obtain ⟨⟨⟨hholder, hlocked⟩, hcut⟩, hclean⟩ := h
    refine ⟨trivial, fun i hi => ?_⟩
    obtain rfl : KeyCall.put = i := some.inj (hholder.symm.trans hi)
    refine ⟨fun r _ _ => Or.inr ⟨keyCodec_small r, Codec.clean_of_isClean hclean, ?_⟩, fun r hpc =>
      ?_, fun keys _ => keyCodec_small _⟩
    · intro n frame hfault hframe hle
      cases hfault
      have hheader := (Codec.isFrame_of_small hframe (keyCodec_small r)).header_le
      rw [headerLen_eq] at hheader
      omega
    · rw [hpc] at hlocked
      cases hlocked

/-- A state with the standings, one event later. -/
def keyStep (x : AuthState KeyCall × Standings) (e : AuthEvent KeyCall) :
    AuthState KeyCall × Standings :=
  (x.1.next samplePrimitives keyCodec keyCalls e, x.1.acknowledged samplePrimitives keyCalls x.2 e)

def plainRun (x : AuthState KeyCall × Standings) : List (AuthEvent KeyCall) → Bool
  | [] => true
  | e :: events => x.1.plain e && plainRun (keyStep x e) events

theorem AuthRun.ofPlain {x : AuthState KeyCall × Standings} {events : List (AuthEvent KeyCall)}
    (h : AuthRun samplePrimitives keyCodec keyCalls x.1 x.2) (hplain : plainRun x events = true) :
    AuthRun samplePrimitives keyCodec keyCalls (events.foldl keyStep x).1
      (events.foldl keyStep x).2 := by
  induction events generalizing x with
  | nil => exact h
  | cons e events ih =>
    obtain ⟨he, hrest⟩ := Bool.and_eq_true_iff.mp hplain
    obtain ⟨hlegal, hcareful⟩ := careful_of_plain x.2 he
    exact ih (h.event e hlegal hcareful) hrest

/-- The first key is put and revoked, and a crash cuts the put of the second one off. -/
def cutRun : List (AuthEvent KeyCall) :=
  wholeCall .mint ++ wholeCall .revoke ++ [.step .put none none [], .restart 4 false]

theorem cut_put_keeps_revocation :
    let x := cutRun.foldl keyStep (.fresh, fun _ => none)
    x.2 "01" = some .revoked ∧ x.1.file.disk ≠ [] ∧
      x.1.verify samplePrimitives "ledge_01_AQ" 0 = none := by
  intro x
  have hrun : AuthRun samplePrimitives keyCodec keyCalls x.1 x.2 :=
    AuthRun.ofPlain AuthRun.start (by decide +kernel)
  have hrevoked : x.2 "01" = some .revoked := by decide +kernel
  refine ⟨hrevoked, by decide +kernel, ?_⟩
  exact (revocation_permanent hrun).2.1 "01" hrevoked "ledge_01_AQ" "AQ" 0 (by decide +kernel)

end Ledge.Server
