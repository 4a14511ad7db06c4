import Ledge.Git.Closures

/-!
# Ledge.Git.PushAtomic

**Concurrent pushes** into one store, in every interleaving of their accesses.

`PushWorld.log` records each access at which a ref store call of a push succeeds. The log explains
the refs and the reports (`PushWorld.Explained`): a ref is where the last command on it has left it,
each command found its ref where it expected it, and the commands with an entry are those that are
reported `ok`.
-/

namespace Ledge.Git

open Ledge.Core Ledge.RefStore Ledge.Objects Ledge.Workspace Ledge.Lib List Option

/-- The target that a ref shows. -/
def refTarget (refs : Store) (n : RefName) : Option ObjectId :=
  (refs.tree.get n).map RefEntry.target

/-- A move of a ref by a command of a call, the `command`-th of its list. -/
structure RefMove (I : Type) where
  call : I
  command : Nat
  name : RefName
  old : Option ObjectId
  new : Option ObjectId

/-- What a move does to a ref. -/
def RefMove.write {I : Type} (n : RefName) (m : RefMove I) : Option (Option ObjectId) :=
  if m.name = n then some m.new else none

/-- The name stands for the object; the null name stands for none. -/
def NamedBy (t : ObjectTable) (sha1 : Sha1) : Option ObjectId → Prop
  | none => sha1 = nullSha1
  | some id => sha1 ≠ nullSha1 ∧ id ∈ t.known ∧ t.sha1 id = sha1

namespace PushPc

/-- The move that the next access makes: the ref, where it stood and where it goes. -/
def moves (env : PushEnv) (refs : Store) : PushPc →
    Option (RefName × Option ObjectId × Option ObjectId)
  | .updating _ name new expected _ _ _ =>
    if (refs.update name new expected env.hlc).2.isOk then some (name, expected, some new) else none
  | .deleting _ name old _ _ _ =>
    if (refs.delete name old env.hlc).2.isOk then some (name, some old, none) else none
  | _ => none

/-- The commands that have no line in the report yet. -/
def rest : PushPc → Option (List RefCommand)
  | .commands todo _ _ => some todo
  | .resolved c _ _ todo _ _ | .updating c _ _ _ todo _ _ | .deleting c _ _ todo _ _ =>
    some (c :: todo)
  | .writing _ _ _ | .reported _ | .failed => none

/-- What has been resolved is what the command names. -/
def Aims (t : ObjectTable) : PushPc → Prop
  | .resolved c _ new _ _ _ => c.oldSha1 ≠ nullSha1 ∧ NamedBy t c.newSha1 (some new)
  | .updating c _ new expected _ _ _ =>
    NamedBy t c.oldSha1 expected ∧ NamedBy t c.newSha1 (some new)
  | .deleting c _ old _ _ _ => NamedBy t c.oldSha1 (some old) ∧ NamedBy t c.newSha1 none
  | .writing _ _ _ | .commands _ _ _ | .reported _ | .failed => True

variable {P : Primitives} {r : PushRequest} {env : PushEnv} {refs refs' : Store} {pc pc' : PushPc}
  {t : ObjectTable}

/-- An access moves no ref and reports no `ok`, or it moves the ref of its command and reports
that. -/
theorem Access.report (h : Access P r env refs pc refs' pc') :
    (pc.moves env refs = none ∧ refs' = refs ∧
      ∃ lines, pc'.report = pc.report ++ lines ∧ ∀ line ∈ lines, line.refusal ≠ none) ∨
    ∃ c name old new, pc.moves env refs = some (name, old, new) ∧ pc.ref = some (c, name) ∧
      refTarget refs name = old ∧
      (∀ n, refTarget refs' n = if n = name then new else refTarget refs n) ∧
      pc'.report = pc.report ++ [⟨c.refName, none⟩] := by
  cases h with
  | @updated c name new expected _ _ _ _ _ hstood htarget hget hresult =>
    refine Or.inr ⟨c, name, expected, some new, ?_, rfl, hstood, fun n => ?_, rfl⟩
    · rw [moves, hresult]
      exact if_pos rfl
    · rw [refTarget, hget]
      split_ifs
      · rw [map_some, htarget]
      · rfl
  | deleted hstood hget hresult =>
    refine Or.inr ⟨_, _, some _, none, ?_, rfl, hstood, fun n => ?_, rfl⟩
    · rw [moves, hresult]
      exact if_pos rfl
    · rw [refTarget, hget]
      split_ifs
      · rfl
      · rfl
  | notUpdated hresult | notDeleted hresult =>
    refine Or.inl ⟨?_, rfl, _, rfl, fun line hline => ?_⟩
    · rw [moves, hresult]
      exact if_neg Bool.false_ne_true
    · rw [mem_singleton.mp hline]
      exact some_ne_none _
  | refuse | stale =>
    refine Or.inl ⟨rfl, rfl, _, rfl, fun line hline => ?_⟩
    rw [mem_singleton.mp hline]
    exact some_ne_none _
  | missing =>
    refine Or.inl ⟨rfl, rfl, _, (nil_append _).symm, fun line hline => ?_⟩
    obtain ⟨c, -, rfl⟩ := List.mem_map.mp hline
    exact some_ne_none _
  | write | fail | check | finish | delete | create | resolve | update | reported | failed =>
    refine Or.inl ⟨rfl, rfl, [], (append_nil _).symm, fun line hline => ?_⟩
    cases hline

theorem Aims.named {c : RefCommand} {name name' : RefName} {old new : Option ObjectId}
    (h : pc.Aims t)
    (hmoves : pc.moves env refs = some (name, old, new)) (href : pc.ref = some (c, name')) :
    NamedBy t c.oldSha1 old ∧ NamedBy t c.newSha1 new := by
  cases pc with
  | updating | deleting =>
    cases href
    simp only [moves] at hmoves
    split_ifs at hmoves
    obtain ⟨-, heq⟩ := Prod.mk.inj (some.inj hmoves)
    cases heq
    exact h
  | writing | commands | resolved | reported | failed => cases hmoves

variable (P r t) in
/-- What holds of a call whatever the others do: its commands are taken in order, one line of the
report for each, and what it resolves is what they name. -/
structure Pending (pc : PushPc) : Prop where
  resolves : t.Resolves pc.sent
  todo : ∀ todo sent referenced, pc = .writing todo sent referenced → ∀ w ∈ todo, t.Has P w
  rest : ∀ l, pc.rest = some l → ∃ past, r.commands = past ++ l ∧
    past.map RefCommand.refName = pc.report.map ReportLine.refName
  lines : ∃ past, past <+: r.commands ∧
    past.map RefCommand.refName = pc.report.map ReportLine.refName
  ref : ∀ c name, pc.ref = some (c, name) → RefName.new (storeRef c.refName r.segment) = .ok name
  aims : pc.Aims t

theorem namedBy_of_resolve {sent : Names} {sha1 : Sha1} {id : ObjectId} (hsent : t.Resolves sent)
    (hindex : t.Resolves env.index) (hne : sha1 ≠ nullSha1)
    (h : resolveSha1ToObjId sent env.index sha1 = some id) : NamedBy t sha1 (some id) := by
  rcases resolve_cases h with hmem | ⟨-, hlookup⟩
  · obtain ⟨hknown, hsha1⟩ := hsent _ hmem
    exact ⟨hne, hknown, hsha1.symm⟩
  · obtain ⟨hknown, hsha1⟩ := hindex _ (Names.mem_of_lookup hlookup)
    exact ⟨hne, hknown, hsha1.symm⟩

theorem Pending.line {c : RefCommand} {todo : List RefCommand} {refusal : Option Refusal}
    (h : Pending P r t pc) (hrest : pc.rest = some (c :: todo)) :
    Pending P r t (.commands todo pc.sent (pc.report ++ [⟨c.refName, refusal⟩])) := by
  obtain ⟨past, hcommands, hpast⟩ := h.rest _ hrest
  have hnext : r.commands = (past ++ [c]) ++ todo := by
    rw [hcommands, append_assoc]
    rfl
  have hlines : (past ++ [c]).map RefCommand.refName =
      (pc.report ++ [ReportLine.mk c.refName refusal]).map ReportLine.refName := by
    rw [map_append, map_append, hpast]
    rfl
  refine ⟨h.resolves, nofun, fun l hl => ?_, ?_, nofun, trivial⟩
  · cases hl
    exact ⟨_, hnext, hlines⟩
  · exact ⟨_, ⟨todo, hnext.symm⟩, hlines⟩

theorem Pending.onward (h : Pending P r t pc) (hsent : pc'.sent = pc.sent)
    (hrest : pc'.rest = pc.rest) (hreport : pc'.report = pc.report)
    (hwriting : ∀ todo sent referenced, pc' ≠ .writing todo sent referenced)
    (href : ∀ c name, pc'.ref = some (c, name) → RefName.new (storeRef c.refName r.segment) =
      .ok name)
    (haims : pc'.Aims t) : Pending P r t pc' where
  resolves := by
    rw [hsent]
    exact h.resolves
  todo _ _ _ heq := absurd heq (hwriting _ _ _)
  rest := by
    rw [hrest, hreport]
    exact h.rest
  lines := by
    rw [hreport]
    exact h.lines
  ref := href
  aims := haims

theorem Pending.over (h : Pending P r t pc) : Pending P r t (.reported pc.report) where
  resolves := nofun
  todo := nofun
  rest := nofun
  lines := h.lines
  ref := nofun
  aims := trivial

theorem Pending.access (h : Pending P r t pc) (hindex : t.Resolves env.index)
    (haccess : Access P r env refs pc refs' pc') : Pending P r t pc' := by
  cases haccess with
  | @write w todo sent referenced typeName htype =>
    have htodo := h.todo _ _ _ rfl
    have hw := htodo w mem_cons_self
    refine ⟨fun x hx => ?_, fun _ _ _ heq w' hw' => ?_, nofun, h.lines, nofun,
      trivial⟩
    · rcases mem_cons.mp hx with rfl | hx
      · exact ⟨hw.known, (hw.sha1 typeName htype).symm⟩
      · exact h.resolves x hx
    · cases heq
      exact htodo w' (mem_cons_of_mem w hw')
  | check hfound =>
    refine ⟨h.resolves, nofun, fun l hl => ?_, h.lines, nofun, trivial⟩
    cases hl
    exact ⟨[], rfl, rfl⟩
  | missing =>
    refine ⟨nofun, nofun, nofun, ?_, nofun, trivial⟩
    refine ⟨r.commands, prefix_rfl, ?_⟩
    simp [report]
  | finish => exact h.over
  | delete hname hnew hold hfound =>
    refine h.onward rfl rfl rfl nofun (fun _ _ heq => ?_) ⟨?_, hnew⟩
    · cases heq
      exact hname
    · exact namedBy_of_resolve h.resolves hindex hold hfound
  | create hname hnew hold hfound | resolve hname hnew hold hfound =>
    refine h.onward rfl rfl rfl nofun (fun _ _ heq => ?_) ⟨hold, ?_⟩
    · cases heq
      exact hname
    · exact namedBy_of_resolve h.resolves hindex hnew hfound
  | update hfound =>
    obtain ⟨hold, hnew⟩ := h.aims
    refine h.onward rfl rfl rfl nofun h.ref ⟨?_, hnew⟩
    exact namedBy_of_resolve h.resolves hindex hold hfound
  | refuse | stale | updated | notUpdated | deleted | notDeleted => exact h.line rfl
  | fail =>
    exact ⟨nofun, nofun, nofun, h.lines, nofun, trivial⟩
  | reported | failed => exact h

theorem pending_start (h : ∀ w ∈ r.objects, t.Has P w) : Pending P r t r.start where
  resolves := nofun
  todo _ _ _ heq := by
    cases heq
    exact h
  rest := nofun
  lines := ⟨[], List.nil_prefix, rfl⟩
  ref := nofun
  aims := trivial

theorem Pending.command_of_line (h : Pending P r t pc) {k : Nat} {line : ReportLine}
    (hline : pc.report[k]? = some line) : ∃ c, r.commands[k]? = some c ∧ c.refName =
      line.refName := by
  obtain ⟨past, ⟨todo, hcommands⟩, hpast⟩ := h.lines
  have hname : (past.map RefCommand.refName)[k]? = some line.refName := by
    rw [hpast, getElem?_map, hline]
    rfl
  rw [getElem?_map] at hname
  obtain ⟨c, hc, hrefName⟩ := map_eq_some_iff.mp hname
  have hlt : k < past.length := (List.getElem?_eq_some_iff.mp hc).1
  refine ⟨c, ?_, hrefName⟩
  rw [← hcommands, getElem?_append_left hlt]
  exact hc

/-- The command that is carried out is the one after the lines of the report. -/
theorem Pending.command_of_ref (h : Pending P r t pc) {c : RefCommand} {name : RefName}
    (href : pc.ref = some (c, name)) : r.commands[pc.report.length]? = some c := by
  have hrest : ∃ todo, pc.rest = some (c :: todo) := by
    cases pc with
    | resolved | updating | deleting =>
      cases href
      exact ⟨_, rfl⟩
    | writing | commands | reported | failed => cases href
  obtain ⟨todo, hrest⟩ := hrest
  obtain ⟨past, hcommands, hpast⟩ := h.rest _ hrest
  have hlength : pc.report.length = past.length := by
    have := congrArg List.length hpast
    rw [length_map, length_map] at this
    exact this.symm
  rw [hcommands, hlength, getElem?_append_right (Nat.le_refl _), Nat.sub_self]
  rfl

end PushPc

/-! ### Many calls -/

/-- The refs, the calls and the moves so far. -/
structure PushWorld (I : Type) where
  refs : Store
  pc : I → PushPc
  log : List (RefMove I)

namespace PushWorld

variable {I : Type} [DecidableEq I] (P : Primitives) (r : I → PushRequest) (t : ObjectTable)

/-- The next access of one call. -/
def step (s : PushWorld I) (i : I) (env : PushEnv) : PushWorld I where
  refs := ((s.pc i).step P (r i) env s.refs).1
  pc := Function.update s.pc i ((s.pc i).step P (r i) env s.refs).2
  log := s.log ++ (((s.pc i).moves env s.refs).map fun m =>
    ⟨i, (s.pc i).report.length, m.1, m.2.1, m.2.2⟩).toList

/-- Before the first access. -/
def init (refs : Store) : PushWorld I := ⟨refs, fun i => (r i).start, []⟩

/-- The runs. The maps that the calls get name known objects. -/
inductive Run (s₀ : PushWorld I) : PushWorld I → Prop
  | start : Run s₀ s₀
  | step {s : PushWorld I} (h : Run s₀ s) (i : I) (env : PushEnv) (hindex : t.Resolves env.index) :
      Run s₀ (s.step P r i env)

/-- **The log explains a state**, from the refs at the start. -/
structure Explained (refs₀ : Store) (s : PushWorld I) : Prop where
  /-- A ref is where the last move of it has left it. -/
  value : ∀ n, refTarget s.refs n = settle (RefMove.write n) (refTarget refs₀ n) s.log
  /-- Each move found its ref where it expected it. -/
  stood : ∀ before m after, s.log = before ++ m :: after →
    settle (RefMove.write m.name) (refTarget refs₀ m.name) before = m.old
  /-- Each move is that of a command: it moves the ref of the command from the object that the
  command names as the old one to the one it names as the new one, and it is reported `ok`. -/
  command : ∀ m ∈ s.log, ∃ c, (r m.call).commands[m.command]? = some c ∧
    RefName.new (storeRef c.refName (r m.call).segment) = .ok m.name ∧
    NamedBy t c.oldSha1 m.old ∧ NamedBy t c.newSha1 m.new ∧
    (s.pc m.call).report[m.command]? = some ⟨c.refName, none⟩
  /-- A command moves at most once. -/
  once : (s.log.map fun m => (m.call, m.command)).Nodup
  /-- The lines of a report are those of the commands in their order, and each `ok` is a move. -/
  lines : ∀ i k line, (s.pc i).report[k]? = some line →
    (∃ c, (r i).commands[k]? = some c ∧ c.refName = line.refName) ∧
    (line.refusal = none → ∃ m ∈ s.log, m.call = i ∧ m.command = k)

variable {P r t} {refs₀ : Store} {s : PushWorld I} {i : I} {env : PushEnv}

theorem step_pc_self : (s.step P r i env).pc i = ((s.pc i).step P (r i) env s.refs).2 :=
  Function.update_self ..

theorem step_pc_of_ne {j : I} (h : j ≠ i) : (s.step P r i env).pc j = s.pc j :=
  Function.update_of_ne h ..

theorem report_step (j : I) : ∃ lines, ((s.step P r i env).pc j).report =
    (s.pc j).report ++ lines := by
  by_cases hj : j = i
  · subst hj
    rw [step_pc_self]
    rcases (PushPc.access_step P (r j) env s.refs (s.pc j)).report with
      ⟨-, -, lines, hlines, -⟩ | ⟨c, name, old, new, -, -, -, -, hlines⟩
    · exact ⟨lines, hlines⟩
    · exact ⟨_, hlines⟩
  · rw [step_pc_of_ne hj]
    exact ⟨[], (append_nil _).symm⟩

theorem line_step {j : I} {k : Nat} {line : ReportLine} (h : (s.pc j).report[k]? = some line) :
    ((s.step P r i env).pc j).report[k]? = some line := by
  obtain ⟨lines, hlines⟩ : ∃ lines, ((s.step P r i env).pc j).report = (s.pc j).report ++ lines :=
    report_step j
  rw [hlines, getElem?_append_left (List.getElem?_eq_some_iff.mp h).1]
  exact h

theorem Explained.command_step (h : Explained r t refs₀ s) {m : RefMove I} (hm : m ∈ s.log) :
    ∃ c, (r m.call).commands[m.command]? = some c ∧
      RefName.new (storeRef c.refName (r m.call).segment) = .ok m.name ∧
      NamedBy t c.oldSha1 m.old ∧ NamedBy t c.newSha1 m.new ∧
      ((s.step P r i env).pc m.call).report[m.command]? = some ⟨c.refName, none⟩ := by
  obtain ⟨c, hc, hname, hold, hnew, hline⟩ := h.command m hm
  exact ⟨c, hc, hname, hold, hnew, line_step hline⟩

theorem Explained.quiet (h : Explained r t refs₀ s)
    (hpending : ∀ j, ((s.step P r i env).pc j).Pending P (r j) t)
    (hmoves : (s.pc i).moves env s.refs = none) (hrefs : (s.step P r i env).refs = s.refs)
    {lines : List ReportLine}
    (hlines : ((s.step P r i env).pc i).report = (s.pc i).report ++ lines)
    (hrefused : ∀ line ∈ lines, line.refusal ≠ none) : Explained r t refs₀ (s.step P r i env) := by
  have hlog : (s.step P r i env).log = s.log := by
    simp [PushWorld.step, hmoves, toList_none]
  refine ⟨fun n => ?_, fun before m after heq => ?_, fun m hm => ?_, ?_, fun j k line hline => ?_⟩
  · rw [hrefs, hlog]
    exact h.value n
  · rw [hlog] at heq
    exact h.stood before m after heq
  · rw [hlog] at hm
    exact h.command_step hm
  · rw [hlog]
    exact h.once
  · refine ⟨(hpending j).command_of_line hline, fun hok => ?_⟩
    rw [hlog]
    by_cases hj : j = i
    · subst hj
      rw [hlines] at hline
      by_cases hk : k < (s.pc j).report.length
      · rw [getElem?_append_left hk] at hline
        exact (h.lines j k line hline).2 hok
      · rw [getElem?_append_right (Nat.le_of_not_lt hk)] at hline
        exact absurd hok (hrefused line (mem_of_getElem? hline))
    · rw [step_pc_of_ne hj] at hline
      exact (h.lines j k line hline).2 hok

theorem Explained.move (h : Explained r t refs₀ s)
    (hpending : (s.pc i).Pending P (r i) t)
    (hpending' : ∀ j, ((s.step P r i env).pc j).Pending P (r j) t)
    {c : RefCommand} {name : RefName} {old new : Option ObjectId}
    (hmoves : (s.pc i).moves env s.refs = some (name, old, new))
    (href : (s.pc i).ref = some (c, name))
    (hstood : refTarget s.refs name = old)
    (hmoved : ∀ n, refTarget (s.step P r i env).refs n = if n =
      name then new else refTarget s.refs n)
    (hlines : ((s.step P r i env).pc i).report = (s.pc i).report ++ [⟨c.refName, none⟩]) :
    Explained r t refs₀ (s.step P r i env) := by
  have hlog : (s.step P r i env).log = s.log ++ [⟨i, (s.pc i).report.length, name, old, new⟩] := by
    simp [PushWorld.step, hmoves, toList_some]
  have hself : ((s.step P r i env).pc i).report[(s.pc i).report.length]? =
      some ⟨c.refName, none⟩ := by
    rw [hlines]
    exact getElem?_concat_length
  obtain ⟨hold, hnew⟩ := hpending.aims.named hmoves href
  refine ⟨fun n => ?_, fun before m after heq => ?_, fun m hm => ?_, ?_, fun j k line hline => ?_⟩
  · rw [hlog, settle_concat, hmoved, ← h.value n, RefMove.write]
    by_cases hn : n = name
    · rw [if_pos hn, if_pos hn.symm]
      rfl
    · rw [if_neg hn, if_neg (Ne.symm hn)]
      rfl
  · rw [hlog] at heq
    rcases after.eq_nil_or_concat with rfl | ⟨after', last, rfl⟩
    · obtain ⟨rfl, hm⟩ := append_inj' heq rfl
      obtain rfl := (List.cons.inj hm).1
      rw [← h.value]
      exact hstood
    · rw [concat_eq_append, ← cons_append, ← append_assoc] at heq
      exact h.stood before m after' (append_inj' heq rfl).1
  · rw [hlog] at hm
    rcases mem_append.mp hm with hm | hm
    · exact h.command_step hm
    · obtain rfl := mem_singleton.mp hm
      exact ⟨c, hpending.command_of_ref href, hpending.ref c name href, hold, hnew, hself⟩
  · rw [hlog, map_append]
    refine List.Nodup.append h.once (nodup_singleton _) fun key hkey hlast => ?_
    obtain rfl := mem_singleton.mp hlast
    obtain ⟨m, hm, hmkey⟩ := List.mem_map.mp hkey
    obtain ⟨hcall, hcommand⟩ := Prod.mk.inj hmkey
    obtain ⟨_, -, -, -, -, hline⟩ := h.command m hm
    rw [hcall, hcommand] at hline
    exact absurd (List.getElem?_eq_some_iff.mp hline).1 (Nat.lt_irrefl _)
  · refine ⟨(hpending' j).command_of_line hline, fun hok => ?_⟩
    rw [hlog]
    by_cases hj : j = i
    · subst hj
      rw [hlines] at hline
      by_cases hk : k < (s.pc j).report.length
      · rw [getElem?_append_left hk] at hline
        obtain ⟨m, hm, hkey⟩ := (h.lines j k line hline).2 hok
        exact ⟨m, mem_append_left _ hm, hkey⟩
      · have hlt := (List.getElem?_eq_some_iff.mp hline).1
        rw [length_append, length_singleton] at hlt
        refine ⟨_, mem_append_right _ (mem_singleton_self _), rfl, ?_⟩
        dsimp only
        omega
    · rw [step_pc_of_ne hj] at hline
      obtain ⟨m, hm, hkey⟩ := (h.lines j k line hline).2 hok
      exact ⟨m, mem_append_left _ hm, hkey⟩

/-- **No push is lost**, whatever the interleaving. -/
theorem pushes_explained (hobjects : ∀ i, ∀ w ∈ (r i).objects, t.Has P w)
    (hrun : Run P r t (init r refs₀) s) : Explained r t refs₀ s := by
  have hboth : (∀ j, (s.pc j).Pending P (r j) t) ∧ Explained r t refs₀ s := by
    induction hrun with
    | start =>
      refine ⟨fun j => PushPc.pending_start (hobjects j), fun n => rfl, fun before m after heq =>
        ?_, nofun, nodup_nil, nofun⟩
      cases before <;> cases heq
    | @step s _ i env hindex ih =>
      obtain ⟨hpending, hexplained⟩ := ih
      have haccess := PushPc.access_step P (r i) env s.refs (s.pc i)
      have hpending' : ∀ j, ((s.step P r i env).pc j).Pending P (r j) t := by
        intro j
        by_cases hj : j = i
        · subst hj
          rw [step_pc_self]
          exact (hpending j).access hindex haccess
        · rw [step_pc_of_ne hj]
          exact hpending j
      refine ⟨hpending', ?_⟩
      rcases haccess.report with
        ⟨hmoves, hrefs, lines, hlines, hrefused⟩ |
          ⟨c, name, old, new, hmoves, href, hstood, hmoved, hlines⟩
      · rw [← step_pc_self (r := r)] at hlines
        exact hexplained.quiet hpending' hmoves hrefs hlines hrefused
      · rw [← step_pc_self (r := r)] at hlines
        exact hexplained.move (hpending i) hpending' hmoves href hstood hmoved hlines
  exact hboth.2

variable (P r) in
/-- Accesses of calls that the stored objects do not matter to. -/
def exec (s : PushWorld I) (calls : List I) : PushWorld I :=
  calls.foldl (fun s i => s.step P r i ⟨[], 1⟩) s

theorem Run.exec {s₀ : PushWorld I} (h : Run P r t s₀ s) (calls : List I) :
    Run P r t s₀ (s.exec P r calls) := by
  induction calls generalizing s with
  | nil => exact h
  | cons i calls ih => exact ih (h.step i ⟨[], 1⟩ nofun)

end PushWorld

/-- Two calls create the same ref, their accesses taken in turn. The first gets it, the second is
told. -/
theorem second_push_refused :
    let r : Bool → PushRequest := fun _ => pushTag [sampleTag, sampleBlob]
    let s := (PushWorld.init r (.openOn [])).exec samplePrimitives r
      (flatten (replicate 6 [true, false]))
    (s.pc true).report = [⟨"refs/heads/a", none⟩] ∧ (s.pc false).report ≠ [⟨"refs/heads/a", none⟩] ∧
    s.log.length = 1 ∧ PushWorld.Explained r tagTable (.openOn []) s := by
  refine ⟨by decide +kernel, by decide +kernel, by decide +kernel, ?_⟩
  have hobjects : ∀ w ∈ [sampleTag, sampleBlob], tagTable.Has samplePrimitives w := by
    intro w hw
    rcases mem_pair.mp hw with rfl | rfl
    · exact tagTable_has_tag
    · exact tagTable_has_blob
  exact PushWorld.pushes_explained (fun _ => hobjects) (PushWorld.Run.exec .start _)

end Ledge.Git
