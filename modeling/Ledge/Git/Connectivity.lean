import Ledge.Git.Push

/-!
# Ledge.Git.Connectivity

**What the connectivity check of a push is good for.**

The check asks for everything that the objects of the pack name, one step deep. What is found is an
object of the pack or one that the store had (`Pusher.relied`). So whatever a ref that the push
moves leads to is an object of the pack, or something that an object of the store leads to
(`Pusher.Sound`). What the store has is not looked at.
-/

namespace Ledge.Git

open Ledge.Core Ledge.RefStore Ledge.Objects Ledge.Workspace List Option

/-! ### Names -/

section

variable {t : ObjectTable} {sent index : Names} {sha1 : Sha1} {id x : ObjectId}

theorem Names.mem_of_lookup (h : sent.lookup sha1 = some id) : (sha1, id) ∈ sent := by
  obtain ⟨⟨sha1', id'⟩, hfind, rfl⟩ := map_eq_some_iff.mp h
  have hname := find?_some hfind
  obtain rfl : sha1' = sha1 := of_decide_eq_true hname
  exact mem_of_find?_eq_some hfind

theorem eq_of_resolves {names : Names} (h : t.Resolves names) (hmem : (t.sha1 x, id) ∈ names)
    (hx : x ∈ t.known) : id = x := by
  obtain ⟨hknown, hsha1⟩ := h _ hmem
  exact t.sha1_inj id hknown x hx hsha1.symm

/-- A name is resolved by the objects of the pack, or else by the store. -/
theorem resolve_cases (h : resolveSha1ToObjId sent index sha1 = some id) :
    (sha1, id) ∈ sent ∨ sent.lookup sha1 = none ∧ index.lookup sha1 = some id := by
  unfold resolveSha1ToObjId at h
  cases hsent : sent.lookup sha1 with
  | some id' =>
    rw [hsent] at h
    cases h
    exact Or.inl (Names.mem_of_lookup hsent)
  | none =>
    rw [hsent] at h
    exact Or.inr ⟨rfl, h⟩

end

/-! ### A call and what it has used -/

/-- A call, the objects that it has written and those that it has taken from the store. -/
structure Pusher where
  pc : PushPc
  written : List ObjectId
  relied : List ObjectId

/-- Before the call. -/
def PushRequest.pusher (r : PushRequest) : Pusher := ⟨r.start, [], []⟩

namespace PushPc

/-- The objects of the pack by their names. -/
def sent : PushPc → Names
  | .writing _ sent _ | .commands _ sent _ | .resolved _ _ _ _ sent _
  | .updating _ _ _ _ _ sent _ | .deleting _ _ _ _ sent _ => sent
  | .reported _ | .failed => []

/-- The report so far. -/
def report : PushPc → List ReportLine
  | .commands _ _ report | .resolved _ _ _ _ _ report | .updating _ _ _ _ _ _ report
  | .deleting _ _ _ _ _ report | .reported report => report
  | .writing _ _ _ | .failed => []

/-- The check has been passed, and commands may be carried out. -/
def checked : PushPc → Bool
  | .commands _ _ _ | .resolved _ _ _ _ _ _ | .updating _ _ _ _ _ _ _ | .deleting _ _ _ _ _ _ =>
    true
  | .writing _ _ _ | .reported _ | .failed => false

/-- The target that a ref is about to get. -/
def target : PushPc → Option ObjectId
  | .resolved _ _ new _ _ _ | .updating _ _ new _ _ _ _ => some new
  | _ => none

/-- The ref of the command that is carried out. -/
def ref : PushPc → Option (RefCommand × RefName)
  | .resolved c name _ _ _ _ | .updating c name _ _ _ _ _ | .deleting c name _ _ _ _ =>
    some (c, name)
  | _ => none

end PushPc

namespace Pusher

variable (P : Primitives) (r : PushRequest) (env : PushEnv) (t : ObjectTable)

def step (refs : Store) (p : Pusher) : Store × Pusher :=
  let (refs', pc) := p.pc.step P r env refs
  (refs', ⟨pc, p.written ++ (p.pc.writes.map (fun w => P.blake3 w.content)).toList,
    p.relied ++ p.pc.takes env⟩)

/-- The call has written the object, or found something in the store that leads to it. -/
def Reaches (p : Pusher) (id : ObjectId) : Prop :=
  id ∈ p.written ∨ ∃ x ∈ p.relied, t.Leads x id

/-- The call has all that `x` leads to. -/
def Whole (p : Pusher) (x : ObjectId) : Prop := ∀ id, t.Leads x id → p.Reaches t id

/-- Where a ref points. -/
def PointsAt (refs : Store) (n : RefName) (x : ObjectId) : Prop :=
  (refs.tree.get n).map RefEntry.target = some x

instance (refs : Store) (n : RefName) (x : ObjectId) : Decidable (PointsAt refs n x) :=
  inferInstanceAs (Decidable (_ = _))

/-- What holds of a call at any time: `refs₀` are the refs before it and `refs` are those after its
last access. -/
structure Sound (refs₀ refs : Store) (p : Pusher) : Prop where
  sent : ∀ x ∈ p.pc.sent, x.2 ∈ p.written
  resolves : t.Resolves p.pc.sent
  /-- What is still to be written is known, and what has been written names only what is to be
  looked for. -/
  writing : ∀ todo sent referenced, p.pc = .writing todo sent referenced →
    (∀ w ∈ todo, t.Has P w) ∧
      ∀ x ∈ p.written, ∀ child, t.Refers x child → t.sha1 child ∈ referenced
  /-- The check was one step deep. -/
  connected : p.pc.checked = true →
    ∀ x ∈ p.written, ∀ child, t.Refers x child → child ∈ p.written ∨ child ∈ p.relied
  target : ∀ x, p.pc.target = some x → p.Whole t x
  ref : ∀ c name, p.pc.ref = some (c, name) → RefName.new (storeRef c.refName r.segment) = .ok name
  /-- A ref is where it was, or at something whole. -/
  moved : ∀ n x, PointsAt refs n x → PointsAt refs₀ n x ∨ p.Whole t x
  /-- A ref that is reported `ok` is at something whole. -/
  reported : ∀ line ∈ p.pc.report, line.refusal = none →
    ∀ name, RefName.new (storeRef line.refName r.segment) = .ok name →
      ∀ x, PointsAt refs name x → p.Whole t x

variable {P r env t} {p : Pusher} {refs₀ refs : Store} {x : ObjectId}

/-- What the call has written or taken is whole, if the check was passed. -/
theorem whole_of_connected
    (hconnected : ∀ x ∈ p.written, ∀ child, t.Refers x child → child ∈ p.written ∨ child ∈ p.relied)
    (hx : x ∈ p.written ∨ x ∈ p.relied) : p.Whole t x := by
  intro id hid
  induction hid with
  | refl => exact hx.imp_right fun h => ⟨x, h, .refl⟩
  | tail _ hrefers ih =>
    rcases ih with hwritten | ⟨y, hy, hleads⟩
    · exact (hconnected _ hwritten _ hrefers).imp_right fun h => ⟨_, h, .refl⟩
    · exact Or.inr ⟨y, hy, hleads.tail hrefers⟩

theorem Whole.mono {p' : Pusher} (hwritten : p.written ⊆ p'.written)
    (hrelied : p.relied ⊆ p'.relied) (h : p.Whole t x) : p'.Whole t x := by
  intro id hid
  rcases h id hid with hw | ⟨y, hy, hleads⟩
  · exact Or.inl (hwritten hw)
  · exact Or.inr ⟨y, hrelied hy, hleads⟩

variable {sent : Names}

theorem mem_takes_of_command {c : RefCommand} {todo : List RefCommand} {report : List ReportLine}
    (hnew : c.newSha1 ≠ nullSha1) (hsent : sent.lookup c.newSha1 = none)
    (hindex : env.index.lookup c.newSha1 = some x) :
    x ∈ (PushPc.commands (c :: todo) sent report).takes env := by
  simp only [PushPc.takes]
  rw [if_pos ⟨hnew, hsent⟩, hindex]
  exact mem_singleton_self x

/-! ### One access -/

section

variable {pc pc' : PushPc} {written relied : List ObjectId}

theorem Whole.take (h : Whole t ⟨pc, written, relied⟩ x) (taken : List ObjectId) :
    Whole t ⟨pc', written, relied ++ taken⟩ x := by
  refine Whole.mono ?_ ?_ h
  · exact List.Subset.refl written
  · exact subset_append_left relied taken

theorem Whole.write (h : Whole t ⟨pc, written, relied⟩ x) (wrote : List ObjectId) :
    Whole t ⟨pc', written ++ wrote, relied⟩ x := by
  refine Whole.mono ?_ ?_ h
  · exact subset_append_left written wrote
  · exact List.Subset.refl relied

variable {c : RefCommand} {todo : List RefCommand} {sent : Names} {taken : List ObjectId}
  {referenced : List Sha1}

/-- A command takes its new target from the pack or from the store. -/
theorem whole_of_resolve {report : List ReportLine}
    (h : Sound P r t refs₀ refs ⟨.commands (c :: todo) sent report, written, relied⟩)
    (hnew : c.newSha1 ≠ nullSha1) (hfound : resolveSha1ToObjId sent env.index c.newSha1 = some x) :
    Whole t ⟨pc', written, relied ++ (PushPc.commands (c :: todo) sent report).takes env⟩ x := by
  refine whole_of_connected (fun y hy child hrefers => ?_) ?_
  · exact (h.connected rfl y hy child hrefers).imp_right (mem_append_left _)
  · rcases resolve_cases hfound with hsent | ⟨hsent, hindex⟩
    · exact Or.inl (h.sent _ hsent)
    · exact Or.inr (mem_append_right _ (mem_takes_of_command hnew hsent hindex))

theorem Sound.quiet (h : Sound P r t refs₀ refs ⟨pc, written, relied⟩) (hsent : pc'.sent ⊆ pc.sent)
    (hwriting : ∀ todo sent referenced, pc' ≠ .writing todo sent referenced)
    (hchecked : pc'.checked = true → pc.checked = true)
    (htarget : ∀ y, pc'.target = some y → Whole t ⟨pc', written, relied ++ taken⟩ y)
    (href : ∀ c name, pc'.ref = some (c, name) → RefName.new (storeRef c.refName r.segment) =
      .ok name)
    (hreport : ∀ line ∈ pc'.report, line ∈ pc.report ∨ line.refusal ≠ none) :
    Sound P r t refs₀ refs ⟨pc', written, relied ++ taken⟩ where
  sent y hy := h.sent y (hsent hy)
  resolves y hy := h.resolves y (hsent hy)
  writing todo sent referenced heq := absurd heq (hwriting todo sent referenced)
  connected hc y hy child hrefers :=
    (h.connected (hchecked hc) y hy child hrefers).imp_right (mem_append_left taken)
  target := htarget
  ref := href
  moved n y hy := (h.moved n y hy).imp_right fun hwhole => hwhole.take taken
  reported line hline hok name hname y hy := by
    have hold := (hreport line hline).resolve_right (not_not.mpr hok)
    exact (h.reported line hold hok name hname y hy).take taken

theorem Sound.refuse {refName : String} {refusal : Refusal}
    (h : Sound P r t refs₀ refs ⟨pc, written, relied⟩) (hchecked : pc.checked = true) :
    Sound P r t refs₀ refs ⟨.commands todo pc.sent (pc.report ++ [⟨refName, some refusal⟩]),
      written, relied ++ taken⟩ := by
  refine h.quiet (List.Subset.refl _) nofun (fun _ => hchecked) nofun
    nofun fun line hline => ?_
  refine (mem_append.mp hline).imp_right fun hlast => ?_
  rw [mem_singleton.mp hlast]
  exact some_ne_none refusal

/-- The check: whatever the objects of the pack name has been found. -/
theorem Sound.check (hindex : t.Resolves env.index)
    (h : Sound P r t refs₀ refs ⟨.writing [] sent referenced, written, relied⟩)
    (hfound : ∀ sha1 ∈ referenced, resolveSha1ToObjId sent env.index sha1 ≠ none) :
    Sound P r t refs₀ refs ⟨.commands r.commands sent [], written,
      relied ++ (PushPc.writing [] sent referenced).takes env⟩ where
  sent := h.sent
  resolves := h.resolves
  writing := nofun
  connected _ y hy child hrefers := by
    have hreferenced := (h.writing _ _ _ rfl).2 y hy child hrefers
    obtain ⟨id, hid⟩ := ne_none_iff_exists'.mp (hfound _ hreferenced)
    rcases resolve_cases hid with hsent | ⟨hsent, hlookup⟩
    · obtain rfl := eq_of_resolves h.resolves hsent hrefers.1
      exact Or.inl (h.sent _ hsent)
    · obtain rfl := eq_of_resolves hindex (Names.mem_of_lookup hlookup) hrefers.1
      refine Or.inr (mem_append_right _ (mem_filterMap.mpr ⟨_, hreferenced, ?_⟩))
      rw [if_pos hsent, hlookup]
  target := nofun
  ref := nofun
  moved n y hy := (h.moved n y hy).imp_right fun hwhole => hwhole.take _
  reported := nofun

theorem Sound.write {w : TypedWrite} {todo : List TypedWrite} {typeName : String}
    (htype : gitTypeName w.gitType = some typeName)
    (h : Sound P r t refs₀ refs ⟨.writing (w :: todo) sent referenced, written, relied⟩) :
    Sound P r t refs₀ refs ⟨.writing todo ((P.gitSha1 typeName w.content, P.blake3 w.content) ::
      sent)
      (referenced ++ referencedSha1s w.gitType w.content), written ++ [P.blake3 w.content],
        relied⟩ := by
  obtain ⟨htodo, hreferenced⟩ := h.writing _ _ _ rfl
  have hw := htodo w mem_cons_self
  refine ⟨fun y hy => ?_, fun y hy => ?_, fun _ _ _ heq => ?_, nofun, nofun,
    nofun, fun n y hy => ?_, nofun⟩
  · rcases mem_cons.mp hy with rfl | hy
    · exact mem_append_right _ (mem_singleton_self _)
    · exact mem_append_left _ (h.sent y hy)
  · rcases mem_cons.mp hy with rfl | hy
    · exact ⟨hw.known, (hw.sha1 typeName htype).symm⟩
    · exact h.resolves y hy
  · cases heq
    refine ⟨fun w' hw' => htodo w' (mem_cons_of_mem w hw'), fun y hy child hrefers => ?_⟩
    rcases mem_append.mp hy with hy | hy
    · exact mem_append_left _ (hreferenced y hy child hrefers)
    · obtain rfl := mem_singleton.mp hy
      obtain ⟨-, hnamed⟩ := hrefers
      rw [hw.gitType, hw.content] at hnamed
      exact mem_append_right _ hnamed
  · exact (h.moved n y hy).imp_right fun hwhole => hwhole.write _

/-- A ref is moved or deleted: what it is at then, if anything, is whole. -/
theorem Sound.move {refs' : Store} {name : RefName} {e : Option RefEntry}
    (h : Sound P r t refs₀ refs ⟨pc, written, relied⟩) (hchecked : pc.checked = true)
    (href : pc.ref = some (c, name))
    (hget : ∀ n, refs'.tree.get n = if n = name then e else refs.tree.get n)
    (hwhole : ∀ y, e.map RefEntry.target = some y → Whole t ⟨pc, written, relied⟩ y) :
    Sound P r t refs₀ refs' ⟨.commands todo pc.sent (pc.report ++ [⟨c.refName, none⟩]), written,
      relied⟩ := by
  have hself : ∀ y, PointsAt refs' name y → Whole t ⟨pc, written, relied⟩ y := by
    intro y hy
    rw [PointsAt, hget, if_pos rfl] at hy
    exact hwhole y hy
  have hother : ∀ n y, n ≠ name → PointsAt refs' n y → PointsAt refs n y := by
    intro n y hne hy
    rwa [PointsAt, hget, if_neg hne] at hy
  refine ⟨h.sent, h.resolves, nofun, fun _ => h.connected hchecked, nofun,
    nofun, fun n y hy => ?_, fun line hline hok n hn y hy => ?_⟩
  · by_cases hne : n = name
    · exact Or.inr (hself y (hne ▸ hy))
    · exact h.moved n y (hother n y hne hy)
  · by_cases hne : n = name
    · exact hself y (hne ▸ hy)
    · rcases mem_append.mp hline with hline | hline
      · exact h.reported line hline hok n hn y (hother n y hne hy)
      · obtain rfl := mem_singleton.mp hline
        exact absurd (Except.ok.inj (hn.symm.trans (h.ref c name href))) hne

end

theorem sound_start (h : ∀ w ∈ r.objects, t.Has P w) : Sound P r t refs refs r.pusher where
  sent := nofun
  resolves := nofun
  writing _ _ _ heq := by
    cases heq
    refine ⟨h, fun y hy => ?_⟩
    cases hy
  connected := nofun
  target := nofun
  ref := nofun
  moved _ _ hy := Or.inl hy
  reported := nofun

theorem Sound.access {pc pc' : PushPc} {written relied : List ObjectId} {refs' : Store}
    (h : Sound P r t refs₀ refs ⟨pc, written, relied⟩) (hindex : t.Resolves env.index)
    (haccess : PushPc.Access P r env refs pc refs' pc') (hwrites : pc.writes = none) :
    Sound P r t refs₀ refs' ⟨pc', written, relied ++ pc.takes env⟩ := by
  cases haccess with
  | write htype =>
    rw [PushPc.writes_of_type htype] at hwrites
    cases hwrites
  | check hfound => exact h.check hindex hfound
  | updated hstood htarget hget =>
    simp only [PushPc.takes, append_nil]
    refine h.move rfl rfl hget fun y hy => h.target y ?_
    rw [← some.inj hy, htarget]
    rfl
  | deleted hstood hget =>
    simp only [PushPc.takes, append_nil]
    exact h.move rfl rfl hget nofun
  | missing =>
    refine h.quiet (nil_subset _) nofun nofun nofun
      nofun fun line hline => ?_
    obtain ⟨c, -, rfl⟩ := List.mem_map.mp hline
    exact Or.inr (some_ne_none _)
  | refuse | stale | notUpdated | notDeleted => exact h.refuse rfl
  | delete hname hnew hold hfound =>
    refine h.quiet (List.Subset.refl _) nofun (fun _ => rfl) nofun
      (fun _ _ heq => ?_) fun line hline => Or.inl hline
    cases heq
    exact hname
  | create hname hnew hold hfound | resolve hname hnew hold hfound =>
    refine h.quiet (List.Subset.refl _) nofun (fun _ => rfl) (fun _ heq => ?_)
      (fun _ _ heq => ?_) fun line hline => Or.inl hline
    · cases heq
      exact whole_of_resolve h hnew hfound
    · cases heq
      exact hname
  | update hfound =>
    refine h.quiet (List.Subset.refl _) nofun (fun _ => rfl) (fun y heq => ?_)
      h.ref fun line hline => Or.inl hline
    exact (h.target y heq).take _
  | finish | reported | failed | fail =>
    exact h.quiet (nil_subset _) nofun nofun nofun
      nofun fun line hline => Or.inl hline

/-- **One access of a call**, with a map that names known objects. -/
theorem Sound.step (h : p.Sound P r t refs₀ refs) (hindex : t.Resolves env.index) :
    (p.step P r env refs).2.Sound P r t refs₀ (p.step P r env refs).1 := by
  obtain ⟨pc, written, relied⟩ := p
  have haccess := PushPc.access_step P r env refs pc
  unfold Pusher.step
  cases hwrites : pc.writes with
  | none =>
    simp only [map_none, toList_none, append_nil]
    exact h.access hindex haccess hwrites
  | some w =>
    obtain ⟨todo, sent, referenced, typeName, rfl, htype⟩ := PushPc.writing_of_writes hwrites
    simp only [PushPc.step, htype, PushPc.takes, map_some, toList_some, append_nil]
    exact h.write htype

end Pusher

end Ledge.Git
