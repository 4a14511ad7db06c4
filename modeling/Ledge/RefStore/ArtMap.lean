import Ledge.RefStore.ArtTable
import Mathlib.Data.Finmap

/-!
# Ledge.RefStore.ArtMap

The adaptive radix tree **refines a finite map**.

`Wf path m` is the tree invariant: `path` is what the ancestors of `m` have
consumed, every key below extends it, and the child under `0x00` is the leaf of
the key that ends exactly there. It is stated over child tables, so the proofs
have one inner case, not four.

`artInsertNode` keeps it and updates one key. `artDelete` keeps it as well, for
every key: deleting a present key removes that key, and deleting an absent one
removes what `dropPoint` says, which is a whole subtree when the walk ends at a
missing child of a `Node4`, `Node16` or `Node256`.
-/

namespace Ledge.RefStore

open ArtNode Function List Option

variable {α : Type}

/-- No byte of the key is the terminator `0x00`. -/
def NulFree (key : Key) : Prop := (0x00 : UInt8) ∉ key

instance (key : Key) : Decidable (NulFree key) := inferInstanceAs (Decidable (_ ∉ _))

/-! ### Walking down one key -/

section

variable {path pfx key P r : Key} {b : UInt8}

theorem prefixMismatch_eq_false_iff (hk : path <+: key) :
    prefixMismatch pfx key path.length = false ↔ path ++ pfx <+: key := by
  obtain ⟨r, rfl⟩ := hk
  rw [prefix_append_right_inj, prefix_iff_eq_take, prefixMismatch, drop_left]
  simp only [Bool.or_eq_false_iff, decide_eq_false_iff_not, Nat.not_lt, bne_eq_false_iff_eq]
  constructor
  · exact fun h => h.2.symm
  · intro h
    refine ⟨?_, h.symm⟩
    have := congrArg List.length h
    rw [length_take] at this
    omega

@[simp] theorem nextByte_self (P : Key) : nextByte P P.length = 0x00 := by simp [nextByte]

@[simp] theorem nextByte_append_cons (P : Key) (b : UInt8) (r : Key) :
    nextByte (P ++ b :: r) P.length = b := by simp [nextByte]

@[simp] theorem nextDepth_self (P : Key) : nextDepth P P.length = P.length := by simp [nextDepth]

@[simp] theorem nextDepth_append_cons (P : Key) (b : UInt8) (r : Key) :
    nextDepth (P ++ b :: r) P.length = (P ++ [b]).length := by simp [nextDepth]

/-- A key through `P` ends there or goes on with some byte. -/
theorem prefix_cases (h : P <+: key) : key = P ∨ ∃ b r, key = P ++ b :: r := by
  obtain ⟨r, rfl⟩ := h
  cases r with
  | nil => exact Or.inl (append_nil P)
  | cons b r => exact Or.inr ⟨b, r, rfl⟩

/-- A key whose next byte is not the terminator goes on with that byte. -/
theorem prefix_snoc_of_nextByte (h : P <+: key) (hb : nextByte key P.length ≠ 0x00) :
    P ++ [nextByte key P.length] <+: key ∧
      nextDepth key P.length = (P ++ [nextByte key P.length]).length := by
  rcases prefix_cases h with rfl | ⟨b, r, rfl⟩
  · simp at hb
  · simp

theorem NulFree.of_isPrefix (h : NulFree key) (hP : P <+: key) : NulFree P :=
  fun hmem => h (hP.subset hmem)

/-- A NUL-free key whose next byte is the terminator ends there. -/
theorem eq_of_nextByte_eq_zero (hkey : NulFree key) (h : P <+: key)
    (hb : nextByte key P.length = 0x00) : key = P := by
  rcases prefix_cases h with rfl | ⟨b, r, rfl⟩
  · rfl
  · rw [nextByte_append_cons] at hb
    exact absurd (by simp [hb]) hkey

/-- `commonPrefixLen` splits both lists at their first difference. -/
theorem commonPrefixLen_spec (a c : List UInt8) :
    ∃ p a' c', a = p ++ a' ∧ c = p ++ c' ∧ commonPrefixLen a c = p.length ∧
      ∀ x a'' y c'', a' = x :: a'' → c' = y :: c'' → x ≠ y := by
  induction a generalizing c with
  | nil => exact ⟨[], [], c, rfl, rfl, rfl, by simp⟩
  | cons x a ih =>
    cases c with
    | nil => exact ⟨[], x :: a, [], rfl, rfl, rfl, by simp⟩
    | cons y c =>
      by_cases hxy : x = y
      · obtain ⟨p, a', c', rfl, rfl, hlen, hne⟩ := ih c
        refine ⟨x :: p, a', c', rfl, by rw [hxy]; rfl, ?_, hne⟩
        simp only [commonPrefixLen] at hlen
        simp [commonPrefixLen, hxy, hlen]
      · refine ⟨[], x :: a, y :: c, rfl, rfl, by simp [commonPrefixLen, hxy], ?_⟩
        intro x' a'' y' c'' hx hy
        simp only [List.cons.injEq] at hx hy
        rw [← hx.1, ← hy.1]
        exact hxy

end

/-! ### The tree invariant -/

/-- `Wf path m`: below `path`, `m` holds NUL-free keys that extend `path`, each where its
bytes lead. -/
inductive Wf : Key → ArtNode α → Prop
  | leaf {path : Key} {l : LeafNode α} : path <+: l.key → NulFree l.key → Wf path (.leaf l)
  | inner {path : Key} {m : ArtNode α} {pfx : List UInt8} {table : UInt8 → Option (ArtNode α)} :
      HasTable m pfx table → NulFree (path ++ pfx) → (∃ b, (table b).isSome) →
      (∀ c, table 0x00 = some c → ∃ e, c = .leaf ⟨path ++ pfx, e⟩) →
      (∀ b c, b ≠ 0x00 → table b = some c → Wf (path ++ pfx ++ [b]) c) →
      Wf path m

/-- `c` may stand under byte `b` of a node whose prefix ends at `P`. -/
def Fits (P : Key) (b : UInt8) (c : ArtNode α) : Prop :=
  if b = 0x00 then ∃ e, c = .leaf ⟨P, e⟩ else Wf (P ++ [b]) c

section

variable {path pfx key P : Key} {m c : ArtNode α} {table : UInt8 → Option (ArtNode α)} {b : UInt8}

theorem Wf.of_fits (h : HasTable m pfx table) (hP : NulFree (path ++ pfx))
    (hne : ∃ b, (table b).isSome) (hfit : ∀ b c, table b = some c → Fits (path ++ pfx) b c) :
    Wf path m := by
  refine .inner h hP hne (fun c hc => ?_) fun b c hb hc => ?_
  · have := hfit _ _ hc
    rwa [Fits] at this
  · have := hfit _ _ hc
    rwa [Fits, if_neg hb] at this

theorem fits_of_children
    (h0 : ∀ c, table 0x00 = some c → ∃ e, c = .leaf ⟨P, e⟩)
    (hch : ∀ b c, b ≠ 0x00 → table b = some c → Wf (P ++ [b]) c) :
    ∀ b c, table b = some c → Fits P b c := by
  intro b c hc
  unfold Fits
  split_ifs with hb
  · exact h0 c (hb ▸ hc)
  · exact hch b c hb hc

theorem fits_newLeaf (hkey : NulFree key) (h : P <+: key) (e : α) :
    Fits P (nextByte key P.length) (newLeaf key e) := by
  unfold Fits
  split_ifs with hb
  · exact ⟨e, by rw [eq_of_nextByte_eq_zero hkey h hb]; rfl⟩
  · exact .leaf (prefix_snoc_of_nextByte h hb).1 hkey

/-! ### Lookup below a path -/

theorem artLookup_inner (h : HasTable m pfx table) (hk : path <+: key) :
    artLookup m key path.length =
      if path ++ pfx <+: key then
        artLookupChild (table (nextByte key (path ++ pfx).length)) key
          (nextDepth key (path ++ pfx).length)
      else none := by
  rw [artLookup_of_table h, ← length_append]
  by_cases hp : path ++ pfx <+: key
  · rw [if_pos hp, if_neg (by simp [(prefixMismatch_eq_false_iff hk).mpr hp])]
  · have hmis : prefixMismatch pfx key path.length = true := by
      rw [← Bool.not_eq_false, prefixMismatch_eq_false_iff hk]
      exact hp
    rw [if_neg hp, if_pos hmis]

@[simp] theorem artLookup_leaf (l : LeafNode α) (key : Key) (d : Nat) :
    artLookup (.leaf l) key d = if l.key = key then some l.entry else none := by
  rw [artLookup]

@[simp] theorem artLookupChild_none (key : Key) (d : Nat) :
    artLookupChild (none : Option (ArtNode α)) key d = none := by rw [artLookupChild]

@[simp] theorem artLookupChild_some (key : Key) (d : Nat) :
    artLookupChild (some m) key d = artLookup m key d := by rw [artLookupChild]

variable {e : α} {old : Key → Option α} {k p : Key} {l : LeafNode α}

/-- A key found below an inner node is the leaf that ends there or sits below its next
byte. -/
theorem exists_child_of_lookup (hm : HasTable m pfx table)
    (h0 : ∀ c, table 0x00 = some c → ∃ e, c = .leaf ⟨path ++ pfx, e⟩) (hk : path <+: key)
    (hlook : artLookup m key path.length = some e) :
    path ++ pfx <+: key ∧ ∃ c, table (nextByte key (path ++ pfx).length) = some c ∧
      (key = path ++ pfx ∧ c = .leaf ⟨key, e⟩ ∨
        nextByte key (path ++ pfx).length ≠ 0x00 ∧
        path ++ pfx ++ [nextByte key (path ++ pfx).length] <+: key ∧
        nextDepth key (path ++ pfx).length =
          (path ++ pfx ++ [nextByte key (path ++ pfx).length]).length ∧
        artLookup c key (path ++ pfx ++ [nextByte key (path ++ pfx).length]).length = some e) := by
  rw [artLookup_inner hm hk] at hlook
  split_ifs at hlook with hPk
  refine ⟨hPk, ?_⟩
  cases ht : table (nextByte key (path ++ pfx).length) with
  | none =>
    rw [ht] at hlook
    cases hlook
  | some c =>
    rw [ht, artLookupChild_some] at hlook
    refine ⟨c, rfl, ?_⟩
    by_cases hb : nextByte key (path ++ pfx).length = 0x00
    · obtain ⟨e', rfl⟩ := h0 c (hb ▸ ht)
      rw [artLookup_leaf] at hlook
      split_ifs at hlook with heq
      refine Or.inl ⟨heq.symm, ?_⟩
      rw [← some.inj hlook, ← heq]
    · obtain ⟨hPb, hdepth⟩ := prefix_snoc_of_nextByte hPk hb
      exact Or.inr ⟨hb, hPb, hdepth, hdepth ▸ hlook⟩

/-! ### Insert -/

/-- `m'` is a valid tree below `path` that answers like `old`, except for `key ↦ e`. -/
structure Inserted (path key : Key) (e : α) (old : Key → Option α) (m' : ArtNode α) : Prop where
  wf : Wf path m'
  lookup : ∀ k, path <+: k →
    artLookup m' k path.length = if k = key then some e else old k

/-- The common step of all insertions: a child that fits is put under the key's byte of a
table that answers like `old`. -/
theorem inserted_update {m' nc : ArtNode α} (hkey : NulFree key) (hP : path ++ pfx <+: key)
    (hfit : ∀ b c, table b = some c → Fits (path ++ pfx) b c) (hold : ∀ k, path <+: k → old k =
      if path ++ pfx <+: k then
        artLookupChild (table (nextByte k (path ++ pfx).length)) k
          (nextDepth k (path ++ pfx).length)
      else none) (hm' : HasTable m' pfx
      (Function.update table (nextByte key (path ++ pfx).length) (some nc)))
    (hnc : Fits (path ++ pfx) (nextByte key (path ++ pfx).length) nc)
    (hlook : ∀ k, path ++ pfx <+: k →
      nextByte k (path ++ pfx).length = nextByte key (path ++ pfx).length →
      artLookup nc k (nextDepth k (path ++ pfx).length) =
        if k = key then some e
        else artLookupChild (table (nextByte k (path ++ pfx).length)) k
          (nextDepth k (path ++ pfx).length)) : Inserted path key e old m' := by
  constructor
  · refine .of_fits hm' (hkey.of_isPrefix hP) ⟨nextByte key (path ++ pfx).length, by simp⟩ ?_
    intro b c hc
    rw [update_apply] at hc
    split_ifs at hc with hb
    · rw [hb, ← some.inj hc]
      exact hnc
    · exact hfit b c hc
  · intro k hk
    rw [artLookup_inner hm' hk, hold k hk]
    by_cases hPk : path ++ pfx <+: k
    · rw [if_pos hPk, if_pos hPk, update_apply]
      by_cases hb : nextByte k (path ++ pfx).length = nextByte key (path ++ pfx).length
      · rw [if_pos hb, artLookupChild_some, hlook k hPk hb]
      · rw [if_neg hb, if_neg (fun heq => hb (by rw [heq]))]
    · rw [if_neg hPk, if_neg hPk, if_neg (by rintro rfl; exact hPk hP)]

/-- A new leaf next to a single old child: every split ends here. -/
theorem inserted_split {m' : ArtNode α} (hkey : NulFree key) (hP : path ++ pfx <+: key)
    (hb : b ≠ nextByte key (path ++ pfx).length) (hfit : Fits (path ++ pfx) b c)
    (hold : ∀ k, path <+: k → old k =
      if path ++ pfx <+: k ∧ nextByte k (path ++ pfx).length = b then
        artLookup c k (nextDepth k (path ++ pfx).length)
      else none) (hm' : HasTable m' pfx
      (Function.update (Function.update (fun _ => none) b (some c))
        (nextByte key (path ++ pfx).length) (some (newLeaf key e)))) :
    Inserted path key e old m' := by
  refine inserted_update hkey hP (fun x c' hc' => ?_) (fun k hk => ?_) hm'
    (fits_newLeaf hkey hP e) fun k _ hkb => ?_
  · rw [update_apply] at hc'
    split_ifs at hc' with hx
    rw [hx, ← some.inj hc']
    exact hfit
  · rw [hold k hk, update_apply]
    by_cases hPk : path ++ pfx <+: k
    · by_cases hkb : nextByte k (path ++ pfx).length = b
      · rw [if_pos ⟨hPk, hkb⟩, if_pos hPk, if_pos hkb, artLookupChild_some]
      · rw [if_neg (fun h => hkb h.2), if_pos hPk, if_neg hkb, artLookupChild_none]
    · rw [if_neg (fun h => hPk h.1), if_neg hPk]
  · rw [hkb, update_of_ne hb.symm, artLookupChild_none, newLeaf, artLookup_leaf]
    simp only [eq_comm]

/-- Where two keys through `path` part. -/
theorem exists_fork {k₁ k₂ : Key} (h₁ : path <+: k₁) (h₂ : path <+: k₂) (hn₁ : NulFree k₁)
    (hn₂ : NulFree k₂) (hne : k₁ ≠ k₂) :
    ∃ p, commonPrefixLen (k₁.drop path.length) (k₂.drop path.length) = p.length ∧
      (k₂.drop path.length).take p.length = p ∧ path ++ p <+: k₁ ∧ path ++ p <+: k₂ ∧
      nextByte k₁ (path ++ p).length ≠ nextByte k₂ (path ++ p).length := by
  obtain ⟨r₁, rfl⟩ := h₁
  obtain ⟨r₂, rfl⟩ := h₂
  obtain ⟨p, a, c, rfl, rfl, hlen, hfork⟩ := commonPrefixLen_spec r₁ r₂
  simp only [drop_left]
  refine ⟨p, hlen, take_left, by simp, by simp, ?_⟩
  rw [← append_assoc] at hn₁ hn₂ ⊢
  rw [← append_assoc]
  cases a with
  | nil =>
    cases c with
    | nil => exact absurd rfl hne
    | cons y c =>
      rw [append_nil, nextByte_self, nextByte_append_cons]
      rintro rfl
      exact hn₂ (by simp)
  | cons x a =>
    cases c with
    | nil =>
      rw [append_nil, nextByte_self, nextByte_append_cons]
      rintro rfl
      exact hn₁ (by simp)
    | cons y c =>
      rw [nextByte_append_cons, nextByte_append_cons]
      exact hfork x a y c rfl rfl

theorem nextByte_of_le {d : Nat} (h : k.length ≤ d) : nextByte k d = 0x00 := if_pos h

theorem nextByte_of_lt {d : Nat} (h : ¬ k.length ≤ d) : nextByte k d = k.getD d 0x00 :=
  if_neg h

theorem insertLeaf_eq (hne : l.key ≠ key)
    (hcp : commonPrefixLen (l.key.drop path.length) (key.drop path.length) = p.length)
    (htake : (key.drop path.length).take p.length = p)
    (hb : nextByte l.key (path ++ p).length ≠ nextByte key (path ++ p).length) (e : α) :
    HasTable (insertLeaf l key e path.length) p
      (Function.update
        (Function.update (fun _ => none) (nextByte l.key (path ++ p).length) (some (.leaf l)))
        (nextByte key (path ++ p).length) (some (newLeaf key e))) := by
  simp only [insertLeaf, if_neg hne, hcp, htake, ← length_append]
  split_ifs with hl hk
  · have hk : ¬ key.length ≤ (path ++ p).length := fun hk =>
      hb (by rw [nextByte_of_le hl, nextByte_of_le hk])
    rw [nextByte_of_le hl, nextByte_of_lt hk] at hb ⊢
    exact pairNode_hasTable p hb _ _
  · rw [nextByte_of_lt hl, nextByte_of_le hk] at hb ⊢
    exact (pairNode_hasTable p hb.symm _ _).congr rfl (update_comm hb.symm _ _ _)
  · rw [nextByte_of_lt hl, nextByte_of_lt hk] at hb ⊢
    exact pairNode_hasTable p hb _ _

theorem insertLeaf_inserted (hl : path <+: l.key) (hnl : NulFree l.key) (hk : path <+: key)
    (hkey : NulFree key) (e : α) :
    Inserted path key e (fun k => artLookup (.leaf l) k path.length)
      (insertLeaf l key e path.length) := by
  by_cases hne : l.key = key
  · rw [insertLeaf, if_pos hne]
    refine ⟨.leaf hk hkey, fun k _ => ?_⟩
    simp only [newLeaf, artLookup_leaf, hne, eq_comm (a := k)]
    split_ifs <;> rfl
  · obtain ⟨p, hcp, htake, hPl, hPk, hb⟩ := exists_fork hl hk hnl hkey hne
    refine inserted_split (c := .leaf l) hkey hPk hb (fits_newLeaf hnl hPl l.entry) (fun k _ => ?_)
      (insertLeaf_eq hne hcp htake hb e)
    simp only [artLookup_leaf]
    split_ifs with hlk hcond
    · rfl
    · exact absurd ⟨hlk ▸ hPl, by rw [hlk]⟩ hcond
    · rfl
    · rfl

theorem splitInner_inserted {pfx' : Key} {x : UInt8} (hm : HasTable m (p ++ x :: pfx') table)
    (hP : NulFree (path ++ (p ++ x :: pfx'))) (hne : ∃ b, (table b).isSome)
    (hfit : ∀ b c, table b = some c → Fits (path ++ (p ++ x :: pfx')) b c) (hkey : NulFree key)
    (hk : path ++ p <+: key) (hb : x ≠ nextByte key (path ++ p).length) (e : α) :
    Inserted path key e (fun k => artLookup m k path.length)
      (splitInner (p ++ x :: pfx') (m.withPfx ((p ++ x :: pfx').drop (p.length + 1))) key e
        path.length p.length) := by
  have hdrop : (p ++ x :: pfx').drop (p.length + 1) = pfx' := by simp
  have hget : (p ++ x :: pfx').getD p.length 0x00 = x := by simp
  have hassoc : path ++ p ++ [x] ++ pfx' = path ++ (p ++ x :: pfx') := by simp
  have hx : x ≠ 0x00 := by
    rintro rfl
    exact hP (by simp)
  have hold := hm.withPfx pfx'
  rw [splitInner, hdrop, hget, take_left, ← length_append]
  refine inserted_split (b := x) hkey hk hb ?_ (fun k hpk => ?_) (pairNode_hasTable p hb _ _)
  · rw [Fits, if_neg hx]
    refine .of_fits hold ?_ hne ?_
    · rwa [hassoc]
    · rwa [hassoc]
  · rw [artLookup_inner hm hpk]
    by_cases hPx : path ++ p ++ [x] <+: k
    · have hPk : path ++ p <+: k := (prefix_append _ _).trans hPx
      obtain ⟨r, hr⟩ := hPx
      have hk' : k = path ++ p ++ x :: r := by rw [← hr]; simp
      have hbyte : nextByte k (path ++ p).length = x := by rw [hk', nextByte_append_cons]
      have hdepth : nextDepth k (path ++ p).length = (path ++ p ++ [x]).length := by
        rw [hk', nextDepth_append_cons]
      have hcond : path ++ p <+: k ∧ nextByte k (path ++ p).length = x := ⟨hPk, hbyte⟩
      rw [if_pos hcond, hdepth, artLookup_inner hold ⟨r, hr⟩, hassoc]
    · rw [if_neg, if_neg]
      · rintro ⟨hPk, rfl⟩
        exact hPx (prefix_snoc_of_nextByte hPk hx).1
      · intro hfull
        exact hPx (List.IsPrefix.trans ⟨pfx', hassoc⟩ hfull)

theorem Wf.inserted (hwf : Wf path m) (hk : path <+: key) (hkey : NulFree key) (e : α) :
    Inserted path key e (fun k => artLookup m k path.length)
      (artInsertNode m key e path.length) := by
  induction hwf with
  | leaf hl hnl =>
    exact insertLeaf_inserted hl hnl hk hkey e
  | @inner path m pfx table hm hP hne h0 hch ih =>
    have hfit := fits_of_children h0 hch
    obtain ⟨r, hkr⟩ := hk
    have hdrop : key.drop path.length = r := by rw [← hkr, drop_left]
    obtain ⟨p, pfx', r', hpfx, hr, hcp, hfork⟩ := commonPrefixLen_spec pfx r
    rw [hr, ← append_assoc] at hkr
    rw [artInsertNode_of_table hm, hdrop, hcp]
    cases pfx' with
    | cons x pfx' =>
      -- the key leaves the compressed prefix before its end
      subst hpfx hkr
      rw [if_pos (by simp)]
      refine splitInner_inserted hm hP hne hfit hkey (prefix_append _ _) ?_ e
      cases r' with
      | nil =>
        rw [append_nil, nextByte_self]
        rintro rfl
        exact hP (by simp)
      | cons y r' =>
        rw [nextByte_append_cons]
        exact hfork x pfx' y r' rfl rfl
    | nil =>
      rw [append_nil] at hpfx
      subst hpfx hkr
      rw [if_neg (by simp)]
      have hold := fun k (hk : path <+: k) => artLookup_inner hm hk
      cases r' with
      | nil =>
        rw [append_nil] at hkey ⊢
        rw [if_pos (by simp)]
        refine inserted_update hkey (prefix_refl _) hfit hold
          ((hm.withChild 0x00 _).congr rfl (by rw [nextByte_self]))
          (fits_newLeaf hkey (prefix_refl _) e) fun k _ hb => ?_
        rw [hb, nextByte_self, newLeaf]
        cases ht : table 0x00 with
        | none => simp [eq_comm]
        | some c =>
          obtain ⟨e', rfl⟩ := h0 c ht
          by_cases heq : k = path ++ pfx
          · simp [heq]
          · simp [heq, Ne.symm heq]
      | cons y r' =>
        have hy : y ≠ 0x00 := by
          rintro rfl
          exact hkey (by simp)
        have hPk : path ++ pfx <+: path ++ pfx ++ y :: r' := prefix_append _ _
        have hPy : path ++ pfx ++ [y] <+: path ++ pfx ++ y :: r' := ⟨r', by simp⟩
        have hget : (path ++ pfx ++ y :: r').getD (path ++ pfx).length 0x00 = y := by simp
        rw [if_neg (by simp), ← length_append, hget]
        have hins : Inserted (path ++ pfx ++ [y]) (path ++ pfx ++ y :: r') e
            (fun k => artLookupChild (table y) k (path ++ pfx ++ [y]).length)
            (artInsert (table y) (path ++ pfx ++ y :: r') e (path ++ pfx ++ [y]).length) := by
          cases ht : table y with
          | none =>
            rw [artInsert]
            refine ⟨.leaf hPy hkey, fun k _ => ?_⟩
            simp [newLeaf, eq_comm]
          | some c =>
            rw [artInsert]
            simpa using ih y c hy ht hPy
        have hlen : (path ++ pfx).length + 1 = (path ++ pfx ++ [y]).length := by simp; omega
        rw [hlen]
        refine inserted_update hkey hPk hfit hold
          ((hm.withChild y _).congr rfl (by rw [nextByte_append_cons])) ?_ fun k hPk' hb => ?_
        · rw [nextByte_append_cons, Fits, if_neg hy]
          exact hins.wf
        · rw [nextByte_append_cons] at hb
          obtain ⟨hPyk, hdepth⟩ := prefix_snoc_of_nextByte hPk' (by rwa [hb])
          rw [hb] at hPyk hdepth
          rw [hb, hdepth]
          exact hins.lookup k hPyk

end

/-! ### Delete -/

mutual

/-- Where deleting `key` drops a whole subtree: the number of key bytes consumed at the
node whose child is missing, if that node is not a `Node48`. The walk is the one of
`artDelete`. -/
def dropPoint : ArtNode α → Key → Nat → Option Nat
  | .leaf _, _, _ => none
  | .node4 n, key, depth =>
    if prefixMismatch n.pfx key depth then none
    else
      let after := depth + n.pfx.length
      match n.position (nextByte key after) with
      | none => some after
      | some i => dropPointChild (n.children i) key (nextDepth key after) after
  | .node16 n, key, depth =>
    if prefixMismatch n.pfx key depth then none
    else
      let after := depth + n.pfx.length
      match n.position (nextByte key after) with
      | none => some after
      | some i => dropPointChild (n.children i) key (nextDepth key after) after
  | .node48 n, key, depth =>
    if prefixMismatch n.pfx key depth then none
    else
      let after := depth + n.pfx.length
      let idx := n.keyIndex (nextByte key after)
      if idx = 0xFF then none
      else if h : idx.toNat < 48 then
        dropPointChild (n.children ⟨idx.toNat, h⟩) key (nextDepth key after) after
      else some after
  | .node256 n, key, depth =>
    if prefixMismatch n.pfx key depth then none
    else
      let after := depth + n.pfx.length
      dropPointChild (n.children (nextByte key after)) key (nextDepth key after) after

/-- `dropPoint` below a child slot of a node whose prefix ends at `after`. -/
def dropPointChild : Option (ArtNode α) → Key → Nat → Nat → Option Nat
  | none, _, _, after => some after
  | some n, key, depth, _ => dropPoint n key depth

end

/-- What `art_delete` leaves of a map: without a drop point `key` goes, with one every key
through that point goes. -/
def deleteView (drop : Option Nat) (key : Key) (f : Key → Option α) (k : Key) : Option α :=
  match drop with
  | none => if k = key then none else f k
  | some a => if key.take a <+: k then none else f k

section

variable {path pfx key : Key} {m c : ArtNode α} {table : UInt8 → Option (ArtNode α)}

variable {depth : Nat} {drop : Option Nat} {f : Key → Option α} {k P : Key} {b : UInt8}

theorem dropPoint_missing (h : HasTable m pfx table) (hp : prefixMismatch pfx key depth = false)
    (hb : table (nextByte key (depth + pfx.length)) = none) :
    dropPoint m key depth = if m.isNode48 then none else some (depth + pfx.length) := by
  cases h with
  | node4 h | node16 h | node48 h =>
    rw [h.child_eq_none_iff] at hb
    simp [dropPoint, hp, hb, isNode48]
  | node256 h => simp [dropPoint, hp, hb, dropPointChild, isNode48]

theorem dropPoint_present (h : HasTable m pfx table) (hp : prefixMismatch pfx key depth = false)
    (hb : table (nextByte key (depth + pfx.length)) = some c) :
    dropPoint m key depth = dropPoint c key (nextDepth key (depth + pfx.length)) := by
  cases h with
  | node4 h | node16 h =>
    obtain ⟨i, hi, hk, hci⟩ := h.child_eq_some_iff.mp hb
    simp [dropPoint, hp, h.position_eq_some_iff.mpr ⟨hi, hk⟩, hci, dropPointChild]
  | node48 h =>
    obtain ⟨hidx, hlt, hci⟩ := Node48.child_eq_some_iff.mp hb
    simp only [dropPoint, hp, Bool.false_eq_true, if_false, if_neg hidx, dif_pos hlt, hci,
      dropPointChild]
  | node256 h => simp [dropPoint, hp, hb, dropPointChild]

theorem dropPoint_mismatch (h : HasTable m pfx table) (hp : prefixMismatch pfx key depth = true) :
    dropPoint m key depth = none := by
  cases h <;> simp [dropPoint, hp]

theorem artDelete_mismatch (h : HasTable m pfx table) (hp : prefixMismatch pfx key depth = true) :
    artDelete m key depth = some m := by
  cases h <;> simp [artDelete, hp]

/-- What is left of `m` is a valid tree below `path` that answers as `deleteView` says. -/
structure Deleted (path key : Key) (drop : Option Nat) (old : Key → Option α)
    (res : Option (ArtNode α)) : Prop where
  wf : ∀ m', res = some m' → Wf path m'
  lookup : ∀ k, path <+: k → artLookupChild res k path.length = deleteView drop key old k
  drop_ge : ∀ a, drop = some a → path.length ≤ a

/-- A deletion that changes nothing, of a key that was not there. -/
theorem deleted_unchanged (hwf : Wf path m)
    (habsent : artLookup m key path.length = none) :
    Deleted path key none (fun k => artLookup m k path.length) (some m) := by
  refine ⟨fun m' hm' => some.inj hm' ▸ hwf, fun k _ => ?_, nofun⟩
  rw [artLookupChild_some, deleteView]
  split_ifs with hk
  · rw [hk, habsent]
  · rfl

theorem deleteView_congr {g : Key → Option α} (h : f k = g k) :
    deleteView drop key f k = deleteView drop key g k := by
  cases drop <;> simp only [deleteView, h]

theorem deleteView_of_none (h : f k = none) : deleteView drop key f k = none := by
  cases drop <;> simp [deleteView, h]

/-- A deletion below `P ++ [b]` leaves the keys that go another way alone. -/
theorem deleteView_of_nextByte_ne (hb : b = nextByte key P.length)
    (hdrop : ∀ a, drop = some a → P ++ [b] <+: key.take a) (hne : nextByte k P.length ≠ b) :
    deleteView drop key f k = f k := by
  cases drop with
  | none =>
    refine if_neg ?_
    rintro rfl
    exact hne hb.symm
  | some a =>
    refine if_neg fun hpre => hne ?_
    obtain ⟨r, hr⟩ := (hdrop a rfl).trans hpre
    rw [← hr, append_assoc, singleton_append, nextByte_append_cons]

/-- The step below a present child, from what happens to that child. -/
theorem deleted_present {res : Option (ArtNode α)} (hm : HasTable m pfx table)
    (hPdef : P = path ++ pfx) (hb : b = nextByte key P.length) (hP : NulFree P)
    (hfit : ∀ b c, table b = some c → Fits P b c) (hres : let table' := Function.update table b res
      (artDelete m key path.length = none ∧ ∀ x, table' x = none) ∨
      ∃ m', artDelete m key path.length = some m' ∧ HasTable m' pfx table' ∧
        ∃ x, (table' x).isSome) (hfits : ∀ c', res = some c' → Fits P b c')
    (hdrop : ∀ a, drop = some a → P ++ [b] <+: key.take a)
    (hlook : ∀ k, P <+: k → nextByte k P.length = b →
      artLookupChild res k (nextDepth k P.length) =
        deleteView drop key (fun k => artLookupChild (table b) k (nextDepth k P.length)) k) :
    Deleted path key drop (fun k => artLookup m k path.length)
      (artDelete m key path.length) := by
  subst hPdef
  refine ⟨fun m' hm' => ?_, fun k hk => ?_, fun a ha => ?_⟩
  · obtain ⟨hnone, -⟩ | ⟨m'', hsome, htab, hne⟩ := hres
    · rw [hnone] at hm'
      cases hm'
    · rw [hsome] at hm'
      cases hm'
      refine .of_fits htab hP hne fun x c hc => ?_
      rw [update_apply] at hc
      split_ifs at hc with hx
      · rw [hx]
        exact hfits c hc
      · exact hfit x c hc
  · have hnew : artLookupChild (artDelete m key path.length) k path.length =
        if path ++ pfx <+: k then
          artLookupChild (Function.update table b res (nextByte k (path ++ pfx).length)) k
            (nextDepth k (path ++ pfx).length)
        else none := by
      obtain ⟨hnone, hall⟩ | ⟨m'', hsome, htab, -⟩ := hres
      · rw [hnone, artLookupChild_none, hall, artLookupChild_none, ite_self]
      · rw [hsome, artLookupChild_some, artLookup_inner htab hk]
    have hold := artLookup_inner hm hk
    rw [hnew, update_apply]
    by_cases hPk : path ++ pfx <+: k
    · rw [if_pos hPk] at hold ⊢
      by_cases hkb : nextByte k (path ++ pfx).length = b
      · rw [if_pos hkb, hlook k hPk hkb]
        exact deleteView_congr (by rw [hold, hkb])
      · rw [if_neg hkb, deleteView_of_nextByte_ne hb hdrop hkb, hold]
    · rw [if_neg hPk] at hold ⊢
      exact (deleteView_of_none hold).symm
  · have hlen := (hdrop a ha).length_le
    have htake : (key.take a).length ≤ a := length_take_le _ _
    simp only [length_append] at hlen
    omega

/-- The node itself is dropped, with every key through its prefix. -/
theorem deleted_dropped (hm : HasTable m pfx table) (hPk : path ++ pfx <+: key) :
    Deleted path key (some (path ++ pfx).length) (fun k => artLookup m k path.length) none := by
  refine ⟨fun _ h => (by simp at h), fun k hk => ?_, fun a ha => ?_⟩
  · have htake : key.take (path ++ pfx).length = path ++ pfx :=
      (prefix_iff_eq_take.mp hPk).symm
    simp only [artLookupChild_none, deleteView, htake, artLookup_inner hm hk]
    split_ifs <;> rfl
  · cases ha
    simp

theorem Wf.deleted (hwf : Wf path m) (hk : path <+: key) :
    Deleted path key (dropPoint m key path.length) (fun k => artLookup m k path.length)
      (artDelete m key path.length) := by
  induction hwf with
  | @leaf path l hl hnl =>
    rw [dropPoint, artDelete]
    by_cases hlk : l.key = key
    · rw [if_pos hlk]
      refine ⟨fun _ h => (by simp at h), fun k _ => ?_, fun _ h => (by simp at h)⟩
      simp [deleteView, hlk, eq_comm]
    · rw [if_neg hlk]
      exact deleted_unchanged (.leaf hl hnl) (by simp [hlk])
  | @inner path m pfx table hm hP hne h0 hch ih =>
    have hfit := fits_of_children h0 hch
    have hwf : Wf path m := .inner hm hP hne h0 hch
    by_cases hPk : path ++ pfx <+: key
    · have hmis := (prefixMismatch_eq_false_iff hk).mpr hPk
      have hafter : path.length + pfx.length = (path ++ pfx).length := length_append.symm
      cases ht : table (nextByte key (path ++ pfx).length) with
      | none =>
        have ht' : table (nextByte key (path.length + pfx.length)) = none := by rwa [hafter]
        rw [dropPoint_missing hm hmis ht', artDelete_missing hm hmis ht', hafter]
        cases m.isNode48 with
        | true =>
          exact deleted_unchanged hwf (by
            rw [artLookup_inner hm hk, if_pos hPk, ht, artLookupChild_none])
        | false => exact deleted_dropped hm hPk
      | some c =>
        have ht' : table (nextByte key (path.length + pfx.length)) = some c := by rwa [hafter]
        have hres := artDelete_present hm hmis ht'
        rw [dropPoint_present hm hmis ht']
        rw [hafter] at hres ⊢
        by_cases hb : nextByte key (path ++ pfx).length = 0x00
        · -- the child is the leaf of the key that ends here; `key` itself may go on with a NUL
          obtain ⟨e, rfl⟩ := h0 c (hb ▸ ht)
          refine deleted_present hm rfl rfl hP hfit hres ?_ ?_ ?_
          · intro c' hc'
            rw [artDelete] at hc'
            split_ifs at hc'
            exact some.inj hc' ▸ hfit _ _ ht
          · simp [dropPoint]
          · intro k _ _
            rw [ht, dropPoint, artDelete]
            by_cases hkeyP : path ++ pfx = key
            · simp [deleteView, hkeyP, eq_comm]
            · by_cases hk' : k = key
              · simp [deleteView, hk', hkeyP]
              · simp [deleteView, hk', hkeyP]
        · obtain ⟨hPb, hdepth⟩ := prefix_snoc_of_nextByte hPk hb
          have hc := ih _ c hb ht hPb
          rw [hdepth] at hres ⊢
          refine deleted_present hm rfl rfl hP hfit hres ?_ ?_ ?_
          · intro c' hc'
            rw [Fits, if_neg hb]
            exact hc.wf c' hc'
          · exact fun a ha => prefix_take_iff.mpr ⟨hPb, hc.drop_ge a ha⟩
          · intro k hPk' hkb
            obtain ⟨hPbk, hdepth'⟩ := prefix_snoc_of_nextByte hPk' (by rwa [hkb])
            rw [hkb] at hPbk hdepth'
            rw [hdepth', hc.lookup k hPbk]
            exact deleteView_congr (by rw [hdepth', ht, artLookupChild_some])
    · have hmis : prefixMismatch pfx key path.length = true := by
        rw [← Bool.not_eq_false, prefixMismatch_eq_false_iff hk]
        exact hPk
      rw [dropPoint_mismatch hm hmis, artDelete_mismatch hm hmis]
      exact deleted_unchanged hwf (by rw [artLookup_inner hm hk, if_neg hPk])

theorem Wf.dropPoint_of_lookup (hwf : Wf path m) (hk : path <+: key) {e : α}
    (hlook : artLookup m key path.length = some e) : dropPoint m key path.length = none := by
  induction hwf with
  | leaf => rw [dropPoint]
  | @inner path m pfx table hm hP hne h0 hch ih =>
    obtain ⟨hPk, c, ht, hc⟩ := exists_child_of_lookup hm h0 hk hlook
    have hmis := (prefixMismatch_eq_false_iff hk).mpr hPk
    rw [dropPoint_present hm hmis (by rwa [← length_append]), ← length_append]
    obtain ⟨-, rfl⟩ | ⟨hb, hPb, hdepth, hlook'⟩ := hc
    · rw [dropPoint]
    · rw [hdepth]
      exact ih _ c hb ht hPb hlook'

/-- A key that ends at a node is answered by the leaf under byte 0. -/
theorem artLookup_end (hm : HasTable m pfx table) :
    artLookup m (path ++ pfx) path.length =
      artLookupChild (table 0x00) (path ++ pfx) (path ++ pfx).length := by
  rw [artLookup_inner hm (prefix_append _ _), if_pos (prefix_refl _), nextByte_self,
    nextDepth_self]

/-- A key that goes on past a node is answered by the child under its next byte. -/
theorem artLookup_under (hm : HasTable m pfx table) (hk : path ++ pfx ++ [b] <+: k) :
    artLookup m k path.length = artLookupChild (table b) k (path ++ pfx ++ [b]).length := by
  obtain ⟨r, rfl⟩ := hk
  have hassoc : path ++ pfx ++ [b] ++ r = path ++ pfx ++ b :: r := by simp
  rw [hassoc, artLookup_inner hm (by simp), if_pos (prefix_append _ _),
    nextByte_append_cons, nextDepth_append_cons]

theorem Wf.exists_lookup (hwf : Wf path m) :
    ∃ k e, path <+: k ∧ artLookup m k path.length = some e := by
  induction hwf with
  | @leaf path l hl hnl => exact ⟨l.key, l.entry, hl, by simp⟩
  | @inner path m pfx table hm hP hne h0 hch ih =>
    obtain ⟨b, hb⟩ := hne
    obtain ⟨c, ht⟩ := isSome_iff_exists.mp hb
    by_cases hzero : b = 0x00
    · subst hzero
      obtain ⟨e, rfl⟩ := h0 c ht
      refine ⟨path ++ pfx, e, prefix_append _ _, ?_⟩
      rw [artLookup_end hm, ht, artLookupChild_some, artLookup_leaf, if_pos rfl]
    · obtain ⟨k, e, hk, hlook⟩ := ih b c hzero ht
      refine ⟨k, e, ?_, ?_⟩
      · rw [append_assoc] at hk
        exact (prefix_append _ _).trans hk
      · rw [artLookup_under hm hk, ht, artLookupChild_some, hlook]

theorem Wf.exists_lookup_of_dropPoint (hwf : Wf path m) (hk : path <+: key) {a : Nat}
    (hdrop : dropPoint m key path.length = some a) :
    ∃ k e, key.take a <+: k ∧ path <+: k ∧ artLookup m k path.length = some e := by
  induction hwf with
  | leaf => simp [dropPoint] at hdrop
  | @inner path m pfx table hm hP hne h0 hch ih =>
    by_cases hPk : path ++ pfx <+: key
    · have hmis := (prefixMismatch_eq_false_iff hk).mpr hPk
      have hafter : path.length + pfx.length = (path ++ pfx).length := length_append.symm
      cases ht : table (nextByte key (path ++ pfx).length) with
      | none =>
        -- the walk ends here, so the whole node goes
        rw [dropPoint_missing hm hmis (by rwa [hafter]), hafter] at hdrop
        split_ifs at hdrop
        cases hdrop
        obtain ⟨k, e, hpath, hlook⟩ := (Wf.inner hm hP hne h0 hch).exists_lookup
        refine ⟨k, e, ?_, hpath, hlook⟩
        rw [(prefix_iff_eq_take.mp hPk).symm]
        exact (exists_child_of_lookup hm h0 hpath hlook).1
      | some c =>
        rw [dropPoint_present hm hmis (by rwa [hafter]), hafter] at hdrop
        by_cases hb : nextByte key (path ++ pfx).length = 0x00
        · obtain ⟨e, rfl⟩ := h0 c (hb ▸ ht)
          simp [dropPoint] at hdrop
        · obtain ⟨hPb, hdepth⟩ := prefix_snoc_of_nextByte hPk hb
          rw [hdepth] at hdrop
          obtain ⟨k, e, htake, hkb, hlook⟩ := ih _ c hb ht hPb hdrop
          refine ⟨k, e, htake, ?_, ?_⟩
          · rw [append_assoc] at hkb
            exact (prefix_append _ _).trans hkb
          · rw [artLookup_under hm hkb, ht, artLookupChild_some, hlook]
    · have hmis : prefixMismatch pfx key path.length = true := by
        rw [← Bool.not_eq_false, prefixMismatch_eq_false_iff hk]
        exact hPk
      rw [dropPoint_mismatch hm hmis] at hdrop
      cases hdrop

end

/-! ### Whole trees -/

/-- A root pointer: `None` for the empty tree. -/
abbrev Root (α : Type) := Option (ArtNode α)

namespace Root

variable {key k : Key} {root : Root α}

/-- Lookup from a root. -/
def lookup (root : Root α) (key : Key) : Option α := root.bind (artLookup · key 0)

/-- Insert at a root. -/
def insert (root : Root α) (key : Key) (e : α) : Root α := some (artInsert root key e 0)

/-- Delete at a root. -/
def delete (root : Root α) (key : Key) : Root α := root.bind (artDelete · key 0)

/-- The drop point of a deletion at a root. -/
def drop (root : Root α) (key : Key) : Option Nat := root.bind (dropPoint · key 0)

/-- The tree is empty or satisfies the invariant. -/
def Ok (root : Root α) : Prop := ∀ m, root = some m → Wf [] m

theorem ok_none : Ok (none : Root α) := nofun

theorem Ok.inserted (h : root.Ok) (hkey : NulFree key) (e : α) :
    (root.insert key e).Ok ∧
      ∀ k, (root.insert key e).lookup k = if k = key then some e else root.lookup k := by
  cases root with
  | none =>
    refine ⟨fun m hm => ?_, fun k => ?_⟩
    · rw [← some.inj hm, artInsert]
      exact .leaf List.nil_prefix hkey
    · simp [insert, lookup, artInsert, newLeaf, eq_comm]
  | some m =>
    have hins := (h m rfl).inserted List.nil_prefix hkey e
    refine ⟨fun m' hm' => ?_, fun k => ?_⟩
    · rw [← some.inj hm', artInsert]
      exact hins.wf
    · simpa [insert, lookup, artInsert] using hins.lookup k List.nil_prefix

theorem Ok.insert (h : root.Ok) (hkey : NulFree key) (e : α) : (root.insert key e).Ok :=
  (h.inserted hkey e).1

theorem Ok.lookup_insert (h : root.Ok) (hkey : NulFree key) (e : α) (k : Key) :
    (root.insert key e).lookup k = if k = key then some e else root.lookup k :=
  (h.inserted hkey e).2 k

theorem Ok.deleted (h : root.Ok) (key : Key) :
    (root.delete key).Ok ∧
      ∀ k, (root.delete key).lookup k = deleteView (root.drop key) key root.lookup k := by
  cases root with
  | none => exact ⟨ok_none, fun k => by simp [delete, lookup, drop, deleteView]⟩
  | some m =>
    have hdel := (h m rfl).deleted (List.nil_prefix (l := key))
    refine ⟨hdel.wf, fun k => ?_⟩
    have := hdel.lookup k List.nil_prefix
    rw [← show (artDelete m key ([] : Key).length).bind (artLookup · k 0) =
      artLookupChild _ k ([] : Key).length by cases artDelete m key ([] : Key).length <;> simp]
      at this
    exact this

theorem Ok.delete (h : root.Ok) (key : Key) : (root.delete key).Ok := (h.deleted key).1

theorem Ok.lookup_delete (h : root.Ok) (key k : Key) :
    (root.delete key).lookup k = deleteView (root.drop key) key root.lookup k :=
  (h.deleted key).2 k

theorem Ok.drop_of_lookup (h : root.Ok) {e : α} (hlook : root.lookup key = some e) :
    root.drop key = none := by
  cases root with
  | none => rfl
  | some m => exact (h m rfl).dropPoint_of_lookup List.nil_prefix hlook

theorem Ok.exists_lookup_of_drop (h : root.Ok) {a : Nat} (hdrop : root.drop key = some a) :
    ∃ k e, key.take a <+: k ∧ root.lookup k = some e := by
  cases root with
  | none => cases hdrop
  | some m =>
    obtain ⟨k, e, htake, -, hlook⟩ :=
      (h m rfl).exists_lookup_of_dropPoint List.nil_prefix hdrop
    exact ⟨k, e, htake, hlook⟩

/-- Deleting an absent key leaves every answer alone unless it has a drop point. -/
theorem Ok.lookup_delete_of_absent (h : root.Ok) (hlook : root.lookup key = none) :
    (∀ k, (root.delete key).lookup k = root.lookup k) ↔ root.drop key = none := by
  constructor
  · intro hsame
    cases hdrop : root.drop key with
    | none => rfl
    | some a =>
      obtain ⟨k, e, htake, hk⟩ := h.exists_lookup_of_drop hdrop
      have hgone := hsame k
      rw [h.lookup_delete, hdrop, deleteView, if_pos htake, hk] at hgone
      cases hgone
  · intro hdrop k
    rw [h.lookup_delete, hdrop, deleteView]
    split_ifs with hk
    · rw [hk, hlook]
    · rfl

theorem Ok.lookup_delete_of_present (h : root.Ok) {e : α} (hlook : root.lookup key = some e)
    (k : Key) : (root.delete key).lookup k = if k = key then none else root.lookup k := by
  rw [h.lookup_delete, h.drop_of_lookup hlook, deleteView]

end Root

/-! ### Refinement of a finite map -/

/-- The abstract ref index: a finite map from keys. -/
abbrev KeyMap (α : Type) := Finmap (fun _ : Key => α)

/-- The writes of a tree. -/
inductive ArtOp (α : Type) where
  | insert (key : Key) (entry : α)
  | delete (key : Key)

namespace ArtOp

/-- A write on the tree. -/
def onRoot : Root α → ArtOp α → Root α
  | root, .insert key e => root.insert key e
  | root, .delete key => root.delete key

/-- The same write on the map. -/
def onMap : KeyMap α → ArtOp α → KeyMap α
  | m, .insert key e => m.insert key e
  | m, .delete key => m.erase key

/-- Inserts are of NUL-free keys, deletes of keys that are present. -/
def Allowed (m : KeyMap α) : ArtOp α → Prop
  | .insert key _ => NulFree key
  | .delete key => key ∈ m

instance (m : KeyMap α) : (op : ArtOp α) → Decidable (op.Allowed m)
  | .insert key _ => inferInstanceAs (Decidable (NulFree key))
  | .delete key => inferInstanceAs (Decidable (key ∈ m))

/-- Every write of the list is allowed where it happens. -/
def Runs : KeyMap α → List (ArtOp α) → Prop
  | _, [] => True
  | m, op :: ops => op.Allowed m ∧ Runs (onMap m op) ops

/-- A tree in its invariant that answers every lookup like the map. -/
structure Refines (root : Root α) (m : KeyMap α) : Prop where
  ok : root.Ok
  lookup : ∀ k, root.lookup k = m.lookup k

theorem refines_empty : Refines (none : Root α) ∅ := ⟨Root.ok_none, fun _ => rfl⟩

variable {root : Root α} {m : KeyMap α} {ops : List (ArtOp α)}

theorem Refines.step {op : ArtOp α} (h : Refines root m) (hop : op.Allowed m) :
    Refines (onRoot root op) (onMap m op) := by
  cases op with
  | insert key e =>
    refine ⟨h.ok.insert hop e, fun k => ?_⟩
    rw [onRoot, onMap, h.ok.lookup_insert hop, h.lookup]
    split_ifs with hk
    · rw [hk, Finmap.lookup_insert]
    · rw [Finmap.lookup_insert_of_ne _ hk]
  | delete key =>
    obtain ⟨e, he⟩ := Finmap.mem_iff.mp hop
    rw [← h.lookup] at he
    refine ⟨h.ok.delete key, fun k => ?_⟩
    rw [onRoot, onMap, h.ok.lookup_delete_of_present he, h.lookup]
    split_ifs with hk
    · rw [hk, Finmap.lookup_erase]
    · rw [Finmap.lookup_erase_ne hk]

theorem Refines.run (h : Refines root m) (hops : Runs m ops) :
    List.Forall₂ Refines (ops.scanl onRoot root) (ops.scanl onMap m) := by
  induction ops generalizing root m with
  | nil => simpa using h
  | cons op ops ih =>
    rw [scanl_cons, scanl_cons]
    exact .cons h (ih (h.step hops.1) hops.2)

theorem Refines.foldl (h : Refines root m) (hops : Runs m ops) :
    Refines (ops.foldl onRoot root) (ops.foldl onMap m) := by
  induction ops generalizing root m with
  | nil => exact h
  | cons op ops ih => exact ih (h.step hops.1) hops.2

/-- Inserts are of NUL-free keys; any key may be deleted. -/
def Inserts : ArtOp α → Prop
  | .insert key _ => NulFree key
  | .delete _ => True

instance : (op : ArtOp α) → Decidable op.Inserts
  | .insert key _ => inferInstanceAs (Decidable (NulFree key))
  | .delete _ => inferInstanceAs (Decidable True)

theorem ok_foldl (h : root.Ok) (hops : ∀ op ∈ ops, op.Inserts) : (ops.foldl onRoot root).Ok := by
  induction ops generalizing root with
  | nil => exact h
  | cons op ops ih =>
    obtain ⟨hop, hops⟩ := forall_mem_cons.mp hops
    refine ih ?_ hops
    cases op with
    | insert key e => exact h.insert hop e
    | delete key => exact h.delete key

end ArtOp

/-- **The radix tree refines a finite map.** `scanl` lists every root obtained on the way,
the empty one first. After the whole run each of them answers like the map of its own
moment, so in particular an old root is not disturbed by later writes. -/
theorem art_refines_finmap (ops : List (ArtOp α)) (hops : ArtOp.Runs ∅ ops) :
    List.Forall₂ (fun (root : Root α) (m : KeyMap α) =>
        ∀ k, NulFree k → root.lookup k = m.lookup k)
      (ops.scanl ArtOp.onRoot none) (ops.scanl ArtOp.onMap ∅) :=
  (ArtOp.refines_empty.run hops).imp fun _ _ h k _ => h.lookup k

theorem art_refines_finmap_nested_keys :
    let ops : List (ArtOp Nat) :=
      [.insert [1, 2] 7, .insert [1] 8, .insert [1, 2, 3] 9, .delete [1, 2]]
    List.Forall₂ (fun (root : Root Nat) (m : KeyMap Nat) =>
        ∀ k, NulFree k → root.lookup k = m.lookup k)
      (ops.scanl ArtOp.onRoot none) (ops.scanl ArtOp.onMap ∅) :=
  art_refines_finmap _
    ⟨by decide, by decide, by decide, by decide, trivial⟩

end Ledge.RefStore
