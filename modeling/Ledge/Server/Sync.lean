import Mathlib.Data.List.DropRight
import Ledge.Core.RefEntry

/-!
# Ledge.Server.Sync

Which upstreams may be imported from or exported to (`sync/mod.rs`). `host_allowed` cuts the host
out of the URL by hand: behind the **last `@` of the whole rest**, which may stand in the path. A
URL of a foreign host passes with the name of an allowed one in its path (`foreign_host_allowed`).
-/

namespace Ledge.Server

open List

/-- What follows the first `://` (`split_once`). -/
def afterScheme : List Char → Option (List Char)
  | [] => none
  | c :: rest => if "://".toList <+: c :: rest then some (rest.drop 2) else afterScheme rest

/-- `split(['/', ':']).next()` -/
def cutHost (s : List Char) : List Char := s.takeWhile (fun c => c ≠ '/' ∧ c ≠ ':')

/-- What follows the last `@` (`rsplit('@').next()`). -/
def afterAt (s : List Char) : List Char := s.rtakeWhile (· ≠ '@')

/-- `host_allowed` -/
def hostAllowed (allowedHosts : List (List Char)) (url : List Char) : Bool :=
  allowedHosts = [] ∨ cutHost (afterAt ((afterScheme url).getD url)) ∈ allowedHosts

/-- Without a port, which is a `:` and digits. -/
def dropPort (s : List Char) : List Char :=
  let rest := s.rdropWhile Char.isDigit
  if rest.getLast? = some ':' then rest.dropLast else s

/-- A URL in its parts; the path, the query and the fragment are the tail. -/
structure Url where
  (scheme authority tail : List Char)
  scheme_plain : ':' ∉ scheme
  authority_plain : ∀ c ∈ authority, c ≠ '/' ∧ c ≠ '?' ∧ c ≠ '#'
  tail_starts : ∀ c ∈ tail.head?, c = '/' ∨ c = '?' ∨ c = '#'

namespace Url

def text (u : Url) : List Char := u.scheme ++ "://".toList ++ u.authority ++ u.tail

def host (u : Url) : List Char := dropPort (afterAt u.authority)

/-- `host_allowed` finds the host itself. -/
def Plain (u : Url) : Prop :=
  if '@' ∈ u.tail then cutHost (afterAt u.tail) = u.host
  else ':' ∉ u.host ∧ (u.host = afterAt u.authority → ∀ c ∈ u.tail.head?, c = '/')

end Url

variable {s t : List Char}

theorem afterScheme_append (h : ':' ∉ s) : afterScheme (s ++ ':' :: '/' :: '/' :: t) = some t := by
  induction s with
  | nil => simp [afterScheme]
  | cons c s ih =>
    simp only [mem_cons, not_or] at h
    simp [afterScheme, h.1, ih h.2]

theorem afterAt_append : afterAt (s ++ t) = if '@' ∈ t then afterAt t else afterAt s ++ t := by
  induction t using reverseRecOn with
  | nil => simp
  | append_singleton t c ih =>
    unfold afterAt at ih ⊢
    rw [← append_assoc, rtakeWhile_concat, rtakeWhile_concat, ih]
    by_cases hc : c = '@'
    · simp [hc]
    · by_cases ht : '@' ∈ t <;> simp [hc, ht, Ne.symm hc]

theorem dropPort_cases : (∃ port, s = dropPort s ++ ':' :: port) ∨ dropPort s = s := by
  unfold dropPort
  dsimp only
  split_ifs with hlast
  · obtain ⟨host, hhost⟩ := getLast?_eq_some_iff.mp hlast
    refine .inl ⟨s.rtakeWhile Char.isDigit, ?_⟩
    have hsplit := rdropWhile_append_rtakeWhile (p := Char.isDigit) (l := s)
    rw [hhost] at hsplit ⊢
    simpa using hsplit.symm
  · exact .inr rfl

theorem takeWhile_append_eq_iff {p : Char → Bool} :
    (s ++ t).takeWhile p = s ↔ (∀ c ∈ s, p c) ∧ t.takeWhile p = [] := by
  induction s with
  | nil => simp
  | cons c s ih => by_cases hc : p c <;> simp [hc, ih]

/-- What is cut off from a host with or without a port, when `t` follows. -/
theorem cutHost_append_iff (hslash : '/' ∉ s) :
    cutHost (s ++ t) = dropPort s ↔ ':' ∉ dropPort s ∧ (dropPort s = s → cutHost t = []) := by
  have hchars : ∀ {w : List Char}, '/' ∉ w →
      ((∀ c ∈ w, decide (c ≠ '/' ∧ c ≠ ':')) ↔ ':' ∉ w) := by
    grind
  unfold cutHost
  rcases @dropPort_cases s with ⟨port, hport⟩ | hsame
  · generalize dropPort s = w at hport ⊢
    subst hport
    rw [append_assoc, takeWhile_append_eq_iff, hchars fun hw => hslash (mem_append_left _ hw)]
    simp
  · rw [hsame, takeWhile_append_eq_iff, hchars hslash]
    simp

/-- **The allow-list is sound iff** no `@` behind the authority and no second `:` misleads it, and a
query does not follow the host directly. -/
theorem host_allowed_sound_iff (u : Url) :
    (∀ allowedHosts ≠ [], hostAllowed allowedHosts u.text → u.host ∈ allowedHosts) ↔ u.Plain := by
  have hscheme : (afterScheme u.text).getD u.text = u.authority ++ u.tail := by
    simp [Url.text, afterScheme_append u.scheme_plain]
  have hslash : '/' ∉ afterAt u.authority := fun h =>
    (u.authority_plain _ ((rtakeWhile_suffix _ _).subset h)).1 rfl
  have htail : cutHost u.tail = [] ↔ ∀ c ∈ u.tail.head?, c = '/' := by
    cases hcase : u.tail with
    | nil => simp [cutHost]
    | cons c tail =>
      rcases u.tail_starts c (by simp [hcase]) with rfl | rfl | rfl <;> simp [cutHost]
  have hplain : cutHost (afterAt (u.authority ++ u.tail)) = u.host ↔ u.Plain := by
    rw [afterAt_append, Url.Plain]
    split_ifs with hat
    · exact Iff.rfl
    · rw [Url.host, cutHost_append_iff hslash, htail]
  simp only [← hplain, hostAllowed, hscheme, decide_eq_true_iff]
  constructor
  · intro h
    simpa [eq_comm] using h [cutHost (afterAt (u.authority ++ u.tail))] (by simp) (by simp)
  · rintro heq allowedHosts hne (hnil | hmem)
    · exact absurd hnil hne
    · exact heq ▸ hmem

theorem foreign_parts : ':' ∉ "https".toList ∧
    (∀ c ∈ "evil.com".toList, c ≠ '/' ∧ c ≠ '?' ∧ c ≠ '#') ∧
    ∀ c ∈ "/@good.com/x".toList.head?, c = '/' ∨ c = '?' ∨ c = '#' := by simp

/-- The authority is `evil.com`, and `good.com` stands in the path. -/
def foreignUrl : Url := ⟨_, _, _, foreign_parts.1, foreign_parts.2.1, foreign_parts.2.2⟩

theorem foreign_host_allowed : hostAllowed ["good.com".toList] foreignUrl.text ∧
    foreignUrl.host = "evil.com".toList := by decide +kernel

end Ledge.Server
