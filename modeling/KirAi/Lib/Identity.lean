/-
# Contents known by identity and revision

Holders, at the places of some type, hold contents under an id and a revision.
Several holders may share an id, and at most one of them owns it: the owner
writes under its id and raises the revision, everybody else takes a fresh id to
write. `Inv next holder known` is the discipline: what was ever held under an id and a
revision is one content. `Move` says what a step may do at each place; every
move keeps the discipline (`Inv.move`).
-/
import Mathlib.Data.Nat.Notation
import Mathlib.Data.Set.Basic
import Mathlib.Tactic.Common

namespace KirAi.Lib.Identity

/-- What a place holds: a content, or nothing yet, under an id and a revision. -/
structure Holder (α : Type) where
  id : ℕ
  revision : ℕ
  owner : Bool
  content : Option α

variable {ι α : Type}

/-- What the holders hold. -/
def contents (holder : ι → Option (Holder α)) : Set (ℕ × ℕ × α) :=
  fun k => ∃ p x, holder p = some x ∧ x.id = k.1 ∧ x.revision = k.2.1 ∧ x.content = some k.2.2

/-- The discipline: `known` is all that was ever held. -/
structure Inv (next : ℕ) (holder : ι → Option (Holder α)) (known : Set (ℕ × ℕ × α)) : Prop where
  held : ∀ k, k ∈ contents holder → k ∈ known
  known_lt : ∀ k, k ∈ known → k.1 < next
  held_lt : ∀ p x, holder p = some x → x.id < next
  functional : ∀ i r a b, (i, r, a) ∈ known → (i, r, b) ∈ known → a = b
  owner_latest : ∀ p x, holder p = some x → x.owner = true → ∀ r a, (x.id, r, a) ∈ known →
    r ≤ x.revision
  owner_unique : ∀ p q x y, holder p = some x → holder q = some y → x.owner = true →
    y.owner = true → x.id = y.id → p = q

/-- What a step may do at a place: leave it, hold what another place holds
without owning it, drop the content, take a fresh id, or write as the owner. -/
inductive Change (next next' : ℕ) (holder : ι → Option (Holder α)) (p : ι) (x' : Holder α) : Prop
  | kept (h : holder p = some x')
  | shared (q : ι) (x : Holder α) (h : holder q = some x) (eq : x' = { x with owner := false })
  | cleared (x : Holder α) (h : holder p = some x) (id : x'.id = x.id)
      (rev : x.revision ≤ x'.revision) (empty : x'.content = none)
      (owner : x'.owner = true → x.owner = true)
  | fresh (ge : next ≤ x'.id) (lt : x'.id < next')
  | written (x : Holder α) (h : holder p = some x) (owner : x.owner = true) (id : x'.id = x.id)
      (rev : x.revision < x'.revision)

structure Move (next next' : ℕ) (holder holder' : ι → Option (Holder α)) : Prop where
  le : next ≤ next'
  change : ∀ p x', holder' p = some x' → Change next next' holder p x'
  fresh_inj : ∀ p q x y, holder' p = some x → holder' q = some y → next ≤ x.id → x.id = y.id → p = q

variable {next next' : ℕ} {holder holder' : ι → Option (Holder α)} {known : Set (ℕ × ℕ × α)}

/-- A content after a move was known before, or is under a fresh id, or was
just written by the owner of its id, under a revision above all before. -/
theorem Inv.origin (h : Inv next holder known) (hm : Move next next' holder holder') {p : ι}
    {x' : Holder α} {a : α} (hx' : holder' p = some x') (ha : x'.content = some a) :
    (x'.id, x'.revision, a) ∈ known ∨ next ≤ x'.id ∨
      ∃ x, holder p = some x ∧ x.owner = true ∧ x'.id = x.id ∧
        ∀ r b, (x'.id, r, b) ∈ known → r < x'.revision := by
  cases hm.change p x' hx' with
  | kept hk => exact .inl (h.held _ ⟨p, x', hk, rfl, rfl, ha⟩)
  | shared q x hq heq =>
    subst heq
    exact .inl (h.held _ ⟨q, x, hq, rfl, rfl, ha⟩)
  | cleared x _ _ _ hempty _ =>
    rw [hempty] at ha
    cases ha
  | fresh hge _ => exact .inr (.inl hge)
  | written x hx hown hid hrev =>
    refine .inr (.inr ⟨x, hx, hown, hid, fun r b hr => ?_⟩)
    rw [hid] at hr
    exact lt_of_le_of_lt (h.owner_latest p x hx hown r b hr) hrev

/-- Two contents of one id and revision after a move are one. -/
theorem Inv.content_unique (h : Inv next holder known) (hm : Move next next' holder holder')
    {p q : ι} {x y : Holder α} {a b : α} (hx : holder' p = some x) (hy : holder' q = some y)
    (ha : x.content = some a) (hb : y.content = some b) (hid : x.id = y.id)
    (hrev : x.revision = y.revision) : a = b := by
  -- holders at one place are one holder
  have hsame : p = q → a = b := fun hpq => by
    subst hpq
    rw [hx] at hy
    cases hy
    rw [ha] at hb
    exact Option.some.inj hb
  rcases h.origin hm hx ha with h1 | h1 | ⟨x₀, hx₀, hown, hxid, hlt⟩
  · rcases h.origin hm hy hb with h2 | h2 | ⟨y₀, -, -, -, hlt⟩
    · rw [hid, hrev] at h1
      exact h.functional _ _ _ _ h1 h2
    · have := h.known_lt _ h1
      dsimp only at this
      omega
    · rw [hid, hrev] at h1
      exact absurd (hlt _ _ h1) (lt_irrefl _)
  · exact hsame (hm.fresh_inj p q x y hx hy h1 hid)
  · rcases h.origin hm hy hb with h2 | h2 | ⟨y₀, hy₀, hown', hyid, -⟩
    · rw [← hid, ← hrev] at h2
      exact absurd (hlt _ _ h2) (lt_irrefl _)
    · exact hsame (hm.fresh_inj p q x y hx hy (by omega) hid)
    · exact hsame (h.owner_unique p q x₀ y₀ hx₀ hy₀ hown hown' (by omega))

/-- The owner of an id after a move owned it before, or took it fresh. -/
theorem Move.owner (hm : Move next next' holder holder') {p : ι} {x' : Holder α}
    (hx' : holder' p = some x') (hown : x'.owner = true) :
    next ≤ x'.id ∨ ∃ x, holder p = some x ∧ x.owner = true ∧ x'.id = x.id ∧
      x.revision ≤ x'.revision := by
  cases hm.change p x' hx' with
  | kept hk => exact .inr ⟨x', hk, hown, rfl, le_rfl⟩
  | shared q x _ heq =>
    rw [heq] at hown
    cases hown
  | cleared x hx hid hrev _ ho => exact .inr ⟨x, hx, ho hown, hid, hrev⟩
  | fresh hge _ => exact .inl hge
  | written x hx ho hid hrev => exact .inr ⟨x, hx, ho, hid, le_of_lt hrev⟩

theorem Move.id_lt (h : Inv next holder known) (hm : Move next next' holder holder') {p : ι}
    {x' : Holder α} (hx' : holder' p = some x') : x'.id < next' := by
  have hle := hm.le
  have hold : ∀ q x, holder q = some x → x.id < next' := fun q x hq =>
    lt_of_lt_of_le (h.held_lt q x hq) hle
  cases hm.change p x' hx' with
  | kept hk => exact hold p x' hk
  | shared q x hq heq =>
    rw [heq]
    exact hold q x hq
  | cleared x hx hid _ _ _ =>
    rw [hid]
    exact hold p x hx
  | fresh _ hlt => exact hlt
  | written x hx _ hid _ =>
    rw [hid]
    exact hold p x hx

/-- The discipline lasts: after a move the contents held join what is known. -/
theorem Inv.move (h : Inv next holder known) (hm : Move next next' holder holder') :
    Inv next' holder' (known ∪ contents holder') := by
  refine ⟨fun k hk => .inr hk, ?_, fun p x hx => hm.id_lt h hx, ?_, ?_, ?_⟩
  · rintro k (hk | ⟨p, x, hx, hid, -, -⟩)
    · exact lt_of_lt_of_le (h.known_lt k hk) hm.le
    · rw [← hid]
      exact hm.id_lt h hx
  · -- an old content and one held now
    have hmix : ∀ i r a b, (i, r, a) ∈ known → (i, r, b) ∈ contents holder' → a = b := by
      rintro i r a b h1 ⟨p, x, hx, rfl, rfl, hb⟩
      rcases h.origin hm hx hb with h2 | h2 | ⟨x₀, -, -, -, hlt⟩
      · exact h.functional _ _ _ _ h1 h2
      · have := h.known_lt _ h1
        dsimp only at this
        omega
      · exact absurd (hlt _ _ h1) (lt_irrefl _)
    rintro i r a b (h1 | h1) (h2 | h2)
    · exact h.functional i r a b h1 h2
    · exact hmix i r a b h1 h2
    · exact (hmix i r b a h2 h1).symm
    · obtain ⟨p, x, hx, hxi, hxr, ha⟩ := h1
      obtain ⟨q, y, hy, hyi, hyr, hb⟩ := h2
      exact h.content_unique hm hx hy ha hb (hxi.trans hyi.symm) (hxr.trans hyr.symm)
  · rintro p x hx hown r a (hr | ⟨q, y, hy, hyi, hyr, ha⟩)
    · rcases hm.owner hx hown with hge | ⟨x₀, hx₀, hown₀, hid, hrev⟩
      · have := h.known_lt _ hr
        dsimp only at this
        omega
      · rw [hid] at hr
        exact le_trans (h.owner_latest p x₀ hx₀ hown₀ r a hr) hrev
    · dsimp only at hyi hyr
      rw [← hyr]
      rcases hm.owner hx hown with hge | ⟨x₀, hx₀, hown₀, hid, hrev⟩
      · have hpq := hm.fresh_inj p q x y hx hy hge hyi.symm
        subst hpq
        rw [hx] at hy
        cases hy
        exact le_rfl
      · rcases h.origin hm hy ha with h1 | h1 | ⟨y₀, hy₀, hown', hyid, -⟩
        · rw [hyi, hid] at h1
          exact le_trans (h.owner_latest p x₀ hx₀ hown₀ _ a h1) hrev
        · have := h.held_lt p x₀ hx₀
          omega
        · have hpq := h.owner_unique p q x₀ y₀ hx₀ hy₀ hown₀ hown' (by omega)
          subst hpq
          rw [hx] at hy
          cases hy
          exact le_rfl
  · intro p q x y hx hy hxo hyo hid
    rcases hm.owner hx hxo with hge | ⟨x₀, hx₀, hxo₀, hxid, -⟩
    · exact hm.fresh_inj p q x y hx hy hge hid
    · rcases hm.owner hy hyo with hge | ⟨y₀, hy₀, hyo₀, hyid, -⟩
      · exact (hm.fresh_inj q p y x hy hx hge hid.symm).symm
      · exact h.owner_unique p q x₀ y₀ hx₀ hy₀ hxo₀ hyo₀ (by omega)

/-- With no holders nothing is known. -/
theorem Inv.start (next : ℕ) (hnone : ∀ p, holder p = none) : Inv next holder ∅ := by
  refine ⟨?_, fun k hk => hk.elim, ?_, fun i r a b ha => ha.elim, ?_, ?_⟩
  · rintro k ⟨p, x, hx, -⟩
    rw [hnone] at hx
    cases hx
  all_goals
    intro p
    simp [hnone]

end KirAi.Lib.Identity
