/-
# Text that may begin a tag

A reader that looks for tags in a text that still grows shows what it has up to where a tag
may have begun: the end of the text that is a beginning of a tag is kept back. `Withholds`
says how much that is, and `Settled` what is true of the text before it: no tag starts in
it, whatever comes. Settled text does not move what is found after it (`Settled.find_eq`).

Key definitions: `Withholds`, `pendingLens`, `Settled`.
Key theorems: `Withholds.settled`, `Settled.find_eq`.
-/
import KirAi.Lib.Text

namespace KirAi.Lib.Text

variable {α : Type} [Width α]

/-- A text that begins a tag and is not all of it. -/
def Begins (tags : List (List α)) (y : List α) : Prop :=
  y ≠ [] ∧ ∃ tag ∈ tags, y <+: tag ∧ y ≠ tag

/-- The longest end of the text that begins a tag has the width `m`. -/
structure Withholds (tags : List (List α)) (s : List α) (m : ℕ) : Prop where
  le : ∀ y, Begins tags y → y <:+ s → len y ≤ m
  attained : m = 0 ∨ ∃ y, Begins tags y ∧ y <:+ s ∧ len y = m

/-- No tag starts in `x` when `y` comes after it, nor with more text to come. -/
def Settled (tags : List (List α)) (x y : List α) : Prop :=
  ∀ z, z ≠ [] → z <:+ x → ∀ tag ∈ tags, ¬tag <+: z ++ y ∧ ¬z ++ y <+: tag

omit [Width α] in
theorem Begins.mono {as bs : List (List α)} {y : List α} (h : Begins as y) (hsub : as ⊆ bs) :
    Begins bs y := by
  obtain ⟨hne, tag, htag, hy⟩ := h
  exact ⟨hne, tag, hsub htag, hy⟩

/-- The text before the one kept back is settled, if no tag is in the text. -/
theorem Withholds.settled {tags : List (List α)} {s : List α} {m : ℕ} (h : Withholds tags s m)
    (hfree : ∀ tag ∈ tags, ¬tag <:+: s) :
    ∃ x y, s = x ++ y ∧ len y = m ∧ Settled tags x y := by
  have hsettled : ∀ {x y : List α}, s = x ++ y → len y = m → Settled tags x y := by
    rintro x y rfl hlen z hz ⟨w, rfl⟩ tag htag
    have hsuffix : z ++ y <:+ w ++ z ++ y := ⟨w, by simp⟩
    refine ⟨fun hin => hfree tag htag (hin.isInfix.trans hsuffix.isInfix), fun hstart => ?_⟩
    have hne : z ++ y ≠ [] := fun hnil => hz (List.append_eq_nil_iff.1 hnil).1
    by_cases heq : z ++ y = tag
    · exact hfree tag htag (heq ▸ hsuffix.isInfix)
    · have hle := h.le (z ++ y) ⟨hne, tag, htag, hstart, heq⟩ hsuffix
      rw [len_append] at hle
      exact hz (len_eq_zero.1 (by omega))
  rcases h.attained with rfl | ⟨y, -, ⟨x, rfl⟩, hlen⟩
  · exact ⟨s, [], (List.append_nil s).symm, len_nil, hsettled (List.append_nil s).symm len_nil⟩
  · exact ⟨x, y, rfl, hlen, hsettled rfl hlen⟩

namespace Settled

variable {tags : List (List α)} {x y : List α}

omit [Width α] in
theorem append (h : Settled tags x y) (t : List α) : Settled tags x (y ++ t) := by
  intro z hz hzx tag htag
  obtain ⟨hin, hstart⟩ := h z hz hzx tag htag
  rw [← List.append_assoc]
  refine ⟨fun hnew => ?_, fun hnew => hstart ((List.prefix_append _ t).trans hnew)⟩
  rcases List.prefix_or_prefix_of_prefix hnew (List.prefix_append (z ++ y) t) with hp | hp
  · exact hin hp
  · exact hstart hp

/-- Where a tag is after settled text. -/
theorem occursAt {tag : List α} (h : Settled tags x y) (htag : tag ∈ tags) {i : ℕ}
    (hi : OccursAt tag (x ++ y) i) : ∃ j, i = len x + j ∧ OccursAt tag y j := by
  obtain ⟨u, v, heq, rfl⟩ := hi
  rw [List.append_assoc] at heq
  rcases List.append_eq_append_iff.1 heq with ⟨w, rfl, hy⟩ | ⟨z, rfl, hz⟩
  · exact ⟨len w, len_append x w, w, v, by rw [hy, List.append_assoc], rfl⟩
  · by_cases hnil : z = []
    · subst hnil
      rw [List.nil_append] at hz
      exact ⟨0, by simp, [], v, hz.symm, rfl⟩
    · exact absurd ⟨v, hz⟩ (h z hnil ⟨u, rfl⟩ tag htag).1

omit [Width α] in
/-- Settled text after settled text. -/
theorem concat {w : List α} (hw : Settled tags w (x ++ y)) (hx : Settled tags x y) :
    Settled tags (w ++ x) y := by
  intro z hz hzs
  rcases List.suffix_or_suffix_of_suffix hzs (List.suffix_append w x) with hzx | ⟨v, rfl⟩
  · exact hx z hz hzx
  · have hv : v <:+ w := by
      obtain ⟨u, hu⟩ := hzs
      rw [← List.append_assoc] at hu
      exact ⟨u, List.append_cancel_right hu⟩
    by_cases hnil : v = []
    · subst hnil
      exact hx x hz List.suffix_rfl
    · intro tag htag
      rw [List.append_assoc]
      exact hw v hnil hv tag htag

/-- The first tag after settled text is the first tag. -/
theorem isLeast_hits (h : Settled tags x y) {i : ℕ} (hi : IsLeast (hits tags y) i) :
    IsLeast (hits tags (x ++ y)) (len x + i) := by
  obtain ⟨⟨tag, htag, u, v, rfl, rfl⟩, hleast⟩ := hi
  refine ⟨⟨tag, htag, x ++ u, v, by simp, len_append x u⟩, ?_⟩
  rintro j ⟨tag', htag', hj⟩
  obtain ⟨k, rfl, hk⟩ := h.occursAt htag' hj
  exact Nat.add_le_add_left (hleast ⟨tag', htag', hk⟩) _

theorem hits_eq_empty (h : Settled tags x y) (hy : hits tags y = ∅) :
    hits tags (x ++ y) = ∅ := by
  refine Set.eq_empty_of_forall_notMem ?_
  rintro j ⟨tag, htag, hj⟩
  obtain ⟨k, -, hk⟩ := h.occursAt htag hj
  exact Set.notMem_empty k (hy ▸ ⟨tag, htag, hk⟩)

end Settled

section Find

variable [DecidableEq α]

theorem Settled.find_eq {tags : List (List α)} {x y tag : List α} (h : Settled tags x y)
    (htag : tag ∈ tags) : find tag (x ++ y) = (find tag y).map (len x + ·) := by
  cases hfind : find tag y with
  | none =>
    refine find_eq_none_iff.2 fun i hi => ?_
    obtain ⟨j, -, hj⟩ := h.occursAt htag hi
    exact find_eq_none_iff.1 hfind j hj
  | some i =>
    obtain ⟨⟨u, v, rfl, rfl⟩, hleast⟩ := find_eq_some_iff.1 hfind
    refine find_eq_some_iff.2 ⟨⟨x ++ u, v, by simp, len_append x u⟩, ?_⟩
    intro j hj
    obtain ⟨k, rfl, hk⟩ := h.occursAt htag hj
    exact Nat.add_le_add_left (hleast hk) _

/-- The widths of the ends of the text that begin the tag. -/
def pendingLens (tag s : List α) : List ℕ :=
  (List.range' 1 (len tag - 1)).filter fun n => isBoundary tag n && (takeTo tag n).isSuffixOf s

theorem mem_pendingLens_iff {tag s : List α} {n : ℕ} :
    n ∈ pendingLens tag s ↔ ∃ y, Begins [tag] y ∧ y <:+ s ∧ len y = n := by
  rw [pendingLens, List.mem_filter, List.mem_range'_1, Bool.and_eq_true, List.isSuffixOf_iff_suffix]
  constructor
  · rintro ⟨⟨hpos, hlt⟩, hb, hs⟩
    obtain ⟨u, v, rfl, rfl⟩ := isBoundary_iff.1 hb
    rw [takeTo_append] at hs
    refine ⟨u, ⟨?_, u ++ v, List.mem_singleton_self _, List.prefix_append u v, ?_⟩, hs, rfl⟩
    · rintro rfl
      simp at hpos
    · intro heq
      have hlen := congrArg len heq
      omega
  · rintro ⟨y, ⟨hne, tag', htag, ⟨v, rfl⟩, hneq⟩, hs, rfl⟩
    obtain rfl := List.mem_singleton.1 htag
    have hy := len_eq_zero.not.2 hne
    have hv : len v ≠ 0 := len_eq_zero.not.2 fun hnil => hneq (by simp [hnil])
    refine ⟨?_, isBoundary_iff.2 ⟨y, v, rfl, rfl⟩, ?_⟩
    · rw [len_append]
      omega
    · rwa [takeTo_append]

/-- The greatest of these widths, for some tags. -/
theorem withholds_max (tags : List (List α)) (s : List α) :
    Withholds tags s (((tags.flatMap (pendingLens · s)).max?).getD 0) := by
  have hmem : ∀ {n : ℕ}, n ∈ tags.flatMap (pendingLens · s) ↔
      ∃ y, Begins tags y ∧ y <:+ s ∧ len y = n := by
    intro n
    rw [List.mem_flatMap]
    constructor
    · rintro ⟨tag, htag, hn⟩
      obtain ⟨y, hy, hys, hlen⟩ := mem_pendingLens_iff.1 hn
      exact ⟨y, hy.mono (List.cons_subset.2 ⟨htag, List.nil_subset _⟩), hys, hlen⟩
    · rintro ⟨y, ⟨hne, tag, htag, hy⟩, hys, hlen⟩
      exact ⟨tag, htag, mem_pendingLens_iff.2
        ⟨y, ⟨hne, tag, List.mem_singleton_self tag, hy⟩, hys, hlen⟩⟩
  cases hmax : (tags.flatMap (pendingLens · s)).max? with
  | none =>
    refine ⟨fun y hy hys => ?_, .inl rfl⟩
    have hin := hmem.2 ⟨y, hy, hys, rfl⟩
    rw [List.max?_eq_none_iff.1 hmax] at hin
    exact absurd hin List.not_mem_nil
  | some m =>
    obtain ⟨hm, hle⟩ := List.max?_eq_some_iff.1 hmax
    exact ⟨fun y hy hys => hle _ (hmem.2 ⟨y, hy, hys, rfl⟩), .inr (hmem.1 hm)⟩

end Find

end KirAi.Lib.Text
