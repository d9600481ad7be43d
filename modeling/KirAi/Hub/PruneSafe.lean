/-
# What a plan lets go

Of every snapshot that is listed a plan must say either that it can go or why not, and it must
not let go one that an alias resolves to, one of the last used of its profile, or one used
recently (`PruneSafe`). The last two hold of every plan. An alias protects the snapshot whose
path it was recorded with; that the alias resolves to the snapshot by another path (a relative
one, or one with a link) is not seen, so a plan is safe just if each such snapshot is protected
anyway (`prune_safe_iff`).

Key definitions: `PruneSafe`, `Kept`, `AliasesKept`.
Key theorems: `mem_minimumRetained_iff`, `mem_candidates_iff`, `prune_safe_iff`.
-/
import KirAi.Hub.Prune
import KirAi.Hub.SampleFormats
import Mathlib.Algebra.BigOperators.Group.List.Basic

namespace KirAi.Hub

open Lib

section Safe

variable {Path Dir : Type} [LinearOrder Path] (F : Formats) (R : Records Path)
  (H : ModelHome Path Dir) (policy : PrunePolicy)

/-- When a snapshot was used last, as far as that can be read. -/
def lastUsed (s : PromotedSnapshot Path) : ℤ :=
  (snapshotLastUsedAt R H s.path s.manifest).toOption.getD 0

/-- `t` stands before `s` in the order of use: used later, or at the same time with a lesser path. -/
def UsedBefore (t s : PromotedSnapshot Path) : Prop :=
  lastUsed R H s < lastUsed R H t ∨ lastUsed R H t = lastUsed R H s ∧ t.path < s.path

instance (t s : PromotedSnapshot Path) : Decidable (UsedBefore R H t s) :=
  inferInstanceAs (Decidable (_ ∨ _))

/-- One of the `keep_min` that were used last of its profile. -/
def InMinimum (snapshots : List (PromotedSnapshot Path)) (s : PromotedSnapshot Path) : Prop :=
  snapshots.countP (fun t =>
    decide (t.manifest.profile = s.manifest.profile ∧ UsedBefore R H t s)) < policy.keepMinPerProfile

instance (snapshots : List (PromotedSnapshot Path)) (s : PromotedSnapshot Path) :
    Decidable (InMinimum R H policy snapshots s) := inferInstanceAs (Decidable (_ < _))

/-- Used within the age limit, or later than now; neither counts where no age limit is given. -/
def UsedWithin (lastUsedAt : ℤ) : Prop :=
  ∃ keepRecent, policy.keepRecent = some keepRecent ∧ policy.now - lastUsedAt ≤ (keepRecent : ℤ)

theorem recentlyUsed_iff {lastUsedAt : ℤ} :
    policy.recentlyUsed lastUsedAt = true ↔ UsedWithin policy lastUsedAt := by
  unfold PrunePolicy.recentlyUsed UsedWithin
  cases policy.keepRecent with
  | none => simp
  | some keepRecent =>
    by_cases hage : 0 ≤ policy.now - lastUsedAt
    · simp only [if_pos hage, decide_eq_true_eq, Option.some.injEq, exists_eq_left']
    · have hle : policy.now - lastUsedAt ≤ (keepRecent : ℤ) := by omega
      simp only [if_neg hage, Option.some.injEq, exists_eq_left', hle]

instance (lastUsedAt : ℤ) : Decidable (UsedWithin policy lastUsedAt) :=
  decidable_of_iff _ (recentlyUsed_iff policy)

/-- The alias resolves, and to the directory of the snapshot. -/
def ResolvesTo (alias' : String) (s : PromotedSnapshot Path) : Prop :=
  ∃ r, resolveSnapshotAlias F R H alias' = .ok r ∧
    ∃ dir, H.dirOf r.path = some dir ∧ H.dirOf s.path = some dir

/-- The plan is one for the snapshots that are listed, and lets none go that is protected. -/
structure PruneSafe (snapshots : List (PromotedSnapshot Path)) (plan : PrunePlan Path) : Prop where
  partition : (plan.candidates.map (·.path) ++ plan.protected'.map (·.path)).Perm
    ((snapshots.filter policy.selects).map (·.path))
  once : (plan.candidates.map (·.path) ++ plan.protected'.map (·.path)).Nodup
  aliased : ∀ s ∈ snapshots, s.path ∈ plan.candidates.map (·.path) →
    ∀ alias', ¬ResolvesTo F R H alias' s
  minimum : ∀ s ∈ snapshots, s.path ∈ plan.candidates.map (·.path) →
    ¬InMinimum R H policy snapshots s
  recent : ∀ s ∈ snapshots, s.path ∈ plan.candidates.map (·.path) →
    ¬UsedWithin policy (lastUsed R H s)
  reclaimable : plan.reclaimableBytes = (plan.candidates.map (·.bytes)).sum
  applied : ∀ (C : PruneCalls Path), ∀ effect ∈ (applyPrunePlan C plan).1,
    effect.path ∈ plan.candidates.map (·.path)

/-- What protects a snapshot: an alias record with its path, its profile's minimum, or its use. -/
def Kept (aliases : List (ModelAlias Path)) (snapshots : List (PromotedSnapshot Path))
    (s : PromotedSnapshot Path) : Prop :=
  (∃ a ∈ aliases, a.snapshotPath = s.path) ∨ InMinimum R H policy snapshots s ∨
    UsedWithin policy (lastUsed R H s)

instance (aliases : List (ModelAlias Path)) (snapshots : List (PromotedSnapshot Path))
    (s : PromotedSnapshot Path) : Decidable (Kept R H policy aliases snapshots s) :=
  inferInstanceAs (Decidable (_ ∨ _))

/-- Every snapshot that an alias resolves to is protected. -/
def AliasesKept (aliases : List (ModelAlias Path)) (snapshots : List (PromotedSnapshot Path)) :
    Prop :=
  ∀ s ∈ snapshots, policy.selects s = true → (∃ alias', ResolvesTo F R H alias' s) →
    Kept R H policy aliases snapshots s

/-- The snapshots that nothing protects. -/
def unkept (aliases : List (ModelAlias Path)) (snapshots : List (PromotedSnapshot Path)) :
    List (PromotedSnapshot Path) :=
  snapshots.filter fun s => policy.selects s && !decide (Kept R H policy aliases snapshots s)

end Safe

/-! ### What is listed -/

section Lists

variable {Path Dir : Type} [LinearOrder Path] {F : Formats} {R : Records Path}
  {H : ModelHome Path Dir} {policy : PrunePolicy}

omit [LinearOrder Path] in
theorem listedSnapshots_paths : ∀ {paths : List Path} {snapshots : List (PromotedSnapshot Path)},
    listedSnapshots F R H paths = .ok snapshots → (snapshots.map (·.path)).Sublist paths
  | [], snapshots, h => by
    obtain rfl := Except.ok.inj h
    exact List.Sublist.slnil
  | path :: paths, snapshots, h => by
    obtain ⟨snapshot, hpath, hrest⟩ := bind_eq_ok.1 h
    obtain ⟨later, hlater, hpure⟩ := bind_eq_ok.1 hrest
    obtain rfl := Except.ok.inj hpure
    have ih := listedSnapshots_paths hlater
    have hname : ∀ s, snapshot = some s → s.path = path := by
      rintro s rfl
      unfold listedSnapshot at hpath
      split at hpath
      · cases hpath
      · cases hpath
      · next bytes _ =>
        unfold parseManifest at hpath
        cases hread : F.readManifest bytes with
        | error err => simp [hread, Except.map] at hpath
        | ok manifest =>
          simp only [hread, Except.map, Except.ok.injEq, Option.some.injEq] at hpath
          rw [← hpath]
          rfl
    cases snapshot with
    | none => exact ih.cons path
    | some s =>
      have hs : s.path = path := hname s rfl
      show ((s :: later).map (·.path)).Sublist (path :: paths)
      rw [List.map_cons, hs]
      exact ih.cons_cons path

theorem listSnapshots_nodup {snapshots : List (PromotedSnapshot Path)}
    (h : listSnapshots F R H = .ok snapshots) : (snapshots.map (·.path)).Nodup := by
  obtain ⟨listed, hlisted, hsort⟩ := bind_eq_ok.1 h
  obtain rfl := Except.ok.inj hsort
  rw [((inOrderBy_perm _ listed).map _).nodup_iff]
  exact (listedSnapshots_paths hlisted).nodup H.nodup

/-- What is said of a snapshot that is listed. -/
def entryFor (R : Records Path) (H : ModelHome Path Dir) (aliases : List (ModelAlias Path))
    (s : PromotedSnapshot Path) : PruneSnapshotEntry Path := entryOf aliases s (lastUsed R H s)

theorem pruneEntries_ok {aliases : List (ModelAlias Path)} :
    ∀ {snapshots : List (PromotedSnapshot Path)} {entries : List (PruneSnapshotEntry Path)},
    pruneEntries R H policy aliases snapshots = .ok entries →
    entries = (snapshots.filter policy.selects).map (entryFor R H aliases)
  | [], entries, h => (Except.ok.inj h).symm
  | s :: snapshots, entries, h => by
    unfold pruneEntries at h
    by_cases hsel : policy.selects s = true
    · rw [if_pos hsel] at h
      obtain ⟨last, hlast, hrest⟩ := bind_eq_ok.1 h
      obtain ⟨later, hlater, hpure⟩ := bind_eq_ok.1 hrest
      obtain rfl := Except.ok.inj hpure
      have hused : lastUsed R H s = last := by rw [lastUsed, hlast]; rfl
      rw [List.filter_cons_of_pos hsel, List.map_cons, ← pruneEntries_ok hlater, entryFor, hused]
    · rw [if_neg hsel] at h
      rw [List.filter_cons_of_neg hsel]
      exact pruneEntries_ok h

/-! ### What is retained of a profile -/

theorem recency_lt_iff {t e : PruneSnapshotEntry Path} : recency t < recency e ↔
    e.lastUsedAt < t.lastUsedAt ∨ t.lastUsedAt = e.lastUsedAt ∧ t.path < e.path := by
  rw [recency, recency, Prod.Lex.toLex_lt_toLex]
  rfl

omit [LinearOrder Path] in
theorem eq_of_path {entries : List (PruneSnapshotEntry Path)} (hnodup : (entries.map (·.path)).Nodup)
    {t e : PruneSnapshotEntry Path} (ht : t ∈ entries) (he : e ∈ entries) (h : t.path = e.path) :
    t = e := List.inj_on_of_nodup_map hnodup ht he h

theorem mem_retainedOfProfile {entries : List (PruneSnapshotEntry Path)} {k : ℕ} {profile : String}
    {t : PruneSnapshotEntry Path} (h : t ∈ retainedOfProfile entries k profile) :
    t ∈ entries ∧ t.profile = profile := by
  have hmem := (inOrderBy_perm recency _).mem_iff.1 (List.mem_of_mem_take h)
  obtain ⟨ht, hprofile⟩ := List.mem_filter.1 hmem
  exact ⟨ht, of_decide_eq_true hprofile⟩

/-- A path is retained just if fewer than `k` of the profile come before its entry. -/
theorem mem_minimumRetained_iff {entries : List (PruneSnapshotEntry Path)}
    (hnodup : (entries.map (·.path)).Nodup) {e : PruneSnapshotEntry Path} (he : e ∈ entries) (k : ℕ) :
    e.path ∈ minimumRetainedSnapshotPaths entries k ↔
      entries.countP (fun t => decide (recency t < recency e) && decide (t.profile = e.profile)) < k := by
  unfold minimumRetainedSnapshotPaths
  by_cases hk : k = 0
  · simp [hk]
  · rw [if_neg hk]
    have hkeys : ((entries.filter (·.profile = e.profile)).map recency).Nodup := by
      refine List.Nodup.of_map (fun p => (ofLex p).2) ?_
      rw [List.map_map]
      have hsub : (entries.filter (·.profile = e.profile)).Sublist entries := List.filter_sublist
      exact (hsub.map fun t : PruneSnapshotEntry Path => t.path).nodup hnodup
    have hin : e ∈ entries.filter (·.profile = e.profile) :=
      List.mem_filter.2 ⟨he, decide_eq_true rfl⟩
    have htop := mem_take_inOrderBy hkeys hin k
    rw [List.countP_filter] at htop
    rw [← htop]
    constructor
    · intro h
      obtain ⟨profile, -, hpath⟩ := List.mem_flatMap.1 h
      obtain ⟨t, ht, heq⟩ := List.mem_map.1 hpath
      obtain ⟨hte, rfl⟩ := mem_retainedOfProfile ht
      obtain rfl := eq_of_path hnodup hte he heq
      exact ht
    · intro h
      refine List.mem_flatMap.2 ⟨e.profile, ?_, List.mem_map.2 ⟨e, h, rfl⟩⟩
      exact List.mem_dedup.2 (List.mem_map.2 ⟨e, he, rfl⟩)

/-! ### The reasons -/

theorem aliasesBySnapshotPath_eq_nil {aliases : List (ModelAlias Path)} {path : Path} :
    aliasesBySnapshotPath aliases path = [] ↔ ¬∃ a ∈ aliases, a.snapshotPath = path := by
  rw [aliasesBySnapshotPath, ← List.length_eq_zero_iff, (inOrderBy_perm id _).length_eq,
    List.length_map, List.length_eq_zero_iff, List.filter_eq_nil_iff]
  simp

theorem protectionReasons_isEmpty {retained : List Path} {e : PruneSnapshotEntry Path} :
    (protectionReasons policy retained e).isEmpty = true ↔
      e.aliases = [] ∧ e.path ∉ retained ∧ ¬UsedWithin policy e.lastUsedAt := by
  rw [← recentlyUsed_iff, List.isEmpty_iff, protectionReasons, List.append_eq_nil_iff,
    List.append_eq_nil_iff, List.map_eq_nil_iff, and_assoc]
  refine and_congr_right fun _ => and_congr ?_ ?_
  · rw [← List.contains_iff_mem]
    cases retained.contains e.path <;> simp
  · cases policy.recentlyUsed e.lastUsedAt <;> simp

omit [LinearOrder Path] in
theorem selects_congr {t s : PromotedSnapshot Path} (h : t.manifest.profile = s.manifest.profile) :
    policy.selects t = policy.selects s := by
  unfold PrunePolicy.selects
  rw [h]

variable {aliases : List (ModelAlias Path)} {snapshots : List (PromotedSnapshot Path)}

theorem entryFor_paths (l : List (PromotedSnapshot Path)) :
    (l.map (entryFor R H aliases)).map (·.path) = l.map (·.path) := by
  rw [List.map_map]
  rfl

theorem entries_nodup (hnodup : (snapshots.map (·.path)).Nodup) :
    (((snapshots.filter policy.selects).map (entryFor R H aliases)).map (·.path)).Nodup := by
  have hsub : (snapshots.filter policy.selects).Sublist snapshots := List.filter_sublist
  rw [entryFor_paths]
  exact (hsub.map fun s : PromotedSnapshot Path => s.path).nodup hnodup

/-- The minimum of a profile is counted among the entries as among all snapshots. -/
theorem mem_retained_iff (hnodup : (snapshots.map (·.path)).Nodup) {s : PromotedSnapshot Path}
    (hs : s ∈ snapshots) (hsel : policy.selects s = true) :
    s.path ∈ minimumRetainedSnapshotPaths
        ((snapshots.filter policy.selects).map (entryFor R H aliases)) policy.keepMinPerProfile ↔
      InMinimum R H policy snapshots s := by
  have hin : entryFor R H aliases s ∈ (snapshots.filter policy.selects).map (entryFor R H aliases) :=
    List.mem_map.2 ⟨s, List.mem_filter.2 ⟨hs, hsel⟩, rfl⟩
  refine (mem_minimumRetained_iff (entries_nodup hnodup) hin _).trans ?_
  rw [InMinimum, List.countP_map, List.countP_filter]
  refine iff_of_eq (congrArg (· < policy.keepMinPerProfile) (List.countP_congr fun t _ => ?_))
  simp only [Function.comp_apply, Bool.and_eq_true, decide_eq_true_eq, recency_lt_iff]
  constructor
  · rintro ⟨⟨hbefore, hprofile⟩, -⟩
    exact ⟨hprofile, hbefore⟩
  · rintro ⟨hprofile, hbefore⟩
    exact ⟨⟨hbefore, hprofile⟩, (selects_congr hprofile).trans hsel⟩

/-- An entry has no reason just if nothing keeps its snapshot. -/
theorem no_reasons_iff (hnodup : (snapshots.map (·.path)).Nodup) {s : PromotedSnapshot Path}
    (hs : s ∈ snapshots) (hsel : policy.selects s = true) :
    (protectionReasons policy (minimumRetainedSnapshotPaths
        ((snapshots.filter policy.selects).map (entryFor R H aliases)) policy.keepMinPerProfile)
        (entryFor R H aliases s)).isEmpty = true ↔ ¬Kept R H policy aliases snapshots s := by
  rw [protectionReasons_isEmpty, Kept, not_or, not_or]
  exact and_congr aliasesBySnapshotPath_eq_nil
    (and_congr_left fun _ => not_congr (mem_retained_iff hnodup hs hsel))

/-! ### The plan -/

/-- The plan for the snapshots that are listed. -/
def listedPlan (R : Records Path) (H : ModelHome Path Dir) (policy : PrunePolicy)
    (aliases : List (ModelAlias Path)) (snapshots : List (PromotedSnapshot Path)) : PrunePlan Path :=
  planOf policy ((snapshots.filter policy.selects).map (entryFor R H aliases))

theorem prunePlan_ok {plan : PrunePlan Path} (hs : listSnapshots F R H = .ok snapshots)
    (ha : listAliases R H = .ok aliases) (h : prunePlan F R H policy = .ok plan) :
    plan = listedPlan R H policy aliases snapshots := by
  rw [prunePlan, hs, ok_bind, ha, ok_bind] at h
  obtain ⟨entries, hentries, hpure⟩ := bind_eq_ok.1 h
  rw [← Except.ok.inj hpure, pruneEntries_ok hentries, listedPlan]

/-- The candidates are the entries of the snapshots that nothing keeps. -/
theorem candidates_perm (hnodup : (snapshots.map (·.path)).Nodup) :
    (listedPlan R H policy aliases snapshots).candidates.Perm
      ((unkept R H policy aliases snapshots).map (entryFor R H aliases)) := by
  refine (inOrderBy_perm _ _).trans (List.Perm.of_eq ?_)
  rw [List.filter_map, List.filter_filter, unkept]
  congr 1
  refine List.filter_congr fun s hs => ?_
  cases hsel : policy.selects s with
  | false => rw [Bool.and_false, Bool.false_and]
  | true =>
    rw [Bool.and_true, Bool.true_and, Bool.eq_iff_iff, Function.comp_apply,
      no_reasons_iff hnodup hs hsel, Bool.not_eq_true', decide_eq_false_iff_not]

theorem mem_candidates_iff (hnodup : (snapshots.map (·.path)).Nodup) {s : PromotedSnapshot Path}
    (hs : s ∈ snapshots) :
    s.path ∈ (listedPlan R H policy aliases snapshots).candidates.map (·.path) ↔
      policy.selects s = true ∧ ¬Kept R H policy aliases snapshots s := by
  rw [((candidates_perm hnodup).map _).mem_iff, entryFor_paths, unkept]
  constructor
  · intro h
    obtain ⟨t, ht, hpath⟩ := List.mem_map.1 h
    obtain ⟨htmem, hkeep⟩ := List.mem_filter.1 ht
    obtain rfl := List.inj_on_of_nodup_map hnodup htmem hs hpath
    rwa [Bool.and_eq_true, Bool.not_eq_true', decide_eq_false_iff_not] at hkeep
  · rintro ⟨hsel, hkept⟩
    refine List.mem_map.2 ⟨s, List.mem_filter.2 ⟨hs, ?_⟩, rfl⟩
    rw [Bool.and_eq_true, Bool.not_eq_true', decide_eq_false_iff_not]
    exact ⟨hsel, hkept⟩

theorem planOf_partition (entries : List (PruneSnapshotEntry Path)) :
    ((planOf policy entries).candidates.map (·.path) ++
      (planOf policy entries).protected'.map (·.path)).Perm (entries.map (·.path)) := by
  refine (((inOrderBy_perm _ _).map _).append ((inOrderBy_perm _ _).map _)).trans ?_
  have hsplit := (List.filter_append_perm (fun e => (protectionReasons policy
    (minimumRetainedSnapshotPaths entries policy.keepMinPerProfile) e).isEmpty) entries).map (·.path)
  rw [List.map_append] at hsplit
  rw [List.map_map]
  exact hsplit

theorem plan_partition :
    ((listedPlan R H policy aliases snapshots).candidates.map (·.path) ++
      (listedPlan R H policy aliases snapshots).protected'.map (·.path)).Perm
      ((snapshots.filter policy.selects).map (·.path)) := by
  have hpaths : ((snapshots.filter policy.selects).map (entryFor R H aliases)).map (·.path) =
      (snapshots.filter policy.selects).map (·.path) := entryFor_paths _
  rw [← hpaths]
  exact planOf_partition _

theorem reclaimable_eq (hnodup : (snapshots.map (·.path)).Nodup) :
    (listedPlan R H policy aliases snapshots).reclaimableBytes =
      ((listedPlan R H policy aliases snapshots).candidates.map (·.bytes)).sum ↔
      ((unkept R H policy aliases snapshots).map snapshotBytes).sum < 2 ^ 64 := by
  have hsum : ((listedPlan R H policy aliases snapshots).candidates.map (·.bytes)).sum =
      ((unkept R H policy aliases snapshots).map snapshotBytes).sum := by
    rw [((candidates_perm hnodup).map _).sum_eq, List.map_map]
    rfl
  rw [← hsum]
  show sumU64 _ = _ ↔ _
  rw [sumU64]
  constructor
  · intro heq
    rw [← heq]
    exact Nat.mod_lt _ (by decide)
  · exact Nat.mod_eq_of_lt

omit [LinearOrder Path] in
/-- What is applied are calls for the candidates. -/
theorem applyCandidates_paths {C : PruneCalls Path} : ∀ {candidates : List (PruneCandidate Path)}
    {report : PruneReport Path}, ∀ effect ∈ (applyCandidates C candidates report).1,
    effect.path ∈ candidates.map (·.path)
  | [], _, _, h => absurd h List.not_mem_nil
  | c :: candidates, report, effect, h => by
    rw [List.map_cons]
    unfold applyCandidates at h
    split at h
    · split at h
      · obtain rfl := List.mem_singleton.1 h
        exact List.mem_cons_self
      · rcases List.mem_cons.1 h with rfl | hlater
        · exact List.mem_cons_self
        · exact List.mem_cons_of_mem _ (applyCandidates_paths effect hlater)
    · split at h
      · obtain rfl := List.mem_singleton.1 h
        exact List.mem_cons_self
      · rcases List.mem_cons.1 h with rfl | hlater
        · exact List.mem_cons_self
        · exact List.mem_cons_of_mem _ (applyCandidates_paths effect hlater)

/-- **A plan is safe just if every snapshot that an alias resolves to is protected**, and the
sizes of those that nothing protects add up to a `u64`. -/
theorem prune_safe_iff {plan : PrunePlan Path} (hs : listSnapshots F R H = .ok snapshots)
    (ha : listAliases R H = .ok aliases) (h : prunePlan F R H policy = .ok plan) :
    PruneSafe F R H policy snapshots plan ↔
      AliasesKept F R H policy aliases snapshots ∧
        ((unkept R H policy aliases snapshots).map snapshotBytes).sum < 2 ^ 64 := by
  have hnodup := listSnapshots_nodup hs
  obtain rfl := prunePlan_ok hs ha h
  constructor
  · intro hsafe
    refine ⟨fun s hmem hsel hresolves => ?_, (reclaimable_eq hnodup).1 hsafe.reclaimable⟩
    by_contra hkept
    obtain ⟨alias', halias⟩ := hresolves
    exact hsafe.aliased s hmem ((mem_candidates_iff hnodup hmem).2 ⟨hsel, hkept⟩) alias' halias
  · rintro ⟨hkept, hfits⟩
    have hcandidate : ∀ s ∈ snapshots,
        s.path ∈ (listedPlan R H policy aliases snapshots).candidates.map (·.path) →
        policy.selects s = true ∧ ¬Kept R H policy aliases snapshots s :=
      fun s hmem => (mem_candidates_iff hnodup hmem).1
    have hsub : (snapshots.filter policy.selects).Sublist snapshots := List.filter_sublist
    exact {
      partition := plan_partition
      once := plan_partition.nodup_iff.2
        ((hsub.map fun s : PromotedSnapshot Path => s.path).nodup hnodup)
      aliased := by
        intro s hmem hpath alias' halias
        obtain ⟨hsel, hnot⟩ := hcandidate s hmem hpath
        exact hnot (hkept s hmem hsel ⟨alias', halias⟩)
      minimum := fun s hmem hpath hmin => (hcandidate s hmem hpath).2 (.inr (.inl hmin))
      recent := fun s hmem hpath hused => (hcandidate s hmem hpath).2 (.inr (.inr hused))
      reclaimable := (reclaimable_eq hnodup).2 hfits
      applied := fun C => applyCandidates_paths }

end Lists

/-! ### An alias recorded with a relative path -/

/-- A snapshot of the same model by another commit. -/
def laterRoot : String := "/h/huggingface/models--a--b/snapshots/c2.custom"

section Relative

variable (F : Formats) (m : SnapshotManifest) (text : Bytes)

def relativeAlias : ModelAlias String where
  schemaVersion := 1
  alias' := "m"
  snapshotPath := "huggingface/models--a--b/snapshots/c1.custom"
  manifestDigest := none
  updatedAt := 0

def relativeAliasFile : AliasFile where
  name := aliasFileName F "m"
  isFile := true
  content := text

def relativeRecords : Records String where
  readAlias bytes :=
    if bytes = text then .ok relativeAlias
    else .error "expected value at line 1 column 1"
  readUsage _ := .error "expected value at line 1 column 1"
  display path := path

/-- The program runs in the model home, so two of the paths lead to one directory. -/
def relativeHome : ModelHome String Bool where
  dirOf path :=
    if path = sampleRoot ∨ path = relativeAlias.snapshotPath then some true
    else if path = laterRoot then some false
    else none
  manifestFile _ := .ok (some (F.manifestPretty m))
  usageFile _ := .ok none
  snapshotDirs := [sampleRoot, laterRoot]
  nodup := by decide
  aliasFiles := [relativeAliasFile F text]

/-- Nothing is kept for its use, and `keepMin` of each profile. -/
def keeping (keepMin : ℕ) : PrunePolicy where
  now := 100
  keepRecent := none
  keepMinPerProfile := keepMin
  profile := none

theorem relative_dirOf {path : String}
    (h : path = sampleRoot ∨ path = relativeAlias.snapshotPath) :
    (relativeHome F m text).dirOf path = some true := if_pos h

theorem later_dirOf : (relativeHome F m text).dirOf laterRoot = some false := by
  have hother : ¬(laterRoot = sampleRoot ∨ laterRoot = relativeAlias.snapshotPath) := by decide
  simp only [relativeHome, if_neg hother, if_true]

theorem relative_manifestAt {path : String} {dir : Bool}
    (h : (relativeHome F m text).dirOf path = some dir) :
    (relativeHome F m text).manifestAt path = .ok (some (F.manifestPretty m)) := by
  rw [ModelHome.manifestAt, h]
  rfl

theorem relative_listedSnapshot {path : String} {dir : Bool}
    (h : (relativeHome F m text).dirOf path = some dir) :
    listedSnapshot F (relativeRecords text) (relativeHome F m text) path =
      .ok (some (promoted F path m)) := by
  rw [listedSnapshot, relative_manifestAt F m text h]
  simp only [parseManifest, F.read_manifestPretty]
  rfl

theorem relative_listed : listSnapshots F (relativeRecords text) (relativeHome F m text) =
    .ok [promoted F sampleRoot m, promoted F laterRoot m] := by
  rw [listSnapshots,
    show (relativeHome F m text).snapshotDirs = [sampleRoot, laterRoot] from rfl, listedSnapshots,
    relative_listedSnapshot F m text (relative_dirOf F m text (.inl rfl)), ok_bind, listedSnapshots,
    relative_listedSnapshot F m text (later_dirOf F m text)]
  refine congrArg Except.ok (List.Pairwise.insertionSort_eq ?_)
  refine List.pairwise_pair.2 ?_
  rw [Prod.Lex.toLex_le_toLex, Prod.Lex.toLex_le_toLex]
  exact .inr ⟨rfl, .inr ⟨rfl, show sampleRoot ≤ laterRoot by decide⟩⟩

theorem relative_parse :
    parseAlias (relativeRecords text) (relativeAliasFile F text) = .ok relativeAlias := by
  have hread : (relativeRecords text).readAlias text = .ok relativeAlias := if_pos rfl
  rw [parseAlias, relativeAliasFile, hread]

theorem relative_aliases :
    listAliases (relativeRecords text) (relativeHome F m text) = .ok [relativeAlias] := by
  rw [listAliases, show (relativeHome F m text).aliasFiles = [relativeAliasFile F text] from rfl,
    readAliases, if_pos (show (relativeAliasFile F text).isFile = true from rfl), relative_parse]
  rfl

theorem relative_read :
    readPromotedSnapshot F (relativeRecords text) (relativeHome F m text)
      relativeAlias.snapshotPath = .ok (promoted F relativeAlias.snapshotPath m) := by
  rw [readPromotedSnapshot, relative_manifestAt F m text (relative_dirOf F m text (.inr rfl))]
  simp only [parseManifest, F.read_manifestPretty]

theorem relative_resolves :
    resolveSnapshotAlias F (relativeRecords text) (relativeHome F m text) "m" =
      .ok (promoted F relativeAlias.snapshotPath m) := by
  have hfind : (relativeHome F m text).aliasFiles.find? (·.name = aliasFileName F "m") =
      some (relativeAliasFile F text) := List.find?_cons_of_pos (decide_eq_true rfl)
  have hvalid : validateAlias "m" = .ok () := ensure_ok.2 (by decide +kernel)
  rw [resolveSnapshotAlias, hvalid, ok_bind, hfind]
  simp only [relative_parse, ok_bind, relative_read]
  rfl

/-- Whatever alias resolves leads to the first snapshot. -/
theorem later_not_resolved (alias' : String) :
    ¬ResolvesTo F (relativeRecords text) (relativeHome F m text) alias' (promoted F laterRoot m) := by
  rintro ⟨r, hr, dir, hdir, hlater⟩
  obtain ⟨-, -, hr⟩ := bind_eq_ok.1 hr
  split at hr
  · cases hr
  · next file hfile =>
    obtain rfl := List.mem_singleton.1 (List.mem_of_find?_eq_some hfile)
    rw [relative_parse, ok_bind] at hr
    obtain ⟨-, -, hr⟩ := bind_eq_ok.1 hr
    rw [relative_read, ok_bind] at hr
    obtain rfl := Except.ok.inj hr
    rw [show (promoted F relativeAlias.snapshotPath m).path = relativeAlias.snapshotPath from rfl,
      relative_dirOf F m text (.inr rfl)] at hdir
    rw [show (promoted F laterRoot m).path = laterRoot from rfl, later_dirOf] at hlater
    rw [← hdir] at hlater
    cases hlater

theorem relative_plan (keepMin : ℕ) :
    prunePlan F (relativeRecords text) (relativeHome F m text) (keeping keepMin) =
      .ok (listedPlan (relativeRecords text) (relativeHome F m text) (keeping keepMin)
        [relativeAlias] [promoted F sampleRoot m, promoted F laterRoot m]) := by
  rw [prunePlan, relative_listed, ok_bind, relative_aliases, ok_bind]
  rfl

end Relative

def relativeAliasText : Bytes := ascii "\x7b\"schema_version\":1,\"alias\":\"m\",
\"snapshot_path\":\"huggingface/models--a--b/snapshots/c1.custom\",
\"manifest_digest\":null,\"updated_at\":\"1970-01-01T00:00:00Z\"\x7d"

def sampleRecords : Records String := relativeRecords relativeAliasText

def sampleHome : ModelHome String Bool :=
  relativeHome sampleFormats sampleManifest relativeAliasText

def samplePromoted : PromotedSnapshot String := promoted sampleFormats sampleRoot sampleManifest

def laterPromoted : PromotedSnapshot String := promoted sampleFormats laterRoot sampleManifest

theorem listSnapshots_sample :
    listSnapshots sampleFormats sampleRecords sampleHome = .ok [samplePromoted, laterPromoted] :=
  relative_listed _ _ _

theorem listAliases_sample : listAliases sampleRecords sampleHome = .ok [relativeAlias] :=
  relative_aliases _ _ _

theorem prunePlan_sample (keepMin : ℕ) :
    prunePlan sampleFormats sampleRecords sampleHome (keeping keepMin) =
      .ok (listedPlan sampleRecords sampleHome (keeping keepMin) [relativeAlias]
        [samplePromoted, laterPromoted]) :=
  relative_plan _ _ _ keepMin

/-- With one of each profile kept the plan is safe: the snapshot of the alias stays, and the other
can go. -/
theorem prune_safe_keeping_one :
    ∃ plan, prunePlan sampleFormats sampleRecords sampleHome (keeping 1) = .ok plan ∧
      laterRoot ∈ plan.candidates.map (·.path) ∧
      PruneSafe sampleFormats sampleRecords sampleHome (keeping 1) [samplePromoted, laterPromoted]
        plan := by
  have hkept : Kept sampleRecords sampleHome (keeping 1) [relativeAlias]
      [samplePromoted, laterPromoted] samplePromoted := by
    decide +kernel
  have hunkept : ¬Kept sampleRecords sampleHome (keeping 1) [relativeAlias]
      [samplePromoted, laterPromoted] laterPromoted := by
    decide +kernel
  refine ⟨_, prunePlan_sample 1, (mem_candidates_iff (by decide) (by simp)).2 ⟨rfl, hunkept⟩,
    (prune_safe_iff listSnapshots_sample listAliases_sample (prunePlan_sample 1)).2
      ⟨fun s hs _ hresolves => ?_, ?_⟩⟩
  · rcases List.mem_pair.1 hs with rfl | rfl
    · exact hkept
    · obtain ⟨alias', halias⟩ := hresolves
      exact absurd halias (later_not_resolved _ _ _ alias')
  · decide +kernel

/-- Without a minimum the snapshot that the alias resolves to is a candidate. -/
theorem relative_alias_not_seen :
    ∃ plan, prunePlan sampleFormats sampleRecords sampleHome (keeping 0) = .ok plan ∧
      ¬PruneSafe sampleFormats sampleRecords sampleHome (keeping 0) [samplePromoted, laterPromoted]
        plan := by
  refine ⟨_, prunePlan_sample 0, fun hsafe => ?_⟩
  have hunkept : ¬Kept sampleRecords sampleHome (keeping 0) [relativeAlias]
      [samplePromoted, laterPromoted] samplePromoted := by
    rintro (⟨a, ha, hpath⟩ | hmin | ⟨keepRecent, hkeep, -⟩)
    · obtain rfl := List.mem_singleton.1 ha
      revert hpath
      decide +kernel
    · exact absurd hmin (Nat.not_lt_zero _)
    · cases hkeep
  refine hsafe.aliased samplePromoted List.mem_cons_self ?_ "m"
    ⟨_, relative_resolves _ _ _, true, relative_dirOf _ _ _ (.inr rfl),
      relative_dirOf _ _ _ (.inl rfl)⟩
  exact (mem_candidates_iff (by decide) List.mem_cons_self).2 ⟨rfl, hunkept⟩

end KirAi.Hub
