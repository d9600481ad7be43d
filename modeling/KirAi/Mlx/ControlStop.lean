/-
# The filter for control stop tokens

`llm-engine`, `mlx/sse.rs`: the MLX adapter takes the control stop tokens of a model family
out of the text that the server sends in fragments. `MlxControlStopFilter` keeps back the
longest end of the text that begins a token, and shows nothing from the first token on.

Whatever the fragments, what was shown and what is kept back is the text, and no token begins
in what was shown (`Follows`). The first token to be complete decides, which is the first
token to start if none is a part of another.

Key definitions: `MlxControlStopFilter`, `MlxControlStopFilter.run`.
Key theorems: `MlxControlStopFilter.pushStr_follows`, `MlxControlStopFilter.control_filter_exact`.
-/
import KirAi.Lib.Pending
import KirAi.Runtime.Stop
import KirAi.Runtime.ToolMarkup

namespace KirAi.Mlx

open Lib Lib.Text
open KirAi.Runtime (Str ModelFamily)

/-! ### The tokens of the families -/

def mlxQwenControlStopTokens : List Str := ["<|im_end|>".toList, "<|endoftext|>".toList]

def mlxDeepseekControlStopTokens : List Str :=
  ["<｜end▁of▁sentence｜>".toList, "<｜User｜>".toList, "<|endoftext|>".toList]

def mlxGemmaControlStopTokens : List Str :=
  ["<turn|>".toList, "<|tool_response>".toList, "<eos>".toList, "<|endoftext|>".toList]

def mlxLlamaControlStopTokens : List Str := ["<|eot_id|>".toList, "<|end_of_text|>".toList]

/-- `mlx_control_stop_tokens_for_metadata`, after the family is read. -/
def mlxControlStopTokens : Option ModelFamily → List Str
  | some .deepSeek => mlxDeepseekControlStopTokens
  | some .gemma => mlxGemmaControlStopTokens
  | some .llama => mlxLlamaControlStopTokens
  | some .qwen | none => mlxQwenControlStopTokens

/-- No token is a part of another. -/
def NoneWithin (stopTokens : List Str) : Prop :=
  ∀ p ∈ stopTokens, ∀ q ∈ stopTokens, q ≠ p → ¬q <:+: p

theorem noneWithin_of_all {stopTokens : List Str}
    (h : (stopTokens.all fun p => stopTokens.all fun q => q == p || decide (¬q <:+: p)) = true) :
    NoneWithin stopTokens := by
  intro p hp q hq hne
  have hpq := List.all_eq_true.1 (List.all_eq_true.1 h p hp) q hq
  rw [Bool.or_eq_true, beq_iff_eq, decide_eq_true_eq] at hpq
  exact hpq.resolve_left hne

/-- The tokens of every family are texts of which none is a part of another. -/
theorem mlxControlStopTokens_apart (family : Option ModelFamily) :
    [] ∉ mlxControlStopTokens family ∧ NoneWithin (mlxControlStopTokens family) := by
  rcases family with _ | family
  · exact ⟨by decide +kernel, noneWithin_of_all (by decide +kernel)⟩
  · cases family <;> exact ⟨by decide +kernel, noneWithin_of_all (by decide +kernel)⟩

/-! ### The filter -/

structure MlxControlStopFilter where
  stopTokens : List Str
  pending : Str := []
  stopped : Bool := false
deriving DecidableEq, Repr

namespace MlxControlStopFilter

def new (stopTokens : List Str) : MlxControlStopFilter := { stopTokens }

def isStopped (f : MlxControlStopFilter) : Bool := f.stopped

/-- Where a token is found first, and how long it is; of two in one place, the first. -/
def firstStopToken (f : MlxControlStopFilter) : Option (ℕ × ℕ) :=
  (f.stopTokens.filterMap fun token =>
    (find token f.pending).map fun index => (index, len token)).argmin Prod.fst

def pendingStopPrefixLen (f : MlxControlStopFilter) : ℕ :=
  ((f.stopTokens.flatMap (pendingLens · f.pending)).max?).getD 0

def pushStr (f : MlxControlStopFilter) (text : Str) : MlxControlStopFilter × Str :=
  if f.stopped || text.isEmpty then (f, [])
  else
    let pending := f.pending ++ text
    let f := { f with pending }
    match f.firstStopToken with
    | some (index, _) => ({ f with stopped := true, pending := [] }, takeTo pending index)
    | none =>
      let withheld := f.pendingStopPrefixLen
      if withheld = len pending then (f, [])
      else
        let splitAt := len pending - withheld
        ({ f with pending := dropTo pending splitAt }, takeTo pending splitAt)

def finish (f : MlxControlStopFilter) : MlxControlStopFilter × Str :=
  if f.stopped then ({ f with pending := [] }, []) else ({ f with pending := [] }, f.pending)

/-- One fragment after the other, with the text that is released. -/
def pushAll (f : MlxControlStopFilter) : List Str → MlxControlStopFilter × Str
  | [] => (f, [])
  | text :: texts =>
    let (f, out) := f.pushStr text
    let (f, rest) := f.pushAll texts
    (f, out ++ rest)

/-- A new filter is given the fragments and is then flushed. -/
def run (stopTokens : List Str) (texts : List Str) : MlxControlStopFilter × Str :=
  let (f, out) := (new stopTokens).pushAll texts
  let (f, last) := f.finish
  (f, out ++ last)

/-! ### What was shown -/

theorem firstStopToken_some {f : MlxControlStopFilter} {i n : ℕ}
    (h : f.firstStopToken = some (i, n)) : IsLeast (hits f.stopTokens f.pending) i := by
  constructor
  · obtain ⟨token, htoken, heq⟩ := List.mem_filterMap.1 (List.argmin_mem h)
    obtain ⟨index, hfind, hpair⟩ := Option.map_eq_some_iff.1 heq
    obtain ⟨rfl, -⟩ := Prod.mk.inj hpair
    exact ⟨token, htoken, (find_eq_some_iff.1 hfind).1⟩
  · rintro j ⟨token, htoken, hj⟩
    obtain ⟨k, hk⟩ : ∃ k, find token f.pending = some k := by
      refine Option.ne_none_iff_exists'.1 fun hnone => ?_
      exact find_eq_none_iff.1 hnone j hj
    have hmem : (k, len token) ∈ f.stopTokens.filterMap fun token =>
        (find token f.pending).map fun index => (index, len token) :=
      List.mem_filterMap.2 ⟨token, htoken, by rw [hk]; rfl⟩
    have hik : i ≤ k := List.le_of_mem_argmin hmem h
    exact hik.trans ((find_eq_some_iff.1 hk).2 hj)

theorem firstStopToken_none {f : MlxControlStopFilter} (h : f.firstStopToken = none) :
    hits f.stopTokens f.pending = ∅ := by
  refine Set.eq_empty_of_forall_notMem ?_
  rintro j ⟨token, htoken, hj⟩
  have hnone := List.filterMap_eq_nil_iff.1 (List.argmin_eq_none.1 h) token htoken
  exact find_eq_none_iff.1 (Option.map_eq_none_iff.1 hnone) j hj

/-- The filter after a text, of which `out` was released. -/
inductive Follows (stopTokens : List Str) : Str → Str → MlxControlStopFilter → Prop
  | reading {out pending : Str} (settled : Settled stopTokens out pending)
      (free : out ++ pending ≠ [] → hits stopTokens (out ++ pending) = ∅) :
      Follows stopTokens (out ++ pending) out ⟨stopTokens, pending, false⟩
  | stopped {text : Str} {index : ℕ} (first : IsLeast (hits stopTokens text) index) :
      Follows stopTokens text (takeTo text index) ⟨stopTokens, [], true⟩

theorem new_follows (stopTokens : List Str) : Follows stopTokens [] [] (new stopTokens) := by
  refine @Follows.reading stopTokens [] [] ?_ fun h => absurd rfl h
  intro z hz hzs
  exact absurd (List.suffix_nil.1 hzs) hz

/-- The end that is kept back is the whole of what was pending, or the filter shows the text
before it. -/
theorem pushStr_waits {stopTokens : List Str} {pending text : Str} (htext : text ≠ [])
    (h : firstStopToken ⟨stopTokens, pending ++ text, false⟩ = none) :
    ∃ x y, pending ++ text = x ++ y ∧ Settled stopTokens x y ∧
      pushStr ⟨stopTokens, pending, false⟩ text = (⟨stopTokens, y, false⟩, x) := by
  have hempty := firstStopToken_none h
  have hfree : ∀ token ∈ stopTokens, ¬token <:+: pending ++ text := by
    intro token htoken hin
    have hsome := hits_nonempty_iff.2 ⟨token, htoken, hin⟩
    exact hsome.ne_empty hempty
  obtain ⟨x, y, hxy, hlen, hsettled⟩ := (withholds_max stopTokens (pending ++ text)).settled hfree
  refine ⟨x, y, hxy, hsettled, ?_⟩
  have hwithheld : pendingStopPrefixLen ⟨stopTokens, pending ++ text, false⟩ = len y := hlen.symm
  have hnil : text.isEmpty = false := by simpa using htext
  simp only [pushStr, hnil, Bool.or_false, Bool.false_eq_true, if_false, h, hwithheld]
  rw [hxy, len_append]
  by_cases hx : x = []
  · subst hx
    simp
  · have hpos : len x ≠ 0 := len_eq_zero.not.2 hx
    rw [if_neg (by omega), Nat.add_sub_cancel, takeTo_append, dropTo_append]

theorem pushStr_stops {stopTokens : List Str} {pending text : Str} {i n : ℕ} (htext : text ≠ [])
    (h : firstStopToken ⟨stopTokens, pending ++ text, false⟩ = some (i, n)) :
    pushStr ⟨stopTokens, pending, false⟩ text =
      (⟨stopTokens, [], true⟩, takeTo (pending ++ text) i) := by
  have hnil : text.isEmpty = false := by simpa using htext
  simp only [pushStr, hnil, Bool.or_false, Bool.false_eq_true, if_false, h]

/-- The text before an offset past the part that was shown. -/
theorem takeTo_add {out pending : Str} {stopTokens : List Str} {i : ℕ}
    (h : i ∈ hits stopTokens pending) :
    takeTo (out ++ pending) (len out + i) = out ++ takeTo pending i := by
  obtain ⟨token, -, u, v, rfl, rfl⟩ := h
  have hfull := takeTo_append (out ++ u) (token ++ v)
  rw [len_append] at hfull
  rw [List.append_assoc u, takeTo_append, ← List.append_assoc, hfull]

/-- One fragment. -/
theorem pushStr_follows {stopTokens : List Str} (hapart : NoneWithin stopTokens)
    {before out : Str} {f : MlxControlStopFilter} (h : Follows stopTokens before out f)
    (text : Str) :
    Follows stopTokens (before ++ text) (out ++ (f.pushStr text).2) (f.pushStr text).1 := by
  by_cases htext : text = []
  · subst htext
    have hsame : f.pushStr [] = (f, []) := by simp [pushStr]
    rw [hsame, List.append_nil, List.append_nil]
    exact h
  · cases h with
    | stopped first =>
      have hsame : pushStr ⟨stopTokens, [], true⟩ text = (⟨stopTokens, [], true⟩, []) := rfl
      rw [hsame, List.append_nil]
      obtain ⟨token, -, hocc⟩ := first.1
      rw [← takeTo_append_of_isBoundary hocc.isBoundary text]
      exact .stopped (isLeast_hits_append hapart first text)
    | @reading _ pending settled free =>
      rw [List.append_assoc]
      cases hfirst : firstStopToken ⟨stopTokens, pending ++ text, false⟩ with
      | some found =>
        have hleast : IsLeast (hits stopTokens (pending ++ text)) found.1 :=
          firstStopToken_some hfirst
        rw [pushStr_stops htext hfirst]
        dsimp only
        rw [← takeTo_add hleast.1]
        exact .stopped ((settled.append text).isLeast_hits hleast)
      | none =>
        have hempty : hits stopTokens (pending ++ text) = ∅ := firstStopToken_none hfirst
        obtain ⟨x, y, hxy, hx, hpush⟩ := pushStr_waits htext hfirst
        rw [hpush, hxy, ← List.append_assoc]
        have hsettled := settled.append text
        rw [hxy] at hsettled hempty
        have hshown := hsettled.concat hx
        refine .reading hshown fun _ => ?_
        rw [List.append_assoc]
        exact hsettled.hits_eq_empty hempty

theorem pushAll_follows {stopTokens : List Str} (hapart : NoneWithin stopTokens) :
    ∀ {texts : List Str} {before out : Str} {f : MlxControlStopFilter},
      Follows stopTokens before out f →
      Follows stopTokens (before ++ texts.flatten) (out ++ (f.pushAll texts).2) (f.pushAll texts).1
  | [], before, out, f, h => by simpa [pushAll] using h
  | text :: texts, before, out, f, h => by
    have hrest := @pushAll_follows stopTokens hapart texts _ _ _ (pushStr_follows hapart h text)
    rw [List.append_assoc, List.append_assoc] at hrest
    exact hrest

/-- **The filter shows the text before the first stop token.** -/
theorem control_filter_exact {stopTokens : List Str} (hapart : NoneWithin stopTokens)
    (texts : List Str) (hne : [] ∉ stopTokens ∨ texts.flatten ≠ []) :
    (∀ index, IsLeast (hits stopTokens texts.flatten) index →
      (run stopTokens texts).2 = takeTo texts.flatten index) ∧
    (hits stopTokens texts.flatten = ∅ → (run stopTokens texts).2 = texts.flatten) ∧
    ((run stopTokens texts).1.isStopped = true ↔ (hits stopTokens texts.flatten).Nonempty) := by
  have hrun : run stopTokens texts =
      (((new stopTokens).pushAll texts).1.finish.1,
        ((new stopTokens).pushAll texts).2 ++ ((new stopTokens).pushAll texts).1.finish.2) := rfl
  have h := @pushAll_follows stopTokens hapart texts _ _ _ (new_follows stopTokens)
  rw [List.nil_append, List.nil_append] at h
  rw [hrun]
  generalize ((new stopTokens).pushAll texts).1 = f at h ⊢
  generalize ((new stopTokens).pushAll texts).2 = out at h ⊢
  generalize texts.flatten = text at h hne ⊢
  cases h with
  | stopped first =>
    simp only [finish, isStopped, if_true, List.append_nil]
    refine ⟨fun index hindex => ?_, fun hnone => ?_, fun _ => ⟨_, first.1⟩, fun _ => trivial⟩
    · rw [first.unique hindex]
    · exact absurd hnone (Set.nonempty_of_mem first.1).ne_empty
  | @reading _ pending settled free =>
    have hfree : hits stopTokens (out ++ pending) = ∅ := by
      by_cases hnil : out ++ pending = []
      · rw [hnil]
        exact Runtime.hits_nil fun token htoken htnil =>
          hne.resolve_right (not_not.2 hnil) (htnil ▸ htoken)
      · exact free hnil
    simp only [finish, isStopped, Bool.false_eq_true, if_false, hfree, Set.not_nonempty_empty]
    exact ⟨fun index hindex => absurd hindex.1 (Set.notMem_empty index), fun _ => trivial, trivial⟩

/-- A token that is cut in two between the fragments. -/
theorem control_filter_at_cut_token :
    (run mlxQwenControlStopTokens
      ["a<|im".toList, "_<|im_e".toList, "nd|>b".toList]).1.isStopped = true :=
  (control_filter_exact (mlxControlStopTokens_apart none).2
    ["a<|im".toList, "_<|im_e".toList, "nd|>b".toList] (.inl (mlxControlStopTokens_apart none).1)).2.2.2
    (hits_nonempty_iff.2 ⟨"<|im_end|>".toList, by decide +kernel, by decide +kernel⟩)

end MlxControlStopFilter

end KirAi.Mlx
