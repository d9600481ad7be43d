/-
# Computations that may fail

When a computation in `Except` answers `ok`: a sequence does when both parts
do, a guarded throw when the guard does not hold. With these as simp lemmas a
successful run of a `do` block falls apart into the facts its guards checked. A
loop that collects answers succeeds round by round (`collect_ok`), and so does
one whose rounds share a budget (`traverse_succeeds`).
-/
import Mathlib.Algebra.Ring.Nat
import Mathlib.Data.List.Forall2
import Mathlib.Tactic.Common

namespace KirAi.Lib

variable {ε α β : Type}

@[simp] theorem throw_eq_ok {e : ε} {a : α} : (throw e : Except ε α) = .ok a ↔ False :=
  ⟨fun h => (by cases h), False.elim⟩

@[simp] theorem pure_eq_ok {a b : α} : (pure a : Except ε α) = .ok b ↔ a = b :=
  ⟨fun h => Except.ok.inj h, fun h => congrArg _ h⟩

@[simp] theorem throw_bind {e : ε} {f : α → Except ε β} :
    (throw e : Except ε α) >>= f = throw e := rfl

@[simp] theorem error_bind {e : ε} {f : α → Except ε β} :
    (Except.error e : Except ε α) >>= f = .error e := rfl

@[simp] theorem ok_bind {a : α} {f : α → Except ε β} : (Except.ok a : Except ε α) >>= f = f a := rfl

theorem mapError_eq_ok {ε' : Type} {x : Except ε α} {f : ε → ε'} {a : α} :
    x.mapError f = .ok a ↔ x = .ok a := by
  cases x <;> simp [Except.mapError]

theorem bind_eq_ok {x : Except ε α} {f : α → Except ε β} {b : β} :
    x >>= f = .ok b ↔ ∃ a, x = .ok a ∧ f a = .ok b := by
  cases x <;> simp

@[simp] theorem guard_eq_ok {c : Prop} [Decidable c] {e : ε} {x : Except ε α} {a : α} :
    (if c then throw e else x) = .ok a ↔ ¬ c ∧ x = .ok a := by
  by_cases h : c <;> simp [h]

@[simp] theorem else_throw_eq_ok {c : Prop} [Decidable c] {e : ε} {x : Except ε α} {a : α} :
    (if c then x else throw e) = .ok a ↔ c ∧ x = .ok a := by
  by_cases h : c <;> simp [h]

/-- A check and what is done after it. -/
theorem check_bind_eq_ok {x : Except ε Unit} {y : Except ε β} {b : β} :
    (x >>= fun _ => y) = .ok b ↔ x = .ok () ∧ y = .ok b := by
  rw [bind_eq_ok]
  exact ⟨fun ⟨_, hx, hy⟩ => ⟨hx, hy⟩, fun ⟨hx, hy⟩ => ⟨(), hx, hy⟩⟩

/-- A loop of checks succeeds just if every check does. -/
theorem forM_eq_ok_iff {f : α → Except ε Unit} : ∀ {as : List α},
    as.forM f = .ok () ↔ ∀ a ∈ as, f a = .ok ()
  | [] => ⟨fun _ _ h => absurd h List.not_mem_nil, fun _ => rfl⟩
  | a :: as => by
    have hcons : (a :: as).forM f = f a >>= fun _ => as.forM f := List.forM_cons
    rw [hcons, check_bind_eq_ok, List.forall_mem_cons, forM_eq_ok_iff]

/-- A loop keeps what each of its rounds keeps. -/
theorem foldlM_preserves {σ : Type} {f : σ → α → Except ε σ} {P : σ → Prop} : ∀ {as : List α} {s s' : σ},
    (∀ s a s', a ∈ as → P s → f s a = .ok s' → P s') → P s → as.foldlM f s = .ok s' → P s'
  | [], s, s', _, hs, h => by
    rw [List.foldlM_nil, pure_eq_ok] at h
    exact h ▸ hs
  | a :: as, s, s', hstep, hs, h => by
    rw [List.foldlM_cons] at h
    obtain ⟨s₁, hs₁, hrest⟩ := bind_eq_ok.1 h
    exact foldlM_preserves (fun s a s' ha => hstep s a s' (List.mem_cons_of_mem _ ha))
      (hstep s a s₁ (List.mem_cons_self ..) hs hs₁) hrest

/-- A property that each round keeps just if something holds of its element. -/
theorem foldlM_iff {σ : Type} {f : σ → α → Except ε σ} {P : σ → Prop} {Q : α → Prop} :
    ∀ {as : List α} {s s' : σ},
      (∀ s a s', a ∈ as → f s a = .ok s' → (P s' ↔ P s ∧ Q a)) → as.foldlM f s = .ok s' →
      (P s' ↔ P s ∧ ∀ a ∈ as, Q a)
  | [], s, s', _, h => by
    rw [List.foldlM_nil, pure_eq_ok] at h
    simp [h]
  | a :: as, s, s', hstep, h => by
    rw [List.foldlM_cons] at h
    obtain ⟨s₁, hs₁, hrest⟩ := bind_eq_ok.1 h
    rw [foldlM_iff (fun s a s' ha => hstep s a s' (List.mem_cons_of_mem _ ha)) hrest,
      hstep s a s₁ (List.mem_cons_self ..) hs₁, List.forall_mem_cons, and_assoc]

/-- A loop that collects what each element answers. -/
def collect (f : α → Except ε (List β)) : List α → Except ε (List β)
  | [] => pure []
  | a :: as => do
    let bs ← f a
    let rest ← collect f as
    pure (bs ++ rest)

/-- The loop succeeds when every round does; what the rounds answered is kept
apart, each beside the thing it answered for. -/
theorem collect_ok {γ : Type} {f : α → Except ε (List β)} {R : γ → α → Prop}
    {P : γ → List β → Prop} {cs : List γ} {as : List α} (hR : List.Forall₂ R cs as)
    (h : ∀ c ∈ cs, ∀ a, R c a → ∃ bs, f a = .ok bs ∧ P c bs) :
    ∃ parts, collect f as = .ok parts.flatten ∧ List.Forall₂ P cs parts := by
  induction hR with
  | nil => exact ⟨[], rfl, .nil⟩
  | cons ha _ ih =>
    obtain ⟨bs, hbs, hP⟩ := h _ (List.mem_cons_self ..) _ ha
    obtain ⟨parts, hparts, hall⟩ := ih fun c hc => h c (List.mem_cons_of_mem _ hc)
    refine ⟨bs :: parts, ?_, .cons hP hall⟩
    simp only [collect, hbs, hparts, ok_bind, List.flatten_cons]
    rfl

/-- A loop that hands a state from round to round and collects the answers. -/
def traverseWith {σ : Type} (f : α → σ → Except ε (β × σ)) : List α → σ → Except ε (List β × σ)
  | [], s => pure ([], s)
  | a :: as, s => do
    let (b, s) ← f a s
    let (bs, s) ← traverseWith f as s
    pure (b :: bs, s)

/-- The loop succeeds when every round does with what the rounds before left of a
budget: `used` grows by at most `cost` in a round. -/
theorem traverse_succeeds {σ : Type} {f : α → σ → Except ε (β × σ)} (R : α → β → Prop)
    (used : σ → ℕ) (cost : α → ℕ) {limit : ℕ} : ∀ (as : List α) (s : σ),
    (∀ a ∈ as, ∀ s, used s + cost a < limit →
      ∃ b s', f a s = .ok (b, s') ∧ R a b ∧ used s' ≤ used s + cost a) →
    used s + (as.map cost).sum < limit →
    ∃ bs s', traverseWith f as s = .ok (bs, s') ∧ List.Forall₂ R as bs ∧
      used s' ≤ used s + (as.map cost).sum
  | [], s, _, _ => ⟨[], s, rfl, .nil, by simp⟩
  | a :: as, s, h, hlt => by
    rw [List.map_cons, List.sum_cons] at hlt ⊢
    obtain ⟨b, s₁, hb, hR, hs₁⟩ := h a (List.mem_cons_self ..) s (by omega)
    obtain ⟨bs, s', hbs, hall, hs'⟩ := traverse_succeeds R used cost as s₁
      (fun a ha => h a (List.mem_cons_of_mem _ ha)) (show used s₁ + (as.map cost).sum < limit by omega)
    refine ⟨b :: bs, s', ?_, .cons hR hall, by omega⟩
    simp only [traverseWith, hb, hbs, ok_bind]
    rfl

/-- The elements that a loop collected, each with the one it came from. -/
theorem mem_of_mapM_ok {f : α → Except ε β} : ∀ {as : List α} {bs : List β},
    as.mapM f = .ok bs → ∀ b ∈ bs, ∃ a ∈ as, f a = .ok b
  | [], bs, h, b, hb => by
    rw [List.mapM_nil, pure_eq_ok] at h
    rw [← h] at hb
    cases hb
  | a :: as, bs, h, b, hb => by
    rw [List.mapM_cons] at h
    obtain ⟨b₀, hb₀, h⟩ := bind_eq_ok.1 h
    obtain ⟨rest, hrest, h⟩ := bind_eq_ok.1 h
    rw [pure_eq_ok] at h
    rw [← h] at hb
    rcases List.mem_cons.mp hb with rfl | hb
    · exact ⟨a, List.mem_cons_self .., hb₀⟩
    · obtain ⟨a', ha', hfa'⟩ := mem_of_mapM_ok hrest b hb
      exact ⟨a', List.mem_cons_of_mem _ ha', hfa'⟩

theorem forall₂_mem_right {R : α → β → Prop} {as : List α} {bs : List β}
    (h : List.Forall₂ R as bs) {b : β} (hb : b ∈ bs) : ∃ a ∈ as, R a b := by
  induction h with
  | nil => cases hb
  | cons hr _ ih =>
    rcases List.mem_cons.mp hb with rfl | hb
    · exact ⟨_, List.mem_cons_self .., hr⟩
    · obtain ⟨a, ha, hab⟩ := ih hb
      exact ⟨a, List.mem_cons_of_mem _ ha, hab⟩

theorem forall₂_mem_left {R : α → β → Prop} {as : List α} {bs : List β}
    (h : List.Forall₂ R as bs) {a : α} (ha : a ∈ as) : ∃ b ∈ bs, R a b :=
  forall₂_mem_right h.flip ha

end KirAi.Lib
