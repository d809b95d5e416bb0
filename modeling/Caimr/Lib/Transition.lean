import Mathlib.Data.List.Induction

/-! Runs of a system given by a partial step function. A step takes a state and a
label, and is `none` where the label is not enabled; a run is a list of labels
that are enabled one after the other. Everything here is about any such system. -/
namespace Caimr.Transition

variable {S T L K : Type}

/-- The state a list of labels leads to, if each of them is enabled in its turn. -/
def exec (step : S → L → Option S) : S → List L → Option S
  | s, [] => some s
  | s, l :: rest => (step s l).bind fun t => exec step t rest

section Runs
variable {step : S → L → Option S}

@[simp] theorem exec_nil (s : S) : exec step s [] = some s := rfl

theorem exec_cons (s : S) (l : L) (rest : List L) :
    exec step s (l :: rest) = (step s l).bind fun t => exec step t rest := rfl

theorem exec_cons_some {s u : S} {l : L} {rest : List L} :
    exec step s (l :: rest) = some u ↔ ∃ t, step s l = some t ∧ exec step t rest = some u := by
  rw [exec_cons]
  exact Option.bind_eq_some_iff

theorem exec_append (s : S) (a b : List L) :
    exec step s (a ++ b) = (exec step s a).bind fun t => exec step t b := by
  induction a generalizing s with
  | nil => rfl
  | cons l rest ih =>
    rw [List.cons_append, exec_cons, exec_cons]
    cases step s l with
    | none => rfl
    | some t => exact ih t

/-- A run splits at any point. -/
theorem exec_split {s u : S} {a b : List L} :
    exec step s (a ++ b) = some u ↔ ∃ t, exec step s a = some t ∧ exec step t b = some u := by
  rw [exec_append]
  exact Option.bind_eq_some_iff

theorem exec_snoc {s u : S} {a : List L} {l : L} :
    exec step s (a ++ [l]) = some u ↔ ∃ t, exec step s a = some t ∧ step t l = some u := by
  rw [exec_split]
  simp [exec_cons_some]

/-- A run seen at one of its labels: the states before and after it. -/
theorem exec_at {s u : S} {a b : List L} {l : L} (h : exec step s (a ++ l :: b) = some u) :
    ∃ t t', exec step s a = some t ∧ step t l = some t' ∧ exec step t' b = some u := by
  obtain ⟨t, ha, hb⟩ := exec_split.mp h
  obtain ⟨t', hl, hb⟩ := exec_cons_some.mp hb
  exact ⟨t, t', ha, hl, hb⟩

/-- Induction on a run, from its start: `P` may speak of the labels so far. -/
theorem run_induction {s₀ : S} (P : List L → S → Prop) (start : P [] s₀)
    (next : ∀ tr s l t, exec step s₀ tr = some s → P tr s → step s l = some t → P (tr ++ [l]) t)
    {tr : List L} {s : S} (h : exec step s₀ tr = some s) : P tr s := by
  induction tr using List.reverseRecOn generalizing s with
  | nil =>
    cases h
    exact start
  | append_singleton tr l ih =>
    obtain ⟨t, ht, hl⟩ := exec_snoc.mp h
    exact next tr t l s ht (ih ht) hl

/-- What every step preserves, a run preserves, from wherever it starts. -/
theorem exec_preserves {I : S → Prop} (keep : ∀ s l t, I s → step s l = some t → I t)
    {s t : S} {tr : List L} (hs : I s) (h : exec step s tr = some t) : I t :=
  run_induction (fun _ u => I u) hs (fun _ u l v _ hu hl => keep u l v hu hl) h

/-- A run of a system is one of any system that has all its steps. -/
theorem exec_mono {step' : S → L → Option S} (sub : ∀ s l t, step' s l = some t → step s l = some t) {s t : S}
    {tr : List L} (h : exec step' s tr = some t) : exec step s tr = some t :=
  run_induction (fun tr u => exec step s tr = some u) rfl
    (fun _ u l v _ hu hl => exec_snoc.mpr ⟨u, hu, sub u l v hl⟩) h

/-- A run in which `p` happens, cut where it happens last. -/
theorem exists_last {p : L → Prop} {tr : List L} (h : ∃ l ∈ tr, p l) :
    ∃ a l b, tr = a ++ l :: b ∧ p l ∧ ∀ k ∈ b, ¬ p k := by
  induction tr using List.reverseRecOn with
  | nil =>
    obtain ⟨l, hl, -⟩ := h
    exact absurd hl List.not_mem_nil
  | append_singleton tr l ih =>
    by_cases hl : p l
    · exact ⟨tr, l, [], rfl, hl, fun k hk => absurd hk List.not_mem_nil⟩
    · obtain ⟨k, hk, hpk⟩ := h
      rcases List.mem_append.mp hk with hk | hk
      · obtain ⟨a, m, b, rfl, hm, hb⟩ := ih ⟨k, hk, hpk⟩
        refine ⟨a, m, b ++ [l], by simp, hm, fun k hk => ?_⟩
        rcases List.mem_append.mp hk with hk | hk
        · exact hb k hk
        · rwa [List.mem_singleton.mp hk]
      · rw [List.mem_singleton.mp hk] at hpk
        exact absurd hpk hl

/-- A place in the second of two lists, or in the first. -/
theorem append_eq_append_cons {p q a b : List L} {l : L} (h : p ++ q = a ++ l :: b) :
    (∃ q₁, q = q₁ ++ l :: b ∧ a = p ++ q₁) ∨ ∃ p₂, p = a ++ l :: p₂ ∧ b = p₂ ++ q := by
  rcases List.append_eq_append_iff.mp h with ⟨q₁, ha, hq⟩ | ⟨p₂, hp, hb⟩
  · exact .inl ⟨q₁, hq, ha⟩
  · cases p₂ with
    | nil => exact .inl ⟨[], hb.symm, by rw [hp, List.append_nil, List.append_nil]⟩
    | cons m p₂ =>
      cases hb
      exact .inr ⟨p₂, hp, rfl⟩

/-! ### Runs whose steps all obey a rule -/

/-- Every step of the run from `s₀` is taken in a state where `Rule` allows it. -/
def Along (step : S → L → Option S) (Rule : S → L → Prop) (s₀ : S) (tr : List L) : Prop :=
  ∀ a l b s, tr = a ++ l :: b → exec step s₀ a = some s → Rule s l

variable {Rule : S → L → Prop}

theorem Along.of_append {s₀ : S} {a b : List L} (h : Along step Rule s₀ (a ++ b)) :
    Along step Rule s₀ a := by
  intro p l q s he hs
  exact h p l (q ++ b) s (by simp [he]) hs

theorem Along.last {s₀ s : S} {tr : List L} {l : L} (h : Along step Rule s₀ (tr ++ [l]))
    (hs : exec step s₀ tr = some s) : Rule s l :=
  h tr l [] s rfl hs

theorem along_nil {s₀ : S} : Along step Rule s₀ [] := by
  intro a l b s he
  cases a <;> cases he

theorem along_cons {s₀ : S} {l : L} {tr : List L} :
    Along step Rule s₀ (l :: tr) ↔ Rule s₀ l ∧ ∀ t, step s₀ l = some t → Along step Rule t tr := by
  constructor
  · intro h
    refine ⟨h [] l tr s₀ rfl rfl, fun t ht a k b s he hs => ?_⟩
    exact h (l :: a) k b s (by rw [he]; rfl) (exec_cons_some.mpr ⟨t, ht, hs⟩)
  · intro ⟨hl, hrest⟩ a k b s he hs
    cases a with
    | nil =>
      cases he
      cases hs
      exact hl
    | cons m a =>
      cases he
      obtain ⟨t, ht, hs⟩ := exec_cons_some.mp hs
      exact hrest t ht a k b s rfl hs

/-- Whether a given run obeys a rule can be decided by running it. -/
instance decidableAlong [∀ s l, Decidable (Rule s l)] :
    (s : S) → (tr : List L) → Decidable (Along step Rule s tr)
  | _, [] => .isTrue along_nil
  | s, l :: tr =>
    match h : step s l with
    | none => decidable_of_iff (Rule s l) (by simp [along_cons, h])
    | some t =>
      have := decidableAlong t tr
      decidable_of_iff (Rule s l ∧ Along step Rule t tr) (by simp [along_cons, h])

/-- Induction on a run whose steps obey the rule. -/
theorem rule_induction {s₀ : S} (P : List L → S → Prop) (start : P [] s₀)
    (next : ∀ tr s l t, exec step s₀ tr = some s → P tr s → Rule s l → step s l = some t →
      P (tr ++ [l]) t)
    {tr : List L} {s : S} (h : exec step s₀ tr = some s) (hr : Along step Rule s₀ tr) : P tr s := by
  refine run_induction (fun tr s => Along step Rule s₀ tr → P tr s) (fun _ => start) ?_ h hr
  intro tr s l t hs ih hl hr
  exact next tr s l t hs (ih hr.of_append) (hr.last hs) hl

/-- Where a step keeps `I` exactly if it obeys `Rule'`, a run stays in `I` exactly if
all its steps do. -/
theorem always_iff_along {I : S → Prop} {Rule' : S → L → Prop}
    (keep : ∀ s l t, I s → Rule s l → step s l = some t → (I t ↔ Rule' s l))
    {s₀ u : S} {tr : List L} (hs : I s₀) (h : exec step s₀ tr = some u) (hr : Along step Rule s₀ tr) :
    (∀ a b s, tr = a ++ b → exec step s₀ a = some s → I s) ↔ Along step Rule' s₀ tr := by
  induction tr generalizing s₀ with
  | nil =>
    refine ⟨fun _ => along_nil, fun _ a b s he ha => ?_⟩
    obtain ⟨rfl, -⟩ := List.append_eq_nil_iff.mp he.symm
    cases ha
    exact hs
  | cons l tr ih =>
    obtain ⟨t, hl, hrest⟩ := exec_cons_some.mp h
    obtain ⟨hrule, hr⟩ := along_cons.mp hr
    have hkey := keep s₀ l t hs hrule hl
    constructor
    · intro hall
      have ht : I t := hall [l] tr t rfl (exec_cons_some.mpr ⟨t, hl, rfl⟩)
      refine along_cons.mpr ⟨hkey.mp ht, fun t' ht' => ?_⟩
      rw [hl] at ht'
      cases ht'
      refine (ih ht hrest (hr t hl)).mp fun a b s he ha => ?_
      exact hall (l :: a) b s (by rw [he]; rfl) (exec_cons_some.mpr ⟨t, hl, ha⟩)
    · intro halong a b s he ha
      obtain ⟨hrule', halong⟩ := along_cons.mp halong
      cases a with
      | nil =>
        cases ha
        exact hs
      | cons k a =>
        cases he
        obtain ⟨t', ht', ha⟩ := exec_cons_some.mp ha
        rw [hl] at ht'
        cases ht'
        exact (ih (hkey.mpr hrule') hrest (hr t hl)).mpr (halong t hl) a b s rfl ha

/-- Two rules that agree wherever `I` holds are obeyed by the same runs, if either of them keeps `I`. -/
theorem along_iff_along {I : S → Prop} {P : L → Prop} {Rule' : S → L → Prop}
    (same : ∀ s l, I s → P l → (Rule s l ↔ Rule' s l)) (keep : ∀ s l t, I s → Rule' s l → step s l = some t → I t)
    {s₀ : S} {tr : List L} (hs : I s₀) (hp : ∀ l ∈ tr, P l) : Along step Rule s₀ tr ↔ Along step Rule' s₀ tr := by
  induction tr generalizing s₀ with
  | nil => exact ⟨fun _ => along_nil, fun _ => along_nil⟩
  | cons l tr ih =>
    rw [along_cons, along_cons, same s₀ l hs (hp l List.mem_cons_self)]
    refine and_congr_right fun hl => forall₂_congr fun t ht => ?_
    exact ih (keep s₀ l t hs hl ht) fun k hk => hp k (List.mem_cons_of_mem _ hk)

/-! ### Reaching a state -/

/-- Some run leads from `s` to a state of `P`. -/
def Reaches (step : S → L → Option S) (s : S) (P : S → Prop) : Prop := ∃ tr u, exec step s tr = some u ∧ P u

variable {P Q : S → Prop}

theorem Reaches.here {s : S} (h : P s) : Reaches step s P := ⟨[], s, rfl, h⟩

theorem Reaches.next {s t : S} {l : L} (hl : step s l = some t) (h : Reaches step t P) : Reaches step s P := by
  obtain ⟨tr, u, hu, hp⟩ := h
  exact ⟨l :: tr, u, exec_cons_some.mpr ⟨t, hl, hu⟩, hp⟩

theorem Reaches.trans {s : S} (h : Reaches step s P) (hq : ∀ t, P t → Reaches step t Q) : Reaches step s Q := by
  obtain ⟨tr, t, ht, hp⟩ := h
  obtain ⟨tr', u, hu, hq⟩ := hq t hp
  exact ⟨tr ++ tr', u, exec_split.mpr ⟨t, ht, hu⟩, hq⟩

end Runs

/-! ### Seeing one system in another -/

/-- Each step of one system, seen through `abs`, is a run of the other: whole runs
project, label by label. -/
theorem exec_project {step : S → L → Option S} {step' : T → K → Option T} {abs : S → T}
    {lab : L → List K}
    (sim : ∀ s l t, step s l = some t → exec step' (abs s) (lab l) = some (abs t))
    {s t : S} {tr : List L} (h : exec step s tr = some t) :
    exec step' (abs s) (tr.flatMap lab) = some (abs t) := by
  induction tr generalizing s with
  | nil =>
    cases h
    rfl
  | cons l rest ih =>
    obtain ⟨u, hl, hrest⟩ := exec_cons_some.mp h
    rw [List.flatMap_cons]
    exact exec_split.mpr ⟨abs u, sim s l u hl, ih hrest⟩

end Caimr.Transition
