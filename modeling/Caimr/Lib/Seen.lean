import Caimr.Lib.Transition

/-! A run of one system as another one sees it. What a step means to the other system may
depend on the state it is taken in, and may be nothing. If the other system can always
follow, it follows whole runs. -/
namespace Caimr.Transition

variable {S T L K : Type}

/-- The labels that another system sees along a run, as far as the run goes. -/
def seen (step : S → L → Option S) (lab : S → L → List K) : S → List L → List K
  | _, [] => []
  | s, l :: rest =>
    match step s l with
    | some t => lab s l ++ seen step lab t rest
    | none => []

variable {step : S → L → Option S} {lab : S → L → List K}

theorem seen_cons {s t : S} {l : L} (rest : List L) (h : step s l = some t) :
    seen step lab s (l :: rest) = lab s l ++ seen step lab t rest := by
  rw [seen, h]

theorem seen_append {s t : S} {a : List L} (b : List L) (h : exec step s a = some t) :
    seen step lab s (a ++ b) = seen step lab s a ++ seen step lab t b := by
  induction a generalizing s with
  | nil =>
    cases h
    rfl
  | cons l rest ih =>
    obtain ⟨u, hl, hrest⟩ := exec_cons_some.mp h
    rw [List.cons_append, seen_cons _ hl, seen_cons _ hl, ih hrest, List.append_assoc]

theorem seen_snoc {s t u : S} {a : List L} {l : L} (h : exec step s a = some t) (hl : step t l = some u) :
    seen step lab s (a ++ [l]) = seen step lab s a ++ lab t l := by
  rw [seen_append [l] h, seen_cons _ hl, seen, List.append_nil]

/-- A run that obeys a rule, and then another that does. -/
theorem Along.append {Rule : S → L → Prop} {s t : S} {a b : List L} (ha : Along step Rule s a)
    (h : exec step s a = some t) (hb : Along step Rule t b) : Along step Rule s (a ++ b) := by
  intro p l q u he hu
  rcases append_eq_append_cons he with ⟨q₁, hq, rfl⟩ | ⟨p₂, hp, -⟩
  · obtain ⟨t', ht, hu⟩ := exec_split.mp hu
    rw [h] at ht
    cases ht
    exact hb q₁ l q u hq hu
  · exact ha p l p₂ u hp hu

/-- The rest of a run that obeys a rule. -/
theorem Along.after {Rule : S → L → Prop} {s t : S} {a b : List L} (h : Along step Rule s (a ++ b))
    (ha : exec step s a = some t) : Along step Rule t b := by
  intro p l q u he hu
  exact h (a ++ p) l q u (by simp [he]) (exec_split.mpr ⟨t, ha, hu⟩)

theorem along_single {Rule : S → L → Prop} {s : S} {l : L} (h : Rule s l) : Along step Rule s [l] :=
  along_cons.mpr ⟨h, fun _ _ => along_nil⟩

/-- A run extended by what is seen of one more step. -/
theorem exec_seen_snoc {step' : T → K → Option T} {s t u : S} {x y z : T} {a : List L} {l : L}
    (h : exec step s a = some t) (hl : step t l = some u)
    (hx : exec step' x (seen step lab s a) = some y) (hy : exec step' y (lab t l) = some z) :
    exec step' x (seen step lab s (a ++ [l])) = some z := by
  rw [seen_snoc h hl]
  exact exec_split.mpr ⟨y, hx, hy⟩

end Caimr.Transition
