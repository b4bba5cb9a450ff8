import Mathlib.Tactic

/-!
# Labelled runs

The finite runs of a step relation with the labels of their steps, oldest first, and the
induction over a run whose labels meet a condition.
-/

namespace Traces

variable {S L : Type*} {step : S → L → S → Prop}

/-- A finite run and its labels. -/
inductive Trace (step : S → L → S → Prop) (s : S) : List L → S → Prop where
  | refl : Trace step s [] s
  | snoc {labels : List L} {middle finish : S} {label : L} :
      Trace step s labels middle → step middle label finish →
      Trace step s (labels ++ [label]) finish

namespace Trace

variable {s t u : S} {labels later : List L}

theorem single {label : L} (h : step s label t) : Trace step s [label] t := refl.snoc h

theorem trans (first : Trace step s labels t) (second : Trace step t later u) :
    Trace step s (labels ++ later) u := by
  induction second with
  | refl => simpa using first
  | snoc _ last ih =>
      rw [← List.append_assoc]
      exact ih.snoc last

/-- What every step with an allowed label keeps, a run with allowed labels keeps. -/
theorem keeps {P : S → Prop} {Q : L → Prop} (run : Trace step s labels t)
    (allowed : ∀ label ∈ labels, Q label) (start : P s)
    (kept : ∀ {a label b}, step a label b → Q label → P a → P b) : P t := by
  induction run with
  | refl => exact start
  | snoc _ last ih =>
      refine kept last (allowed _ (by simp)) (ih fun label member => ?_)
      exact allowed label (List.mem_append_left _ member)

/-- What every step keeps, every run keeps. -/
theorem invariant {P : S → Prop} (run : Trace step s labels t) (start : P s)
    (kept : ∀ {a label b}, step a label b → P a → P b) : P t :=
  run.keeps (Q := fun _ => True) (fun _ _ => trivial) start fun last _ => kept last

/-- A bound on the labels of one kind: each of them moves a measure by one, and no step
lowers it. -/
theorem countP_le {P : S → Prop} {Q : L → Prop} (counted : L → Bool) (measure : S → Nat)
    (run : Trace step s labels t) (allowed : ∀ label ∈ labels, Q label) (start : P s)
    (kept : ∀ {a label b}, step a label b → Q label → P a →
      P b ∧ measure a + (if counted label then 1 else 0) ≤ measure b) :
    P t ∧ measure s + labels.countP counted ≤ measure t := by
  induction run with
  | refl => exact ⟨start, by simp⟩
  | @snoc labels middle finish label _ last ih =>
      obtain ⟨holds, bound⟩ := ih fun label member => allowed label (List.mem_append_left _ member)
      obtain ⟨holds', moved⟩ := kept last (allowed label (by simp)) holds
      refine ⟨holds', ?_⟩
      rw [List.countP_append, List.countP_singleton]
      omega

end Trace

end Traces
