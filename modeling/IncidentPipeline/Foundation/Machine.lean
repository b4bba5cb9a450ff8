import Mathlib.Data.List.Perm.Basic
import Mathlib.Tactic

/-!
# Machines that answer

A machine takes one input at a time, answers it and moves on. Over a whole list of inputs: what
every step keeps holds at the end; what every step enters into a ledger is the ledger of the run;
inputs that are answered without a look at the state, and leave it alone, might as well not have
been there.
-/

namespace Machines

variable {σ α β γ : Type*}

/-- The answers to a list of inputs, and the state after the last. -/
def run (step : α → σ → β × σ) : List α → σ → List β × σ
  | [], s => ([], s)
  | a :: rest, s =>
      ((step a s).1 :: (run step rest (step a s).2).1, (run step rest (step a s).2).2)

variable {step : α → σ → β × σ}

@[simp] theorem run_nil (s : σ) : run step [] s = ([], s) := rfl

@[simp] theorem run_cons (a : α) (rest : List α) (s : σ) :
    run step (a :: rest) s =
      ((step a s).1 :: (run step rest (step a s).2).1, (run step rest (step a s).2).2) := rfl

theorem length_run (inputs : List α) (s : σ) : (run step inputs s).1.length = inputs.length := by
  induction inputs generalizing s with
  | nil => rfl
  | cons a rest ih => simp [ih]

/-- Each input with its answer. -/
def exchanges (step : α → σ → β × σ) (inputs : List α) (s : σ) : List (α × β) :=
  inputs.zip (run step inputs s).1

@[simp] theorem exchanges_nil (s : σ) : exchanges step [] s = [] := rfl

@[simp] theorem exchanges_cons (a : α) (rest : List α) (s : σ) :
    exchanges step (a :: rest) s = (a, (step a s).1) :: exchanges step rest (step a s).2 := rfl

section Allowed

variable {P : σ → Prop} {A : α → Prop} (kept : ∀ a s, A a → P s → P (step a s).2)

include kept in
/-- What every step keeps holds after the run. -/
theorem run_keeps (inputs : List α) (allowed : ∀ a ∈ inputs, A a) {s : σ} (start : P s) :
    P (run step inputs s).2 := by
  induction inputs generalizing s with
  | nil => exact start
  | cons a rest ih =>
      obtain ⟨mine, theirs⟩ := List.forall_mem_cons.mp allowed
      exact ih theirs (kept a s mine start)

include kept in
/-- The ledger of a run holds what was there before, and the entries of its steps. -/
theorem run_ledger {ledger : σ → List γ} {entries : α × β → List γ}
    (entered : ∀ a s, A a → P s →
      (ledger (step a s).2).Perm (ledger s ++ entries (a, (step a s).1)))
    (inputs : List α) (allowed : ∀ a ∈ inputs, A a) {s : σ} (start : P s) :
    (ledger (run step inputs s).2).Perm
      (ledger s ++ (exchanges step inputs s).flatMap entries) := by
  induction inputs generalizing s with
  | nil => simp
  | cons a rest ih =>
      obtain ⟨mine, theirs⟩ := List.forall_mem_cons.mp allowed
      have later := ih theirs (kept a s mine start)
      have first := (entered a s mine start).append_right
        ((exchanges step rest (step a s).2).flatMap entries)
      rw [List.append_assoc] at first
      exact later.trans first

include kept in
/-- What a step makes true of its answer, and no step undoes, is true at the end of the run. -/
theorem run_remembers {Q : α × β → σ → Prop}
    (said : ∀ a s, A a → P s → Q (a, (step a s).1) (step a s).2)
    (stays : ∀ x a s, A a → P s → Q x s → Q x (step a s).2) (inputs : List α)
    (allowed : ∀ a ∈ inputs, A a) {s : σ} (start : P s) :
    ∀ x ∈ exchanges step inputs s, Q x (run step inputs s).2 := by
  induction inputs generalizing s with
  | nil => exact fun x member => by cases member
  | cons a rest ih =>
      intro x member
      obtain ⟨mine, theirs⟩ := List.forall_mem_cons.mp allowed
      obtain rfl | later := List.mem_cons.mp member
      · have both := @run_keeps _ _ _ step (fun e => P e ∧ Q (a, (step a s).1) e) A
          (fun b e may h => ⟨kept b e may h.1, stays _ b e may h.1 h.2⟩) rest theirs _
          ⟨kept a s mine start, said a s mine start⟩
        exact both.2
      · exact ih theirs (kept a s mine start) x later

include kept in
/-- A machine that shows the head of a queue with every answer, and removes what has been settled:
the answers go through the queue in its order. -/
theorem run_serves {queue : σ → List γ} {shown : β → Option γ} {settled : β → Nat}
    (head : ∀ a s, A a → P s → shown (step a s).1 = (queue s).head?)
    (rest : ∀ a s, A a → P s → queue (step a s).2 = (queue s).drop (settled (step a s).1))
    (inputs : List α) (allowed : ∀ a ∈ inputs, A a) {s : σ} (start : P s) :
    P (run step inputs s).2 ∧
      queue (run step inputs s).2 = (queue s).drop ((run step inputs s).1.map settled).sum ∧
      ∀ k < inputs.length, (run step inputs s).1[k]?.bind shown =
        (queue s)[(((run step inputs s).1.take k).map settled).sum]? := by
  induction inputs generalizing s with
  | nil => simpa using start
  | cons a others ih =>
      obtain ⟨mine, theirs⟩ := List.forall_mem_cons.mp allowed
      obtain ⟨reached, last, each⟩ := ih theirs (kept a s mine start)
      rw [rest a s mine start] at last each
      refine ⟨reached, by simpa using last, fun k inside => ?_⟩
      cases k with
      | zero => simp [head a s mine start, List.head?_eq_getElem?]
      | succ k => simpa using each k (Nat.lt_of_succ_lt_succ inside)

end Allowed

section Blind

variable {heard : α → Bool} {deaf : α → β}

/-- Inputs that are not heard change nothing for the others, or for the state. -/
theorem run_filter (blind : ∀ a s, heard a = false → step a s = (deaf a, s)) (inputs : List α)
    (s : σ) :
    (run step inputs s).2 = (run step (inputs.filter heard) s).2 ∧
      (exchanges step inputs s).filter (heard ·.1) =
        exchanges step (inputs.filter heard) s := by
  induction inputs generalizing s with
  | nil => exact ⟨rfl, rfl⟩
  | cons a rest ih =>
      cases hears : heard a with
      | true => simp [hears, ih]
      | false => simp [hears, blind a s hears, ih]

/-- An input that is not heard is answered out of itself. -/
theorem answer_of_deaf (blind : ∀ a s, heard a = false → step a s = (deaf a, s))
    (inputs : List α) {s : σ} {a : α} {b : β} (member : (a, b) ∈ exchanges step inputs s)
    (unheard : heard a = false) : b = deaf a := by
  induction inputs generalizing s with
  | nil => cases member
  | cons x rest ih =>
      obtain first | later := List.mem_cons.mp member
      · cases first
        rw [blind a s unheard]
      · exact ih later

end Blind

end Machines
