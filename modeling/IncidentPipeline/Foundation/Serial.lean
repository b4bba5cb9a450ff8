import IncidentPipeline.Foundation.Commits

/-!
# Programs as functions of the state

Executed alone, a program that catches nothing takes a state to a value and a new state, or it
raises. `Computes` says which, whatever a transaction that raises has done before, since that
is rolled back.
-/

namespace Transactions

variable {C D O ε α β ρ : Type}

namespace Prog

/-- Executed alone on `d`, the program has the given outcome. -/
def Computes (sv : Server D O ε) (context : C) (p : Prog C D O ε α) (d : D) :
    Except ε (α × D) → Prop
  | .ok (a, d') => p.serial sv context ⟨d, false⟩ = (.ok a, ⟨d', false⟩)
  | .error e => (p.serial sv context ⟨d, false⟩).1 = .error e

variable {sv : Server D O ε} {context : C} {d d' : D}

theorem computes_bind_ok {p : Prog C D O ε α} {f : α → Prog C D O ε β} {a : α}
    {r : Except ε (β × D)} (first : p.Computes sv context d (.ok (a, d')))
    (rest : (f a).Computes sv context d' r) : (p.bind f).Computes sv context d r := by
  have returned : p.serial sv context ⟨d, false⟩ = (.ok a, ⟨d', false⟩) := first
  have same : (p.bind f).serial sv context ⟨d, false⟩ = (f a).serial sv context ⟨d', false⟩ := by
    rw [serial_bind, returned]
  cases r with
  | ok out => exact same.trans rest
  | error e => exact (congrArg Prod.fst same).trans rest

theorem computes_bind_error {p : Prog C D O ε α} {f : α → Prog C D O ε β} {e : ε}
    (first : p.Computes sv context d (.error e)) :
    (p.bind f).Computes sv context d (.error e) := by
  have raised : (p.serial sv context ⟨d, false⟩).1 = .error e := first
  show ((p.bind f).serial sv context ⟨d, false⟩).1 = .error e
  rw [serial_bind, raised]

/-- A statement that the driver refuses. -/
theorem computes_refused {s : Statement C D O ε ρ} {e : ε} (refused : s.refused = some e) :
    (execute s).Computes sv context d (.error e) := by
  show ((execute s).serial sv context ⟨d, false⟩).1 = .error e
  rw [serial_execute, Server.answer, refused]

/-- A statement that the server executes. -/
theorem computes_execute {s : Statement C D O ε ρ} {reply : ρ} {ops : List O}
    (sent : s.refused = none) (answer : s.run context d = .ok (reply, ops))
    (written : sv.replay ops d = .ok d') :
    (execute s).Computes sv context d (.ok (reply, d')) :=
  serial_execute_ok sent answer written

/-- A statement that the server rejects. -/
theorem computes_rejected {s : Statement C D O ε ρ} {e : ε} (sent : s.refused = none)
    (answer : s.run context d = .error e) : (execute s).Computes sv context d (.error e) := by
  show ((execute s).serial sv context ⟨d, false⟩).1 = .error e
  rw [serial_execute, Server.answer, sent]
  simp [answer]

/-- What the operations of a program keep is kept by the program executed alone. -/
theorem Writes.serial_keeps {P : O → Prop} {I : D → Prop} {p : Prog C D O ε α} (writes : p.Writes P)
    (kept : ∀ {o d d'}, P o → sv.apply o d = .ok d' → I d → I d') {st : Local D} (start : I st.db) :
    I (p.serial sv context st).2.db := by
  induction p generalizing st with
  | ret r => exact start
  | stmt s next ih =>
      refine ih _ (writes.2 _) ?_
      rw [Server.answer]
      cases s.refused with
      | some e => exact start
      | none =>
          by_cases aborted : st.aborted = true
          · simp [aborted, start]
          · cases answer : s.run context st.db with
            | error e => simp [aborted, start]
            | ok sent =>
                cases written : sv.replay sent.2 st.db with
                | error e => simp [aborted, written, start]
                | ok d' =>
                    simp only [aborted, written]
                    exact Server.replay_keeps kept (writes.1 _ _ _ _ answer) written start

/-- Also as a transaction of its own, whether it commits or not. -/
theorem Writes.transact_keeps {P : O → Prop} {I : D → Prop} {p : Prog C D O ε α}
    (writes : p.Writes P) (kept : ∀ {o d d'}, P o → sv.apply o d = .ok d' → I d → I d')
    (start : I d) : I (p.transact sv context d).2 := by
  have ended : I (p.serial sv context ⟨d, false⟩).2.db := writes.serial_keeps kept start
  rw [transact]
  generalize p.serial sv context ⟨d, false⟩ = out at ended
  obtain ⟨result, st⟩ := out
  cases result with
  | error e => exact start
  | ok a =>
      dsimp only
      split
      · exact start
      · exact ended

/-- How the transaction of a program ends that has the given outcome. -/
def commit (d : D) : Except ε (α × D) → Except ε α × D
  | .ok (a, d') => (.ok a, d')
  | .error e => (.error e, d)

/-- The transaction commits what has been computed, or nothing. -/
theorem Computes.transact {p : Prog C D O ε α} {r : Except ε (α × D)}
    (computes : p.Computes sv context d r) : p.transact sv context d = commit d r := by
  rw [Prog.transact]
  cases r with
  | ok out =>
      have returned : p.serial sv context ⟨d, false⟩ = (.ok out.1, ⟨out.2, false⟩) := computes
      rw [returned]
      rfl
  | error e =>
      have raised : (p.serial sv context ⟨d, false⟩).1 = .error e := computes
      generalize p.serial sv context ⟨d, false⟩ = out at raised
      obtain ⟨result, st⟩ := out
      obtain rfl : result = .error e := raised
      rfl

end Prog

end Transactions
