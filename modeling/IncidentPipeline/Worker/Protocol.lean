import IncidentPipeline.Worker.Changes

/-!
# Registrations and workers side by side

Any number of registrations and workers over one database. A transaction that has
claimed a job holds the lock of its row, so that no other claims or writes the job until
it ends; a server error ends the lock together with everything the transaction wrote.
Here is what the transactions expect of each other, and the rules by which the stages
are followed statement by statement.
-/

namespace IncidentPipeline

open Tables Transactions

/-! ### The system -/

inductive Reply where
  | registered (sourceId jobId : Uuid)
  | worked (claimed : Bool)

/-- The programs that run: registrations, and passes of workers that agree on the number
of attempts. `allowed` may restrict what the passes meet. -/
inductive WorkerProgram (maxAttempts : Nat) (allowed : Settings → JobEnv → Prop) :
    Db Reply → Prop where
  | register (env : RegisterEnv) (url : String) :
      WorkerProgram maxAttempts allowed
        ((registerSource env url).bind fun ids => .ret (.ok (.registered ids.1 ids.2)))
  | run {cfg : Settings} {env : JobEnv} (same : cfg.jobMaxAttempts = maxAttempts)
      (meets : allowed cfg env) :
      WorkerProgram maxAttempts allowed
        ((runOnce cfg env).bind fun claimed => .ret (.ok (.worked claimed)))

/-- The job that a row operation claims. -/
def claimOf : RowOp → Option Job
  | .updateJob before after => if after.status = .running then some before else none
  | _ => none

/-- The jobs that a transaction has claimed and not let go, as they were before. -/
def held (s : Session RowOp) : List Job :=
  if s.aborted then [] else s.log.filterMap claimOf

/-- The rows that a claim skips are the ones that the other transactions hold. What the
snapshot of a statement shows is left open. -/
def workerSystem (maxAttempts : Nat) (allowed : Settings → JobEnv → Prop) :
    System Context Database RowOp Exc Reply where
  server := postgres
  context others context := ∀ id, id ∈ context.locked ↔ ∃ s ∈ others, ∃ j ∈ held s, j.id = id
  programs := WorkerProgram maxAttempts allowed

/-! ### The protocol -/

/-- The rows that a transaction has claimed are in the tables as they were. -/
def Owns (s : Session RowOp) (d : Database) : Prop :=
  ∀ j ∈ held s, j ∈ d.jobs ∧ j.status = .queued

/-- What a transaction expects of the others: the tables grow, and the jobs that it holds
stay as they are. -/
def Relies (s : Session RowOp) (d d' : Database) : Prop :=
  Grows d d' ∧ ∀ j ∈ held s, j ∈ d.jobs → j ∈ d'.jobs

def jobProtocol (maxAttempts : Nat) : Protocol Context Database RowOp where
  invariant := PipelineInvariant maxAttempts
  own := Owns
  rely := Relies
  guarantee context s s' := ∀ j ∈ held s', j ∈ held s ∨ j.id ∉ context.locked
  refl _ d := ⟨.refl d, fun _ _ h => h⟩
  trans _ _ _ _ first last :=
    ⟨first.1.trans last.1, fun j hj h => last.2 j hj (first.2 j hj h)⟩
  own_rely own rely j hj := ⟨rely.2 j hj (own j hj).1, (own j hj).2⟩

/-- Two transactions do not hold the same job. -/
def Separate (a b : Session RowOp) : Prop := ∀ j ∈ held a, ∀ k ∈ held b, j.id ≠ k.id

theorem Separate.symm {a b : Session RowOp} (separate : Separate a b) : Separate b a :=
  fun j hj k hk => (separate k hk j hj).symm

/-- What a session claims is skipped by the others. -/
theorem Separate.keeps {others : List (Session RowOp)} {context : Context}
    {session session' : Session RowOp}
    (given : ∀ id, id ∈ context.locked ↔ ∃ s ∈ others, ∃ j ∈ held s, j.id = id)
    (claims : ∀ j ∈ held session', j ∈ held session ∨ j.id ∉ context.locked)
    (separate : ∀ other ∈ others, Separate session other) :
    ∀ other ∈ others, Separate session' other := by
  intro other member j hj k hk
  obtain old | free := claims j hj
  · exact separate other member j old k hk
  · exact fun same => free (same ▸ (given k.id).mpr ⟨other, member, k, hk, rfl⟩)

/-- A job that another session holds is not among the ones that a session has claimed. -/
theorem Separate.not_touched {a b : Session RowOp} (separate : Separate a b) {j : Job}
    (mine : j ∈ held b) : j.id ∉ (held a).map Job.id := by
  intro touched
  obtain ⟨k, hk, same⟩ := List.mem_map.mp touched
  exact separate k hk j mine same

@[simp] theorem held_fresh : held .fresh = [] := rfl

@[simp] theorem held_aborted (log : List RowOp) : held ⟨log, true⟩ = [] := rfl

theorem held_of_aborted {s : Session RowOp} (aborted : s.aborted = true) : held s = [] :=
  if_pos aborted

theorem held_of_alive {s : Session RowOp} (alive : s.aborted = false) :
    held s = s.log.filterMap claimOf := by
  rw [held]
  rw [alive]
  rfl

@[simp] theorem held_mk (log : List RowOp) : held ⟨log, false⟩ = log.filterMap claimOf := rfl

/-! ### Rules -/

section Rules

variable {maxAttempts : Nat} {α β ρ : Type}

/-- Unless the transaction has been aborted, it has sent more operations, which `Q`
speaks of. -/
def Sent (log : List RowOp) (Q : Except Exc ρ → List RowOp → Database → Prop)
    (r : Except Exc ρ) (s : Session RowOp) (d : Database) : Prop :=
  s.aborted = false → ∃ ops, s.log = log ++ ops ∧ Q r ops d

/-- Quiet statements claim nothing. -/
def Quiet (s : Sql ρ) : Prop :=
  ∀ context d reply ops, s.run context d = .ok (reply, ops) → ∀ o ∈ ops, claimOf o = none

variable {log ops : List RowOp} {d : Database}

theorem wp_of_aborted {p : Db α} {post : Except Exc α → Session RowOp → Database → Prop}
    {s : Session RowOp} (h : ∀ r st e, st.aborted = true → post r st e)
    (aborted : s.aborted = true) : p.wp postgres (jobProtocol maxAttempts) post s d := by
  refine Prog.wp_aborted ?_ ?_ h aborted
  · intro context st dead j hj
    exact .inl hj
  · intro st e dead j hj
    rw [held_of_aborted dead] at hj
    cases hj

/-- A program and its continuation, of which only what was sent is known. -/
theorem wp_sent {p : Db α} {f : α → Db β} {Q : Except Exc α → List RowOp → Database → Prop}
    {R : Except Exc β → List RowOp → Database → Prop} {s : Session RowOp}
    (first : p.wp postgres (jobProtocol maxAttempts) (Sent log Q) s d)
    (later : ∀ a ops e, Grows d e → Q (.ok a) ops e →
      (f a).wp postgres (jobProtocol maxAttempts) (Sent log R) ⟨log ++ ops, false⟩ e)
    (failed : ∀ x ops e, Q (.error x) ops e → R (.error x) ops e) :
    (p.bind f).wp postgres (jobProtocol maxAttempts) (Sent log R) s d := by
  have grown : p.wp postgres (jobProtocol maxAttempts)
      (fun r st e => Sent log Q r st e ∧ Grows d e) s d := by
    refine Prog.wp_remember (R := Grows) Grows.trans ?_ (.refl d) first
    exact fun rely => rely.1
  refine Prog.wp_then grown (fun a st e h => ?_) fun x st e h alive => ?_
  · obtain ⟨sent, grows⟩ := h
    cases alive : st.aborted with
    | true =>
        refine wp_of_aborted (fun r st' e' dead alive => ?_) alive
        rw [dead] at alive
        cases alive
    | false =>
        obtain ⟨ops, sent, holds⟩ := sent alive
        have session : st = ⟨log ++ ops, false⟩ := by
          rw [← sent, ← alive]
        rw [session]
        exact later a ops e grows holds
  · obtain ⟨ops, sent, holds⟩ := h.1 alive
    exact ⟨ops, sent, failed x ops e holds⟩

theorem wp_ret_sent {r : Except Exc ρ} {Q : Except Exc ρ → List RowOp → Database → Prop}
    (h : ∀ d', Relies ⟨log ++ ops, false⟩ d d' → PipelineInvariant maxAttempts d' →
      Owns ⟨log ++ ops, false⟩ d' → Q r ops d') :
    (Prog.ret r : Db ρ).wp postgres (jobProtocol maxAttempts) (Sent log Q) ⟨log ++ ops, false⟩ d :=
  Prog.wp_ret fun d' rely inv own _ => ⟨ops, rfl, h d' rely inv own⟩

/-- A quiet statement: it is refused, it aborts the transaction, or it is answered from
the state that the transaction sees. -/
theorem wp_statement {s : Sql ρ} {Q : Except Exc ρ → List RowOp → Database → Prop}
    (quiet : Quiet s)
    (refused : ∀ e d', s.refused = some e → Relies ⟨log ++ ops, false⟩ d d' → Q (.error e) ops d')
    (done : ∀ context d₁ visible reply more finish d₂, Relies ⟨log ++ ops, false⟩ d d₁ →
      PipelineInvariant maxAttempts d₁ → Owns ⟨log ++ ops, false⟩ d₁ →
      postgres.replay (log ++ ops) d₁ = .ok visible →
      s.run context visible = .ok (reply, more) → postgres.replay more visible = .ok finish →
      Relies ⟨log ++ ops, false⟩ d₁ d₂ → Q (.ok reply) (ops ++ more) d₂) :
    (Prog.execute s).wp postgres (jobProtocol maxAttempts) (Sent log Q) ⟨log ++ ops, false⟩ d := by
  apply Prog.wp_execute
  intro d₁ context fault rely inv own
  have unchanged : ∀ st : Session RowOp, held st = held ⟨log ++ ops, false⟩ ∨ held st = [] →
      (jobProtocol maxAttempts).guarantee context ⟨log ++ ops, false⟩ st ∧ Owns st d₁ := by
    intro st same
    obtain same | nothing := same
    · exact ⟨fun j hj => .inl (same ▸ hj), fun j hj => own j (same ▸ hj)⟩
    · refine ⟨fun j hj => ?_, fun j hj => ?_⟩ <;> rw [nothing] at hj <;> cases hj
  obtain ⟨e, reason, served⟩ | ⟨_, e, served⟩ |
      ⟨_, _, _, visible, reply, more, finish, seen, answer, written, served⟩ :=
    postgres.serve_cases s ⟨d₁, context, fault⟩ ⟨log ++ ops, false⟩
  · rw [served]
    obtain ⟨guarantee, owns⟩ := unchanged _ (.inl rfl)
    refine ⟨guarantee, owns, fun d₂ later _ _ _ => ⟨ops, rfl, ?_⟩⟩
    exact refused e d₂ reason ((jobProtocol maxAttempts).trans _ rely later)
  · rw [served]
    obtain ⟨guarantee, owns⟩ := unchanged ⟨log ++ ops, true⟩ (.inr rfl)
    exact ⟨guarantee, owns, fun d₂ _ _ _ alive => by cases alive⟩
  · rw [served]
    have same : held ⟨log ++ ops ++ more, false⟩ = held ⟨log ++ ops, false⟩ := by
      have nothing : more.filterMap claimOf = [] :=
        List.filterMap_eq_nil_iff.mpr (quiet context visible reply more answer)
      rw [held_mk, held_mk, List.filterMap_append, nothing, List.append_nil]
    obtain ⟨guarantee, owns⟩ := unchanged _ (.inl same)
    refine ⟨guarantee, owns, fun d₂ later _ _ _ => ⟨ops ++ more, ?_, ?_⟩⟩
    · exact List.append_assoc log ops more
    · have later : Relies ⟨log ++ ops, false⟩ d₁ d₂ :=
        ⟨later.1, fun j hj => later.2 j (same ▸ hj)⟩
      exact done context d₁ visible reply more finish d₂ rely inv own seen answer written later

theorem quiet_select {texts : List String} {read : Database → ρ} : Quiet (select texts read) := by
  intro context d reply more answer
  cases answer
  simp

/-- A statement that only reads. -/
theorem wp_select {texts : List String} {read : Database → ρ}
    {Q : Except Exc ρ → List RowOp → Database → Prop}
    (refused : ∀ e d', refusedText texts = some e → Relies ⟨log ++ ops, false⟩ d d' →
      Q (.error e) ops d')
    (done : ∀ d₁ visible d₂, Relies ⟨log ++ ops, false⟩ d d₁ → PipelineInvariant maxAttempts d₁ →
      Owns ⟨log ++ ops, false⟩ d₁ → postgres.replay (log ++ ops) d₁ = .ok visible →
      Relies ⟨log ++ ops, false⟩ d₁ d₂ → Q (.ok (read visible)) ops d₂) :
    (Prog.execute (select texts read)).wp postgres (jobProtocol maxAttempts) (Sent log Q)
      ⟨log ++ ops, false⟩ d := by
  refine wp_statement quiet_select refused ?_
  intro context d₁ visible reply more finish d₂ rely inv own seen answer _ later
  cases answer
  rw [List.append_nil]
  exact done d₁ visible d₂ rely inv own seen later

/-- A statement has sent the given row operations, or it was refused. -/
def Inserts (s : Sql ρ) (ops more : List RowOp) (r : Except Exc ρ) (sent : List RowOp)
    (_ : Database) : Prop :=
  match r with
  | .ok _ => sent = ops ++ more
  | .error e => sent = ops ∧ s.refused = some e

/-- A statement whose row operations do not depend on what it sees. -/
theorem wp_insert {s : Sql ρ} {more : List RowOp}
    (fixed : ∀ context visible reply sent, s.run context visible = .ok (reply, sent) → sent = more)
    (quiet : ∀ o ∈ more, claimOf o = none) :
    (Prog.execute s).wp postgres (jobProtocol maxAttempts) (Sent log (Inserts s ops more))
      ⟨log ++ ops, false⟩ d := by
  apply wp_statement
  · intro context visible reply sent answer
    rw [fixed context visible reply sent answer]
    exact quiet
  · exact fun e d' reason _ => ⟨rfl, reason⟩
  · intro context d₁ visible reply sent finish d₂ _ _ _ _ answer _ _
    show ops ++ sent = ops ++ more
    rw [fixed context visible reply sent answer]

end Rules

end IncidentPipeline
