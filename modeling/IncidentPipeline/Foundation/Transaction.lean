import Mathlib.Tactic

/-!
# Transactional programs

A client program sends statements over one connection. Between two statements
other transactions may commit, so every statement is answered from the committed
state of that moment with the transaction's own writes replayed over it. The own
writes are a log of resolved row operations.

A statement can fail in two ways. The driver may refuse its parameters before
anything is sent, and the connection is as usable as before. Or the server
answers with an error: then the transaction is aborted, every later statement
fails, and what it wrote is lost.

`Prog` is the syntax of such programs, `run` executes one under an arbitrary
schedule, and `wp` is the weakest precondition under interference: other
transactions may do whatever `rely` allows, and every own statement must stay
within `guarantee`.
-/

namespace Transactions

/-- The fixed behaviour of a server: how it applies a row operation, or which
constraint violation it reports, and the error of an aborted transaction. -/
structure Server (D O ε : Type) where
  apply : O → D → Except ε D
  inFailedTransaction : ε

/-- One statement. `refused` is what the driver raises for the parameters;
`run` answers from a context and a visible state with a reply and the row
operations of the statement. -/
structure Statement (C D O ε ρ : Type) where
  refused : Option ε
  run : C → D → Except ε (ρ × List O)

/-- What surrounds one statement: the committed state, the context, and an error
the server raises for a reason of its own. -/
structure Moment (C D ε : Type) where
  committed : D
  context : C
  fault : Option ε

/-- The state of an open transaction. -/
structure Session (O : Type) where
  log : List O
  aborted : Bool

/-- A transaction that has sent nothing yet. -/
def Session.fresh {O : Type} : Session O := ⟨[], false⟩

@[simp] theorem Session.fresh_log {O : Type} : (Session.fresh : Session O).log = [] := rfl

@[simp] theorem Session.fresh_aborted {O : Type} :
    (Session.fresh : Session O).aborted = false := rfl

variable {C D O ε α β ρ : Type}

namespace Server

/-- Row operations applied one after another. -/
def replay (sv : Server D O ε) : List O → D → Except ε D
  | [], d => .ok d
  | o :: rest, d =>
      match sv.apply o d with
      | .ok d' => sv.replay rest d'
      | .error e => .error e

@[simp] theorem replay_nil (sv : Server D O ε) (d : D) : sv.replay [] d = .ok d := rfl

theorem replay_cons_ok {sv : Server D O ε} {o : O} {rest : List O} {d finish : D} :
    sv.replay (o :: rest) d = .ok finish ↔
      ∃ middle, sv.apply o d = .ok middle ∧ sv.replay rest middle = .ok finish := by
  rw [replay]
  cases h : sv.apply o d <;> simp

theorem replay_append (sv : Server D O ε) (first second : List O) (d : D) :
    sv.replay (first ++ second) d =
      match sv.replay first d with
      | .ok middle => sv.replay second middle
      | .error e => .error e := by
  induction first generalizing d with
  | nil => rfl
  | cons o rest ih =>
      simp only [List.cons_append, replay]
      cases sv.apply o d with
      | ok middle => exact ih middle
      | error e => rfl

theorem replay_append_ok {sv : Server D O ε} {first second : List O} {d finish : D} :
    sv.replay (first ++ second) d = .ok finish ↔
      ∃ middle, sv.replay first d = .ok middle ∧ sv.replay second middle = .ok finish := by
  rw [replay_append]
  cases sv.replay first d <;> simp

/-- The answer to one statement and the session after it. The log grows only if
the statement succeeds as a whole; a server error aborts the transaction. -/
def serve (sv : Server D O ε) (s : Statement C D O ε ρ) (m : Moment C D ε)
    (session : Session O) : Except ε ρ × Session O :=
  match s.refused with
  | some e => (.error e, session)
  | none =>
    if session.aborted then (.error sv.inFailedTransaction, session)
    else
      match m.fault with
      | some e => (.error e, { session with aborted := true })
      | none =>
        match sv.replay session.log m.committed with
        | .error e => (.error e, { session with aborted := true })
        | .ok visible =>
          match s.run m.context visible with
          | .error e => (.error e, { session with aborted := true })
          | .ok (reply, ops) =>
            match sv.replay ops visible with
            | .error e => (.error e, { session with aborted := true })
            | .ok _ => (.ok reply, { session with log := session.log ++ ops })

/-- Everything one statement can do. -/
theorem serve_cases (sv : Server D O ε) (s : Statement C D O ε ρ) (m : Moment C D ε)
    (session : Session O) :
    (∃ e, s.refused = some e ∧ sv.serve s m session = (.error e, session)) ∨
    (s.refused = none ∧ ∃ e, sv.serve s m session = (.error e, { session with aborted := true })) ∨
    (s.refused = none ∧ session.aborted = false ∧ m.fault = none ∧
      ∃ visible reply ops finish, sv.replay session.log m.committed = .ok visible ∧
        s.run m.context visible = .ok (reply, ops) ∧ sv.replay ops visible = .ok finish ∧
        sv.serve s m session = (.ok reply, { session with log := session.log ++ ops })) := by
  rw [serve]
  cases refused : s.refused with
  | some e => exact .inl ⟨e, rfl, rfl⟩
  | none =>
      refine .inr ?_
      cases aborted : session.aborted with
      | true =>
          refine .inl ⟨rfl, sv.inFailedTransaction, ?_⟩
          cases session
          simp_all
      | false =>
          cases fault : m.fault with
          | some e => exact .inl ⟨rfl, e, rfl⟩
          | none =>
              cases visible : sv.replay session.log m.committed with
              | error e => exact .inl ⟨rfl, e, by simp⟩
              | ok d =>
                  cases answer : s.run m.context d with
                  | error e => exact .inl ⟨rfl, e, by simp [answer]⟩
                  | ok pair =>
                      obtain ⟨reply, ops⟩ := pair
                      cases written : sv.replay ops d with
                      | error e => exact .inl ⟨rfl, e, by simp [answer, written]⟩
                      | ok finish =>
                          exact .inr ⟨rfl, rfl, rfl, d, reply, ops, finish, rfl, answer, written,
                            by simp [answer, written]⟩

/-- What the driver refuses is not sent. -/
theorem serve_of_refused (sv : Server D O ε) {s : Statement C D O ε ρ} {e : ε}
    (refused : s.refused = some e) (m : Moment C D ε) (session : Session O) :
    sv.serve s m session = (.error e, session) := by
  rw [serve, refused]

/-- A statement in an aborted transaction leaves it as it is. -/
theorem serve_of_aborted (sv : Server D O ε) (s : Statement C D O ε ρ) (m : Moment C D ε)
    {session : Session O} (aborted : session.aborted = true) :
    (sv.serve s m session).2 = session ∧ ∃ e, (sv.serve s m session).1 = .error e := by
  rw [serve]
  cases s.refused with
  | some e => exact ⟨rfl, e, rfl⟩
  | none => simp [aborted]

/-- A statement that is not refused fails only with the transaction. -/
theorem serve_error {sv : Server D O ε} {s : Statement C D O ε ρ} {m : Moment C D ε}
    {session : Session O} (sent : s.refused = none) {e : ε}
    (failed : (sv.serve s m session).1 = .error e) : (sv.serve s m session).2.aborted = true := by
  obtain ⟨e, refused, _⟩ | ⟨_, e, served⟩ | ⟨_, _, _, _, _, _, _, _, _, _, served⟩ :=
    sv.serve_cases s m session
  · cases sent.symm.trans refused
  · rw [served]
  · rw [served] at failed
    cases failed

end Server

/-- A program that sends statements and handles their exceptions. -/
inductive Prog (C D O ε α : Type) : Type 1 where
  | ret (result : Except ε α)
  | stmt {ρ : Type} (s : Statement C D O ε ρ) (next : Except ε ρ → Prog C D O ε α)

namespace Prog

/-- Sequencing: an exception skips the continuation. -/
def bind (p : Prog C D O ε α) (f : α → Prog C D O ε β) : Prog C D O ε β :=
  match p with
  | ret (.ok a) => f a
  | ret (.error e) => ret (.error e)
  | stmt s next => stmt s fun r => (next r).bind f

instance : Monad (Prog C D O ε) where
  pure a := ret (.ok a)
  bind := bind

/-- Raise an exception. -/
def raise (e : ε) : Prog C D O ε α := ret (.error e)

/-- Catch any exception of `p` and hand it over as a value. -/
def attempt : Prog C D O ε α → Prog C D O ε (Except ε α)
  | ret r => ret (.ok r)
  | stmt s next => stmt s fun r => (next r).attempt

/-- Send one statement. -/
def execute (s : Statement C D O ε ρ) : Prog C D O ε ρ := stmt s ret

/-- A value computed without the server. -/
def ofExcept (r : Except ε α) : Prog C D O ε α := ret r

@[simp] theorem bind_eq (p : Prog C D O ε α) (f : α → Prog C D O ε β) : (p >>= f) = p.bind f := rfl

@[simp] theorem pure_eq (a : α) : (pure a : Prog C D O ε α) = ret (.ok a) := rfl

@[simp] theorem bind_ret_ok (a : α) (f : α → Prog C D O ε β) : (ret (.ok a)).bind f = f a := rfl

@[simp] theorem bind_ret_error (e : ε) (f : α → Prog C D O ε β) :
    (ret (.error e)).bind f = ret (.error e) := rfl

@[simp] theorem bind_stmt (s : Statement C D O ε ρ) (next : Except ε ρ → Prog C D O ε α)
    (f : α → Prog C D O ε β) : (stmt s next).bind f = stmt s fun r => (next r).bind f := rfl

@[simp] theorem attempt_ret (r : Except ε α) :
    (ret r : Prog C D O ε α).attempt = ret (.ok r) := rfl

theorem bind_assoc {γ : Type} (p : Prog C D O ε α) (f : α → Prog C D O ε β)
    (g : β → Prog C D O ε γ) : (p.bind f).bind g = p.bind fun a => (f a).bind g := by
  induction p with
  | ret r => cases r <;> rfl
  | stmt s next ih => exact congrArg (stmt s) (funext ih)

/-! ### Execution under a schedule -/

/-- How a program ended: its result, the session, and the moments not yet used. -/
structure Outcome (C D O ε α : Type) where
  result : Except ε α
  session : Session O
  rest : Nat → Moment C D ε

/-- Leaving the transaction: one that has returned commits what it wrote, unless the
server has aborted it; one that has raised is rolled back. -/
def Outcome.leave (sv : Server D O ε) (out : Outcome C D O ε α) : Except ε α × D :=
  match out.result with
  | .error e => (.error e, (out.rest 0).committed)
  | .ok a =>
    if out.session.aborted then (.ok a, (out.rest 0).committed)
    else
      match sv.replay out.session.log (out.rest 0).committed with
      | .ok d => (.ok a, d)
      | .error e => (.error e, (out.rest 0).committed)

theorem Outcome.result_of_leave {sv : Server D O ε} {out : Outcome C D O ε α} {a : α} {d : D}
    (left : out.leave sv = (.ok a, d)) : out.result = .ok a := by
  rw [leave] at left
  cases result : out.result with
  | error e => cases (result ▸ left)
  | ok b =>
      rw [result] at left
      grind

/-- A transaction that has returned alive commits its log. -/
theorem Outcome.replay_of_leave {sv : Server D O ε} {out : Outcome C D O ε α} {a : α} {d : D}
    (left : out.leave sv = (.ok a, d)) (alive : out.session.aborted = false) :
    sv.replay out.session.log (out.rest 0).committed = .ok d := by
  rw [leave] at left
  rw [result_of_leave left, alive] at left
  grind

theorem Outcome.leave_of_replay {sv : Server D O ε} {out : Outcome C D O ε α} {a : α} {d : D}
    (returned : out.result = .ok a) (alive : out.session.aborted = false)
    (written : sv.replay out.session.log (out.rest 0).committed = .ok d) :
    out.leave sv = (.ok a, d) := by
  simp [leave, returned, alive, written]

/-- Execute a program; its `n`-th statement meets the `n`-th moment. -/
def run (sv : Server D O ε) : Prog C D O ε α → (Nat → Moment C D ε) → Session O →
    Outcome C D O ε α
  | ret r, schedule, session => ⟨r, session, schedule⟩
  | stmt s next, schedule, session =>
      (next (sv.serve s (schedule 0) session).1).run sv (fun n => schedule (n + 1))
        (sv.serve s (schedule 0) session).2

@[simp] theorem run_ret (sv : Server D O ε) (r : Except ε α) (schedule : Nat → Moment C D ε)
    (session : Session O) :
    (ret r : Prog C D O ε α).run sv schedule session = ⟨r, session, schedule⟩ := rfl

theorem run_stmt (sv : Server D O ε) (s : Statement C D O ε ρ)
    (next : Except ε ρ → Prog C D O ε α) (schedule : Nat → Moment C D ε) (session : Session O) :
    (stmt s next).run sv schedule session =
      (next (sv.serve s (schedule 0) session).1).run sv (fun n => schedule (n + 1))
        (sv.serve s (schedule 0) session).2 := rfl

/-- A statement and what follows it: an exception leaves the program. -/
theorem run_execute_bind (sv : Server D O ε) (s : Statement C D O ε ρ) (f : ρ → Prog C D O ε α)
    (schedule : Nat → Moment C D ε) (session : Session O) :
    ((execute s).bind f).run sv schedule session =
      match (sv.serve s (schedule 0) session).1 with
      | .ok reply =>
          (f reply).run sv (fun n => schedule (n + 1)) (sv.serve s (schedule 0) session).2
      | .error e => ⟨.error e, (sv.serve s (schedule 0) session).2, fun n => schedule (n + 1)⟩ := by
  show ((ret (sv.serve s (schedule 0) session).1).bind f).run sv _ _ = _
  cases (sv.serve s (schedule 0) session).1 <;> rfl

/-- The rest of a program runs from where its first part ended. -/
theorem run_bind (sv : Server D O ε) (p : Prog C D O ε α) (f : α → Prog C D O ε β)
    (schedule : Nat → Moment C D ε) (session : Session O) :
    (p.bind f).run sv schedule session =
      match (p.run sv schedule session).result with
      | .ok a => (f a).run sv (p.run sv schedule session).rest (p.run sv schedule session).session
      | .error e => ⟨.error e, (p.run sv schedule session).session,
          (p.run sv schedule session).rest⟩ := by
  induction p generalizing schedule session with
  | ret r => cases r <;> rfl
  | stmt s next ih => exact ih _ _ _

/-- A reply that is converted. -/
theorem run_map (sv : Server D O ε) (p : Prog C D O ε α) (f : α → β)
    (schedule : Nat → Moment C D ε) (session : Session O) :
    (p.bind fun a => ret (.ok (f a))).run sv schedule session =
      ⟨(p.run sv schedule session).result.map f, (p.run sv schedule session).session,
        (p.run sv schedule session).rest⟩ := by
  rw [run_bind]
  cases (p.run sv schedule session).result <;> rfl

theorem run_attempt (sv : Server D O ε) (p : Prog C D O ε α) (schedule : Nat → Moment C D ε)
    (session : Session O) :
    p.attempt.run sv schedule session =
      ⟨.ok (p.run sv schedule session).result, (p.run sv schedule session).session,
        (p.run sv schedule session).rest⟩ := by
  induction p generalizing schedule session with
  | ret r => rfl
  | stmt s next ih => exact ih _ _ _

end Prog

/-! ### Server errors -/

namespace Prog

variable {sv : Server D O ε} {schedule : Nat → Moment C D ε} {session : Session O}

/-- The server answers none of the statements that are sent with an error. -/
def Answered (sv : Server D O ε) : Prog C D O ε α → (Nat → Moment C D ε) → Session O → Prop
  | ret _, _, _ => True
  | stmt s next, schedule, session =>
      (s.refused = none → (sv.serve s (schedule 0) session).1.toBool = true) ∧
        (next (sv.serve s (schedule 0) session).1).Answered sv (fun n => schedule (n + 1))
          (sv.serve s (schedule 0) session).2

/-- An aborted transaction stays aborted. -/
theorem run_aborted (p : Prog C D O ε α) (aborted : session.aborted = true) :
    (p.run sv schedule session).session.aborted = true := by
  induction p generalizing schedule session with
  | ret r => exact aborted
  | stmt s next ih =>
      rw [run_stmt]
      apply ih
      rw [(sv.serve_of_aborted s (schedule 0) aborted).1]
      exact aborted

/-- The transaction is alive at the end if all statements have been answered. -/
theorem answered_iff (p : Prog C D O ε α) (alive : session.aborted = false) :
    p.Answered sv schedule session ↔ (p.run sv schedule session).session.aborted = false := by
  induction p generalizing schedule session with
  | ret r => exact iff_of_true trivial alive
  | stmt s next ih =>
      rw [Answered, run_stmt]
      obtain ⟨e, refused, served⟩ | ⟨sent, e, served⟩ |
          ⟨_, _, _, _, reply, ops, _, _, _, _, served⟩ := sv.serve_cases s (schedule 0) session
      · rw [served, refused]
        simpa using ih (.error e) alive
      · rw [served, run_aborted _ rfl]
        simp [sent, Except.toBool]
      · rw [served]
        simpa [Except.toBool] using ih (.ok reply)
          (show ({ session with log := session.log ++ ops } : Session O).aborted = false from alive)

/-- In a transaction that stays alive, the parameters of a statement are refused or the
statement succeeds. -/
theorem run_execute_bind_alive {s : Statement C D O ε ρ} {f : ρ → Prog C D O ε α}
    (alive : (((execute s).bind f).run sv schedule session).session.aborted = false) :
    (∃ e, s.refused = some e ∧ ((execute s).bind f).run sv schedule session =
      ⟨.error e, session, fun n => schedule (n + 1)⟩) ∨
    (s.refused = none ∧ ∃ visible reply ops,
      sv.replay session.log (schedule 0).committed = .ok visible ∧
        s.run (schedule 0).context visible = .ok (reply, ops) ∧
          ((execute s).bind f).run sv schedule session =
            (f reply).run sv (fun n => schedule (n + 1))
              { session with log := session.log ++ ops }) := by
  rw [run_execute_bind] at alive ⊢
  obtain ⟨e, refused, served⟩ | ⟨_, e, served⟩ |
      ⟨sent, _, _, visible, reply, ops, _, seen, answer, _, served⟩ :=
    sv.serve_cases s (schedule 0) session
  · exact .inl ⟨e, refused, by rw [served]⟩
  · rw [served] at alive
    cases alive
  · exact .inr ⟨sent, visible, reply, ops, seen, answer, by rw [served]⟩

end Prog

/-! ### The operations a program can write -/

namespace Prog

/-- Whatever the server answers, every operation that the program writes satisfies `P`. -/
def Writes (P : O → Prop) : Prog C D O ε α → Prop
  | ret _ => True
  | stmt s next =>
      (∀ context d reply ops, s.run context d = .ok (reply, ops) → ∀ o ∈ ops, P o) ∧
        ∀ r, (next r).Writes P

variable {P : O → Prop}

theorem writes_bind {p : Prog C D O ε α} {f : α → Prog C D O ε β} (first : p.Writes P)
    (later : ∀ a, (f a).Writes P) : (p.bind f).Writes P := by
  induction p with
  | ret r =>
      cases r with
      | ok a => exact later a
      | error e => exact trivial
  | stmt s next ih => exact ⟨first.1, fun r => ih r (first.2 r)⟩

theorem writes_execute {s : Statement C D O ε ρ}
    (h : ∀ context d reply ops, s.run context d = .ok (reply, ops) → ∀ o ∈ ops, P o) :
    (execute s : Prog C D O ε ρ).Writes P := ⟨h, fun _ => trivial⟩

theorem Writes.mono {Q : O → Prop} {p : Prog C D O ε α} (h : p.Writes P)
    (imp : ∀ o, P o → Q o) : p.Writes Q := by
  induction p with
  | ret r => exact trivial
  | stmt s next ih =>
      refine ⟨fun context d reply ops answer o ho => ?_, fun r => ih r (h.2 r)⟩
      exact imp o (h.1 context d reply ops answer o ho)

theorem Writes.attempt {p : Prog C D O ε α} (h : p.Writes P) : p.attempt.Writes P := by
  induction p with
  | ret r => exact trivial
  | stmt s next ih => exact ⟨h.1, fun r => ih r (h.2 r)⟩

/-- What a run adds to the log is what the program can write. -/
theorem Writes.run {sv : Server D O ε} {p : Prog C D O ε α} (h : p.Writes P)
    (schedule : Nat → Moment C D ε) (session : Session O) :
    ∃ ops, (p.run sv schedule session).session.log = session.log ++ ops ∧ ∀ o ∈ ops, P o := by
  induction p generalizing schedule session with
  | ret r => exact ⟨[], (List.append_nil _).symm, by simp⟩
  | stmt s next ih =>
      obtain ⟨ops, log, later⟩ := ih _ (h.2 (sv.serve s (schedule 0) session).1)
        (fun n => schedule (n + 1)) (sv.serve s (schedule 0) session).2
      rw [run_stmt, log]
      obtain ⟨e, _, served⟩ | ⟨_, e, served⟩ | ⟨_, _, _, d, reply, more, _, _, answer, _, served⟩ :=
        sv.serve_cases s (schedule 0) session
      · exact ⟨ops, by rw [served], later⟩
      · exact ⟨ops, by rw [served], later⟩
      · refine ⟨more ++ ops, by rw [served, List.append_assoc], fun o ho => ?_⟩
        obtain now | after := List.mem_append.mp ho
        · exact h.1 _ _ _ _ answer o now
        · exact later o after

/-- Every operation that the program writes satisfies `P` of the state that its statement
sees. -/
def WritesSeen (P : D → O → Prop) : Prog C D O ε α → Prop
  | ret _ => True
  | stmt s next =>
      (∀ context d reply ops, s.run context d = .ok (reply, ops) → ∀ o ∈ ops, P d o) ∧
        ∀ r, (next r).WritesSeen P

variable {S : D → O → Prop}

theorem writesSeen_bind {p : Prog C D O ε α} {f : α → Prog C D O ε β} (first : p.WritesSeen S)
    (later : ∀ a, (f a).WritesSeen S) : (p.bind f).WritesSeen S := by
  induction p with
  | ret r =>
      cases r with
      | ok a => exact later a
      | error e => exact trivial
  | stmt s next ih => exact ⟨first.1, fun r => ih r (first.2 r)⟩

theorem writesSeen_execute {s : Statement C D O ε ρ}
    (h : ∀ context d reply ops, s.run context d = .ok (reply, ops) → ∀ o ∈ ops, S d o) :
    (execute s : Prog C D O ε ρ).WritesSeen S := ⟨h, fun _ => trivial⟩

theorem Writes.seen {p : Prog C D O ε α} (h : p.Writes P) (imp : ∀ d o, P o → S d o) :
    p.WritesSeen S := by
  induction p with
  | ret r => exact trivial
  | stmt s next ih =>
      refine ⟨fun context d reply ops answer o ho => ?_, fun r => ih r (h.2 r)⟩
      exact imp d o (h.1 context d reply ops answer o ho)

end Prog

/-! ### The exceptions a program can raise -/

namespace Prog

/-- Unless the server answers with an error, every exception that leaves the program
satisfies `P`. -/
def Raises (P : ε → Prop) : Prog C D O ε α → Prop
  | ret r => ∀ e, r = .error e → P e
  | stmt s next =>
      (∀ e, s.refused = some e → (next (.error e)).Raises P) ∧
        (s.refused = none → ∀ reply, (next (.ok reply)).Raises P)

variable {P : ε → Prop}

theorem raises_ok {a : α} : (ret (.ok a) : Prog C D O ε α).Raises P := fun _ h => by cases h

theorem raises_error {e : ε} (h : P e) : (ret (.error e) : Prog C D O ε α).Raises P :=
  fun _ same => Except.error.inj same ▸ h

theorem raises_bind {p : Prog C D O ε α} {f : α → Prog C D O ε β} (first : p.Raises P)
    (later : ∀ a, (f a).Raises P) : (p.bind f).Raises P := by
  induction p with
  | ret r =>
      cases r with
      | ok a => exact later a
      | error e => exact raises_error (first e rfl)
  | stmt s next ih =>
      exact ⟨fun e refused => ih _ (first.1 e refused),
        fun sent reply => ih _ (first.2 sent reply)⟩

/-- What follows a statement may use that the driver has taken its parameters. -/
theorem raises_execute {s : Statement C D O ε ρ} {f : ρ → Prog C D O ε α}
    (refused : ∀ e, s.refused = some e → P e)
    (later : s.refused = none → ∀ reply, (f reply).Raises P) : ((execute s).bind f).Raises P :=
  ⟨fun e reason => raises_error (refused e reason), later⟩

theorem Raises.run {sv : Server D O ε} {p : Prog C D O ε α} (h : p.Raises P)
    {schedule : Nat → Moment C D ε} {session : Session O}
    (alive : (p.run sv schedule session).session.aborted = false) {e : ε}
    (raised : (p.run sv schedule session).result = .error e) : P e := by
  induction p generalizing schedule session with
  | ret r => exact h e raised
  | stmt s next ih =>
      rw [run_stmt] at alive raised
      obtain ⟨x, refused, served⟩ | ⟨_, x, served⟩ |
          ⟨sent, _, _, _, reply, _, _, _, _, _, served⟩ := sv.serve_cases s (schedule 0) session
      · rw [served] at alive raised
        exact ih _ (h.1 x refused) alive raised
      · rw [served, run_aborted _ rfl] at alive
        cases alive
      · rw [served] at alive raised
        exact ih _ (h.2 sent reply) alive raised

end Prog

/-! ### Execution alone

Where no other transaction commits, the visible state can be carried along
instead of the log. `serial` does so, and `serial_eq_run` says that it is the
execution under a schedule that never changes the committed state. -/

/-- The state a transaction sees, with its own writes in it. -/
structure Local (D : Type) where
  db : D
  aborted : Bool

/-- The answer to one statement when nobody interferes. -/
def Server.answer (sv : Server D O ε) (context : C) (s : Statement C D O ε ρ) (st : Local D) :
    Except ε ρ × Local D :=
  match s.refused with
  | some e => (.error e, st)
  | none =>
    if st.aborted then (.error sv.inFailedTransaction, st)
    else
      match s.run context st.db with
      | .error e => (.error e, { st with aborted := true })
      | .ok (reply, ops) =>
        match sv.replay ops st.db with
        | .error e => (.error e, { st with aborted := true })
        | .ok db => (.ok reply, { st with db := db })

namespace Prog

/-- Execute a program alone. -/
def serial (sv : Server D O ε) (context : C) : Prog C D O ε α → Local D → Except ε α × Local D
  | ret r, st => (r, st)
  | stmt s next, st =>
      (next (sv.answer context s st).1).serial sv context (sv.answer context s st).2

@[simp] theorem serial_ret (sv : Server D O ε) (context : C) (r : Except ε α) (st : Local D) :
    (ret r : Prog C D O ε α).serial sv context st = (r, st) := rfl

@[simp] theorem serial_execute (sv : Server D O ε) (context : C) (s : Statement C D O ε ρ)
    (st : Local D) : (execute s).serial sv context st = sv.answer context s st := rfl

theorem serial_bind (sv : Server D O ε) (context : C) (p : Prog C D O ε α)
    (f : α → Prog C D O ε β) (st : Local D) :
    (p.bind f).serial sv context st =
      match (p.serial sv context st).1 with
      | .ok a => (f a).serial sv context (p.serial sv context st).2
      | .error e => (.error e, (p.serial sv context st).2) := by
  induction p generalizing st with
  | ret r => cases r <;> rfl
  | stmt s next ih => exact ih _ _

theorem serial_attempt (sv : Server D O ε) (context : C) (p : Prog C D O ε α) (st : Local D) :
    p.attempt.serial sv context st =
      (.ok (p.serial sv context st).1, (p.serial sv context st).2) := by
  induction p generalizing st with
  | ret r => rfl
  | stmt s next ih => exact ih _ _

/-- One whole transaction alone: an exception that leaves it, and an end in the
aborted state, both roll it back. -/
def transact (sv : Server D O ε) (context : C) (p : Prog C D O ε α) (d : D) : Except ε α × D :=
  match p.serial sv context ⟨d, false⟩ with
  | (.ok a, st) => (.ok a, if st.aborted then d else st.db)
  | (.error e, _) => (.error e, d)

end Prog

/-- One statement: carrying the state is replaying the log over the committed state. -/
theorem Server.answer_eq_serve (sv : Server D O ε) (context : C) (committed : D)
    (s : Statement C D O ε ρ) (session : Session O) {visible : D}
    (h : sv.replay session.log committed = .ok visible) :
    ∃ later, sv.replay (sv.serve s ⟨committed, context, none⟩ session).2.log committed = .ok later ∧
      sv.answer context s ⟨visible, session.aborted⟩ =
        ((sv.serve s ⟨committed, context, none⟩ session).1,
          ⟨later, (sv.serve s ⟨committed, context, none⟩ session).2.aborted⟩) := by
  unfold Server.serve Server.answer
  cases s.refused with
  | some e => exact ⟨visible, h, rfl⟩
  | none =>
      cases aborted : session.aborted with
      | true => exact ⟨visible, by simpa using h, by simp [aborted]⟩
      | false =>
          simp only [h]
          cases answer : s.run context visible with
          | error e => exact ⟨visible, by simpa using h, by simp⟩
          | ok pair =>
              obtain ⟨reply, ops⟩ := pair
              cases written : sv.replay ops visible with
              | error e => exact ⟨visible, by simpa [written] using h, by simp [written]⟩
              | ok finish =>
                  refine ⟨finish, ?_, by simp [written]⟩
                  simpa [written] using Server.replay_append_ok.mpr ⟨visible, h, written⟩

namespace Prog

/-- Carrying the state is replaying the log over an unchanging committed state. -/
theorem serial_eq_run (sv : Server D O ε) (context : C) (committed : D) (p : Prog C D O ε α)
    (session : Session O) {visible : D} (h : sv.replay session.log committed = .ok visible) :
    ∃ final, sv.replay (p.run sv (fun _ => ⟨committed, context, none⟩) session).session.log
        committed = .ok final ∧
      p.serial sv context ⟨visible, session.aborted⟩ =
        ((p.run sv (fun _ => ⟨committed, context, none⟩) session).result,
          ⟨final, (p.run sv (fun _ => ⟨committed, context, none⟩) session).session.aborted⟩) := by
  induction p generalizing session visible with
  | ret r => exact ⟨visible, h, rfl⟩
  | stmt s next ih =>
      obtain ⟨later, replayed, answered⟩ := sv.answer_eq_serve context committed s session h
      obtain ⟨final, hlog, hrest⟩ := ih _ _ replayed
      exact ⟨final, hlog, by rw [serial, answered]; exact hrest⟩

end Prog

/-! ### The end of an execution alone -/

namespace Prog

/-- What holds when a program has been executed alone. -/
def ends (sv : Server D O ε) (context : C) (p : Prog C D O ε α)
    (post : Except ε α → Local D → Prop) (st : Local D) : Prop :=
  post (p.serial sv context st).1 (p.serial sv context st).2

variable {sv : Server D O ε} {context : C} {st : Local D}

theorem ends_ret {r : Except ε α} {post : Except ε α → Local D → Prop} (h : post r st) :
    (ret r : Prog C D O ε α).ends sv context post st := h

theorem ends_raise {e : ε} {post : Except ε α → Local D → Prop} (h : post (.error e) st) :
    (raise e : Prog C D O ε α).ends sv context post st := h

theorem ends_mono {p : Prog C D O ε α} {post post' : Except ε α → Local D → Prop}
    (h : p.ends sv context post st) (imp : ∀ r st, post r st → post' r st) :
    p.ends sv context post' st := imp _ _ h

theorem ends_bind {p : Prog C D O ε α} {f : α → Prog C D O ε β}
    {post : Except ε β → Local D → Prop}
    (h : p.ends sv context (fun r st =>
      match r with
      | .ok a => (f a).ends sv context post st
      | .error e => post (.error e) st) st) : (p.bind f).ends sv context post st := by
  unfold ends at h ⊢
  rw [serial_bind]
  cases result : (p.serial sv context st).1 with
  | ok a => simpa [result] using h
  | error e => simpa [result] using h

/-- A statement that fails changes nothing, whatever the reason; one that succeeds
has written its row operations. -/
theorem ends_execute {s : Statement C D O ε ρ} {post : Except ε ρ → Local D → Prop} {d : D}
    (failed : ∀ e aborted, post (.error e) ⟨d, aborted⟩)
    (done : ∀ reply ops d', s.refused = none → s.run context d = .ok (reply, ops) →
      sv.replay ops d = .ok d' → post (.ok reply) ⟨d', false⟩) :
    (execute s).ends sv context post ⟨d, false⟩ := by
  rw [ends]
  rw [serial_execute, Server.answer]
  cases refused : s.refused with
  | some e => exact failed e false
  | none =>
      cases answer : s.run context d with
      | error e => simpa using failed e true
      | ok pair =>
          obtain ⟨reply, ops⟩ := pair
          cases written : sv.replay ops d with
          | error e => simpa [written] using failed e true
          | ok d' => simpa [written] using done reply ops d' refused answer written

/-- A statement that the server cannot reject may still be refused by the driver. -/
theorem ends_sent {s : Statement C D O ε ρ} {post : Except ε ρ → Local D → Prop} {d d' : D}
    {reply : ρ} {ops : List O} (answer : s.run context d = .ok (reply, ops))
    (written : sv.replay ops d = .ok d') (refused : ∀ e, post (.error e) ⟨d, false⟩)
    (done : s.refused = none → post (.ok reply) ⟨d', false⟩) :
    (execute s).ends sv context post ⟨d, false⟩ := by
  rw [ends]
  rw [serial_execute, Server.answer]
  cases sent : s.refused with
  | some e => exact refused e
  | none => simpa [answer, written] using done sent

theorem ends_send {s : Statement C D O ε ρ} {post : Except ε ρ → Local D → Prop} {d d' : D}
    {reply : ρ} {ops : List O} (answer : s.run context d = .ok (reply, ops))
    (written : sv.replay ops d = .ok d') (refused : ∀ e, post (.error e) ⟨d, false⟩)
    (done : post (.ok reply) ⟨d', false⟩) : (execute s).ends sv context post ⟨d, false⟩ :=
  ends_sent answer written refused fun _ => done

/-- A statement in whose way nothing stands. -/
theorem serial_execute_ok {s : Statement C D O ε ρ} {d d' : D} {reply : ρ} {ops : List O}
    (sent : s.refused = none) (answer : s.run context d = .ok (reply, ops))
    (written : sv.replay ops d = .ok d') :
    (execute s).serial sv context ⟨d, false⟩ = (.ok reply, ⟨d', false⟩) := by
  rw [serial_execute, Server.answer]
  simp [sent, answer, written]

end Prog

/-! ### Interference -/

/-- What a transaction may expect of the others and owes to them. `invariant`
holds of every committed state, and `own` relates an open session to it: other
transactions cannot break `own` while they respect `rely`. -/
structure Protocol (C D O : Type) where
  invariant : D → Prop
  own : Session O → D → Prop
  rely : Session O → D → D → Prop
  guarantee : C → Session O → Session O → Prop
  refl : ∀ session d, rely session d d
  trans : ∀ session {a b c}, rely session a b → rely session b c → rely session a c
  own_rely : ∀ {session d d'}, own session d → rely session d d' → own session d'

namespace Prog

variable {sv : Server D O ε} {protocol : Protocol C D O}

/-- The weakest precondition under interference: whatever the others commit in
between, every statement keeps the guarantee and `own`, and the end satisfies
`post`. -/
def wp (sv : Server D O ε) (protocol : Protocol C D O) : Prog C D O ε α →
    (Except ε α → Session O → D → Prop) → Session O → D → Prop
  | ret r, post, session, d =>
      ∀ d', protocol.rely session d d' → protocol.invariant d' → protocol.own session d' →
        post r session d'
  | stmt s next, post, session, d =>
      ∀ d' context fault, protocol.rely session d d' → protocol.invariant d' →
        protocol.own session d' →
        protocol.guarantee context session (sv.serve s ⟨d', context, fault⟩ session).2 ∧
        protocol.own (sv.serve s ⟨d', context, fault⟩ session).2 d' ∧
        (next (sv.serve s ⟨d', context, fault⟩ session).1).wp sv protocol post
          (sv.serve s ⟨d', context, fault⟩ session).2 d'

variable {p : Prog C D O ε α} {post post' : Except ε α → Session O → D → Prop}
variable {session : Session O} {d d' : D}

/-- A precondition stays true while others commit. -/
theorem wp_later (h : p.wp sv protocol post session d) (later : protocol.rely session d d') :
    p.wp sv protocol post session d' := by
  cases p with
  | ret r => exact fun e he => h e (protocol.trans session later he)
  | stmt s next => exact fun e c f he => h e c f (protocol.trans session later he)

/-- It suffices to establish the precondition after the next interference. -/
theorem wp_of_later
    (h : ∀ d', protocol.rely session d d' → protocol.invariant d' → protocol.own session d' →
      p.wp sv protocol post session d') : p.wp sv protocol post session d := by
  cases p with
  | ret r =>
      intro e he inv own
      exact h e he inv own e (protocol.refl session e) inv own
  | stmt s next =>
      intro e c f he inv own
      exact h e he inv own e c f (protocol.refl session e) inv own

theorem wp_mono (h : p.wp sv protocol post session d)
    (imp : ∀ r st e, post r st e → post' r st e) : p.wp sv protocol post' session d := by
  induction p generalizing session d with
  | ret r => exact fun e he inv own => imp _ _ _ (h e he inv own)
  | stmt s next ih =>
      intro e c f he inv own
      obtain ⟨keeps, owns, rest⟩ := h e c f he inv own
      exact ⟨keeps, owns, ih _ rest⟩

theorem wp_ret {r : Except ε α}
    (h : ∀ d', protocol.rely session d d' → protocol.invariant d' → protocol.own session d' →
      post r session d') : (ret r : Prog C D O ε α).wp sv protocol post session d := h

theorem wp_bind {f : α → Prog C D O ε β} {post : Except ε β → Session O → D → Prop}
    (h : p.wp sv protocol (fun r st e =>
      match r with
      | .ok a => (f a).wp sv protocol post st e
      | .error x => post (.error x) st e) session d) :
    (p.bind f).wp sv protocol post session d := by
  induction p generalizing session d with
  | ret r =>
      cases r with
      | ok a => exact wp_of_later h
      | error x => exact h
  | stmt s next ih =>
      intro e c k he inv own
      obtain ⟨keeps, owns, rest⟩ := h e c k he inv own
      exact ⟨keeps, owns, ih _ rest⟩

/-- A program whose value is replaced at its end. -/
theorem wp_map {f : α → β} {post' : Except ε β → Session O → D → Prop}
    (h : p.wp sv protocol post session d)
    (done : ∀ a st e, post (.ok a) st e → post' (.ok (f a)) st e)
    (failed : ∀ x st e, post (.error x) st e → post' (.error x) st e) :
    (p.bind fun a => ret (.ok (f a))).wp sv protocol post' session d := by
  induction p generalizing session d with
  | ret r =>
      cases r with
      | ok a => exact wp_ret fun e he inv own => done a session e (h e he inv own)
      | error x => exact wp_ret fun e he inv own => failed x session e (h e he inv own)
  | stmt s next ih =>
      intro e c k he inv own
      obtain ⟨keeps, owns, rest⟩ := h e c k he inv own
      exact ⟨keeps, owns, ih _ rest⟩

/-- Sequencing with a named condition in between. -/
theorem wp_then {f : α → Prog C D O ε β} {mid : Except ε α → Session O → D → Prop}
    {post : Except ε β → Session O → D → Prop} (first : p.wp sv protocol mid session d)
    (later : ∀ a st e, mid (.ok a) st e → (f a).wp sv protocol post st e)
    (failed : ∀ x st e, mid (.error x) st e → post (.error x) st e) :
    (p.bind f).wp sv protocol post session d := by
  apply wp_bind
  refine wp_mono first fun r st e h => ?_
  cases r with
  | ok a => exact later a st e h
  | error x => exact failed x st e h

/-- At the end, what the others did is still related to the beginning. -/
theorem wp_remember {R : D → D → Prop} (trans : ∀ {a b c}, R a b → R b c → R a c)
    (related : ∀ {st a b}, protocol.rely st a b → R a b) {start : D} (before : R start d)
    (h : p.wp sv protocol post session d) :
    p.wp sv protocol (fun r st e => post r st e ∧ R start e) session d := by
  induction p generalizing session d with
  | ret r => exact fun e he inv own => ⟨h e he inv own, trans before (related he)⟩
  | stmt s next ih =>
      intro e c f he inv own
      obtain ⟨keeps, owns, rest⟩ := h e c f he inv own
      exact ⟨keeps, owns, ih _ (trans before (related he)) rest⟩

/-- A single statement, after which the others may commit again. -/
theorem wp_execute {s : Statement C D O ε ρ} {post : Except ε ρ → Session O → D → Prop}
    (h : ∀ d' context fault, protocol.rely session d d' → protocol.invariant d' →
      protocol.own session d' →
      protocol.guarantee context session (sv.serve s ⟨d', context, fault⟩ session).2 ∧
      protocol.own (sv.serve s ⟨d', context, fault⟩ session).2 d' ∧
      ∀ d'', protocol.rely (sv.serve s ⟨d', context, fault⟩ session).2 d' d'' →
        protocol.invariant d'' → protocol.own (sv.serve s ⟨d', context, fault⟩ session).2 d'' →
        post (sv.serve s ⟨d', context, fault⟩ session).1
          (sv.serve s ⟨d', context, fault⟩ session).2 d'') :
    (execute s).wp sv protocol post session d := h

/-- Once the transaction is aborted, nothing a program does matters. -/
theorem wp_aborted
    (guarantee : ∀ context st, st.aborted = true → protocol.guarantee context st st)
    (own : ∀ st e, st.aborted = true → protocol.own st e)
    (h : ∀ r st e, st.aborted = true → post r st e) (aborted : session.aborted = true) :
    p.wp sv protocol post session d := by
  induction p generalizing d with
  | ret r => exact fun e _ _ _ => h r session e aborted
  | stmt s next ih =>
      intro e c f _ _ _
      obtain ⟨same, _⟩ := sv.serve_of_aborted s ⟨e, c, f⟩ aborted
      rw [same]
      exact ⟨guarantee c session aborted, own session e aborted, ih _⟩

theorem wp_attempt {post : Except ε (Except ε α) → Session O → D → Prop}
    (h : p.wp sv protocol (fun r st e => post (.ok r) st e) session d) :
    p.attempt.wp sv protocol post session d := by
  induction p generalizing session d with
  | ret r => exact h
  | stmt s next ih =>
      intro e c k he inv own
      obtain ⟨keeps, owns, rest⟩ := h e c k he inv own
      exact ⟨keeps, owns, ih _ rest⟩

end Prog

end Transactions
