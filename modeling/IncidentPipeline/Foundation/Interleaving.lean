import IncidentPipeline.Foundation.Transaction

/-!
# Interleaved transactions

Any number of transactions are open over one committed state. A step opens a
transaction, sends the next statement of an open one, commits an open one whose
program has returned, or rolls one back: because its program raised, or because
its worker crashed or lost the connection, at any point whatever.

A transaction that has ended normally commits only if its log still applies. A
server makes a writer wait that would conflict with an uncommitted row, so the
states in which the log no longer applies do not come about; here they simply
have no commit step.

`Sound` lists what makes rely and guarantee fit together. `Run.preserves` is the
induction over all interleavings.
-/

namespace Transactions

variable {C D O ε α : Type}

/-- An open transaction: its session and what is left of its program. -/
structure Txn (C D O ε α : Type) : Type 1 where
  session : Session O
  program : Prog C D O ε α

/-- The committed state and the open transactions. -/
structure World (C D O ε α : Type) : Type 1 where
  committed : D
  opened : List (Txn C D O ε α)

/-- A server, the contexts it may give a statement while the other sessions are open,
and the programs that are run. -/
structure System (C D O ε α : Type) where
  server : Server D O ε
  context : List (Session O) → C → Prop
  programs : Prog C D O ε α → Prop

/-- What a step did, with the session of the transaction that did it. -/
inductive Label (O : Type) where
  | began
  | sent (before after : Session O)
  | committed (session : Session O)
  | raised (session : Session O)
  | crashed (session : Session O)

/-- One step of one transaction. -/
inductive Step (sys : System C D O ε α) :
    World C D O ε α → Label O → World C D O ε α → Prop where
  | begin {w : World C D O ε α} {p : Prog C D O ε α} (allowed : sys.programs p) :
      Step sys w .began ⟨w.committed, ⟨.fresh, p⟩ :: w.opened⟩
  | statement {committed : D} {before after : List (Txn C D O ε α)}
      {session : Session O} {ρ : Type} {s : Statement C D O ε ρ}
      {next : Except ε ρ → Prog C D O ε α} {answer : Except ε ρ × Session O}
      {context : C} (given : sys.context ((before ++ after).map Txn.session) context)
      (fault : Option ε)
      (served : answer = sys.server.serve s ⟨committed, context, fault⟩ session) :
      Step sys ⟨committed, before ++ ⟨session, .stmt s next⟩ :: after⟩
        (.sent session answer.2) ⟨committed, before ++ ⟨answer.2, next answer.1⟩ :: after⟩
  | commit {committed committed' : D} {before after : List (Txn C D O ε α)}
      {session : Session O} {a : α} (alive : session.aborted = false)
      (applies : sys.server.replay session.log committed = .ok committed') :
      Step sys ⟨committed, before ++ ⟨session, .ret (.ok a)⟩ :: after⟩
        (.committed session) ⟨committed', before ++ after⟩
  | raise {committed : D} {before after : List (Txn C D O ε α)}
      {session : Session O} {e : ε} :
      Step sys ⟨committed, before ++ ⟨session, .ret (.error e)⟩ :: after⟩ (.raised session)
        ⟨committed, before ++ after⟩
  | crash {committed : D} {before after : List (Txn C D O ε α)} {t : Txn C D O ε α} :
      Step sys ⟨committed, before ++ t :: after⟩ (.crashed t.session) ⟨committed, before ++ after⟩

/-- A finite run with its labels, oldest first. -/
inductive Run (sys : System C D O ε α) (w : World C D O ε α) :
    List (Label O) → World C D O ε α → Prop where
  | refl : Run sys w [] w
  | snoc {labels : List (Label O)} {middle finish : World C D O ε α} {label : Label O} :
      Run sys w labels middle → Step sys middle label finish →
        Run sys w (labels ++ [label]) finish

/-- The worlds some run from an initial committed state leads to. -/
def Reachable (sys : System C D O ε α) (initial : D) (w : World C D O ε α) : Prop :=
  ∃ labels, Run sys ⟨initial, []⟩ labels w

variable {sys : System C D O ε α}

theorem Run.trans {u v w : World C D O ε α} {first second : List (Label O)}
    (h : Run sys u first v) (k : Run sys v second w) : Run sys u (first ++ second) w := by
  induction k with
  | refl => simpa using h
  | snoc _ step ih =>
      rw [← List.append_assoc]
      exact ih.snoc step

theorem Run.single {u v : World C D O ε α} {label : Label O} (h : Step sys u label v) :
    Run sys u [label] v := Run.refl.snoc h

theorem Reachable.run {initial : D} {u v : World C D O ε α} {labels : List (Label O)}
    (h : Reachable sys initial u) (k : Run sys u labels v) : Reachable sys initial v := by
  obtain ⟨first, run⟩ := h
  exact ⟨first ++ labels, run.trans k⟩

/-- A predicate that holds at first and is kept by every step holds at the end. -/
theorem Run.induction {P : World C D O ε α → Prop} {u v : World C D O ε α}
    {labels : List (Label O)} (h : Run sys u labels v) (start : P u)
    (step : ∀ {a label b}, Step sys a label b → P a → P b) : P v := by
  induction h with
  | refl => exact start
  | snoc _ last ih => exact step last ih

/-- What holds of an open transaction at any moment. -/
structure Protocol.Holds (protocol : Protocol C D O) (sv : Server D O ε)
    (post : Except ε α → Session O → D → Prop) (d : D) (t : Txn C D O ε α) : Prop where
  own : protocol.own t.session d
  wp : t.program.wp sv protocol post t.session d

/-- What holds of the whole world at any moment. -/
structure Protocol.Valid (protocol : Protocol C D O) (sv : Server D O ε)
    (compatible : Session O → Session O → Prop)
    (post : Except ε α → Session O → D → Prop) (w : World C D O ε α) : Prop where
  invariant : protocol.invariant w.committed
  holds : ∀ t ∈ w.opened, protocol.Holds sv post w.committed t
  compatible : w.opened.Pairwise (fun a b => compatible a.session b.session)

/-- Rely and guarantee fit together: guarantees keep the sessions compatible, and
the commit of one session is what every compatible one relies on. -/
structure Sound (sys : System C D O ε α) (protocol : Protocol C D O)
    (compatible : Session O → Session O → Prop)
    (post : Except ε α → Session O → D → Prop) : Prop where
  symm : ∀ {a b}, compatible a b → compatible b a
  fresh : ∀ a, compatible .fresh a
  keeps : ∀ {others context session session'}, sys.context others context →
    protocol.guarantee context session session' →
      (∀ other ∈ others, compatible session other) →
        ∀ other ∈ others, compatible session' other
  own_fresh : ∀ {d}, protocol.invariant d → protocol.own .fresh d
  begins : ∀ {p d}, sys.programs p → protocol.invariant d →
    p.wp sys.server protocol post .fresh d
  commits : ∀ {a session d d'}, post (.ok a) session d → session.aborted = false →
    protocol.own session d → protocol.invariant d →
      sys.server.replay session.log d = .ok d' → protocol.invariant d'
  relies : ∀ {a session other d d'}, post (.ok a) session d → session.aborted = false →
    compatible session other → protocol.own session d → protocol.invariant d →
      sys.server.replay session.log d = .ok d' → protocol.rely other d d'

variable {protocol : Protocol C D O} {compatible : Session O → Session O → Prop}
variable {post : Except ε α → Session O → D → Prop}

private theorem pairwise_replace {R : Txn C D O ε α → Txn C D O ε α → Prop}
    {before after : List (Txn C D O ε α)} {t t' : Txn C D O ε α}
    (h : (before ++ t :: after).Pairwise R) (left : ∀ a ∈ before, R a t → R a t')
    (right : ∀ b ∈ after, R t b → R t' b) : (before ++ t' :: after).Pairwise R := by
  rw [List.pairwise_append, List.pairwise_cons] at h ⊢
  obtain ⟨hbefore, ⟨hright, hafter⟩, hleft⟩ := h
  refine ⟨hbefore, ⟨fun b hb => right b hb (hright b hb), hafter⟩, ?_⟩
  intro a ha b hb
  obtain rfl | hb := List.mem_cons.mp hb
  · exact left a ha (hleft a ha t (by simp))
  · exact hleft a ha b (by simp [hb])

private theorem pairwise_remove {R : Txn C D O ε α → Txn C D O ε α → Prop}
    {before after : List (Txn C D O ε α)} {t : Txn C D O ε α}
    (h : (before ++ t :: after).Pairwise R) : (before ++ after).Pairwise R := by
  refine h.sublist ?_
  exact List.Sublist.append_left (List.sublist_cons_self t after) before

/-- Rolling back changes nothing that the others can see. -/
theorem Protocol.Valid.remove {sv : Server D O ε} {committed : D}
    {before after : List (Txn C D O ε α)} {t : Txn C D O ε α}
    (h : protocol.Valid sv compatible post ⟨committed, before ++ t :: after⟩) :
    protocol.Valid sv compatible post ⟨committed, before ++ after⟩ := by
  refine ⟨h.invariant, ?_, pairwise_remove h.compatible⟩
  intro other member
  apply h.holds
  obtain hb | ha := List.mem_append.mp member
  · exact List.mem_append.mpr (.inl hb)
  · exact List.mem_append.mpr (.inr (List.mem_cons_of_mem _ ha))

/-- An open session is compatible with each of the others. -/
theorem Protocol.Valid.compatible_others {sv : Server D O ε}
    (symm : ∀ {a b}, compatible a b → compatible b a) {committed : D}
    {before after : List (Txn C D O ε α)} {t : Txn C D O ε α}
    (h : protocol.Valid sv compatible post ⟨committed, before ++ t :: after⟩) :
    ∀ other ∈ before ++ after, compatible t.session other.session := by
  have pairs := h.compatible
  rw [List.pairwise_append, List.pairwise_cons] at pairs
  intro other member
  obtain hb | ha := List.mem_append.mp member
  · exact symm (pairs.2.2 other hb t (by simp))
  · exact pairs.2.1.1 other ha

/-- What is promised of a transaction holds of one that has run to its end. -/
theorem Protocol.Valid.finished {sv : Server D O ε} {committed : D}
    {before after : List (Txn C D O ε α)} {session : Session O} {r : Except ε α}
    (h : protocol.Valid sv compatible post ⟨committed, before ++ ⟨session, .ret r⟩ :: after⟩) :
    protocol.own session committed ∧ post r session committed := by
  have current := h.holds ⟨session, .ret r⟩ (by simp)
  exact ⟨current.own,
    current.wp committed (protocol.refl session committed) h.invariant current.own⟩

/-- Every step keeps the world valid. -/
theorem Step.preserves (sound : Sound sys protocol compatible post)
    {u v : World C D O ε α} {label : Label O} (step : Step sys u label v)
    (h : protocol.Valid sys.server compatible post u) :
    protocol.Valid sys.server compatible post v := by
  cases step with
  | «begin» allowed =>
      refine ⟨h.invariant, ?_, ?_⟩
      · intro t member
        obtain rfl | member := List.mem_cons.mp member
        · exact ⟨sound.own_fresh h.invariant, sound.begins allowed h.invariant⟩
        · exact h.holds t member
      · exact List.pairwise_cons.mpr ⟨fun t _ => sound.fresh t.session, h.compatible⟩
  | @statement committed before after session ρ s next answer context given fault served =>
      have current := h.holds ⟨session, .stmt s next⟩ (by simp)
      obtain ⟨keeps, owns, rest⟩ := current.wp committed context fault
        (protocol.refl session committed) h.invariant current.own
      rw [← served] at keeps owns rest
      have others := h.compatible_others sound.symm
      have kept := sound.keeps given keeps (by
        intro other member
        obtain ⟨t, ht, rfl⟩ := List.mem_map.mp member
        exact others t ht)
      have keptOther : ∀ t ∈ before ++ after, compatible answer.2 t.session :=
        fun t ht => kept t.session (List.mem_map_of_mem ht)
      refine ⟨h.invariant, ?_, ?_⟩
      · intro t member
        obtain hb | ha := List.mem_append.mp member
        · exact h.holds t (List.mem_append.mpr (.inl hb))
        · obtain rfl | ha := List.mem_cons.mp ha
          · exact ⟨owns, rest⟩
          · exact h.holds t (List.mem_append.mpr (.inr (List.mem_cons_of_mem _ ha)))
      · refine pairwise_replace h.compatible ?_ ?_
        · exact fun a ha _ => sound.symm (keptOther a (List.mem_append.mpr (.inl ha)))
        · exact fun b hb _ => keptOther b (List.mem_append.mpr (.inr hb))
  | @commit committed committed' before after session a alive applies =>
      obtain ⟨own, done⟩ := h.finished
      have others := h.compatible_others sound.symm
      refine ⟨sound.commits done alive own h.invariant applies, ?_, pairwise_remove h.compatible⟩
      intro t member
      have relied := sound.relies done alive (others t member) own h.invariant applies
      have held := h.remove.holds t member
      exact ⟨protocol.own_rely held.own relied, Prog.wp_later held.wp relied⟩
  | raise => exact h.remove
  | crash => exact h.remove

/-- Every interleaving keeps the world valid. -/
theorem Run.preserves (sound : Sound sys protocol compatible post)
    {u v : World C D O ε α} {labels : List (Label O)} (run : Run sys u labels v)
    (h : protocol.Valid sys.server compatible post u) :
    protocol.Valid sys.server compatible post v :=
  run.induction h (fun step => step.preserves sound)

theorem Reachable.valid (sound : Sound sys protocol compatible post) {initial : D}
    (start : protocol.invariant initial) {w : World C D O ε α}
    (h : Reachable sys initial w) : protocol.Valid sys.server compatible post w := by
  obtain ⟨labels, run⟩ := h
  exact run.preserves sound ⟨start, by simp, List.Pairwise.nil⟩

/-! ### The ends of open transactions -/

/-- What holds of every execution of every program holds of every execution of what is
left of an open one. -/
theorem Run.outcomes {P : Prog.Outcome C D O ε α → Prop} {u v : World C D O ε α}
    {labels : List (Label O)} (run : Run sys u labels v)
    (programs : ∀ p, sys.programs p → ∀ schedule, P (p.run sys.server schedule .fresh))
    (start : ∀ t ∈ u.opened, ∀ schedule, P (t.program.run sys.server schedule t.session)) :
    ∀ t ∈ v.opened, ∀ schedule, P (t.program.run sys.server schedule t.session) := by
  refine @Run.induction C D O ε α sys (fun w => ∀ t ∈ w.opened, ∀ schedule,
    P (t.program.run sys.server schedule t.session)) u v labels run start ?_
  intro a label b step holds t member schedule
  cases step with
  | «begin» allowed =>
      obtain rfl | member := List.mem_cons.mp member
      · exact programs _ allowed schedule
      · exact holds t member schedule
  | @statement committed before after session ρ s next answer context given fault served =>
      obtain early | late := List.mem_append.mp member
      · exact holds t (List.mem_append_left _ early) schedule
      · obtain rfl | late := List.mem_cons.mp late
        · -- the statement that was sent is the first of the execution
          have whole := holds ⟨session, .stmt s next⟩ (by simp) fun n =>
            match n with
            | 0 => ⟨committed, context, fault⟩
            | n + 1 => schedule n
          rw [Prog.run_stmt] at whole
          exact served ▸ whole
        · exact holds t (List.mem_append_right _ (List.mem_cons_of_mem _ late)) schedule
  | commit =>
      refine holds t ?_ schedule
      simp only [List.mem_append, List.mem_cons] at member ⊢
      exact member.imp_right .inr
  | raise =>
      refine holds t ?_ schedule
      simp only [List.mem_append, List.mem_cons] at member ⊢
      exact member.imp_right .inr
  | crash =>
      refine holds t ?_ schedule
      simp only [List.mem_append, List.mem_cons] at member ⊢
      exact member.imp_right .inr

/-! ### Transactions one after another -/

/-- With no other transaction open, a program can run to its end alone. -/
theorem Prog.runs_alone {context : C} (given : sys.context [] context) (d : D)
    (p : Prog C D O ε α) (session : Session O) {visible : D}
    (seen : sys.server.replay session.log d = .ok visible) :
    ∃ labels session', Run sys ⟨d, [⟨session, p⟩]⟩ labels
        ⟨d, [⟨session', .ret (p.serial sys.server context ⟨visible, session.aborted⟩).1⟩]⟩ ∧
      sys.server.replay session'.log d =
        .ok (p.serial sys.server context ⟨visible, session.aborted⟩).2.db ∧
      session'.aborted = (p.serial sys.server context ⟨visible, session.aborted⟩).2.aborted := by
  induction p generalizing session visible with
  | ret r => exact ⟨[], session, .refl, seen, rfl⟩
  | stmt s next ih =>
      obtain ⟨later, replayed, answered⟩ := sys.server.answer_eq_serve context d s session seen
      obtain ⟨labels, session', run, log, aborted⟩ := ih _ _ replayed
      have step := @Step.statement C D O ε α sys d [] [] session _ s next _ context given none rfl
      rw [serial, answered]
      exact ⟨_, session', (Run.single step).trans run, log, aborted⟩

/-- So it can under any errors that the server reports. -/
theorem Prog.runs_undisturbed {schedule : Nat → Moment C D ε} {d : D}
    (given : ∀ n, sys.context [] (schedule n).context) (still : ∀ n, (schedule n).committed = d)
    (p : Prog C D O ε α) (session : Session O) :
    ∃ labels, Run sys ⟨d, [⟨session, p⟩]⟩ labels
      ⟨d, [⟨(p.run sys.server schedule session).session,
        .ret (p.run sys.server schedule session).result⟩]⟩ := by
  induction p generalizing session schedule with
  | ret r => exact ⟨[], .refl⟩
  | stmt s next ih =>
      have step := @Step.statement C D O ε α sys d [] [] session _ s next _ (schedule 0).context
        (given 0) (schedule 0).fault rfl
      have moment : schedule 0 = ⟨d, (schedule 0).context, (schedule 0).fault⟩ := by
        rw [← still 0]
      rw [← moment] at step
      obtain ⟨labels, run⟩ := @ih (sys.server.serve s (schedule 0) session).1
        (fun n => schedule (n + 1)) (fun n => given (n + 1)) (fun n => still (n + 1))
        (sys.server.serve s (schedule 0) session).2
      exact ⟨_, (Run.single step).trans run⟩

/-- A transaction that returns alone can commit alone. -/
theorem Reachable.transact {initial d d' : D} {context : C} {p : Prog C D O ε α} {a : α}
    (reachable : Reachable sys initial ⟨d, []⟩) (allowed : sys.programs p)
    (given : sys.context [] context)
    (returns : p.serial sys.server context ⟨d, false⟩ = (.ok a, ⟨d', false⟩)) :
    Reachable sys initial ⟨d', []⟩ := by
  obtain ⟨labels, session, run, log, aborted⟩ := p.runs_alone given d .fresh rfl
  rw [Session.fresh_aborted, returns] at run log aborted
  have commit := @Step.commit C D O ε α sys d d' [] [] session a aborted log
  exact (reachable.run (Run.single (.begin allowed))).run (run.snoc commit)

end Transactions
