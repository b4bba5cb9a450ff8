import IncidentPipeline.Foundation.Serial

/-!
# Transactions that lock one row

A transaction whose first statement locks a row, and which from then on reads and writes nothing
but that row, might as well run at the moment of its commit: what the others commit in between
makes no difference to it. So any interleaving of such transactions commits what executing them
one after another, in the order of their commits, commits.

`same k` relates states in which nothing about the row `k` is different. Statements wait for a
lock as long as another transaction has it; a lock is taken only if there is a row to lock.
-/

namespace Transactions

variable {C D O ε α β ρ κ : Type}

/-! ### Programs that look at one row -/

/-- The same error, or states that are related. -/
def Related (R : D → D → Prop) : Except ε D → Except ε D → Prop
  | .ok a, .ok b => R a b
  | .error e, .error f => e = f
  | _, _ => False

namespace Prog

/-- Related states give the program the same answers, and its operations keep them related. -/
def Local (sv : Server D O ε) (R : D → D → Prop) : Prog C D O ε α → Prop
  | ret _ => True
  | stmt s next =>
      (∀ c c' d d', R d d' → s.run c d = s.run c' d') ∧
      (∀ c d d' reply ops, R d d' → s.run c d = .ok (reply, ops) →
        Related R (sv.replay ops d) (sv.replay ops d')) ∧
      ∀ r, (next r).Local sv R

variable {sv : Server D O ε} {R : D → D → Prop}

theorem local_bind {p : Prog C D O ε α} {f : α → Prog C D O ε β} (first : p.Local sv R)
    (later : ∀ a, (f a).Local sv R) : (p.bind f).Local sv R := by
  induction p with
  | ret r =>
      cases r with
      | ok a => exact later a
      | error e => exact trivial
  | stmt s next ih => exact ⟨first.1, first.2.1, fun r => ih r (first.2.2 r)⟩

theorem local_execute {s : Statement C D O ε ρ}
    (answers : ∀ c c' d d', R d d' → s.run c d = s.run c' d')
    (writes : ∀ c d d' reply ops, R d d' → s.run c d = .ok (reply, ops) →
      Related R (sv.replay ops d) (sv.replay ops d')) : (execute s).Local sv R :=
  ⟨answers, writes, fun _ => trivial⟩

end Prog

/-! ### A transaction that has come some way -/

/-- What is left of the program does, on the tables as they are committed now, what the whole
program would do alone; and so it would on any others in which the row is the same. -/
def Tracks (sv : Server D O ε) (R : D → D → Prop) (origin : Prog C D O ε α) (session : Session O)
    (rest : Prog C D O ε α) (d : D) : Prop :=
  session.aborted = true ∨
    ∃ visible, sv.replay session.log d = .ok visible ∧ ∀ d', R d d' →
      ∃ visible', sv.replay session.log d' = .ok visible' ∧ R visible visible' ∧
        ∀ c, origin.serial sv c ⟨d', false⟩ = rest.serial sv c ⟨visible', false⟩

section Tracks

variable {sv : Server D O ε} {R : D → D → Prop} {origin rest : Prog C D O ε α}
  {session : Session O} {d d' : D}

theorem tracks_fresh (origin : Prog C D O ε α) (d : D) : Tracks sv R origin .fresh origin d :=
  .inr ⟨d, rfl, fun d' related => ⟨d', rfl, related, fun _ => rfl⟩⟩

/-- What the others commit makes no difference. -/
theorem Tracks.others (symm : ∀ {a b}, R a b → R b a) (trans : ∀ {a b c}, R a b → R b c → R a c)
    (tracks : Tracks sv R origin session rest d) (related : R d d') :
    Tracks sv R origin session rest d' := by
  obtain aborted | ⟨visible, seen, everywhere⟩ := tracks
  · exact .inl aborted
  · obtain ⟨visible', seen', same, _⟩ := everywhere d' related
    refine .inr ⟨visible', seen', fun e later => ?_⟩
    obtain ⟨visible'', seen'', same', serial⟩ := everywhere e (trans related later)
    exact ⟨visible'', seen'', trans (symm same) same', serial⟩

/-- Neither does it matter when a statement is sent. -/
theorem Tracks.statement {s : Statement C D O ε ρ}
    {next : Except ε ρ → Prog C D O ε α} (looks : (Prog.stmt s next).Local sv R)
    (tracks : Tracks sv R origin session (.stmt s next) d) (context : C) (fault : Option ε) :
    Tracks sv R origin (sv.serve s ⟨d, context, fault⟩ session).2
      (next (sv.serve s ⟨d, context, fault⟩ session).1) d := by
  obtain aborted | ⟨visible, seen, everywhere⟩ := tracks
  · have same := (sv.serve_of_aborted s ⟨d, context, fault⟩ aborted).1
    exact .inl (same.symm ▸ aborted)
  obtain ⟨e, refused, served⟩ | ⟨_, e, served⟩ |
      ⟨sent, _, _, visible', reply, ops, finish, seen', answer, written, served⟩ :=
    sv.serve_cases s ⟨d, context, fault⟩ session
  · -- the driver refuses it wherever the program is executed
    rw [served]
    refine .inr ⟨visible, seen, fun d' related => ?_⟩
    obtain ⟨visible', seen', same, serial⟩ := everywhere d' related
    refine ⟨visible', seen', same, fun c => (serial c).trans ?_⟩
    rw [Prog.serial, Server.answer, refused]
  · rw [served]
    exact .inl rfl
  · rw [served]
    cases seen.symm.trans seen'
    refine .inr ⟨finish, Server.replay_append_ok.mpr ⟨visible, seen, written⟩, fun d' related => ?_⟩
    obtain ⟨visible', seen', same, serial⟩ := everywhere d' related
    have answer' : ∀ c, s.run c visible' = .ok (reply, ops) := fun c =>
      (looks.1 context c visible visible' same).symm.trans answer
    have kept := looks.2.1 context visible visible' reply ops same answer
    rw [written] at kept
    cases written' : sv.replay ops visible' with
    | error e =>
        rw [written'] at kept
        exact kept.elim
    | ok finish' =>
        rw [written'] at kept
        refine ⟨finish', Server.replay_append_ok.mpr ⟨visible', seen', written'⟩, kept,
          fun c => (serial c).trans ?_⟩
        rw [Prog.serial, Server.answer, sent]
        simp [answer', written']

/-- A transaction that can commit commits what the program would do alone now. -/
theorem Tracks.serial {a : α} {d' : D} (itself : R d d) (alive : session.aborted = false)
    (applies : sv.replay session.log d = .ok d')
    (tracks : Tracks sv R origin session (.ret (.ok a)) d) (c : C) :
    origin.serial sv c ⟨d, false⟩ = (.ok a, ⟨d', false⟩) := by
  obtain aborted | ⟨_, _, everywhere⟩ := tracks
  · cases alive.symm.trans aborted
  · obtain ⟨visible, seen, _, serial⟩ := everywhere d itself
    cases seen.symm.trans applies
    exact serial c

end Tracks

/-! ### Interleavings -/

/-- A server, what the rows are, and the programs that lock them. `others` is what else is
committed. A program starts with the statement that takes the lock, raises if there was nothing
to lock, and touches no other row. -/
structure LockSystem (C D O ε α κ : Type) where
  server : Server D O ε
  good : D → Prop
  same : κ → D → D → Prop
  row : κ → D → Prop
  programs : κ → Prog C D O ε α → Prop
  others : D → D → Prop
  itself : ∀ {k d}, good d → same k d d
  symm : ∀ {k a b}, same k a b → same k b a
  trans : ∀ {k a b c}, same k a b → same k b c → same k a c
  looks : ∀ {k p}, programs k p → p.Local server (same k)
  starts : ∀ {k r}, ¬ programs k (.ret r)
  missing : ∀ {k ρ} {s : Statement C D O ε ρ} {next}, programs k (.stmt s next) →
    ∀ {m : Moment C D ε}, good m.committed → ¬ row k m.committed →
      ∃ e, next (server.serve s m .fresh).1 = .ret (.error e)
  frame : ∀ {k p c d d' a}, programs k p → good d →
    p.serial server c ⟨d, false⟩ = (.ok a, ⟨d', false⟩) → good d' ∧ ∀ j ≠ k, same j d d'
  others_good : ∀ {d d'}, others d d' → good d → good d'

/-- Whether a transaction waits for its lock, or how far it has come; `held` if there was
something to lock. -/
inductive Phase (C D O ε α : Type) : Type 1 where
  | waiting
  | running (held : Bool) (session : Session O) (rest : Prog C D O ε α)

structure LockTxn (C D O ε α κ : Type) : Type 1 where
  key : κ
  origin : Prog C D O ε α
  phase : Phase C D O ε α

/-- Whether a transaction has its row locked. -/
def LockTxn.holds (t : LockTxn C D O ε α κ) : Prop :=
  match t.phase with
  | .running held _ _ => held = true
  | .waiting => False

structure LockWorld (C D O ε α κ : Type) : Type 1 where
  committed : D
  opened : List (LockTxn C D O ε α κ)

inductive LockLabel (C D O ε α κ : Type) : Type 1 where
  | quiet
  | committed (key : κ) (origin : Prog C D O ε α) (value : α)
  | others

inductive LockSystem.Step (sys : LockSystem C D O ε α κ) :
    LockWorld C D O ε α κ → LockLabel C D O ε α κ → LockWorld C D O ε α κ → Prop where
  | begin {w : LockWorld C D O ε α κ} {k : κ} {p : Prog C D O ε α} (allowed : sys.programs k p) :
      sys.Step w .quiet ⟨w.committed, ⟨k, p, .waiting⟩ :: w.opened⟩
  /-- The first statement is answered when no other transaction holds the row. -/
  | lock {committed : D} {before after : List (LockTxn C D O ε α κ)} {k : κ} {ρ : Type}
      {s : Statement C D O ε ρ} {next : Except ε ρ → Prog C D O ε α} (context : C)
      (fault : Option ε) {held : Bool} (found : held = true ↔ sys.row k committed)
      (free : ∀ t ∈ before ++ after, t.holds → t.key ≠ k) :
      sys.Step ⟨committed, before ++ ⟨k, .stmt s next, .waiting⟩ :: after⟩ .quiet
        ⟨committed, before ++ ⟨k, .stmt s next, .running held
          (sys.server.serve s ⟨committed, context, fault⟩ .fresh).2
          (next (sys.server.serve s ⟨committed, context, fault⟩ .fresh).1)⟩ :: after⟩
  | statement {committed : D} {before after : List (LockTxn C D O ε α κ)} {k : κ}
      {p : Prog C D O ε α} {held : Bool} {session : Session O} {ρ : Type}
      {s : Statement C D O ε ρ} {next : Except ε ρ → Prog C D O ε α} (context : C)
      (fault : Option ε) :
      sys.Step ⟨committed, before ++ ⟨k, p, .running held session (.stmt s next)⟩ :: after⟩ .quiet
        ⟨committed, before ++ ⟨k, p, .running held
          (sys.server.serve s ⟨committed, context, fault⟩ session).2
          (next (sys.server.serve s ⟨committed, context, fault⟩ session).1)⟩ :: after⟩
  | commit {committed committed' : D} {before after : List (LockTxn C D O ε α κ)} {k : κ}
      {p : Prog C D O ε α} {held : Bool} {session : Session O} {a : α}
      (alive : session.aborted = false)
      (applies : sys.server.replay session.log committed = .ok committed') :
      sys.Step ⟨committed, before ++ ⟨k, p, .running held session (.ret (.ok a))⟩ :: after⟩
        (.committed k p a) ⟨committed', before ++ after⟩
  /-- The program has raised, or its connection is lost. -/
  | rollback {committed : D} {before after : List (LockTxn C D O ε α κ)}
      {t : LockTxn C D O ε α κ} :
      sys.Step ⟨committed, before ++ t :: after⟩ .quiet ⟨committed, before ++ after⟩
  /-- Something else commits, which leaves the rows that are locked alone. -/
  | others {committed committed' : D} {opened : List (LockTxn C D O ε α κ)}
      (changes : sys.others committed committed')
      (apart : ∀ t ∈ opened, t.holds → sys.same t.key committed committed') :
      sys.Step ⟨committed, opened⟩ .others ⟨committed', opened⟩

/-! ### Serialisability -/

section Serial

variable {sys : LockSystem C D O ε α κ} {u v w : LockWorld C D O ε α κ}
  {label : LockLabel C D O ε α κ}

/-- An open transaction at any moment. -/
structure LockTxn.Sound (sys : LockSystem C D O ε α κ) (d : D) (t : LockTxn C D O ε α κ) :
    Prop where
  allowed : sys.programs t.key t.origin
  phase : match t.phase with
    | .waiting => True
    | .running true session rest =>
        rest.Local sys.server (sys.same t.key) ∧
          Tracks sys.server (sys.same t.key) t.origin session rest d
    | .running false _ rest => ∃ e, rest = .ret (.error e)

structure LockWorld.Valid (sys : LockSystem C D O ε α κ) (w : LockWorld C D O ε α κ) : Prop where
  good : sys.good w.committed
  sound : ∀ t ∈ w.opened, t.Sound sys w.committed
  apart : w.opened.Pairwise fun s t => s.holds → t.holds → s.key ≠ t.key

/-- Who does not hold a row does not mind what is committed; who does is left alone. -/
theorem LockTxn.Sound.others {d d' : D} {t : LockTxn C D O ε α κ} (sound : t.Sound sys d)
    (left : t.holds → sys.same t.key d d') : t.Sound sys d' := by
  obtain ⟨allowed, phase⟩ := sound
  obtain ⟨k, p, stage⟩ := t
  refine ⟨allowed, ?_⟩
  cases stage with
  | waiting => exact trivial
  | running held session rest =>
      cases held with
      | false => exact phase
      | true => exact ⟨phase.1, phase.2.others sys.symm sys.trans (left rfl)⟩

/-- The row is locked by the statement that starts the program. -/
theorem LockTxn.sound_lock {d : D} (good : sys.good d) {k : κ} {s : Statement C D O ε ρ}
    {next : Except ε ρ → Prog C D O ε α} (allowed : sys.programs k (.stmt s next)) (context : C)
    (fault : Option ε) {held : Bool} (found : held = true ↔ sys.row k d) :
    (⟨k, .stmt s next, .running held (sys.server.serve s ⟨d, context, fault⟩ .fresh).2
      (next (sys.server.serve s ⟨d, context, fault⟩ .fresh).1)⟩ :
        LockTxn C D O ε α κ).Sound sys d := by
  have looks := sys.looks allowed
  refine ⟨allowed, ?_⟩
  cases held with
  | false =>
      have absent : ¬ sys.row k d := fun there => by cases found.mpr there
      exact sys.missing allowed good absent
  | true => exact ⟨looks.2.2 _, (tracks_fresh _ d).statement looks context fault⟩

private theorem pairwise_exchange {A : Type*} {R : A → A → Prop} {before after : List A} {a b : A}
    (h : (before ++ a :: after).Pairwise R) (left : ∀ x ∈ before, R x a → R x b)
    (right : ∀ x ∈ after, R a x → R b x) : (before ++ b :: after).Pairwise R := by
  rw [List.pairwise_append, List.pairwise_cons] at h ⊢
  obtain ⟨hbefore, ⟨hright, hafter⟩, hleft⟩ := h
  refine ⟨hbefore, ⟨fun x hx => right x hx (hright x hx), hafter⟩, fun x hx y hy => ?_⟩
  obtain rfl | hy := List.mem_cons.mp hy
  · exact left x hx (hleft x hx a (by simp))
  · exact hleft x hx y (by simp [hy])

/-- The transaction that is served changes; the others stay as they are. -/
theorem LockWorld.Valid.exchange {committed : D} {before after : List (LockTxn C D O ε α κ)}
    {t t' : LockTxn C D O ε α κ}
    (valid : (LockWorld.mk committed (before ++ t :: after)).Valid sys)
    (sound : t'.Sound sys committed) (key : t'.key = t.key)
    (free : t'.holds → t.holds ∨ ∀ x ∈ before ++ after, x.holds → x.key ≠ t.key) :
    (LockWorld.mk committed (before ++ t' :: after)).Valid sys := by
  refine ⟨valid.good, fun x hx => ?_, pairwise_exchange valid.apart ?_ ?_⟩
  · obtain early | late := List.mem_append.mp hx
    · exact valid.sound x (List.mem_append_left _ early)
    · obtain rfl | late := List.mem_cons.mp late
      · exact sound
      · exact valid.sound x (List.mem_append_right _ (List.mem_cons_of_mem _ late))
  · intro x hx apart first second
    rw [key]
    obtain earlier | alone := free second
    · exact apart first earlier
    · exact alone x (List.mem_append_left _ hx) first
  · intro x hx apart first second
    rw [key]
    obtain earlier | alone := free first
    · exact apart earlier second
    · exact (alone x (List.mem_append_right _ hx) second).symm

theorem LockWorld.Valid.remove {committed : D} {before after : List (LockTxn C D O ε α κ)}
    {t : LockTxn C D O ε α κ} (valid : (LockWorld.mk committed (before ++ t :: after)).Valid sys) :
    (LockWorld.mk committed (before ++ after)).Valid sys := by
  have fewer : (before ++ after).Sublist (before ++ t :: after) :=
    List.Sublist.append_left (List.sublist_cons_self t after) before
  exact ⟨valid.good, fun x hx => valid.sound x (fewer.subset hx), valid.apart.sublist fewer⟩

/-- A commit is the execution of the whole program on the tables of that moment. -/
theorem LockSystem.Step.serial {k : κ} {p : Prog C D O ε α} {a : α}
    (step : sys.Step u (.committed k p a) v) (valid : u.Valid sys) (c : C) :
    sys.programs k p ∧
      p.serial sys.server c ⟨u.committed, false⟩ = (.ok a, ⟨v.committed, false⟩) := by
  cases step with
  | @commit committed committed' before after _ _ held session _ alive applies =>
      obtain ⟨allowed, phase⟩ :=
        valid.sound ⟨k, p, .running held session (.ret (.ok a))⟩ (by simp)
      refine ⟨allowed, ?_⟩
      cases held with
      | false =>
          obtain ⟨e, raised⟩ := phase
          cases raised
      | true => exact phase.2.serial (sys.itself valid.good) alive applies c

/-- What a transaction commits leaves the rows of the others alone. -/
theorem LockWorld.Valid.commit {committed committed' : D}
    {before after : List (LockTxn C D O ε α κ)} {k : κ} {p : Prog C D O ε α} {held : Bool}
    {session : Session O} {a : α} (c : C)
    (valid : (LockWorld.mk committed
      (before ++ ⟨k, p, .running held session (.ret (.ok a))⟩ :: after)).Valid sys)
    (alive : session.aborted = false)
    (applies : sys.server.replay session.log committed = .ok committed') :
    (LockWorld.mk committed' (before ++ after)).Valid sys := by
  have step := @LockSystem.Step.commit _ _ _ _ _ _ sys committed committed' before after k p held
    session a alive applies
  obtain ⟨allowed, serial⟩ := step.serial valid c
  obtain ⟨good, left⟩ := sys.frame allowed valid.good serial
  have holds : (LockTxn.mk k p (.running held session (.ret (.ok a)))).holds := by
    have phase := (valid.sound ⟨k, p, .running held session (.ret (.ok a))⟩ (by simp)).phase
    cases held with
    | false =>
        obtain ⟨e, raised⟩ := phase
        cases raised
    | true => rfl
  have rest := valid.remove
  refine ⟨good, fun t ht => (rest.sound t ht).others fun locked => left t.key ?_, rest.apart⟩
  -- the row of the transaction that commits is its own
  have pairs := valid.apart
  rw [List.pairwise_append, List.pairwise_cons] at pairs
  obtain early | late := List.mem_append.mp ht
  · exact pairs.2.2 t early _ List.mem_cons_self locked holds
  · exact (pairs.2.1.1 t late holds locked).symm

theorem LockSystem.Step.valid [Nonempty C] (step : sys.Step u label v) (valid : u.Valid sys) :
    v.Valid sys := by
  cases step with
  | «begin» allowed =>
      refine ⟨valid.good, fun t ht => ?_, List.pairwise_cons.mpr ⟨?_, valid.apart⟩⟩
      · obtain rfl | earlier := List.mem_cons.mp ht
        · exact ⟨allowed, trivial⟩
        · exact valid.sound t earlier
      · exact fun t _ waits => waits.elim
  | @lock committed before after k ρ s next context fault held found free =>
      have allowed := (valid.sound ⟨k, .stmt s next, .waiting⟩ (by simp)).allowed
      exact valid.exchange (LockTxn.sound_lock valid.good allowed context fault found) rfl
        fun _ => .inr free
  | @statement committed before after k p held session ρ s next context fault =>
      refine valid.exchange ?_ rfl fun h => .inl h
      obtain ⟨allowed, phase⟩ := valid.sound ⟨k, p, .running held session (.stmt s next)⟩ (by simp)
      refine ⟨allowed, ?_⟩
      cases held with
      | false =>
          obtain ⟨e, raised⟩ := phase
          cases raised
      | true => exact ⟨phase.1.2.2 _, phase.2.statement phase.1 context fault⟩
  | commit alive applies => exact valid.commit (Classical.arbitrary C) alive applies
  | rollback => exact valid.remove
  | others changes apart =>
      exact ⟨sys.others_good changes valid.good,
        fun t ht => (valid.sound t ht).others (apart t ht), valid.apart⟩

/-! ### Runs -/

/-- A finite run, oldest step first. -/
inductive LockSystem.Run (sys : LockSystem C D O ε α κ) (u : LockWorld C D O ε α κ) :
    List (LockLabel C D O ε α κ) → LockWorld C D O ε α κ → Prop where
  | refl : sys.Run u [] u
  | snoc {labels : List (LockLabel C D O ε α κ)} {v w : LockWorld C D O ε α κ}
      {label : LockLabel C D O ε α κ} (before : sys.Run u labels v) (step : sys.Step v label w) :
      sys.Run u (labels ++ [label]) w

/-- The committed states of transactions that are executed alone, one after another. -/
inductive LockSystem.Serially (sys : LockSystem C D O ε α κ) (d : D) :
    List (LockLabel C D O ε α κ) → D → Prop where
  | refl : sys.Serially d [] d
  | quiet {labels : List (LockLabel C D O ε α κ)} {e : D} (before : sys.Serially d labels e) :
      sys.Serially d (labels ++ [.quiet]) e
  | committed {labels : List (LockLabel C D O ε α κ)} {e f : D} {k : κ} {p : Prog C D O ε α}
      {a : α} (before : sys.Serially d labels e) (allowed : sys.programs k p)
      (serial : ∀ c, p.serial sys.server c ⟨e, false⟩ = (.ok a, ⟨f, false⟩)) :
      sys.Serially d (labels ++ [.committed k p a]) f
  | others {labels : List (LockLabel C D O ε α κ)} {e f : D} (before : sys.Serially d labels e)
      (changes : sys.others e f) : sys.Serially d (labels ++ [.others]) f

variable {labels : List (LockLabel C D O ε α κ)}

theorem LockSystem.Run.valid [Nonempty C] (run : sys.Run u labels v) (valid : u.Valid sys) :
    v.Valid sys := by
  induction run with
  | refl => exact valid
  | snoc _ step ih => exact step.valid ih

/-- Every interleaving commits what the transactions commit one after another, in the order of
their commits. -/
theorem LockSystem.Run.serially [Nonempty C] (run : sys.Run u labels v) (valid : u.Valid sys) :
    sys.Serially u.committed labels v.committed := by
  induction run with
  | refl => exact .refl
  | @snoc labels v w label before step ih =>
      have here := before.valid valid
      cases label with
      | quiet =>
          have same : w.committed = v.committed := by cases step <;> rfl
          rw [same]
          exact ih.quiet
      | committed k p a =>
          obtain ⟨allowed, _⟩ := step.serial here (Classical.arbitrary C)
          exact ih.committed allowed fun c => (step.serial here c).2
      | others =>
          cases step with
          | others changes => exact ih.others changes

/-! ### Transactions that go through -/

theorem LockSystem.Run.trans {later : List (LockLabel C D O ε α κ)} (first : sys.Run u labels v)
    (second : sys.Run v later w) : sys.Run u (labels ++ later) w := by
  induction second with
  | refl => simpa using first
  | snoc _ step ih =>
      rw [← List.append_assoc]
      exact ih.snoc step

theorem LockSystem.Run.single (step : sys.Step u label v) : sys.Run u [label] v := .snoc .refl step

theorem Prog.serial_aborted (sv : Server D O ε) (c : C) (p : Prog C D O ε α) (d : D) :
    (p.serial sv c ⟨d, true⟩).2.aborted = true := by
  induction p with
  | ret r => rfl
  | stmt s next ih =>
      rw [Prog.serial, Server.answer]
      cases s.refused <;> exact ih _

variable {before after : List (LockTxn C D O ε α κ)} {k : κ} {p : Prog C D O ε α} {a : α}
  {d d' : D}

/-- A row that nobody holds is locked by who asks for it. -/
theorem LockSystem.locks (sys : LockSystem C D O ε α κ) (c : C) (allowed : sys.programs k p)
    (there : sys.row k d) (free : ∀ t ∈ before ++ after, t.holds → t.key ≠ k)
    (returns : p.serial sys.server c ⟨d, false⟩ = (.ok a, ⟨d', false⟩)) :
    ∃ session rest, session.aborted = false ∧
      sys.Step ⟨d, before ++ ⟨k, p, .waiting⟩ :: after⟩ .quiet
        ⟨d, before ++ ⟨k, p, .running true session rest⟩ :: after⟩ := by
  cases p with
  | ret r => exact absurd allowed sys.starts
  | stmt s next =>
      refine ⟨_, _, ?_, .lock c none (by simp [there]) free⟩
      obtain ⟨visible, _, answered⟩ := sys.server.answer_eq_serve c d s .fresh rfl
      rw [Prog.serial, ← Session.fresh_aborted (O := O), answered] at returns
      cases lost : (sys.server.serve s ⟨d, c, none⟩ .fresh).2.aborted with
      | false => rfl
      | true =>
          have stays := Prog.serial_aborted sys.server c
            (next (sys.server.serve s ⟨d, c, none⟩ .fresh).1) visible
          rw [lost] at returns
          rw [returns] at stays
          cases stays

/-- With its row locked a program can run to its end. -/
theorem LockSystem.statements (sys : LockSystem C D O ε α κ) (c : C)
    (before after : List (LockTxn C D O ε α κ)) (d : D) (k : κ) (origin p : Prog C D O ε α)
    (session : Session O) {visible : D} (seen : sys.server.replay session.log d = .ok visible) :
    ∃ labels session',
      sys.Run ⟨d, before ++ ⟨k, origin, .running true session p⟩ :: after⟩ labels
        ⟨d, before ++ ⟨k, origin, .running true session'
          (.ret (p.serial sys.server c ⟨visible, session.aborted⟩).1)⟩ :: after⟩ ∧
      sys.server.replay session'.log d =
        .ok (p.serial sys.server c ⟨visible, session.aborted⟩).2.db ∧
      session'.aborted = (p.serial sys.server c ⟨visible, session.aborted⟩).2.aborted := by
  induction p generalizing session visible with
  | ret r => exact ⟨[], session, .refl, seen, rfl⟩
  | stmt s next ih =>
      obtain ⟨later, replayed, answered⟩ := sys.server.answer_eq_serve c d s session seen
      obtain ⟨labels, session', run, log, aborted⟩ := ih _ _ replayed
      have step := @LockSystem.Step.statement _ _ _ _ _ _ sys d before after k origin true session _
        s next c none
      rw [Prog.serial, answered]
      exact ⟨_, session', (LockSystem.Run.single step).trans run, log, aborted⟩

/-- It then commits what it would commit alone now. -/
theorem LockWorld.Valid.finishes {session : Session O} {rest : Prog C D O ε α} (c : C)
    (valid : (LockWorld.mk d (before ++ ⟨k, p, .running true session rest⟩ :: after)).Valid sys)
    (alive : session.aborted = false)
    (returns : p.serial sys.server c ⟨d, false⟩ = (.ok a, ⟨d', false⟩)) :
    ∃ labels, sys.Run ⟨d, before ++ ⟨k, p, .running true session rest⟩ :: after⟩
      (labels ++ [.committed k p a]) ⟨d', before ++ after⟩ := by
  obtain ⟨_, _, tracks⟩ := valid.sound ⟨k, p, .running true session rest⟩ (by simp)
  obtain lost | ⟨_, _, everywhere⟩ := tracks
  · cases alive.symm.trans lost
  · obtain ⟨visible, seen, _, serial⟩ := everywhere d (sys.itself valid.good)
    obtain ⟨labels, session', run, log, aborted⟩ :=
      sys.statements c before after d k p rest session seen
    rw [alive, (serial c).symm.trans returns] at run log aborted
    exact ⟨labels, run.snoc (.commit aborted log)⟩

end Serial

end Transactions
