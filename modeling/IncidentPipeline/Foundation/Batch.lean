import Mathlib.Tactic

/-!
# Batches

A batch takes its entries in order, each from one state to another, up to the first that raises.
A second run of a batch does nothing where every entry, up to one that raises, finds that it is
done and settled.
-/

namespace Batches

variable {E D : Type}

/-- What an entry may do in a state: a step to another, or it raises. -/
structure System (E D : Type) where
  Step : E → D → D → Prop
  Raises : E → D → Prop
  exclusive : ∀ {e d d'}, Raises e d → ¬ Step e d d'

namespace System

variable {sys : System E D} {entries : List E} {trace : List (E × D × D)} {d d' finish : D}
  {e : E}

/-- A run of the entries, with the steps it has taken. -/
inductive Run (sys : System E D) : List E → D → List (E × D × D) → D → Prop
  | nil {d : D} : Run sys [] d [] d
  | step {e : E} {rest : List E} {d d' finish : D} {trace : List (E × D × D)}
      (first : sys.Step e d d') (later : Run sys rest d' trace finish) :
      Run sys (e :: rest) d ((e, d, d') :: trace) finish
  | stop {e : E} {rest : List E} {d : D} (raises : sys.Raises e d) : Run sys (e :: rest) d [] d

/-- What holds of every entry, up to the first that raises. -/
def UpTo (sys : System E D) (Q : E → D → Prop) (d : D) : List E → Prop
  | [] => True
  | e :: rest => sys.Raises e d ∨ Q e d ∧ sys.UpTo Q d rest

/-! ### Runs -/

theorem Run.keeps {P : D → Prop} (run : sys.Run entries d trace finish)
    (step : ∀ e ∈ entries, ∀ {d d'}, sys.Step e d d' → P d → P d') (holds : P d) : P finish := by
  induction run with
  | nil => exact holds
  | step first later ih =>
      have after := step _ List.mem_cons_self first holds
      exact ih (fun e he => step e (List.mem_cons_of_mem _ he)) after
  | stop raises => exact holds

/-- What a step of the trace has led to is where a later run starts. -/
theorem Run.of_mem_trace {b a : D} (run : sys.Run entries d trace finish)
    (member : (e, b, a) ∈ trace) :
    sys.Step e b a ∧ ∃ rest later, rest ⊆ entries ∧ sys.Run rest a later finish := by
  induction run with
  | nil => cases member
  | stop raises => cases member
  | @step f rest d d' finish trace first later ih =>
      obtain same | after := List.mem_cons.mp member
      · cases same
        exact ⟨first, rest, trace, List.subset_cons_self e rest, later⟩
      · obtain ⟨steps, rest', trace', sub, goes⟩ := ih after
        exact ⟨steps, rest', trace', List.subset_cons_of_subset f sub, goes⟩

/-- What holds in the end and not at the start has come about in one of the steps. -/
theorem Run.crosses {P : D → Prop} (run : sys.Run entries d trace finish) (after : P finish)
    (before : ¬ P d) : ∃ e b a, (e, b, a) ∈ trace ∧ ¬ P b ∧ P a := by
  induction run with
  | nil => exact absurd after before
  | stop raises => exact absurd after before
  | @step e rest d d' finish trace first later ih =>
      by_cases now : P d'
      · exact ⟨e, d, d', List.mem_cons_self, before, now⟩
      · obtain ⟨f, b, a, member, crossed⟩ := ih after now
        exact ⟨f, b, a, List.mem_cons_of_mem _ member, crossed⟩

/-- What an entry establishes where `I` holds, and no later one undoes, holds in the end. -/
theorem Run.upTo {I : D → Prop} {Done : E → D → Prop} {Apart : E → E → Prop}
    (invariant : ∀ e ∈ entries, ∀ {d d'}, sys.Step e d d' → I d → I d')
    (establishes : ∀ e ∈ entries, ∀ {d d'}, sys.Step e d d' → I d → Done e d')
    (keeps : ∀ {e f d d'}, Apart e f → sys.Step f d d' → Done e d → Done e d')
    (run : sys.Run entries d trace finish) (apart : entries.Pairwise Apart) (holds : I d) :
    sys.UpTo Done finish entries := by
  induction run with
  | nil => exact trivial
  | stop raises => exact .inl raises
  | step first later ih =>
      obtain ⟨others, rest⟩ := List.pairwise_cons.mp apart
      refine .inr ⟨?_, ?_⟩
      · exact later.keeps (fun f hf _ _ moves done => keeps (others f hf) moves done)
          (establishes _ List.mem_cons_self first holds)
      · exact ih (fun e he => invariant e (List.mem_cons_of_mem _ he))
          (fun e he => establishes e (List.mem_cons_of_mem _ he)) rest
          (invariant _ List.mem_cons_self first holds)

/-! ### Entries up to the first that raises -/

theorem UpTo.imp {P Q : E → D → Prop} (upTo : sys.UpTo P d entries)
    (raises : ∀ e, sys.Raises e d → sys.Raises e d') (implies : ∀ e, P e d → Q e d') :
    sys.UpTo Q d' entries := by
  induction entries with
  | nil => exact trivial
  | cons e rest ih =>
      obtain stops | ⟨holds, later⟩ := upTo
      · exact .inl (raises e stops)
      · exact .inr ⟨implies e holds, ih later⟩

section Again

variable {Done Settled : E → D → Prop}

/-- A run of entries that are done and settled ends where it starts. -/
theorem UpTo.still (done : sys.UpTo Done d entries) (settled : sys.UpTo Settled d entries)
    (still : ∀ {e d d'}, Done e d → Settled e d → sys.Step e d d' → d' = d)
    (run : sys.Run entries d trace finish) : finish = d := by
  induction run with
  | nil => rfl
  | stop raises => rfl
  | step first later ih =>
      obtain raises | ⟨done, doneLater⟩ := done
      · exact absurd first (sys.exclusive raises)
      obtain raises | ⟨settled, settledLater⟩ := settled
      · exact absurd first (sys.exclusive raises)
      obtain rfl := still done settled first
      exact ih doneLater settledLater

/-- The first entry that is not settled leaves its mark, which no later one removes. -/
theorem UpTo.settled_or {Marked : E → D → Prop} {Apart : E → E → Prop}
    (done : sys.UpTo Done d entries) (apart : entries.Pairwise Apart)
    (still : ∀ {e d d'}, Done e d → Settled e d → sys.Step e d d' → d' = d)
    (marks : ∀ {e d d'}, ¬ Settled e d → sys.Step e d d' → Marked e d')
    (keeps : ∀ {e f d d'}, Apart e f → sys.Step f d d' → Marked e d → Marked e d')
    (run : sys.Run entries d trace finish) :
    sys.UpTo Settled d entries ∨ ∃ e ∈ entries, ¬ Settled e d ∧ Marked e finish := by
  induction run with
  | nil => exact .inl trivial
  | stop raises => exact .inl (.inl raises)
  | @step e rest d d' finish trace first later ih =>
      obtain ⟨others, apart⟩ := List.pairwise_cons.mp apart
      obtain raises | ⟨done, doneLater⟩ := done
      · exact absurd first (sys.exclusive raises)
      by_cases settled : Settled e d
      · obtain rfl := still done settled first
        obtain rest | ⟨f, hf, unsettled, marked⟩ := ih doneLater apart
        · exact .inl (.inr ⟨settled, rest⟩)
        · exact .inr ⟨f, List.mem_cons_of_mem e hf, unsettled, marked⟩
      · refine .inr ⟨e, List.mem_cons_self, settled, ?_⟩
        exact later.keeps (fun f hf _ _ moves marked => keeps (others f hf) moves marked)
          (marks settled first)

end Again

end System

end Batches
