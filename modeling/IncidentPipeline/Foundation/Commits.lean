import IncidentPipeline.Foundation.Interleaving

/-!
# What is ever committed

If every program of a system writes operations of one kind only, then only such operations are
committed, however the programs are interleaved, and what these operations keep holds of the
committed state at any moment.
-/

namespace Transactions

variable {C D O ε α : Type} {P : O → Prop} {I : D → Prop}

theorem Prog.WritesSeen.writes {S : D → O → Prop} {p : Prog C D O ε α} (h : p.WritesSeen S)
    (imp : ∀ d o, S d o → P o) : p.Writes P := by
  induction p with
  | ret r => exact trivial
  | stmt s next ih =>
      refine ⟨fun context d reply ops answer o ho => ?_, fun r => ih r (h.2 r)⟩
      exact imp d o (h.1 context d reply ops answer o ho)

theorem Server.replay_keeps {sv : Server D O ε}
    (kept : ∀ {o d d'}, P o → sv.apply o d = .ok d' → I d → I d') {ops : List O}
    (all : ∀ o ∈ ops, P o) {d d' : D} (written : sv.replay ops d = .ok d') (start : I d) :
    I d' := by
  induction ops generalizing d with
  | nil =>
      cases written
      exact start
  | cons o rest ih =>
      obtain ⟨middle, first, later⟩ := Server.replay_cons_ok.mp written
      obtain ⟨mine, others⟩ := List.forall_mem_cons.mp all
      exact ih others later (kept mine first start)

section Runs

variable {sys : System C D O ε α} {labels : List (Label O)} {w : World C D O ε α} {d : D}

/-- The log with which a program comes to its end. -/
theorem Run.committed_writes (writes : ∀ p, sys.programs p → p.Writes P) (context : C)
    (run : Run sys ⟨d, []⟩ labels w) {session : Session O} {a : α}
    (returned : ⟨session, .ret (.ok a)⟩ ∈ w.opened) : ∀ o ∈ session.log, P o := by
  have logs := @Run.outcomes C D O ε α sys (fun out => ∀ o ∈ out.session.log, P o) _ w labels run
    (fun p allowed schedule => ?_) (by simp)
  · exact logs _ returned fun _ => ⟨d, context, none⟩
  · obtain ⟨ops, log, all⟩ :=
      @Prog.Writes.run C D O ε α P sys.server p (writes p allowed) schedule .fresh
    rw [log]
    exact all

theorem Run.keeps_written (writes : ∀ p, sys.programs p → p.Writes P) (context : C)
    (kept : ∀ {o d d'}, P o → sys.server.apply o d = .ok d' → I d → I d')
    (run : Run sys ⟨d, []⟩ labels w) (start : I d) : I w.committed := by
  induction run with
  | refl => exact start
  | snoc prior last ih =>
      cases last with
      | commit alive applies =>
          exact Server.replay_keeps kept
            (prior.committed_writes writes context (List.mem_append_right _ List.mem_cons_self))
            applies ih
      | «begin» => exact ih
      | statement => exact ih
      | raise => exact ih
      | crash => exact ih

end Runs

end Transactions
