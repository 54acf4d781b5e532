import CdrProcessor.ExactlyOnce
import CdrProcessor.Owed

/-!
From the files to the answers: whatever the process dies in the middle of, the gateway sends what
the records of the delivered files come to, each up to the mark of its file and each once.
-/

namespace CdrProcessor

variable {cfg : Setup} {s s' : Ingest}

/-- The database is what the committed batches leave, one after the other. -/
def Ingest.Committed (s : Ingest) : Prop :=
  ∃ calls, s.db = consumed calls ∧ ∀ c, amount (recordsOf calls) c = s.tally c

theorem Ingest.Committed.initial : (Ingest.initial {}).Committed := ⟨[], rfl, fun _ => rfl⟩

theorem Ingest.Committed.same (h : s.Committed) (hdb : s'.db = s.db) (hlog : s'.log = s.log) :
    s'.Committed := by
  obtain ⟨calls, hcalls, htally⟩ := h
  exact ⟨calls, hdb.trans hcalls, fun c => (htally c).trans (tally_congr hlog c).symm⟩

/-- One batch more. -/
theorem Ingest.Committed.land (h : s.Committed) (call : ConsumeCall) {e : Entry}
    (hdb : s'.db = call.run s.db) (hlog : s'.log = s.log ++ [e]) (hran : e.ran ≠ [])
    (hbatch : e.batch = call.batch) : s'.Committed := by
  obtain ⟨calls, hcalls, htally⟩ := h
  refine ⟨calls ++ [call], ?_, fun c => ?_⟩
  · unfold consumed at hcalls ⊢
    rw [hdb, hcalls, List.foldl_append]
    rfl
  · unfold recordsOf at htally ⊢
    rw [tally_append hlog, if_pos hran, List.flatMap_append, amount_append, htally, hbatch,
      List.flatMap_singleton]

theorem Ingest.Committed.step {db : Db} {a : Act} (h : s.Committed) (hone : Once cfg db s)
    (ha : Healthy cfg s a) (hs : CdrProcessor.step cfg s a = some s') : s'.Committed := by
  have hsteady := ha.unrepeated.steady
  obtain ⟨-, heff⟩ := step_shape hone.noRepeat.shape hsteady.arrives hs
  cases heff with
  | quiet hdb hlog _ _ _ _ => exact h.same hdb hlog
  | opened hj hk ht hr => exact h.same rfl rfl
  | finished hj hd hdb hlog _ _ _ => exact h.same hdb hlog
  | @handed i visit script name src kept batch src' ran _ hj hn hv hlog hfiles hjobs =>
    have hhanded := hone.noRepeat.shape.handed hj hn hv hsteady
    by_cases hl : Lands script
    · obtain ⟨hran, hrun, -⟩ := hhanded.landed hl
      exact h.land ⟨visit, batch, cfg.source name⟩ (congrArg Prod.snd hrun) hlog hran rfl
    · obtain ⟨rfl, hdb⟩ := hhanded.missed hl
      obtain ⟨calls, hcalls, htally⟩ := h
      refine ⟨calls, hdb.trans hcalls, fun c => ?_⟩
      rw [tally_append hlog, if_neg (by simp), Nat.add_zero]
      exact htally c

/-- What the delivered files come to: of each the accepted records up to its mark. -/
def Ingest.ledger (cfg : Setup) (s : Ingest) : Ledger := fun c =>
  (s.entries.map fun e => amount (s.due cfg e.1 e.2) c).sum

end CdrProcessor
