import CdrProcessor.FileIngest

/-! What each step of the file path can do: what a visit to the sink comes to, where
the files are, and what the workers hold. -/

namespace CdrProcessor

open Script

/-! ## Marks -/

/-- What is read back of a mark. -/
theorem markOf_value (db : Db) (source : Text)
    (hb : db.count (markPlace source) < 2 ^ 64) :
    (markOf (redis.hget kProgressKey source db)).toNat = db.count (markPlace source) := by
  change _ = ((db.hash kProgressKey).lookup source).getD 0
  unfold Db.count Db.value markPlace at hb
  change ((db.hash kProgressKey).lookup source).getD 0 < _ at hb
  cases hl : (db.hash kProgressKey).lookup source with
  | none =>
    rw [redis_hget_absent hl]
    rfl
  | some value =>
    rw [redis_hget hl]
    rw [hl] at hb
    change value < 2 ^ 64 at hb
    have hv : (UInt64.ofNat value).toNat = value := by
      rw [UInt64.toNat_ofNat']
      exact Nat.mod_eq_of_lt hb
    change (((fromChars (Decimal.digits value)).map Prod.fst).getD 0).toNat = value
    rw [← hv, fromChars_digits, hv]
    exact hv

/-! ## Sequences -/

/-- The sequences of a file's accepted records strictly increase, from 1 or more. -/
def Ordered (parser : IParser) (text : Text) : Prop :=
  (accepted parser text).Pairwise (fun r r' => r.sequence < r'.sequence) ∧
    ∀ r ∈ accepted parser text, r.sequence ≠ 0

instance (parser : IParser) (text : Text) : Decidable (Ordered parser text) :=
  inferInstanceAs (Decidable (_ ∧ _))

private theorem max_eq (a b : UInt64) : max a b = if a ≤ b then b else a := rfl

theorem highest_fold (batch : List CdrRecord) (high : UInt64) :
    let h := batch.foldl (fun high record => max high record.sequence) high
    high ≤ h ∧ (∀ r ∈ batch, r.sequence ≤ h) ∧ (h = high ∨ ∃ r ∈ batch, r.sequence = h) := by
  induction batch generalizing high with
  | nil => exact ⟨UInt64.le_refl _, by simp, .inl rfl⟩
  | cons r batch ih =>
    obtain ⟨h1, h2, h3⟩ := ih (max high r.sequence)
    have hm : (high ≤ max high r.sequence ∧ r.sequence ≤ max high r.sequence) ∧
        (max high r.sequence = high ∨ max high r.sequence = r.sequence) := by
      rw [max_eq]
      split
      · next hle => exact ⟨⟨hle, UInt64.le_refl _⟩, .inr rfl⟩
      · next hle => exact ⟨⟨UInt64.le_refl _, (UInt64.le_total _ _).resolve_left hle⟩, .inl rfl⟩
    refine ⟨UInt64.le_trans hm.1.1 h1, ?_, ?_⟩
    · rw [List.forall_mem_cons]
      exact ⟨UInt64.le_trans hm.1.2 h1, h2⟩
    · rcases h3 with h3 | ⟨r', hr', h3⟩
      · rcases hm.2 with hm | hm
        · exact .inl (h3.trans hm)
        · exact .inr ⟨r, List.mem_cons_self, (h3.trans hm).symm⟩
      · exact .inr ⟨r', List.mem_cons_of_mem _ hr', h3⟩

theorem le_highest {batch : List CdrRecord} {r : CdrRecord} (h : r ∈ batch) :
    r.sequence ≤ AggregateSink.highest batch := (highest_fold batch 0).2.1 r h

theorem highest_mem {batch : List CdrRecord} (h : AggregateSink.highest batch ≠ 0) :
    ∃ r ∈ batch, r.sequence = AggregateSink.highest batch :=
  (highest_fold batch 0).2.2.resolve_left h

theorem highest_ne_zero {batch : List CdrRecord} (hb : batch ≠ [])
    (hr : ∀ r ∈ batch, r.sequence ≠ 0) : AggregateSink.highest batch ≠ 0 := by
  obtain ⟨r, hm⟩ := List.exists_mem_of_ne_nil batch hb
  intro h0
  have hle := le_highest hm
  rw [h0] at hle
  exact hr r hm (UInt64.le_zero_iff.mp hle)

/-! ## Where the files are -/

/-- Some directory holds this text under the name. -/
def Ingest.Holds (s : Ingest) (f : FileName) (text : Text) : Prop :=
  ∃ d, (s.files d).lookup f = some text

/-- Every name is in one directory at most. -/
def Ingest.OnePlace (s : Ingest) : Prop :=
  ∀ f d d', f ∈ s.files d → f ∈ s.files d' → d = d'

theorem mem_of_lookup {t : Table FileName Text} {f : FileName} {text : Text}
    (h : t.lookup f = some text) : f ∈ t := by
  rw [← AList.lookup_isSome, h]
  rfl

theorem Ingest.OnePlace.holds_unique {s : Ingest} (h : s.OnePlace) {f : FileName}
    {text text' : Text} (h1 : s.Holds f text) (h2 : s.Holds f text') : text = text' := by
  obtain ⟨d, h1⟩ := h1
  obtain ⟨d', h2⟩ := h2
  rw [h f d d' (mem_of_lookup h1) (mem_of_lookup h2), h2] at h1
  exact (Option.some.inj h1).symm

/-- A file that is renamed is in its new place, and the others are where they were. -/
theorem rename_lookup {s : Ingest} {f : FileName} {a b : Dir} {text : Text}
    (hf : (s.files a).lookup f = some text) (hab : a ≠ b) (d : Dir) (g : FileName) :
    ((s.rename f a b).files d).lookup g =
      if g = f then (if d = b then some text else if d = a then none else (s.files d).lookup g)
      else (s.files d).lookup g := by
  unfold Ingest.rename
  rw [hf]
  dsimp only
  by_cases hb : d = b
  · subst hb
    rw [Function.update_self, Function.update_of_ne hab.symm]
    by_cases hg : g = f
    · subst hg; rw [AList.lookup_insert, if_pos rfl, if_pos rfl]
    · rw [AList.lookup_insert_ne hg, if_neg hg]
  · rw [Function.update_of_ne hb, if_neg hb]
    by_cases ha : d = a
    · subst ha
      rw [Function.update_self, if_pos rfl]
      by_cases hg : g = f
      · subst hg; rw [AList.lookup_erase, if_pos rfl]
      · rw [AList.lookup_erase_ne hg, if_neg hg]
    · rw [Function.update_of_ne ha, if_neg ha, ite_self]

theorem rename_mem {s : Ingest} {f : FileName} {a b : Dir} {text : Text}
    (hf : (s.files a).lookup f = some text) (hab : a ≠ b) (d : Dir) (g : FileName) :
    g ∈ (s.rename f a b).files d ↔
      if g = f then d = b ∨ (d ≠ a ∧ g ∈ s.files d) else g ∈ s.files d := by
  rw [← AList.lookup_isSome, rename_lookup hf hab, ← AList.lookup_isSome]
  split
  · by_cases hb : d = b <;> by_cases ha : d = a <;> simp [ha, hb]
  · rfl

theorem Ingest.OnePlace.rename {s : Ingest} (h : s.OnePlace) {f : FileName} {a b : Dir}
    {text : Text} (hf : (s.files a).lookup f = some text) (hab : a ≠ b) :
    (s.rename f a b).OnePlace ∧ ∀ g t, (s.rename f a b).Holds g t ↔ s.Holds g t := by
  -- nowhere else before, so in the new place alone afterwards
  have honly : ∀ d, f ∈ s.files d → d = a := fun d hd => h f d a hd (mem_of_lookup hf)
  constructor
  · intro g d d' hd hd'
    rw [rename_mem hf hab] at hd hd'
    by_cases hg : g = f
    · subst hg
      rw [if_pos rfl] at hd hd'
      have hb : ∀ d, d = b ∨ (d ≠ a ∧ g ∈ s.files d) → d = b :=
        fun d hd => hd.resolve_right fun hn => hn.1 (honly d hn.2)
      rw [hb d hd, hb d' hd']
    · rw [if_neg hg] at hd hd'
      exact h g d d' hd hd'
  · intro g t
    unfold Ingest.Holds
    simp only [rename_lookup hf hab]
    by_cases hg : g = f
    · subst hg
      simp only [if_true]
      constructor
      · rintro ⟨d, hd⟩
        refine ⟨a, ?_⟩
        split at hd
        · exact hf.trans hd
        · split at hd
          · cases hd
          · next hda => exact absurd (honly d (mem_of_lookup hd)) hda
      · rintro ⟨d, hd⟩
        refine ⟨b, ?_⟩
        rw [honly d (mem_of_lookup hd)] at hd
        rw [if_pos rfl, ← hf, hd]
    · simp only [if_neg hg]

/-- A rename changes nothing but the directories. -/
theorem rename_rest (s : Ingest) (f : FileName) (a b : Dir) :
    ∃ files, s.rename f a b = { s with files } := by
  unfold Ingest.rename
  split
  · exact ⟨s.files, rfl⟩
  · exact ⟨_, rfl⟩

/-! ## The acts of the watcher -/

theorem start_cases {cfg : Setup} {s s' : Ingest} {swept : List FileName}
    (h : step cfg s (.start swept) = some s') :
    (s.running = false ∧ swept.Perm (s.files .process).keys) ∧
      s' = { s with running := true, queue := swept } := by
  dsimp only [step] at h
  split at h
  · next hc =>
    cases h
    exact ⟨hc, rfl⟩
  · cases h

theorem Ingest.claim_cases {cfg : Setup} {s s' : Ingest} {f : FileName}
    (h : step cfg s (.claim f) = some s') : (s.running = true ∧ f ∈ s.files .ready) ∧
      s' = { s.rename f .ready .process with queue := s.queue ++ [f] } := by
  dsimp only [step] at h
  split at h
  · next hc =>
    cases h
    exact ⟨hc, rfl⟩
  · cases h

theorem stop_cases {cfg : Setup} {s s' : Ingest} (h : step cfg s .stop = some s') :
    s' = { s with stopping := true } := by
  dsimp only [step] at h
  split at h
  · cases h
    rfl
  · cases h

/-- A worker takes the next file, or drops it. -/
theorem take_cases {cfg : Setup} {s s' : Ingest} {i : Nat}
    (h : step cfg s (.take i) = some s') :
    ∃ f queue, s.queue = f :: queue ∧ s.running = true ∧ (s.threads i).job = none ∧
      (s' = { s with queue } ∨ s' = { s with queue }.setJob i (some { name := f })) := by
  dsimp only [step] at h
  split at h
  · next f queue hq hj =>
    split at h
    · next hc =>
      cases h
      refine ⟨f, queue, hq, hc.1, hj, ?_⟩
      split
      · exact .inl rfl
      · exact .inr rfl
    · cases h
  · cases h

/-! ## The acts of a worker -/

/-- A worker between two visits to the sink. -/
def Thread.Idle (t : Thread) : Prop :=
  t.openBatch = false ∧ t.queued = 0 ∧ ∀ l, t.link = some l → l.err = false → l.pipe = []

theorem Thread.Idle.world {s : Ingest} {i : Nat} (h : (s.threads i).Idle)
    (script : List Event) : CdrProcessor.Idle (s.world i script) :=
  ⟨rfl, h.1, h.2.1, fun l hl he => ⟨h.2.2 l hl he, rfl⟩⟩

/-- The thread that comes back from the sink. -/
def World.thread (w : World Db) (job : Option Job) : Thread where
  link := w.link
  queued := w.queued
  openBatch := w.openBatch
  delta := w.delta
  job := job

theorem World.thread_idle {w : World Db} (h : Idle w) (job : Option Job) :
    (w.thread job).Idle :=
  ⟨h.closed, h.drained, fun l hl he => (h.quiet l hl he).1⟩

/-- What the next turn of a worker's loop would hand to the sink. -/
def Ingest.nextBatch (s : Ingest) (i : Nat) : List CdrRecord :=
  match (s.threads i).job with
  | some { src := some src, .. } => src.next.2.1
  | _ => []

theorem nextBatch_eq {s : Ingest} {i : Nat} {job : Job} {src src' : FileSource}
    {batch : List CdrRecord} (hj : (s.threads i).job = some job) (hsrc : job.src = some src)
    (hn : src.next = (.ok, batch, src')) : s.nextBatch i = batch := by
  unfold Ingest.nextBatch
  rw [hj]
  obtain ⟨name, _, kept⟩ := job
  cases hsrc
  dsimp only
  rw [hn]

/-- The highest sequence the store says was applied from a file. -/
def Ingest.mark (cfg : Setup) (s : Ingest) (f : FileName) : Nat :=
  s.db.count (markPlace (cfg.source f))

theorem opens_cases {cfg : Setup} {s s' : Ingest} {i : Nat} {readable : Bool}
    {script : List Event} (hi : (s.threads i).Idle) (hb : ∀ f, s.mark cfg f < 2 ^ 64)
    (h : s.opens cfg i readable script = some s') :
    ∃ name kept, (s.threads i).job = some { name, src := none, kept } ∧
      ((script.any Event.isKill = true ∧ s' = s.crashed) ∨
        (script.any Event.isKill = false ∧ ∃ t resume, t.Idle ∧
          t.job = some { name, kept, src := some (FileSource.make
            (if readable then (s.files .process).lookup name else none) cfg.parser resume) } ∧
          s' = { s with threads := Function.update s.threads i t } ∧
          (resume.toNat = s.mark cfg name ∨ ¬ Undisturbed script ∧ resume = 0))) := by
  unfold Ingest.opens at h
  split at h
  · next name kept hj =>
    split at h
    · next resume w hx =>
      split at h
      · cases h
      · next hs =>
        rw [ne_eq, not_not] at hs
        cases h
        refine ⟨name, kept, hj, ?_⟩
        have hx' : RedisStore.resumeAt redis (cfg.source name) (s.world i script) =
            some (resume, w) := hx
        obtain ⟨es, he, hst, hstate, -, hcase⟩ := resumeAt_idle (hi.world script) hx'
        rw [hs, List.append_nil] at he
        change script = es at he
        subst he
        have halive := frame_lives_alive ((frame_lives redis).wires.resumeAt _ _ _ _ hx') rfl hs
        change w.alive = !script.any Event.isKill at halive
        have hsink : w.runTotals = s.runTotals :=
          congrArg Prod.snd ((frame_sinkState redis).wires.resumeAt _ _ _ _ hx')
        change w.host.state = s.db at hstate
        unfold Ingest.back
        cases hk : script.any Event.isKill with
        | true =>
          rw [halive, hk, hstate]
          exact .inl ⟨rfl, rfl⟩
        | false =>
          rw [halive, hk, hstate, hsink]
          have hidle : Idle w := by
            rcases hst with hst | hst
            · exact hst
            · rw [hst.alive, hk] at halive
              cases halive
          refine .inr ⟨rfl, w.thread _, resume, World.thread_idle hidle _, rfl, rfl, ?_⟩
          rcases hcase with ⟨-, -, hr⟩ | ⟨hf, hr⟩
          · left
            rw [hr]
            exact markOf_value s.db (cfg.source name) (hb name)
          · exact .inr ⟨not_undisturbed hf, hr⟩
    · cases h
  · cases h

theorem consume_cases {cfg : Setup} {s s' : Ingest} {i : Nat} {visit : Visit}
    {script : List Event} (hi : (s.threads i).Idle)
    (h : s.consume cfg i visit script = some s') :
    ∃ name src kept batch src' db' ran,
      (s.threads i).job = some { name, src := some src, kept } ∧
      src.next = (.ok, batch, src') ∧
      Visited ((consumeCalls visit batch (cfg.source name)).map Call.command) script s.db db' ran ∧
      let e : Entry := { name, batch, calls := consumeCalls visit batch (cfg.source name), ran }
      (script.any Event.isKill = true ∧
          s' = ({ s with db := db', log := s.log ++ [e] } : Ingest).crashed) ∨
        (script.any Event.isKill = false ∧ ∃ t runTotals, t.Idle ∧
          t.job = some { name, src := some src', kept := kept && e.whole } ∧
          s' = { s with db := db', log := s.log ++ [e], runTotals,
                        threads := Function.update s.threads i t }) := by
  unfold Ingest.consume at h
  split at h
  · next name src kept hj =>
    split at h
    · next batch src' hn =>
      split at h
      · next w hx =>
        split at h
        · cases h
        · next hs =>
          rw [ne_eq, not_not] at hs
          cases h
          obtain ⟨hst, halive, hv⟩ := consume_visited (hi.world script) rfl hx hs
          change w.alive = !script.any Event.isKill at halive
          refine ⟨name, src, kept, batch, src', w.host.state, w.host.ran, hj, hn, hv, ?_⟩
          unfold Ingest.back
          cases hk : script.any Event.isKill with
          | true =>
            rw [halive, hk]
            exact .inl ⟨rfl, rfl⟩
          | false =>
            rw [halive, hk]
            have hidle : Idle w := by
              rcases hst with hst | hst
              · exact hst
              · rw [hst.alive, hk] at halive
                cases halive
            exact .inr ⟨rfl, w.thread _, w.runTotals, World.thread_idle hidle _, rfl, rfl⟩
      · cases h
    · cases h
  · cases h

theorem dispose_cases {s s' : Ingest} {i : Nat} {moved : Bool}
    (h : s.dispose i moved = some s') :
    ∃ name src kept d, (s.threads i).job = some { name, src := some src, kept } ∧
      (d = .done ∧ src.next.1 = .done ∨ d = .fail) ∧
      s' = (if moved then s.rename name .process d else s).setJob i none := by
  unfold Ingest.dispose at h
  split at h
  · next name src kept hj =>
    split at h
    · next hn => cases h; exact ⟨name, src, kept, .done, hj, .inl ⟨rfl, by rw [hn]⟩, rfl⟩
    · next hn => cases h; exact ⟨name, src, kept, .fail, hj, .inr rfl, rfl⟩
    · cases h
  · cases h

end CdrProcessor
