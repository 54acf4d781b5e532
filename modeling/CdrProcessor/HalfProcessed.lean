import CdrProcessor.NoRepeat
import CdrProcessor.PoolDrains
import CdrProcessor.Spool
import CdrProcessor.StopIngest

/-! Behind `stop()` every path handed out was either dropped or read to its end; and, as long
as no name is claimed again while a file of that name is not through, that holds of the files. -/

namespace CdrProcessor.FileIngestor

variable {cfg : Config} {s s' : Ingestor} {f : FileName} {i k : Nat}

/-! ## What a step does -/

theorem claim_cases (h : s.claim f = some s') :
    (s.feeder = .sourceSweep ∨ s.feeder = .reading) ∧ ∃ n, s.links.find .ready f = some n ∧
      s' = { s with
        links := s.links.move .ready f .process f n, watch := s.watch ++ [(f, n)] } := by
  obtain ⟨hf, hs⟩ := Option.ite_none_right_eq_some.mp h
  obtain ⟨n, hn, rfl⟩ := Option.map_eq_some_iff.mp hs
  exact ⟨hf, n, hn, rfl⟩

theorem handOut_cases (h : s.handOut = some s') :
    s.feeder = .watching ∧ ∃ e watch, s.watch = e :: watch ∧
      s' = { s with watch, feeder := .claimed, handed := s.handed ++ [e] } := by
  unfold Ingestor.handOut at h
  split at h
  · next e watch hf hw => exact ⟨hf, e, watch, hw, (Option.some.inj h).symm⟩
  · cases h

theorem begin_cases {seen : Bool} (h : s.begin i seen = some s') :
    ∃ k, s.pool.loops i = .running k ∧ s.works k = .fresh ∧
      s' = s.setWork k (if seen then .skipped else .begun) := by
  unfold Ingestor.begin at h
  split at h
  · next k hl =>
    split at h
    · next hk =>
      obtain ⟨-, hs⟩ := Option.ite_none_right_eq_some.mp h
      exact ⟨k, hl, hk, (Option.some.inj hs).symm⟩
    · cases h
  · cases h

theorem opens_cases {readable : Bool} {resume : UInt64}
    (h : s.opens cfg i readable resume = some s') :
    ∃ k f n r, s.works k = .begun ∧ s.handed[k]? = some (f, n) ∧
      r.found = s.links.find .process f ∧ (r.map = none ∨ r.map = r.found.map s.texts) ∧
      r.src = FileSource.make r.map cfg.parser r.resume ∧ r.passed = [] ∧
      s' = s.setWork k (.reading r) := by
  unfold Ingestor.opens at h
  split at h
  · next k hl =>
    split at h
    · next f n hk hf =>
      refine ⟨k, f, n, _, hk, hf, rfl, ?_, rfl, rfl, (Option.some.inj h).symm⟩
      cases readable with
      | false => exact .inl rfl
      | true => exact .inr rfl
    · cases h
  · cases h

theorem consume_cases (h : s.consume i = some s') :
    ∃ k r batch src, s.works k = .reading r ∧ r.src.next = (.ok, batch, src) ∧
      s' = s.setWork k (.reading { r with src, passed := r.passed ++ [batch] }) := by
  unfold Ingestor.consume at h
  split at h
  · next k hl =>
    split at h
    · next r hk =>
      split at h
      · next batch src hn => exact ⟨k, r, batch, src, hk, hn, (Option.some.inj h).symm⟩
      · cases h
    · cases h
  · cases h

theorem dispose_cases {moved : Bool} (h : s.dispose i moved = some s') :
    ∃ k r f n dir, s.works k = .reading r ∧ s.handed[k]? = some (f, n) ∧ r.src.next.1 ≠ .ok ∧
      (dir = .done ∨ dir = .fail) ∧
      (s' = s.setWork k (.through r dir) ∨ ∃ m, s.links.find .process f = some m ∧
        s' = { s.setWork k (.through r dir) with links := s.links.move .process f dir f m }) := by
  unfold Ingestor.dispose at h
  split at h
  · next k hl =>
    split at h
    · next r f n hk hf =>
      split at h
      · cases h
      · next hn =>
        refine ⟨k, r, f, n, if r.src.next.1 = .done then .done else .fail, hk, hf, hn, ?_, ?_⟩
        · by_cases hd : r.src.next.1 = .done
          · exact .inl (if_pos hd)
          · exact .inr (if_neg hd)
        · dsimp only at h
          split at h
          · obtain ⟨m, hm, rfl⟩ := Option.map_eq_some_iff.mp h
            exact .inr ⟨m, hm, rfl⟩
          · exact .inl (Option.some.inj h).symm
    · cases h
  · cases h

/-- What the pool is let do is no call of `submit`, and no task ends inside `process`. -/
theorem grants_cases {a : ThreadPool.Act} (h : s.grants a = true) :
    (∀ c, a ≠ .submit c) ∧ (a = .stop → s.stopping = .joined) ∧
      ∀ i threw k, a = .finish i threw → s.pool.loops i = .running k →
        (s.works k).returned = true := by
  refine ⟨?_, ?_, ?_⟩
  · rintro c rfl
    cases h
  · rintro rfl
    exact of_decide_eq_true h
  · rintro i threw k rfl hl
    dsimp only [Ingestor.grants] at h
    rw [hl] at h
    exact ((Bool.and_eq_true _ _).mp h).2

/-! ## What is read -/

/-- What a file has to hand out, opened as it was. -/
def Reading.due (cfg : Config) (r : Reading) : List CdrRecord :=
  (FileSource.make r.map cfg.parser r.resume).upcoming

/-- What was passed to the sink and what is still to come. -/
structure Reading.Sound (cfg : Config) (r : Reading) : Prop where
  rest : r.passed.flatten ++ r.src.upcoming = r.due cfg
  failed : r.src.failed = true → r.src.upcoming = []

/-- Every batch was passed, and once. -/
def Reading.Through (cfg : Config) (r : Reading) : Prop := r.passed.flatten = r.due cfg

theorem Reading.Sound.opened {r : Reading} (hs : r.src = FileSource.make r.map cfg.parser r.resume)
    (hp : r.passed = []) : r.Sound cfg := by
  refine ⟨by rw [hp, hs]; rfl, fun hf => ?_⟩
  rw [hs] at hf ⊢
  rcases make_upcoming r.map cfg.parser r.resume with ⟨-, hnone⟩ | ⟨data, -, hok, -⟩
  · exact hnone
  · rw [hok] at hf
    cases hf

theorem Reading.Sound.pass {r : Reading} (h : r.Sound cfg) {batch : List CdrRecord}
    {src : FileSource} (hn : r.src.next = (.ok, batch, src)) :
    Reading.Sound cfg { r with src, passed := r.passed ++ [batch] } := by
  obtain ⟨-, hok, -, hup⟩ := next_ok hn
  refine ⟨?_, fun hf => ?_⟩
  · calc (r.passed ++ [batch]).flatten ++ src.upcoming
        = r.passed.flatten ++ (batch ++ src.upcoming) := by simp
      _ = r.passed.flatten ++ r.src.upcoming := by rw [hup]
      _ = r.due cfg := h.rest
  · change src.failed = true at hf
    rw [hok] at hf
    cases hf

/-- The loop ends only with the source. -/
theorem Reading.Sound.through {r : Reading} (h : r.Sound cfg) (hn : r.src.next.1 ≠ .ok) :
    r.Through cfg := by
  have hnone : r.src.upcoming = [] := by
    cases hf : r.src.failed with
    | true => exact h.failed hf
    | false =>
      rcases next_cases hf with ⟨batch, src, hok, -⟩ | ⟨src, -, hnone⟩
      · exact absurd (by rw [hok]) hn
      · exact hnone
  have hrest := h.rest
  rw [hnone, List.append_nil] at hrest
  exact hrest

/-- What the tasks have come to. -/
structure Works (cfg : Config) (works : Nat → Work) (finished : List Nat) : Prop where
  readings : ∀ k r, works k = .reading r → r.Sound cfg
  ended : ∀ k r dir, works k = .through r dir → r.Through cfg
  returned : ∀ k ∈ finished, (works k).returned = true

theorem Works.update {works : Nat → Work} {finished : List Nat} (h : Works cfg works finished)
    (hk : (works k).returned = false) {work : Work}
    (hr : ∀ r, work = .reading r → r.Sound cfg)
    (ho : ∀ r dir, work = .through r dir → r.Through cfg) :
    Works cfg (Function.update works k work) finished where
  readings j r hj := by
    by_cases heq : j = k
    · subst heq
      rw [Function.update_self] at hj
      exact hr r hj
    · rw [Function.update_of_ne heq] at hj
      exact h.readings j r hj
  ended j r dir hj := by
    by_cases heq : j = k
    · subst heq
      rw [Function.update_self] at hj
      exact ho r dir hj
    · rw [Function.update_of_ne heq] at hj
      exact h.ended j r dir hj
  returned j hj := by
    rw [Function.update_of_ne]
    · exact h.returned j hj
    · rintro rfl
      rw [h.returned j hj] at hk
      cases hk

/-! ## The feeder, the pool and `stop()` -/

/-- No task is turned away, since the pool is destroyed behind the feeder, and every path
handed out has its task. -/
structure Inv (cfg : Config) (s : Ingestor) : Prop where
  pool : ThreadPool.Inv cfg.size s.pool
  calls : ∀ c, s.pool.calls c ≠ .idle → c = .producer 0 ∧ s.feeder = .submitting
  fed : s.handed.length = s.pool.next + if s.feeder = .claimed then 1 else 0
  told : ∀ t, (t, false) ∉ s.pool.returned
  down : s.pool.closing ≠ .up → s.stopping = .joined ∨ s.stopping = .returned
  joined : s.stopping = .joined ∨ s.stopping = .returned → s.feeder = .ended
  returned : s.stopping = .returned → s.pool.closing = .gone
  works : Works cfg s.works s.pool.finished

theorem Inv.initial (cfg : Config) : Inv cfg {} where
  pool := .initial _
  calls c h := absurd rfl h
  fed := rfl
  told t h := by cases h
  down h := absurd rfl h
  joined h := by simp at h
  returned h := by cases h
  works := by
    refine ⟨fun k r h => ?_, fun k r dir h => ?_, fun k h => ?_⟩
    · cases h
    · cases h
    · cases h

/-- The feeder goes on outside `submit`, with no path in hand. -/
theorem Inv.turns (h : Inv cfg s) (hs : s.feeder ≠ .submitting) (hc : s.feeder ≠ .claimed)
    (he : s.feeder ≠ .ended) (hn : s'.feeder ≠ .claimed) (hp : s'.pool = s.pool)
    (hw : s'.works = s.works) (hst : s'.stopping = s.stopping) (hh : s'.handed = s.handed) :
    Inv cfg s' where
  pool := by rw [hp]; exact h.pool
  calls c hc' := by
    rw [hp] at hc'
    exact absurd (h.calls c hc').2 hs
  fed := by rw [hh, hp, h.fed, if_neg hc, if_neg hn]
  told := by rw [hp]; exact h.told
  down := by rw [hp, hst]; exact h.down
  joined hj := by
    rw [hst] at hj
    exact absurd (h.joined hj) he
  returned := by rw [hst, hp]; exact h.returned
  works := by rw [hw, hp]; exact h.works

theorem Inv.setWork (h : Inv cfg s) (hk : (s.works k).returned = false) {work : Work}
    (hr : ∀ r, work = .reading r → r.Sound cfg)
    (ho : ∀ r dir, work = .through r dir → r.Through cfg) : Inv cfg (s.setWork k work) :=
  ⟨h.pool, h.calls, h.fed, h.told, h.down, h.joined, h.returned, h.works.update hk hr ho⟩

/-- While the feeder runs it was not joined. -/
theorem Inv.unjoined (h : Inv cfg s) (hf : s.feeder ≠ .ended) :
    ¬ (s.stopping = .joined ∨ s.stopping = .returned) :=
  fun hj => hf (h.joined hj)

/-- The path taken off the queue is the one `submit` is called for next. -/
theorem Inv.handOut (h : Inv cfg s) (hf : s.feeder = .watching) (e : FileName × Nat)
    (watch : List (FileName × Nat)) :
    Inv cfg { s with watch, feeder := .claimed, handed := s.handed ++ [e] } := by
  have hnot := h.unjoined (by simp [hf])
  refine ⟨h.pool, fun c hc => ?_, ?_, h.told, h.down, fun hj => absurd hj hnot, h.returned,
    h.works⟩
  · have hsub := (h.calls c hc).2
    rw [hf] at hsub
    cases hsub
  · change (s.handed ++ [e]).length = s.pool.next + 1
    rw [List.length_append, h.fed, if_neg (by simp [hf])]
    rfl

theorem Inv.submit (h : Inv cfg s) (hf : s.feeder = .claimed) {pool : ThreadPool.Pool}
    (hs : ThreadPool.step cfg.size s.pool (.submit (.producer 0)) = some pool) :
    Inv cfg { s with pool, feeder := .submitting } := by
  have hpool := h.pool.step hs
  have hnot := h.unjoined (by simp [hf])
  obtain ⟨hidle, -, rfl⟩ := ThreadPool.submit_cases hs
  refine ⟨hpool, fun c hc => ?_, ?_, h.told, h.down, fun hj => absurd hj hnot, h.returned, h.works⟩
  · by_cases heq : c = .producer 0
    · exact ⟨heq, rfl⟩
    · change Function.update s.pool.calls (.producer 0) _ c ≠ .idle at hc
      rw [Function.update_of_ne heq] at hc
      exact absurd (h.calls c hc).1 heq
  · change s.handed.length = s.pool.next + 1 + 0
    rw [h.fed, if_pos hf]

theorem Inv.submitted (h : Inv cfg s) (hf : s.feeder = .submitting)
    (hidle : s.pool.calls (.producer 0) = .idle) : Inv cfg { s with feeder := .looping } := by
  have hnot := h.unjoined (by simp [hf])
  refine ⟨h.pool, fun c hc => ?_, ?_, h.told, h.down, fun hj => absurd hj hnot, h.returned,
    h.works⟩
  · rw [(h.calls c hc).1] at hc
    exact absurd hidle hc
  · have hfed := h.fed
    rw [if_neg (by simp [hf])] at hfed
    exact hfed

theorem Inv.ofPool (h : Inv cfg s) {a : ThreadPool.Act} (ha : s.grants a = true)
    {pool : ThreadPool.Pool} (hs : ThreadPool.step cfg.size s.pool a = some pool) :
    Inv cfg { s with pool } := by
  obtain ⟨hsub, hstop, hfin⟩ := grants_cases ha
  have hc := ThreadPool.change_of_step hs
  have hidle : ∀ c, s.pool.calls c = .idle → pool.calls c = .idle :=
    fun c h => (hc.idle c h).resolve_right (hsub c)
  refine ⟨h.pool.step hs, fun c hne => h.calls c fun h => hne (hidle c h), ?_, ?_, ?_, h.joined,
    fun hr => ?_, h.works.readings, h.works.ended, fun k hk => ?_⟩
  · change s.handed.length = pool.next + _
    rw [hc.next.resolve_right fun ⟨c, hx⟩ => hsub c hx]
    exact h.fed
  · intro t ht
    rcases hc.refused t ht with ht | ⟨hup, c, hne⟩
    · exact h.told t ht
    · have hended := h.joined (h.down (h.pool.exits.stopped.mp hup))
      rw [(h.calls c hne).2] at hended
      cases hended
  · intro hne
    rcases hc.closing with hsame | ⟨-, hup⟩
    · exact h.down (by rw [← hsame]; exact hne)
    · by_cases hcl : s.pool.closing = .up
      · exact .inl (hstop (hup hcl))
      · exact h.down hcl
  · have hgone := h.returned hr
    exact (hc.closing.resolve_right fun hx => hx.1 hgone).trans hgone
  · rcases hc.finished k hk with hk | ⟨i, threw, rfl, hl⟩
    · exact h.works.returned k hk
    · exact hfin i threw k rfl hl

/-- Nothing but the phase of `stop()` changes, before the feeder is joined. -/
theorem Inv.phase (h : Inv cfg s) (hs : s.stopping ≠ .joined ∧ s.stopping ≠ .returned)
    (hj : s'.stopping = .joined → s.feeder = .ended) (hr : s'.stopping ≠ .returned)
    (hf : s'.feeder = s.feeder) (hp : s'.pool = s.pool) (hw : s'.works = s.works)
    (hh : s'.handed = s.handed) : Inv cfg s' where
  pool := by rw [hp]; exact h.pool
  calls := by rw [hp, hf]; exact h.calls
  fed := by rw [hh, hp, hf]; exact h.fed
  told := by rw [hp]; exact h.told
  down hd := by
    rw [hp] at hd
    rcases h.down hd with hd | hd
    · exact absurd hd hs.1
    · exact absurd hd hs.2
  joined hd := by
    rw [hf]
    rcases hd with hd | hd
    · exact hj hd
    · exact absurd hd hr
  returned hd := absurd hd hr
  works := by rw [hw, hp]; exact h.works

theorem Inv.step {a : Act} (h : Inv cfg s) (hs : step cfg s a = some s') : Inv cfg s' := by
  cases a with
  | deliver f text =>
    cases hs
    exact ⟨h.pool, h.calls, h.fed, h.told, h.down, h.joined, h.returned, h.works⟩
  | leave f text =>
    obtain ⟨-, hs⟩ := Option.ite_none_right_eq_some.mp hs
    cases hs
    exact ⟨h.pool, h.calls, h.fed, h.told, h.down, h.joined, h.returned, h.works⟩
  | turn =>
    dsimp only [FileIngestor.step] at hs
    split at hs
    · next hf =>
      cases hs
      exact h.turns (by simp [hf]) (by simp [hf]) (by simp [hf]) (by simp) rfl rfl rfl rfl
    · next hf =>
      cases hs
      exact h.turns (by simp [hf]) (by simp [hf]) (by simp [hf]) (by simp) rfl rfl rfl rfl
    · cases hs
  | claim f =>
    obtain ⟨-, n, -, rfl⟩ := claim_cases hs
    exact ⟨h.pool, h.calls, h.fed, h.told, h.down, h.joined, h.returned, h.works⟩
  | testStop seen =>
    obtain ⟨⟨hf, -⟩, hs⟩ := Option.ite_none_right_eq_some.mp hs
    cases hs
    refine h.turns (by simp [hf]) (by simp [hf]) (by simp [hf]) ?_ rfl rfl rfl rfl
    cases seen <;> exact Feeder.noConfusion
  | poll =>
    obtain ⟨⟨hf, -⟩, hs⟩ := Option.ite_none_right_eq_some.mp hs
    cases hs
    exact h.turns (by simp [hf]) (by simp [hf]) (by simp [hf]) (by simp) rfl rfl rfl rfl
  | readDone =>
    obtain ⟨hf, hs⟩ := Option.ite_none_right_eq_some.mp hs
    cases hs
    exact h.turns (by simp [hf]) (by simp [hf]) (by simp [hf]) (by simp) rfl rfl rfl rfl
  | giveUp failed =>
    obtain ⟨⟨hf, -⟩, hs⟩ := Option.ite_none_right_eq_some.mp hs
    cases hs
    exact h.turns (by simp [hf]) (by simp [hf]) (by simp [hf]) (by simp) rfl rfl rfl rfl
  | handOut =>
    obtain ⟨hf, e, watch, -, rfl⟩ := handOut_cases hs
    exact h.handOut hf e watch
  | submit =>
    obtain ⟨hf, hs⟩ := Option.ite_none_right_eq_some.mp hs
    obtain ⟨pool, hp, rfl⟩ := Option.map_eq_some_iff.mp hs
    exact h.submit hf hp
  | submitted =>
    obtain ⟨⟨hf, hidle⟩, hs⟩ := Option.ite_none_right_eq_some.mp hs
    cases hs
    exact h.submitted hf hidle
  | pool a =>
    obtain ⟨ha, hs⟩ := Option.ite_none_right_eq_some.mp hs
    obtain ⟨pool, hp, rfl⟩ := Option.map_eq_some_iff.mp hs
    exact h.ofPool ha hp
  | begin i seen =>
    obtain ⟨k, -, hk, rfl⟩ := begin_cases hs
    refine h.setWork (by rw [hk]; rfl) (fun r hr => ?_) fun r dir hr => ?_
    · cases seen <;> cases hr
    · cases seen <;> cases hr
  | opens i readable resume =>
    obtain ⟨k, f, n, r, hk, -, -, -, hsrc, hpassed, rfl⟩ := opens_cases hs
    refine h.setWork (by rw [hk]; rfl) (fun r' hr => ?_) fun r' dir hr => by cases hr
    cases hr
    exact .opened hsrc hpassed
  | consume i =>
    obtain ⟨k, r, batch, src, hk, hn, rfl⟩ := consume_cases hs
    refine h.setWork (by rw [hk]; rfl) (fun r' hr => ?_) fun r' dir hr => by cases hr
    cases hr
    exact (h.works.readings k r hk).pass hn
  | dispose i moved =>
    obtain ⟨k, r, f, n, dir, hk, -, hn, -, hs⟩ := dispose_cases hs
    have hthrough : Inv cfg (s.setWork k (.through r dir)) := by
      refine h.setWork (by rw [hk]; rfl) (fun r' hr => by cases hr) fun r' dir' hr => ?_
      cases hr
      exact (h.works.readings k r hk).through hn
    rcases hs with rfl | ⟨m, -, rfl⟩
    · exact hthrough
    · exact ⟨hthrough.pool, hthrough.calls, hthrough.fed, hthrough.told, hthrough.down, hthrough.joined,
        hthrough.returned, hthrough.works⟩
  | stop =>
    obtain ⟨⟨hst, -⟩, hs⟩ := Option.ite_none_right_eq_some.mp hs
    cases hs
    exact h.phase (by simp [hst]) (by simp) (by simp) rfl rfl rfl rfl
  | wake =>
    obtain ⟨hst, hs⟩ := Option.ite_none_right_eq_some.mp hs
    cases hs
    exact h.phase (by simp [hst]) (by simp) (by simp) rfl rfl rfl rfl
  | join =>
    obtain ⟨⟨hst, hf⟩, hs⟩ := Option.ite_none_right_eq_some.mp hs
    cases hs
    exact h.phase (by simp [hst]) (fun _ => hf) (by simp) rfl rfl rfl rfl
  | reset =>
    obtain ⟨⟨hst, hgone⟩, hs⟩ := Option.ite_none_right_eq_some.mp hs
    cases hs
    exact ⟨h.pool, h.calls, h.fed, h.told, fun _ => .inr rfl, fun _ => h.joined (.inl hst),
      fun _ => hgone, h.works⟩

/-- Behind `stop()` every task has run, so every path handed out was dropped, with nothing of
it passed to the sink, or read to its end and its move attempted. -/
theorem Inv.settled (h : Inv cfg s) (hr : s.stopping = .returned) (hk : k < s.handed.length) :
    s.works k = .skipped ∨ ∃ r dir, s.works k = .through r dir ∧ r.Through cfg := by
  have hended := h.joined (.inr hr)
  have hfed := h.fed
  rw [if_neg (by simp [hended])] at hfed
  have haccepted : k ∈ s.pool.accepted := by
    rcases h.pool.books.placed k (by omega) with hm | hf | ⟨c, hc⟩
    · exact hm
    · exact absurd hf (h.told k)
    · have hsub := (h.calls c (by rw [hc]; exact ThreadPool.Call.noConfusion)).2
      rw [hended] at hsub
      cases hsub
  obtain ⟨hq, hperm⟩ := h.pool.gone_finished (h.returned hr)
  have htaken : k ∈ s.pool.taken := by
    rw [← h.pool.order, hq, List.append_nil] at haccepted
    exact haccepted
  have hret := h.works.returned k (hperm.mem_iff.mp htaken)
  cases hw : s.works k with
  | fresh => rw [hw] at hret; cases hret
  | skipped => exact .inl rfl
  | begun => rw [hw] at hret; cases hret
  | reading r => rw [hw] at hret; cases hret
  | through r dir => exact .inr ⟨r, dir, rfl, h.works.ended k r dir hw⟩

/-! ## The files -/

/-- In the watcher's queue, or handed out and not through. -/
def OnItsWay (s : Ingestor) (f : FileName) (n : Nat) : Prop :=
  (f, n) ∈ s.watch ∨ ∃ k, s.handed[k]? = some (f, n) ∧ (s.works k).isThrough = false

/-- A name is not claimed again while a file of that name is on its way. -/
def OneByOne (s : Ingestor) (a : Act) : Prop := ∀ f n, a = .claim f → ¬ OnItsWay s f n

/-- Still in the process directory, and none of its records passed to the sink. -/
def Untouched (s : Ingestor) (f : FileName) (n : Nat) : Prop :=
  s.links.find .process f = some n ∧
    ∀ k r, (s.works k).reading? = some r → r.found = some n → r.passed = []

/-- Read to its end by one task and no other, with its move attempted. -/
def ReadThrough (cfg : Config) (s : Ingestor) (f : FileName) (n : Nat) : Prop :=
  ∃ k r dir, s.handed[k]? = some (f, n) ∧ s.works k = .through r dir ∧ r.found = some n ∧
    (r.map = none ∨ r.map = some (s.texts n)) ∧ r.Through cfg ∧
    ∀ k' r', (s.works k').reading? = some r' → r'.found = some n → k' = k

/-- Every file claimed is one entry, and at its path until it is through. -/
structure Own (s : Ingestor) : Prop where
  below : ∀ d f n, s.links.find d f = some n → n < s.next
  apart : s.links.Apart
  known : ∀ e ∈ s.watch ++ s.handed, e.2 < s.next
  once : ((s.watch ++ s.handed).map Prod.snd).Nodup
  ready : ∀ f n, s.links.find .ready f = some n → ∀ e ∈ s.watch ++ s.handed, e.2 ≠ n
  watching : ∀ f n, (f, n) ∈ s.watch → s.links.find .process f = some n
  waiting : ∀ k f n, s.handed[k]? = some (f, n) → (s.works k).isThrough = false →
    s.links.find .process f = some n
  found : ∀ k r, (s.works k).reading? = some r → ∃ f n, s.handed[k]? = some (f, n) ∧
    r.found = some n ∧ (r.map = none ∨ r.map = some (s.texts n))

theorem Own.initial : Own {} where
  below d f n h := by cases h
  apart d f d' f' n h := by cases h
  known e h := by cases h
  once := .nil
  ready f n h := by cases h
  watching f n h := by cases h
  waiting k f n h := by cases h
  found k r h := by cases h

variable {n : Nat}

theorem Own.handed_inj (h : Own s) {k k' : Nat} {f f' : FileName}
    (hk : s.handed[k]? = some (f, n)) (hk' : s.handed[k']? = some (f', n)) : k = k' := by
  have hnodup : (s.handed.map Prod.snd).Nodup := by
    have hn := h.once
    rw [List.map_append] at hn
    exact hn.of_append_right
  have hlt : k < (s.handed.map Prod.snd).length := by
    rw [List.length_map]
    exact (List.getElem?_eq_some_iff.mp hk).1
  refine (List.getElem?_inj hlt hnodup).mp ?_
  rw [List.getElem?_map, List.getElem?_map, hk, hk']
  rfl

theorem Own.watch_ne (h : Own s) {f f' : FileName} (hw : (f, n) ∈ s.watch) :
    s.handed[k]? ≠ some (f', n) := by
  intro hk
  have hn := h.once
  rw [List.map_append] at hn
  have hqueued : n ∈ s.watch.map Prod.snd := List.mem_map.mpr ⟨_, hw, rfl⟩
  have hhanded : n ∈ s.handed.map Prod.snd := List.mem_map.mpr ⟨_, List.mem_of_getElem? hk, rfl⟩
  exact List.disjoint_of_nodup_append hn hqueued hhanded

/-- One more entry, under a number that none has. -/
theorem Own.once_cons (h : Own s) {entries : List (FileName × Nat)}
    (hp : entries.Perm ((f, n) :: (s.watch ++ s.handed)))
    (hn : ∀ e ∈ s.watch ++ s.handed, e.2 ≠ n) : (entries.map Prod.snd).Nodup := by
  rw [(hp.map Prod.snd).nodup_iff, List.map_cons, List.nodup_cons]
  refine ⟨fun hm => ?_, h.once⟩
  obtain ⟨e, he, hen⟩ := List.mem_map.mp hm
  exact hn e he hen

theorem Own.setWork (h : Own s) (hk : (s.works k).isThrough = false) {work : Work}
    (hr : ∀ r, work.reading? = some r → ∃ f n, s.handed[k]? = some (f, n) ∧
      r.found = some n ∧ (r.map = none ∨ r.map = some (s.texts n))) :
    Own (s.setWork k work) where
  below := h.below
  apart := h.apart
  known := h.known
  once := h.once
  ready := h.ready
  watching := h.watching
  waiting j f n hj hopen := by
    by_cases heq : j = k
    · rw [heq] at hj
      exact h.waiting k f n hj hk
    · refine h.waiting j f n hj ?_
      change (Function.update s.works k work j).isThrough = false at hopen
      rw [Function.update_of_ne heq] at hopen
      exact hopen
  found j r hj := by
    change (Function.update s.works k work j).reading? = some r at hj
    by_cases heq : j = k
    · rw [heq] at hj ⊢
      rw [Function.update_self] at hj
      exact hr r hj
    · rw [Function.update_of_ne heq] at hj
      exact h.found j r hj

/-- A file is delivered, or left behind by an earlier run, under a number of its own. -/
theorem Own.link (h : Own s) {d : Dir} {text : Text} {watch : List (FileName × Nat)}
    (hw : watch = s.watch ∧ d = .ready ∨
      watch = s.watch ++ [(f, s.next)] ∧ d = .process ∧ s.links.find .process f = none) :
    Own { s with
      links := s.links.link d f s.next
      texts := Function.update s.texts s.next text
      next := s.next + 1
      watch } := by
  have hnew : ∀ e g, s.links.find e g ≠ some s.next :=
    fun e g hf => absurd (h.below e g s.next hf) (lt_irrefl _)
  -- a path something waits at is not the one that is linked
  have hkeep : ∀ g m, s.links.find .process g = some m →
      (s.links.link d f s.next).find .process g = some m := by
    intro g m hg
    rw [Dirs.find_link, if_neg]
    · exact hg
    · rintro ⟨hd, rfl⟩
      rcases hw with ⟨-, rfl⟩ | ⟨-, -, hnone⟩
      · cases hd
      · rw [hnone] at hg
        cases hg
  have hentries : ∀ e ∈ watch ++ s.handed, e ∈ s.watch ++ s.handed ∨ d = .process ∧
      e = (f, s.next) := by
    intro e he
    rcases hw with ⟨rfl, -⟩ | ⟨rfl, hd, -⟩
    · exact .inl he
    · simp only [List.mem_append, List.mem_singleton] at he ⊢
      rcases he with (he | he) | he
      · exact .inl (.inl he)
      · exact .inr ⟨hd, he⟩
      · exact .inl (.inr he)
  refine ⟨fun e g m hm => ?_, h.apart.link hnew, fun e he => ?_, ?_, fun g m hm e he => ?_,
    fun g m hm => ?_, fun k g m hk hopen => hkeep g m (h.waiting k g m hk hopen),
    fun k r hk => ?_⟩
  · rcases Dirs.of_find_link hm with ⟨-, -, rfl⟩ | hm
    · exact Nat.lt_succ_self _
    · exact Nat.lt_succ_of_lt (h.below e g m hm)
  · rcases hentries e he with he | ⟨-, rfl⟩
    · exact Nat.lt_succ_of_lt (h.known e he)
    · exact Nat.lt_succ_self _
  · rcases hw with ⟨rfl, -⟩ | ⟨rfl, -, -⟩
    · exact h.once
    · refine h.once_cons (f := f) (n := s.next) ?_ fun e he => (h.known e he).ne
      rw [List.append_assoc]
      exact List.perm_middle
  · rcases Dirs.of_find_link hm with ⟨hd, -, rfl⟩ | hm
    · rcases hentries e he with he | ⟨hd', -⟩
      · exact (h.known e he).ne
      · rw [hd'] at hd
        cases hd
    · rcases hentries e he with he | ⟨-, rfl⟩
      · exact h.ready g m hm e he
      · exact (h.below _ g m hm).ne'
  · change (g, m) ∈ watch at hm
    rcases hw with ⟨rfl, -⟩ | ⟨rfl, rfl, -⟩
    · exact hkeep g m (h.watching g m hm)
    · rcases List.mem_append.mp hm with hm | hm
      · exact hkeep g m (h.watching g m hm)
      · cases List.mem_singleton.mp hm
        exact Dirs.find_link.trans (if_pos ⟨rfl, rfl⟩)
  · obtain ⟨g, m, hg, hfound, hmap⟩ := h.found k r hk
    refine ⟨g, m, hg, hfound, ?_⟩
    have hm : m ≠ s.next :=
      (h.known _ (List.mem_append_right _ (List.mem_of_getElem? hg))).ne
    change r.map = none ∨ r.map = some (Function.update s.texts s.next text m)
    rw [Function.update_of_ne hm]
    exact hmap

/-- A claim, of a name no file is on its way under. -/
theorem Own.claim (h : Own s) (hf : ∀ m, ¬ OnItsWay s f m) (hn : s.links.find .ready f = some n) :
    Own { s with links := s.links.move .ready f .process f n, watch := s.watch ++ [(f, n)] } := by
  have hkeep : ∀ g m, g ≠ f → s.links.find .process g = some m →
      (s.links.move .ready f .process f n).find .process g = some m := by
    intro g m hne hg
    rw [Dirs.find_move, if_neg fun hx => hne hx.2, if_neg fun hx => hne hx.2]
    exact hg
  have hentries : ∀ e ∈ (s.watch ++ [(f, n)]) ++ s.handed,
      e ∈ s.watch ++ s.handed ∨ e = (f, n) := by
    intro e he
    simp only [List.mem_append, List.mem_singleton] at he ⊢
    tauto
  refine ⟨fun e g m hm => ?_, h.apart.move hn, fun e he => ?_, ?_, fun g m hm e he => ?_,
    fun g m hm => ?_, fun k g m hk hopen => ?_, h.found⟩
  · rcases Dirs.of_find_move hm with ⟨-, -, rfl⟩ | ⟨-, hm⟩
    · exact h.below _ _ _ hn
    · exact h.below e g m hm
  · rcases hentries e he with he | rfl
    · exact h.known e he
    · exact h.below _ _ _ hn
  · refine h.once_cons (f := f) (n := n) ?_ (h.ready f n hn)
    rw [List.append_assoc]
    exact List.perm_middle
  · rcases Dirs.of_find_move hm with ⟨hd, -, -⟩ | ⟨hne, hm⟩
    · cases hd
    · rcases hentries e he with he | rfl
      · exact h.ready g m hm e he
      · rintro rfl
        exact hne ⟨rfl, (h.apart _ _ _ _ _ hm hn).2⟩
  · rcases List.mem_append.mp hm with hold | hnew
    · refine hkeep g m ?_ (h.watching g m hold)
      rintro rfl
      exact hf m (.inl hold)
    · cases List.mem_singleton.mp hnew
      exact Dirs.find_move.trans (if_pos ⟨rfl, rfl⟩)
  · refine hkeep g m ?_ (h.waiting k g m hk hopen)
    rintro rfl
    exact hf m (.inr ⟨k, hk, hopen⟩)

/-- Any other claim replaces the file that is on its way. -/
theorem Own.replaces (h : Own s) (hf : OnItsWay s f n) (hs : s.claim f = some s') :
    s.links.find .process f = some n ∧ s'.links.find .process f ≠ some n := by
  have hat : s.links.find .process f = some n := by
    rcases hf with hw | ⟨k, hk, hopen⟩
    · exact h.watching f n hw
    · exact h.waiting k f n hk hopen
  obtain ⟨-, m, hm, rfl⟩ := claim_cases hs
  refine ⟨hat, fun hn => ?_⟩
  rw [Dirs.find_move, if_pos ⟨rfl, rfl⟩, Option.some.injEq] at hn
  rw [hn] at hm
  cases (h.apart _ _ _ _ _ hat hm).1

theorem Own.handOut (h : Own s) {e : FileName × Nat} {watch : List (FileName × Nat)}
    {feeder : Feeder} (hw : s.watch = e :: watch) :
    Own { s with watch, feeder, handed := s.handed ++ [e] } := by
  have hperm : (watch ++ (s.handed ++ [e])).Perm (s.watch ++ s.handed) := by
    rw [hw, ← List.append_assoc]
    exact List.perm_append_singleton e _
  have hentries : ∀ x ∈ watch ++ (s.handed ++ [e]), x ∈ s.watch ++ s.handed :=
    fun x hx => hperm.mem_iff.mp hx
  refine ⟨h.below, h.apart, fun x hx => h.known x (hentries x hx), ?_,
    fun g m hm x hx => h.ready g m hm x (hentries x hx), fun g m hm => h.watching g m ?_,
    fun k g m hk hopen => ?_, fun k r hk => ?_⟩
  · exact (hperm.map Prod.snd).nodup_iff.mpr h.once
  · rw [hw]
    exact List.mem_cons_of_mem e hm
  · change (s.handed ++ [e])[k]? = some (g, m) at hk
    rcases Nat.lt_or_ge k s.handed.length with hlt | hge
    · rw [List.getElem?_append_left hlt] at hk
      exact h.waiting k g m hk hopen
    · rw [List.getElem?_append_right hge] at hk
      have hm := List.mem_of_getElem? hk
      rw [List.mem_singleton] at hm
      exact h.watching g m (by rw [hw, hm]; exact List.mem_cons_self)
  · obtain ⟨g, m, hg, hrest⟩ := h.found k r hk
    refine ⟨g, m, ?_, hrest⟩
    change (s.handed ++ [e])[k]? = some (g, m)
    rw [List.getElem?_append_left (List.getElem?_eq_some_iff.mp hg).1]
    exact hg

/-- The file that is moved is the one that was read. -/
theorem Own.dispose (h : Own s) {r : Reading} {m : Nat} {dir : Dir} (hk : s.works k = .reading r)
    (hf : s.handed[k]? = some (f, n)) (hd : dir = .done ∨ dir = .fail)
    (hm : s.links.find .process f = some m) :
    Own { s.setWork k (.through r dir) with links := s.links.move .process f dir f m } := by
  have hopen : (s.works k).isThrough = false := by rw [hk]; rfl
  have hmn : m = n := by
    have hn := h.waiting k f n hf hopen
    rw [hm] at hn
    exact Option.some.inj hn
  have hthrough : Own (s.setWork k (.through r dir)) := by
    refine h.setWork hopen fun r' hr => ?_
    cases hr
    exact h.found k r (by rw [hk]; rfl)
  have hkeep : ∀ g j, g ≠ f → s.links.find .process g = some j →
      (s.links.move .process f dir f m).find .process g = some j := by
    intro g j hne hg
    rw [Dirs.find_move, if_neg fun hx => hne hx.2, if_neg fun hx => hne hx.2]
    exact hg
  refine ⟨fun d g j hj => ?_, h.apart.move hm, h.known, h.once, fun g j hj => ?_,
    fun g j hj => ?_, fun k' g j hk' hopen' => ?_, hthrough.found⟩
  · rcases Dirs.of_find_move hj with ⟨-, -, rfl⟩ | ⟨-, hj⟩
    · exact h.below _ _ _ hm
    · exact h.below d g j hj
  · rcases Dirs.of_find_move hj with ⟨hx, -, -⟩ | ⟨-, hj⟩
    · rcases hd with rfl | rfl <;> cases hx
    · exact h.ready g j hj
  · refine hkeep g j ?_ (h.watching g j hj)
    rintro rfl
    have hsame := h.watching g j hj
    rw [hm, Option.some.injEq] at hsame
    rw [← hsame, hmn] at hj
    exact h.watch_ne hj hf
  · have hw := hthrough.waiting k' g j hk' hopen'
    refine hkeep g j ?_ hw
    rintro rfl
    change s.links.find .process g = some j at hw
    rw [hm, Option.some.injEq] at hw
    change s.handed[k']? = some (g, j) at hk'
    rw [← hw, hmn] at hk'
    have heq := h.handed_inj hk' hf
    rw [heq] at hopen'
    change (Function.update s.works k _ k).isThrough = false at hopen'
    rw [Function.update_self] at hopen'
    cases hopen'

theorem Own.step {a : Act} (h : Own s) (ha : OneByOne s a) (hs : step cfg s a = some s') :
    Own s' := by
  cases a with
  | deliver f text =>
    cases hs
    exact h.link (.inl ⟨rfl, rfl⟩)
  | leave f text =>
    obtain ⟨⟨-, hnone⟩, hs⟩ := Option.ite_none_right_eq_some.mp hs
    cases hs
    exact h.link (.inr ⟨rfl, rfl, hnone⟩)
  | claim f =>
    obtain ⟨-, n, hn, rfl⟩ := claim_cases hs
    exact h.claim (fun m => ha f m rfl) hn
  | handOut =>
    obtain ⟨-, e, watch, hw, rfl⟩ := handOut_cases hs
    exact h.handOut hw
  | begin i seen =>
    obtain ⟨k, -, hk, rfl⟩ := begin_cases hs
    refine h.setWork (by rw [hk]; rfl) fun r hr => ?_
    cases seen <;> cases hr
  | opens i readable resume =>
    obtain ⟨k, f, n, r, hk, hf, hfound, hmap, -, -, rfl⟩ := opens_cases hs
    refine h.setWork (by rw [hk]; rfl) fun r' hr => ?_
    cases hr
    rw [h.waiting k f n hf (by rw [hk]; rfl)] at hfound
    rw [hfound] at hmap
    exact ⟨f, n, hf, hfound, hmap⟩
  | consume i =>
    obtain ⟨k, r, batch, src, hk, -, rfl⟩ := consume_cases hs
    refine h.setWork (by rw [hk]; rfl) fun r' hr => ?_
    cases hr
    exact h.found k r (by rw [hk]; rfl)
  | dispose i moved =>
    obtain ⟨k, r, f, n, dir, hk, hf, -, hd, rfl | ⟨m, hm, rfl⟩⟩ := dispose_cases hs
    · refine h.setWork (by rw [hk]; rfl) fun r' hr => ?_
      cases hr
      exact h.found k r (by rw [hk]; rfl)
    · exact h.dispose hk hf hd hm
  | turn =>
    dsimp only [FileIngestor.step] at hs
    split at hs
    · cases hs; exact { h with }
    · cases hs; exact { h with }
    · cases hs
  | submit =>
    obtain ⟨-, hs⟩ := Option.ite_none_right_eq_some.mp hs
    obtain ⟨pool, -, rfl⟩ := Option.map_eq_some_iff.mp hs
    exact { h with }
  | pool a =>
    obtain ⟨-, hs⟩ := Option.ite_none_right_eq_some.mp hs
    obtain ⟨pool, -, rfl⟩ := Option.map_eq_some_iff.mp hs
    exact { h with }
  | testStop seen =>
    obtain ⟨-, hs⟩ := Option.ite_none_right_eq_some.mp hs
    cases hs; exact { h with }
  | poll =>
    obtain ⟨-, hs⟩ := Option.ite_none_right_eq_some.mp hs
    cases hs; exact { h with }
  | readDone =>
    obtain ⟨-, hs⟩ := Option.ite_none_right_eq_some.mp hs
    cases hs; exact { h with }
  | giveUp failed =>
    obtain ⟨-, hs⟩ := Option.ite_none_right_eq_some.mp hs
    cases hs; exact { h with }
  | submitted =>
    obtain ⟨-, hs⟩ := Option.ite_none_right_eq_some.mp hs
    cases hs; exact { h with }
  | stop =>
    obtain ⟨-, hs⟩ := Option.ite_none_right_eq_some.mp hs
    cases hs; exact { h with }
  | wake =>
    obtain ⟨-, hs⟩ := Option.ite_none_right_eq_some.mp hs
    cases hs; exact { h with }
  | join =>
    obtain ⟨-, hs⟩ := Option.ite_none_right_eq_some.mp hs
    cases hs; exact { h with }
  | reset =>
    obtain ⟨-, hs⟩ := Option.ite_none_right_eq_some.mp hs
    cases hs; exact { h with }

/-- A file handed out, in the state `stop()` returns in. -/
theorem Own.settled (h : Own s) (hi : Inv cfg s) (hr : s.stopping = .returned)
    (hf : (f, n) ∈ s.handed) : Untouched s f n ∨ ReadThrough cfg s f n := by
  obtain ⟨k, hk⟩ := List.getElem?_of_mem hf
  -- whoever has the file open is the task it was handed out to
  have honly : ∀ k' r', (s.works k').reading? = some r' → r'.found = some n → k' = k := by
    intro k' r' hr' hn
    obtain ⟨f', n', hf', hn', -⟩ := h.found k' r' hr'
    rw [hn, Option.some.injEq] at hn'
    rw [← hn'] at hf'
    exact h.handed_inj hf' hk
  rcases hi.settled hr (List.getElem?_eq_some_iff.mp hk).1 with hw | ⟨r, dir, hw, hthrough⟩
  · refine .inl ⟨h.waiting k f n hk (by rw [hw]; rfl), fun k' r' hr' hn => ?_⟩
    rw [honly k' r' hr' hn, hw] at hr'
    cases hr'
  · obtain ⟨f', n', hf', hfound, hmap⟩ := h.found k r (by rw [hw]; rfl)
    rw [hk] at hf'
    cases hf'
    exact .inr ⟨k, r, dir, hk, hw, hfound, hmap, hthrough, honly⟩

/-- When `stop()` has returned, every file handed out is untouched or read through, if no name
was claimed again while a file of that name was on its way; a claim that does so replaces the
file. -/
theorem no_file_half_processed (cfg : Config) {acts : List Act} {s : Ingestor}
    (hr : Run (FileIngestor.step cfg) OneByOne {} acts s) :
    (s.stopping = .returned →
      ∀ f n, (f, n) ∈ s.handed → Untouched s f n ∨ ReadThrough cfg s f n) ∧
    ∀ f n s', OnItsWay s f n → FileIngestor.step cfg s (.claim f) = some s' →
      s.links.find .process f = some n ∧ s'.links.find .process f ≠ some n := by
  have hstep : ∀ s a s', Own s ∧ Inv cfg s → OneByOne s a → FileIngestor.step cfg s a = some s' →
      Own s' ∧ Inv cfg s' := fun _ _ _ h ha hs => ⟨h.1.step ha hs, h.2.step hs⟩
  obtain ⟨hown, hinv⟩ := hr.invariant hstep ⟨.initial, .initial cfg⟩
  exact ⟨fun hs f n hf => hown.settled hinv hs hf, fun f n s' hf hs => hown.replaces hf hs⟩

def oneConfig : Config := ⟨oneReader.parser, 1, Nat.one_pos⟩

/-- A name that was never claimed before. -/
def newName (s : Ingestor) : Act → Bool
  | .claim f => (s.watch ++ s.handed).all fun e => e.1 ≠ f
  | _ => true

theorem newName_oneByOne (s : Ingestor) (a : Act) (h : newName s a = true) : OneByOne s a := by
  rintro f n rfl hway
  have hin : (f, n) ∈ s.watch ++ s.handed := by
    rcases hway with hw | ⟨k, hk, -⟩
    · exact List.mem_append_left _ hw
    · exact List.mem_append_right _ (List.mem_of_getElem? hk)
  exact of_decide_eq_true (List.all_eq_true.mp h _ hin) rfl

/-- The feeder behind `next_file`: it submits the path, and the worker takes the task. -/
def submitted : List Act :=
  [.submit, .pool (.checkFull (.producer 0)), .pool (.notifyEmpty (.producer 0) none), .submitted]

def taken : List Act := [.pool (.checkEmpty 0), .pool (.notifyFull 0 none)]

/-- What is left of `stop()` behind the wake-up, with the feeder at its test. -/
def stopped : List Act :=
  [.testStop true, .join, .pool .stop, .pool .notifyAllEmpty, .pool .notifyAllFull,
    .pool (.checkEmpty 0), .pool .join, .reset]

/-- A file is claimed and read; before it is through, another one is claimed. -/
def twoClaimed (f : FileName) : List Act :=
  [.deliver (inbox 0) oneCall, .turn, .claim (inbox 0), .turn, .testStop false, .handOut] ++
    submitted ++ taken ++ [.begin 0 false, .opens 0 true 0, .consume 0, .deliver f oneCall,
    .testStop false, .poll, .claim f, .readDone, .handOut] ++ submitted

/-- `stop()` is called, the first file is put away, and the second task begins. -/
def dropped : List Act :=
  [.stop, .dispose 0 true, .pool (.finish 0 false)] ++ taken ++
    [.begin 0 true, .wake, .pool (.finish 0 false)] ++ stopped

/-- One file is read to its end, another one is dropped. -/
theorem no_file_half_processed_two :
    ∃ acts s, Run (FileIngestor.step oneConfig) OneByOne {} acts s ∧ s.stopping = .returned ∧
      s.handed = [(inbox 0, 0), (inbox 1, 1)] ∧
      ∀ f n, (f, n) ∈ s.handed → Untouched s f n ∨ ReadThrough oneConfig s f n := by
  have hrun : (runChecked (FileIngestor.step oneConfig) newName {}
      (twoClaimed (inbox 1) ++ dropped)).any
      (fun s => s.stopping = .returned ∧ s.handed = [(inbox 0, 0), (inbox 1, 1)]) = true := by
    decide +kernel
  obtain ⟨s, hs, hobs⟩ := (Option.any_eq_true _ _).mp hrun
  obtain ⟨hreturned, hhanded⟩ := of_decide_eq_true hobs
  have hr := Run.of_checked newName_oneByOne hs
  exact ⟨_, s, hr, hreturned, hhanded, (no_file_half_processed oneConfig hr).1 hreturned⟩

/-- A name comes again while the file of that name is read: the file put away behind the read
is the new one, and the task that was to read it is dropped. -/
theorem claimed_again_unread :
    ∃ acts s, Run (FileIngestor.step oneConfig) (fun _ _ => True) {} acts s ∧
      s.stopping = .returned ∧
      ¬ ∀ f n, (f, n) ∈ s.handed → Untouched s f n ∨ ReadThrough oneConfig s f n := by
  have hrun : (runChecked (FileIngestor.step oneConfig) (fun _ _ => true) {}
      (twoClaimed (inbox 0) ++ dropped)).any
      (fun s => s.stopping = .returned ∧ s.handed = [(inbox 0, 0), (inbox 0, 1)] ∧
        s.links.find .process (inbox 0) = none ∧ (s.works 1).isThrough = false) = true := by
    decide +kernel
  obtain ⟨s, hs, hobs⟩ := (Option.any_eq_true _ _).mp hrun
  obtain ⟨hreturned, hhanded, hgone, hunread⟩ := of_decide_eq_true hobs
  refine ⟨_, s, Run.of_checked (fun _ _ _ => trivial) hs, hreturned, fun h => ?_⟩
  have hin : (inbox 0, 1) ∈ s.handed := by
    rw [hhanded]
    exact List.mem_cons_of_mem _ (List.mem_singleton_self _)
  rcases h (inbox 0) 1 hin with hleft | ⟨k, r, dir, hk, hthrough, -⟩
  · rw [hleft.1] at hgone
    cases hgone
  · -- only the second task is the one for the second file
    have hk1 : k = 1 := by
      rw [hhanded] at hk
      match k with
      | 0 => cases hk
      | 1 => rfl
      | k + 2 => cases hk
    rw [hk1] at hthrough
    rw [hthrough] at hunread
    cases hunread

end CdrProcessor.FileIngestor
