import CdrProcessor.Lib.Run
import CdrProcessor.Polling
import CdrProcessor.Responses
import CdrProcessor.ReadBack

/-!
What the sampler's rows and the rates read off them stand for.  However its task, the gateway and
the processor get on, every row shows what the records committed up to a moment come to, later
rows later moments; so a rate is what was counted between two moments, and no drop is ever cut
off.
-/

namespace CdrProcessor.Sampler

open JsonText (Value)
open HttpGateway (respond dispatch routes)

/-! ## The totals, through the gateway -/

/-- The column a total is kept in. -/
def columnOf : TotalField → Column
  | .records => .records
  | .mocCnt => .mocCnt
  | .mtcCnt => .mtcCnt
  | .smsMoCnt => .smsMoCnt
  | .smsMtCnt => .smsMtCnt
  | .dataCnt => .dataCnt
  | .noansCnt => .noansCnt
  | .busyCnt => .busyCnt
  | .failedCnt => .failedCnt
  | .mocDur => .mocDur
  | .mtcDur => .mtcDur
  | .dataDur => .dataDur
  | .dataRx => .dataRx
  | .dataTx => .dataTx

/-- The name a total goes out under. -/
def nameOf (f : TotalField) : Text := StatsService.reported f.name

/-- The sampler asks for the totals by the names they go out under. -/
theorem counters_eq : COUNTERS = TotalField.all.map fun f => (columnOf f, nameOf f) := by decide

theorem columnOf_ne_keys (f : TotalField) : columnOf f ≠ .keys := by cases f <;> decide

private theorem names_eq : TotalField.all.map nameOf =
    ["records".toList, "moc-cnt".toList, "mtc-cnt".toList, "sms-mo-cnt".toList,
      "sms-mt-cnt".toList, "data-cnt".toList, "noans-cnt".toList, "busy-cnt".toList,
      "failed-cnt".toList, "moc-dur".toList, "mtc-dur".toList, "data-dur".toList,
      "data-rx".toList, "data-tx".toList] := by decide

theorem totalsJson_eq (sum : TotalField → Nat) : totalsJson sum =
    ({} : Json).addNumbers (TotalField.all.map fun f => (nameOf f, sum f)) := by
  have hzip : (TotalField.all.map fun f => (nameOf f, sum f)) =
      (TotalField.all.map nameOf).zip (TotalField.all.map sum) := by rw [List.zip_map']
  rw [hzip, names_eq]
  rfl

theorem addNumbers_added (json : Json) (numbers : List (Text × Nat)) :
    json.addNumbers numbers = json.addAll (numbers.map fun e => .number e.1 (.ofNat e.2)) := by
  induction numbers generalizing json with
  | nil => rfl
  | cons e numbers ih => exact ih _

/-- The body with a number for each total. -/
def totalsBody (sum : TotalField → Nat) : Value :=
  .object (TotalField.all.map fun f => (nameOf f, .number (UInt64.ofNat (sum f)).toNat))

theorem decode_totalsJson (sum : TotalField → Nat) :
    JsonText.decode (totalsJson sum).str = some (totalsBody sum) := by
  rw [totalsJson_eq, addNumbers_added, Json.decode_addAll, Added.fields_eq_map]
  simp only [List.map_map]
  rfl

theorem bodyGet_totalsBody (sum : TotalField → Nat) (f : TotalField) :
    bodyGet (totalsBody sum) (nameOf f) =
      some (some (.number (UInt64.ofNat (sum f)).toNat)) := by
  cases f <;> rfl

theorem lookup_columns (value : TotalField → Int) (f : TotalField) :
    (TotalField.all.map fun g => (columnOf g, value g)).lookup (columnOf f) = some (value f) := by
  cases f <;> rfl

/-- The row that is made of the totals. -/
theorem rowOf_totalsBody (ts keys : Int) {sum : TotalField → Nat} (h : ∀ f, sum f < 2 ^ 53) :
    ∃ row, rowOf ts keys (totalsBody sum) = some row ∧ row.ts = ts ∧
      ∀ f, row.column (columnOf f) = sum f := by
  have hread : ∀ f : TotalField, (do
      some (columnOf f, ← intOrZero (← bodyGet (totalsBody sum) (nameOf f)))) =
        (pure (columnOf f, (sum f : Int)) : Option (Column × Int)) := by
    intro f
    have hlt : sum f < 2 ^ 64 := (h f).trans (by decide)
    rw [bodyGet_totalsBody, UInt64.toNat_ofNat_of_lt' hlt]
    rfl
  have hvalues : (COUNTERS.mapM fun e => do
      some (e.1, ← intOrZero (← bodyGet (totalsBody sum) e.2)) : Option (List (Column × Int))) =
        some (TotalField.all.map fun f => (columnOf f, (sum f : Int))) := by
    rw [counters_eq, List.mapM_map]
    change (TotalField.all.mapM fun f => do
      some (columnOf f, ← intOrZero (← bodyGet (totalsBody sum) (nameOf f)))) = _
    simp only [hread, List.mapM_pure]
    rfl
  unfold rowOf
  rw [hvalues]
  refine ⟨_, rfl, rfl, fun f => ?_⟩
  dsimp only
  rw [if_neg (columnOf_ne_keys f), lookup_columns]
  rfl

variable {calls : List ConsumeCall} {store : QueryStore} {query : QueryConfig} {visit : PeerVisit}

theorem errorHandler_ok {result : Result} {text : Text}
    (h : HttpGateway.errorHandler result = ⟨200, text⟩) : result = ⟨200, text⟩ := by
  unfold HttpGateway.errorHandler at h
  split at h
  · next hfailed =>
    have hstatus : result.status = 200 := congrArg Result.status h
    omega
  · exact h

/-- A 200 for the totals has what the committed records come to. -/
theorem totals_told (hx : Exact (recordsOf calls)) (hs : store.Serves (consumed calls).hashes)
    {text : Text} (h : (respond store query visit ⟨.get, "/query/totals".toList, []⟩).1 =
      ⟨200, text⟩) :
    text = (totalsJson fun f => amount (recordsOf calls) (.total f)).str := by
  have hroute : dispatch routes "/query/totals".toList = some (.totals, []) := by decide
  unfold respond HttpGateway.routing at h
  rw [hroute] at h
  have hserved := errorHandler_ok h
  dsimp only [HttpGateway.handle] at hserved
  unfold Query.served HttpGateway.guarded at hserved
  cases hrun : StatsService.totals store.toIQueryStore [] with
  | none =>
    rw [hrun] at hserved
    exact absurd (congrArg Result.status hserved) (by simp)
  | some run =>
    obtain ⟨result, log⟩ := run
    rw [hrun] at hserved
    obtain rfl : result = ⟨200, text⟩ := hserved
    exact totals_read hx hs hrun

/-! ## What holds of the rows -/

/-- A row shows the totals of the first so many batches. -/
def Shows (calls : List ConsumeCall) (n : Nat) (row : Row) : Prop :=
  ∀ f, row.column (columnOf f) = amount (recordsOf (calls.take n)) (.total f)

/-- A body of the totals that are to become a row that does. -/
def Tells (calls : List ConsumeCall) (n : Nat) (body : Value) : Prop :=
  body = totalsBody fun f => amount (recordsOf (calls.take n)) (.total f)

/-- All rows show an earlier moment. -/
def Site.Behind (s : Site) (n : Nat) : Prop :=
  n ≤ s.calls.length ∧ ∀ row ∈ s.table, ∃ m ≤ n, Shows s.calls m row

/-- What the task has at hand is of a moment that no row is ahead of. -/
def Site.AtHand (s : Site) : Prop :=
  match s.sampler.phase with
  | .polling _ (some totals) =>
    totals.status = 200 → ∃ n, Tells s.calls n totals.body ∧ s.Behind n
  | .writing row => row.ts ≤ seconds s.clock ∧ (∀ r ∈ s.table, r.ts ≤ row.ts) ∧
    ∃ n, Shows s.calls n row ∧ s.Behind n
  | _ => True

structure Sampled (s : Site) : Prop where
  exact : Exact (recordsOf s.calls)
  ordered : s.table.Pairwise (·.ts < ·.ts)
  past : ∀ row ∈ s.table, row.ts ≤ seconds s.clock
  shown : s.Behind s.calls.length
  rising : s.table.Pairwise fun r r' =>
    ∃ m n, m ≤ n ∧ n ≤ s.calls.length ∧ Shows s.calls m r ∧ Shows s.calls n r'
  atHand : s.AtHand
  kept : ∀ row ∈ s.log, seconds s.clock - RETENTION_DAYS * 86400 ≤ row.ts →
    ∃ r ∈ s.table, r.ts = row.ts

/-- The clock does not go back, every counter is exact, and the totals come from a gateway over
a store that answers with what is there, if it answers. -/
def Told (query : QueryConfig) (visit : PeerVisit) (s : Site) : SiteAct → Prop
  | .commit call => Exact (recordsOf (s.calls ++ [call]))
  | .totals (.answered status text) => ∃ store : QueryStore,
      store.Serves (consumed s.calls).hashes ∧
        (respond store query visit ⟨.get, "/query/totals".toList, []⟩).1 = ⟨status, text⟩
  | _ => True

theorem Sampled.initial : Sampled {} where
  exact c := by simp [recordsOf, amount]
  ordered := .nil
  past row h := by cases h
  shown := ⟨le_refl _, fun row h => by cases h⟩
  rising := .nil
  atHand := trivial
  kept row h := by cases h

variable {s s' : Site}

/-! ## Its steps -/

theorem seconds_mono {clock clock' : Nat} (h : clock ≤ clock') : seconds clock ≤ seconds clock' := by
  unfold seconds
  exact Int.ofNat_le.mpr (Nat.div_le_div_right h)

/-- A moment stays what it was when more batches come. -/
theorem take_append {n : Nat} (hn : n ≤ calls.length) (call : ConsumeCall) :
    (calls ++ [call]).take n = calls.take n := List.take_append_of_le_length hn

theorem Shows.append {n : Nat} {row : Row} (h : Shows calls n row) (hn : n ≤ calls.length)
    (call : ConsumeCall) : Shows (calls ++ [call]) n row := by
  unfold Shows
  rw [take_append hn]
  exact h

theorem Site.Behind.append {n : Nat} (h : s.Behind n) (call : ConsumeCall) :
    Site.Behind { s with calls := s.calls ++ [call] } n := by
  obtain ⟨hn, hshown⟩ := h
  have hlen : n ≤ (s.calls ++ [call]).length :=
    hn.trans (by rw [List.length_append]; exact Nat.le_add_right _ _)
  refine ⟨hlen, fun row hrow => ?_⟩
  obtain ⟨m, hm, hshows⟩ := hshown row hrow
  exact ⟨m, hm, hshows.append (hm.trans hn) call⟩

/-- Nothing is at hand. -/
theorem Site.atHand_of_phase (h : s.sampler.phase = .off ∨ s.sampler.phase = .ready ∨
    s.sampler.phase = .sweeping) : s.AtHand := by
  unfold Site.AtHand
  rcases h with h | h | h <;> rw [h] <;> trivial

theorem Sampled.commit (h : Sampled s) {call : ConsumeCall}
    (hx : Exact (recordsOf (s.calls ++ [call]))) :
    Sampled { s with calls := s.calls ++ [call] } := by
  have hlen : s.calls.length ≤ (s.calls ++ [call]).length := by
    rw [List.length_append]
    exact Nat.le_add_right _ _
  refine { h with exact := hx, shown := ?_, rising := ?_, atHand := ?_ }
  · obtain ⟨hn, hshown⟩ := h.shown.append call
    exact ⟨le_refl _, fun row hrow => (hshown row hrow).imp fun m hm => ⟨hm.1.trans hlen, hm.2⟩⟩
  · refine h.rising.imp ?_
    rintro r r' ⟨m, n, hmn, hn, hr, hr'⟩
    exact ⟨m, n, hmn, hn.trans hlen, hr.append (hmn.trans hn) call, hr'.append hn call⟩
  · have hhand := h.atHand
    unfold Site.AtHand at hhand ⊢
    dsimp only
    split at hhand
    · intro h200
      obtain ⟨n, htells, hbehind⟩ := hhand h200
      refine ⟨n, ?_, hbehind.append call⟩
      unfold Tells
      rw [take_append hbehind.1]
      exact htells
    · obtain ⟨hpast, hlast, n, hshows, hbehind⟩ := hhand
      exact ⟨hpast, hlast, n, hshows.append hbehind.1 call, hbehind.append call⟩
    · trivial

theorem Sampled.tick (h : Sampled s) (micros : Nat) :
    Sampled { s with clock := s.clock + micros } := by
  have hclock := seconds_mono (Nat.le_add_right s.clock micros)
  refine { h with past := ?_, atHand := ?_, kept := ?_ }
  · exact fun row hrow => (h.past row hrow).trans hclock
  · have hhand := h.atHand
    unfold Site.AtHand at hhand ⊢
    dsimp only
    split at hhand
    · exact hhand
    · exact ⟨hhand.1.trans hclock, hhand.2⟩
    · trivial
  · intro row hrow hrecent
    exact h.kept row hrow ((sub_le_sub_right hclock _).trans hrecent)

/-- Only the task moves. -/
theorem Sampled.task (h : Sampled s) {sampler : Sampler}
    (hhand : Site.AtHand { s with sampler }) : Sampled { s with sampler } :=
  { h with atHand := hhand }

/-- The rows that are newer than a moment. -/
theorem Sampled.sweep (h : Sampled s) (sampler : Sampler)
    (hphase : sampler.phase = .off ∨ sampler.phase = .ready) :
    Sampled { s with table := sweep s.table s.clock, sampler } where
  exact := h.exact
  ordered := h.ordered.filter _
  past row hrow := h.past row (List.mem_filter.mp hrow).1
  shown := ⟨le_refl _, fun row hrow => h.shown.2 row (List.mem_filter.mp hrow).1⟩
  rising := h.rising.filter _
  atHand := Site.atHand_of_phase (hphase.imp_right .inl)
  kept row hrow hrecent := by
    obtain ⟨r, hr, hts⟩ := h.kept row hrow hrecent
    exact ⟨r, List.mem_filter.mpr ⟨hr, decide_eq_true (hts ▸ hrecent)⟩, hts⟩

/-- A row that nothing is ahead of goes in last. -/
theorem append_eq {table : List Row} {row : Row} (h : ∀ r ∈ table, r.ts ≤ row.ts) :
    append table row = table.filter (·.ts < row.ts) ++ [row] := by
  have hnone : table.filter (row.ts < ·.ts) = [] := by
    rw [List.filter_eq_nil_iff]
    intro r hr
    rw [decide_eq_true_eq, not_lt]
    exact h r hr
  rw [append, hnone]

theorem Sampled.insert (h : Sampled s) {row : Row} (hphase : s.sampler.phase = .writing row)
    (sampler : Sampler) (hidle : sampler.phase = .off ∨ sampler.phase = .sweeping) :
    Sampled { s.insert row with sampler } := by
  have hhand := h.atHand
  unfold Site.AtHand at hhand
  rw [hphase] at hhand
  obtain ⟨hpast, hlast, n, hshows, hn, hbehind⟩ := hhand
  have htable : (s.insert row).table = s.table.filter (·.ts < row.ts) ++ [row] := append_eq hlast
  have hrows : ∀ r ∈ (s.insert row).table, (r ∈ s.table ∧ r.ts < row.ts) ∨ r = row := by
    intro r hr
    rw [htable] at hr
    rcases List.mem_append.mp hr with hr | hr
    · exact .inl (by simpa using hr)
    · exact .inr (List.mem_singleton.mp hr)
  have hlog : (s.insert row).log = s.log ++ [row] := rfl
  refine ⟨h.exact, ?_, fun r hr => ?_, ⟨le_refl _, fun r hr => ?_⟩, ?_,
    Site.atHand_of_phase (hidle.imp_right .inr), fun r hr hrecent => ?_⟩
  · dsimp only
    rw [htable]
    refine List.pairwise_append.mpr ⟨h.ordered.filter _, List.pairwise_singleton _ _, ?_⟩
    intro r hr r' hr'
    rw [List.mem_singleton.mp hr']
    exact of_decide_eq_true (List.mem_filter.mp hr).2
  · rcases hrows r hr with ⟨hr, -⟩ | rfl
    · exact h.past r hr
    · exact hpast
  · rcases hrows r hr with ⟨hr, -⟩ | rfl
    · exact h.shown.2 r hr
    · exact ⟨n, hn, hshows⟩
  · dsimp only
    rw [htable]
    refine List.pairwise_append.mpr ⟨h.rising.filter _, List.pairwise_singleton _ _, ?_⟩
    intro r hr r' hr'
    obtain ⟨m, hm, hr⟩ := hbehind r (List.mem_filter.mp hr).1
    rw [List.mem_singleton.mp hr']
    exact ⟨m, n, hm, hn, hr, hshows⟩
  · have hnew : row ∈ (s.insert row).table := by
      rw [htable]
      exact List.mem_append_right _ (List.mem_singleton_self row)
    rcases List.mem_append.mp hr with hr | hr
    · obtain ⟨r', hr', hts⟩ := h.kept r hr hrecent
      -- the row of that second is still there, or is the one replaced
      rcases lt_or_eq_of_le (hlast r' hr') with hlt | heq
      · refine ⟨r', ?_, hts⟩
        dsimp only
        rw [htable]
        exact List.mem_append_left _ (List.mem_filter.mpr ⟨hr', decide_eq_true hlt⟩)
      · exact ⟨row, hnew, heq.symm.trans hts⟩
    · rw [List.mem_singleton.mp hr]
      exact ⟨row, hnew, rfl⟩

/-- What a poll is judged to be. -/
theorem judge_cases {t t' : Sampler} {clock : Nat} {health totals : Call}
    (h : judge t clock health totals = some t') : t'.phase = .sweeping ∨
      totals.status = 200 ∧ ∃ keys row,
        rowOf (seconds clock) keys totals.body = some row ∧ t'.phase = .writing row := by
  unfold judge at h
  split at h
  · cases h
    exact .inl rfl
  · next hstatus =>
    rw [not_or, not_not, not_not] at hstatus
    obtain ⟨store, -, h⟩ := Option.bind_eq_some_iff.mp h
    split at h
    · obtain ⟨found, -, h⟩ := Option.bind_eq_some_iff.mp h
      obtain ⟨keys, -, h⟩ := Option.bind_eq_some_iff.mp h
      obtain ⟨row, hrow, h⟩ := Option.bind_eq_some_iff.mp h
      cases h
      exact .inr ⟨hstatus.2, keys, row, hrow, rfl⟩
    · cases h
      exact .inl rfl

theorem Sampled.judge (h : Sampled s) {health totals : Call}
    (hphase : s.sampler.phase = .polling (some health) (some totals)) {sampler : Sampler}
    (hj : judge s.sampler s.clock health totals = some sampler) :
    Sampled { s with sampler } := by
  refine h.task ?_
  rcases judge_cases hj with hsweeping | ⟨h200, keys, row, hrow, hwriting⟩
  · exact Site.atHand_of_phase (.inr (.inr hsweeping))
  · have hhand := h.atHand
    unfold Site.AtHand at hhand ⊢
    rw [hphase] at hhand
    obtain ⟨n, htells, hbehind⟩ := hhand h200
    obtain ⟨row', hrow', hts, hcolumn⟩ := rowOf_totalsBody (seconds s.clock) keys
      fun f => lt_of_le_of_lt (amount_take_le s.calls n (.total f)) (h.exact (.total f))
    rw [htells, hrow'] at hrow
    obtain rfl := Option.some.inj hrow
    dsimp only
    rw [hwriting]
    exact ⟨hts.le, fun r hr => hts ▸ h.past r hr, n, hcolumn, hbehind⟩

theorem get_answered {route text : Text} {status : Nat} {body : Value}
    (h : JsonText.decode text = some body) :
    (Gateway.get route (.answered status text)).body = body := by
  unfold Gateway.get
  dsimp only
  rw [h]
  rfl

theorem Sampled.totals (h : Sampled s) {health : Option Call} {reply : Reply}
    (htold : Told query visit s (.totals reply)) :
    Sampled { s with sampler := { s.sampler with
      phase := .polling health (some (Gateway.get "/query/totals".toList reply)) } } := by
  refine h.task fun h200 => ?_
  cases reply with
  | closed | timeout | failed => exact absurd h200 (by simp [Gateway.get])
  | answered status text =>
    obtain rfl : status = 200 := h200
    obtain ⟨store, hserves, hsent⟩ := htold
    have hbody : (Gateway.get "/query/totals".toList (.answered 200 text)).body =
        totalsBody fun f => amount (recordsOf s.calls) (.total f) :=
      get_answered (by rw [totals_told h.exact hserves hsent, decode_totalsJson])
    refine ⟨s.calls.length, ?_, h.shown⟩
    change _ = totalsBody fun f => amount (recordsOf (s.calls.take s.calls.length)) (.total f)
    rw [List.take_length]
    exact hbody

theorem Sampled.step {a : SiteAct} (h : Sampled s) (ha : Told query visit s a)
    (hs : siteStep s a = some s') : Sampled s' := by
  have hidle : ∀ {sampler : Sampler}, sampler.phase = .off ∨ sampler.phase = .ready ∨
      sampler.phase = .sweeping → Sampled { s with sampler } :=
    fun hphase => h.task (Site.atHand_of_phase hphase)
  unfold siteStep at hs
  cases a with
  | commit call =>
    cases hs
    exact h.commit ha
  | tick micros =>
    cases hs
    exact h.tick micros
  | start =>
    dsimp only at hs
    split at hs <;> cases hs
    exact hidle (.inr (.inl rfl))
  | poll =>
    dsimp only at hs
    split at hs <;> cases hs
    exact h.task trivial
  | health reply =>
    dsimp only at hs
    split at hs
    · next totals hphase =>
      cases hs
      refine h.task ?_
      have hhand := h.atHand
      unfold Site.AtHand at hhand ⊢
      rw [hphase] at hhand
      cases totals with
      | none => trivial
      | some totals => exact hhand
    · cases hs
  | totals reply =>
    dsimp only at hs
    split at hs <;> cases hs
    exact h.totals ha
  | judge =>
    dsimp only at hs
    split at hs
    · next hphase =>
      split at hs <;> cases hs
      · next hj => exact h.judge hphase hj
      · exact hidle (.inl rfl)
    · cases hs
  | write ok =>
    dsimp only at hs
    split at hs
    · next hphase =>
      split at hs <;> cases hs
      · exact h.insert hphase _ (.inr rfl)
      · exact hidle (.inl rfl)
    · cases hs
  | sweep ok =>
    dsimp only at hs
    split at hs
    · split at hs
      · cases hs
        exact hidle (.inr (.inl rfl))
      · split at hs <;> cases hs
        · exact h.sweep _ (.inr rfl)
        · exact hidle (.inl rfl)
    · cases hs
  | cancel late =>
    dsimp only at hs
    split at hs
    · next hphase =>
      cases hs
      exact h.insert hphase _ (.inl rfl)
    · split at hs <;> cases hs
      · exact hidle (.inl rfl)
      · exact h.sweep _ (.inl rfl)
    · cases hs
      exact hidle (.inl rfl)

/-! ## Whole runs -/

theorem Sampled.run {acts : List SiteAct} (hr : Run siteStep (Told query visit) {} acts s) :
    Sampled s :=
  hr.invariant (fun _ _ _ hi ha hs => hi.step ha hs) .initial

/-- A store over the hashes some batches leave. -/
def hashStore (calls : List ConsumeCall) : QueryStore where
  toIQueryStore := (consumed calls).hashes.store
  dbsize _ := some 5
  top _ _ _ _ := none

/-- A store over some batches is asked, and the answers come in. -/
def pollRun (calls : List ConsumeCall) : List SiteAct :=
  let answer (route : Text) : Reply :=
    let sent := (respond (hashStore calls) ⟨6, 10000⟩ .plain ⟨.get, route, []⟩).1
    .answered sent.status sent.body
  [.poll, .health (answer "/query/health".toList), .totals (answer "/query/totals".toList),
    .judge, .write true, .sweep true]

/-- A poll, a batch, and a second poll a hundred seconds later. -/
def twoPolls : List SiteAct :=
  .start :: pollRun [] ++ [.commit (countCall [shortCall]), .tick 100000000] ++
    pollRun [countCall [shortCall]]

/-- What is checked of an act. -/
def told (s : Site) : SiteAct → Bool
  | .commit call => decide (∀ c ∈ (recordsOf (s.calls ++ [call])).flatMap touched,
      amount (recordsOf (s.calls ++ [call])) c < 2 ^ 53)
  | .totals (.answered status text) => decide ((respond (hashStore s.calls) ⟨6, 10000⟩ .plain
      ⟨.get, "/query/totals".toList, []⟩).1 = ⟨status, text⟩)
  | _ => true

theorem told_told (s : Site) (a : SiteAct) (h : told s a = true) : Told ⟨6, 10000⟩ .plain s a := by
  cases a with
  | commit call => exact exact_of_touched (of_decide_eq_true h)
  | totals reply =>
    cases reply with
    | answered status text =>
      exact ⟨hashStore s.calls, Hashes.store_serves _, of_decide_eq_true h⟩
    | _ => trivial
  | _ => trivial

theorem run_twoPolls : ∃ s, Run siteStep (Told ⟨6, 10000⟩ .plain) {} twoPolls s ∧
    s.table.map (fun row => (row.ts, row.column .records)) = [(0, 0), (100, 1)] := by
  have hrun : (runChecked siteStep told {} twoPolls).map (fun s =>
      s.table.map fun row => (row.ts, row.column .records)) = some [(0, 0), (100, 1)] := by
    decide +kernel
  obtain ⟨s, hs, htable⟩ := Option.map_eq_some_iff.mp hrun
  exact ⟨s, .of_checked told_told hs, htable⟩

/-- **What is kept.**  However the polls, the processor, the gateway and the process with the task
in it get on: there is one row a second at most, none from the time to come; each shows what the
records committed up to a moment come to, later rows later moments; and of what was written
within the retention nothing is missing. -/
theorem rows_kept {acts : List SiteAct} (hr : Run siteStep (Told query visit) {} acts s) :
    s.table.Pairwise (·.ts < ·.ts) ∧ (∀ row ∈ s.table, row.ts ≤ seconds s.clock) ∧
      (∀ row ∈ s.table, ∃ n ≤ s.calls.length, Shows s.calls n row) ∧
      (s.table.Pairwise fun r r' =>
        ∃ m n, m ≤ n ∧ n ≤ s.calls.length ∧ Shows s.calls m r ∧ Shows s.calls n r') ∧
      ∀ row ∈ s.log, seconds s.clock - RETENTION_DAYS * 86400 ≤ row.ts →
        ∃ r ∈ s.table, r.ts = row.ts :=
  have h := Sampled.run hr
  ⟨h.ordered, h.past, h.shown.2, h.rising, h.kept⟩

theorem rows_kept_twoPolls :
    ∃ s : Site, s.table.map (fun row => (row.ts, row.column .records)) = [(0, 0), (100, 1)] ∧
      s.table.Pairwise (·.ts < ·.ts) ∧ (∀ row ∈ s.table, row.ts ≤ seconds s.clock) ∧
      (∀ row ∈ s.table, ∃ n ≤ s.calls.length, Shows s.calls n row) ∧
      (s.table.Pairwise fun r r' =>
        ∃ m n, m ≤ n ∧ n ≤ s.calls.length ∧ Shows s.calls m r ∧ Shows s.calls n r') ∧
      ∀ row ∈ s.log, seconds s.clock - RETENTION_DAYS * 86400 ≤ row.ts →
        ∃ r ∈ s.table, r.ts = row.ts := by
  obtain ⟨s, hr, htable⟩ := run_twoPolls
  exact ⟨s, htable, rows_kept hr⟩

/-! ## The rates -/

/-- The totals a metric adds up. -/
def fieldsOf (metric : Text) : List TotalField :=
  TotalField.all.filter fun f => columnOf f ∈ columnsOf metric

/-- What some records come to in a metric. -/
def countedIn (metric : Text) (records : List CdrRecord) : Nat :=
  ((fieldsOf metric).map fun f => amount records (.total f)).sum

theorem columnsOf_eq : ∀ metric ∈ COUNTERS.map Prod.snd ++ SUMS.map Prod.fst,
    columnsOf metric = (fieldsOf metric).map columnOf := by
  decide

theorem countedIn_append (metric : Text) (records more : List CdrRecord) :
    countedIn metric (records ++ more) = countedIn metric records + countedIn metric more := by
  unfold countedIn
  rw [← List.sum_map_add]
  simp only [amount_append]

theorem Shows.sum_eq {metric : Text} {n : Nat} {row : Row} (h : Shows calls n row)
    (hmetric : metric ∈ COUNTERS.map Prod.snd ++ SUMS.map Prod.fst) :
    sum row (columnsOf metric) = countedIn metric (recordsOf (calls.take n)) := by
  unfold sum countedIn
  rw [columnsOf_eq metric hmetric, List.map_map]
  induction fieldsOf metric with
  | nil => rfl
  | cons f fields ih =>
    rw [List.map_cons, List.map_cons, List.sum_cons, List.sum_cons, ih, Nat.cast_add]
    change ((row.column (columnOf f) : Int) : ℚ) + _ = _
    rw [h f, Int.cast_natCast]

/-- Between two moments nothing is taken back. -/
theorem rateOf_counted {metric : Text} {m n : Nat} {before row : Row} (hmn : m ≤ n)
    (hm : Shows calls m before) (hn : Shows calls n row)
    (hmetric : metric ∈ COUNTERS.map Prod.snd ++ SUMS.map Prod.fst) :
    rateOf metric before row =
      countedIn metric (recordsOf ((calls.take n).drop m)) / ((row.ts - before.ts : Int) : ℚ) := by
  have hsplit : recordsOf (calls.take n) =
      recordsOf (calls.take m) ++ recordsOf ((calls.take n).drop m) := by
    unfold recordsOf
    conv_lhs => rw [← List.take_append_drop m (calls.take n), List.take_take, min_eq_left hmn]
    rw [List.flatMap_append]
  have hgrown : sum row (columnsOf metric) - sum before (columnsOf metric) =
      countedIn metric (recordsOf ((calls.take n).drop m)) := by
    rw [hm.sum_eq hmetric, hn.sum_eq hmetric, hsplit, countedIn_append, Nat.cast_add]
    ring
  unfold rateOf
  rw [hgrown, max_eq_right (Nat.cast_nonneg _)]

theorem Sampled.between (h : Sampled s) {before row : Row} (hb : before ∈ s.table)
    (hrow : row ∈ s.table) (hlt : before.ts < row.ts) :
    ∃ m n, m ≤ n ∧ n ≤ s.calls.length ∧ Shows s.calls m before ∧ Shows s.calls n row := by
  obtain ⟨i, hi, rfl⟩ := List.mem_iff_getElem.mp hb
  obtain ⟨j, hj, rfl⟩ := List.mem_iff_getElem.mp hrow
  rcases lt_trichotomy i j with hij | rfl | hji
  · exact List.pairwise_iff_getElem.mp h.rising i j hi hj hij
  · exact absurd hlt (lt_irrefl _)
  · exact absurd hlt (lt_asymm (List.pairwise_iff_getElem.mp h.ordered j i hj hi hji))

theorem mem_samplesRows {table : List Row} {since : Int} {row : Row}
    (h : row ∈ samplesRows table since) : row ∈ table := by
  unfold samplesRows at h
  dsimp only at h
  split at h
  · next before hlast =>
    rcases List.mem_cons.mp h with rfl | h
    · exact (List.mem_filter.mp (List.mem_of_getLast? hlast)).1
    · exact (List.mem_filter.mp h).1
  · exact (List.mem_filter.mp h).1

theorem against_mem {rows : List Row} {row : Row} (hrow : row ∈ rows) : against rows row ∈ rows := by
  unfold against
  cases hlast : (rows.filter (·.ts ≤ row.ts - RATE_LAG)).getLast? with
  | some r => exact (List.mem_filter.mp (List.mem_of_getLast? hlast)).1
  | none =>
    cases hhead : rows.head? with
    | some r => exact List.mem_of_head? hhead
    | none => exact hrow

/-- **What the chart shows.**  Whatever the window: a point of a rate stands at the time of a row
that is kept, and is what was counted between two moments of the run, which that row and an
older one show, by the seconds between the two; no drop was ever cut off. -/
theorem rates_true {acts : List SiteAct} (hr : Run siteStep (Told query visit) {} acts s)
    {metric : Text} (hmetric : metric ∈ COUNTERS.map Prod.snd ++ SUMS.map Prod.fst)
    (window : Text) (now upTo : Int) :
    ∃ sent, series s.table now upTo (metric ++ RATE_SUFFIX) window = .ok sent ∧
      ∀ point ∈ sent.points, ∃ before ∈ s.table, ∃ row ∈ s.table, before.ts < row.ts ∧
        ∃ m n, m ≤ n ∧ n ≤ s.calls.length ∧ Shows s.calls m before ∧ Shows s.calls n row ∧
          point = (row.ts, some (countedIn metric (recordsOf ((s.calls.take n).drop m)) /
            ((row.ts - before.ts : Int) : ℚ))) := by
  have h := Sampled.run hr
  have htallied : Tallied metric := .inr (List.mem_append.mp hmetric)
  obtain ⟨sent, hsent, hpoints, -, -⟩ := series_rate h.ordered now upTo htallied window
  refine ⟨sent, hsent, fun point hpoint => ?_⟩
  rw [hpoints] at hpoint
  obtain ⟨row, hrow, rfl⟩ := List.mem_map.mp (mem_downsample hpoint)
  have htail := (List.mem_filter.mp hrow).1
  have hmem := List.mem_of_mem_tail htail
  have hlt := against_lt (samplesRows_pairwise h.ordered _) htail
  have hbefore := mem_samplesRows (against_mem hmem)
  obtain ⟨m, n, hmn, hn, hm, hshows⟩ := h.between hbefore (mem_samplesRows hmem) hlt
  exact ⟨_, hbefore, row, mem_samplesRows hmem, hlt, m, n, hmn, hn, hm, hshows,
    by rw [rateOf_counted hmn hm hshows hmetric]⟩

/-- One record in a hundred seconds. -/
theorem rates_true_twoPolls :
    ∃ (s : Site) (sent : Series),
      s.table.map (fun row => (row.ts, row.column .records)) = [(0, 0), (100, 1)] ∧
      series s.table 100 100 ("records".toList ++ RATE_SUFFIX) "1h".toList = .ok sent ∧
      ∀ point ∈ sent.points, ∃ before ∈ s.table, ∃ row ∈ s.table, before.ts < row.ts ∧
        ∃ m n, m ≤ n ∧ n ≤ s.calls.length ∧ Shows s.calls m before ∧ Shows s.calls n row ∧
          point = (row.ts, some (countedIn "records".toList
            (recordsOf ((s.calls.take n).drop m)) / ((row.ts - before.ts : Int) : ℚ))) := by
  obtain ⟨s, hr, htable⟩ := run_twoPolls
  have hmetric : "records".toList ∈ COUNTERS.map Prod.snd ++ SUMS.map Prod.fst := by decide
  obtain ⟨sent, hsent, hpoints⟩ := rates_true hr hmetric "1h".toList 100 100
  exact ⟨s, sent, htable, hsent, hpoints⟩

end CdrProcessor.Sampler
