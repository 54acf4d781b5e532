import CdrProcessor.NoLoss

/-! Harvesters on different hosts that share one store.  The progress of a file is kept
under its name alone, so a file is only safe from the progress of another as long as that
stays below what the file has to come. -/

namespace CdrProcessor

/-! ## Hosts on one store -/

/-- The hosts, each with directories and a process of its own; what a host holds of the
store is out of date between its steps. -/
structure Harvest where
  db : Db
  hosts : Nat → Ingest

/-- A host, with the store as it is. -/
def Harvest.host (s : Harvest) (h : Nat) : Ingest := { s.hosts h with db := s.db }

/-- A step of one host. -/
def harvestStep (cfg : Nat → Setup) (s : Harvest) (act : Nat × Act) : Option Harvest :=
  (step (cfg act.1) (s.host act.1) act.2).map fun host =>
    { db := host.db, hosts := Function.update s.hosts act.1 host }

/-- Nothing has been delivered anywhere, and nothing runs. -/
def Harvest.initial (db : Db) : Harvest := { db, hosts := fun _ => .initial db }

/-- A mark put at this height comes over no accepted record of another host's file of the name
that it was not over before. -/
def Harvest.Spares (cfg : Nat → Setup) (s : Harvest) (h : Nat) (f : FileName) (mark : UInt64) :
    Prop :=
  ∀ h' ≠ h, ∀ text, (s.host h').Holds f text → ∀ r ∈ accepted (cfg h').parser text,
    r.sequence ≤ mark → r.sequence.toNat ≤ (s.host h').mark (cfg h') f

/-- A file is new to its host and above the mark of its name, and a batch that gets through is
brought whole and takes no mark over what another host has under the name. -/
def Distinct (cfg : Nat → Setup) (s : Harvest) (act : Nat × Act) : Prop :=
  Careful (cfg act.1) (s.host act.1) act.2 ∧
    ∀ i job, act.2.Commits i → ((s.host act.1).threads i).job = some job →
      s.Spares cfg act.1 job.name (AggregateSink.highest ((s.host act.1).nextBatch i))

/-- Until it takes another file, a worker gets nothing through behind a batch that was not
brought whole. -/
def Harvest.NoneBehind (cfg : Nat → Setup) (s : Harvest) (acts : List (Nat × Act)) : Prop :=
  ∀ pre h i visit script mid a post t,
    acts = pre ++ (h, .consume i visit script) :: (mid ++ (h, a) :: post) →
    (∀ b ∈ mid, b ≠ (h, .take i)) → Run (harvestStep cfg) (fun _ _ => True) s pre t →
    a.Commits i → (t.host h).Brings (cfg h) i visit script

/-! ## What one host does to another -/

section Host

variable {cfg cfg' : Setup} {s s' : Ingest}

theorem mark_setup (cfg cfg' : Setup) (s : Ingest) (f : FileName) :
    s.mark cfg f = s.mark cfg' f := by
  unfold Ingest.mark
  rw [cfg.source_eq, cfg'.source_eq]

/-- A mark moves where a batch of its file gets through, to the highest sequence in it. -/
theorem Shape.mark_step (h : Shape cfg s) {a : Act} (ha : Steady cfg s a)
    (hs : CdrProcessor.step cfg s a = some s') (f : FileName) : s'.mark cfg f = s.mark cfg f ∨
      ∃ i job, a.Commits i ∧ (s.threads i).job = some job ∧ job.name = f ∧
        s'.mark cfg f = (AggregateSink.highest (s.nextBatch i)).toNat := by
  obtain ⟨-, heff⟩ := step_shape h ha.arrives hs
  cases heff with
  | quiet hdb => exact .inl (mark_congr hdb f)
  | opened => exact .inl rfl
  | @handed i visit script name src kept batch src' ran _ hj hn hv =>
    have hd := h.handed hj hn hv ha
    by_cases hl : Lands script
    · have hmark := (hd.landed hl).2.2 f
      by_cases hf : f = name
      · subst hf
        rw [if_pos rfl, ← nextBatch_eq hj rfl hn] at hmark
        exact .inr ⟨i, _, ⟨rfl, hl⟩, hj, rfl, hmark⟩
      · rw [if_neg hf] at hmark
        exact .inl hmark
    · exact .inl (mark_congr (hd.missed hl).2 f)
  | finished hj hd hdb => exact .inl (mark_congr hdb f)

/-- A host under whose files the store changes, with no mark over more of them. -/
theorem Unhidden.elsewhere (h : Unhidden cfg s) {db : Db}
    (hm : ∀ f, { s with db : Ingest }.mark cfg f < 2 ^ 64)
    (hf : ∀ f text, s.Holds f text → ∀ r ∈ accepted cfg.parser text,
      r.sequence.toNat ≤ { s with db : Ingest }.mark cfg f →
      r.sequence.toNat ≤ s.mark cfg f) :
    Unhidden cfg { s with db } where
  shape := { h.shape with marks := hm }
  counted f text ht r hr hle := h.counted f text ht r hr (hf f text ht r hr hle)
  reader := h.reader

/-- The records an open source passes over as applied are counted. -/
def Ingest.Filtered (cfg : Setup) (s : Ingest) : Prop :=
  ∀ i job src text, (s.threads i).job = some job → job.src = some src →
    s.Holds job.name text → ∀ r ∈ accepted cfg.parser text, r.sequence ≤ src.resumeSeq →
      s.Counted job.name r

theorem make_resumeSeq (map : Option Text) (parser : IParser) (resume : UInt64) :
    (FileSource.make map parser resume).resumeSeq = resume := by
  unfold FileSource.make
  split
  · rfl
  · rfl
  · split <;> rfl

theorem next_resumeSeq (src : FileSource) : src.next.2.2.resumeSeq = src.resumeSeq := by
  unfold FileSource.next
  split
  · rfl
  · dsimp only
    split <;> rfl

/-- A source gets its resume point where it is opened, out of the mark, and keeps it. -/
theorem Unhidden.filtered (h : Unhidden cfg s) (hi : s.Filtered cfg) {a : Act}
    (ha : Unskipped cfg s a) (hs : CdrProcessor.step cfg s a = some s') : s'.Filtered cfg := by
  obtain ⟨-, heff⟩ := step_shape h.shape ha.1.steady.arrives hs
  cases heff with
  | quiet hdb hlog hh hnew hjobs hdone =>
    intro i job src text hj hsrc ht r hr hle
    rcases hjobs i job hj with hj | ⟨hnone, -⟩
    · rcases hnew job.name text ht with ht | hd
      · exact (hi i job src text hj hsrc ht r hr hle).mono fun e he => hlog ▸ he
      · exact absurd (h.shape.jobs i job hj).1 (hd.fresh .process)
    · rw [hnone] at hsrc
      cases hsrc
  | @opened i readable script name kept t resume hj hk ht hr =>
    intro i' job src text hj' hsrc hh r hm hle
    by_cases hi' : i' = i
    · subst hi'
      change (Function.update s.threads i' t i').job = some job at hj'
      rw [Function.update_self, ht] at hj'
      cases hj'
      cases hsrc
      rw [make_resumeSeq, UInt64.le_iff_toNat_le] at hle
      have hmark : resume.toNat ≤ s.mark cfg name := by
        rcases hr with hr | ⟨-, rfl⟩
        · exact le_of_eq hr
        · exact Nat.zero_le _
      exact h.counted name text hh r hm (le_trans hle hmark)
    · change (Function.update s.threads i t i').job = some job at hj'
      rw [Function.update_of_ne hi'] at hj'
      exact hi i' job src text hj' hsrc hh r hm hle
  | @handed i visit script name src kept batch src' ran _ hj hn hv hlog hfiles hjobs =>
    intro i' job src1 text hj' hsrc ht r hr hle
    have hheld : s.Holds job.name text := by
      unfold Ingest.Holds at ht
      rwa [hfiles] at ht
    have hold : ∀ e ∈ s.log, e ∈ s'.log := fun e he => by
      rw [hlog]
      exact List.mem_append_left _ he
    rcases hjobs i' job hj' with ⟨-, hj'⟩ | ⟨-, -, rfl⟩
    · exact (hi i' job src1 text hj' hsrc hheld r hr hle).mono hold
    · cases hsrc
      have hkeep := next_resumeSeq src
      rw [hn] at hkeep
      exact (hi i _ src text hj rfl hheld r hr (hkeep ▸ hle)).mono hold
  | finished hj hd hdb hlog hh hjobs hdone =>
    intro i job src text hj hsrc ht r hr hle
    exact (hi i job src text (hjobs i job hj) hsrc ((hh _ text).mp ht) r hr hle).mono
      fun e he => hlog ▸ he

end Host

/-! ## All of them -/

variable {cfg : Nat → Setup} {s s' : Harvest}

/-- After a step of one host: it is where it came to, and to the others only the store
has changed. -/
theorem host_update (s : Harvest) (h : Nat) (host : Ingest) (h' : Nat) :
    (Harvest.mk host.db (Function.update s.hosts h host)).host h' =
      if h' = h then host else { s.host h' with db := host.db } := by
  unfold Harvest.host
  dsimp only
  split
  · next hh =>
    subst hh
    rw [Function.update_self]
  · next hh => rw [Function.update_of_ne hh]

/-- What keeps the marks of one host small keeps those of all. -/
theorem marks_small {h : Nat} {host : Ingest} (hhost : Shape (cfg h) host) (h' : Nat)
    (f : FileName) : ({ s.host h' with db := host.db } : Ingest).mark (cfg h') f < 2 ^ 64 := by
  have hm : ({ s.host h' with db := host.db } : Ingest).mark (cfg h') f = host.mark (cfg h) f :=
    mark_setup (cfg h') (cfg h) host f
  rw [hm]
  exact hhost.marks f

/-- Every host is in shape. -/
def Harvest.Shaped (cfg : Nat → Setup) (s : Harvest) : Prop := ∀ h, Shape (cfg h) (s.host h)

theorem Harvest.Shaped.step (hi : s.Shaped cfg) {act : Nat × Act}
    (ha : Arrives (cfg act.1) (s.host act.1) act.2) (hs : harvestStep cfg s act = some s') :
    s'.Shaped cfg := by
  obtain ⟨host, hstep, rfl⟩ := Option.map_eq_some_iff.mp hs
  have hhost := (step_shape (hi act.1) ha hstep).1
  intro h
  rw [host_update]
  split
  · next hh => exact hh ▸ hhost
  · exact { hi h with marks := marks_small hhost h }

/-- Every host counts what its marks and its open sources give up. -/
structure Harvest.Sound (cfg : Nat → Setup) (s : Harvest) : Prop where
  host : ∀ h, Unhidden (cfg h) (s.host h)
  filtered : ∀ h, (s.host h).Filtered (cfg h)

theorem Harvest.Sound.initial (cfg : Nat → Setup) {db : Db}
    (hm : ∀ h f, (Ingest.initial db).mark (cfg h) f < 2 ^ 64) :
    (Harvest.initial db).Sound cfg where
  host h := .initial (cfg h) (hm h)
  filtered h i job src text hj := by cases hj

theorem Harvest.Sound.step (hi : s.Sound cfg) {act : Nat × Act} (ha : Distinct cfg s act)
    (hk : ∀ i, act.2.Commits i → (s.host act.1).Kept i) (hs : harvestStep cfg s act = some s') :
    s'.Sound cfg := by
  obtain ⟨h, a⟩ := act
  obtain ⟨host, hstep, rfl⟩ := Option.map_eq_some_iff.mp hs
  have hun : Unskipped (cfg h) (s.host h) a := ⟨ha.1, hk⟩
  have hhost := (hi.host h).step hun hstep
  -- where a mark comes over more of a file, the file is this host's own
  have hmark : ∀ h' ≠ h, ∀ f text, (s.host h').Holds f text →
      ∀ r ∈ accepted (cfg h').parser text,
      r.sequence.toNat ≤ ({ s.host h' with db := host.db } : Ingest).mark (cfg h') f →
      r.sequence.toNat ≤ (s.host h').mark (cfg h') f := by
    intro h' hh f text ht r hr hle
    have hsame : ({ s.host h' with db := host.db } : Ingest).mark (cfg h') f =
        host.mark (cfg h) f := mark_setup (cfg h') (cfg h) host f
    rw [hsame] at hle
    rcases (hi.host h).shape.mark_step ha.1.steady hstep f with hm | ⟨i, job, hc, hj, rfl, hm⟩
    · rw [hm] at hle
      exact hle.trans_eq (mark_setup (cfg h) (cfg h') (s.host h) f)
    · rw [hm] at hle
      exact ha.2 i job hc hj h' hh text ht r hr (UInt64.le_iff_toNat_le.mpr hle)
  refine ⟨fun h' => ?_, fun h' => ?_⟩
  · rw [host_update]
    split
    · next hh => exact hh ▸ hhost
    · next hh => exact (hi.host h').elsewhere (marks_small hhost.shape h') (hmark h' hh)
  · rw [host_update]
    split
    · next hh =>
      subst hh
      exact (hi.host h').filtered (hi.filtered h') hun hstep
    · exact hi.filtered h'

/-! ## Whole runs -/

/-- Where nothing gets through behind a batch that was not brought whole, no worker remembers
such a batch when something of it does. -/
theorem Harvest.NoneBehind.kept {db : Db}
    (hm : ∀ h f, (Ingest.initial db).mark (cfg h) f < 2 ^ 64) {acts : List (Nat × Act)}
    (hr : Run (harvestStep cfg) (Distinct cfg) (Harvest.initial db) acts s)
    (hb : Harvest.NoneBehind cfg (Harvest.initial db) acts) :
    Run (harvestStep cfg) (fun s act => Distinct cfg s act ∧
      ∀ i, act.2.Commits i → (s.host act.1).Kept i) (Harvest.initial db) acts s := by
  refine hr.allow fun pre act post u u' hacts hu ha hs => ⟨ha, fun i hc => ?_⟩
  obtain ⟨h, a⟩ := act
  by_contra hk
  have hback : ∀ pre x b x', Run (harvestStep cfg) (Distinct cfg) (Harvest.initial db) pre x →
      Distinct cfg x b → harvestStep cfg x b = some x' → ¬ (x'.host h).Kept i →
      (∃ visit script, b = (h, .consume i visit script) ∧
        ¬ (x.host h).Brings (cfg h) i visit script) ∨
        ¬ (x.host h).Kept i ∧ ¬ b = (h, .take i) := by
    intro pre x b x' hx hb hs hk
    have hshape : x.Shaped cfg :=
      hx.invariant (fun _ _ _ hi ha hs => hi.step ha.1.steady.arrives hs)
        fun h => .initial (cfg h) (hm h)
    obtain ⟨h', b⟩ := b
    obtain ⟨host, hstep, rfl⟩ := Option.map_eq_some_iff.mp hs
    rw [host_update] at hk
    split at hk
    · next hh =>
      subst hh
      rcases kept_step (hshape h) hb.1.steady.arrives hstep hk with
        ⟨visit, script, rfl, hbrings⟩ | ⟨hk, ht⟩
      · exact .inl ⟨visit, script, rfl, hbrings⟩
      · exact .inr ⟨hk, fun he => ht (Prod.mk.inj he).2⟩
    · next hh => exact .inr ⟨hk, fun he => hh (Prod.mk.inj he).1.symm⟩
  obtain ⟨pre', b, mid, t, rfl, ht, ⟨visit, script, rfl, hbrings⟩, hmid⟩ :=
    hu.since (fun x => ¬ (x.host h).Kept i) _ _ (fun hn => hn fun job hj => by cases hj) hback hk
  refine hbrings (hb pre' h i visit script mid a post t ?_ hmid (ht.mono fun _ _ _ => trivial) hc)
  rw [hacts, List.append_assoc]
  rfl

/-- **No progress of another file.**  In any run that meets the condition, a record that
the resume filter of an open file passes over is counted, in a batch of that file on
that host. -/
theorem skipped_only_counted {db : Db}
    (hm : ∀ h f, (Ingest.initial db).mark (cfg h) f < 2 ^ 64) {acts : List (Nat × Act)}
    (hr : Run (harvestStep cfg) (Distinct cfg) (Harvest.initial db) acts s)
    (hb : Harvest.NoneBehind cfg (Harvest.initial db) acts) {h i : Nat}
    {job : Job} {src : FileSource} (hj : ((s.host h).threads i).job = some job)
    (hs : job.src = some src) {text : Text} (ht : (s.host h).Holds job.name text)
    {r : CdrRecord} (ha : r ∈ accepted (cfg h).parser text) (hle : r.sequence ≤ src.resumeSeq) :
    (s.host h).Counted job.name r := by
  have hsound : s.Sound cfg :=
    (hb.kept hm hr).invariant (fun _ _ _ hi ha hs => hi.step ha.1 ha.2 hs) (.initial cfg hm)
  exact hsound.filtered h i job src text hj hs ht r ha hle

/-- A call of another subscriber under the same sequence. -/
def otherCall : Text := "CDR|csv|1\n1|4|3|MOC|1|01/02/2024|10:20:30|3|||0|2\n".toList

/-- The same call under the next sequence. -/
def laterCall : Text := "CDR|csv|1\n2|4|3|MOC|1|01/02/2024|10:20:30|3|||0|2\n".toList

def otherRecord : CdrRecord := { oneRecord with subscriberImsi := 4 }

def laterRecord : CdrRecord := { otherRecord with sequence := 2 }

/-- A file comes to a host, is claimed, read and handed over. -/
def hostRun (h : Nat) (f : FileName) (text : Text) : List (Nat × Act) :=
  [.deliver f text, .start [], .claim f, .take 0, .opens 0 true askRun,
    .consume 0 .plain landRun].map (h, ·)

/-- What the first worker of a host passes over, and of which file. -/
def Harvest.passed (s : Harvest) (h : Nat) : Option (FileName × UInt64) :=
  ((s.host h).threads 0).job.bind fun job => job.src.map fun src => (job.name, src.resumeSeq)

theorem Harvest.passed_eq {s : Harvest} {h : Nat} {f : FileName} {resume : UInt64}
    (hp : s.passed h = some (f, resume)) :
    ∃ job src, ((s.host h).threads 0).job = some job ∧ job.src = some src ∧ job.name = f ∧
      src.resumeSeq = resume := by
  obtain ⟨job, hj, hmap⟩ := Option.bind_eq_some_iff.mp hp
  obtain ⟨src, hs, he⟩ := Option.map_eq_some_iff.mp hmap
  obtain ⟨hname, hresume⟩ := Prod.mk.inj he
  exact ⟨job, src, hj, hs, hname, hresume⟩

/-- What is checked of the other one of two hosts. -/
def Harvest.spares (cfg : Nat → Setup) (s : Harvest) (h : Nat) (f : FileName) (mark : UInt64) :
    Bool :=
  [Dir.ready, .process, .done, .fail].all fun d =>
    (((s.host (1 - h)).files d).lookup f).all fun text =>
      (accepted (cfg (1 - h)).parser text).all fun r =>
        decide (r.sequence ≤ mark → r.sequence.toNat ≤ (s.host (1 - h)).mark (cfg (1 - h)) f)

/-- What is checked of a step of two hosts. -/
def distinct (cfg : Nat → Setup) (s : Harvest) (act : Nat × Act) : Bool :=
  decide (act.1 < 2) && unfailing (cfg act.1) (s.host act.1) act.2 &&
    match act.2 with
    | .consume i _ _ => ((s.host act.1).threads i).job.all fun job =>
        s.spares cfg act.1 job.name (AggregateSink.highest ((s.host act.1).nextBatch i))
    | _ => true

/-- Only two hosts have files. -/
def Harvest.Pair (s : Harvest) : Prop := ∀ h d, 2 ≤ h → (s.hosts h).files d = ∅

theorem Harvest.Pair.step (hi : s.Pair) {act : Nat × Act} (ha : distinct cfg s act = true)
    (hs : harvestStep cfg s act = some s') : s'.Pair := by
  obtain ⟨host, -, rfl⟩ := Option.map_eq_some_iff.mp hs
  intro h d hh
  obtain ⟨hfirst, -⟩ := (Bool.and_eq_true _ _).mp ha
  have hlt : act.1 < 2 := of_decide_eq_true ((Bool.and_eq_true _ _).mp hfirst).1
  change (Function.update s.hosts act.1 host h).files d = ∅
  rw [Function.update_of_ne (by omega)]
  exact hi h d hh

theorem Harvest.Pair.spares (hi : s.Pair) {h : Nat} (hh : h < 2) {f : FileName} {mark : UInt64}
    (hc : s.spares cfg h f mark = true) : s.Spares cfg h f mark := by
  rintro h' hne text ⟨d, hl⟩ r hr hle
  have hlt : h' < 2 := by
    by_contra hge
    change ((s.hosts h').files d).lookup f = some text at hl
    rw [hi h' d (Nat.le_of_not_lt hge)] at hl
    cases hl
  obtain rfl : h' = 1 - h := by omega
  have hd := List.all_eq_true.mp hc d (by cases d <;> simp)
  rw [hl] at hd
  exact of_decide_eq_true (List.all_eq_true.mp hd r hr) hle

theorem distinct_distinct {acts : List (Nat × Act)} {db : Db}
    (hr : Run (harvestStep cfg) (fun s act => distinct cfg s act = true) (Harvest.initial db)
      acts s) : Run (harvestStep cfg) (Distinct cfg) (Harvest.initial db) acts s ∧
      Harvest.NoneBehind cfg (Harvest.initial db) acts := by
  have hsteady : ∀ (x : Harvest) (act : Nat × Act), distinct cfg x act = true →
      Unfailing (cfg act.1) (x.host act.1) act.2 := fun x act h =>
    unfailing_unfailing _ _ _
      ((Bool.and_eq_true _ _).mp ((Bool.and_eq_true _ _).mp h).1).2
  constructor
  · refine hr.allow fun pre act post u u' _ hu ha _ => ?_
    have hpair : u.Pair := hu.invariant (fun _ _ _ hi ha hs => hi.step ha hs) fun _ _ _ => rfl
    refine ⟨(hsteady u act ha).careful, fun i job hc hj => ?_⟩
    obtain ⟨hfirst, hspares⟩ := (Bool.and_eq_true _ _).mp ha
    obtain ⟨h, a⟩ := act
    cases a with
    | consume j visit script =>
      obtain ⟨rfl, -⟩ := hc
      dsimp only at hspares hj
      rw [hj] at hspares
      exact hpair.spares (of_decide_eq_true ((Bool.and_eq_true _ _).mp hfirst).1) hspares
    | _ => exact hc.elim
  · rintro pre h i visit script mid a post t rfl - ht -
    exact hsteady t _ (hr.allowed_at ht)

/-- One host is done with a file, another one has a later file of its name, and starts over
behind the commit of it. -/
theorem skipped_only_counted_restart :
    ∃ acts s job src, Run (harvestStep fun _ => oneReader) (Distinct fun _ => oneReader)
        (Harvest.initial {}) acts s ∧
      Harvest.NoneBehind (fun _ => oneReader) (Harvest.initial {}) acts ∧
      oneName ∈ (s.host 0).files .done ∧ ((s.host 1).threads 0).job = some job ∧
      job.name = oneName ∧ job.src = some src ∧ laterRecord.sequence ≤ src.resumeSeq ∧
      (s.host 1).Counted oneName laterRecord := by
  have hrun : (runChecked (harvestStep fun _ => oneReader) (distinct fun _ => oneReader)
      (Harvest.initial {}) (hostRun 0 oneName oneCall ++ (0, .dispose 0 true) ::
        hostRun 1 oneName laterCall ++
        [.crash, .start [oneName], .take 0, .opens 0 true askRun].map (1, ·))).map
      (fun s => (s.passed 1, ((s.host 1).files .process).lookup oneName,
        ((s.host 0).files .done).lookup oneName)) =
        some (some (oneName, 2), some laterCall, some oneCall) := by decide +kernel
  obtain ⟨s, hs, hobs⟩ := Option.map_eq_some_iff.mp hrun
  obtain ⟨hpassed, hobs⟩ := Prod.mk.inj hobs
  obtain ⟨htext, hdone⟩ := Prod.mk.inj hobs
  obtain ⟨hr, hb⟩ := distinct_distinct (Run.of_checked (fun _ _ h => h) hs)
  obtain ⟨job, src, hj, hsrc, hname, hresume⟩ := Harvest.passed_eq hpassed
  have hle : laterRecord.sequence ≤ src.resumeSeq := by
    rw [hresume]
    decide
  refine ⟨_, s, job, src, hr, hb, mem_of_lookup hdone, hj, hname, hsrc, hle, ?_⟩
  have hcounted := skipped_only_counted (fun _ => unmarked_at_first oneReader) hr hb hj hsrc
    ⟨.process, hname ▸ htext⟩ (r := laterRecord) (by decide +kernel) hle
  rwa [hname] at hcounted

/-- A file of the name of one that another host is done with: its only record is passed
over, and nothing of it has been counted. -/
theorem hidden_by_another_host :
    ∃ acts s, Run (harvestStep fun _ => oneReader) (fun _ _ => True) (Harvest.initial {}) acts s ∧
      ¬ ∀ h i job src text r, ((s.host h).threads i).job = some job → job.src = some src →
        (s.host h).Holds job.name text → r ∈ accepted oneReader.parser text →
        r.sequence ≤ src.resumeSeq → (s.host h).Counted job.name r := by
  have hrun : (runChecked (harvestStep fun _ => oneReader) (fun _ _ => true)
      (Harvest.initial {}) (hostRun 0 oneName oneCall ++ [(0, .dispose 0 true)] ++
        (hostRun 1 oneName otherCall).take 5)).map
      (fun s => (s.passed 1, ((s.host 1).files .process).lookup oneName, (s.host 1).log.length)) =
        some (some (oneName, 1), some otherCall, 0) := by decide +kernel
  obtain ⟨s, hs, hobs⟩ := Option.map_eq_some_iff.mp hrun
  obtain ⟨hpassed, hobs⟩ := Prod.mk.inj hobs
  obtain ⟨htext, hlog⟩ := Prod.mk.inj hobs
  obtain ⟨job, src, hj, hsrc, hname, hresume⟩ := Harvest.passed_eq hpassed
  refine ⟨_, s, Run.of_checked (fun _ _ _ => trivial) hs, fun h => ?_⟩
  obtain ⟨e, he, -⟩ := h 1 0 job src otherCall otherRecord hj hsrc ⟨.process, hname ▸ htext⟩
    (by decide +kernel) (by rw [hresume]; decide)
  rw [List.length_eq_zero_iff.mp hlog] at he
  cases he

end CdrProcessor
