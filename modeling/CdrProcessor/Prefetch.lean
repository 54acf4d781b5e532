import CdrProcessor.RabbitAck
import CdrProcessor.Refused

/-! Whether the window of a consumer can fill up with messages that nothing will ack.  It
does as soon as the broker deals it a window of rejected messages in a row. -/

namespace CdrProcessor

/-! ## What a consumer is dealt -/

/-- The body a step deals to a consumer. -/
def RabbitAct.deals (i : Nat) : RabbitAct → Option Text
  | .push j body => if j = i then some body else none
  | _ => none

/-- The bodies the broker deals to a consumer, on one channel after the other. -/
def dealt (i : Nat) (acts : List RabbitAct) : List Text := acts.filterMap (RabbitAct.deals i)

/-- The connection of a consumer stays up: neither side closes it, and the process lives. -/
def RabbitAct.Steady (i : Nat) : RabbitAct → Prop
  | .opens j _ | .cut j | .fail j => j ≠ i
  | .ack j ok => j = i → ok = true
  | .crash => False
  | .consume _ _ script => script.any Event.isKill = false
  | _ => True

/-- The window of a consumer is full, all of it has been parsed, and whatever happens next,
none of it is acked as long as its connection stays up. -/
structure Wedged (parser : IParser) (s : Rabbit) (i : Nat) : Prop where
  connected : ¬ (s.consumers i).Adrift
  up : (s.consumers i).channel.up = true
  full : (s.consumers i).channel.unacked.length = kRabbitPrefetch
  parsed : ∀ d ∈ (s.consumers i).channel.unacked, d ∉ (s.consumers i).channel.unread
  stuck : ∀ acts t, Run (rabbitStep parser) (fun _ a => a.Steady i) s acts t →
    (t.consumers i).channel.unacked = (s.consumers i).channel.unacked

variable {parser : IParser} {s s' : Rabbit} {i : Nat}

@[simp] theorem Rabbit.set_consumers_self (r : Rabbit) (i : Nat) (c : Consumer) :
    (r.set i c).consumers i = c := Function.update_self ..

/-- A consumer behind the step of another is what it was. -/
theorem Rabbit.set_keeps {P : Consumer → Prop} (h : P (s.consumers i)) {j : Nat} {c : Consumer}
    (hc : j = i → P c) : P ((s.set j c).consumers i) := by
  by_cases hj : j = i
  · subst hj
    rw [Rabbit.set_consumers_self]
    exact hc rfl
  · change P (Function.update s.consumers j c i)
    rw [Function.update_of_ne (Ne.symm hj)]
    exact h

/-! ## What is unacked is what was dealt last -/

/-- Sorted by tag, what an ack covers comes first. -/
theorem filter_tags {l : List Delivery} (h : l.Pairwise fun d d' => d.tag < d'.tag) (tag : Nat) :
    (l.filter fun d => d.tag ≤ tag) ++ (l.filter fun d => ¬ d.tag ≤ tag) = l := by
  induction l with
  | nil => rfl
  | cons d l ih =>
    obtain ⟨hd, hl⟩ := List.pairwise_cons.mp h
    by_cases hle : d.tag ≤ tag
    · rw [List.filter_cons_of_pos (by simpa using hle),
        List.filter_cons_of_neg (by simpa using hle), List.cons_append, ih hl]
    · have hnone : (l.filter fun d => d.tag ≤ tag) = [] := by
        refine List.filter_eq_nil_iff.mpr fun d' hd' => ?_
        have := hd d' hd'
        simp only [decide_eq_true_eq]
        omega
      rw [List.filter_cons_of_neg (by simpa using hle),
        List.filter_cons_of_pos (by simpa using hle), hnone, List.nil_append]
      congr 1
      have := ih hl
      rwa [hnone, List.nil_append] at this

/-- What is unacked on a channel are the last of the bodies dealt, in their order. -/
structure Dealt (bodies : List Text) (channel : Channel) : Prop where
  last : channel.unacked.map Delivery.body <:+ bodies
  order : channel.unacked.Pairwise fun d d' => d.tag < d'.tag
  below : ∀ d ∈ channel.unacked, d.tag < channel.nextTag

variable {bodies : List Text} {channel channel' : Channel}

theorem Dealt.nothing (bodies : List Text) (hc : channel.unacked = []) : Dealt bodies channel := by
  refine ⟨?_, ?_, fun d hd => ?_⟩
  · rw [hc]
    exact List.nil_suffix
  · rw [hc]
    exact .nil
  · rw [hc] at hd
    cases hd

theorem Dealt.push {body : Text} (h : Dealt bodies channel)
    (hp : channel.push body = some channel') : Dealt (bodies ++ [body]) channel' := by
  obtain ⟨-, rfl⟩ := Channel.push_cases hp
  obtain ⟨gone, hg⟩ := h.last
  refine ⟨⟨gone, by simp [← hg]⟩, ?_, fun d hd => ?_⟩
  · refine List.pairwise_append.mpr ⟨h.order, List.pairwise_singleton _ _, ?_⟩
    intro d hd d' hd'
    rw [List.mem_singleton.mp hd']
    exact h.below d hd
  · rcases List.mem_append.mp hd with hd | hd
    · exact Nat.lt_succ_of_lt (h.below d hd)
    · rw [List.mem_singleton.mp hd]
      exact Nat.lt_succ_self _

theorem Dealt.ack (h : Dealt bodies channel) (tag : Nat) : Dealt bodies (channel.ack tag).2 := by
  refine ⟨List.IsSuffix.trans ⟨(channel.ack tag).1.map Delivery.body, ?_⟩ h.last,
    h.order.filter _, fun d hd => ?_⟩
  · rw [← List.map_append]
    unfold Channel.ack
    rw [filter_tags h.order]
  · exact h.below d (List.mem_filter.mp hd).1

theorem Dealt.keep (h : Dealt bodies channel) (hu : channel'.unacked = channel.unacked)
    (hn : channel'.nextTag = channel.nextTag) : Dealt bodies channel' :=
  ⟨by rw [hu]; exact h.last, by rw [hu]; exact h.order, by rw [hu, hn]; exact h.below⟩

theorem Dealt.step {a : RabbitAct} (hidle : ∀ j, (s.consumers j).Idle)
    (h : Dealt bodies (s.consumers i).channel) (hs : rabbitStep parser s a = some s') :
    Dealt (bodies ++ (a.deals i).toList) (s'.consumers i).channel := by
  -- a step that deals nothing to the consumer, and one that moves some consumer
  have hmove : ∀ {t : Rabbit} {j : Nat} {c : Consumer}, t.consumers = s.consumers →
      a.deals i = none → (j = i → Dealt bodies c.channel) →
      Dealt (bodies ++ (a.deals i).toList) ((t.set j c).consumers i).channel := by
    intro t j c ht hd hc
    rw [hd, Option.toList_none, List.append_nil]
    refine Rabbit.set_keeps (P := fun c => Dealt bodies c.channel) ?_ hc
    rwa [ht]
  cases a with
  | push j body =>
    obtain ⟨channel, hp, rfl⟩ := Option.map_eq_some_iff.mp hs
    by_cases hj : j = i
    · subst hj
      rw [Rabbit.set_consumers_self, show (RabbitAct.push j body).deals j = some body from if_pos rfl]
      exact h.push hp
    · exact hmove rfl (if_neg hj) fun he => absurd he hj
  | opens j up =>
    obtain ⟨-, rfl | rfl⟩ := Rabbit.opens_cases hs
    · exact hmove rfl rfl fun _ => .nothing _ rfl
    · exact hmove (t := { s with channels := s.channels + 1 }) rfl rfl fun _ => .nothing _ rfl
  | turn j =>
    obtain ⟨c, ht, rfl⟩ := Option.map_eq_some_iff.mp hs
    refine hmove rfl rfl fun hj => ?_
    rw [Consumer.turn_keeps ht, hj]
    exact h
  | cut j =>
    cases hs
    exact hmove rfl rfl fun _ => .nothing _ rfl
  | message j =>
    obtain ⟨c, hm, rfl⟩ := Option.map_eq_some_iff.mp hs
    obtain ⟨unread, hkeep⟩ := Consumer.message_keeps hm
    refine hmove rfl rfl fun hj => ?_
    rw [hkeep, hj]
    exact h.keep rfl rfl
  | timeout j =>
    obtain ⟨c, ht, rfl⟩ := Option.map_eq_some_iff.mp hs
    refine hmove rfl rfl fun hj => ?_
    rw [Consumer.timeout_keeps ht, hj]
    exact h
  | fail j =>
    obtain ⟨-, rfl⟩ := Rabbit.fail_cases hs
    exact hmove rfl rfl fun hj => hj ▸ h
  | consume j visit script =>
    obtain ⟨-, db, ran, -, ⟨-, rfl⟩ | ⟨-, link, queued, openBatch, delta, totals, -, rfl⟩⟩ :=
      Rabbit.consume_cases (hidle j) hs
    · exact .nothing _ rfl
    · exact hmove (t := { s with db, log := s.log ++ [_], runTotals := totals }) rfl rfl
        fun hj => hj ▸ h
  | ack j ok =>
    obtain ⟨-, ⟨-, rfl⟩ | ⟨-, rfl⟩⟩ := Rabbit.ack_cases hs
    · exact hmove rfl rfl fun hj => hj ▸ h
    · exact hmove (t := { s with acked := s.acked ++ _ }) rfl rfl fun hj => hj ▸ h.ack _
  | others db =>
    cases hs
    exact (List.append_nil bodies).symm ▸ h
  | stop =>
    cases hs
    exact (List.append_nil bodies).symm ▸ h
  | leave j =>
    obtain rfl := Rabbit.leave_cases hs
    exact hmove rfl rfl fun hj => hj ▸ h
  | crash =>
    cases hs
    exact .nothing _ rfl

theorem Dealt.run {allowed : Rabbit → RabbitAct → Prop} {acts : List RabbitAct} {t : Rabbit}
    (hr : Run (rabbitStep parser) allowed s acts t) (hs : Steered parser s)
    (h : Dealt bodies (s.consumers i).channel) :
    Dealt (bodies ++ dealt i acts) (t.consumers i).channel := by
  induction hr generalizing bodies with
  | nil => exact (List.append_nil bodies).symm ▸ h
  | @cons s s' t a acts _ hstep _ ih =>
    have hnext := ih (hs.step hstep) (h.step hs.idle hstep)
    have hsplit : dealt i (a :: acts) = (a.deals i).toList ++ dealt i acts := by
      unfold dealt
      cases ha : a.deals i with
      | none => rw [List.filterMap_cons_none ha]; rfl
      | some body => rw [List.filterMap_cons_some ha]; rfl
    rw [hsplit, ← List.append_assoc]
    exact hnext

/-! ## A message that was kept is acked -/

/-- The sink comes back from a batch, with whatever the store does to it. -/
theorem Rabbit.consume_refused {r : Rabbit} {i : Nat} (hi : (r.consumers i).Idle)
    (hst : (r.consumers i).stage = .full) :
    ∃ script r', r.consume i .plain script = some r' ∧ script.any Event.isKill = false := by
  have href : Refusable (AggregateSink.consume (redisStore redis) .plain (r.consumers i).batch []) :=
    refusable_consume .plain _ []
  obtain ⟨es, a, v, hv, hrun⟩ := href (r.world i []) ⟨rfl, hi.1, hi.2.1⟩
  have hx : AggregateSink.consume (redisStore redis) .plain (r.consumers i).batch []
      (r.world i es) = some (a, { v with script := [] }) := by
    have h := hrun []
    rw [List.append_nil] at h
    exact h
  have hidle : CdrProcessor.Idle (r.world i es) :=
    ⟨rfl, hi.1, hi.2.1, fun l hl he => ⟨hi.2.2 l hl he, rfl⟩⟩
  obtain ⟨-, halive, -⟩ := consume_visited hidle rfl hx rfl
  have hkill : es.any Event.isKill = false := by
    have h : v.alive = !es.any Event.isKill := halive
    rw [hv.alive] at h
    simpa using h.symm
  have hsome : (r.consume i .plain es).isSome = true := by
    unfold Rabbit.consume
    dsimp only
    rw [if_pos hst, hx]
    dsimp only
    rw [if_neg (by simp), if_pos hv.alive]
    rfl
  obtain ⟨r', hr'⟩ := Option.isSome_iff_exists.mp hsome
  exact ⟨es, r', hr', hkill⟩

/-- A step that leaves a consumer somewhere else. -/
structure Rabbit.Moves (s : Rabbit) (i : Nat) (c : Consumer) (t : Rabbit) : Prop where
  consumer : t.consumers i = c
  stopping : t.stopping = s.stopping

theorem Rabbit.Moves.set (s : Rabbit) (i : Nat) (c : Consumer) : s.Moves i c (s.set i c) :=
  ⟨Rabbit.set_consumers_self .., rfl⟩

theorem timeout_moves (parser : IParser) (hst : (s.consumers i).stage = .reading)
    (hb : (s.consumers i).batch ≠ []) :
    ∃ t, rabbitStep parser s (.timeout i) = some t ∧
      s.Moves i { s.consumers i with stage := .full } t := by
  refine ⟨_, ?_, .set s i _⟩
  have ht : (s.consumers i).timeout = some { s.consumers i with stage := .full } := by
    unfold Consumer.timeout
    rw [if_pos hst, if_neg hb]
  exact congrArg (Option.map (s.set i)) ht

theorem consume_moves (parser : IParser) (hi : (s.consumers i).Idle)
    (hst : (s.consumers i).stage = .full) :
    ∃ script t link queued openBatch delta kept, script.any Event.isKill = false ∧
      rabbitStep parser s (.consume i .plain script) = some t ∧
      s.Moves i { s.consumers i with link, queued, openBatch, delta, stage := .written, kept } t := by
  obtain ⟨script, r, hs, hk⟩ := Rabbit.consume_refused hi hst
  obtain ⟨-, db, ran, -, ⟨hk', -⟩ | ⟨-, link, queued, openBatch, delta, totals, -, hr⟩⟩ :=
    Rabbit.consume_cases hi hs
  · rw [hk] at hk'
    cases hk'
  · have hc := (congrArg (fun r : Rabbit => r.consumers i) hr).trans (Rabbit.set_consumers_self ..)
    refine ⟨script, r, link, queued, openBatch, delta, _, hk, hs, hc, ?_⟩
    rw [hr]
    rfl

theorem ack_moves (parser : IParser) (hst : (s.consumers i).stage = .written) :
    ∃ t, rabbitStep parser s (.ack i true) = some t ∧
      s.Moves i { s.consumers i with
        channel := ((s.consumers i).channel.ack (s.consumers i).source.lastTag).2
        stage := .head, read := [] } t :=
  ⟨_, if_pos hst, Rabbit.set_consumers_self .., rfl⟩

theorem turn_moves (parser : IParser) (hst : (s.consumers i).stage = .head)
    (hgo : s.stopping = false) :
    ∃ t, rabbitStep parser s (.turn i) = some t ∧
      s.Moves i { s.consumers i with stage := .reading, batch := [], read := [] } t := by
  refine ⟨_, ?_, .set s i _⟩
  have ht : (s.consumers i).turn s.stopping =
      some { s.consumers i with stage := .reading, batch := [], read := [] } := by
    unfold Consumer.turn
    rw [if_pos hst, hgo]
    rfl
  exact congrArg (Option.map (s.set i)) ht

/-- Something of the window can be acked with the connection up. -/
def Rabbit.GetsAcked (parser : IParser) (s : Rabbit) (i : Nat) : Prop :=
  ∃ acts t, Run (rabbitStep parser) (fun _ a => a.Steady i) s acts t ∧
    (t.consumers i).channel.unacked ≠ (s.consumers i).channel.unacked

theorem Rabbit.GetsAcked.behind {a : RabbitAct} (ha : a.Steady i)
    (hs : rabbitStep parser s a = some s')
    (he : (s'.consumers i).channel.unacked = (s.consumers i).channel.unacked)
    (h : s'.GetsAcked parser i) : s.GetsAcked parser i := by
  obtain ⟨acts, t, hr, hne⟩ := h
  rw [he] at hne
  exact ⟨_, t, .cons ha hs hr, hne⟩

/-- The ack goes out behind the sink. -/
theorem acks_written {d : Delivery} (hst : (s.consumers i).stage = .written)
    (hd : d ∈ (s.consumers i).channel.unacked)
    (htag : d.tag ≤ (s.consumers i).source.lastTag) : s.GetsAcked parser i := by
  obtain ⟨t, hs, hm⟩ := ack_moves (s := s) parser hst
  have hsteady : RabbitAct.Steady i (.ack i true) := fun _ => rfl
  refine ⟨_, t, .cons hsteady hs (.nil t), fun he => ?_⟩
  rw [hm.consumer] at he
  have hmem : d ∈ ((s.consumers i).channel.ack (s.consumers i).source.lastTag).2.unacked :=
    he.symm ▸ hd
  have hout := (List.mem_filter.mp hmem).2
  rw [decide_eq_true_eq] at hout
  exact hout htag

theorem acks_full {d : Delivery} (hi : (s.consumers i).Idle) (hst : (s.consumers i).stage = .full)
    (hd : d ∈ (s.consumers i).channel.unacked)
    (htag : d.tag ≤ (s.consumers i).source.lastTag) : s.GetsAcked parser i := by
  obtain ⟨script, t, link, queued, openBatch, delta, kept, hk, hs, hm⟩ :=
    consume_moves (s := s) parser hi hst
  have hsteady : RabbitAct.Steady i (.consume i .plain script) := hk
  refine .behind hsteady hs (by rw [hm.consumer]) (acks_written (d := d) ?_ ?_ ?_) <;>
    rw [hm.consumer]
  · exact hd
  · exact htag

theorem acks_reading {d : Delivery} (hi : (s.consumers i).Idle)
    (hst : (s.consumers i).stage = .reading) (hb : (s.consumers i).batch ≠ [])
    (hd : d ∈ (s.consumers i).channel.unacked)
    (htag : d.tag ≤ (s.consumers i).source.lastTag) : s.GetsAcked parser i := by
  obtain ⟨t, hs, hm⟩ := timeout_moves (s := s) parser hst hb
  have hsteady : RabbitAct.Steady i (.timeout i) := trivial
  refine .behind hsteady hs (by rw [hm.consumer]) (acks_full (d := d) ?_ ?_ ?_ ?_) <;>
    rw [hm.consumer]
  · exact hi
  · exact hd
  · exact htag

/-- In a wedged window, everything was rejected. -/
theorem Wedged.rejected (h : Wedged parser s i) (hs : Steered parser s) {d : Delivery}
    (hd : d ∈ (s.consumers i).channel.unacked) : parser d.body = none := by
  have hst : Steering parser s.log (s.consumers i) := (hs.consumers i).resolve_left h.connected
  rcases hst.unacked d hd with hu | hn | hr
  · exact absurd hu (h.parsed d hd)
  · exact hn
  · -- it is part of the batch, which can be written and acked
    exfalso
    have htag := hst.tags d hr
    obtain ⟨acts, t, hrun, hne⟩ : s.GetsAcked parser i := by
      cases hstage : (s.consumers i).stage with
      | head =>
        rw [hst.empty hstage] at hr
        cases hr
      | reading =>
        obtain ⟨x, hx, -⟩ := hst.batch d hr
        exact acks_reading (hs.idle i) hstage (List.ne_nil_of_mem hx) hd htag
      | full => exact acks_full (hs.idle i) hstage hd htag
      | written => exact acks_written hstage hd htag
      | _ => exact absurd (by first | exact .inl hstage | exact .inr hstage) h.connected
    exact hne (h.stuck acts t hrun)

/-! ## A full window of rejected messages -/

/-- A consumer that waits, with nothing it could ack. -/
structure Starved (c : Consumer) : Prop where
  waits : c.stage = .head ∨ c.stage = .reading ∧ c.batch = [] ∨ c.Adrift
  unread : c.channel.unread = []
  full : ¬ c.channel.unacked.length < kRabbitPrefetch

theorem Starved.stage {c : Consumer} (h : Starved c) : c.stage ≠ .full ∧ c.stage ≠ .written := by
  rcases h.waits with hw | ⟨hw, -⟩ | hw | hw <;> rw [hw] <;> exact ⟨by simp, by simp⟩

/-- The consumer moves to another stage in which it waits. -/
theorem Starved.move {c c' : Consumer} (h : Starved c)
    (hw : c'.stage = .head ∨ c'.stage = .reading ∧ c'.batch = [] ∨ c'.Adrift)
    (hc : c'.channel = c.channel) :
    Starved c' ∧ c'.channel.unacked = c.channel.unacked :=
  ⟨⟨hw, by rw [hc]; exact h.unread, by rw [hc]; exact h.full⟩, by rw [hc]⟩

theorem Starved.step (h : Starved (s.consumers i)) (hidle : ∀ j, (s.consumers j).Idle)
    {a : RabbitAct} (ha : a.Steady i) (hs : rabbitStep parser s a = some s') :
    Starved (s'.consumers i) ∧
      (s'.consumers i).channel.unacked = (s.consumers i).channel.unacked := by
  have hmove : ∀ {t : Rabbit} {j : Nat} {c : Consumer}, t.consumers = s.consumers →
      (j = i → Starved c ∧ c.channel.unacked = (s.consumers i).channel.unacked) →
      Starved ((t.set j c).consumers i) ∧
        ((t.set j c).consumers i).channel.unacked = (s.consumers i).channel.unacked := by
    intro t j c ht hc
    refine Rabbit.set_keeps (P := fun c => Starved c ∧ c.channel.unacked = _) ?_ hc
    rw [ht]
    exact ⟨h, rfl⟩
  cases a with
  | opens j up =>
    obtain ⟨-, rfl | rfl⟩ := Rabbit.opens_cases hs
    · exact hmove rfl fun hj => absurd hj ha
    · exact hmove (t := { s with channels := s.channels + 1 }) rfl fun hj => absurd hj ha
  | turn j =>
    obtain ⟨c, ht, rfl⟩ := Option.map_eq_some_iff.mp hs
    refine hmove rfl fun hj => ?_
    subst hj
    refine h.move ?_ (Consumer.turn_keeps ht)
    obtain ⟨-, rfl | rfl⟩ := Consumer.turn_cases ht
    · exact .inr (.inr (.inl rfl))
    · exact .inr (.inl ⟨rfl, rfl⟩)
  | push j body =>
    obtain ⟨channel, hp, rfl⟩ := Option.map_eq_some_iff.mp hs
    refine hmove rfl fun hj => ?_
    subst hj
    exact absurd (Channel.push_cases hp).1.2 h.full
  | cut j =>
    cases hs
    exact hmove rfl fun hj => absurd hj ha
  | message j =>
    obtain ⟨c, hm, rfl⟩ := Option.map_eq_some_iff.mp hs
    refine hmove rfl fun hj => ?_
    subst hj
    obtain ⟨-, d, unread, hun, -⟩ := Consumer.message_cases hm
    rw [h.unread] at hun
    cases hun
  | timeout j =>
    obtain ⟨c, ht, rfl⟩ := Option.map_eq_some_iff.mp hs
    refine hmove rfl fun hj => ?_
    subst hj
    obtain ⟨hreading, rfl⟩ := Consumer.timeout_cases ht
    have hb : (s.consumers j).batch = [] := by
      rcases h.waits with hw | ⟨-, hb⟩ | hw | hw
      · cases hreading.symm.trans hw
      · exact hb
      · cases hreading.symm.trans hw
      · cases hreading.symm.trans hw
    exact h.move (.inl (if_pos hb)) rfl
  | fail j =>
    obtain ⟨-, rfl⟩ := Rabbit.fail_cases hs
    exact hmove rfl fun hj => absurd hj ha
  | consume j visit script =>
    obtain ⟨hst, db, ran, -, ⟨hk, -⟩ | ⟨-, link, queued, openBatch, delta, totals, -, rfl⟩⟩ :=
      Rabbit.consume_cases (hidle j) hs
    · rw [show script.any Event.isKill = false from ha] at hk
      cases hk
    · refine hmove (t := { s with db, log := s.log ++ [_], runTotals := totals }) rfl fun hj => ?_
      subst hj
      exact absurd hst h.stage.1
  | ack j ok =>
    obtain ⟨hst, ⟨-, rfl⟩ | ⟨-, rfl⟩⟩ := Rabbit.ack_cases hs
    · refine hmove rfl fun hj => ?_
      subst hj
      exact absurd hst h.stage.2
    · refine hmove (t := { s with acked := s.acked ++ _ }) rfl fun hj => ?_
      subst hj
      exact absurd hst h.stage.2
  | others db =>
    cases hs
    exact ⟨h, rfl⟩
  | stop =>
    cases hs
    exact ⟨h, rfl⟩
  | leave j =>
    obtain rfl := Rabbit.leave_cases hs
    refine hmove rfl fun hj => ?_
    subst hj
    exact h.move (.inr (.inr (.inr rfl))) rfl
  | crash => exact ha.elim

theorem Starved.run {acts : List RabbitAct} {t : Rabbit} (hs : Steered parser s)
    (hr : Run (rabbitStep parser) (fun _ a => a.Steady i) s acts t)
    (h : Starved (s.consumers i)) :
    (t.consumers i).channel.unacked = (s.consumers i).channel.unacked := by
  have hkept : ∀ u a u', (Steered parser u ∧ Starved (u.consumers i) ∧
      (u.consumers i).channel.unacked = (s.consumers i).channel.unacked) → RabbitAct.Steady i a →
      rabbitStep parser u a = some u' → Steered parser u' ∧ Starved (u'.consumers i) ∧
        (u'.consumers i).channel.unacked = (s.consumers i).channel.unacked := by
    rintro u a u' ⟨hu, hst, he⟩ ha hstep
    obtain ⟨hst', he'⟩ := hst.step hu.idle ha hstep
    exact ⟨hu.step hstep, hst', he'.trans he⟩
  exact (hr.invariant hkept ⟨hs, h, rfl⟩).2.2

/-- A consumer waits for a message, with only rejected ones unacked. -/
structure Poised (parser : IParser) (s : Rabbit) (i : Nat) : Prop where
  steered : Steered parser s
  up : (s.consumers i).channel.up = true
  stage : (s.consumers i).stage = .reading
  batch : (s.consumers i).batch = []
  read : (s.consumers i).read = []
  unread : (s.consumers i).channel.unread = []
  going : s.stopping = false
  last : (s.consumers i).source.lastTag < (s.consumers i).channel.nextTag
  tags : ∀ d ∈ (s.consumers i).channel.unacked, d.tag ≤ (s.consumers i).source.lastTag

theorem Poised.wedged (h : Poised parser s i)
    (hfull : (s.consumers i).channel.unacked.length = kRabbitPrefetch) : Wedged parser s i where
  connected := Consumer.not_adrift h.stage (by simp) (by simp)
  up := h.up
  full := hfull
  parsed d _ := by
    rw [h.unread]
    exact List.not_mem_nil
  stuck acts t hr :=
    Starved.run h.steered hr ⟨.inr (.inl ⟨h.stage, h.batch⟩), h.unread, by omega⟩

/-- The acts deal these bodies to one consumer, and nothing to any other. -/
def DealsOnly (i : Nat) (acts : List RabbitAct) (bodies : List Text) : Prop :=
  ∀ j, dealt j acts = if j = i then bodies else []

theorem DealsOnly.append {acts acts' : List RabbitAct} {bodies bodies' : List Text}
    (h : DealsOnly i acts bodies) (h' : DealsOnly i acts' bodies') :
    DealsOnly i (acts ++ acts') (bodies ++ bodies') := by
  intro j
  have happ : dealt j (acts ++ acts') = dealt j acts ++ dealt j acts' := List.filterMap_append
  rw [happ, h j, h' j]
  split <;> rfl

theorem dealsOnly_nothing {acts : List RabbitAct} (h : ∀ a ∈ acts, ∀ j, a.deals j = none) :
    DealsOnly i acts [] := by
  intro j
  rw [ite_self]
  exact List.filterMap_eq_nil_iff.mpr fun a ha => h a ha j

/-- The next message is delivered and read. -/
theorem Poised.receive (h : Poised parser s i) (body : Text)
    (hroom : (s.consumers i).channel.unacked.length < kRabbitPrefetch) :
    let c := s.consumers i
    let d : Delivery := ⟨c.channel.id, c.channel.nextTag, body⟩
    let r := c.source.message parser [] d
    ∃ t : Rabbit, Run (rabbitStep parser) (fun _ _ => True) s [.push i body, .message i] t ∧
      t.stopping = false ∧ t.consumers i = { c with
        channel := { c.channel with
          nextTag := c.channel.nextTag + 1, unacked := c.channel.unacked ++ [d], unread := [] }
        source := r.1
        batch := r.2
        read := if (parser body).isSome then [d] else []
        stage := .reading } := by
  intro c d r
  have hpush : c.channel.push body = some { c.channel with
      nextTag := c.channel.nextTag + 1, unacked := c.channel.unacked ++ [d], unread := [d] } := by
    unfold Channel.push
    rw [if_pos ⟨h.up, hroom⟩, h.unread]
    rfl
  have hsmall : r.2.length < kRabbitBatchSize := by
    change (c.source.message parser [] d).2.length < kRabbitBatchSize
    unfold RabbitSource.message
    split
    · change 1 < kRabbitBatchSize
      decide
    · change 0 < kRabbitBatchSize
      decide
  generalize hc1 : ({ c with channel := { c.channel with
    nextTag := c.channel.nextTag + 1, unacked := c.channel.unacked ++ [d], unread := [d] } } :
      Consumer) = c1
  have h1 : rabbitStep parser s (.push i body) = some (s.set i c1) := by
    change (c.channel.push body).map _ = _
    rw [hpush, ← hc1]
    rfl
  have h2 : c1.message parser = some { c with
      channel := { c.channel with
        nextTag := c.channel.nextTag + 1, unacked := c.channel.unacked ++ [d], unread := [] }
      source := r.1
      batch := r.2
      read := if (parser body).isSome then [d] else []
      stage := .reading } := by
    have hst : c1.stage = .reading := by
      rw [← hc1]
      exact h.stage
    have hun : c1.channel.unread = [d] := by rw [← hc1]
    have hbatch : c1.batch = [] := by
      rw [← hc1]
      exact h.batch
    have hread : c1.read = [] := by
      rw [← hc1]
      exact h.read
    have hsource : c1.source = c.source := by rw [← hc1]
    unfold Consumer.message
    rw [hst, hun]
    dsimp only
    rw [hbatch, hread, hsource, if_pos hsmall, ← hc1]
    rfl
  generalize ({ c with
      channel := { c.channel with
        nextTag := c.channel.nextTag + 1, unacked := c.channel.unacked ++ [d], unread := [] }
      source := r.1
      batch := r.2
      read := if (parser body).isSome then [d] else []
      stage := .reading } : Consumer) = c2 at h2 ⊢
  have h3 : rabbitStep parser (s.set i c1) (.message i) = some ((s.set i c1).set i c2) := by
    change (((s.set i c1).consumers i).message parser).map _ = _
    rw [Rabbit.set_consumers_self, h2]
    rfl
  exact ⟨_, .cons trivial h1 (.cons trivial h3 (.nil _)), h.going, Rabbit.set_consumers_self ..⟩

theorem dealsOnly_receive (i : Nat) (body : Text) :
    DealsOnly i [.push i body, .message i] [body] := by
  intro j
  by_cases hj : j = i
  · subst hj
    simp [dealt, RabbitAct.deals]
  · simp [dealt, RabbitAct.deals, hj, Ne.symm hj]

/-- A rejected message stays in the window. -/
theorem Poised.reject {body : Text} (h : Poised parser s i)
    (hroom : (s.consumers i).channel.unacked.length < kRabbitPrefetch)
    (hbad : parser body = none) :
    ∃ acts t, Run (rabbitStep parser) (fun _ _ => True) s acts t ∧ DealsOnly i acts [body] ∧
      Poised parser t i ∧ (t.consumers i).channel.unacked.length =
        (s.consumers i).channel.unacked.length + 1 := by
  obtain ⟨t, hr, hgo, hc⟩ := h.receive body hroom
  have hmsg : (s.consumers i).source.message parser []
      ⟨(s.consumers i).channel.id, (s.consumers i).channel.nextTag, body⟩ =
        ({ (s.consumers i).source with
          lastTag := (s.consumers i).channel.nextTag
          rejected := (s.consumers i).source.rejected + 1 }, []) := by
    unfold RabbitSource.message
    rw [hbad]
  rw [hmsg, hbad] at hc
  refine ⟨_, t, hr, dealsOnly_receive i body,
    ⟨h.steered.run hr, ?_, ?_, ?_, ?_, ?_, hgo, ?_, ?_⟩, ?_⟩ <;> rw [hc]
  · exact h.up
  · rfl
  · exact Nat.lt_succ_self _
  · intro d hd
    rcases List.mem_append.mp hd with hd | hd
    · exact le_trans (h.tags d hd) (le_of_lt h.last)
    · rw [List.mem_singleton.mp hd]
  · exact List.length_append

/-- An accepted one empties it. -/
theorem Poised.accept {body : Text} (h : Poised parser s i)
    (hroom : (s.consumers i).channel.unacked.length < kRabbitPrefetch) {record : CdrRecord}
    (hgood : parser body = some record) :
    ∃ acts t, Run (rabbitStep parser) (fun _ _ => True) s acts t ∧ DealsOnly i acts [body] ∧
      Poised parser t i ∧ (t.consumers i).channel.unacked.length = 0 := by
  obtain ⟨t, hr, hgo, hc⟩ := h.receive body hroom
  have hmsg : (s.consumers i).source.message parser []
      ⟨(s.consumers i).channel.id, (s.consumers i).channel.nextTag, body⟩ =
        ({ (s.consumers i).source with
          lastTag := (s.consumers i).channel.nextTag
          parsed := (s.consumers i).source.parsed + 1 }, [record]) := by
    unfold RabbitSource.message
    rw [hgood]
    rfl
  rw [hmsg] at hc
  -- nothing more comes, the sink comes back and the ack goes out
  obtain ⟨t1, hs1, hm1⟩ := timeout_moves (s := t) (i := i) parser (by rw [hc]) (by rw [hc]; simp)
  have ht1 : Steered parser t1 := (h.steered.run hr).step hs1
  obtain ⟨script, t2, link, queued, openBatch, delta, kept, -, hs2, hm2⟩ :=
    consume_moves (s := t1) parser (ht1.idle i) (by rw [hm1.consumer])
  obtain ⟨t3, hs3, hm3⟩ := ack_moves (s := t2) (i := i) parser (by rw [hm2.consumer])
  obtain ⟨t4, hs4, hm4⟩ := turn_moves (s := t3) (i := i) parser (by rw [hm3.consumer])
    (by rw [hm3.stopping, hm2.stopping, hm1.stopping, hgo])
  have hnone : (t3.consumers i).channel.unacked = [] := by
    rw [hm3.consumer, hm2.consumer, hm1.consumer, hc]
    refine List.filter_eq_nil_iff.mpr fun d hd => ?_
    have hle : d.tag ≤ (s.consumers i).channel.nextTag := by
      rcases List.mem_append.mp hd with hd | hd
      · exact le_trans (h.tags d hd) (le_of_lt h.last)
      · rw [List.mem_singleton.mp hd]
    simpa using hle
  have hrun := hr.append (.cons trivial hs1 (.cons trivial hs2 (.cons trivial hs3
    (.cons trivial hs4 (.nil t4)))))
  have hdeals : DealsOnly i ([.push i body, .message i] ++
      [.timeout i, .consume i .plain script, .ack i true, .turn i]) [body] :=
    (dealsOnly_receive i body).append (dealsOnly_nothing fun a ha j => by
      simp only [List.mem_cons, List.not_mem_nil, or_false] at ha
      rcases ha with rfl | rfl | rfl | rfl <;> rfl)
  refine ⟨_, t4, hrun, hdeals, ⟨h.steered.run hrun, ?_, ?_, ?_, ?_, ?_, ?_, ?_, ?_⟩, ?_⟩
  · rw [hm4.consumer, hm3.consumer, hm2.consumer, hm1.consumer, hc]
    exact h.up
  · rw [hm4.consumer]
  · rw [hm4.consumer]
  · rw [hm4.consumer]
  · rw [hm4.consumer, hm3.consumer, hm2.consumer, hm1.consumer, hc]
    rfl
  · rw [hm4.stopping, hm3.stopping, hm2.stopping, hm1.stopping, hgo]
  · rw [hm4.consumer, hm3.consumer, hm2.consumer, hm1.consumer, hc]
    exact Nat.lt_succ_self _
  · intro d hd
    rw [hm4.consumer] at hd
    change d ∈ (t3.consumers i).channel.unacked at hd
    rw [hnone] at hd
    cases hd
  · rw [hm4.consumer]
    change (t3.consumers i).channel.unacked.length = 0
    rw [hnone]
    rfl

/-! ## Whole runs -/

theorem Rabbit.opened (parser : IParser) (db : Db) (i : Nat) :
    ∃ acts t, Run (rabbitStep parser) (fun _ _ => True) (Rabbit.initial db) acts t ∧
      DealsOnly i acts [] ∧ Poised parser t i ∧ (t.consumers i).channel.unacked = [] := by
  have hopen : rabbitStep parser (Rabbit.initial db) (.opens i true) = some _ := rfl
  have hturn := turn_moves (s := ({ Rabbit.initial db with channels := 1 } : Rabbit).set i
    { channel := { id := 0, up := true }, stage := .head }) (i := i) parser
    (by rw [Rabbit.set_consumers_self]) rfl
  obtain ⟨t, ht, hm⟩ := hturn
  have hrun : Run (rabbitStep parser) (fun _ _ => True) (Rabbit.initial db)
      [.opens i true, .turn i] t := .cons trivial hopen (.cons trivial ht (.nil t))
  have hc : t.consumers i = { channel := { id := 0, up := true }, stage := .reading } := by
    rw [hm.consumer, Rabbit.set_consumers_self]
  refine ⟨_, t, hrun, dealsOnly_nothing fun a ha j => ?_, ?_, by rw [hc]⟩
  · simp only [List.mem_cons, List.not_mem_nil, or_false] at ha
    rcases ha with rfl | rfl <;> rfl
  · refine ⟨(Steered.initial parser db).run hrun, ?_, ?_, ?_, ?_, ?_, hm.stopping, ?_, ?_⟩ <;>
      rw [hc]
    · exact Nat.zero_lt_one
    · intro d hd
      cases hd

/-- The consumer gets through the messages it is dealt, if it does not get stuck on the way. -/
theorem Poised.through (h : Poised parser s i) (front : List Text)
    (hroom : (s.consumers i).channel.unacked.length ≤ kRabbitPrefetch) :
    ∃ acts t pre, Run (rabbitStep parser) (fun _ _ => True) s acts t ∧ DealsOnly i acts pre ∧
      pre <+: front ∧ (Wedged parser t i ∨ pre = front ∧ Poised parser t i ∧
        (t.consumers i).channel.unacked.length ≤ kRabbitPrefetch) := by
  induction front generalizing s with
  | nil =>
    exact ⟨[], s, [], .nil s, dealsOnly_nothing (by simp), List.prefix_refl [],
      .inr ⟨rfl, h, hroom⟩⟩
  | cons body front ih =>
    rcases Nat.lt_or_eq_of_le hroom with hlt | hfull
    · have hstep : ∃ acts t, Run (rabbitStep parser) (fun _ _ => True) s acts t ∧
          DealsOnly i acts [body] ∧ Poised parser t i ∧
          (t.consumers i).channel.unacked.length ≤ kRabbitPrefetch := by
        cases hb : parser body with
        | none =>
          obtain ⟨acts, t, hr, hd, hp, hlen⟩ := h.reject hlt hb
          exact ⟨acts, t, hr, hd, hp, by omega⟩
        | some record =>
          obtain ⟨acts, t, hr, hd, hp, hlen⟩ := h.accept hlt hb
          exact ⟨acts, t, hr, hd, hp, by omega⟩
      obtain ⟨acts, t, hr, hd, hp, hle⟩ := hstep
      obtain ⟨acts', u, pre, hr', hd', hpre, hu⟩ := ih hp hle
      refine ⟨_, u, _, hr.append hr', hd.append hd', List.cons_prefix_cons.mpr ⟨rfl, hpre⟩, ?_⟩
      exact hu.imp_right fun hu => ⟨congrArg (body :: ·) hu.1, hu.2⟩
    · exact ⟨[], s, [], .nil s, dealsOnly_nothing (by simp), List.nil_prefix,
        .inl (h.wedged hfull)⟩

/-- Rejected messages fill the window. -/
theorem Poised.fills {bad : List Text} (h : Poised parser s i)
    (hbad : ∀ body ∈ bad, parser body = none)
    (hroom : (s.consumers i).channel.unacked.length ≤ kRabbitPrefetch)
    (hlen : kRabbitPrefetch ≤ (s.consumers i).channel.unacked.length + bad.length) :
    ∃ acts t pre, Run (rabbitStep parser) (fun _ _ => True) s acts t ∧ DealsOnly i acts pre ∧
      pre <+: bad ∧ Wedged parser t i := by
  induction bad generalizing s with
  | nil =>
    exact ⟨[], s, [], .nil s, dealsOnly_nothing (by simp), List.prefix_refl [],
      h.wedged (le_antisymm hroom hlen)⟩
  | cons body bad ih =>
    rcases Nat.lt_or_eq_of_le hroom with hlt | hfull
    · obtain ⟨acts, t, hr, hd, hp, hgrown⟩ := h.reject hlt (hbad body List.mem_cons_self)
      rw [List.length_cons] at hlen
      obtain ⟨acts', u, pre, hr', hd', hpre, hu⟩ :=
        ih hp (fun b hb => hbad b (List.mem_cons_of_mem body hb)) (by omega) (by omega)
      exact ⟨_, u, _, hr.append hr', hd.append hd', List.cons_prefix_cons.mpr ⟨rfl, hpre⟩, hu⟩
    · exact ⟨[], s, [], .nil s, dealsOnly_nothing (by simp), List.nil_prefix, h.wedged hfull⟩

/-- A window of rejected messages in a row gets a run stuck. -/
theorem wedges (db : Db) (i : Nat) {bodies bad : List Text} (hin : bad <:+: bodies)
    (hlen : bad.length = kRabbitPrefetch) (hbad : ∀ body ∈ bad, parser body = none) :
    ∃ acts t pre, Run (rabbitStep parser) (fun _ _ => True) (Rabbit.initial db) acts t ∧
      DealsOnly i acts pre ∧ pre <+: bodies ∧ Wedged parser t i := by
  obtain ⟨front, rest, rfl⟩ := hin
  rw [List.append_assoc]
  obtain ⟨acts, s, hr, hd, hp, hun⟩ := Rabbit.opened parser db i
  obtain ⟨acts', t, pre, hr', hd', hpre, hw | ⟨rfl, hp', hroom⟩⟩ :=
    hp.through front (by rw [hun]; exact Nat.zero_le _)
  · exact ⟨_, t, pre, hr.append hr', hd.append hd', hpre.trans (List.prefix_append _ _), hw⟩
  · obtain ⟨acts'', u, pre', hr'', hd'', hpre', hw⟩ := hp'.fills hbad hroom (by omega)
    exact ⟨_, u, _, (hr.append hr').append hr'', (hd.append hd').append hd'',
      (List.prefix_append_right_inj pre).mpr (hpre'.trans (List.prefix_append _ _)), hw⟩

/-- **No window fills up for good**, whatever the consumers do and in whatever order, exactly
when the broker deals none of them a window of rejected messages in a row. -/
theorem never_wedged_iff (parser : IParser) (db : Db) (deal : Nat → List Text) :
    (∀ acts s, Run (rabbitStep parser) (fun _ _ => True) (Rabbit.initial db) acts s →
        (∀ i, dealt i acts <+: deal i) → ∀ i, ¬ Wedged parser s i) ↔
      ∀ i, ¬ ∃ bad, bad <:+: deal i ∧ bad.length = kRabbitPrefetch ∧
        ∀ body ∈ bad, parser body = none := by
  constructor
  · rintro h i ⟨bad, hin, hlen, hbad⟩
    obtain ⟨acts, s, pre, hr, hd, hpre, hw⟩ := wedges db i hin hlen hbad
    refine h acts s hr (fun j => ?_) i hw
    rw [hd j]
    split
    · next hj =>
      rw [hj]
      exact hpre
    · exact List.nil_prefix
  · rintro h acts s hr hdeal i hw
    have hsteered := Steered.initial parser db
    have hs : Steered parser s := hsteered.run hr
    have hd : Dealt ([] ++ dealt i acts) (s.consumers i).channel :=
      Dealt.run hr hsteered (.nothing [] rfl)
    rw [List.nil_append] at hd
    refine h i ⟨(s.consumers i).channel.unacked.map Delivery.body,
      hd.last.isInfix.trans (hdeal i).isInfix, ?_, ?_⟩
    · rw [List.length_map, hw.full]
    · intro body hb
      obtain ⟨d, hd, rfl⟩ := List.mem_map.mp hb
      exact hw.rejected hs hd

/-- One consumer, and empty bodies only. -/
theorem wedged_by_empty_bodies :
    ¬ ∀ acts s, Run (rabbitStep (Parser.csvParser '|')) (fun _ _ => True) (Rabbit.initial {})
        acts s → (∀ i, dealt i acts <+: if i = 0 then List.replicate kRabbitPrefetch [] else []) →
      ∀ i, ¬ Wedged (Parser.csvParser '|') s i := by
  intro h
  have hbad : ∀ body ∈ List.replicate kRabbitPrefetch ([] : Text),
      Parser.csvParser '|' body = none := by
    intro body hb
    rw [List.eq_of_mem_replicate hb]
    decide +kernel
  obtain ⟨acts, s, pre, hr, hd, hpre, hw⟩ :=
    wedges {} 0 (List.infix_refl _) List.length_replicate hbad
  refine h acts s hr (fun j => ?_) 0 hw
  rw [hd j]
  split
  · exact hpre
  · exact List.nil_prefix

end CdrProcessor
