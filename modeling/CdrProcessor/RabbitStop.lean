import CdrProcessor.Prefetch

/-! How `RabbitIngestor::stop` comes to an end.  It sets the flag and joins the consumers, who
look at the flag between two batches only; inside `next` a consumer goes on reading whatever
the broker still has for it. -/

namespace CdrProcessor

/-- The consumer whose thread takes a step. -/
def RabbitAct.thread : RabbitAct → Option Nat
  | .opens i _ | .turn i | .message i | .timeout i | .fail i | .consume i _ _ | .ack i _
  | .leave i => some i
  | .push _ _ | .cut _ | .others _ | .stop | .crash => none

/-- A step of consumer `i`. -/
def RabbitAct.takes (i : Nat) (a : RabbitAct) : Bool := a.thread = some i

/-- A consumer hands a batch to the sink. -/
def RabbitAct.hands (i : Nat) : RabbitAct → Bool
  | .consume j _ _ => i = j
  | _ => false

/-- The process is not killed. -/
def RabbitAct.Lives : RabbitAct → Prop
  | .crash => False
  | .consume _ _ script => script.any Event.isKill = false
  | _ => True

/-! ## The window of a channel -/

/-- What can be read off a channel is part of its window. -/
structure Channel.Windowed (c : Channel) : Prop where
  unread : c.unread.length ≤ kRabbitPrefetch
  inside : c.up = true → c.unread.Sublist c.unacked
  unacked : c.unacked.length ≤ kRabbitPrefetch

/-- How many messages may still be read before the broker has to be acked. -/
def Channel.ahead (c : Channel) : Nat :=
  c.unread.length + if c.up then kRabbitPrefetch - c.unacked.length else 0

theorem Channel.Windowed.closed : Channel.Windowed {} :=
  ⟨Nat.zero_le _, fun h => absurd h (by decide), Nat.zero_le _⟩

theorem Channel.Windowed.opened (id : Nat) : Channel.Windowed { id, up := true } :=
  ⟨Nat.zero_le _, fun _ => .refl _, Nat.zero_le _⟩

theorem Channel.Windowed.push {c c' : Channel} {body : Text} (h : c.Windowed)
    (hp : c.push body = some c') : c'.Windowed ∧ c'.ahead = c.ahead := by
  obtain ⟨⟨hup, hroom⟩, rfl⟩ := Channel.push_cases hp
  have hinside := h.inside hup
  have hlen := hinside.length_le
  refine ⟨⟨?_, fun _ => hinside.append (.refl _), ?_⟩, ?_⟩
  · rw [List.length_append, List.length_singleton]
    omega
  · rw [List.length_append, List.length_singleton]
    omega
  · unfold Channel.ahead
    simp only [hup, if_true, List.length_append, List.length_singleton]
    omega

theorem Channel.Windowed.cut {c : Channel} (h : c.Windowed) :
    c.cut.Windowed ∧ c.cut.ahead ≤ c.ahead := by
  refine ⟨⟨h.unread, fun hup => absurd hup Bool.false_ne_true, Nat.zero_le _⟩, ?_⟩
  change c.unread.length + 0 ≤ _
  unfold Channel.ahead
  omega

theorem Channel.Windowed.read {c : Channel} {d : Delivery} {unread : List Delivery}
    (h : c.Windowed) (hc : c.unread = d :: unread) :
    Channel.Windowed { c with unread } ∧ Channel.ahead { c with unread } + 1 = c.ahead := by
  have hunread := h.unread
  rw [hc, List.length_cons] at hunread
  refine ⟨⟨by simp only; omega, fun hup => ?_, h.unacked⟩, ?_⟩
  · exact (List.sublist_cons_self d unread).trans (hc ▸ h.inside hup)
  · unfold Channel.ahead
    rw [hc, List.length_cons]
    dsimp only
    omega

/-- An ack leaves what was not read. -/
theorem Channel.Windowed.ack {c : Channel} {tag : Nat} (h : c.Windowed)
    (hahead : ∀ d ∈ c.unread, tag < d.tag) : (c.ack tag).2.Windowed := by
  refine ⟨h.unread, fun hup => ?_, (List.length_filter_le _ _).trans h.unacked⟩
  have hfilter : c.unread.filter (fun d => ¬ d.tag ≤ tag) = c.unread := by
    refine List.filter_eq_self.mpr fun d hd => ?_
    have := hahead d hd
    simp only [decide_not, Bool.not_eq_true', decide_eq_false_iff_not]
    omega
  have hsub := (h.inside hup).filter fun d => ¬ d.tag ≤ tag
  rwa [hfilter] at hsub

/-! ## What is left to do -/

/-- The steps a consumer has left once it is to stop. -/
def Consumer.left (c : Consumer) : Nat :=
  match c.stage with
  | .over => 0
  | .down => 1
  | .head => 2
  | .written => 3
  | .full => 4
  | .reading => 5 + c.channel.ahead

/-- The batches it may still hand over. -/
def Consumer.batches (c : Consumer) : Nat :=
  match c.stage with
  | .full | .reading => 1
  | _ => 0

/-- Every consumer is in order, and its channel within its window. -/
structure Bounded (parser : IParser) (s : Rabbit) : Prop where
  steered : Steered parser s
  windowed : ∀ i, (s.consumers i).channel.Windowed

variable {parser : IParser} {s s' : Rabbit}

theorem Bounded.initial (parser : IParser) (db : Db) : Bounded parser (.initial db) :=
  ⟨Steered.initial parser db, fun _ => .closed⟩

/-- What a step makes of the consumers: one of them moves, if it is not all of them that are
gone. -/
theorem Windowed.set (h : ∀ i, (s.consumers i).channel.Windowed) {r : Rabbit} {i : Nat}
    {c : Consumer} (hr : r.consumers = s.consumers) (hc : c.channel.Windowed) (j : Nat) :
    ((r.set i c).consumers j).channel.Windowed := by
  change (Function.update r.consumers i c j).channel.Windowed
  by_cases hj : j = i
  · rw [hj, Function.update_self]
    exact hc
  · rw [Function.update_of_ne hj, hr]
    exact h j

theorem Bounded.step (h : Bounded parser s) {a : RabbitAct}
    (hs : rabbitStep parser s a = some s') : Bounded parser s' := by
  refine ⟨h.steered.step hs, ?_⟩
  cases a with
  | opens i up =>
    obtain ⟨-, rfl | rfl⟩ := Rabbit.opens_cases hs
    · exact Windowed.set h.windowed rfl .closed
    · exact Windowed.set h.windowed rfl (.opened _)
  | turn i =>
    obtain ⟨c, ht, rfl⟩ := Option.map_eq_some_iff.mp hs
    exact Windowed.set h.windowed rfl (Consumer.turn_keeps ht ▸ h.windowed i)
  | push i body =>
    obtain ⟨channel, hp, rfl⟩ := Option.map_eq_some_iff.mp hs
    exact Windowed.set h.windowed rfl ((h.windowed i).push hp).1
  | cut i =>
    cases hs
    exact Windowed.set h.windowed rfl (h.windowed i).cut.1
  | message i =>
    obtain ⟨c, hm, rfl⟩ := Option.map_eq_some_iff.mp hs
    obtain ⟨-, d, unread, hunread, rfl⟩ := Consumer.message_cases hm
    exact Windowed.set h.windowed rfl ((h.windowed i).read hunread).1
  | timeout i =>
    obtain ⟨c, ht, rfl⟩ := Option.map_eq_some_iff.mp hs
    exact Windowed.set h.windowed rfl (Consumer.timeout_keeps ht ▸ h.windowed i)
  | fail i =>
    obtain ⟨-, rfl⟩ := Rabbit.fail_cases hs
    exact Windowed.set h.windowed rfl (h.windowed i)
  | consume i visit script =>
    obtain ⟨-, db, ran, -, ⟨-, rfl⟩ | ⟨-, link, queued, openBatch, delta, totals, -, rfl⟩⟩ :=
      Rabbit.consume_cases (h.steered.idle i) hs
    · exact fun _ => .closed
    · exact Windowed.set h.windowed rfl (h.windowed i)
  | ack i ok =>
    obtain ⟨hst, ⟨-, rfl⟩ | ⟨-, rfl⟩⟩ := Rabbit.ack_cases hs
    · exact Windowed.set h.windowed rfl (h.windowed i)
    · have hc := h.steered.steering hst (by simp) (by simp)
      exact Windowed.set h.windowed rfl ((h.windowed i).ack hc.ahead)
  | others db =>
    cases hs
    exact h.windowed
  | stop =>
    cases hs
    exact h.windowed
  | leave i =>
    obtain rfl := Rabbit.leave_cases hs
    exact Windowed.set h.windowed rfl (h.windowed i)
  | crash =>
    cases hs
    exact fun _ => .closed

/-- A step of consumer `i` costs it something, one of anybody else pays nothing back. -/
def Paid (i : Nat) (a : RabbitAct) (c c' : Consumer) : Prop :=
  c'.left + (if a.takes i then 1 else 0) ≤ c.left ∧
    c'.batches + (if a.hands i then 1 else 0) ≤ c.batches

theorem Paid.refl {i : Nat} {a : RabbitAct} {c : Consumer} (ht : a.takes i = false)
    (hh : a.hands i = false) : Paid i a c c := by
  unfold Paid
  rw [ht, hh]
  exact ⟨le_refl _, le_refl _⟩

/-- Only the consumer that moves can pay. -/
theorem Paid.set {i j : Nat} {a : RabbitAct} {r : Rabbit} {c : Consumer}
    (hr : r.consumers = s.consumers)
    (hself : Paid j a (s.consumers j) c)
    (hother : i ≠ j → a.takes i = false ∧ a.hands i = false) :
    Paid i a (s.consumers i) ((r.set j c).consumers i) := by
  change Paid i a _ (Function.update r.consumers j c i)
  by_cases hij : i = j
  · subst hij
    rw [Function.update_self]
    exact hself
  · rw [Function.update_of_ne hij, hr]
    exact Paid.refl (hother hij).1 (hother hij).2

/-- A consumer that is to stop and has not is somewhere it can go on from. -/
theorem Bounded.goes_on (h : Bounded parser s) (hstop : s.stopping = true) {i : Nat}
    (hover : (s.consumers i).stage ≠ .over) :
    ∃ a s', a.Lives ∧ a.takes i = true ∧ rabbitStep parser s a = some s' := by
  cases hst : (s.consumers i).stage with
  | down => exact ⟨.leave i, _, trivial, decide_eq_true rfl, if_pos ⟨hst, hstop⟩⟩
  | head =>
    have hturn : (s.consumers i).turn s.stopping = some _ := if_pos hst
    exact ⟨.turn i, _, trivial, decide_eq_true rfl, congrArg (Option.map (s.set i)) hturn⟩
  | reading =>
    have htimeout : (s.consumers i).timeout = some _ := if_pos hst
    exact ⟨.timeout i, _, trivial, decide_eq_true rfl, congrArg (Option.map (s.set i)) htimeout⟩
  | full =>
    obtain ⟨script, r, hr, hkill⟩ := Rabbit.consume_refused (h.steered.idle i) hst
    exact ⟨.consume i .plain script, r, hkill, decide_eq_true rfl, hr⟩
  | written => exact ⟨.ack i true, _, trivial, decide_eq_true rfl, if_pos hst⟩
  | _ => exact absurd hst hover

end CdrProcessor
