import CdrProcessor.RabbitAck

/-! What the acks of the queue path name and cover.  The queue path is watched from
outside: which tags the broker gave to what, which acks were sent, and what had been read
when a failure cut a batch short. -/

namespace CdrProcessor

/-! ## Watching -/

/-- An ack as it was sent: its channel and its tag, what the broker then was acked for,
and how much had been delivered and handed to the sink by then. -/
structure AckSent where
  channel : Nat
  tag : Nat
  covered : List Delivery
  delivered : Nat
  handed : Nat

/-- The queue path, and what was seen of it. -/
structure Watched where
  rabbit : Rabbit
  delivered : List Delivery := []
  acks : List AckSent := []
  /-- Read into a batch that a failure cut short. -/
  cutShort : List Delivery := []

/-- What a step shows. -/
def Watched.saw (s : Watched) (a : RabbitAct) (rabbit : Rabbit) : Watched :=
  match a with
  | .push i body =>
    let channel := (s.rabbit.consumers i).channel
    { s with rabbit, delivered := s.delivered ++ [⟨channel.id, channel.nextTag, body⟩] }
  | .ack i ok =>
    let c := s.rabbit.consumers i
    { s with
      rabbit
      acks := s.acks ++ [{
        channel := c.channel.id
        tag := c.source.lastTag
        covered := if ok then (c.channel.ack c.source.lastTag).1 else []
        delivered := s.delivered.length
        handed := s.rabbit.log.length }] }
  | .fail i => { s with rabbit, cutShort := s.cutShort ++ (s.rabbit.consumers i).read }
  | _ => { s with rabbit }

def watchStep (parser : IParser) (s : Watched) (a : RabbitAct) : Option Watched :=
  (rabbitStep parser s.rabbit a).map (s.saw a)

/-- Passed to the sink as part of a batch. -/
def Passed (log : List Handover) (d : Delivery) : Prop := ∃ h ∈ log, d ∈ h.deliveries

/-- The tag was delivered on the channel the ack goes out on, and what the ack covers is of
that channel and was rejected or passed to the sink before. -/
structure AckSent.Disciplined (parser : IParser) (s : Watched) (a : AckSent) : Prop where
  named : ∃ d ∈ s.delivered.take a.delivered, d.channel = a.channel ∧ d.tag = a.tag
  covers : ∀ d ∈ a.covered, d.channel = a.channel ∧
    (parser d.body = none ∨ Passed (s.rabbit.log.take a.handed) d)

/-! ## The invariant -/

/-- A consumer with a channel: everything it holds is of that channel, and what it has yet
to pass on comes behind all that was passed on from it. -/
structure Tracked (s : Watched) (c : Consumer) : Prop where
  channel : c.channel.id < s.rabbit.channels
  unread : ∀ d ∈ c.channel.unread, d.channel = c.channel.id ∧ d ∈ s.delivered
  unacked : ∀ d ∈ c.channel.unacked, d.channel = c.channel.id
  read : ∀ d ∈ c.read, d.channel = c.channel.id
  order : c.read.Pairwise fun d d' => d.tag < d'.tag
  due : c.stage = .full ∨ c.stage = .written ∨ c.stage = .reading ∧ c.batch ≠ [] →
    c.source.lastTag ≠ 0
  last : c.source.lastTag ≠ 0 →
    ∃ d ∈ s.delivered, d.channel = c.channel.id ∧ d.tag = c.source.lastTag
  behind : ∀ d, Passed s.rabbit.log d → d.channel = c.channel.id → d.tag ≤ c.source.lastTag ∧
    (c.stage ≠ .written → ∀ d' ∈ c.read, d.tag < d'.tag)
  passed : c.stage = .written → ∀ d ∈ c.read, Passed s.rabbit.log d
  cutShort : ∀ d ∈ s.cutShort, d.channel ≠ c.channel.id

structure Tags (parser : IParser) (s : Watched) : Prop where
  steered : Steered parser s.rabbit
  tracked : ∀ i, (s.rabbit.consumers i).Adrift ∨ Tracked s (s.rabbit.consumers i)
  apart : ∀ i j, ¬ (s.rabbit.consumers i).Adrift → ¬ (s.rabbit.consumers j).Adrift →
    (s.rabbit.consumers i).channel.id = (s.rabbit.consumers j).channel.id → i = j
  old : ∀ d, Passed s.rabbit.log d ∨ d ∈ s.cutShort → d.channel < s.rabbit.channels
  once : (s.rabbit.log.flatMap Handover.deliveries).Nodup
  lost : ∀ d ∈ s.cutShort, ¬ Passed s.rabbit.log d ∧ ∀ a ∈ s.acks, d ∉ a.covered
  acks : ∀ a ∈ s.acks, a.delivered ≤ s.delivered.length ∧ a.handed ≤ s.rabbit.log.length ∧
    a.Disciplined parser s

def Watched.initial (db : Db) : Watched := { rabbit := .initial db }

variable {parser : IParser} {s : Watched}

theorem Tags.initial (parser : IParser) (db : Db) : Tags parser (Watched.initial db) where
  steered := Steered.initial parser db
  tracked _ := .inl (.inl rfl)
  apart i j h := absurd (.inl rfl) h
  old d h := by
    rcases h with ⟨h, hh, -⟩ | h
    · cases hh
    · cases h
  once := List.nodup_nil
  lost d h := by cases h
  acks a h := by cases h

theorem Passed.mono {log : List Handover} {d : Delivery} (h : Passed log d) (l : List Handover) :
    Passed (log ++ l) d := by
  obtain ⟨e, he, hd⟩ := h
  exact ⟨e, List.mem_append_left _ he, hd⟩

theorem passed_append {log : List Handover} {e : Handover} {d : Delivery}
    (h : Passed (log ++ [e]) d) : Passed log d ∨ d ∈ e.deliveries := by
  obtain ⟨e', he, hd⟩ := h
  rcases List.mem_append.mp he with he | he
  · exact .inl ⟨e', he, hd⟩
  · rw [List.mem_singleton.mp he] at hd
    exact .inr hd

theorem mem_flatMap_deliveries {log : List Handover} {d : Delivery} :
    d ∈ log.flatMap Handover.deliveries ↔ Passed log d := by
  rw [List.mem_flatMap]
  rfl

theorem AckSent.Disciplined.congr {a : AckSent} (h : a.Disciplined parser s) {s' : Watched}
    (hdel : s'.delivered.take a.delivered = s.delivered.take a.delivered)
    (hlog : s'.rabbit.log.take a.handed = s.rabbit.log.take a.handed) :
    a.Disciplined parser s' where
  named := by
    rw [hdel]
    exact h.named
  covers := by
    rw [hlog]
    exact h.covers

/-! ## Its steps -/

/-- More seen and more passed on, none of it from this consumer's channel. -/
theorem Tracked.mono {c : Consumer} (h : Tracked s c) {s' : Watched}
    (hch : s.rabbit.channels ≤ s'.rabbit.channels) (hdel : ∀ d ∈ s.delivered, d ∈ s'.delivered)
    (hlog : ∀ d, Passed s.rabbit.log d → Passed s'.rabbit.log d)
    (hnew : ∀ d, Passed s'.rabbit.log d → Passed s.rabbit.log d ∨ d.channel ≠ c.channel.id)
    (hcut : ∀ d ∈ s'.cutShort, d ∈ s.cutShort ∨ d.channel ≠ c.channel.id) : Tracked s' c :=
  { h with
    channel := lt_of_lt_of_le h.channel hch
    unread := fun d hd => ⟨(h.unread d hd).1, hdel d (h.unread d hd).2⟩
    last := fun hl => by
      obtain ⟨d, hd, hrest⟩ := h.last hl
      exact ⟨d, hdel d hd, hrest⟩
    behind := fun d hp hc => (hnew d hp).elim (fun hp => h.behind d hp hc) (fun hn => absurd hc hn)
    passed := fun hs d hd => hlog d (h.passed hs d hd)
    cutShort := fun d hd => (hcut d hd).elim (h.cutShort d) id }

/-- Only these parts of what was seen are looked at. -/
theorem Tracked.congr {c : Consumer} (h : Tracked s c) {s' : Watched}
    (hch : s'.rabbit.channels = s.rabbit.channels) (hdel : s'.delivered = s.delivered)
    (hlog : s'.rabbit.log = s.rabbit.log) (hcut : s'.cutShort = s.cutShort) : Tracked s' c := by
  refine h.mono (le_of_eq hch.symm) ?_ ?_ ?_ ?_
  · rw [hdel]
    exact fun d hd => hd
  · rw [hlog]
    exact fun d hp => hp
  · rw [hlog]
    exact fun d hp => .inl hp
  · rw [hcut]
    exact fun d hd => .inl hd

/-- The rest of the queue path moves. -/
theorem Tags.still (h : Tags parser s) {r : Rabbit} (hs : Steered parser r)
    (hc : r.consumers = s.rabbit.consumers) (hch : r.channels = s.rabbit.channels)
    (hl : r.log = s.rabbit.log) : Tags parser { s with rabbit := r } where
  steered := hs
  tracked j := by
    change (r.consumers j).Adrift ∨ Tracked _ (r.consumers j)
    rw [hc]
    exact (h.tracked j).imp_right fun ht => ht.congr hch rfl hl rfl
  apart := by
    change ∀ i j, ¬ (r.consumers i).Adrift → ¬ (r.consumers j).Adrift →
      (r.consumers i).channel.id = (r.consumers j).channel.id → i = j
    rw [hc]
    exact h.apart
  old d hd := by
    change d.channel < r.channels
    change Passed r.log d ∨ d ∈ s.cutShort at hd
    rw [hch]
    rw [hl] at hd
    exact h.old d hd
  once := by
    change (r.log.flatMap Handover.deliveries).Nodup
    rw [hl]
    exact h.once
  lost d hd := by
    change ¬ Passed r.log d ∧ _
    rw [hl]
    exact h.lost d hd
  acks a ha := by
    obtain ⟨h1, h2, h3⟩ := h.acks a ha
    exact ⟨h1, le_of_le_of_eq h2 (congrArg _ hl.symm), h3.congr rfl (congrArg _ hl)⟩

/-- The channels stay apart when one consumer comes to have another that no other has. -/
theorem Tags.apart_update (h : Tags parser s) {i : Nat} {c : Consumer}
    (hc : ¬ c.Adrift → ∀ j ≠ i, ¬ (s.rabbit.consumers j).Adrift →
      c.channel.id ≠ (s.rabbit.consumers j).channel.id) (j k : Nat)
    (hj : ¬ (Function.update s.rabbit.consumers i c j).Adrift)
    (hk : ¬ (Function.update s.rabbit.consumers i c k).Adrift)
    (he : (Function.update s.rabbit.consumers i c j).channel.id =
      (Function.update s.rabbit.consumers i c k).channel.id) : j = k := by
  by_cases hji : j = i <;> by_cases hki : k = i
  · rw [hji, hki]
  · subst hji
    rw [Function.update_self] at hj he
    rw [Function.update_of_ne hki] at hk he
    exact absurd he (hc hj k hki hk)
  · subst hki
    rw [Function.update_self] at hk he
    rw [Function.update_of_ne hji] at hj he
    exact absurd he.symm (hc hk j hji hj)
  · rw [Function.update_of_ne hji] at hj he
    rw [Function.update_of_ne hki] at hk he
    exact h.apart j k hj hk he

/-- One consumer comes to another state over the same histories. -/
theorem Tags.set (h : Tags parser s) {i : Nat} {c : Consumer}
    (hs : Steered parser (s.rabbit.set i c)) {delivered : List Delivery} {acks : List AckSent}
    {cutShort : List Delivery} (hdel : ∀ d ∈ s.delivered, d ∈ delivered)
    (hc : c.Adrift ∨ Tracked ⟨s.rabbit, delivered, acks, cutShort⟩ c)
    (hid : ¬ c.Adrift → ¬ (s.rabbit.consumers i).Adrift ∧
      c.channel.id = (s.rabbit.consumers i).channel.id)
    (hcut : ∀ d ∈ cutShort, d ∈ s.cutShort ∨ ¬ (s.rabbit.consumers i).Adrift ∧
      d.channel = (s.rabbit.consumers i).channel.id)
    (hlost : ∀ d ∈ cutShort, ¬ Passed s.rabbit.log d ∧ ∀ a ∈ acks, d ∉ a.covered)
    (hacks : ∀ a ∈ acks, a.delivered ≤ delivered.length ∧ a.handed ≤ s.rabbit.log.length ∧
      a.Disciplined parser ⟨s.rabbit, delivered, acks, cutShort⟩) :
    Tags parser ⟨s.rabbit.set i c, delivered, acks, cutShort⟩ := by
  refine ⟨hs, fun j => ?_, h.apart_update fun hn j hj hadr he => ?_, fun d hd => ?_, h.once, hlost,
    fun a ha => ?_⟩
  · change Consumer.Adrift (Function.update s.rabbit.consumers i c j) ∨
      Tracked _ (Function.update s.rabbit.consumers i c j)
    by_cases hj : j = i
    · subst hj
      rw [Function.update_self]
      exact hc.imp_right fun ht => ht.congr rfl rfl rfl rfl
    · rw [Function.update_of_ne hj]
      by_cases had : (s.rabbit.consumers j).Adrift
      · exact .inl had
      · refine .inr (((h.tracked j).resolve_left had).mono (le_refl _) hdel (fun _ hp => hp)
          (fun _ hp => .inl hp) fun d hd => ?_)
        refine (hcut d hd).imp_right fun hi he => hj ?_
        exact h.apart j i had hi.1 (he.symm.trans hi.2)
  · obtain ⟨hi, hid⟩ := hid hn
    exact hj (h.apart j i hadr hi (he.symm.trans hid))
  · rcases hd with hd | hd
    · exact h.old d (.inl hd)
    · rcases hcut d hd with hd | ⟨hadr, hd⟩
      · exact h.old d (.inr hd)
      · rw [hd]
        exact ((h.tracked i).resolve_left hadr).channel
  · obtain ⟨h1, h2, h3⟩ := hacks a ha
    exact ⟨h1, h2, h3.congr rfl rfl⟩

/-- A consumer moves, and nothing is seen of it. -/
theorem Tags.move (h : Tags parser s) {i : Nat} {c : Consumer}
    (hs : Steered parser (s.rabbit.set i c)) (hc : c.Adrift ∨ Tracked s c)
    (hid : ¬ c.Adrift → ¬ (s.rabbit.consumers i).Adrift ∧
      c.channel.id = (s.rabbit.consumers i).channel.id) :
    Tags parser { s with rabbit := s.rabbit.set i c } :=
  h.set hs (fun _ hd => hd) hc hid (fun _ hd => .inl hd) h.lost h.acks

theorem Tracked.push {c : Consumer} (h : Tracked s c) {body : Text} {channel : Channel}
    (hp : c.channel.push body = some channel) (acks : List AckSent) :
    Tracked ⟨s.rabbit, s.delivered ++ [⟨c.channel.id, c.channel.nextTag, body⟩], acks, s.cutShort⟩
      { c with channel } := by
  obtain ⟨-, rfl⟩ := Channel.push_cases hp
  have hold : ∀ d ∈ s.delivered, d ∈ s.delivered ++ [⟨c.channel.id, c.channel.nextTag, body⟩] :=
    fun d hd => List.mem_append_left _ hd
  refine { h with unread := fun d hd => ?_, unacked := fun d hd => ?_, last := fun hl => ?_ }
  · rcases List.mem_append.mp hd with hd | hd
    · exact ⟨(h.unread d hd).1, hold d (h.unread d hd).2⟩
    · rw [List.mem_singleton.mp hd]
      exact ⟨rfl, List.mem_append_right _ (List.mem_singleton_self _)⟩
  · rcases List.mem_append.mp hd with hd | hd
    · exact h.unacked d hd
    · rw [List.mem_singleton.mp hd]
  · obtain ⟨d, hd, hrest⟩ := h.last hl
    exact ⟨d, hold d hd, hrest⟩

theorem Tracked.cut {c : Consumer} (h : Tracked s c) :
    Tracked s { c with channel := c.channel.cut } :=
  { h with unacked := fun d hd => by cases hd }

/-- The next message comes behind everything read or passed on before. -/
theorem Tracked.message {c c' : Consumer} (h : Tracked s c)
    (hst : Steering parser s.rabbit.log c) (hm : c.message parser = some c') : Tracked s c' := by
  obtain ⟨hreading, d, unread, hun, rfl⟩ := Consumer.message_cases hm
  have hd : d ∈ c.channel.unread := hun ▸ List.mem_cons_self
  have hlt : c.source.lastTag < d.tag := hst.ahead d hd
  have htag : (c.source.message parser c.batch d).1.lastTag = d.tag := by
    unfold RabbitSource.message
    split <;> rfl
  have hread : ∀ d' ∈ (if (parser d.body).isSome then c.read ++ [d] else c.read),
      d' ∈ c.read ∨ d' = d := by
    intro d' hd'
    split at hd'
    · exact (List.mem_append.mp hd').imp_right List.mem_singleton.mp
    · exact .inl hd'
  have hnotw : c.stage ≠ .written := by
    rw [hreading]
    simp
  refine { h with
    unread := ?_, read := ?_, order := ?_, due := ?_, last := ?_, behind := ?_, passed := ?_ }
  · exact fun d' hd' => h.unread d' (hun ▸ List.mem_cons_of_mem d hd')
  · intro d' hd'
    rcases hread d' hd' with hd' | rfl
    · exact h.read d' hd'
    · exact (h.unread d' hd).1
  · dsimp only
    split
    · refine List.pairwise_append.mpr ⟨h.order, List.pairwise_singleton _ _, ?_⟩
      intro d' hd' d'' hd''
      rw [List.mem_singleton.mp hd'']
      exact lt_of_le_of_lt (hst.tags d' hd') hlt
    · exact h.order
  · intro _
    dsimp only
    rw [htag]
    omega
  · intro _
    dsimp only
    rw [htag]
    exact ⟨d, (h.unread d hd).2, (h.unread d hd).1, rfl⟩
  · intro d' hp hch
    obtain ⟨hle, hbelow⟩ := h.behind d' hp hch
    dsimp only
    rw [htag]
    refine ⟨by omega, fun _ d'' hd'' => ?_⟩
    rcases hread d'' hd'' with hd'' | rfl
    · exact hbelow hnotw d'' hd''
    · omega
  · intro hw
    dsimp only at hw
    split at hw <;> cases hw

theorem Tracked.turn {c c' : Consumer} (h : Tracked s c) {stopping : Bool}
    (ht : c.turn stopping = some c') : c'.Adrift ∨ Tracked s c' := by
  obtain ⟨-, rfl | rfl⟩ := Consumer.turn_cases ht
  · exact .inl (.inl rfl)
  · refine .inr { h with
      read := fun d hd => by cases hd
      order := .nil
      due := fun hd => ?_
      behind := fun d hp hch => ⟨(h.behind d hp hch).1, fun _ d' hd' => by cases hd'⟩
      passed := fun hw => by cases hw }
    rcases hd with hd | hd | hd
    · cases hd
    · cases hd
    · exact absurd rfl hd.2

theorem Tracked.timeout {c c' : Consumer} (h : Tracked s c) (ht : c.timeout = some c') :
    Tracked s c' := by
  obtain ⟨hreading, rfl⟩ := Consumer.timeout_cases ht
  have hbelow : ∀ d, Passed s.rabbit.log d → d.channel = c.channel.id →
      d.tag ≤ c.source.lastTag ∧ ∀ d' ∈ c.read, d.tag < d'.tag := fun d hp hch =>
    ⟨(h.behind d hp hch).1, (h.behind d hp hch).2 (by rw [hreading]; simp)⟩
  by_cases hb : c.batch = []
  · rw [if_pos hb]
    refine { h with
      due := fun hd => ?_
      behind := fun d hp hch => ⟨(hbelow d hp hch).1, fun _ => (hbelow d hp hch).2⟩
      passed := fun hw => by cases hw }
    rcases hd with hd | hd | hd
    · cases hd
    · cases hd
    · cases hd.1
  · rw [if_neg hb]
    exact { h with
      due := fun _ => h.due (.inr (.inr ⟨hreading, hb⟩))
      behind := fun d hp hch => ⟨(hbelow d hp hch).1, fun _ => (hbelow d hp hch).2⟩
      passed := fun hw => by cases hw }

/-- A channel that was just opened is no other's. -/
theorem Tags.opens (h : Tags parser s) {i : Nat} {up : Bool} {r : Rabbit}
    (hs : s.rabbit.opens i up = some r) : Tags parser { s with rabbit := r } := by
  have hsteer := h.steered.opens hs
  obtain ⟨hdown, rfl | rfl⟩ := Rabbit.opens_cases hs
  · exact h.move hsteer (.inl (.inl hdown)) fun hn => absurd (.inl hdown) hn
  · have hlt : ∀ j, ¬ (s.rabbit.consumers j).Adrift →
        (s.rabbit.consumers j).channel.id < s.rabbit.channels :=
      fun j hj => ((h.tracked j).resolve_left hj).channel
    refine ⟨hsteer, fun j => ?_, h.apart_update fun _ j _ hj he => ?_, fun d hd => ?_, h.once,
      h.lost, fun a ha => ?_⟩
    · change Consumer.Adrift (Function.update s.rabbit.consumers i _ j) ∨
        Tracked _ (Function.update s.rabbit.consumers i _ j)
      by_cases hj : j = i
      · subst hj
        rw [Function.update_self]
        right
        refine ⟨Nat.lt_succ_self _, ?_, ?_, ?_, .nil, ?_, ?_, ?_, ?_, ?_⟩
        · intro d hd; cases hd
        · intro d hd; cases hd
        · intro d hd; cases hd
        · intro hd
          rcases hd with hd | hd | hd
          · cases hd
          · cases hd
          · cases hd.1
        · exact fun hl => absurd rfl hl
        · intro d hp hch
          exact absurd hch (Nat.ne_of_lt (h.old d (.inl hp)))
        · intro hw; cases hw
        · exact fun d hd => Nat.ne_of_lt (h.old d (.inr hd))
      · rw [Function.update_of_ne hj]
        exact (h.tracked j).imp_right fun ht => ht.mono (Nat.le_succ _) (fun _ hd => hd)
          (fun _ hp => hp) (fun _ hp => .inl hp) fun _ hd => .inl hd
    · exact absurd he.symm (Nat.ne_of_lt (hlt j hj))
    · exact Nat.lt_succ_of_lt (h.old d hd)
    · obtain ⟨h1, h2, h3⟩ := h.acks a ha
      exact ⟨h1, h2, h3.congr rfl rfl⟩

/-- A batch is passed to the sink: none of it was before. -/
theorem Tags.consume (h : Tags parser s) {i : Nat} {visit : Visit} {script : List Event}
    {r : Rabbit} (hs : s.rabbit.consume i visit script = some r) :
    Tags parser { s with rabbit := r } := by
  have hsteer := h.steered.consume hs
  obtain ⟨hst, db, ran, -, hcase⟩ := Rabbit.consume_cases (h.steered.idle i) hs
  have hadr := Consumer.not_adrift hst (by simp) (by simp)
  have hc := (h.tracked i).resolve_left hadr
  have hnotw : (s.rabbit.consumers i).stage ≠ .written := by
    rw [hst]
    simp
  have hfresh : ∀ d ∈ (s.rabbit.consumers i).read, ¬ Passed s.rabbit.log d := fun d hd hp =>
    absurd ((h.steered.steering hst (by simp) (by simp)).tags d hd) fun _ =>
      lt_irrefl _ ((hc.behind d hp (hc.read d hd)).2 hnotw d hd)
  generalize he : (⟨(s.rabbit.consumers i).read, (s.rabbit.consumers i).batch,
    consumeCalls visit (s.rabbit.consumers i).batch [], ran⟩ : Handover) = e at hcase
  have hdel : e.deliveries = (s.rabbit.consumers i).read := by rw [← he]
  have honce : ((s.rabbit.log ++ [e]).flatMap Handover.deliveries).Nodup := by
    rw [List.flatMap_append, List.flatMap_singleton, hdel]
    refine List.nodup_append.mpr ⟨h.once, hc.order.imp fun hlt heq => ?_, ?_⟩
    · rw [heq] at hlt
      exact lt_irrefl _ hlt
    · rintro d hd d' hd' rfl
      exact hfresh d hd' (mem_flatMap_deliveries.mp hd)
  have hlost : ∀ d ∈ s.cutShort, ¬ Passed (s.rabbit.log ++ [e]) d ∧ ∀ a ∈ s.acks, d ∉ a.covered := by
    intro d hd
    refine ⟨fun hp => ?_, (h.lost d hd).2⟩
    rcases passed_append hp with hp | hp
    · exact (h.lost d hd).1 hp
    · rw [hdel] at hp
      exact hc.cutShort d hd (hc.read d hp)
  have hold : ∀ d, Passed (s.rabbit.log ++ [e]) d ∨ d ∈ s.cutShort →
      d.channel < s.rabbit.channels := by
    rintro d (hp | hd)
    · rcases passed_append hp with hp | hp
      · exact h.old d (.inl hp)
      · rw [hdel] at hp
        rw [hc.read d hp]
        exact hc.channel
    · exact h.old d (.inr hd)
  have hacks : ∀ r : Rabbit, r.log = s.rabbit.log ++ [e] → ∀ a ∈ s.acks,
      a.delivered ≤ s.delivered.length ∧ a.handed ≤ r.log.length ∧
        a.Disciplined parser { s with rabbit := r } := by
    intro r hlog a ha
    obtain ⟨h1, h2, h3⟩ := h.acks a ha
    refine ⟨h1, ?_, h3.congr rfl ?_⟩
    · rw [hlog, List.length_append]
      exact Nat.le_add_right_of_le h2
    · change r.log.take a.handed = _
      rw [hlog, List.take_append_of_le_length h2]
  rcases hcase with ⟨-, rfl⟩ | ⟨-, link, queued, openBatch, delta, runTotals, -, rfl⟩
  · exact ⟨hsteer, fun _ => .inl (.inl rfl), fun j k hj => absurd (.inl rfl) hj, hold, honce,
      hlost, hacks _ rfl⟩
  · -- the others see a batch of another channel go by, this one its own
    have hothers : ∀ j, j ≠ i → (s.rabbit.consumers j).Adrift ∨
        Tracked ⟨{ s.rabbit with db, log := s.rabbit.log ++ [e], runTotals }, s.delivered, s.acks,
          s.cutShort⟩ (s.rabbit.consumers j) := by
      intro j hj
      by_cases had : (s.rabbit.consumers j).Adrift
      · exact .inl had
      · refine .inr (((h.tracked j).resolve_left had).mono (le_refl _) (fun _ hd => hd)
          (fun _ hp => hp.mono _) (fun d hp => ?_) fun _ hd => .inl hd)
        refine (passed_append hp).imp_right fun hp heq => hj ?_
        rw [hdel] at hp
        exact h.apart j i had hadr (heq.symm.trans (hc.read d hp))
    refine ⟨hsteer, fun j => ?_, h.apart_update fun _ j hj hadj heq => ?_, hold, honce, hlost,
      hacks _ rfl⟩
    · change Consumer.Adrift (Function.update s.rabbit.consumers i _ j) ∨
        Tracked _ (Function.update s.rabbit.consumers i _ j)
      by_cases hj : j = i
      · subst hj
        rw [Function.update_self]
        right
        refine { hc with due := fun _ => hc.due (.inl hst), behind := ?_, passed := ?_ }
        · intro d hp hch
          refine ⟨?_, fun hn => absurd rfl hn⟩
          rcases passed_append hp with hp | hp
          · exact (hc.behind d hp hch).1
          · rw [hdel] at hp
            exact (h.steered.steering hst (by simp) (by simp)).tags d hp
        · intro _ d hd
          exact ⟨e, List.mem_append_right _ (List.mem_singleton_self _), hdel ▸ hd⟩
      · rw [Function.update_of_ne hj]
        exact (hothers j hj).imp_right fun ht => ht.congr rfl rfl rfl rfl
    · exact hj (h.apart j i hadj hadr heq.symm)

/-- What is unacked up to the last tag was rejected or passed on. -/
theorem Tracked.covered {c : Consumer} (h : Tracked s c) (hst : Steering parser s.rabbit.log c)
    (hw : c.stage = .written) {d : Delivery} (hd : d ∈ (c.channel.ack c.source.lastTag).1) :
    d.channel = c.channel.id ∧ (parser d.body = none ∨ Passed s.rabbit.log d) := by
  obtain ⟨hmem, htag⟩ := List.mem_filter.mp hd
  have hle : d.tag ≤ c.source.lastTag := by simpa using htag
  refine ⟨h.unacked d hmem, ?_⟩
  rcases hst.unacked d hmem with hu | hn | hr
  · have := hst.ahead d hu
    omega
  · exact .inl hn
  · exact .inr (h.passed hw d hr)

/-- An ack goes out, whether or not it gets to the broker. -/
theorem Tags.sent (h : Tags parser s) {i : Nat} {c : Consumer} {covered : List Delivery}
    (hw : (s.rabbit.consumers i).stage = .written)
    (hcov : ∀ d ∈ covered,
      d ∈ ((s.rabbit.consumers i).channel.ack (s.rabbit.consumers i).source.lastTag).1)
    (hs : Steered parser (s.rabbit.set i c)) (hc : c.Adrift ∨ Tracked s c)
    (hid : ¬ c.Adrift → c.channel.id = (s.rabbit.consumers i).channel.id) :
    Tags parser { s with
      rabbit := s.rabbit.set i c
      acks := s.acks ++ [{
        channel := (s.rabbit.consumers i).channel.id
        tag := (s.rabbit.consumers i).source.lastTag
        covered, delivered := s.delivered.length, handed := s.rabbit.log.length }] } := by
  have hst := h.steered.steering hw (by simp) (by simp)
  have hadr := Consumer.not_adrift hw (by simp) (by simp)
  have ht := (h.tracked i).resolve_left hadr
  refine h.set hs (fun _ hd => hd) ?_ (fun hn => ⟨hadr, hid hn⟩) (fun _ hd => .inl hd) ?_ ?_
  · exact hc.imp_right fun ht => ht.congr rfl rfl rfl rfl
  · intro d hd
    refine ⟨(h.lost d hd).1, fun a ha => ?_⟩
    rcases List.mem_append.mp ha with ha | ha
    · exact (h.lost d hd).2 a ha
    · rw [List.mem_singleton.mp ha]
      exact fun hin => ht.cutShort d hd (ht.covered hst hw (hcov d hin)).1
  · intro a ha
    rcases List.mem_append.mp ha with ha | ha
    · obtain ⟨h1, h2, h3⟩ := h.acks a ha
      exact ⟨h1, h2, h3.congr rfl rfl⟩
    · rw [List.mem_singleton.mp ha]
      refine ⟨le_refl _, le_refl _, ?_, fun d hin => ?_⟩
      · rw [List.take_length]
        exact ht.last (ht.due (.inr (.inl hw)))
      · rw [List.take_length]
        exact ht.covered hst hw (hcov d hin)

/-- Behind an ack, nothing is left of the batch. -/
theorem Tracked.acked {c : Consumer} (h : Tracked s c) : Tracked s { c with
    channel := (c.channel.ack c.source.lastTag).2, stage := .head, read := [] } := by
  refine { h with
    unacked := fun d hd => h.unacked d (List.mem_filter.mp hd).1
    read := fun d hd => by cases hd
    order := .nil
    due := fun hd => ?_
    behind := fun d hp hch => ⟨(h.behind d hp hch).1, fun _ d' hd' => by cases hd'⟩
    passed := fun hw => by cases hw }
  rcases hd with hd | hd | hd
  · cases hd
  · cases hd
  · cases hd.1

theorem Tags.ack (h : Tags parser s) {i : Nat} {ok : Bool} {r : Rabbit}
    (hs : s.rabbit.ack i ok = some r) : Tags parser (s.saw (.ack i ok) r) := by
  have hsteer := h.steered.ack hs
  obtain ⟨hst, ⟨rfl, rfl⟩ | ⟨rfl, rfl⟩⟩ := Rabbit.ack_cases hs
  · exact h.sent hst (fun d hd => by cases hd) hsteer (.inl (.inl rfl))
      fun hn => absurd (.inl rfl) hn
  · have hadr := Consumer.not_adrift hst (by simp) (by simp)
    have hsent := h.sent hst (fun _ hd => hd) (c := { s.rabbit.consumers i with
        channel := ((s.rabbit.consumers i).channel.ack (s.rabbit.consumers i).source.lastTag).2
        stage := .head, read := [] })
      ⟨hsteer.idle, hsteer.consumers⟩ (.inr ((h.tracked i).resolve_left hadr).acked)
      fun _ => rfl
    -- what the broker was acked for is another history than the ones watched here
    exact hsent.still hsteer rfl rfl rfl

/-- The read fails in the middle of a batch: what it has so far comes to nothing. -/
theorem Tags.fail (h : Tags parser s) {i : Nat} {r : Rabbit}
    (hs : rabbitStep parser s.rabbit (.fail i) = some r) :
    Tags parser (s.saw (.fail i) r) := by
  have hsteer := h.steered.step hs
  obtain ⟨hst, rfl⟩ := Rabbit.fail_cases hs
  have hadr := Consumer.not_adrift hst (by simp) (by simp)
  have ht := (h.tracked i).resolve_left hadr
  have hsteering := h.steered.steering hst (by simp) (by simp)
  have hnotw : (s.rabbit.consumers i).stage ≠ .written := by
    rw [hst]
    simp
  have hread : ∀ d ∈ (s.rabbit.consumers i).read, ¬ Passed s.rabbit.log d := fun d hd hp =>
    lt_irrefl _ ((ht.behind d hp (ht.read d hd)).2 hnotw d hd)
  refine h.set hsteer (fun _ hd => hd) (.inl (.inl rfl)) (fun hn => absurd (.inl rfl) hn) ?_ ?_ ?_
  · intro d hd
    exact (List.mem_append.mp hd).imp_right fun hd => ⟨hadr, ht.read d hd⟩
  · intro d hd
    rcases List.mem_append.mp hd with hd | hd
    · exact h.lost d hd
    · refine ⟨hread d hd, fun a ha hin => ?_⟩
      rcases ((h.acks a ha).2.2.covers d hin).2 with hn | ⟨e, he, hd'⟩
      · obtain ⟨x, -, hx⟩ := hsteering.batch d hd
        rw [hn] at hx
        cases hx
      · exact hread d hd ⟨e, List.mem_of_mem_take he, hd'⟩
  · intro a ha
    obtain ⟨h1, h2, h3⟩ := h.acks a ha
    exact ⟨h1, h2, h3.congr rfl rfl⟩

theorem Tags.push (h : Tags parser s) {i : Nat} {body : Text} {r : Rabbit}
    (hs : rabbitStep parser s.rabbit (.push i body) = some r) :
    Tags parser (s.saw (.push i body) r) := by
  have hsteer := h.steered.step hs
  obtain ⟨channel, hp, rfl⟩ := Option.map_eq_some_iff.mp hs
  have hid : channel.id = (s.rabbit.consumers i).channel.id := by
    rw [(Channel.push_cases hp).2]
  refine h.set hsteer (fun _ hd => List.mem_append_left _ hd) ?_ (fun hn => ⟨hn, hid⟩)
    (fun _ hd => .inl hd) h.lost fun a ha => ?_
  · exact (h.tracked i).imp id fun ht => ht.push hp _
  · obtain ⟨h1, h2, h3⟩ := h.acks a ha
    refine ⟨?_, h2, h3.congr (List.take_append_of_le_length h1) rfl⟩
    rw [List.length_append]
    exact Nat.le_add_right_of_le h1

theorem Tags.step (h : Tags parser s) {a : RabbitAct} {s' : Watched}
    (hw : watchStep parser s a = some s') : Tags parser s' := by
  obtain ⟨r, hs, rfl⟩ := Option.map_eq_some_iff.mp hw
  have hsteer := h.steered.step hs
  -- a consumer that moves and keeps its channel
  have hmove : ∀ {i : Nat} {stage : Stage} {c : Consumer},
      (s.rabbit.consumers i).stage = stage → stage ≠ .down → stage ≠ .over →
      c.channel.id = (s.rabbit.consumers i).channel.id →
      (Tracked s (s.rabbit.consumers i) → c.Adrift ∨ Tracked s c) →
      Steered parser (s.rabbit.set i c) →
      Tags parser { s with rabbit := s.rabbit.set i c } := by
    intro i stage c hst hd ho hid hc hsteer
    have hadr := Consumer.not_adrift hst hd ho
    exact h.move hsteer (hc ((h.tracked i).resolve_left hadr)) fun _ => ⟨hadr, hid⟩
  cases a with
  | opens i up => exact h.opens hs
  | turn i =>
    obtain ⟨c, hc, rfl⟩ := Option.map_eq_some_iff.mp hs
    exact hmove (Consumer.turn_cases hc).1 (by simp) (by simp)
      (congrArg Channel.id (Consumer.turn_keeps hc)) (fun ht => ht.turn hc) hsteer
  | push i body => exact h.push hs
  | cut i =>
    cases hs
    exact h.move hsteer ((h.tracked i).imp id Tracked.cut) fun hn => ⟨hn, rfl⟩
  | message i =>
    obtain ⟨c, hc, rfl⟩ := Option.map_eq_some_iff.mp hs
    have hst := (Consumer.message_cases hc).1
    obtain ⟨unread, hkeep⟩ := Consumer.message_keeps hc
    exact hmove hst (by simp) (by simp) (by rw [hkeep])
      (fun ht => .inr (ht.message (h.steered.steering hst (by simp) (by simp)) hc)) hsteer
  | timeout i =>
    obtain ⟨c, hc, rfl⟩ := Option.map_eq_some_iff.mp hs
    exact hmove (Consumer.timeout_cases hc).1 (by simp) (by simp)
      (congrArg Channel.id (Consumer.timeout_keeps hc)) (fun ht => .inr (ht.timeout hc)) hsteer
  | fail i => exact h.fail hs
  | consume i visit script => exact h.consume hs
  | ack i ok => exact h.ack hs
  | others db =>
    cases hs
    exact h.still hsteer rfl rfl rfl
  | stop =>
    cases hs
    exact h.still hsteer rfl rfl rfl
  | leave i =>
    obtain rfl := Rabbit.leave_cases hs
    exact h.move hsteer (.inl (.inr rfl)) fun hn => absurd (.inr rfl) hn
  | crash =>
    cases hs
    refine ⟨hsteer, fun _ => .inl (.inl rfl), fun j k hj => absurd (.inl rfl) hj, h.old, h.once,
      h.lost, fun a ha => ?_⟩
    obtain ⟨h1, h2, h3⟩ := h.acks a ha
    exact ⟨h1, h2, h3.congr rfl rfl⟩

/-! ## Whole runs -/

theorem Tags.run {db : Db} {acts : List RabbitAct}
    (hr : Run (watchStep parser) (fun _ _ => True) (Watched.initial db) acts s) :
    Tags parser s :=
  hr.invariant (fun _ _ _ hi _ hs => hi.step hs) (.initial parser db)

/-- **What the acks say**, in every run: each names a tag of its channel and covers only
what was rejected or passed on before, no delivery is in two batches, and what a failure cut
short is in none and is not acked. -/
theorem tag_discipline {db : Db} {acts : List RabbitAct}
    (hr : Run (watchStep parser) (fun _ _ => True) (Watched.initial db) acts s) :
    (∀ a ∈ s.acks, a.Disciplined parser s) ∧
      (s.rabbit.log.flatMap Handover.deliveries).Nodup ∧
      ∀ d ∈ s.cutShort, ¬ Passed s.rabbit.log d ∧ ∀ a ∈ s.acks, d ∉ a.covered :=
  have h := Tags.run hr
  ⟨fun a ha => (h.acks a ha).2.2, h.once, h.lost⟩

/-- A batch acked, the next message read before the connection fails, and the broker
delivering it once more on another channel. -/
def reconnectRun : List RabbitAct :=
  ackRun smoothRun ++
    [.turn 0, .push 0 callBody, .message 0, .fail 0, .cut 0, .opens 0 true, .turn 0,
      .push 0 callBody, .message 0, .timeout 0, .consume 0 .plain (smoothRun.drop 1), .ack 0 true]

theorem tag_discipline_reconnect :
    ∃ s, Run (watchStep (Parser.csvParser '|')) (fun _ _ => True) (Watched.initial {})
        reconnectRun s ∧
      s.acks.map (fun a => (a.channel, a.tag, a.covered.length)) = [(0, 1, 1), (1, 1, 1)] ∧
      s.cutShort = [⟨0, 2, callBody⟩] ∧
      (∀ a ∈ s.acks, a.Disciplined (Parser.csvParser '|') s) ∧
      (s.rabbit.log.flatMap Handover.deliveries).Nodup ∧
      ∀ d ∈ s.cutShort, ¬ Passed s.rabbit.log d ∧ ∀ a ∈ s.acks, d ∉ a.covered := by
  have hrun : (runChecked (watchStep (Parser.csvParser '|')) (fun _ _ => true)
      (Watched.initial {}) reconnectRun).map
      (fun s => (s.acks.map (fun a => (a.channel, a.tag, a.covered.length)), s.cutShort)) =
        some ([(0, 1, 1), (1, 1, 1)], [⟨0, 2, callBody⟩]) := by decide +kernel
  obtain ⟨s, hs, hobs⟩ := Option.map_eq_some_iff.mp hrun
  obtain ⟨hacks, hcut⟩ := Prod.mk.inj hobs
  have hr := Run.of_checked (fun _ _ _ => trivial) hs
  exact ⟨s, hr, hacks, hcut, tag_discipline hr⟩

end CdrProcessor
