import CdrProcessor.Places

/-! A batch on the store: the calls of `consume` add to every counter what the
batch is worth, once each, as long as nothing leaves its bounds. -/

namespace CdrProcessor

/-! ## Writes -/

/-- The counters of the totals with their values, as they are written. -/
def totalWrites (t : Totals) : List (Counter × UInt64) :=
  TotalField.all.map fun f => (.total f, t.get f)

def scoreWrites (visit : Visit) (delta : Delta) : List (Counter × UInt64) :=
  (visit.subs delta.subs).flatMap
      (fun e => SubBoard.all.map fun b => (.subBoard e.1 b, e.2.score b)) ++
    (visit.ops delta.ops).flatMap
      (fun e => OpBoard.all.map fun b => (.opBoard e.1 b, e.2.score b))

def deltaWrites (visit : Visit) (delta : Delta) : List (Counter × UInt64) :=
  (visit.subs delta.subs).flatMap
      (fun e => SubField.all.map fun f => (.sub e.1 f, e.2.get f)) ++
    ((visit.ops delta.ops).flatMap
      (fun e => OpField.all.map fun f => (.op e.1 f, e.2.get f)) ++
    (visit.links delta.links).flatMap
      (fun e => LinkField.all.map fun f => (.link e.1.owner e.1.peer f, e.2.get f)))

/-- The calls that write a list of counters, those of value 0 left out. -/
def writeCalls (ws : List (Counter × UInt64)) : List Call :=
  (ws.filter fun w => w.2 ≠ 0).map fun w => w.1.call w.2

theorem writeCalls_append (ws ws' : List (Counter × UInt64)) :
    writeCalls (ws ++ ws') = writeCalls ws ++ writeCalls ws' := by simp [writeCalls]

/-- Key and field, or board and member. -/
def Counter.names (c : Counter) : Text × Text :=
  match c.place with
  | .hash key field => (key, field)
  | .board key member => (key, member)

/-- A write as the writers name it. -/
private def named (w : Counter × UInt64) : Text × Text × UInt64 :=
  (w.1.names.1, w.1.names.2, w.2)

private theorem incrementCalls_named {ws : List (Counter × UInt64)}
    (h : ∀ w ∈ ws, ∃ key field, w.1.place = .hash key field) :
    incrementCalls (ws.map named) = writeCalls ws := by
  unfold incrementCalls writeCalls
  rw [List.filter_map, List.map_map]
  apply List.map_congr_left
  intro w hw
  obtain ⟨key, field, hp⟩ := h w (List.mem_of_mem_filter hw)
  simp [named, Counter.call, Counter.names, hp]

private theorem rankCalls_named {ws : List (Counter × UInt64)}
    (h : ∀ w ∈ ws, ∃ key member, w.1.place = .board key member) :
    rankCalls (ws.map named) = writeCalls ws := by
  unfold rankCalls writeCalls
  rw [List.filter_map, List.map_map]
  apply List.map_congr_left
  intro w hw
  obtain ⟨key, member, hp⟩ := h w (List.mem_of_mem_filter hw)
  simp [named, Counter.call, Counter.names, hp]

/-- The calls of a batch, counter by counter. -/
theorem consumeCalls_eq (visit : Visit) (batch : List CdrRecord) (source : Text) :
    consumeCalls visit batch source =
      writeCalls (totalWrites (({} : Totals).addBatch batch)) ++ (markCalls batch source ++
        writeCalls (scoreWrites visit (fold batch {}) ++ deltaWrites visit (fold batch {}))) := by
  have h1 : incrementCalls (AggregateWriter.totalCounters (({} : Totals).addBatch batch)) =
      writeCalls (totalWrites (({} : Totals).addBatch batch)) := by
    refine Eq.trans ?_ (incrementCalls_named ?_)
    · simp [AggregateWriter.totalCounters, totalWrites, named, Counter.names, Counter.place,
        Function.comp_def]
    · intro w hw
      obtain ⟨f, -, rfl⟩ := List.mem_map.mp hw
      exact ⟨_, _, rfl⟩
  have h2 : rankCalls (RankWriter.scores visit (fold batch {})) =
      writeCalls (scoreWrites visit (fold batch {})) := by
    refine Eq.trans ?_ (rankCalls_named ?_)
    · simp only [RankWriter.scores, scoreWrites, named, Counter.names, Counter.place,
        Function.comp_def, List.map_append, List.map_flatMap, List.map_map]
      rfl
    · intro w hw
      simp only [scoreWrites, List.mem_append, List.mem_flatMap, List.mem_map] at hw
      rcases hw with ⟨e, -, b, -, rfl⟩ | ⟨e, -, b, -, rfl⟩ <;> exact ⟨_, _, rfl⟩
  have h3 : incrementCalls (AggregateWriter.deltaCounters visit (fold batch {})) =
      writeCalls (deltaWrites visit (fold batch {})) := by
    refine Eq.trans ?_ (incrementCalls_named ?_)
    · simp only [AggregateWriter.deltaCounters, deltaWrites, named, Counter.names, Counter.place,
        Function.comp_def, List.map_append, List.map_flatMap, List.map_map]
      rfl
    · intro w hw
      simp only [deltaWrites, List.mem_append, List.mem_flatMap, List.mem_map] at hw
      rcases hw with ⟨e, -, b, -, rfl⟩ | ⟨e, -, b, -, rfl⟩ | ⟨e, -, b, -, rfl⟩ <;>
        exact ⟨_, _, rfl⟩
  rw [consumeCalls, h1, h2, h3, writeCalls_append]

/-! ## What a list of writes comes to -/

/-- The values written to a counter, added up. -/
def written (ws : List (Counter × UInt64)) (c : Counter) : Nat :=
  (ws.map fun w => if w.1 = c then w.2.toNat else 0).sum

theorem written_append (ws ws' : List (Counter × UInt64)) (c : Counter) :
    written (ws ++ ws') c = written ws c + written ws' c := by simp [written]

theorem written_flatMap {α : Type} (l : List α) (g : α → List (Counter × UInt64)) (c : Counter) :
    written (l.flatMap g) c = (l.map fun e => written (g e) c).sum := by
  induction l with
  | nil => rfl
  | cons e l ih => rw [List.flatMap_cons, written_append, ih, List.map_cons, List.sum_cons]

/-- Walking a table, a counter gets the value under its own key. -/
private theorem written_entries {κ β : Type} [DecidableEq κ] [Inhabited β] (t : Table κ β)
    (l : List (Sigma fun _ : κ => β)) (hl : l.Perm t.entries)
    (g : (Sigma fun _ : κ => β) → List (Counter × UInt64)) (c : Counter) (k : κ) (v : β → UInt64)
    (hg : ∀ e, written (g e) c = if e.1 = k then (v e.2).toNat else 0)
    (h0 : v default = 0) :
    written (l.flatMap g) c = (v (t.read k)).toNat := by
  rw [written_flatMap, List.map_congr_left (fun e _ => hg e)]
  exact Table.sum_entries_read t k (fun b => (v b).toNat) (by rw [h0]; rfl) l hl

/-- The six lists of counters a batch is written from. -/
private def kindOf : Counter → Nat
  | .total _ => 0
  | .subBoard _ _ => 1
  | .opBoard _ _ => 2
  | .sub _ _ => 3
  | .op _ _ => 4
  | .link _ _ _ => 5

private theorem written_kind {ws : List (Counter × UInt64)} {n : Nat} {c : Counter}
    (h : ∀ w ∈ ws, kindOf w.1 = n) (hc : kindOf c ≠ n) : written ws c = 0 := by
  have hne : ∀ w ∈ ws, (if w.1 = c then w.2.toNat else 0) = 0 :=
    fun w hw => if_neg (fun he => hc (by rw [← he]; exact h w hw))
  unfold written
  rw [List.map_congr_left hne]
  simp

private theorem written_totals (t : Totals) (f : TotalField) :
    written (totalWrites t) (.total f) = (t.get f).toNat := by
  cases f <;> simp [written, totalWrites, TotalField.all]

private theorem written_subFields (e : Sigma fun _ : UInt64 => SubDelta) (m : UInt64)
    (f : SubField) : written (SubField.all.map fun g => (.sub e.1 g, e.2.get g)) (.sub m f) =
      if e.1 = m then (e.2.get f).toNat else 0 := by
  by_cases h : e.1 = m <;> cases f <;> simp [written, SubField.all, h]

private theorem written_opFields (e : Sigma fun _ : UInt32 => OpDelta) (k : UInt32)
    (f : OpField) : written (OpField.all.map fun g => (.op e.1 g, e.2.get g)) (.op k f) =
      if e.1 = k then (e.2.get f).toNat else 0 := by
  by_cases h : e.1 = k <;> cases f <;> simp [written, OpField.all, h]

private theorem written_linkFields (e : Sigma fun _ : LinkKey => LinkDelta) (a b : UInt64)
    (f : LinkField) :
    written (LinkField.all.map fun g => (.link e.1.owner e.1.peer g, e.2.get g)) (.link a b f) =
      if e.1 = ⟨a, b⟩ then (e.2.get f).toNat else 0 := by
  obtain ⟨⟨x, y⟩, l⟩ := e
  by_cases ha : x = a <;> by_cases hb : y = b <;> cases f <;>
    simp [written, LinkField.all, ha, hb]

private theorem written_subBoards (e : Sigma fun _ : UInt64 => SubDelta) (m : UInt64)
    (b : SubBoard) : written (SubBoard.all.map fun b => (.subBoard e.1 b, e.2.score b))
      (.subBoard m b) = if e.1 = m then (e.2.score b).toNat else 0 := by
  by_cases h : e.1 = m <;> cases b <;> simp [written, SubBoard.all, h]

private theorem written_opBoards (e : Sigma fun _ : UInt32 => OpDelta) (k : UInt32)
    (b : OpBoard) : written (OpBoard.all.map fun b => (.opBoard e.1 b, e.2.score b))
      (.opBoard k b) = if e.1 = k then (e.2.score b).toNat else 0 := by
  by_cases h : e.1 = k <;> cases b <;> simp [written, OpBoard.all, h]

/-- Everything a batch writes, the mark apart. -/
def batchWrites (visit : Visit) (batch : List CdrRecord) : List (Counter × UInt64) :=
  totalWrites (({} : Totals).addBatch batch) ++
    (scoreWrites visit (fold batch {}) ++ deltaWrites visit (fold batch {}))

/-- **Every counter is written its value**, whatever order the maps are walked in. -/
theorem written_batch (visit : Visit) (batch : List CdrRecord) (c : Counter) :
    written (batchWrites visit batch) c = (batchValue batch c).toNat := by
  have h0 : ∀ t : Totals, kindOf c ≠ 0 → written (totalWrites t) c = 0 := by
    intro t
    apply written_kind
    intro w hw
    obtain ⟨f, -, rfl⟩ := List.mem_map.mp hw
    rfl
  -- a list built entry by entry from one kind of counter
  have hn : ∀ {α β : Type} (n : Nat) (l : List α) (fs : List β) (g : α → β → Counter × UInt64),
      (∀ e f, kindOf (g e f).1 = n) → kindOf c ≠ n →
      written (l.flatMap fun e => fs.map (g e)) c = 0 := by
    intro α β n l fs g hg
    apply written_kind
    intro w hw
    simp only [List.mem_flatMap, List.mem_map] at hw
    obtain ⟨e, -, f, -, rfl⟩ := hw
    exact hg e f
  have z1 : kindOf c ≠ 1 → written ((visit.subs (fold batch {}).subs).flatMap
      fun e => SubBoard.all.map fun b => (.subBoard e.1 b, e.2.score b)) c = 0 :=
    hn 1 _ _ _ (fun _ _ => rfl)
  have z2 : kindOf c ≠ 2 → written ((visit.ops (fold batch {}).ops).flatMap
      fun e => OpBoard.all.map fun b => (.opBoard e.1 b, e.2.score b)) c = 0 :=
    hn 2 _ _ _ (fun _ _ => rfl)
  have z3 : kindOf c ≠ 3 → written ((visit.subs (fold batch {}).subs).flatMap
      fun e => SubField.all.map fun f => (.sub e.1 f, e.2.get f)) c = 0 :=
    hn 3 _ _ _ (fun _ _ => rfl)
  have z4 : kindOf c ≠ 4 → written ((visit.ops (fold batch {}).ops).flatMap
      fun e => OpField.all.map fun f => (.op e.1 f, e.2.get f)) c = 0 :=
    hn 4 _ _ _ (fun _ _ => rfl)
  have z5 : kindOf c ≠ 5 → written ((visit.links (fold batch {}).links).flatMap
      fun e => LinkField.all.map fun f => (.link e.1.owner e.1.peer f, e.2.get f)) c = 0 :=
    hn 5 _ _ _ (fun _ _ => rfl)
  unfold batchWrites scoreWrites deltaWrites
  rw [written_append, written_append, written_append, written_append, written_append]
  cases c with
  | total f =>
    rw [written_totals, z1 (by simp [kindOf]),
      z2 (by simp [kindOf]), z3 (by simp [kindOf]),
      z4 (by simp [kindOf]), z5 (by simp [kindOf])]
    rfl
  | subBoard m b =>
    rw [h0 _ (by simp [kindOf]), z2 (by simp [kindOf]),
      z3 (by simp [kindOf]), z4 (by simp [kindOf]),
      z5 (by simp [kindOf]),
      written_entries _ _ (visit.subs_perm _) _ _ m (fun s => s.score b)
        (fun e => written_subBoards e m b) (by cases b <;> rfl)]
    simp [batchValue, countedValue]
  | opBoard k b =>
    rw [h0 _ (by simp [kindOf]), z1 (by simp [kindOf]),
      z3 (by simp [kindOf]), z4 (by simp [kindOf]),
      z5 (by simp [kindOf]),
      written_entries _ _ (visit.ops_perm _) _ _ k (fun s => s.score b)
        (fun e => written_opBoards e k b) (by cases b <;> rfl)]
    simp [batchValue, countedValue]
  | sub m f =>
    rw [h0 _ (by simp [kindOf]), z1 (by simp [kindOf]),
      z2 (by simp [kindOf]), z4 (by simp [kindOf]),
      z5 (by simp [kindOf]),
      written_entries _ _ (visit.subs_perm _) _ _ m (fun s => s.get f)
        (fun e => written_subFields e m f) (by cases f <;> rfl)]
    simp [batchValue, countedValue]
  | op k f =>
    rw [h0 _ (by simp [kindOf]), z1 (by simp [kindOf]),
      z2 (by simp [kindOf]), z3 (by simp [kindOf]),
      z5 (by simp [kindOf]),
      written_entries _ _ (visit.ops_perm _) _ _ k (fun s => s.get f)
        (fun e => written_opFields e k f) (by cases f <;> rfl)]
    simp [batchValue, countedValue]
  | link a b f =>
    rw [h0 _ (by simp [kindOf]), z1 (by simp [kindOf]),
      z2 (by simp [kindOf]), z3 (by simp [kindOf]),
      z4 (by simp [kindOf]),
      written_entries _ _ (visit.links_perm _) _ _ ⟨a, b⟩ (fun s => s.get f)
        (fun e => written_linkFields e a b f) (by cases f <;> rfl)]
    simp [batchValue, countedValue]

/-! ## On the store -/

variable {σ : Type}

theorem runAll_append (srv : Server σ) (cs cs' : List Command) (s : σ) :
    runAll srv (cs ++ cs') s =
      ((runAll srv cs s).1 ++ (runAll srv cs' (runAll srv cs s).2).1,
        (runAll srv cs' (runAll srv cs s).2).2) := by
  induction cs generalizing s with
  | nil => rfl
  | cons c cs ih => simp [runAll, ih]

/-- A counter call changes its own place alone, also when it is refused. -/
theorem run_call_other (c : Counter) (v : UInt64) (db : Db) {p : Place} (hp : p ≠ c.place) :
    (redis.run (c.call v).command db).2.value p = db.value p := by
  cases hrun : runCommand (c.call v).command db with
  | none => rw [redis_run_refused hrun]
  | some db' =>
    rw [redis_run hrun]
    unfold Counter.call at hrun
    cases hc : c.place with
    | hash key field =>
      rw [hc] at hp hrun
      simp only [Call.command, runCommand] at hrun
      split at hrun
      · cases hrun
        cases p with
        | board key' member' => rfl
        | hash key' field' =>
          refine (put_value db.hash key field key' field' _).trans (if_neg ?_)
          rintro ⟨rfl, rfl⟩
          exact hp rfl
      · cases hrun
    | board key member =>
      rw [hc] at hp hrun
      cases hrun
      cases p with
      | hash key' field' => rfl
      | board key' member' =>
        refine (put_value db.board key member key' member' _).trans (if_neg ?_)
        rintro ⟨rfl, rfl⟩
        exact hp rfl

/-- So does a list of them. -/
theorem runAll_writes_other (ws : List (Counter × UInt64)) (db : Db) {p : Place}
    (hp : ∀ w ∈ ws, p ≠ w.1.place) :
    (runAll redis ((writeCalls ws).map Call.command) db).2.value p = db.value p := by
  have hp' : ∀ w ∈ ws.filter fun w => w.2 ≠ 0, p ≠ w.1.place :=
    fun w hw => hp w (List.mem_of_mem_filter hw)
  unfold writeCalls
  revert hp'
  induction ws.filter fun w => w.2 ≠ 0 generalizing db with
  | nil => exact fun _ => rfl
  | cons w ws ih =>
    intro hp'
    exact (ih _ fun w' hw' => hp' w' (List.mem_cons_of_mem _ hw')).trans
      (run_call_other w.1 w.2 db (hp' w List.mem_cons_self))

/-- Writes within bounds all succeed, and every counter goes up by what is written to it. -/
theorem runAll_writes (ws : List (Counter × UInt64)) (db : Db)
    (h : ∀ c, written ws c ≠ 0 → db.count c.place + written ws c < c.bound) :
    ∃ db', runAll redis ((writeCalls ws).map Call.command) db =
        ((writeCalls ws).map fun c => (c.command, true), db') ∧
      ∀ c, db'.value c.place = if written ws c = 0 then db.value c.place
        else some (db.count c.place + written ws c) := by
  induction ws generalizing db with
  | nil => exact ⟨db, rfl, fun _ => rfl⟩
  | cons w ws ih =>
    obtain ⟨d, v⟩ := w
    have hcons : ∀ c, written ((d, v) :: ws) c = (if d = c then v.toNat else 0) + written ws c :=
      fun c => by simp [written]
    by_cases hv : v = 0
    · -- a value of 0 is not written at all
      subst hv
      have hz : ∀ c, written ((d, 0) :: ws) c = written ws c := fun c => by simp [hcons]
      have hcalls : writeCalls ((d, 0) :: ws) = writeCalls ws := by simp [writeCalls]
      simp only [hz, hcalls] at h ⊢
      exact ih db h
    · have hv0 : v.toNat ≠ 0 := fun h0 => hv (UInt64.toNat.inj h0)
      have hcalls : writeCalls ((d, v) :: ws) = d.call v :: writeCalls ws := by
        simp [writeCalls, hv]
      have hd := h d (by rw [hcons, if_pos rfl]; omega)
      rw [hcons, if_pos rfl] at hd
      obtain ⟨db1, hrun, hval⟩ := @runCommand_call db d v (by omega)
      have hval' : ∀ c : Counter, db1.value c.place =
          if c = d then some (db.count d.place + v.toNat) else db.value c.place := by
        intro c
        rw [hval]
        by_cases hc : c = d
        · rw [if_pos (by rw [hc]), if_pos hc]
        · rw [if_neg (fun hp => hc (place_injective hp)), if_neg hc]
      have hcount : ∀ c : Counter, db1.count c.place =
          db.count c.place + (if d = c then v.toNat else 0) := by
        intro c
        unfold Db.count
        rw [hval']
        by_cases hc : c = d
        · subst hc; rw [if_pos rfl, if_pos rfl]; rfl
        · rw [if_neg hc, if_neg (Ne.symm hc), Nat.add_zero]
      obtain ⟨db', hr, hv'⟩ := ih db1 (by
        intro c hc
        have := h c (by rw [hcons]; omega)
        rw [hcons] at this
        rw [hcount]
        omega)
      refine ⟨db', ?_, ?_⟩
      · rw [hcalls]
        simp only [List.map_cons, runAll, redis_run hrun, hr]
      · intro c
        rw [hv', hval', hcount, hcons]
        by_cases hc : c = d
        · subst hc
          rw [if_pos rfl, if_pos rfl, if_neg (by omega : v.toNat + written ws c ≠ 0)]
          split <;> congr 1 <;> omega
        · rw [if_neg hc, if_neg (Ne.symm hc), Nat.add_zero, Nat.zero_add]

/-! ## A whole batch -/

/-- The store has room for what a batch adds. -/
def Fits (db : Db) (batch : List CdrRecord) : Prop :=
  ∀ c, amount batch c ≠ 0 → db.count c.place + amount batch c < c.bound

/-- The counters a record may add to. -/
def touched (r : CdrRecord) : List Counter :=
  SubField.all.map (.sub r.subscriberMSISDN) ++ (SubBoard.all.map (.subBoard r.subscriberMSISDN) ++
    (OpField.all.map (.op (mccmncOf r)) ++ (OpBoard.all.map (.opBoard (mccmncOf r)) ++
      (LinkField.all.map (.link r.subscriberMSISDN r.secondPartyMSISDN) ++
        (LinkField.all.map (.link r.secondPartyMSISDN r.subscriberMSISDN) ++
          TotalField.all.map .total)))))

theorem mem_touched {r : CdrRecord} {c : Counter} (h : adds r c ≠ 0) : c ∈ touched r := by
  have hsub : ∀ m f, subPart r m f ≠ 0 → r.subscriberMSISDN = m := by
    intro m f hp
    by_contra hm
    exact hp (if_neg fun hc => hm hc.2)
  have hop : ∀ k f, opPart r k f ≠ 0 → mccmncOf r = k := by
    intro k f hp
    by_contra hk
    exact hp (if_neg fun hc => hk hc.2.2)
  unfold touched
  simp only [List.mem_append, List.mem_map]
  cases c with
  | sub m f => exact .inl ⟨f, by cases f <;> decide, by rw [hsub m f h]⟩
  | subBoard m b =>
    have hm : r.subscriberMSISDN = m := by
      by_contra hm
      have h0 : ∀ f, subPart r m f = 0 := fun f => not_not.mp fun hp => hm (hsub m f hp)
      cases b <;> simp [adds, h0] at h
    exact .inr (.inl ⟨b, by cases b <;> decide, by rw [hm]⟩)
  | op k f => exact .inr (.inr (.inl ⟨f, by cases f <;> decide, by rw [hop k f h]⟩))
  | opBoard k b =>
    have hk : mccmncOf r = k := by
      by_contra hk
      have h0 : ∀ f, opPart r k f = 0 := fun f => not_not.mp fun hp => hk (hop k f hp)
      cases b <;> simp [adds, h0] at h
    exact .inr (.inr (.inr (.inl ⟨b, by cases b <;> decide, by rw [hk]⟩)))
  | link a b f =>
    have hf : f ∈ LinkField.all := by cases f <;> decide
    by_cases h1 : r.subscriberMSISDN = a ∧ r.secondPartyMSISDN = b
    · obtain ⟨rfl, rfl⟩ := h1
      exact .inr (.inr (.inr (.inr (.inl ⟨f, hf, rfl⟩))))
    · by_cases h2 : r.secondPartyMSISDN = a ∧ r.subscriberMSISDN = b
      · obtain ⟨rfl, rfl⟩ := h2
        exact .inr (.inr (.inr (.inr (.inr (.inl ⟨f, hf, rfl⟩)))))
      · simp [adds, linkPart, h1, h2] at h
  | total f =>
    exact .inr (.inr (.inr (.inr (.inr (.inr ⟨f, TotalField.mem_all f, rfl⟩)))))

theorem mem_flatMap_touched {batch : List CdrRecord} {c : Counter} (h : amount batch c ≠ 0) :
    c ∈ batch.flatMap touched := by
  induction batch with
  | nil => exact absurd rfl h
  | cons r batch ih =>
    rw [List.flatMap_cons, List.mem_append]
    by_cases hr : adds r c = 0
    · rw [amount_cons, hr, Nat.zero_add] at h
      exact .inr (ih h)
    · exact .inl (mem_touched hr)

/-- Only the counters its records name have to be looked at. -/
instance (db : Db) (batch : List CdrRecord) : Decidable (Fits db batch) :=
  decidable_of_iff (∀ c ∈ batch.flatMap touched, amount batch c ≠ 0 →
      db.count c.place + amount batch c < c.bound)
    ⟨fun h c hc => h c (mem_flatMap_touched hc) hc, fun h c _ => h c⟩

theorem bound_le (c : Counter) : c.bound ≤ 2 ^ 63 := by
  unfold Counter.bound
  split
  · exact le_refl _
  · exact Nat.pow_le_pow_right (by decide) (by decide)

theorem le_bound (c : Counter) : 2 ^ 53 ≤ c.bound := by
  unfold Counter.bound
  split
  · decide
  · exact le_refl _

theorem Fits.toNat {db : Db} {batch : List CdrRecord} (h : Fits db batch) (c : Counter) :
    (batchValue batch c).toNat = amount batch c := by
  apply batchValue_toNat
  by_cases h0 : amount batch c = 0
  · rw [h0]; decide
  · have := h c h0
    have := bound_le c
    omega

/-- What a batch leaves under the mark of a source. -/
def marked (batch : List CdrRecord) (source : Text) (db : Db) (s : Text) : Option Nat :=
  if s = source ∧ source ≠ [] ∧ AggregateSink.highest batch ≠ 0 then
    some (AggregateSink.highest batch).toNat
  else db.value (markPlace s)

theorem markCalls_value (batch : List CdrRecord) (source : Text) (db : Db) :
    ∃ db', runAll redis ((markCalls batch source).map Call.command) db =
        ((markCalls batch source).map fun c => (c.command, true), db') ∧
      (∀ c : Counter, db'.value c.place = db.value c.place) ∧
      ∀ s, db'.value (markPlace s) = marked batch source db s := by
  unfold markCalls marked
  split
  · next hc =>
    obtain ⟨db', hr, hv⟩ := runCommand_mark db source (AggregateSink.highest batch)
    refine ⟨db', ?_, ?_, ?_⟩
    · simp only [List.map_cons, List.map_nil, runAll, redis_run hr]
    · intro c
      rw [hv, if_neg (Ne.symm (mark_ne_place source c))]
    · intro s
      rw [hv]
      by_cases hs : s = source
      · rw [if_pos (by rw [hs]), if_pos ⟨hs, hc⟩]
      · rw [if_neg (by simpa [markPlace] using hs), if_neg (fun h => hs h.1)]
  · next hc =>
    refine ⟨db, rfl, fun _ => rfl, fun s => ?_⟩
    rw [if_neg (fun h => hc h.2)]

/-- Whether or not the counters fit, a batch run whole leaves its mark, and no other. -/
theorem batch_mark (visit : Visit) (batch : List CdrRecord) (source : Text) (db : Db) (s : Text) :
    (runAll redis ((consumeCalls visit batch source).map Call.command) db).2.value (markPlace s) =
      marked batch source db s := by
  obtain ⟨db', hr, -, hm⟩ := markCalls_value batch source
    (runAll redis ((writeCalls (totalWrites (({} : Totals).addBatch batch))).map Call.command) db).2
  rw [consumeCalls_eq, List.map_append, List.map_append, runAll_append, runAll_append,
    runAll_writes_other _ _ (fun w _ => mark_ne_place s w.1), hr, hm]
  unfold marked
  rw [runAll_writes_other _ _ fun w _ => mark_ne_place s w.1]

/-- A batch touches nothing but counters and marks. -/
theorem batch_other (visit : Visit) (batch : List CdrRecord) (source : Text) (db : Db) {p : Place}
    (hc : ∀ c : Counter, p ≠ c.place) (hm : p ≠ markPlace source) :
    (runAll redis ((consumeCalls visit batch source).map Call.command) db).2.value p =
      db.value p := by
  rw [consumeCalls_eq, List.map_append, List.map_append, runAll_append, runAll_append,
    runAll_writes_other _ _ fun w _ => hc w.1]
  unfold markCalls
  split
  · obtain ⟨db', hr, hv⟩ := runCommand_mark (runAll redis ((writeCalls
      (totalWrites (({} : Totals).addBatch batch))).map Call.command) db).2 source
      (AggregateSink.highest batch)
    simp only [List.map_cons, List.map_nil, runAll, redis_run hr]
    rw [hv, if_neg hm, runAll_writes_other _ _ (fun w _ => hc w.1)]
  · exact runAll_writes_other _ _ fun w _ => hc w.1

/-- **A batch that fits.**  Every command succeeds, every counter goes up by what the
batch is worth to it, and those it is worth nothing to stay as they are. -/
theorem batch_deposit (visit : Visit) {batch : List CdrRecord} (source : Text) {db : Db}
    (hf : Fits db batch) :
    ∃ db', runAll redis ((consumeCalls visit batch source).map Call.command) db =
        ((consumeCalls visit batch source).map fun c => (c.command, true), db') ∧
      ∀ c, db'.value c.place = if amount batch c = 0 then db.value c.place
        else some (db.count c.place + amount batch c) := by
  have hw : ∀ c, written (totalWrites (({} : Totals).addBatch batch)) c +
      written (scoreWrites visit (fold batch {}) ++ deltaWrites visit (fold batch {})) c =
        amount batch c := by
    intro c
    rw [← written_append, ← hf.toNat]
    exact written_batch visit batch c
  obtain ⟨db1, hr1, hv1⟩ := runAll_writes (totalWrites (({} : Totals).addBatch batch)) db (by
    intro c hc
    have := hf c (by have := hw c; omega)
    have := hw c
    omega)
  obtain ⟨db2, hr2, hv2, -⟩ := markCalls_value batch source db1
  have hcount : ∀ c : Counter, db2.count c.place = db.count c.place +
      written (totalWrites (({} : Totals).addBatch batch)) c := by
    intro c
    unfold Db.count
    rw [hv2, hv1]
    split
    · next h0 => rw [h0, Nat.add_zero]
    · rfl
  obtain ⟨db3, hr3, hv3⟩ := runAll_writes
    (scoreWrites visit (fold batch {}) ++ deltaWrites visit (fold batch {})) db2 (by
      intro c hc
      have := hf c (by have := hw c; omega)
      have := hw c
      rw [hcount]
      omega)
  refine ⟨db3, ?_, ?_⟩
  · rw [consumeCalls_eq, List.map_append, List.map_append, runAll_append, runAll_append, hr1, hr2,
      hr3]
    simp
  · intro c
    rw [hv3, hv2, hv1, hcount, ← hw c]
    split
    · next h3 => rw [h3, Nat.add_zero]
    · next h3 => rw [if_neg (by omega), Nat.add_assoc]

end CdrProcessor
