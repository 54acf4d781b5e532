import CdrProcessor.Lib.Run
import CdrProcessor.QueryStore
import Mathlib.Logic.Function.Basic

/-! `RedisQuery` over `RedisConn`: threads that read one server, each over a connection of its
own, while others write to it.  A connection may be refused, a reply may stay away, and what
was asked on a connection that is given up may still be served. -/

namespace CdrProcessor

/-- `redisReply`, by its type; an element of an array is a string or is none. -/
inductive RedisReply where
  | string (str : Text)
  | array (elements : List (Option Text))
  | integer (n : Nat)
  | nil
  | error
  deriving DecidableEq, Repr

/-! ## What is made of a reply -/

namespace RedisQuery

/-- `RedisQuery::element_str`. -/
def elementStr (element : Option Text) : Text := element.getD []

/-- The end of `RedisQuery::command`: an error is taken for a store out of reach. -/
def accepted : Option RedisReply → Option RedisReply
  | some .error => none
  | reply => reply

/-- The loop of `hgetall` over the elements. -/
def fieldPairs : List (Option Text) → List (Text × Text)
  | field :: value :: rest => (elementStr field, elementStr value) :: fieldPairs rest
  | _ => []

/-- What `hgetall` fills in. -/
def pairsOf : RedisReply → List (Text × Text)
  | .array elements => fieldPairs elements
  | _ => []

/-- What `dbsize` fills in. -/
def integerOf : RedisReply → UInt64
  | .integer n => .ofNat n
  | _ => 0

/-- The loop of `hkeys` and `hmget`. -/
def strings : RedisReply → List Text
  | .array elements => elements.map elementStr
  | _ => []

/-- The reads of `RedisQuery`, one command each, over what the commands are answered with. -/
def store (ask : Nat → List Text → Option RedisReply) : IQueryStore where
  hgetall n key := (accepted (ask n ["HGETALL".toList, key])).map pairsOf
  hkeys n key := (accepted (ask n ["HKEYS".toList, key])).map strings
  hmget n key fields :=
    if fields = [] then some []
    else (accepted (ask n ("HMGET".toList :: key :: fields))).map strings

/-- `RedisQuery::dbsize`. -/
def dbsize (ask : Nat → List Text → Option RedisReply) (n : Nat) : Option UInt64 :=
  (accepted (ask n ["DBSIZE".toList])).map integerOf

/-! ## Threads -/

/-- A connection: the commands the server has not come to, and the replies not read. -/
structure Wire where
  requests : List (List Text) := []
  replies : List RedisReply := []
  deriving DecidableEq, Repr

/-- A history of one `command`: what came back, nothing for a null pointer, and the moments
at which it was sent and came back. -/
structure Answer where
  argv : List Text
  reply : Option RedisReply
  sent : Nat
  got : Nat
  deriving DecidableEq, Repr

/-- The thread-local connection, the command under way, and what all before it came to. -/
structure Thread where
  ctx : Option Wire := none
  waiting : Option (List Text × Nat) := none
  answers : List Answer := []

/-- `moments` is a history of what the server holds, the last being now. -/
structure System (σ : Type) where
  past : List σ := []
  content : σ
  threads : Nat → Thread := fun _ => {}

variable {σ : Type}

def System.moments (s : System σ) : List σ := s.past ++ [s.content]

/-- The moment it is. -/
def System.now (s : System σ) : Nat := s.past.length

def System.set (s : System σ) (t : Nat) (thread : Thread) : System σ :=
  { s with threads := Function.update s.threads t thread }

inductive Act (σ : Type) where
  /-- Someone else changes what the server holds. -/
  | write (content : σ)
  /-- `RedisConn::get` opens a connection. -/
  | connect (t : Nat)
  /-- `RedisConn::get` has none to hand out. -/
  | refused (t : Nat) (argv : List Text)
  /-- `redisCommandArgv` sends. -/
  | command (t : Nat) (argv : List Text)
  /-- The server answers the oldest command of a connection. -/
  | serve (t : Nat) (reply : RedisReply)
  /-- `redisCommandArgv` returns the oldest reply. -/
  | returns (t : Nat)
  /-- `redisCommandArgv` returns a null pointer, and the connection is dropped. -/
  | fails (t : Nat)
  deriving Repr

/-- The call of a thread comes back. -/
def Thread.answered (thread : Thread) (ctx : Option Wire) (answer : Answer) : Thread :=
  { ctx, waiting := none, answers := thread.answers ++ [answer] }

def step (s : System σ) : Act σ → Option (System σ)
  | .write content => some { s with past := s.moments, content }
  | .connect t =>
    let thread := s.threads t
    if thread.ctx = none ∧ thread.waiting = none then some (s.set t { thread with ctx := some {} })
    else none
  | .refused t argv =>
    let thread := s.threads t
    if thread.ctx = none ∧ thread.waiting = none then
      some (s.set t (thread.answered none ⟨argv, none, s.now, s.now⟩))
    else none
  | .command t argv =>
    let thread := s.threads t
    match thread.ctx, thread.waiting with
    | some wire, none =>
      some (s.set t { thread with
        ctx := some { wire with requests := wire.requests ++ [argv] }
        waiting := some (argv, s.now) })
    | _, _ => none
  | .serve t reply =>
    let thread := s.threads t
    match thread.ctx with
    | some ⟨_ :: requests, replies⟩ =>
      some (s.set t { thread with ctx := some ⟨requests, replies ++ [reply]⟩ })
    | _ => none
  | .returns t =>
    let thread := s.threads t
    match thread.ctx, thread.waiting with
    | some ⟨requests, reply :: replies⟩, some (argv, sent) =>
      some (s.set t (thread.answered (some ⟨requests, replies⟩) ⟨argv, some reply, sent, s.now⟩))
    | _, _ => none
  | .fails t =>
    let thread := s.threads t
    match thread.waiting with
    | some (argv, sent) => some (s.set t (thread.answered none ⟨argv, none, sent, s.now⟩))
    | none => none

/-- The oldest command on the connection of a thread. -/
def System.oldest (s : System σ) (t : Nat) : Option (List Text) :=
  (s.threads t).ctx.bind fun wire => wire.requests.head?

/-- The server answers from what it holds. -/
def Truthful (replies : σ → List Text → RedisReply → Prop) (s : System σ) : Act σ → Prop
  | .serve t reply => ∀ argv, s.oldest t = some argv → replies s.content argv reply
  | _ => True

/-! ## One command at a time -/

variable {replies : σ → List Text → RedisReply → Prop}

/-- What came back is the reply to this command, at some moment between the two. -/
def TrueBetween (replies : σ → List Text → RedisReply → Prop) (moments : List σ)
    (sent got : Nat) (argv : List Text) (reply : RedisReply) : Prop :=
  ∃ i content, sent ≤ i ∧ i ≤ got ∧ moments[i]? = some content ∧ replies content argv reply

theorem TrueBetween.mono {past : List σ} {sent got got' : Nat} {argv : List Text}
    {reply : RedisReply} (h : TrueBetween replies past sent got argv reply) (later : List σ)
    (hgot : got ≤ got') : TrueBetween replies (past ++ later) sent got' argv reply := by
  obtain ⟨i, content, hs, hg, hi, hreply⟩ := h
  refine ⟨i, content, hs, hg.trans hgot, ?_, hreply⟩
  rw [List.getElem?_append_left (List.getElem?_eq_some_iff.mp hi).1]
  exact hi

/-- A thread between two acts: a connection without a command under way is empty, and one with
it holds that command or the reply to it. -/
structure Orderly (replies : σ → List Text → RedisReply → Prop) (moments : List σ) (now : Nat)
    (thread : Thread) : Prop where
  idle : thread.waiting = none → ∀ wire, thread.ctx = some wire → wire = {}
  busy : ∀ argv sent, thread.waiting = some (argv, sent) → sent ≤ now ∧
    (∀ a ∈ thread.answers, a.got ≤ sent) ∧
    (thread.ctx = some ⟨[argv], []⟩ ∨ ∃ reply, thread.ctx = some ⟨[], [reply]⟩ ∧
      TrueBetween replies moments sent now argv reply)
  answers : ∀ a ∈ thread.answers, a.got ≤ now ∧ ∀ reply, a.reply = some reply →
    TrueBetween replies moments a.sent a.got a.argv reply
  /-- One command has come back before the next is sent. -/
  order : thread.answers.Pairwise fun a b => a.got ≤ b.sent

theorem Orderly.start (moments : List σ) (now : Nat) : Orderly replies moments now {} where
  idle _ _ h := by cases h
  busy _ _ h := by cases h
  answers _ h := absurd h List.not_mem_nil
  order := .nil

/-- Time goes on. -/
theorem Orderly.later {moments : List σ} {now : Nat} {thread : Thread}
    (h : Orderly replies moments now thread) (content : σ) :
    Orderly replies (moments ++ [content]) (now + 1) thread where
  idle := h.idle
  busy argv sent hw := by
    obtain ⟨hsent, hbefore, hctx⟩ := h.busy argv sent hw
    refine ⟨by omega, hbefore, hctx.imp id ?_⟩
    rintro ⟨reply, hctx, htrue⟩
    exact ⟨reply, hctx, htrue.mono _ (Nat.le_succ now)⟩
  answers a ha := by
    obtain ⟨hgot, htrue⟩ := h.answers a ha
    exact ⟨by omega, fun reply hr => (htrue reply hr).mono _ (le_refl _)⟩
  order := h.order

/-- A call comes back with the connection gone, or empty and in order. -/
theorem Orderly.answered {moments : List σ} {now : Nat} {thread : Thread} {ctx : Option Wire}
    {answer : Answer} (h : Orderly replies moments now thread)
    (hctx : ctx = none ∨ ctx = some {}) (hgot : answer.got = now)
    (hbefore : ∀ a ∈ thread.answers, a.got ≤ answer.sent)
    (htrue : ∀ reply, answer.reply = some reply →
      TrueBetween replies moments answer.sent answer.got answer.argv reply) :
    Orderly replies moments now (thread.answered ctx answer) where
  idle _ wire hw := by
    rcases hctx with rfl | rfl
    · cases hw
    · exact (Option.some.inj hw).symm
  busy _ _ hw := by cases hw
  answers a ha := by
    rcases List.mem_append.mp ha with ha | ha
    · exact h.answers a ha
    · obtain rfl := List.mem_singleton.mp ha
      exact ⟨hgot.le, htrue⟩
  order := by
    refine List.pairwise_append.mpr ⟨h.order, List.pairwise_singleton _ _, fun a ha b hb => ?_⟩
    rw [List.mem_singleton.mp hb]
    exact hbefore a ha

/-- Every thread is in order. -/
def System.Orderly (replies : σ → List Text → RedisReply → Prop) (s : System σ) : Prop :=
  ∀ t, RedisQuery.Orderly replies s.moments s.now (s.threads t)

theorem System.Orderly.set {s : System σ} (h : s.Orderly replies) {t : Nat} {thread : Thread}
    (ht : RedisQuery.Orderly replies s.moments s.now thread) : (s.set t thread).Orderly replies := by
  intro t'
  change RedisQuery.Orderly replies s.moments s.now (Function.update s.threads t thread t')
  by_cases htt : t' = t
  · rw [htt, Function.update_self]
    exact ht
  · rw [Function.update_of_ne htt]
    exact h t'

/-- **One act** keeps every thread in order. -/
theorem System.Orderly.step {s s' : System σ} {act : Act σ} (h : s.Orderly replies)
    (htruth : Truthful replies s act) (hstep : RedisQuery.step s act = some s') :
    s'.Orderly replies := by
  cases act with
  | write content =>
    cases hstep
    intro t
    have hnow : (s.past ++ [s.content]).length = s.now + 1 := by
      rw [List.length_append]
      rfl
    have hlater := (h t).later content
    rw [← hnow] at hlater
    exact hlater
  | connect t =>
    rw [RedisQuery.step] at hstep
    split at hstep
    · next hidle =>
      cases hstep
      refine h.set ⟨fun _ wire hw => (Option.some.inj hw).symm, fun argv sent hw => ?_,
        (h t).answers, (h t).order⟩
      rw [show (s.threads t).waiting = some (argv, sent) from hw] at hidle
      cases hidle.2
    · cases hstep
  | refused t argv =>
    rw [RedisQuery.step] at hstep
    split at hstep
    · cases hstep
      exact h.set ((h t).answered (.inl rfl) rfl (fun a ha => ((h t).answers a ha).1)
        fun reply hr => by cases hr)
    · cases hstep
  | command t argv =>
    rw [RedisQuery.step] at hstep
    split at hstep
    · next wire hctx hwait =>
      cases hstep
      obtain rfl := (h t).idle hwait wire hctx
      refine h.set ⟨fun hw => ?_, fun argv' sent hw => ?_, (h t).answers, (h t).order⟩
      · cases hw
      · cases hw
        exact ⟨le_refl _, fun a ha => ((h t).answers a ha).1, .inl rfl⟩
    · cases hstep
  | serve t reply =>
    rw [RedisQuery.step] at hstep
    split at hstep
    · next argv requests served hctx =>
      cases hstep
      have hold : s.oldest t = some argv := by
        rw [System.oldest, hctx]
        rfl
      cases hwait : (s.threads t).waiting with
      | none => cases (h t).idle hwait _ hctx
      | some call =>
        obtain ⟨asked, sent⟩ := call
        obtain ⟨hsent, hbefore, hbusy⟩ := (h t).busy asked sent hwait
        rw [hctx] at hbusy
        rcases hbusy with hone | ⟨reply', hone, -⟩
        · cases hone
          refine h.set ⟨fun hw => ?_, fun argv' sent' hw => ?_, (h t).answers, (h t).order⟩
          · cases hw
          · cases hw
            refine ⟨hsent, hbefore, .inr ⟨reply, rfl, s.now, s.content, hsent, le_refl _, ?_,
              htruth _ hold⟩⟩
            exact List.getElem?_concat_length
        · cases hone
    · cases hstep
  | returns t =>
    rw [RedisQuery.step] at hstep
    split at hstep
    · next requests reply served argv sent hctx hwait =>
      cases hstep
      obtain ⟨hsent, hbefore, hbusy⟩ := (h t).busy argv sent hwait
      rw [hctx] at hbusy
      rcases hbusy with hone | ⟨reply', hone, htrue⟩
      · cases hone
      · cases hone
        refine h.set ((h t).answered (.inr rfl) rfl hbefore fun reply hr => ?_)
        cases hr
        exact htrue
    · cases hstep
  | fails t =>
    rw [RedisQuery.step] at hstep
    split at hstep
    · next argv sent hwait =>
      cases hstep
      obtain ⟨hsent, hbefore, -⟩ := (h t).busy argv sent hwait
      exact h.set ((h t).answered (.inl rfl) rfl hbefore fun reply hr => by cases hr)
    · cases hstep

theorem System.Orderly.run {content : σ} {s : System σ} {acts : List (Act σ)}
    (h : Run RedisQuery.step (Truthful replies) { content } acts s) : s.Orderly replies := by
  have hkept : ∀ (s : System σ) act s', s.Orderly replies → Truthful replies s act →
      RedisQuery.step s act = some s' → s'.Orderly replies := fun _ _ _ hinv ha hs => hinv.step ha hs
  exact h.invariant hkept fun _ => .start _ _

/-- **Reads are of a moment.**  However the threads interleave with each other and with those
who write, whatever connections are refused or given up with a reply outstanding: what comes
back to a thread is the reply to the command it sent, from what the server held at a moment
between sending it and its return, and the commands of a thread follow one another. -/
theorem answers_of_a_moment {content : σ} {s : System σ} {acts : List (Act σ)}
    (h : Run step (Truthful replies) { content } acts s) (t : Nat) :
    (∀ a ∈ (s.threads t).answers, ∀ reply, a.reply = some reply →
      ∃ i moment, a.sent ≤ i ∧ i ≤ a.got ∧ s.moments[i]? = some moment ∧
        replies moment a.argv reply) ∧
    (s.threads t).answers.Pairwise fun a b => a.got ≤ b.sent := by
  have hall := System.Orderly.run h
  exact ⟨fun a ha => ((hall t).answers a ha).2, (hall t).order⟩

/-! ## What the server holds -/

/-- The keys of a store: one holds a hash, or something else. -/
abbrev Keys := Table Text (Option (Table Text Text))

/-- The hash of a key, empty for a key that is missing, none for one of another kind. -/
def Keys.hash (keys : Keys) (key : Text) : Option (Table Text Text) :=
  (keys.lookup key).getD (some ∅)

def Keys.hashes (keys : Keys) : Hashes := fun key => (keys.hash key).getD ∅

/-- The documented replies to the commands of `store`.  Fields go out in any order, and
whatever the command, it may be refused. -/
inductive Replies (keys : Keys) : List Text → RedisReply → Prop where
  | hgetall {key : Text} {table : Table Text Text} {fields : List (Text × Text)}
      (htable : keys.hash key = some table)
      (hfields : fields.Perm (table.entries.map fun e => (e.1, e.2))) :
      Replies keys ["HGETALL".toList, key]
        (.array (fields.flatMap fun e => [some e.1, some e.2]))
  | hkeys {key : Text} {table : Table Text Text} {names : List Text}
      (htable : keys.hash key = some table) (hnames : names.Perm table.keys) :
      Replies keys ["HKEYS".toList, key] (.array (names.map some))
  | hmget {key : Text} {table : Table Text Text} (fields : List Text)
      (htable : keys.hash key = some table) :
      Replies keys ("HMGET".toList :: key :: fields) (.array (fields.map table.lookup))
  | dbsize : Replies keys ["DBSIZE".toList] (.integer keys.entries.length)
  | refused (argv : List Text) : Replies keys argv .error

theorem fieldPairs_flatMap (fields : List (Text × Text)) :
    fieldPairs (fields.flatMap fun e => [some e.1, some e.2]) = fields := by
  induction fields with
  | nil => rfl
  | cons e fields ih =>
    rw [List.flatMap_cons]
    change (e.1, e.2) :: fieldPairs (fields.flatMap fun e => [some e.1, some e.2]) = _
    rw [ih]

/-- The answers of a thread, by their numbers. -/
def replay (answers : List Answer) (n : Nat) (argv : List Text) : Option RedisReply :=
  (answers[n]?.filter fun a => a.argv = argv).bind Answer.reply

/-- What was answered comes from a moment of its call. -/
theorem replay_true {answers : List Answer} {moments : List Keys}
    (htrue : ∀ a ∈ answers, ∀ reply, a.reply = some reply →
      TrueBetween Replies moments a.sent a.got a.argv reply)
    {n : Nat} {argv : List Text} {reply : RedisReply}
    (h : replay answers n argv = some reply) :
    ∃ a, answers[n]? = some a ∧ a.argv = argv ∧ a.reply = some reply ∧
      TrueBetween Replies moments a.sent a.got argv reply := by
  obtain ⟨a, hfound, hreply⟩ := Option.bind_eq_some_iff.mp h
  obtain ⟨hget, hargv⟩ := Option.filter_eq_some_iff.mp hfound
  have hargv := of_decide_eq_true hargv
  exact ⟨a, hget, hargv, hreply, hargv ▸ htrue a (List.mem_of_getElem? hget) reply hreply⟩

/-- A command that was not refused came back with a reply. -/
theorem accepted_eq_some {answer : Option RedisReply} {reply : RedisReply}
    (h : accepted answer = some reply) : answer = some reply ∧ reply ≠ .error := by
  unfold accepted at h
  split at h
  · cases h
  · next hne => exact ⟨h, fun heq => hne (heq ▸ h)⟩

theorem Keys.hashes_eq {keys : Keys} {key : Text} {table : Table Text Text}
    (h : keys.hash key = some table) : keys.hashes key = table := by
  rw [Keys.hashes, h]
  rfl

/-- A read told from replies that some keys would give is one of the hashes of those keys. -/
theorem store_tells {ask : Nat → List Text → Option RedisReply} {n : Nat} {held : Keys}
    (h : ∀ argv reply, ask n argv = some reply → Replies held argv reply) :
    (store ask).Tells n held.hashes where
  hgetall key fields hread := by
    obtain ⟨reply, hr, rfl⟩ := Option.map_eq_some_iff.mp hread
    obtain ⟨hr, hne⟩ := accepted_eq_some hr
    cases h _ reply hr with
    | hgetall htable hfields =>
      rw [pairsOf, fieldPairs_flatMap, Keys.hashes_eq htable]
      exact hfields
    | refused => exact absurd rfl hne
  hkeys key names hread := by
    obtain ⟨reply, hr, rfl⟩ := Option.map_eq_some_iff.mp hread
    obtain ⟨hr, hne⟩ := accepted_eq_some hr
    cases h _ reply hr with
    | hkeys htable hnames =>
      rw [strings, List.map_map, Keys.hashes_eq htable]
      exact (List.map_id _).symm ▸ hnames
    | refused => exact absurd rfl hne
  hmget key names values hread := by
    by_cases hnil : names = []
    · subst hnil
      exact (Option.some.inj hread).symm
    · change (if names = [] then some [] else (accepted (ask n
        ("HMGET".toList :: key :: names))).map strings) = some values at hread
      rw [if_neg hnil] at hread
      obtain ⟨reply, hr, rfl⟩ := Option.map_eq_some_iff.mp hread
      obtain ⟨hr, hne⟩ := accepted_eq_some hr
      cases h _ reply hr with
      | hmget fields htable =>
        rw [strings, List.map_map, Keys.hashes_eq htable]
        rfl
      | refused => exact absurd rfl hne

/-- **What a request reads.**  In any run, take what a thread has read since it last began a
request.  If the server held the same keys all the while, the reads of `RedisQuery` served the
hashes of those keys: every answer is what they hold, or that the store is out of reach. -/
theorem replay_serves {keys : Keys} {s : System Keys} {acts : List (Act Keys)}
    (h : Run step (Truthful Replies) { content := keys } acts s) (t begun : Nat) (held : Keys)
    (hheld : ∀ a ∈ (s.threads t).answers.drop begun, ∀ i, a.sent ≤ i → i ≤ a.got →
      s.moments[i]? = some held) :
    (store (replay ((s.threads t).answers.drop begun))).Serves held.hashes ∧
      ∀ n count, dbsize (replay ((s.threads t).answers.drop begun)) n = some count →
        count = .ofNat held.entries.length := by
  have hreplies : ∀ n argv reply,
      replay ((s.threads t).answers.drop begun) n argv = some reply → Replies held argv reply := by
    intro n argv reply hr
    obtain ⟨a, hget, -, -, i, content, hsent, hgot, hi, hr⟩ :=
      replay_true (fun a ha => ((System.Orderly.run h t).answers a (List.mem_of_mem_drop ha)).2) hr
    rw [hheld a (List.mem_of_getElem? hget) i hsent hgot] at hi
    cases hi
    exact hr
  refine ⟨.of_tells fun n => store_tells (hreplies n), fun n count hread => ?_⟩
  obtain ⟨reply, hr, rfl⟩ := Option.map_eq_some_iff.mp hread
  obtain ⟨hr, hne⟩ := accepted_eq_some hr
  cases hreplies n _ reply hr with
  | dbsize => rfl
  | refused => exact absurd rfl hne

/-- One pair in contact. -/
def contactKeys : Keys :=
  (∅ : Keys).insert "link:15".toList (some ((∅ : Table Text Text).insert "42:dur".toList "60".toList))

/-- The names of the fields of the pair. -/
def askContact : List Text := ["HKEYS".toList, "link:15".toList]

theorem contactKeys_replies : Replies contactKeys askContact (.array [some "42:dur".toList]) := by
  have hnames : ["42:dur".toList].Perm
      ((∅ : Table Text Text).insert "42:dur".toList "60".toList).keys := .refl _
  exact .hkeys rfl hnames

/-- One thread reads the pair, while another gives up on its connection with the reply
outstanding and asks again. -/
theorem answers_of_a_moment_contact :
    ∃ s acts, Run step (Truthful Replies) { content := contactKeys } acts s ∧
      (s.threads 1).answers.length = 2 ∧
      ∀ a ∈ (s.threads 1).answers, ∀ reply, a.reply = some reply →
        ∃ i moment, a.sent ≤ i ∧ i ≤ a.got ∧ s.moments[i]? = some moment ∧
          Replies moment a.argv reply := by
  have htrue : ∀ s : System Keys, s.content = contactKeys → s.oldest 1 = some askContact →
      Truthful Replies s (.serve 1 (.array [some "42:dur".toList])) := by
    intro s hs hold argv hargv
    rw [hold] at hargv
    cases hargv
    rw [hs]
    exact contactKeys_replies
  have hrun : ∃ s, Run step (Truthful Replies) { content := contactKeys }
      [.connect 0, .connect 1, .command 1 askContact, .serve 1 (.array [some "42:dur".toList]),
        .fails 1, .connect 1, .command 1 askContact,
        .serve 1 (.array [some "42:dur".toList]), .write ∅, .returns 1] s ∧
      (s.threads 1).answers.length = 2 :=
    ⟨_, .cons trivial rfl (.cons trivial rfl (.cons trivial rfl (.cons (htrue _ rfl rfl) rfl
      (.cons trivial rfl (.cons trivial rfl (.cons trivial rfl (.cons (htrue _ rfl rfl) rfl
        (.cons trivial rfl (.cons trivial rfl (.nil _)))))))))), rfl⟩
  obtain ⟨s, hrun, hlen⟩ := hrun
  exact ⟨s, _, hrun, hlen, (answers_of_a_moment hrun 1).1⟩

/-- The field of the pair is read whole. -/
def askWhole : List Text := ["HGETALL".toList, "link:15".toList]

theorem contactKeys_replies_whole :
    Replies contactKeys askWhole (.array [some "42:dur".toList, some "60".toList]) := by
  have hfields : [("42:dur".toList, "60".toList)].Perm
      (((∅ : Table Text Text).insert "42:dur".toList "60".toList).entries.map
        fun e => (e.1, e.2)) := .refl _
  exact .hgetall rfl hfields

theorem noKeys_replies : Replies ∅ askContact (.array []) := by
  have hnames : ([] : List Text).Perm (∅ : Table Text Text).keys := .refl _
  exact .hkeys rfl hnames

/-- The pair is asked for before it is in contact, and then by a request that reads it twice. -/
theorem replay_serves_contact :
    ∃ s acts, Run step (Truthful Replies) { content := ∅ } acts s ∧
      s.moments = [∅, contactKeys] ∧
      (store (replay ((s.threads 0).answers.drop 1))).hkeys 0 "link:15".toList =
        some ["42:dur".toList] ∧
      (store (replay ((s.threads 0).answers.drop 1))).hgetall 1 "link:15".toList =
        some [("42:dur".toList, "60".toList)] ∧
      (store (replay ((s.threads 0).answers.drop 1))).Serves contactKeys.hashes := by
  have htruth : ∀ (s : System Keys) (argv : List Text) (reply : RedisReply),
      s.oldest 0 = some argv → Replies s.content argv reply →
        Truthful Replies s (.serve 0 reply) := by
    intro s argv reply hold hreply argv' hargv
    rw [hold] at hargv
    cases hargv
    exact hreply
  have hrun : ∃ s, Run step (Truthful Replies) { content := ∅ }
      [.connect 0, .command 0 askContact, .serve 0 (.array []), .returns 0, .write contactKeys,
        .command 0 askContact, .serve 0 (.array [some "42:dur".toList]), .returns 0,
        .command 0 askWhole, .serve 0 (.array [some "42:dur".toList, some "60".toList]),
        .returns 0] s ∧
      (s.threads 0).answers.drop 1 =
        [⟨askContact, some (.array [some "42:dur".toList]), 1, 1⟩,
          ⟨askWhole, some (.array [some "42:dur".toList, some "60".toList]), 1, 1⟩] ∧
      s.moments = [∅, contactKeys] :=
    ⟨_, .cons trivial rfl (.cons trivial rfl (.cons (htruth _ _ _ rfl noKeys_replies) rfl
      (.cons trivial rfl (.cons trivial rfl (.cons trivial rfl
        (.cons (htruth _ _ _ rfl contactKeys_replies) rfl (.cons trivial rfl (.cons trivial rfl
          (.cons (htruth _ _ _ rfl contactKeys_replies_whole) rfl
            (.cons trivial rfl (.nil _))))))))))), rfl, rfl⟩
  obtain ⟨s, hrun, hanswers, hmoments⟩ := hrun
  have hheld : ∀ a ∈ (s.threads 0).answers.drop 1, ∀ i, a.sent ≤ i → i ≤ a.got →
      s.moments[i]? = some contactKeys := by
    intro a ha i hsent hgot
    rw [hanswers] at ha
    rw [hmoments]
    rcases List.mem_pair.mp ha with rfl | rfl
    · obtain rfl : i = 1 := le_antisymm hgot hsent
      rfl
    · obtain rfl : i = 1 := le_antisymm hgot hsent
      rfl
  refine ⟨s, _, hrun, hmoments, ?_, ?_, (replay_serves hrun 0 1 contactKeys hheld).1⟩
  · rw [hanswers]
    rfl
  · rw [hanswers]
    rfl

end RedisQuery

end CdrProcessor
