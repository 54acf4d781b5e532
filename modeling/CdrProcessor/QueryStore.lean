import CdrProcessor.Basic
import CdrProcessor.Lib.Table

/-! `IQueryStore`, the read side of the store, and the code that reads through it: what
is read may change and fail from one read to the next. -/

namespace CdrProcessor

/-- One read of the store. -/
inductive Read where
  | hgetall (key : Text)
  | hkeys (key : Text)
  | hmget (key : Text) (fields : List Text)
  deriving DecidableEq, Repr

/-- `IQueryStore`: what each call answers when `n` reads went before it, nothing when the
store could not be reached. -/
structure IQueryStore where
  hgetall : Nat → Text → Option (List (Text × Text))
  hkeys : Nat → Text → Option (List Text)
  hmget : Nat → Text → List Text → Option (List Text)

/-- Code that reads the store, over the reads made so far.  It has no result where the
source would throw or never return. -/
abbrev Query := StateT (List Read) Option

namespace IQueryStore

def readAll (store : IQueryStore) (key : Text) : Query (Option (List (Text × Text))) :=
  fun log => some (store.hgetall log.length key, log ++ [.hgetall key])

def readKeys (store : IQueryStore) (key : Text) : Query (Option (List Text)) :=
  fun log => some (store.hkeys log.length key, log ++ [.hkeys key])

def readSome (store : IQueryStore) (key : Text) (fields : List Text) :
    Query (Option (List Text)) :=
  fun log => some (store.hmget log.length key fields, log ++ [.hmget key fields])

end IQueryStore

/-! ## A store that stands still -/

/-- The hashes of a store, one for each key. -/
abbrev Hashes := Text → Table Text Text

/-- Every read fails or answers what the hashes hold, the fields in any order. -/
structure IQueryStore.Serves (store : IQueryStore) (hashes : Hashes) : Prop where
  hgetall : ∀ n key fields, store.hgetall n key = some fields →
    fields.Perm ((hashes key).entries.map fun e => (e.1, e.2))
  hkeys : ∀ n key names, store.hkeys n key = some names → names.Perm (hashes key).keys
  hmget : ∀ n key names values, store.hmget n key names = some values →
    values = names.map fun name => ((hashes key).lookup name).getD []

/-- The same of the `n`-th read alone. -/
structure IQueryStore.Tells (store : IQueryStore) (n : Nat) (hashes : Hashes) : Prop where
  hgetall : ∀ key fields, store.hgetall n key = some fields →
    fields.Perm ((hashes key).entries.map fun e => (e.1, e.2))
  hkeys : ∀ key names, store.hkeys n key = some names → names.Perm (hashes key).keys
  hmget : ∀ key names values, store.hmget n key names = some values →
    values = names.map fun name => ((hashes key).lookup name).getD []

theorem IQueryStore.Serves.of_tells {store : IQueryStore} {hashes : Hashes}
    (h : ∀ n, store.Tells n hashes) : store.Serves hashes where
  hgetall n := (h n).hgetall
  hkeys n := (h n).hkeys
  hmget n := (h n).hmget

/-- The names of the fields that are read. -/
theorem IQueryStore.Serves.keys_perm {store : IQueryStore} {hashes : Hashes}
    (hs : store.Serves hashes) {n : Nat} {key : Text} {fields : List (Text × Text)}
    (hr : store.hgetall n key = some fields) : (fields.map Prod.fst).Perm (hashes key).keys := by
  refine ((hs.hgetall _ _ _ hr).map Prod.fst).trans (List.Perm.of_eq ?_)
  rw [List.map_map]
  rfl

/-- No read fails. -/
structure IQueryStore.Up (store : IQueryStore) : Prop where
  hgetall : ∀ n key, (store.hgetall n key).isSome
  hkeys : ∀ n key, (store.hkeys n key).isSome
  hmget : ∀ n key names, (store.hmget n key names).isSome

/-- The store that answers every read with what the hashes hold. -/
def Hashes.store (hashes : Hashes) : IQueryStore where
  hgetall _ key := some ((hashes key).entries.map fun e => (e.1, e.2))
  hkeys _ key := some (hashes key).keys
  hmget _ key names := some (names.map fun name => ((hashes key).lookup name).getD [])

theorem Hashes.store_serves (hashes : Hashes) : hashes.store.Serves hashes where
  hgetall := by rintro _ _ _ ⟨⟩; exact .refl _
  hkeys := by rintro _ _ _ ⟨⟩; exact .refl _
  hmget := by rintro _ _ _ _ ⟨⟩; rfl

theorem Hashes.store_up (hashes : Hashes) : hashes.store.Up :=
  ⟨fun _ _ => rfl, fun _ _ => rfl, fun _ _ _ => rfl⟩

end CdrProcessor
