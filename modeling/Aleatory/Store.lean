import Aleatory.Experiment
import Std.Data.TreeMap

/-!
# Stores

A store holds values of several kinds under keys.  A key is made for one kind and carries a number
that no other key of its supply has, so two keys never touch the same entry, and what is read
under a key has the kind of the key.
-/

namespace Aleatory

/-- Kinds of values: the type of each kind's values and its name. -/
class Kind (κ : Type) where
  Value : κ → Type
  name : κ → String

/-- A key for values of one kind. -/
structure Key {κ : Type} (kind : κ) where
  id : UInt64
  deriving DecidableEq

/-- The text of a key: its number, and the name of its kind. -/
def Key.render {κ : Type} [Kind κ] {kind : κ} (key : Key kind) : String :=
  "ContextKey \x7b id: " ++ toString key.id.toNat ++ ", type: \"" ++ Kind.name kind ++ "\" \x7d"

/-- The numbers not yet given to a key. -/
structure Supply where
  next : UInt64 := 0
  deriving DecidableEq

/-- A fresh key for a kind, and the supply without its number. -/
def Supply.mint {κ : Type} (supply : Supply) (kind : κ) : Key kind × Supply :=
  (⟨supply.next⟩, ⟨supply.next + 1⟩)

structure Held (κ : Type) [Kind κ] where
  kind : κ
  value : Kind.Value kind

/-- The value, if it is of the kind asked for. -/
def Held.as? {κ : Type} [DecidableEq κ] [Kind κ] (held : Held κ) (kind : κ) :
    Option (Kind.Value kind) :=
  if h : held.kind = kind then some (h ▸ held.value) else none

@[simp]
theorem Held.as?_mk {κ : Type} [DecidableEq κ] [Kind κ] (kind : κ) (value : Kind.Value kind) :
    (Held.mk kind value).as? kind = some value := by
  simp [Held.as?]

/-- Values under the numbers of their keys. -/
structure Store (κ : Type) [Kind κ] where
  entries : Std.TreeMap UInt64 (Held κ) := ∅

namespace Store

variable {κ : Type} [DecidableEq κ] [Kind κ] {kind : κ}

instance : EmptyCollection (Store κ) := ⟨{}⟩

def get? (store : Store κ) (key : Key kind) : Option (Kind.Value kind) :=
  store.entries[key.id]?.bind fun held => held.as? kind

def insert (store : Store κ) (key : Key kind) (value : Kind.Value kind) : Store κ :=
  ⟨store.entries.insert key.id ⟨kind, value⟩⟩

def erase (store : Store κ) (key : Key kind) : Store κ := ⟨store.entries.erase key.id⟩

/-- Puts a value under a key and gives back the one that was there. -/
def replace (store : Store κ) (key : Key kind) (value : Kind.Value kind) :
    Option (Kind.Value kind) × Store κ :=
  (store.get? key, store.insert key value)

/-- Drops the value under a key and gives it back. -/
def remove (store : Store κ) (key : Key kind) : Option (Kind.Value kind) × Store κ :=
  (store.get? key, store.erase key)

/-- Whether something is stored under a key. -/
def contains (store : Store κ) (key : Key kind) : Bool := store.entries.contains key.id

def size (store : Store κ) : Nat := store.entries.size

def isEmpty (store : Store κ) : Bool := store.entries.isEmpty

/-- The numbers of the keys with a value, in ascending order. -/
def ids (store : Store κ) : List UInt64 := store.entries.keys

@[simp]
theorem get?_empty (key : Key kind) : (∅ : Store κ).get? key = none := by
  show (∅ : Std.TreeMap UInt64 (Held κ))[key.id]?.bind _ = none
  simp

@[simp]
theorem get?_insert_self (store : Store κ) (key : Key kind) (value : Kind.Value kind) :
    (store.insert key value).get? key = some value := by
  simp [get?, insert]

theorem get?_insert_of_ne {kind' : κ} (store : Store κ) (key : Key kind) (key' : Key kind')
    (value : Kind.Value kind) (h : key.id ≠ key'.id) :
    (store.insert key value).get? key' = store.get? key' := by
  simp [get?, insert, Std.TreeMap.getElem?_insert, h]

@[simp]
theorem get?_erase_self (store : Store κ) (key : Key kind) : (store.erase key).get? key = none := by
  simp [get?, erase]

theorem get?_erase_of_ne {kind' : κ} (store : Store κ) (key : Key kind) (key' : Key kind')
    (h : key.id ≠ key'.id) : (store.erase key).get? key' = store.get? key' := by
  simp [get?, erase, Std.TreeMap.getElem?_erase, h]

end Store

namespace Experiment

variable {F : Mode} {σ κ : Type} [DecidableEq κ] [Kind κ] {kind : κ}

/-- The value stored under a key. -/
def lookup (key : Key kind) : Experiment F σ (Store κ) (Option (Kind.Value kind)) :=
  step fun state extras => .ret { state, extras, value := extras.get? key }

/-- Stores a value under a key for the rest of the run. -/
def store (key : Key kind) (value : Kind.Value kind) : Experiment F σ (Store κ) Unit :=
  step fun state extras => .ret { state, extras := extras.insert key value, value := () }

end Experiment

end Aleatory
