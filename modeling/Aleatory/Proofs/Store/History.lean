import Aleatory.Store
import Mathlib.Data.List.Nodup
import Mathlib.Data.List.Perm.Basic

/-!
# Histories of a store

Keys are minted one after the other, of any kinds, and used in any order. What a store answers is
told by the history alone: the value of a key is that of the last put under it, unless it was
dropped since. The invariant behind this is that every number belongs to one key, so that the
entry under a number has the kind of its key and is never refused for its kind
(`Register.answers_of_history`).
-/

namespace Aleatory

/-- A key of any kind. -/
structure AnyKey (κ : Type) where
  kind : κ
  key : Key kind
  deriving DecidableEq

abbrev AnyKey.id {κ : Type} (k : AnyKey κ) : UInt64 := k.key.id

/-- What is done with a supply of keys and a store. -/
inductive Act (κ : Type) [Kind κ] where
  | mint (kind : κ)
  | put (k : AnyKey κ) (value : Kind.Value k.kind)
  | read (k : AnyKey κ)
  | drop (k : AnyKey κ)
  | holds (k : AnyKey κ)
  | size
  | isEmpty

namespace Act

variable {κ : Type} [Kind κ]

def Answer : Act κ → Type
  | mint kind => Key kind
  | put k _ | read k | drop k => Option (Kind.Value k.kind)
  | holds _ | isEmpty => Bool
  | size => Nat

/-- The key that an act uses. -/
def key? : Act κ → Option (AnyKey κ)
  | put k _ | read k | drop k | holds k => some k
  | mint _ | size | isEmpty => none

/-- Whether an act puts a value under a key or drops the value. -/
def Overwrites (k : AnyKey κ) : Act κ → Prop
  | put k' _ | drop k' => k' = k
  | mint _ | read _ | holds _ | size | isEmpty => False

variable [DecidableEq κ]

/-- The value of the last put under a key, if it was not dropped since. The history has the most
recent act first. -/
def latest (k : AnyKey κ) : List (Act κ) → Option (Kind.Value k.kind)
  | [] => none
  | put k' value :: past => if h : k' = k then some (h ▸ value) else latest k past
  | drop k' :: past => if k' = k then none else latest k past
  | _ :: past => latest k past

variable {k : AnyKey κ} {past : List (Act κ)}

@[simp]
theorem latest_put_self (k : AnyKey κ) (value : Kind.Value k.kind) (past : List (Act κ)) :
    latest k (put k value :: past) = some value := by
  simp [latest]

@[simp]
theorem latest_drop_self (k : AnyKey κ) (past : List (Act κ)) :
    latest k (drop k :: past) = none := by
  simp [latest]

theorem latest_cons_of_not_overwrites {a : Act κ} (h : ¬ a.Overwrites k) :
    latest k (a :: past) = latest k past := by
  cases a with
  | put k' value => exact dif_neg h
  | drop k' => exact if_neg h
  | _ => rfl

/-- A value is the latest one if it was put under the key and not overwritten since. -/
theorem latest_eq_some_iff {value : Kind.Value k.kind} :
    latest k past = some value ↔
      ∃ later earlier, past = later ++ put k value :: earlier ∧ ∀ a ∈ later, ¬ a.Overwrites k := by
  constructor
  · intro h
    induction past with
    | nil => cases h
    | cons a past ih =>
        by_cases ha : a.Overwrites k
        · cases a with
          | put k' value' =>
              obtain rfl : k' = k := ha
              obtain rfl := Option.some.inj ((latest_put_self ..).symm.trans h)
              exact ⟨[], past, rfl, nofun⟩
          | drop k' =>
              obtain rfl : k' = k := ha
              cases (latest_drop_self ..).symm.trans h
          | _ => cases ha
        · rw [latest_cons_of_not_overwrites ha] at h
          obtain ⟨later, earlier, rfl, hlater⟩ := ih h
          exact ⟨a :: later, earlier, rfl, List.forall_mem_cons.mpr ⟨ha, hlater⟩⟩
  · rintro ⟨later, earlier, rfl, hlater⟩
    induction later with
    | nil => exact latest_put_self ..
    | cons a later ih =>
        obtain ⟨ha, hlater⟩ := List.forall_mem_cons.mp hlater
        exact (latest_cons_of_not_overwrites ha).trans (ih hlater)

/-- Whether a history, after which the given keys are minted, tells this answer to an act. A minted
key is a new one. -/
def Tells (past : List (Act κ)) (minted : List (AnyKey κ)) : (a : Act κ) → a.Answer → Prop
  | mint _, key => ∀ k ∈ minted, k.id ≠ key.id
  | put k _, value | read k, value | drop k, value => value = latest k past
  | holds k, answer => answer = (latest k past).isSome
  | size, n => n = (minted.filter fun k => (latest k past).isSome).length
  | isEmpty, answer => answer = true ↔ ∀ k ∈ minted, latest k past = none

end Act

/-- A supply of keys, the keys that were minted from it, and a store. -/
structure Register (κ : Type) [Kind κ] where
  supply : Supply
  minted : List (AnyKey κ)
  store : Store κ

namespace Register

open Act

variable {κ : Type} [DecidableEq κ] [Kind κ]

instance : EmptyCollection (Register κ) := ⟨{ supply := {}, minted := [], store := ∅ }⟩

def perform (r : Register κ) : (a : Act κ) → a.Answer × Register κ
  | .mint kind =>
      let (key, supply) := r.supply.mint kind
      (key, { r with supply, minted := ⟨kind, key⟩ :: r.minted })
  | .put k value =>
      let (old, store) := r.store.replace k.key value
      (old, { r with store })
  | .read k => (r.store.get? k.key, r)
  | .drop k =>
      let (old, store) := r.store.remove k.key
      (old, { r with store })
  | .holds k => (r.store.contains k.key, r)
  | .size => (r.store.size, r)
  | .isEmpty => (r.store.isEmpty, r)

/-- The registers after a history, in which every key is minted before it is used. -/
inductive After : List (Act κ) → Register κ → Prop where
  | start : After [] ∅
  | act {past : List (Act κ)} {r : Register κ} (a : Act κ) (h : After past r)
      (hkey : ∀ k ∈ a.key?, k ∈ r.minted) : After (a :: past) (r.perform a).2

/-- The numbers of the minted keys are distinct and below the next one, and the entries are the
latest values of these keys. -/
structure Sound (r : Register κ) (past : List (Act κ)) : Prop where
  next : r.supply.next = .ofNat r.minted.length
  below : ∀ k ∈ r.minted, k.id.toNat < r.minted.length
  distinct : (r.minted.map AnyKey.id).Nodup
  unminted : ∀ k ∉ r.minted, latest k past = none
  entry : ∀ k ∈ r.minted, r.store.entries[k.id]? = (latest k past).map (Held.mk k.kind)
  owned : ∀ id held, r.store.entries[id]? = some held → ∃ k ∈ r.minted, k.id = id

variable {r : Register κ} {past : List (Act κ)}

theorem sound_empty : (∅ : Register κ).Sound [] where
  next := rfl
  below := nofun
  distinct := List.nodup_nil
  unminted _ _ := rfl
  entry := nofun
  owned id held h := by
    change (∅ : Std.TreeMap UInt64 (Held κ))[id]? = some held at h
    simp at h

namespace Sound

variable (hs : r.Sound past)

include hs

theorem next_toNat (hroom : r.minted.length < UInt64.size) :
    r.supply.next.toNat = r.minted.length := by
  rw [hs.next, UInt64.toNat_ofNat_of_lt' hroom]

/-- While numbers are left, the next one is new. -/
theorem fresh (hroom : r.minted.length < UInt64.size) (k : AnyKey κ) (hk : k ∈ r.minted) :
    k.id ≠ r.supply.next := by
  intro h
  have hbelow := hs.below k hk
  rw [h, hs.next_toNat hroom] at hbelow
  exact Nat.lt_irrefl _ hbelow

theorem eq_of_id_eq {k k' : AnyKey κ} (hk : k ∈ r.minted) (hk' : k' ∈ r.minted)
    (h : k.id = k'.id) : k = k' :=
  List.inj_on_of_nodup_map hs.distinct hk hk' h

theorem get?_eq_latest {k : AnyKey κ} (hk : k ∈ r.minted) :
    r.store.get? k.key = latest k past := by
  rw [Store.get?, hs.entry k hk]
  cases latest k past with
  | none => rfl
  | some value => exact Held.as?_mk k.kind value

theorem contains_eq_latest {k : AnyKey κ} (hk : k ∈ r.minted) :
    r.store.contains k.key = (latest k past).isSome := by
  rw [Store.contains, Std.TreeMap.contains_eq_isSome_getElem?, hs.entry k hk, Option.isSome_map]

/-- Every entry has a key, and is of its kind. -/
theorem held_of_entry {id : UInt64} {held : Held κ} (h : r.store.entries[id]? = some held) :
    ∃ k ∈ r.minted, k.id = id ∧ (∀ k' ∈ r.minted, k'.id = id → k' = k) ∧
      ∃ value : Kind.Value k.kind, held = ⟨k.kind, value⟩ ∧ held.as? k.kind = some value := by
  obtain ⟨k, hk, rfl⟩ := hs.owned id held h
  obtain ⟨value, -, rfl⟩ := Option.map_eq_some_iff.mp ((hs.entry k hk).symm.trans h)
  exact ⟨k, hk, rfl, fun k' hk' => hs.eq_of_id_eq hk' hk, value, rfl, Held.as?_mk k.kind value⟩

theorem mem_entries_iff {id : UInt64} :
    id ∈ r.store.entries ↔ ∃ k ∈ r.minted, (latest k past).isSome ∧ k.id = id := by
  rw [Std.TreeMap.mem_iff_isSome_getElem?]
  constructor
  · intro h
    obtain ⟨held, hheld⟩ := Option.isSome_iff_exists.mp h
    obtain ⟨k, hk, rfl⟩ := hs.owned id held hheld
    rw [hs.entry k hk, Option.isSome_map] at h
    exact ⟨k, hk, h, rfl⟩
  · rintro ⟨k, hk, h, rfl⟩
    rwa [hs.entry k hk, Option.isSome_map]

/-- The store has as many entries as there are keys with a value. -/
theorem size_eq : r.store.size = (r.minted.filter fun k => (latest k past).isSome).length := by
  have hperm : r.store.entries.keys.Perm
      ((r.minted.filter fun k => (latest k past).isSome).map AnyKey.id) := by
    refine (List.perm_ext_iff_of_nodup Std.TreeMap.nodup_keys ?_).mpr fun id => ?_
    · exact hs.distinct.sublist (List.filter_sublist.map AnyKey.id)
    · rw [Std.TreeMap.mem_keys, hs.mem_entries_iff]
      simp [and_assoc]
  rw [Store.size, ← Std.TreeMap.length_keys, hperm.length_eq, List.length_map]

theorem isEmpty_iff : r.store.isEmpty = true ↔ ∀ k ∈ r.minted, latest k past = none := by
  rw [Store.isEmpty, Std.TreeMap.isEmpty_eq_size_eq_zero, beq_iff_eq]
  change r.store.size = 0 ↔ _
  rw [hs.size_eq]
  simp [List.filter_eq_nil_iff]

theorem tells {a : Act κ} (hkey : ∀ k ∈ a.key?, k ∈ r.minted)
    (hroom : r.minted.length < UInt64.size) : a.Tells past r.minted (r.perform a).1 := by
  cases a with
  | mint kind => exact hs.fresh hroom
  | put k value => exact hs.get?_eq_latest (hkey k rfl)
  | read k => exact hs.get?_eq_latest (hkey k rfl)
  | drop k => exact hs.get?_eq_latest (hkey k rfl)
  | holds k => exact hs.contains_eq_latest (hkey k rfl)
  | size => exact hs.size_eq
  | isEmpty => exact hs.isEmpty_iff

/-- An act that leaves the register as it is, and the latest values. -/
theorem of_idle {a : Act κ} (ha : ∀ k, ¬ a.Overwrites k) : r.Sound (a :: past) where
  next := hs.next
  below := hs.below
  distinct := hs.distinct
  unminted k hk := (latest_cons_of_not_overwrites (ha k)).trans (hs.unminted k hk)
  entry k hk := by rw [hs.entry k hk, latest_cons_of_not_overwrites (ha k)]
  owned := hs.owned

theorem of_mint (kind : κ) (hroom : r.minted.length < UInt64.size) :
    (r.perform (.mint kind)).2.Sound (.mint kind :: past) where
  next := by
    change r.supply.next + 1 = .ofNat (r.minted.length + 1)
    rw [hs.next, UInt64.ofNat_add]
    rfl
  below k hk := by
    change k.id.toNat < r.minted.length + 1
    rcases List.mem_cons.mp hk with rfl | hk
    · exact Nat.lt_succ_of_le (Nat.le_of_eq (hs.next_toNat hroom))
    · exact Nat.lt_succ_of_lt (hs.below k hk)
  distinct := by
    refine List.nodup_cons.mpr ⟨fun h => ?_, hs.distinct⟩
    obtain ⟨k, hk, hid⟩ := List.mem_map.mp h
    exact hs.fresh hroom k hk hid
  unminted k hk := hs.unminted k fun h => hk (List.mem_cons_of_mem _ h)
  entry k hk := by
    change r.store.entries[k.id]? = (latest k past).map (Held.mk k.kind)
    by_cases hold : k ∈ r.minted
    · exact hs.entry k hold
    -- The new key has no entry, since no old key has its number.
    · obtain rfl := (List.mem_cons.mp hk).resolve_right hold
      rw [hs.unminted _ hold, Option.map_none]
      cases hentry : r.store.entries[r.supply.next]? with
      | none => rfl
      | some held =>
          obtain ⟨k, hk, hid⟩ := hs.owned _ held hentry
          exact absurd hid (hs.fresh hroom k hk)
  owned id held h := by
    obtain ⟨k, hk, hid⟩ := hs.owned id held h
    exact ⟨k, List.mem_cons_of_mem _ hk, hid⟩

/-- An act that changes the entry of one key alone. -/
theorem of_overwrite {k : AnyKey κ} (hk : k ∈ r.minted) {a : Act κ} {store : Store κ}
    (ha : ∀ k', a.Overwrites k' → k' = k)
    (hself : store.entries[k.id]? = (latest k (a :: past)).map (Held.mk k.kind))
    (hother : ∀ id, k.id ≠ id → store.entries[id]? = r.store.entries[id]?) :
    Sound { r with store } (a :: past) where
  next := hs.next
  below := hs.below
  distinct := hs.distinct
  unminted k' hk' := by
    rw [latest_cons_of_not_overwrites fun h => hk' (ha k' h ▸ hk), hs.unminted k' hk']
  entry k' hk' := by
    by_cases h : k' = k
    · exact h ▸ hself
    · rw [latest_cons_of_not_overwrites fun ho => h (ha k' ho), ← hs.entry k' hk']
      exact hother k'.id fun hid => h (hs.eq_of_id_eq hk' hk hid.symm)
  owned id held hheld := by
    by_cases h : k.id = id
    · exact ⟨k, hk, h⟩
    · exact hs.owned id held ((hother id h).symm.trans hheld)

/-- Every act keeps the register sound, as long as there are numbers for the keys. -/
theorem perform {a : Act κ} (hkey : ∀ k ∈ a.key?, k ∈ r.minted)
    (hroom : (r.perform a).2.minted.length ≤ UInt64.size) :
    (r.perform a).2.Sound (a :: past) := by
  cases a with
  | mint kind => exact hs.of_mint kind hroom
  | put k value =>
      refine hs.of_overwrite (hkey k rfl) (fun k' h => Eq.symm h) ?_ fun id h => ?_
      · simp [Store.insert]
      · simp [Store.insert, Std.TreeMap.getElem?_insert, h]
  | drop k =>
      refine hs.of_overwrite (hkey k rfl) (fun k' h => Eq.symm h) ?_ fun id h => ?_
      · simp [Store.erase]
      · simp [Store.erase, Std.TreeMap.getElem?_erase, h]
  | read k => exact hs.of_idle fun _ => id
  | holds k => exact hs.of_idle fun _ => id
  | size => exact hs.of_idle fun _ => id
  | isEmpty => exact hs.of_idle fun _ => id

end Sound

/-- Keys are minted one at a time and never lost. -/
theorem minted_perform (r : Register κ) (a : Act κ) :
    r.minted.Sublist (r.perform a).2.minted ∧
      (r.perform a).2.minted.length ≤ r.minted.length + 1 := by
  cases a with
  | mint kind => exact ⟨List.sublist_cons_self .., Nat.le_refl _⟩
  | _ => exact ⟨.refl _, Nat.le_succ _⟩

theorem After.sound (h : After past r) (hroom : r.minted.length ≤ UInt64.size) :
    r.Sound past := by
  induction h with
  | start => exact sound_empty
  | act a h hkey ih =>
      have hfew := Nat.le_trans (minted_perform _ a).1.length_le hroom
      exact (ih hfew).perform hkey hroom

/-- What one key reads is changed only by an act that overwrites it. -/
theorem get?_perform (hs : r.Sound past) (hroom : r.minted.length < UInt64.size) {a : Act κ}
    (hkey : ∀ k ∈ a.key?, k ∈ r.minted) {k : AnyKey κ} (hk : k ∈ r.minted)
    (ha : ¬ a.Overwrites k) : (r.perform a).2.store.get? k.key = r.store.get? k.key := by
  obtain ⟨hsub, hlength⟩ := minted_perform r a
  have hs' := hs.perform hkey (Nat.le_trans hlength hroom)
  rw [hs'.get?_eq_latest (hsub.mem hk), hs.get?_eq_latest hk, latest_cons_of_not_overwrites ha]

/-- As long as numbers are left for the keys, a store is a map from the minted keys to the values
last put under them. Each act is answered as the history tells, and changes no value but the one
that it overwrites. Every entry belongs to the only key with its number, and is of its kind. -/
theorem answers_of_history (h : After past r) (hroom : r.minted.length < UInt64.size) :
    (r.minted.map AnyKey.id).Nodup ∧
    (∀ a : Act κ, (∀ k ∈ a.key?, k ∈ r.minted) →
      a.Tells past r.minted (r.perform a).1 ∧
      ∀ k ∈ r.minted, ¬ a.Overwrites k →
        (r.perform a).2.store.get? k.key = r.store.get? k.key) ∧
    (∀ k ∈ r.minted, ∀ value, r.store.get? k.key = some value ↔
      ∃ later earlier, past = later ++ .put k value :: earlier ∧
        ∀ a ∈ later, ¬ a.Overwrites k) ∧
    ∀ id held, r.store.entries[id]? = some held →
      ∃ k ∈ r.minted, k.id = id ∧ (∀ k' ∈ r.minted, k'.id = id → k' = k) ∧
        ∃ value : Kind.Value k.kind, held = ⟨k.kind, value⟩ ∧ held.as? k.kind = some value := by
  have hs := h.sound (Nat.le_of_lt hroom)
  refine ⟨hs.distinct, fun a hkey => ⟨hs.tells hkey hroom, fun k hk => ?_⟩, fun k hk value => ?_,
    fun id held => hs.held_of_entry⟩
  · exact get?_perform hs hroom hkey hk
  · rw [hs.get?_eq_latest hk]
    exact latest_eq_some_iff

section Witness

/-- Two kinds of values. -/
inductive Shape where
  | number
  | text
  deriving DecidableEq

instance : Kind Shape where
  Value
    | .number => UInt64
    | .text => String
  name
    | .number => "u64"
    | .text => "string"

def numberKey : AnyKey Shape := ⟨.number, ⟨0⟩⟩

def textKey : AnyKey Shape := ⟨.text, ⟨1⟩⟩

theorem answers_of_history_shapes :
    ∃ r : Register Shape,
      After [.drop textKey, .put textKey "one", .put numberKey (7 : UInt64), .mint .text,
        .mint .number] r ∧ r.minted.length < UInt64.size ∧
      (r.perform (.read numberKey)).1 = some (7 : UInt64) ∧
      (r.perform (.holds textKey)).1 = false ∧ (r.perform .size).1 = (1 : Nat) := by
  have hmint := (After.start.act (.mint Shape.number) nofun).act (.mint Shape.text) nofun
  have hput := hmint.act (.put numberKey (7 : UInt64)) (by decide)
  have hdrop := (hput.act (.put textKey "one") (by decide)).act (.drop textKey) (by decide)
  have hroom : [textKey, numberKey].length < UInt64.size := by decide
  obtain ⟨-, htells, -⟩ := answers_of_history hdrop hroom
  refine ⟨_, hdrop, hroom, ?_, ?_, ?_⟩
  · exact (htells (.read numberKey) (by decide)).1
  · exact (htells (.holds textKey) (by decide)).1
  · exact (htells .size nofun).1

end Witness

end Register

end Aleatory
