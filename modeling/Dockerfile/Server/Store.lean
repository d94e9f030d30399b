/-!
# Stores

A store holds values by their keys, in the order in which the keys were first inserted. What it holds
is seen through `get?`: each operation has an equation that says what it does to that view.
-/

namespace Dockerfile

abbrev Store (α : Type) :=
  List (String × α)

namespace Store

def get? : Store α → String → Option α
  | [], _ => none
  | (k, v) :: rest, key => if key = k then some v else get? rest key

/-- Gives a key a value, in the place of its value so far if it has one. -/
def insert : Store α → String → α → Store α
  | [], key, value => [(key, value)]
  | (k, v) :: rest, key, value =>
      if key = k then (k, value) :: rest else (k, v) :: insert rest key value

def erase : Store α → String → Store α
  | [], _ => []
  | (k, v) :: rest, key => if key = k then erase rest key else (k, v) :: erase rest key

def modify : Store α → String → (α → α) → Store α
  | [], _, _ => []
  | (k, v) :: rest, key, change =>
      (k, if key = k then change v else v) :: modify rest key change

@[simp] theorem length_modify (store : Store α) (key : String) (change : α → α) :
    (store.modify key change).length = store.length := by
  induction store with
  | nil => rfl
  | cons entry rest ih => simp [modify, ih]

theorem get?_insert (store : Store α) (key other : String) (value : α) :
    (store.insert key value).get? other = if other = key then some value else store.get? other := by
  induction store with
  | nil => simp [insert, get?]
  | cons entry rest ih => grind [insert, get?]

theorem get?_erase (store : Store α) (key other : String) :
    (store.erase key).get? other = if other = key then none else store.get? other := by
  induction store with
  | nil => simp [erase, get?]
  | cons entry rest ih => grind [erase, get?]

theorem get?_modify (store : Store α) (key other : String) (change : α → α) :
    (store.modify key change).get? other =
      if other = key then (store.get? other).map change else store.get? other := by
  induction store with
  | nil => simp [modify, get?]
  | cons entry rest ih => grind [modify, get?]

end Store

end Dockerfile
