import Mathlib.Data.List.Forall2
import Dockerfile.Proofs.Text.Widening

/-!
# Accesses that can fail

A program that keeps its texts as bytes cuts them at byte offsets, looks up the items of a list by
number and subtracts offsets. Each of these is possible for some operands only: a cut has to lie
between characters of the text, a number below the length of the list, and what is subtracted must
not be the greater. Here each is a function that says so by failing with a `Fault`, and so is each
loop, which fails unless every round goes on in the text.

The other modules of this directory write the analysis of a text with these functions, access by
access, and show that no access fails and that the answers are those of `analyze`.
-/

namespace Dockerfile

/-- An operation that is not possible, with its operands. -/
inductive Fault where
  /-- No part of the text has these ends: out of order, inside a character, or behind the end. -/
  | slice (start stop : Nat)
  /-- A list of this length has no item of this number. -/
  | item (index length : Nat)
  /-- A list of this length has no part with these ends. -/
  | items (start stop length : Nat)
  /-- The first number is smaller than the one to subtract. -/
  | difference (a b : Nat)
  /-- A span would stop in front of its start. -/
  | order (start stop : Nat)
  /-- A loop does not go on, or leaves the text. -/
  | stuck (offset next : Nat)
  deriving DecidableEq, Repr

/-- The result of a computation all of whose operations were possible, or the first fault. -/
abbrev Checked (α : Type) := Except Fault α

namespace Checked

@[simp] theorem ok_bind {α β : Type} (a : α) (f : α → Checked β) :
    (Except.ok a >>= f : Checked β) = f a := rfl

@[simp] theorem pure_eq {α : Type} (a : α) : (pure a : Checked α) = Except.ok a := rfl

@[simp] theorem map_ok {α β : Type} (f : α → β) (a : α) :
    (f <$> (Except.ok a : Checked α)) = Except.ok (f a) := rfl

/-! ## Numbers and spans -/

def minus (a b : Nat) : Checked Nat :=
  if b ≤ a then .ok (a - b) else .error (.difference a b)

theorem minus_eq {a b : Nat} (h : b ≤ a) : minus a b = .ok (a - b) :=
  if_pos h

@[simp] theorem minus_add (a b : Nat) : minus (a + b) b = .ok a := by
  rw [minus_eq (Nat.le_add_left b a), Nat.add_sub_cancel]

def span (start stop : Nat) : Checked Span :=
  if start ≤ stop then .ok ⟨start, stop⟩ else .error (.order start stop)

theorem span_eq {start stop : Nat} (h : start ≤ stop) : span start stop = .ok ⟨start, stop⟩ :=
  if_pos h

@[simp] theorem span_add (start length : Nat) :
    span start (start + length) = .ok ⟨start, start + length⟩ :=
  span_eq (Nat.le_add_right start length)

@[simp] theorem span_max (start stop : Nat) :
    span start (max stop start) = .ok ⟨start, max stop start⟩ :=
  span_eq (Nat.le_max_right stop start)

def cover (a b : Span) : Checked Span :=
  span (min a.start b.start) (max a.stop b.stop)

theorem cover_eq {a b : Span} (h : a.start ≤ a.stop) : cover a b = .ok (a.cover b) :=
  span_eq (Nat.le_trans (Nat.min_le_left _ _) (Nat.le_trans h (Nat.le_max_left _ _)))

/-- The next round of a loop over a text of `length` bytes, at `next` behind `offset`. -/
def onward (length offset next : Nat) : Checked { n : Nat // offset < n ∧ n ≤ length } :=
  if h : offset < next ∧ next ≤ length then .ok ⟨next, h⟩ else .error (.stuck offset next)

theorem onward_eq {length offset next : Nat} (h : offset < next) (hle : next ≤ length) :
    onward length offset next = .ok ⟨next, h, hle⟩ :=
  dif_pos ⟨h, hle⟩

/-! ## Lists -/

def item {α : Type} (xs : List α) (index : Nat) : Checked α :=
  match xs[index]? with
  | some x => .ok x
  | none => .error (.item index xs.length)

theorem item_eq {α : Type} {xs : List α} {index : Nat} {x : α} (h : xs[index]? = some x) :
    item xs index = .ok x := by
  rw [item, h]

def items {α : Type} (xs : List α) (start stop : Nat) : Checked (List α) :=
  if start ≤ stop ∧ stop ≤ xs.length then .ok ((xs.drop start).take (stop - start))
  else .error (.items start stop xs.length)

theorem items_eq {α : Type} {xs : List α} {start stop : Nat} (h : start ≤ stop)
    (hle : stop ≤ xs.length) : items xs start stop = .ok ((xs.drop start).take (stop - start)) :=
  if_pos ⟨h, hle⟩

theorem items_length {α : Type} {xs : List α} {start : Nat} (h : start ≤ xs.length) :
    items xs start xs.length = .ok (xs.drop start) := by
  rw [items_eq h (Nat.le_refl _), List.take_of_length_le (Nat.le_of_eq List.length_drop)]

/-- Computations for each item of a list, one after the other. -/
theorem mapM_eq {α β : Type} {f : α → Checked β} {g : α → β} {xs : List α}
    (h : ∀ x ∈ xs, f x = .ok (g x)) : xs.mapM f = .ok (xs.map g) := by
  induction xs with
  | nil => rfl
  | cons x xs ih =>
      rw [List.mapM_cons, h x List.mem_cons_self, ok_bind,
        ih fun y hy => h y (List.mem_cons_of_mem x hy)]
      rfl

theorem mapM_forall₂ {α β γ : Type} {f : α → Checked γ} {g : β → γ} {xs : List α} {ys : List β}
    (h : List.Forall₂ (fun x y => f x = .ok (g y)) xs ys) : xs.mapM f = .ok (ys.map g) := by
  induction h with
  | nil => rfl
  | cons hx _ ih =>
      rw [List.mapM_cons, hx, ok_bind, ih]
      rfl

/-- The lists computed for the items of a list, joined. -/
def flatMap {α β : Type} (f : α → Checked (List β)) (xs : List α) : Checked (List β) := do
  return (← xs.mapM f).flatten

theorem flatMap_eq {α β : Type} {f : α → Checked (List β)} {g : α → List β} {xs : List α}
    (h : ∀ x ∈ xs, f x = .ok (g x)) : flatMap f xs = .ok (xs.flatMap g) := by
  rw [flatMap, mapM_eq h, ok_bind]
  rfl

/-- What is computed for the items of a list for which there is something. -/
def filterMap {α β : Type} (f : α → Checked (Option β)) (xs : List α) : Checked (List β) := do
  return (← xs.mapM f).filterMap id

theorem filterMap_eq {α β : Type} {f : α → Checked (Option β)} {g : α → Option β} {xs : List α}
    (h : ∀ x ∈ xs, f x = .ok (g x)) : filterMap f xs = .ok (xs.filterMap g) := by
  rw [filterMap, mapM_eq h, ok_bind, pure_eq, List.filterMap_map]
  rfl

/-- The items of a list that pass a test. -/
def filter {α : Type} (f : α → Checked Bool) : List α → Checked (List α)
  | [] => return []
  | x :: xs => do
      if ← f x then return x :: (← filter f xs) else filter f xs

theorem filter_eq {α : Type} {f : α → Checked Bool} {g : α → Bool} {xs : List α}
    (h : ∀ x ∈ xs, f x = .ok (g x)) : filter f xs = .ok (xs.filter g) := by
  induction xs with
  | nil => rfl
  | cons x xs ih =>
      rw [filter, h x List.mem_cons_self, ok_bind, List.filter_cons,
        ih fun y hy => h y (List.mem_cons_of_mem x hy)]
      cases g x <;> rfl

def find? {α : Type} (f : α → Checked Bool) : List α → Checked (Option α)
  | [] => return none
  | x :: xs => do
      if ← f x then return some x else find? f xs

theorem find?_eq {α : Type} {f : α → Checked Bool} {g : α → Bool} {xs : List α}
    (h : ∀ x ∈ xs, f x = .ok (g x)) : find? f xs = .ok (xs.find? g) := by
  induction xs with
  | nil => rfl
  | cons x xs ih =>
      rw [find?, h x List.mem_cons_self, ok_bind, List.find?_cons,
        ih fun y hy => h y (List.mem_cons_of_mem x hy)]
      cases g x <;> rfl

/-! ## Texts -/

/-- The part of a text between two offsets. -/
def slice (text : Text) (start stop : Nat) : Checked Text :=
  if start ≤ stop ∧ Text.isBoundary text start ∧ Text.isBoundary text stop then
    .ok (Text.takeBytes (stop - start) (Text.dropBytes start text))
  else .error (.slice start stop)

def sliceFrom (text : Text) (start : Nat) : Checked Text :=
  slice text start (Text.byteLength text)

def sliceTo (text : Text) (stop : Nat) : Checked Text :=
  slice text 0 stop

theorem slice_append (a b c : Text) :
    slice (a ++ (b ++ c)) (Text.byteLength a) (Text.byteLength a + Text.byteLength b) = .ok b := by
  have hstop : Text.isBoundary (a ++ (b ++ c)) (Text.byteLength a + Text.byteLength b) = true := by
    rw [← Text.byteLength_append, ← List.append_assoc]
    exact Text.isBoundary_append (a ++ b) c
  rw [slice, if_pos ⟨Nat.le_add_right _ _, Text.isBoundary_append a (b ++ c), hstop⟩,
    Nat.add_sub_cancel_left, Text.dropBytes_append_byteLength, Text.takeBytes_append_byteLength]

/-- A part of a text is what stands between its ends. -/
theorem slice_eq {text a b c : Text} {start stop : Nat} (h : text = a ++ (b ++ c))
    (hstart : start = Text.byteLength a) (hstop : stop = Text.byteLength a + Text.byteLength b) :
    slice text start stop = .ok b := by
  rw [h, hstart, hstop, slice_append]

theorem sliceFrom_eq {text a b : Text} {start : Nat} (h : text = a ++ b)
    (hstart : start = Text.byteLength a) : sliceFrom text start = .ok b :=
  slice_eq (c := []) (by rw [h, List.append_nil]) hstart (by rw [h, Text.byteLength_append])

theorem sliceTo_eq {text a b : Text} {stop : Nat} (h : text = a ++ b)
    (hstop : stop = Text.byteLength a) : sliceTo text stop = .ok a :=
  slice_eq (a := []) h rfl (by rw [hstop, Text.byteLength_nil, Nat.zero_add])

theorem sliceFrom_boundary {text : Text} {offset : Nat} (h : Text.isBoundary text offset = true) :
    sliceFrom text offset = .ok (Text.dropBytes offset text) := by
  obtain ⟨a, b, rfl, rfl⟩ := Text.isBoundary_iff.mp h
  rw [sliceFrom_eq rfl rfl, Text.dropBytes_append_byteLength]

theorem sliceTo_boundary {text : Text} {offset : Nat} (h : Text.isBoundary text offset = true) :
    sliceTo text offset = .ok (Text.takeBytes offset text) := by
  obtain ⟨a, b, rfl, rfl⟩ := Text.isBoundary_iff.mp h
  rw [sliceTo_eq rfl rfl, Text.takeBytes_append_byteLength]

/-- Between boundaries, cutting is possible and clamps nothing. -/
theorem slice_wellPlaced {text : Text} {s : Span} (h : s.WellPlaced text) :
    slice text s.start s.stop = .ok (Text.slice text s) := by
  rw [slice, if_pos ⟨h.ordered, h.start_boundary, h.stop_boundary⟩, Text.slice,
    Text.clampSpan_of_wellPlaced h]

@[simp] theorem minus_trimBlanksStart (text : Text) :
    minus (Text.byteLength text) (Text.byteLength (Text.trimBlanksStart text)) =
      .ok (Text.byteLength (text.takeWhile isBlank)) := by
  have hsplit : Text.byteLength text = Text.byteLength (text.takeWhile isBlank) +
      Text.byteLength (Text.trimBlanksStart text) := by
    rw [Text.trimBlanksStart, ← Text.byteLength_append, List.takeWhile_append_dropWhile]
  rw [hsplit, minus_add]

/-- A cut inside a character is a fault, and so is one behind the end. -/
example : slice ['é', 'x'] 0 2 = .ok ['é'] ∧ slice ['é', 'x'] 0 1 = .error (.slice 0 1) ∧
    slice ['é', 'x'] 2 4 = .error (.slice 2 4) :=
  ⟨rfl, rfl, rfl⟩

end Checked

end Dockerfile
