import Dockerfile.Proofs.Check.Settings
import Mathlib.Data.List.Dedup

/-!
# Gathered findings

Findings that compare instructions are made by gathering things under keys and looking at each
group. A hash map gives its groups in no order that can be relied on. The groups hold the same things
in any order (`Gathers.flatMap_perm`), and a stable sort leaves nothing of the order of findings that
stand at different places (`filter_key_eq_of_perm`, `mergeSort_eq_of_ties`).
-/

namespace Dockerfile

/-! ## Groups -/

/-- Things gathered under their keys: each key once, in any order, with the things of that key in the
order in which they came. -/
structure Gathers {κ α : Type} [DecidableEq κ] (key : α → κ) (items : List α)
    (groups : List (κ × List α)) : Prop where
  keys_nodup : (groups.map Prod.fst).Nodup
  complete : ∀ x ∈ items, key x ∈ groups.map Prod.fst
  group : ∀ g ∈ groups, g.2 = items.filter fun x => key x = g.1

section Gathering

variable {κ α : Type} [DecidableEq κ] {key : α → κ} {items : List α} {groups : List (κ × List α)}

/-- Gathers things under their keys, the keys in the order in which they came last. -/
def gather (key : α → κ) (items : List α) : List (κ × List α) :=
  (items.map key).dedup.map fun k => (k, items.filter fun x => key x = k)

theorem gathers_gather (key : α → κ) (items : List α) : Gathers key items (gather key items) where
  keys_nodup := by
    rw [gather, List.map_map]
    simpa [Function.comp_def] using List.nodup_dedup (items.map key)
  complete := by
    intro x hx
    rw [gather, List.map_map]
    simpa [Function.comp_def] using ⟨x, hx, rfl⟩
  group := by
    intro g hg
    obtain ⟨k, -, rfl⟩ := List.mem_map.mp hg
    rfl

/-- Taking the things of one key after the other takes each thing once. -/
theorem flatMap_filter_perm {keys : List κ} (hnodup : keys.Nodup)
    (hcomplete : ∀ x ∈ items, key x ∈ keys) :
    (keys.flatMap fun k => items.filter fun x => key x = k).Perm items := by
  induction keys generalizing items with
  | nil =>
      cases items with
      | nil => exact .nil
      | cons x items => cases hcomplete x List.mem_cons_self
  | cons k keys ih =>
      obtain ⟨hk, hnodup⟩ := List.nodup_cons.mp hnodup
      have hothers : (keys.flatMap fun k' => items.filter fun x => key x = k') =
          keys.flatMap fun k' => (items.filter fun x => !decide (key x = k)).filter fun x =>
            key x = k' := by
        refine List.flatMap_congr fun k' hk' => ?_
        rw [List.filter_filter]
        refine List.filter_congr fun x _ => ?_
        have hne : k' ≠ k := fun h => hk (h ▸ hk')
        by_cases hx : key x = k'
        · simp [hx, hne]
        · simp [hx]
      have hrest : ∀ x ∈ items.filter (fun x => !decide (key x = k)), key x ∈ keys := by
        intro x hx
        obtain ⟨hx, hne⟩ := List.mem_filter.mp hx
        rcases List.mem_cons.mp (hcomplete x hx) with h | h
        · simp [h] at hne
        · exact h
      rw [List.flatMap_cons, hothers]
      exact ((ih hnodup hrest).append_left _).trans (List.filter_append_perm _ items)

/-- What is made of each group by looking at one thing after the other is made of all things. -/
theorem Gathers.flatMap_perm {β : Type} (h : Gathers key items groups) {kept : List α}
    (hkept : kept.Sublist items) {make : κ × List α → List β} {f : α → β}
    (hmake : ∀ k, make (k, items.filter fun x => key x = k) =
      (kept.filter fun x => key x = k).map f) :
    (groups.flatMap make).Perm (kept.map f) := by
  have hgroups : groups.flatMap make =
      ((groups.map Prod.fst).flatMap fun k => kept.filter fun x => key x = k).map f := by
    rw [List.map_flatMap, List.flatMap_map]
    refine List.flatMap_congr fun g hg => ?_
    rw [← hmake, ← h.group g hg]
  rw [hgroups]
  exact (flatMap_filter_perm h.keys_nodup fun x hx => h.complete x (hkept.mem hx)).map f

end Gathering

/-! ## Sorting -/

section Ties

variable {α β : Type} {le : α → α → Bool} {key : α → β}

/-- Sorted lists are equal if they hold the same things at each key. -/
theorem eq_of_sorted_of_ties [DecidableEq β] (hkey : ∀ a b, le a b → le b a → key a = key b)
    {xs ys : List α} (hxs : xs.Pairwise fun a b => le a b) (hys : ys.Pairwise fun a b => le a b)
    (hties : ∀ k, (xs.filter fun x => key x = k) = ys.filter fun y => key y = k) : xs = ys := by
  induction xs generalizing ys with
  | nil =>
      cases ys with
      | nil => rfl
      | cons b ys => simpa using hties (key b)
  | cons a xs ih =>
      cases ys with
      | nil => simpa using hties (key a)
      | cons b ys =>
          have hmem : ∀ {c : α} {zs ws : List α}, c ∈ zs →
              (zs.filter fun x => key x = key c) = (ws.filter fun x => key x = key c) → c ∈ ws := by
            intro c zs ws hc h
            have hfilter : c ∈ zs.filter fun x => key x = key c := by simpa using hc
            rw [h] at hfilter
            exact (List.mem_filter.mp hfilter).1
          -- Each of the two first elements stands in the other list, so they are at one key.
          have hsame : key a = key b := by
            rcases List.mem_cons.mp (hmem List.mem_cons_self (hties (key a))) with rfl | ha
            · rfl
            rcases List.mem_cons.mp (hmem List.mem_cons_self (hties (key b)).symm) with rfl | hb
            · rfl
            exact hkey a b ((List.pairwise_cons.mp hxs).1 b hb) ((List.pairwise_cons.mp hys).1 a ha)
          have hhead := hties (key a)
          rw [List.filter_cons_of_pos (by simp), List.filter_cons_of_pos (by simp [hsame])] at hhead
          obtain ⟨rfl, -⟩ := List.cons.inj hhead
          rw [ih (List.pairwise_cons.mp hxs).2 (List.pairwise_cons.mp hys).2 fun k => ?_]
          have htail := hties k
          by_cases hk : key a = k
          · rw [List.filter_cons_of_pos (by simp [hk]), List.filter_cons_of_pos (by simp [hk])]
              at htail
            exact (List.cons.inj htail).2
          · rwa [List.filter_cons_of_neg (by simp [hk]), List.filter_cons_of_neg (by simp [hk])]
              at htail

/-- A stable sort depends only on the order of the things at each key. -/
theorem mergeSort_eq_of_ties [DecidableEq β] (trans : ∀ a b c, le a b → le b c → le a c)
    (total : ∀ a b, le a b || le b a) (hkey : ∀ a b, le a b → le b a → key a = key b)
    {xs ys : List α}
    (hties : ∀ k, (xs.filter fun x => key x = k) = ys.filter fun y => key y = k) :
    xs.mergeSort le = ys.mergeSort le := by
  have hfilter : ∀ (k : β) (zs : List α), ((zs.mergeSort le).filter fun z => key z = k) =
      (zs.filter fun z => key z = k).mergeSort le := by
    intro k zs
    rw [← List.filterMap_eq_filter]
    refine filterMap_mergeSort trans total (fun a b a' b' ha hb => ?_) zs
    rw [(Option.guard_eq_some_iff.mp ha).1, (Option.guard_eq_some_iff.mp hb).1]
  refine eq_of_sorted_of_ties hkey (List.pairwise_mergeSort trans total xs)
    (List.pairwise_mergeSort trans total ys) fun k => ?_
  rw [hfilter, hfilter, hties]

/-- Things at different keys may be given in any order. -/
theorem filter_key_eq_of_perm [DecidableEq β] {ys ys' : List α} (hperm : ys'.Perm ys)
    (hnodup : (ys.map key).Nodup) (k : β) :
    (ys'.filter fun y => key y = k) = ys.filter fun y => key y = k := by
  have hone : (ys.filter fun y => key y = k).length ≤ 1 := by
    rw [← List.countP_eq_length_filter]
    have := List.nodup_iff_count_le_one.mp hnodup k
    rwa [List.count_eq_countP, List.countP_map] at this
  have hfilter := hperm.filter fun y => key y = k
  cases hys : ys.filter fun y => key y = k with
  | nil =>
      rw [hys] at hfilter
      exact hfilter.eq_nil
  | cons y rest =>
      rw [hys, List.length_cons] at hone
      obtain rfl : rest = [] := List.length_eq_zero_iff.mp (by omega)
      rw [hys] at hfilter
      exact List.perm_singleton.mp hfilter

end Ties

end Dockerfile
