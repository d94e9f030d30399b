import Mathlib.Data.List.Pairwise
import Dockerfile.Proofs.File.Respelled
import Dockerfile.Scope.Symbol

/-!
# Places that change together

Stretches of a text that do not overlap stand one behind the other. Sorted by where they start, they
can be replaced one by one (`File.Mentioned.exists_names`): these are the edits of a renaming.
-/

namespace Dockerfile

def Apart (a b : List Placed) : Prop :=
  (∀ p ∈ a, ∀ q ∈ b, p.stop ≤ q.offset) ∨ ∀ p ∈ a, ∀ q ∈ b, q.stop ≤ p.offset

theorem Apart.symm {a b : List Placed} (h : Apart a b) : Apart b a := by
  rcases h with h | h
  · exact .inr fun p hp q hq => h q hq p hp
  · exact .inl fun p hp q hq => h q hq p hp

/-- Stretches with a character in common are not apart. -/
theorem Apart.disjoint {a b : List Placed} (h : Apart a b) {p : Placed} (ha : p ∈ a) : p ∉ b := by
  intro hb
  have := p.offset_lt_stop
  rcases h with h | h
  · have := h p ha p hb
    omega
  · have := h p ha p hb
    omega

section Items

variable {α : Type} {f : α → List Placed} {items : List α} {a b : α}
  (h : items.Pairwise fun a b => Apart (f a) (f b)) (ha : a ∈ items) (hb : b ∈ items)

include h ha hb

theorem apart_of_ne (hne : a ≠ b) : Apart (f a) (f b) := by
  have hsymm : Std.Symm fun a b => Apart (f a) (f b) := ⟨fun _ _ => Apart.symm⟩
  exact h.forall ha hb hne

/-- Items whose stretches have a character in common are the same. -/
theorem eq_of_apart {p : Placed} (hpa : p ∈ f a) (hpb : p ∈ f b) : a = b := by
  by_contra hne
  exact (apart_of_ne h ha hb hne).disjoint hpa hpb

end Items

/-- What does not overlap a stretch lies on one side of it. -/
theorem infix_of_disjoint {α : Type} {s a t b : List α} (ha : a ≠ []) (hb : b ≠ [])
    (h : b <:+: s ++ (a ++ t)) (hd : List.Disjoint a b) : b <:+: s ∨ b <:+: t := by
  obtain ⟨x, a, rfl⟩ := List.exists_cons_of_ne_nil ha
  obtain ⟨y, b, rfl⟩ := List.exists_cons_of_ne_nil hb
  rcases List.infix_append_iff.mp h with h | h | ⟨b₁, b₂, hsplit, h₁, h₂⟩
  · exact .inl h
  · rcases List.infix_append_iff.mp h with h | h | ⟨b₁, b₂, hsplit, h₁, h₂⟩
    · exact absurd List.mem_cons_self (hd (h.mem List.mem_cons_self))
    · exact .inr h
    · cases b₁ with
      | nil =>
          rw [hsplit]
          exact .inr h₂.isInfix
      | cons z b₁ =>
          obtain ⟨rfl, -⟩ := List.cons.inj hsplit
          exact absurd List.mem_cons_self (hd (h₁.mem List.mem_cons_self))
  · cases b₂ with
    | nil =>
        rw [hsplit, List.append_nil]
        exact .inl h₁.isInfix
    | cons z b₂ =>
        obtain ⟨more, hmore⟩ := h₂
        obtain ⟨rfl, -⟩ := List.cons.inj hmore
        refine absurd ?_ (hd List.mem_cons_self)
        rw [hsplit]
        exact List.mem_append_right _ List.mem_cons_self

theorem apart_of_disjoint {chars a b : List Placed}
    (ordered : chars.Pairwise fun p q => p.stop ≤ q.offset) (ha : a ≠ []) (hb : b ≠ [])
    (hia : a <:+: chars) (hib : b <:+: chars) (hd : List.Disjoint a b) : Apart a b := by
  obtain ⟨s, t, rfl⟩ := hia
  rw [List.append_assoc] at ordered hib
  rw [List.pairwise_append, List.pairwise_append] at ordered
  rcases infix_of_disjoint ha hb hib hd with h | h
  · exact .inr fun p hp q hq => ordered.2.2 q (h.mem hq) p (List.mem_append_left _ hp)
  · exact .inl fun p hp q hq => ordered.2.1.2.2 p hp q (h.mem hq)

/-! ## Sorted places -/

theorem Excerpt.span_eq_reach {e : Excerpt} (h : e.chars ≠ []) : e.span = Placed.reach e.chars := by
  obtain ⟨chars, anchor⟩ := e
  obtain ⟨p, rest, rfl⟩ := List.exists_cons_of_ne_nil h
  simp only [span, Placed.reach, start, stop, Placed.startOr_cons, Placed.stopOr,
    List.getLast?_cons]

theorem Placed.exists_reach {a : List Placed} (ha : a ≠ []) :
    ∃ p ∈ a, (reach a).start = p.offset := by
  obtain ⟨p, a, rfl⟩ := List.exists_cons_of_ne_nil ha
  exact ⟨p, List.mem_cons_self, rfl⟩

/-- A stretch reaches no further than one of its characters. -/
theorem Placed.exists_reach_stop {a : List Placed} (ha : a ≠ []) :
    ∃ p ∈ a, (reach a).stop ≤ p.stop := by
  obtain ⟨front, last, rfl⟩ := (List.eq_nil_or_concat a).resolve_left ha
  rw [List.concat_eq_append] at ha ⊢
  obtain ⟨first, hfirst, hstart⟩ := exists_reach ha
  have hlast : (reach (front ++ [last])).stop = max last.stop (reach (front ++ [last])).start := by
    simp only [reach, Excerpt.span, Excerpt.stop, stopOr, List.getLast?_concat]
  rw [hlast, hstart]
  rcases Nat.le_total last.stop first.offset with h | h
  · rw [Nat.max_eq_right h]
    exact ⟨first, hfirst, Nat.le_of_lt first.offset_lt_stop⟩
  · rw [Nat.max_eq_left h]
    exact ⟨last, by simp, Nat.le_refl _⟩

theorem eq_of_reach {α : Type} {f : α → List Placed} {items : List α} {a b : α}
    (h : items.Pairwise fun a b => Apart (f a) (f b)) (ha : a ∈ items) (hb : b ∈ items)
    (hne : f a ≠ []) (hne' : f b ≠ []) (hreach : Placed.reach (f a) = Placed.reach (f b)) : a = b := by
  obtain ⟨p, hp, hpa⟩ := Placed.exists_reach hne
  obtain ⟨q, hq, hqb⟩ := Placed.exists_reach hne'
  have hoffset : p.offset = q.offset := by rw [← hpa, ← hqb, hreach]
  by_contra hab
  have := p.offset_lt_stop
  have := q.offset_lt_stop
  rcases apart_of_ne h ha hb hab with h | h
  · have := h p hp q hq
    omega
  · have := h p hp q hq
    omega

/-! ## Selected items -/

structure Selected {α : Type} (f : α → List Placed) (isSelected : α → Bool) (items : List α)
    (names : List (List Placed)) : Prop where
  nonempty : ∀ a ∈ items, f a ≠ []
  apart : items.Pairwise fun a b => Apart (f a) (f b)
  mem : ∀ name, name ∈ names ↔ ∃ a ∈ items, isSelected a = true ∧ f a = name

section Selection

variable {α : Type} {f : α → List Placed} {isSelected isDeclaration : α → Bool} {items : List α}

namespace Selected

variable {names : List (List Placed)} (h : Selected f isSelected items names)

include h

theorem mem_iff {a : α} (ha : a ∈ items) : f a ∈ names ↔ isSelected a = true := by
  rw [h.mem]
  constructor
  · rintro ⟨b, hb, hselected, hsame⟩
    have hreach : Placed.reach (f b) = Placed.reach (f a) := by rw [hsame]
    rwa [← eq_of_reach h.apart hb ha (h.nonempty b hb) (h.nonempty a ha) hreach]
  · intro hselected
    exact ⟨a, ha, hselected, rfl⟩

/-- Each item is replaced as a whole or left as it is. -/
theorem text_of_respelled {new : Text} {a : α} (ha : a ∈ items) {out : List Placed}
    (hresp : Respelled InOnePiece names new (f a) out) :
    Placed.text out = if isSelected a then new else Placed.text (f a) := by
  by_cases hselected : isSelected a = true
  · have hin := (h.mem_iff ha).mpr hselected
    rw [if_pos hselected]
    generalize hfa : f a = chars at hin hresp
    cases hresp with
    | nil => exact absurd hfa (h.nonempty a ha)
    | keep kept => exact absurd ⟨_, hin, rfl⟩ kept
    | @name p chars name rest fresh rest' mem spelled written next =>
        obtain ⟨b, hb, -, hname⟩ := (h.mem _).mp mem
        have hpa : p ∈ f a := by rw [hfa]; exact List.mem_cons_self
        have hpb : p ∈ f b := by rw [hname]; exact List.mem_cons_self
        have hsame := eq_of_apart h.apart ha hb hpa hpb
        rw [← hsame, hfa, show p :: chars = (p :: name) ++ rest from spelled] at hname
        obtain rfl := List.append_right_eq_self.mp hname
        rw [next.eq_nil, List.append_nil]
        exact written
  · rw [if_neg hselected]
    refine hresp.text_eq ?_
    rintro p hp ⟨name, hname, hhead⟩
    obtain ⟨b, hb, hselected', rfl⟩ := (h.mem name).mp hname
    obtain rfl := eq_of_apart h.apart ha hb hp (List.mem_of_head? hhead)
    exact hselected hselected'

end Selected

theorem mem_sortByStart (hnonempty : ∀ a ∈ items, f a ≠ [])
    (hapart : items.Pairwise fun a b => Apart (f a) (f b)) {a : α} (ha : a ∈ items) :
    (⟨Placed.reach (f a), isDeclaration a⟩ : Occurrence) ∈ ScopeTable.sortByStart
      ((items.filter isSelected).map fun b => ⟨Placed.reach (f b), isDeclaration b⟩) ↔
        isSelected a = true := by
  rw [ScopeTable.sortByStart, List.mem_mergeSort, List.mem_map]
  constructor
  · rintro ⟨b, hb, hsame⟩
    obtain ⟨hb, hselected⟩ := List.mem_filter.mp hb
    obtain ⟨hreach, -⟩ := Occurrence.mk.inj hsame
    rwa [← eq_of_reach hapart hb ha (hnonempty b hb) (hnonempty a ha) hreach]
  · intro hselected
    exact ⟨a, List.mem_filter.mpr ⟨ha, hselected⟩, rfl⟩

end Selection

/-! ## The mentions of a file -/

namespace File

variable {text : Text}

theorem region_ordered {inst : Instruction} (h : inst ∈ (parse text).instructions) :
    inst.region.chars.Pairwise fun p q => p.stop ≤ q.offset :=
  (Text.pairwise_place 0 text).sublist
    ((List.sublist_append_right _ _).trans (instruction_within h).chars)

theorem region_nodup {inst : Instruction} (h : inst ∈ (parse text).instructions) :
    inst.region.chars.Nodup :=
  Placed.nodup_of_pairwise (region_ordered h)

theorem escape_of_mem {inst : Instruction} (h : inst ∈ (parse text).instructions) :
    inst.escape = (parse text).escape := by
  obtain ⟨start, -, rfl⟩ := Body.exists_lineAt_of_mem (mem_logicalLines h)
  rfl

structure Mentioned {α : Type} (text : Text) (f : α → List Placed)
    (mentions : Instruction → List (List Placed)) (items : List α) : Prop where
  listed : (items.map f).Perm ((parse text).instructions.flatMap mentions)
  placed : ∀ inst, ∀ name ∈ mentions inst, name ≠ [] ∧ name <:+: inst.region.chars
  disjoint : ∀ inst, inst.region.chars.Nodup → (mentions inst).Pairwise List.Disjoint

namespace Mentioned

variable {α : Type} {f : α → List Placed} {mentions : Instruction → List (List Placed)}
  {items : List α} (h : Mentioned text f mentions items)

include h

theorem exists_instruction {a : α} (ha : a ∈ items) :
    ∃ inst ∈ (parse text).instructions, f a ∈ mentions inst :=
  List.mem_flatMap.mp (h.listed.mem_iff.mp (List.mem_map_of_mem ha))

theorem nonempty {a : α} (ha : a ∈ items) : f a ≠ [] := by
  obtain ⟨inst, -, hin⟩ := h.exists_instruction ha
  exact (h.placed inst _ hin).1

/-- What is kept from each other in instructions is so in the file, as there are gaps between them. -/
theorem pairwise {R : List Placed → List Placed → Prop} (hsymm : ∀ {a b}, R a b → R b a)
    (hgap : ∀ {a b}, (∀ p ∈ a, ∀ q ∈ b, p.stop < q.offset) → R a b)
    (hinst : ∀ inst ∈ (parse text).instructions, (mentions inst).Pairwise R) :
    items.Pairwise fun a b => R (f a) (f b) := by
  have hinsts : ((parse text).instructions.flatMap mentions).Pairwise R := by
    refine List.pairwise_flatMap.mpr ⟨hinst, (instructions_separated text).imp ?_⟩
    intro inst other hsep a ha b hb
    refine hgap fun p hp q hq => hsep p ?_ q ?_
    · exact List.mem_append_right _ ((h.placed inst a ha).2.mem hp)
    · exact List.mem_append_right _ ((h.placed other b hb).2.mem hq)
  exact List.pairwise_map.mp ((h.listed.pairwise_iff hsymm).mpr hinsts)

/-- What is mentioned in instructions without overlap is apart in the file. -/
theorem apart : items.Pairwise fun a b => Apart (f a) (f b) := by
  refine h.pairwise Apart.symm ?_ ?_
  · exact fun hgap => .inl fun p hp q hq => Nat.le_of_lt (hgap p hp q hq)
  · intro inst hinst
    refine (h.disjoint inst (region_nodup hinst)).imp_of_mem ?_
    intro a b ha hb hab
    obtain ⟨hane, ha⟩ := h.placed inst a ha
    obtain ⟨hbne, hb⟩ := h.placed inst b hb
    exact apart_of_disjoint (region_ordered hinst) hane hbne ha hb hab

theorem exists_of_begins {isSelected : α → Bool} {names : List (List Placed)}
    (hselected : Selected f isSelected items names) {inst : Instruction}
    (hinst : inst ∈ (parse text).instructions) {q : Placed} (hq : q ∈ inst.region.chars)
    (hbegins : Begins names q) : ∃ name ∈ names, name ∈ mentions inst ∧ q ∈ name := by
  obtain ⟨name, hname, hhead⟩ := hbegins
  obtain ⟨a, ha, -, rfl⟩ := (hselected.mem name).mp hname
  obtain ⟨other, hother, hin⟩ := h.exists_instruction ha
  have hqa := List.mem_of_head? hhead
  obtain rfl := eq_of_mem_chars (mem_logicalLines hinst) (mem_logicalLines hother)
    (List.mem_append_right _ hq) (List.mem_append_right _ ((h.placed other _ hin).2.mem hqa))
  exact ⟨f a, hname, hin, hqa⟩

theorem exists_names (isSelected isDeclaration : α → Bool) :
    ∃ names, Mentions text names ∧ Selected f isSelected items names ∧
      ∀ new, ((ScopeTable.sortByStart ((items.filter isSelected).map fun a =>
        ⟨Placed.reach (f a), isDeclaration a⟩)).map fun o => TextEdit.ofSpan text o.span new) =
          TextEdit.respell text names new := by
  have hkept : ∀ a ∈ items,
      f a ≠ [] ∧ ∃ inst ∈ (parse text).instructions, f a <:+: inst.region.chars := by
    intro a ha
    obtain ⟨inst, hinst, hin⟩ := h.exists_instruction ha
    exact ⟨h.nonempty ha, inst, hinst, (h.placed inst _ hin).2⟩
  let le (a b : α) : Bool := (Placed.reach (f a)).start ≤ (Placed.reach (f b)).start
  have hperm := List.mergeSort_perm (items.filter isSelected) le
  have hmem (a : α) : a ∈ (items.filter isSelected).mergeSort le ↔ a ∈ items ∧ isSelected a = true := by
    rw [hperm.mem_iff, List.mem_filter]
  refine ⟨((items.filter isSelected).mergeSort le).map f, ⟨?_, ?_⟩, ⟨?_, h.apart, ?_⟩, ?_⟩
  · intro name hname
    obtain ⟨a, ha, rfl⟩ := List.mem_map.mp hname
    exact hkept a ((hmem a).mp ha).1
  · -- Where one stretch starts before another, it stands in front of it.
    have hsorted := @List.pairwise_mergeSort _ le (by simp only [le, decide_eq_true_eq]; omega)
      (by simp only [le, Bool.or_eq_true, decide_eq_true_eq]; omega) (items.filter isSelected)
    have happart := (hperm.pairwise_iff fun h => Apart.symm h).mpr (h.apart.sublist List.filter_sublist)
    refine List.pairwise_map.mpr ((hsorted.and happart).imp_of_mem ?_)
    rintro a b ha hb ⟨hle, hab | hab⟩
    · exact hab
    · obtain ⟨p, hp, hstart⟩ := Placed.exists_reach (hkept a ((hmem a).mp ha).1).1
      obtain ⟨q, hq, hstart'⟩ := Placed.exists_reach (hkept b ((hmem b).mp hb).1).1
      have hbefore := hab p hp q hq
      have := q.offset_lt_stop
      simp only [le, decide_eq_true_eq] at hle
      omega
  · exact fun a ha => h.nonempty ha
  · intro name
    rw [List.mem_map]
    constructor
    · rintro ⟨a, ha, rfl⟩
      exact ⟨a, ((hmem a).mp ha).1, ((hmem a).mp ha).2, rfl⟩
    · rintro ⟨a, ha, hselected, rfl⟩
      exact ⟨a, (hmem a).mpr ⟨ha, hselected⟩, rfl⟩
  · intro new
    have hmap := @List.map_mergeSort _ _ le (fun a b : Occurrence => a.span.start ≤ b.span.start)
      (fun a => ⟨Placed.reach (f a), isDeclaration a⟩) (items.filter isSelected) fun _ _ _ _ => rfl
    rw [ScopeTable.sortByStart, ← hmap, List.map_map, TextEdit.respell, List.map_map]
    rfl

end Mentioned

end File

end Dockerfile
