import Dockerfile.Proofs.Directive.Entry
import Mathlib.Data.List.Forall2

/-!
# Directives one by one

Each directive takes a line and the lines in which its value goes on (`Directive.Blocks`). The lines of
one directive can be replaced by those of another without touching the others, as long as the value
still ends where it did (`Directive.Blocks.exists_of_mem`).
-/

namespace Dockerfile

namespace Directive

inductive Extends : Directive → List Line → Directive → Prop
  | nil (d : Directive) : Extends d [] d
  | cons {d e : Directive} {line : Line} {lines : List Line} (goes_on : d.isOpen = true)
      (rest : Extends (d.extend line) lines e) : Extends d (line :: lines) e

inductive Blocks : List Line → List Directive → Prop
  | nil : Blocks [] []
  | cons {line : Line} {lines rest : List Line} {first d : Directive} {found : List Directive}
      (read : ofLine? line = some first) (extended : Extends first lines d)
      (ends : rest ≠ [] → d.isOpen = false) (next : Blocks rest found) :
      Blocks (line :: (lines ++ rest)) (d :: found)

theorem Blocks.eq_nil_iff {lines : List Line} {found : List Directive} (h : Blocks lines found) :
    lines = [] ↔ found = [] := by
  cases h <;> simp

theorem isOpen_of_value {d d' : Directive} (h : d'.value = d.value) : d'.isOpen = d.isOpen := by
  rw [isOpen, isOpen, h]

section Taken

variable {lines rest : List Line} {found : List Directive} {last : Option Directive}

theorem Extends.taken {d e : Directive} (h : Extends d lines e) (hrest : Taken (some e) rest found last) :
    Taken (some d) (lines ++ rest) found last := by
  induction h with
  | nil => exact hrest
  | cons goes_on _ ih => exact .extend goes_on (ih hrest)

theorem Blocks.taken (h : Blocks lines found) : Taken none lines found found.getLast? := by
  induction h with
  | nil => exact .done none
  | @cons line lines rest first d found read extended ends next ih =>
      refine .first read (extended.taken ?_)
      cases next with
      | nil => exact .done (some d)
      | cons read' extended' ends' next' =>
          cases ih with
          | first read' rest' =>
              rw [List.getLast?_cons_cons]
              exact .next (ends (by simp)) read' rest'

def Follow (lines : List Line) (found : List Directive) : Option Directive → Prop
  | none => Blocks lines found
  | some d => ∃ more rest e others, lines = more ++ rest ∧ Extends d more e ∧
      (rest ≠ [] → e.isOpen = false) ∧ Blocks rest others ∧ found = e :: others

theorem Taken.follow {current : Option Directive} (h : Taken current lines found last) :
    Follow lines found current ∧ last = found.getLast? := by
  induction h with
  | done current =>
      cases current with
      | none => exact ⟨.nil, rfl⟩
      | some d => exact ⟨⟨[], [], d, [], rfl, .nil d, by simp, .nil, rfl⟩, rfl⟩
  | @extend d last line lines found goes_on _ ih =>
      obtain ⟨⟨more, rest, e, others, rfl, hextends, hends, hblocks, rfl⟩, hlast⟩ := ih
      exact ⟨⟨line :: more, rest, e, others, rfl, .cons goes_on hextends, hends, hblocks, rfl⟩, hlast⟩
  | @next d next last line lines found ends read _ ih =>
      obtain ⟨⟨more, rest, e, others, rfl, hextends, hends, hblocks, rfl⟩, hlast⟩ := ih
      refine ⟨⟨[], _, d, _, rfl, .nil d, fun _ => ends, .cons read hextends hends hblocks, rfl⟩, ?_⟩
      rw [hlast, List.getLast?_cons_cons]
  | @first next last line lines found read _ ih =>
      obtain ⟨⟨more, rest, e, others, rfl, hextends, hends, hblocks, rfl⟩, hlast⟩ := ih
      exact ⟨.cons read hextends hends hblocks, hlast⟩

theorem Taken.blocks (h : Taken none lines found last) : Blocks lines found ∧ last = found.getLast? :=
  h.follow

end Taken

/-! ## Other lines -/

theorem Blocks.exists_of_mem {lines : List Line} {found : List Directive} (h : Blocks lines found)
    {d : Directive} (hd : d ∈ found) :
    ∃ before line more after first others found', lines = before ++ line :: (more ++ after) ∧
      found = others ++ d :: found' ∧ ofLine? line = some first ∧ Extends first more d ∧
      Blocks before others ∧ (∀ e ∈ others.getLast?, e.isOpen = false) ∧ Blocks after found' ∧
      ∀ {line' more' first' d' after' found''}, ofLine? line' = some first' →
        Extends first' more' d' → (d.isOpen = false → d'.isOpen = false) →
        Blocks after' found'' → (after' = [] ↔ after = []) →
        Blocks (before ++ line' :: (more' ++ after')) (others ++ d' :: found'') := by
  induction h with
  | nil => cases hd
  | @cons line lines rest first e found read extended ends next ih =>
      rcases List.mem_cons.mp hd with rfl | hd
      · refine ⟨[], line, lines, rest, first, [], found, rfl, rfl, read, extended, .nil, by simp, next,
          ?_⟩
        intro line' more' first' d' after' found'' hread hextends hopen hblocks hafter
        exact .cons hread hextends (fun hne => hopen (ends fun hnil => hne (hafter.mpr hnil))) hblocks
      · obtain ⟨before, l, more, after, first', others, found', rfl, rfl, hread, hextends, hbefore,
          hclosed, hblocks, hreplace⟩ := ih hd
        have hends : e.isOpen = false := ends (by simp)
        refine ⟨line :: (lines ++ before), l, more, after, first', e :: others, found', by simp, rfl,
          hread, hextends, .cons read extended (fun _ => hends) hbefore, ?_, hblocks, ?_⟩
        · rw [List.getLast?_cons]
          rintro e' ⟨⟩
          cases hlast : others.getLast? with
          | none => exact hends
          | some last => exact hclosed last hlast
        intro line' more' first'' d' after' found'' hread' hextends' hopen hblocks' hafter
        have hnext := hreplace hread' hextends' hopen hblocks' hafter
        have hall := Blocks.cons read extended (fun _ => hends) hnext
        simpa using hall

theorem Extends.congr {lines lines' : List Line} {d d' e : Directive} (h : Extends d lines e)
    (hlines : List.Forall₂ (fun l' l : Line => l'.content = l.content) lines' lines)
    (hvalue : d'.value = d.value) :
    ∃ e', Extends d' lines' e' ∧ e'.value = e.value ∧ e'.name = d'.name := by
  induction h generalizing lines' d' with
  | nil d =>
      cases hlines
      exact ⟨d', .nil d', hvalue, rfl⟩
  | @cons d e line lines goes_on _ ih =>
      cases hlines with
      | @cons line' _ lines' _ hline hlines =>
          obtain ⟨e', hextends, hvalue', hname⟩ := @ih lines' (d'.extend line') hlines (by
            show d'.value.dropLast ++ _ = d.value.dropLast ++ _
            rw [hvalue, hline])
          exact ⟨e', .cons (by rw [isOpen_of_value hvalue, goes_on]) hextends, hvalue', hname⟩

theorem Extends.name_eq {lines : List Line} {d e : Directive} (h : Extends d lines e) :
    e.name = d.name := by
  induction h with
  | nil => rfl
  | cons _ _ ih => exact ih

/-- A value that goes on in a further line is not empty. -/
theorem Extends.eq_of_missing {lines : List Line} {d e : Directive} (h : Extends d lines e)
    (hvalue : e.value = []) : lines = [] ∧ e = d := by
  induction h with
  | nil d => exact ⟨rfl, rfl⟩
  | @cons d e line lines goes_on _ ih =>
      obtain ⟨-, rfl⟩ := ih hvalue
      have hlength : 1 < d.value.length := by
        rw [isOpen, Bool.and_eq_true] at goes_on
        exact of_decide_eq_true goes_on.1
      have hnil := (List.append_eq_nil_iff.mp
        (hvalue : d.value.dropLast ++ Text.trimBlanksEnd line.content = [])).1
      have := congrArg List.length hnil
      rw [List.length_dropLast, List.length_nil] at this
      omega

theorem Extends.exists_last {lines : List Line} {d e : Directive} (h : Extends d lines e)
    (hne : lines ≠ []) :
    ∃ init last, lines = init ++ [last] ∧ e.valueSpan =
      ⟨d.valueSpan.start, last.start + Text.byteLength (Text.trimBlanksEnd last.content)⟩ := by
  induction h with
  | nil => exact absurd rfl hne
  | @cons d e line lines _ rest ih =>
      cases rest with
      | nil => exact ⟨[], line, rfl, rfl⟩
      | cons goes_on rest =>
          obtain ⟨init, last, hlines, hspan⟩ := ih (by simp)
          exact ⟨line :: init, last, by rw [hlines]; rfl, hspan⟩

theorem Blocks.congr {lines lines' : List Line} {found : List Directive} (h : Blocks lines found)
    (hlines : List.Forall₂ (fun l' l : Line => l'.content = l.content) lines' lines) :
    ∃ found', Blocks lines' found' ∧ found'.map entry = found.map entry := by
  induction h generalizing lines' with
  | nil =>
      cases hlines
      exact ⟨[], .nil, rfl⟩
  | @cons line lines rest first d found read extended ends next ih =>
      cases hlines with
      | @cons line' _ tail _ hline hlines =>
          have hmore := List.forall₂_take_append tail lines rest hlines
          have hrest := List.forall₂_drop_append tail lines rest hlines
          have hread : (ofLine? line').map entry = some first.entry := by
            rw [@ofLine?_congr_core line line' (by rw [hline]), read]
            rfl
          obtain ⟨first', hread', hentry⟩ := Option.map_eq_some_iff.mp hread
          obtain ⟨d', hextends, hvalue, hname⟩ :=
            extended.congr hmore (congrArg Prod.snd hentry : first'.value = first.value)
          obtain ⟨found', hblocks, hfound⟩ := ih hrest
          have hends : tail.drop lines.length ≠ [] → d'.isOpen = false := by
            intro hne
            rw [isOpen_of_value hvalue]
            refine ends ?_
            rintro rfl
            exact hne (List.forall₂_nil_right_iff.mp hrest)
          refine ⟨d' :: found', ?_, ?_⟩
          · rw [← List.take_append_drop lines.length tail]
            exact .cons hread' hextends hends hblocks
          · have hsame : d'.entry = d.entry := by
              rw [entry, entry, hvalue, hname, extended.name_eq]
              exact congrArg (·, d.value) (congrArg Prod.fst hentry)
            rw [List.map_cons, List.map_cons, hsame, hfound]

end Directive

end Dockerfile
