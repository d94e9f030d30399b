import Dockerfile.Proofs.Directive.Taken

/-!
# What a directive says

A directive says its name and its value. Which of them a line says depends on its content behind the
indentation only (`Directive.ofLine?_entry`), and which escape character is in force depends on
nothing but what the directives say.
-/

namespace Dockerfile

theorem Text.trimBlanksEnd_eq_nil_iff {text : Text} :
    trimBlanksEnd text = [] ↔ ∀ c ∈ text, isBlank c = true := by
  rw [trimBlanksEnd, List.reverse_eq_nil_iff]
  constructor
  · intro hnil c hc
    have happend := @List.takeWhile_append_dropWhile _ isBlank text.reverse
    rw [hnil, List.append_nil] at happend
    refine List.all_eq_true.mp List.all_takeWhile c (?_ : c ∈ text.reverse.takeWhile isBlank)
    rw [happend]
    exact List.mem_reverse.mpr hc
  · intro h
    have hdrop := @List.dropWhile_append_of_pos _ isBlank text.reverse []
      fun c hc => h c (List.mem_reverse.mp hc)
    rwa [List.append_nil] at hdrop

theorem Text.trimBlanksEnd_append_blanks (text : Text) :
    trimBlanksEnd text ++ (text.reverse.takeWhile isBlank).reverse = text := by
  rw [trimBlanksEnd, ← List.reverse_append, List.takeWhile_append_dropWhile, List.reverse_reverse]

theorem Text.isBlank_getLast?_trimBlanksEnd (text : Text) :
    ∀ c ∈ (trimBlanksEnd text).getLast?, isBlank c = false := by
  intro c hc
  rw [trimBlanksEnd, List.getLast?_reverse] at hc
  have hhead := @List.head?_dropWhile_not _ isBlank text.reverse
  rw [Option.mem_def.mp hc] at hhead
  simpa using hhead

namespace Directive

def entry (d : Directive) : Text × Text :=
  (d.name.text, d.value)

def entryOf? : Text → Option (Text × Text)
  | [] => none
  | mark :: rest =>
      let rest := rest.dropWhile isBlank
      match rest.takeWhile Char.isAlphanum,
          (rest.dropWhile Char.isAlphanum).dropWhile isBlank with
      | first :: name, equals :: rest' =>
          if mark = '#' ∧ first.isAlpha ∧ equals = '=' then
            some (first :: name, Text.trimBlanksEnd (rest'.dropWhile isBlank))
          else none
      | _, _ => none

theorem ofLine?_entry (line : Line) :
    (ofLine? line).map entry = entryOf? (line.content.dropWhile isBlank) := by
  have hcore := Placed.text_dropWhile isBlank (Text.place line.start line.content)
  rw [Text.text_place] at hcore
  rw [← hcore]
  simp only [ofLine?]
  cases (Text.place line.start line.content).dropWhile fun p => isBlank p.char with
  | nil => rfl
  | cons mark rest =>
      simp only [Placed.text_cons, entryOf?]
      rw [← Placed.text_dropWhile isBlank, ← Placed.text_dropWhile Char.isAlphanum,
        ← Placed.text_dropWhile isBlank, ← Placed.text_takeWhile Char.isAlphanum]
      generalize rest.dropWhile (fun p => isBlank p.char) = rest
      cases hname : rest.takeWhile fun p => p.char.isAlphanum with
      | nil => rfl
      | cons first name =>
          cases (rest.dropWhile fun p => p.char.isAlphanum).dropWhile fun p => isBlank p.char with
          | nil => rfl
          | cons equals rest' =>
              simp only [Placed.text_cons]
              by_cases hok : mark.char = '#' ∧ first.char.isAlpha = true ∧ equals.char = '='
              · rw [if_pos hok, if_pos hok, ← Placed.text_dropWhile isBlank]
                rfl
              · rw [if_neg hok, if_neg hok]
                rfl

theorem ofLine?_congr_core {line line' : Line}
    (h : line'.content.dropWhile isBlank = line.content.dropWhile isBlank) :
    (ofLine? line').map entry = (ofLine? line).map entry := by
  rw [ofLine?_entry, ofLine?_entry, h]

theorem ofLine?_eq_none_congr {line line' : Line}
    (h : line'.content.dropWhile isBlank = line.content.dropWhile isBlank)
    (hnone : ofLine? line = none) : ofLine? line' = none := by
  have hmap := ofLine?_congr_core h
  rw [hnone] at hmap
  exact Option.map_eq_none_iff.mp hmap

/-! ## Saying the same -/

variable {d d' : Directive}

theorem isOpen_congr (h : d'.entry = d.entry) : d'.isOpen = d.isOpen := by
  have hvalue : d'.value = d.value := congrArg Prod.snd h
  rw [isOpen, isOpen, hvalue]

theorem extend_entry {line line' : Line} (h : d'.entry = d.entry)
    (hline : Text.trimBlanksEnd line'.content = Text.trimBlanksEnd line.content) :
    (d'.extend line').entry = (d.extend line).entry := by
  have hname : d'.name.text = d.name.text := congrArg Prod.fst h
  have hvalue : d'.value = d.value := congrArg Prod.snd h
  simp only [entry, extend, hname, hvalue, hline]

theorem escapeChar?_congr (h : d'.entry = d.entry) : d'.escapeChar? = d.escapeChar? := by
  have hname : d'.name.text = d.name.text := congrArg Prod.fst h
  have hvalue : d'.value = d.value := congrArg Prod.snd h
  rw [escapeChar?, escapeChar?, isEscape, isEscape, hname, hvalue]

end Directive

theorem File.selectedEscape?_congr {found found' : List Directive}
    (h : found'.map Directive.entry = found.map Directive.entry) :
    selectedEscape? found' = selectedEscape? found := by
  unfold selectedEscape?
  induction found generalizing found' with
  | nil => rw [List.map_eq_nil_iff.mp h]
  | cons d found ih =>
      obtain ⟨d', found', rfl, hd, hfound⟩ := List.map_eq_cons_iff.mp h
      rw [List.findSome?_cons, List.findSome?_cons, Directive.escapeChar?_congr hd, ih hfound]

theorem File.escapeUnder_congr {found found' : List Directive}
    (h : found'.map Directive.entry = found.map Directive.entry) :
    escapeUnder found' = escapeUnder found := by
  rw [escapeUnder, escapeUnder, selectedEscape?_congr h]

namespace Directive

theorem valueSpan_le_of_ofLine? {line : Line} {d : Directive} (h : ofLine? line = some d) :
    d.valueSpan.start ≤ line.stop ∧ d.valueSpan.stop ≤ line.stop := by
  obtain ⟨_, _, _, _, _, _, _, a, b, hab, hvalue, hspan⟩ := exists_of_ofLine? h
  obtain ⟨tail, htail⟩ := Text.trimBlanksEnd_prefix b
  have hlen := congrArg Text.byteLength htail
  rw [← hvalue, Text.byteLength_append] at hlen
  rw [hspan, Line.stop, hab, Text.byteLength_append]
  simp only
  omega

theorem valueSpan_extend_stop_le (d : Directive) (line : Line) :
    (d.extend line).valueSpan.stop ≤ line.stop := by
  obtain ⟨tail, htail⟩ := Text.trimBlanksEnd_prefix line.content
  have hlen := congrArg Text.byteLength htail
  rw [Text.byteLength_append] at hlen
  simp only [extend, Line.stop]
  omega

theorem Taken.exists_value {d : Directive} {lines : List Line} {found : List Directive}
    {last : Option Directive} (h : Taken (some d) lines found last)
    (ordered : lines.Pairwise fun a b => a.stop ≤ b.start)
    (hd : ∀ line ∈ lines, d.valueSpan.stop ≤ line.start) :
    ∃ e ∈ found, e.valueSpan.start = d.valueSpan.start ∧ d.valueSpan.stop ≤ e.valueSpan.stop := by
  generalize hcurrent : some d = current at h
  induction h generalizing d with
  | done current =>
      subst hcurrent
      exact ⟨d, List.mem_singleton.mpr rfl, rfl, Nat.le_refl _⟩
  | @extend d' last line lines found goes_on rest ih =>
      cases hcurrent
      obtain ⟨hline, ordered⟩ := List.pairwise_cons.mp ordered
      obtain ⟨e, he, hstart, hstop⟩ := @ih (d'.extend line) ordered
        (fun l hl => Nat.le_trans (valueSpan_extend_stop_le d' line) (hline l hl)) rfl
      refine ⟨e, he, hstart, Nat.le_trans ?_ hstop⟩
      exact Nat.le_trans (hd line List.mem_cons_self) (Nat.le_add_right _ _)
  | next ends read rest ih =>
      cases hcurrent
      exact ⟨_, List.mem_cons_self, rfl, Nat.le_refl _⟩
  | first => cases hcurrent

end Directive

end Dockerfile
