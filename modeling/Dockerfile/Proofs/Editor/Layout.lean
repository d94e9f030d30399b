import Dockerfile.Editor.Layout
import Dockerfile.Proofs.Text.Position

/-!
# What formatting makes of a text

The edits of a layout replace the indentation of lines and nothing else: once they are applied, each
line has its new indentation, its content and its terminator (`Layout.applyAll_format`).
-/

namespace Dockerfile

theorem Text.replaceSpan_append (front old rest more newText : Text) :
    replaceSpan (front ++ ((old ++ rest) ++ more))
      ⟨byteLength front, byteLength front + byteLength old⟩ newText =
        front ++ (newText ++ (rest ++ more)) := by
  simp only [replaceSpan]
  rw [takeBytes_append_byteLength, ← byteLength_append, List.append_assoc old,
    ← List.append_assoc front old, dropBytes_append_byteLength, List.append_assoc]

namespace Layout

theorem indentation_append (line : Line) :
    indentation line ++ line.content.dropWhile isBlank = line.content :=
  List.takeWhile_append_dropWhile

theorem core_eq_nil_iff (line : Line) :
    line.content.dropWhile isBlank = [] ↔ line.content.all isBlank = true := by
  constructor
  · intro hnil
    have happend := indentation_append line
    rw [hnil, List.append_nil] at happend
    rw [← happend]
    exact List.all_takeWhile
  · intro hall
    have hdrop := @List.dropWhile_append_of_pos _ isBlank line.content []
      (List.all_eq_true.mp hall)
    rwa [List.append_nil] at hdrop

theorem isBlank_of_mem_indentation {line : Line} {c : Char} (h : c ∈ indentation line) :
    isBlank c = true :=
  List.all_eq_true.mp List.all_takeWhile c h

theorem isBlank_of_mem_unit {options : IndentOptions} {c : Char} (h : c ∈ unit options) :
    isBlank c = true := by
  unfold unit at h
  split at h
  · rw [List.eq_of_mem_replicate h]
    rfl
  · rw [List.mem_singleton.mp h]
    rfl

theorem unit_ne_nil (options : IndentOptions) : unit options ≠ [] := by
  unfold unit
  split
  · intro h
    have := congrArg List.length h
    rw [List.length_replicate, List.length_nil] at this
    omega
  · simp

/-- All that an edit of a line can be: the further lines of an instruction get one unit of
indentation, and all others and those without content get none. -/
structure Reindents (text : Text) (extents : List (Nat × Nat)) (options : IndentOptions)
    (number : Nat) (edit : TextEdit) : Prop where
  edit_eq : edit = reindent text (Text.line text number) edit.newText
  changed : indentation (Text.line text number) ≠ edit.newText
  newText_eq : edit.newText =
    if isContinued extents number && !(Text.line text number).content.all isBlank then unit options
    else []

section Lines

variable {text : Text} {extents : List (Nat × Nat)} {options : IndentOptions}
  {settings : FormatterSettings}

theorem formatLine?_eq_some {number : Nat} {edit : TextEdit}
    (h : formatLine? text extents options settings number = some edit) :
    Reindents text extents options number edit := by
  have hindent {indent : Text} (h : indentLine? text number indent = some edit) :
      edit = reindent text (Text.line text number) edit.newText ∧
        indentation (Text.line text number) ≠ edit.newText ∧
        edit.newText = if (Text.line text number).content.all isBlank then [] else indent := by
    simp only [indentLine?] at h
    generalize (if (Text.line text number).content.all isBlank then [] else indent) = indent' at h ⊢
    split at h
    · cases h
    · rename_i hne
      cases h
      exact ⟨rfl, hne, rfl⟩
  unfold formatLine? at h
  split at h
  · rename_i hcontinued
    split at h
    · cases h
    · obtain ⟨heq, hne, hnew⟩ := hindent h
      refine ⟨heq, hne, ?_⟩
      rw [hnew, hcontinued]
      cases (Text.line text number).content.all isBlank <;> rfl
  · rename_i hcontinued
    obtain ⟨heq, hne, hnew⟩ := hindent h
    refine ⟨heq, hne, ?_⟩
    rw [hnew, Bool.eq_false_iff.mpr hcontinued, ite_self]
    rfl

theorem Reindents.isBlank_of_mem {number : Nat} {edit : TextEdit}
    (h : Reindents text extents options number edit) {c : Char} (hc : c ∈ edit.newText) :
    isBlank c = true := by
  rw [h.newText_eq] at hc
  split at hc
  · exact isBlank_of_mem_unit hc
  · cases hc

def Reindenting (text : Text) (extents : List (Nat × Nat)) (options : IndentOptions)
    (edit? : Nat → Option TextEdit) : Prop :=
  ∀ number edit, edit? number = some edit → Reindents text extents options number edit

theorem reindenting_formatLine? :
    Reindenting text extents options (formatLine? text extents options settings) :=
  fun _ _ h => formatLine?_eq_some h

/-! ## The text behind the edits -/

def newIndent (edit? : Nat → Option TextEdit) (number : Nat) (line : Line) : Text :=
  ((edit? number).map TextEdit.newText).getD (indentation line)

def relaid (edit? : Nat → Option TextEdit) : Nat → List Line → Text
  | _, [] => []
  | number, line :: lines =>
      newIndent edit? number line ++
        (line.content.dropWhile isBlank ++ (line.terminator ++ relaid edit? (number + 1) lines))

/-- An edit of a line replaces its indentation, whatever became of the lines behind it. -/
theorem Reindents.apply_eq {front rest rest' more : Text} {before after : List Line} {line : Line}
    {edit : TextEdit} (hcut : Text.Cut text front rest before (line :: after))
    (h : Reindents text extents options before.length edit)
    (hrest : rest = line.content ++ (line.terminator ++ rest'))
    (hhead : (line.content ++ (line.terminator ++ more)).head? = some '\n' →
      rest.head? = some '\n')
    (hmore : ∀ c ∈ (line.terminator ++ more).head?, isLineBreak c = true) :
    Text.spanOf text edit.range = ⟨line.start, line.start + Text.byteLength (indentation line)⟩ ∧
      TextEdit.apply (front ++ (line.content ++ (line.terminator ++ more))) edit =
        front ++ (edit.newText ++ (line.content.dropWhile isBlank ++ (line.terminator ++ more))) := by
  obtain ⟨rest'', hrest'', hclean, hmore'', -⟩ := hcut.exists_next
  obtain rfl : rest'' = rest' := by
    rw [hrest] at hrest''
    exact (List.append_cancel_left (List.append_cancel_left hrest'')).symm
  have hstart := hcut.start_eq
  have hrange : edit.range = Text.rangeOf text
      ⟨line.start, line.start + Text.byteLength (indentation line)⟩ := by
    rw [h.edit_eq, hcut.line_eq]
    rfl
  have hcontent := indentation_append line
  rw [← hcontent] at hclean hrest hhead
  rw [hrest] at hhead
  have hspan {more' : Text}
      (hhead' : ((indentation line ++ line.content.dropWhile isBlank) ++ more').head? = some '\n' →
        ((indentation line ++ line.content.dropWhile isBlank) ++
          (line.terminator ++ rest'')).head? = some '\n')
      (hmore' : ∀ c ∈ more'.head?, isLineBreak c = true) :
      Text.spanOf (front ++ ((indentation line ++ line.content.dropWhile isBlank) ++ more'))
        edit.range = ⟨line.start, line.start + Text.byteLength (indentation line)⟩ := by
    have hleading := hcut.leading
    rw [hrest] at hleading
    rw [hrange, hcut.split, hrest, hstart]
    exact hleading.spanOf_rangeOf id hhead' hclean hmore'' hmore'
  constructor
  · have := hspan id hmore''
    rwa [← hrest, ← hcut.split] at this
  · have := Text.replaceSpan_append front (indentation line) (line.content.dropWhile isBlank)
      (line.terminator ++ more) edit.newText
    rw [← hstart, ← hspan hhead hmore, hcontent] at this
    exact this

theorem applyAll_filterMap {lines : List Line} :
    ∀ {front rest before}, Text.Cut text front rest before lines →
      TextEdit.applyAll text ((List.range' before.length lines.length).filterMap
        (formatLine? text extents options settings)) =
          front ++ relaid (formatLine? text extents options settings) before.length lines := by
  induction lines with
  | nil => intro _ _ _ hcut; cases hcut.lined
  | cons line after ih =>
      intro front rest before hcut
      obtain ⟨rest', hrest, hclean, hmore, hnext⟩ := hcut.exists_next
      -- The lines behind this one have their new indentation already.
      have hafter : TextEdit.applyAll text ((List.range' (before.length + 1) after.length).filterMap
          (formatLine? text extents options settings)) = front ++ (line.content ++ (line.terminator ++
            relaid (formatLine? text extents options settings) (before.length + 1) after)) := by
        rcases hnext with ⟨rfl, hterm, rfl⟩ | ⟨-, hnext⟩
        · rw [hcut.split, hrest, hterm]
          rfl
        · have := ih hnext
          rw [List.length_append, List.length_singleton] at this
          rw [this]
          simp only [List.append_assoc]
      have hhead : ∀ {c}, (line.terminator ++ relaid (formatLine? text extents options settings)
          (before.length + 1) after).head? = some c → (line.terminator ++ rest').head? = some c := by
        intro c hc
        rcases hnext with ⟨rfl, hterm, rfl⟩ | ⟨ends, -⟩
        · exact hc
        · rw [ends.head?_append] at hc ⊢
          exact hc
      rw [List.length_cons, List.range'_succ, List.filterMap_cons, relaid, newIndent]
      cases hedit : formatLine? text extents options settings before.length with
      | none =>
          rw [Option.map_none, Option.getD_none, ← List.append_assoc (indentation line),
            indentation_append]
          exact hafter
      | some edit =>
          rw [Option.map_some, Option.getD_some]
          show TextEdit.apply (TextEdit.applyAll text _) edit = _
          rw [hafter]
          refine ((formatLine?_eq_some hedit).apply_eq hcut hrest ?_ ?_).2
          · rw [hrest]
            cases line.content with
            | nil => exact hhead
            | cons c content => exact id
          · exact fun c hc => hmore c (hhead hc)

end Lines

theorem applyAll_format (a : Analysis) (options : IndentOptions) (settings : FormatterSettings) :
    TextEdit.applyAll a.text (a.format options settings) =
      relaid (formatLine? a.text (extents a) options settings) 0 (Text.lines a.text) := by
  have h := @applyAll_filterMap a.text (extents a) options settings _ _ _ _ (Text.cut_start a.text)
  rw [List.length_nil, ← List.range_eq_range', List.nil_append] at h
  exact h

end Layout

end Dockerfile
