import Dockerfile.Proofs.Body.Relaid
import Dockerfile.Proofs.File.SourceMap

/-!
# What a file says

The reading of a file is what it says without its places: names and values of directives, texts of
comments, and of each instruction the keyword, the region, the arguments and how many empty lines
interrupt it. The reading of an instruction depends on nothing but the text its line keeps
(`File.line_reading`).
-/

namespace Dockerfile

structure Instruction.Reading where
  keyword : Text
  kind : Option Keyword
  region : Text
  arguments : List Text
  emptyLines : Nat
  deriving DecidableEq, Repr

def Instruction.reading (inst : Instruction) : Reading :=
  ⟨inst.keyword.text, inst.kind, inst.region.text, inst.arguments.map Argument.text,
    inst.emptyLines.length⟩

structure File.Reading where
  directives : List (Text × Text)
  comments : List Text
  instructions : List Instruction.Reading
  deriving DecidableEq, Repr

def File.reading (file : File) : Reading :=
  ⟨file.directives.map fun d => (d.name.text, d.value), file.comments.map Comment.text,
    file.instructions.map Instruction.reading⟩

/-! ## Lines -/

def Text.isNamed (text : Text) : Bool :=
  !(text.takeWhile fun c => !isBlank c).isEmpty

/-- What a line says that keeps this text and is interrupted by so many empty lines. -/
def Text.lineReading (escape : Char) (text : Text) (emptyLines : Nat) : Instruction.Reading :=
  ⟨text.takeWhile fun c => !isBlank c, Keyword.ofText? (text.takeWhile fun c => !isBlank c),
    text.dropWhile fun c => !isBlank c,
    (Argument.split escape (.ofText 0 (text.dropWhile fun c => !isBlank c))).map Argument.text,
    emptyLines⟩

theorem Argument.split_text (escape : Char) {region : Excerpt}
    (ordered : region.chars.Pairwise fun p q => p.stop ≤ q.offset) :
    (split escape region).map Argument.text =
      (split escape (.ofText 0 region.text)).map Argument.text := by
  have hsame : Respaced (Respaced.Separating fun _ => False) 0 (region.chars ++ [])
      (Text.place 0 region.text ++ []) :=
    Respaced.keep_append (Text.text_place 0 region.text) (.nil (Placed.stopOr 0 region.chars)) ordered
      (fun p hp => ⟨Nat.zero_le _, Placed.stop_le_stopOr ordered hp 0⟩) (Nat.zero_le _)
  rw [List.append_nil, List.append_nil] at hsame
  exact (splitFrom_respaced hsame ordered fun _ _ _ h => h.elim).symm

namespace Body

variable {text : Text} {escape : Char}

theorem lineAt_reading {chars : List Placed} (hc : chars <:+ Text.place 0 text) :
    let line := lineAt escape (Text.byteLength text) chars
    line.isNamed = (Placed.text line.chars).isNamed ∧
      line.reading = (Placed.text line.chars).lineReading escape line.emptyLines.length := by
  intro line
  obtain ⟨hkeyword, hregion⟩ := @keyword_eq escape (Text.byteLength text) chars
  have hkeyword' : line.keyword.text = (Placed.text line.chars).takeWhile fun c => !isBlank c := by
    rw [Excerpt.text, show line.keyword.chars = _ from hkeyword,
      Placed.text_takeWhile fun c => !isBlank c]
  have hregion' : line.region.text = (Placed.text line.chars).dropWhile fun c => !isBlank c := by
    rw [Excerpt.text, show line.region.chars = _ from hregion,
      Placed.text_dropWhile fun c => !isBlank c]
  have hordered : line.region.chars.Pairwise fun p q => p.stop ≤ q.offset :=
    (Text.pairwise_place 0 text).sublist (lineAt_within hc).region.chars
  constructor
  · rw [Text.isNamed, ← hkeyword', Instruction.isNamed, Excerpt.isEmpty, Excerpt.text, Placed.text,
      List.isEmpty_map]
  · rw [Text.lineReading, ← hkeyword', ← hregion', ← Argument.split_text escape hordered]
    rfl

end Body

/-! ## Files -/

/-- The text that a line keeps, and how many empty lines interrupt it. -/
def Body.summary (line : Instruction) : Text × Nat :=
  (Placed.text line.chars, line.emptyLines.length)

theorem Body.RelaidLines.summary_eq {start : Nat} {lines lines' : List Instruction}
    (h : Body.RelaidLines (fun _ _ _ _ => False) False start lines lines') :
    lines'.map Body.summary = lines.map Body.summary := by
  induction h with
  | nil => rfl
  | cons _ _ _ chars emptyLines _ ih =>
      have htext := chars.text_eq fun _ _ _ _ hedit => hedit.2.elim fun _ h => h.1
      rw [List.map_cons, List.map_cons, ih, Body.summary, Body.summary, htext, emptyLines id]

theorem Directive.escapeChar?_eq {d : Directive} {c : Char} (h : d.escapeChar? = some c) :
    c = '\\' ∨ c = '\x60' := by
  unfold escapeChar? at h
  split at h
  · split at h
    · exact .inl (Option.some.inj h).symm
    · exact .inr (Option.some.inj h).symm
    · cases h
  · cases h

namespace File

/-- The escape character is a backslash or a backtick. -/
theorem escapeUnder_eq (directives : List Directive) :
    escapeUnder directives = '\\' ∨ escapeUnder directives = '\x60' := by
  unfold escapeUnder selectedEscape?
  cases h : directives.findSome? Directive.escapeChar? with
  | none => exact .inl rfl
  | some c =>
      obtain ⟨d, -, hd⟩ := List.exists_of_findSome?_eq_some h
      exact Directive.escapeChar?_eq hd

theorem escapeUnder_content (directives : List Directive) :
    Body.endsWord (escapeUnder directives) = false ∧ escapeUnder directives ≠ '#' := by
  rcases escapeUnder_eq directives with h | h <;> rw [h] <;> decide

theorem not_break_of_mem {text : Text} {line : Instruction} (h : line ∈ logicalLines text)
    {p : Placed} (hp : p ∈ line.chars) : isLineBreak p.char = false := by
  obtain ⟨start, -, rfl⟩ := Body.exists_lineAt_of_mem h
  rw [Body.lineAt_chars] at hp
  exact Body.readUntil_chars isLineBreak start p hp

theorem line_reading {text : Text} {line : Instruction} (h : line ∈ logicalLines text) :
    line.isNamed = (Placed.text line.chars).isNamed ∧ line.reading =
      (Placed.text line.chars).lineReading (parse text).escape line.emptyLines.length := by
  obtain ⟨start, hstart, rfl⟩ := Body.exists_lineAt_of_mem h
  exact Body.lineAt_reading (hstart.trans (bodyChars_suffix text))

theorem instructions_reading (text : Text) :
    (parse text).instructions.map Instruction.reading =
      (((logicalLines text).map Body.summary).filter fun s => s.1.isNamed).map fun s =>
        s.1.lineReading (parse text).escape s.2 := by
  rw [instructions_parse, List.filter_map, List.map_map,
    List.filter_congr (q := (fun s => s.1.isNamed) ∘ Body.summary) fun line h => (line_reading h).1]
  exact List.map_congr_left fun line h => (line_reading (List.mem_filter.mp h).1).2

end File

end Dockerfile
