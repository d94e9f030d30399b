import Dockerfile.Proofs.Directive.Places
import Dockerfile.Proofs.Text.Position

/-!
# The lines of the directives

The directives of a text take whole lines. `Directive.Taken` says which, without saying what follows
them, so the same lines in front of another body give the same directives
(`Directive.Taken.readFrom_append`).
-/

namespace Dockerfile

namespace Directive

/-- The lines give the directives `found`, the last of which is `last`. `current` is the directive
that the lines in front of them end with. -/
inductive Taken : Option Directive → List Line → List Directive → Option Directive → Prop
  | done (current : Option Directive) : Taken current [] current.toList current
  | extend {d : Directive} {last : Option Directive} {line : Line} {lines : List Line}
      {found : List Directive} (goes_on : d.isOpen = true)
      (rest : Taken (some (d.extend line)) lines found last) : Taken (some d) (line :: lines) found last
  | next {d next : Directive} {last : Option Directive} {line : Line} {lines : List Line}
      {found : List Directive} (ends : d.isOpen = false) (read : ofLine? line = some next)
      (rest : Taken (some next) lines found last) : Taken (some d) (line :: lines) (d :: found) last
  | first {next : Directive} {last : Option Directive} {line : Line} {lines : List Line}
      {found : List Directive} (read : ofLine? line = some next)
      (rest : Taken (some next) lines found last) : Taken none (line :: lines) found last

namespace Taken

variable {current last : Option Directive} {lines : List Line} {found : List Directive}

/-- If nothing else follows, the directives reach to the end. -/
theorem readFrom_eq (h : Taken current lines found last) (stop : Nat) :
    readFrom stop current lines = (found, stop) := by
  induction h with
  | done current => rfl
  | extend goes_on _ ih => rw [readFrom, if_pos goes_on, ih]
  | next ends read _ ih =>
      rw [readFrom, if_neg (by simp [ends]), read]
      simp only [ih]
  | first read _ ih =>
      rw [readFrom, read]
      exact ih

/-- In front of a line that is no directive, the directives reach up to it. -/
theorem readFrom_append (h : Taken current lines found last) (hlast : ∀ d ∈ last, d.isOpen = false)
    {line : Line} (hline : ofLine? line = none) (stop : Nat) (tail : List Line) :
    readFrom stop current (lines ++ line :: tail) = (found, line.start) := by
  induction h with
  | done current =>
      cases current with
      | none => rw [List.nil_append, readFrom, hline]; rfl
      | some d => rw [List.nil_append, readFrom, if_neg (by simp [hlast d rfl]), hline]; rfl
  | extend goes_on _ ih => rw [List.cons_append, readFrom, if_pos goes_on, ih hlast]
  | next ends read _ ih =>
      rw [List.cons_append, readFrom, if_neg (by simp [ends]), read]
      simp only [ih hlast]
  | first read _ ih =>
      rw [List.cons_append, readFrom, read]
      exact ih hlast

/-- Directives do not depend on what ends their lines. -/
theorem withTerminator {line : Line} (h : Taken current (lines ++ [line]) found last)
    (terminator : Text) : Taken current (lines ++ [{ line with terminator }]) found last := by
  induction lines generalizing current found with
  | nil =>
      cases h with
      | extend goes_on rest => exact .extend goes_on rest
      | next ends read rest => exact .next ends read rest
      | first read rest => exact .first read rest
  | cons first lines ih =>
      cases h with
      | extend goes_on rest => exact .extend goes_on (ih rest)
      | next ends read rest => exact .next ends read (ih rest)
      | first read rest => exact .first read (ih rest)

end Taken

def TakesUpTo (text : Text) (taken : List Line) (last : Option Directive) : Prop :=
  taken = Text.lines text ∨
    ∃ front body line tail, Text.Cut text front body taken (line :: tail) ∧
      ofLine? line = none ∧ ∀ d ∈ last, d.isOpen = false

theorem exists_taken_of_cut {text : Text} (lines : List Line) :
    ∀ {current : Option Directive} {front rest : Text} {before : List Line},
      Text.Cut text front rest before lines →
      ∃ taken found last, Taken current taken found last ∧ TakesUpTo text (before ++ taken) last := by
  induction lines with
  | nil => intro _ _ _ _ hcut; cases hcut.lined
  | cons line lines ih =>
      intro current front rest before hcut
      obtain ⟨rest', -, -, -, hnext⟩ := hcut.exists_next
      -- If the line is taken, so are those found behind it.
      have hstep {current' : Option Directive}
          (hcons : ∀ {taken found last}, Taken current' taken found last →
            ∃ found', Taken current (line :: taken) found' last) :
          ∃ taken found last, Taken current taken found last ∧
            TakesUpTo text (before ++ taken) last := by
        rcases hnext with ⟨rfl, -⟩ | ⟨-, hnext⟩
        · obtain ⟨found, htaken⟩ := hcons (.done current')
          exact ⟨[line], found, current', htaken, .inl hcut.lines_eq.symm⟩
        · obtain ⟨taken, found, last, htaken, hends⟩ := @ih current' _ _ _ hnext
          obtain ⟨found', htaken'⟩ := hcons htaken
          rw [List.append_assoc, List.singleton_append] at hends
          exact ⟨line :: taken, found', last, htaken', hends⟩
      have hstop (hnone : ofLine? line = none) (hclosed : ∀ d ∈ current, d.isOpen = false) :
          ∃ taken found last, Taken current taken found last ∧
            TakesUpTo text (before ++ taken) last := by
        refine ⟨[], current.toList, current, .done current, .inr ⟨front, rest, line, lines, ?_, hnone,
          hclosed⟩⟩
        rwa [List.append_nil]
      cases current with
      | none =>
          cases hread : ofLine? line with
          | none => exact hstop hread (by simp)
          | some next => exact hstep fun htaken => ⟨_, .first hread htaken⟩
      | some d =>
          cases hopen : d.isOpen with
          | true => exact hstep fun htaken => ⟨_, .extend hopen htaken⟩
          | false =>
              cases hread : ofLine? line with
              | none => exact hstop hread (by simp [hopen])
              | some next => exact hstep fun htaken => ⟨_, .next hopen hread htaken⟩

theorem exists_taken (text : Text) :
    ∃ taken found last, Taken none taken found last ∧ TakesUpTo text taken last :=
  exists_taken_of_cut (Text.lines text) (Text.cut_start text)

theorem readAll_of_taken {text : Text} {taken : List Line} {found : List Directive}
    {last : Option Directive} (h : Taken none taken found last) :
    (taken = Text.lines text → readAll text = (found, Text.byteLength text)) ∧
      ∀ {front body line tail}, text = front ++ body → Text.Leading front body taken →
        Text.linesFrom (Text.byteLength front) (Text.byteLength front) body = line :: tail →
        ofLine? line = none → (∀ d ∈ last, d.isOpen = false) →
        readAll text = (found, Text.byteLength front) := by
  constructor
  · intro hlines
    rw [readAll, ← hlines]
    exact h.readFrom_eq _
  · intro front body line tail htext hleading hfrom hnone hclosed
    have hlined := lined_linesFrom (Text.byteLength front) body
    rw [hfrom] at hlined
    obtain ⟨_, -, hstart, -⟩ := hlined.exists_head
    rw [readAll, htext, hleading.eq id, hfrom, h.readFrom_append hclosed hnone, hstart]

end Directive

end Dockerfile
