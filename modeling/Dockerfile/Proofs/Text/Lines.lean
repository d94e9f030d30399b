import Dockerfile.Proofs.Text.Placement
import Dockerfile.Text.Continuation

/-!
# The lines of a text

`Lined` says, line by line and without a scan, what it means to be the lines of a text that stands
at an offset. `Text.linesFrom` computes the one list of lines for which it holds, so whatever is
known of the lines follows from it by induction.
-/

namespace Dockerfile

/-- `terminator` ends a line in front of `rest`: a `\r` does so only if no `\n` follows, which would
belong to it. -/
def IsTerminator (terminator rest : Text) : Prop :=
  terminator = ['\r', '\n'] ∨ terminator = ['\n'] ∨
    terminator = ['\r'] ∧ rest.head? ≠ some '\n'

/-- The lines of a text at an offset: contents without line breaks, each but the last with its
terminator, one behind the other. -/
inductive Lined : Nat → Text → List Line → Prop
  | last (start : Nat) {content : Text} (clean : ∀ c ∈ content, isLineBreak c = false) :
      Lined start content [⟨start, content, []⟩]
  | cons {start : Nat} {content terminator rest : Text} {lines : List Line}
      (clean : ∀ c ∈ content, isLineBreak c = false) (ends : IsTerminator terminator rest)
      (next : Lined (start + Text.byteLength (content ++ terminator)) rest lines) :
      Lined start (content ++ (terminator ++ rest)) (⟨start, content, terminator⟩ :: lines)

def Line.whole (line : Line) : Text :=
  line.content ++ line.terminator

theorem IsTerminator.isLineBreak_of_mem {terminator rest : Text} (h : IsTerminator terminator rest)
    {c : Char} (hc : c ∈ terminator) : isLineBreak c = true := by
  rcases h with rfl | rfl | ⟨rfl, -⟩
  · rcases List.mem_cons.mp hc with rfl | hc
    · rfl
    · rw [List.mem_singleton.mp hc]; rfl
  · rw [List.mem_singleton.mp hc]; rfl
  · rw [List.mem_singleton.mp hc]; rfl

theorem IsTerminator.ne_nil {terminator rest : Text} (h : IsTerminator terminator rest) :
    terminator ≠ [] := by
  rcases h with rfl | rfl | ⟨rfl, -⟩ <;> simp

theorem IsTerminator.byteLength_pos {terminator rest : Text} (h : IsTerminator terminator rest) :
    0 < Text.byteLength terminator := by
  rcases h with rfl | rfl | ⟨rfl, -⟩ <;> decide

theorem IsTerminator.head?_append {terminator rest : Text} (h : IsTerminator terminator rest)
    (more : Text) : (terminator ++ more).head? = terminator.head? := by
  cases terminator with
  | nil => exact absurd rfl h.ne_nil
  | cons c terminator => rfl

/-- Whatever follows it, a terminator starts with a line break. -/
theorem IsTerminator.isLineBreak_head {terminator rest : Text} (h : IsTerminator terminator rest)
    (more : Text) : ∀ c ∈ (terminator ++ more).head?, isLineBreak c = true := by
  intro c hc
  rw [h.head?_append] at hc
  exact h.isLineBreak_of_mem (List.mem_of_head? hc)

/-- Whether a terminator ends its line depends only on the character behind it. -/
theorem IsTerminator.congr {terminator rest rest' : Text} (h : IsTerminator terminator rest)
    (hhead : rest'.head? = some '\n' → rest.head? = some '\n') : IsTerminator terminator rest' := by
  rcases h with h | h | ⟨h, hne⟩
  · exact .inl h
  · exact .inr (.inl h)
  · exact .inr (.inr ⟨h, fun h' => hne (hhead h')⟩)

/-- A terminator that no longer ends its line is a `\r` in front of a line feed. -/
theorem IsTerminator.lost {terminator rest rest' : Text} (h : IsTerminator terminator rest)
    (hlost : ¬IsTerminator terminator rest') :
    terminator = ['\r'] ∧ ∃ more, rest' = '\n' :: more := by
  have hterm : terminator = ['\r'] := by
    rcases h with h | h | ⟨h, -⟩
    · exact absurd (.inl h) hlost
    · exact absurd (.inr (.inl h)) hlost
    · exact h
  have hfeed : rest'.head? = some '\n' :=
    Decidable.byContradiction fun h => hlost (.inr (.inr ⟨hterm, h⟩))
  exact ⟨hterm, List.head?_eq_some_iff.mp hfeed⟩

theorem IsTerminator.eq_feed {terminator rest more out : Text} (h : IsTerminator terminator rest)
    (heq : terminator ++ more = '\n' :: out) : terminator = ['\n'] ∧ more = out := by
  rcases h with rfl | rfl | ⟨rfl, -⟩
  · cases heq
  · exact ⟨rfl, (List.cons.inj heq).2⟩
  · cases heq

theorem afterNewline?_place {terminator rest : Text} (h : IsTerminator terminator rest)
    (offset : Nat) :
    afterNewline? (Text.place offset (terminator ++ rest)) =
      some (Text.place (offset + Text.byteLength terminator) rest) := by
  rcases h with rfl | rfl | ⟨rfl, hne⟩
  · rfl
  · rfl
  · cases rest with
    | nil => rfl
    | cons c rest =>
        have hc : c ≠ '\n' := by simpa using hne
        simp only [List.cons_append, List.nil_append, Text.place_cons, afterNewline?, if_true,
          if_neg hc]
        rfl

theorem exists_terminator {c : Char} (h : isLineBreak c = true) (text : Text) :
    ∃ terminator rest, c :: text = terminator ++ rest ∧ IsTerminator terminator rest := by
  simp only [isLineBreak, Bool.or_eq_true, beq_iff_eq] at h
  rcases h with rfl | rfl
  · by_cases hn : text.head? = some '\n'
    · cases text with
      | nil => simp at hn
      | cons d text =>
          rw [List.head?_cons, Option.some.injEq] at hn
          subst hn
          exact ⟨['\r', '\n'], text, rfl, .inl rfl⟩
    · exact ⟨['\r'], text, rfl, .inr (.inr ⟨rfl, hn⟩)⟩
  · exact ⟨['\n'], text, rfl, .inr (.inl rfl)⟩

namespace Text

theorem linesFrom_cons_of_clean {c : Char} (h : isLineBreak c = false) (start offset : Nat)
    (rest : Text) :
    linesFrom start offset (c :: rest) =
      Line.prepend c (linesFrom start (offset + c.utf8Size) rest) := by
  rw [linesFrom.eq_def]
  split
  · rename_i heq
    cases heq
  · rename_i heq
    cases heq
    simp [isLineBreak] at h
  · rename_i heq
    cases heq
    rw [h]
    rfl

theorem linesFrom_terminator {terminator rest : Text} (h : IsTerminator terminator rest)
    (start offset : Nat) :
    linesFrom start offset (terminator ++ rest) =
      ⟨start, [], terminator⟩ ::
        linesFrom (offset + byteLength terminator) (offset + byteLength terminator) rest := by
  rcases h with rfl | rfl | ⟨rfl, hne⟩
  · rfl
  · rw [linesFrom.eq_def]; rfl
  · rw [linesFrom.eq_def]
    cases rest with
    | nil => rfl
    | cons d rest =>
        have hd : d ≠ '\n' := by simpa using hne
        split
        · rename_i heq
          cases heq
        · rename_i heq
          simp only [List.cons_append, List.nil_append, List.cons.injEq] at heq
          exact absurd heq.2.1 hd
        · rename_i heq
          cases heq
          rfl

theorem linesFrom_line {content terminator rest : Text}
    (clean : ∀ c ∈ content, isLineBreak c = false) (ends : IsTerminator terminator rest)
    (start offset : Nat) :
    linesFrom start offset (content ++ (terminator ++ rest)) =
      ⟨start, content, terminator⟩ ::
        linesFrom (offset + byteLength (content ++ terminator))
          (offset + byteLength (content ++ terminator)) rest := by
  induction content generalizing offset with
  | nil => exact linesFrom_terminator ends start offset
  | cons c content ih =>
      have hc := clean c List.mem_cons_self
      have ih := ih (fun d hd => clean d (List.mem_cons_of_mem _ hd)) (offset + c.utf8Size)
      rw [List.cons_append, linesFrom_cons_of_clean hc, ih]
      simp [Line.prepend, Nat.add_assoc]

theorem linesFrom_last {content : Text} (clean : ∀ c ∈ content, isLineBreak c = false)
    (start offset : Nat) : linesFrom start offset content = [⟨start, content, []⟩] := by
  induction content generalizing offset with
  | nil => rw [linesFrom]
  | cons c content ih =>
      have hc := clean c List.mem_cons_self
      rw [linesFrom_cons_of_clean hc, ih fun d hd => clean d (List.mem_cons_of_mem _ hd)]
      rfl

end Text

theorem Lined.linesFrom_eq {start : Nat} {text : Text} {lines : List Line}
    (h : Lined start text lines) : Text.linesFrom start start text = lines := by
  induction h with
  | last start clean => exact Text.linesFrom_last clean start start
  | cons clean ends _ ih => rw [Text.linesFrom_line clean ends, ih]

theorem Text.exists_first_line (text : Text) :
    (∀ c ∈ text, isLineBreak c = false) ∨
      ∃ content terminator rest, text = content ++ (terminator ++ rest) ∧
        (∀ c ∈ content, isLineBreak c = false) ∧ IsTerminator terminator rest := by
  induction text with
  | nil => exact .inl (by simp)
  | cons c text ih =>
      cases hc : isLineBreak c with
      | true =>
          obtain ⟨terminator, rest, htext, ends⟩ := exists_terminator hc text
          exact .inr ⟨[], terminator, rest, htext, by simp, ends⟩
      | false =>
          rcases ih with clean | ⟨content, terminator, rest, rfl, clean, ends⟩
          · exact .inl (by simpa [hc] using clean)
          · exact .inr ⟨c :: content, terminator, rest, rfl, by simpa [hc] using clean, ends⟩

theorem lined_linesFrom (start : Nat) (text : Text) :
    Lined start text (Text.linesFrom start start text) := by
  generalize hn : text.length = n
  induction n using Nat.strongRecOn generalizing start text with
  | ind n ih =>
      rcases text.exists_first_line with clean | ⟨content, terminator, rest, rfl, clean, ends⟩
      · rw [Text.linesFrom_last clean]
        exact .last start clean
      · have hpos := List.length_pos_iff.mpr ends.ne_nil
        simp only [List.length_append] at hn
        rw [Text.linesFrom_line clean ends]
        exact .cons clean ends (ih rest.length (by omega) _ rest rfl)

theorem lined_lines (text : Text) : Lined 0 text (Text.lines text) :=
  lined_linesFrom 0 text

theorem Lined.text_eq {start : Nat} {text : Text} {lines : List Line} (h : Lined start text lines) :
    text = lines.flatMap Line.whole := by
  induction h with
  | last => simp [Line.whole]
  | cons _ _ _ ih => rw [List.flatMap_cons, ← ih, Line.whole, List.append_assoc]

theorem Lined.ne_nil {start : Nat} {text : Text} {lines : List Line} (h : Lined start text lines) :
    lines ≠ [] := by
  cases h <;> simp

theorem Lined.start_le {start : Nat} {text : Text} {lines : List Line} (h : Lined start text lines)
    {line : Line} (hl : line ∈ lines) : start ≤ line.start := by
  induction h with
  | last =>
      obtain rfl := List.mem_singleton.mp hl
      exact Nat.le_refl _
  | cons _ _ _ ih =>
      rcases List.mem_cons.mp hl with rfl | hl
      · exact Nat.le_refl _
      · exact Nat.le_trans (Nat.le_add_right _ _) (ih hl)

theorem Lined.exists_head {start : Nat} {text : Text} {line : Line} {lines : List Line}
    (h : Lined start text (line :: lines)) :
    ∃ rest, text = line.content ++ (line.terminator ++ rest) ∧ line.start = start ∧
      (∀ c ∈ line.content, isLineBreak c = false) ∧
      (∀ c ∈ line.terminator, isLineBreak c = true) ∧
      ((lines = [] ∧ line.terminator ++ rest = []) ∨
        (IsTerminator line.terminator rest ∧
          Lined (start + Text.byteLength (line.content ++ line.terminator)) rest lines)) := by
  cases h with
  | last start clean => exact ⟨[], by simp, rfl, clean, by simp, .inl ⟨rfl, rfl⟩⟩
  | cons clean ends next =>
      exact ⟨_, rfl, rfl, clean, fun c hc => ends.isLineBreak_of_mem hc, .inr ⟨ends, next⟩⟩

theorem Lined.start_le_stop {start : Nat} {text : Text} {lines : List Line}
    (h : Lined start text lines) {line : Line} (hl : line ∈ lines) :
    line.start ≤ start + Text.byteLength text := by
  induction h with
  | last =>
      rw [List.mem_singleton.mp hl]
      exact Nat.le_add_right _ _
  | cons _ _ _ ih =>
      rcases List.mem_cons.mp hl with rfl | hl
      · exact Nat.le_add_right _ _
      · have := ih hl
        simp only [Text.byteLength_append] at this ⊢
        omega

/-- Lines follow each other, with a terminator between any two. -/
theorem Lined.pairwise {start : Nat} {text : Text} {lines : List Line} (h : Lined start text lines) :
    lines.Pairwise fun a b => a.stop < b.start := by
  induction h with
  | last => exact List.pairwise_singleton _ _
  | cons _ ends next ih =>
      refine .cons ?_ ih
      intro line hline
      have hle := next.start_le hline
      have hpos := ends.byteLength_pos
      rw [Text.byteLength_append] at hle
      simp only [Line.stop]
      omega

/-- The lines in front of a line end before it starts, and those behind it start later. -/
theorem Lined.around {start : Nat} {text : Text} {before after : List Line} {line : Line}
    (h : Lined start text (before ++ line :: after)) :
    (∀ l ∈ before, l.stop ≤ line.start) ∧ ∀ l ∈ line :: after, line.start ≤ l.start := by
  obtain ⟨-, hlines, hapart⟩ := List.pairwise_append.mp h.pairwise
  constructor
  · intro l hl
    exact Nat.le_of_lt (hapart l hl line List.mem_cons_self)
  · intro l hl
    rcases List.mem_cons.mp hl with rfl | hl
    · exact Nat.le_refl _
    · have hlt := (List.pairwise_cons.mp hlines).1 l hl
      unfold Line.stop at hlt
      omega

/-! ## First lines -/

namespace Text

theorem exists_linesFrom {content more : Text} (clean : ∀ c ∈ content, isLineBreak c = false)
    (hmore : ∀ c ∈ more.head?, isLineBreak c = true) (start : Nat) :
    ∃ terminator lines, linesFrom start start (content ++ more) = ⟨start, content, terminator⟩ :: lines ∧
      ∀ line ∈ lines, start + byteLength content < line.start := by
  cases more with
  | nil =>
      rw [List.append_nil, linesFrom_last clean]
      exact ⟨[], [], rfl, by simp⟩
  | cons c more =>
      obtain ⟨terminator, rest, hrest, ends⟩ := exists_terminator (hmore c rfl) more
      rw [hrest, linesFrom_line clean ends]
      refine ⟨terminator, _, rfl, ?_⟩
      intro line hline
      have hle := (lined_linesFrom _ rest).start_le hline
      have hpos := ends.byteLength_pos
      rw [byteLength_append] at hle
      omega

/-- `lines` are the lines of `front`, also if another text than `rest` follows, unless that starts
with a line feed that would belong to the last of them. -/
structure Leading (front rest : Text) (lines : List Line) : Prop where
  eq : ∀ {rest' : Text}, (rest'.head? = some '\n' → rest.head? = some '\n') →
    Text.lines (front ++ rest') =
      lines ++ linesFrom (byteLength front) (byteLength front) rest'
  start_lt : ∀ line ∈ lines, line.start < byteLength front

theorem leading_nil (text : Text) : Leading [] text [] :=
  ⟨fun _ => rfl, by simp⟩

theorem Leading.snoc {front content terminator rest : Text} {lines : List Line}
    (h : Leading front (content ++ (terminator ++ rest)) lines)
    (clean : ∀ c ∈ content, isLineBreak c = false) (ends : IsTerminator terminator rest) :
    Leading (front ++ (content ++ terminator)) rest
      (lines ++ [⟨byteLength front, content, terminator⟩]) := by
  have hlt : byteLength front < byteLength (front ++ (content ++ terminator)) := by
    have := ends.byteLength_pos
    simp only [byteLength_append]
    omega
  refine ⟨?_, ?_⟩
  · intro rest' hrest'
    have hhead : (content ++ (terminator ++ rest')).head? =
        (content ++ (terminator ++ rest)).head? := by
      rw [List.head?_append, ends.head?_append, List.head?_append, ends.head?_append]
    rw [List.append_assoc, List.append_assoc content, h.eq hhead.symm.trans,
      linesFrom_line clean (ends.congr hrest'), byteLength_append front, List.append_assoc]
    rfl
  · intro line hline
    rcases List.mem_append.mp hline with hline | hline
    · exact Nat.lt_trans (h.start_lt line hline) hlt
    · rw [List.mem_singleton.mp hline]
      exact hlt

end Text

end Dockerfile
