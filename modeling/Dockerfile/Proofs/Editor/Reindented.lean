import Dockerfile.Proofs.Body.Relaid
import Dockerfile.Proofs.Editor.Layout

/-!
# Formatted text as relaid text

Formatting changes the blanks at the starts of lines, so a formatted text is a relaid one
(`Layout.relaid_of_cut`). A blank line that loses its blanks may leave a `\r` next to a `\n`; the two
are one terminator then, and the blank line is gone.
-/

namespace Dockerfile

theorem Relaid.char_append {edit : Nat → List Placed → List Placed → List Placed → Prop}
    {drops : Prop} {stop : Nat} {chars chars' : List Placed} {core : Text} {offset offset' : Nat}
    (clean : ∀ c ∈ core, isLineBreak c = false) (h : Relaid edit drops stop false chars chars') :
    Relaid edit drops stop false (Text.place offset core ++ chars)
      (Text.place offset' core ++ chars') := by
  induction core generalizing offset offset' with
  | nil => exact h
  | cons c core ih =>
      exact .char rfl (clean c List.mem_cons_self)
        (ih fun d hd => clean d (List.mem_cons_of_mem _ hd))

/-- A terminator, in front of lines that are relaid. If they start with a line feed then it belongs
to a `\r`. -/
theorem Relaid.terminator {edit : Nat → List Placed → List Placed → List Placed → Prop} {stop : Nat}
    {terminator rest out : Text} (ends : IsTerminator terminator rest) {offset offset' : Nat}
    (hfresh : ∀ o, Relaid edit True stop true
      (Text.place (offset + Text.byteLength terminator) rest) (Text.place o out))
    (hdrop : ∀ o out', out = '\n' :: out' → Relaid edit True stop true
      (Text.place (offset + Text.byteLength terminator) rest) (Text.place o out')) :
    Relaid edit True stop false (Text.place offset (terminator ++ rest))
      (Text.place offset' (terminator ++ out)) := by
  have hafter := afterNewline?_place ends offset
  by_cases ends' : IsTerminator terminator out
  · exact .newline hafter (afterNewline?_place ends' offset') (hfresh _)
  · obtain ⟨hterm, out', rfl⟩ := ends.lost ends'
    have hjoined : IsTerminator ['\r', '\n'] out' := .inl rfl
    have hafter' := afterNewline?_place hjoined offset'
    rw [hterm] at hafter ⊢
    exact .newline hafter hafter' (by rw [← hterm]; exact hdrop _ out' rfl)

namespace Layout

/-- The edit of the line that starts at `offset` makes `new` of its indentation `old`, in front of
`rest`. -/
def LineEdit (text : Text) (edit? : Nat → Option TextEdit) (offset : Nat)
    (old new rest : List Placed) : Prop :=
  ∃ before line after edit, Text.lines text = before ++ line :: after ∧ line.start = offset ∧
    edit? before.length = some edit ∧ Placed.text old = indentation line ∧
    Placed.text new = edit.newText ∧
    Placed.text rest = Text.dropBytes (offset + Text.byteLength (indentation line)) text

variable {text : Text} {extents : List (Nat × Nat)} {options : IndentOptions}
  {edit? : Nat → Option TextEdit}

theorem newIndent_blank (hedits : Reindenting text extents options edit?) (number : Nat)
    (line : Line) :
    ∀ c ∈ newIndent edit? number line, isBlank c = true := by
  intro c hc
  unfold newIndent at hc
  cases hedit : edit? number with
  | none =>
      rw [hedit] at hc
      exact isBlank_of_mem_indentation hc
  | some edit =>
      rw [hedit] at hc
      exact (hedits number edit hedit).isBlank_of_mem hc

theorem core_head (line : Line) {more : Text} (hmore : ∀ c ∈ more.head?, isLineBreak c = true) :
    ∀ c ∈ (line.content.dropWhile isBlank ++ more).head?, isBlank c = false := by
  intro c hc
  have hhead := List.head?_dropWhile_not isBlank line.content
  cases hcore : line.content.dropWhile isBlank with
  | nil =>
      rw [hcore] at hc
      cases hb : isBlank c with
      | false => rfl
      | true =>
          have hbreak := hmore c hc
          rw [isLineBreak_of_isBlank hb] at hbreak
          cases hbreak
  | cons d core =>
      rw [hcore] at hc hhead
      cases Option.mem_some.mp hc
      simpa using hhead

theorem relaid_line (hedits : Reindenting text extents options edit?) {front rest rest' out : Text}
    {before after : List Line} {line : Line}
    (hcut : Text.Cut text front rest before (line :: after))
    (hrest : rest = line.content ++ (line.terminator ++ rest'))
    (hclean : ∀ c ∈ line.content, isLineBreak c = false)
    (hmore : ∀ c ∈ (line.terminator ++ rest').head?, isLineBreak c = true)
    (hnext : ∀ o, Relaid (LineEdit text edit?) True (Text.byteLength text) false
      (Text.place (Text.byteLength front + Text.byteLength line.content) (line.terminator ++ rest'))
      (Text.place o (line.terminator ++ out))) (offset : Nat) :
    Relaid (LineEdit text edit?) True (Text.byteLength text) true
      (Text.place (Text.byteLength front) rest)
      (Text.place offset (newIndent edit? before.length line ++
        (line.content.dropWhile isBlank ++ (line.terminator ++ out)))) := by
  have hcontent := indentation_append line
  have hlen : Text.byteLength front + Text.byteLength line.content =
      Text.byteLength front + Text.byteLength (indentation line) +
        Text.byteLength (line.content.dropWhile isBlank) := by
    rw [Nat.add_assoc, ← Text.byteLength_append (indentation line), hcontent]
  have hsplit : Text.place (Text.byteLength front) rest =
      Text.place (Text.byteLength front) (indentation line) ++
        Text.place (Text.byteLength front + Text.byteLength (indentation line))
          (line.content.dropWhile isBlank ++ (line.terminator ++ rest')) := by
    rw [← Text.place_append, ← List.append_assoc, hcontent, hrest]
  have hstart : Placed.startOr (Text.byteLength text) (Text.place (Text.byteLength front) rest) =
      Text.byteLength front := by
    rw [hcut.split, Text.byteLength_append, Text.startOr_place]
  have hcore : ∀ c ∈ line.content.dropWhile isBlank, isLineBreak c = false := fun c hc =>
    hclean c ((List.dropWhile_sublist _).mem hc)
  have hhead {p : Placed} (hp : p ∈ (Text.place (Text.byteLength front +
      Text.byteLength (indentation line)) (line.content.dropWhile isBlank ++
        (line.terminator ++ rest'))).head?) :
      p.char ∈ (line.content.dropWhile isBlank ++ (line.terminator ++ rest')).head? := by
    generalize line.content.dropWhile isBlank ++ (line.terminator ++ rest') = more at hp
    cases more with
    | nil => cases hp
    | cons c more =>
        cases Option.mem_some.mp hp
        rfl
  rw [hsplit, Text.place_append offset]
  refine .indent (Text.isBlank_of_mem_place fun c hc => isBlank_of_mem_indentation hc)
    (Text.isBlank_of_mem_place (newIndent_blank hedits before.length line))
    (fun p hp => core_head line hmore _ (hhead hp)) ?_ ?_
  · rw [← hsplit, hstart]
    cases hedit : edit? before.length with
    | none =>
        left
        rw [Text.text_place, Text.text_place, newIndent, hedit]
        rfl
    | some edit =>
        right
        refine ⟨before, line, after, edit, hcut.lines_eq, hcut.start_eq, hedit, Text.text_place _ _,
          ?_, ?_⟩
        · rw [Text.text_place, newIndent, hedit]
          rfl
        · have htext : text = (front ++ indentation line) ++
              (line.content.dropWhile isBlank ++ (line.terminator ++ rest')) := by
            rw [hcut.split, hrest, List.append_assoc, ← List.append_assoc (indentation line), hcontent]
          rw [Text.text_place, htext, ← Text.byteLength_append, Text.dropBytes_append_byteLength]
  · rw [Text.place_append _ (line.content.dropWhile isBlank),
      Text.place_append _ (line.content.dropWhile isBlank), ← hlen]
    exact .char_append hcore (hnext _)

/-! ## Lines with their new indentation -/

def relaidLine (edit? : Nat → Option TextEdit) (number start : Nat) (line : Line) : Line :=
  ⟨start, newIndent edit? number line ++ line.content.dropWhile isBlank, line.terminator⟩

theorem relaid_cons (number start : Nat) (line : Line) (lines : List Line) :
    relaid edit? number (line :: lines) =
      (relaidLine edit? number start line).content ++
        (line.terminator ++ relaid edit? (number + 1) lines) := by
  rw [relaid, relaidLine, List.append_assoc]

theorem relaidLine_core (hedits : Reindenting text extents options edit?) (number start : Nat)
    (line : Line) : (relaidLine edit? number start line).content.dropWhile isBlank =
      line.content.dropWhile isBlank := by
  rw [relaidLine, List.dropWhile_append_of_pos (newIndent_blank hedits number line)]
  have hhead := List.head?_dropWhile_not isBlank line.content
  cases hcore : line.content.dropWhile isBlank with
  | nil => rfl
  | cons c core =>
      rw [hcore] at hhead
      rw [List.dropWhile_cons, if_neg (by simpa using hhead)]

theorem relaidLine_clean (hedits : Reindenting text extents options edit?) (number start : Nat)
    {line : Line} (hclean : ∀ c ∈ line.content, isLineBreak c = false) :
    ∀ c ∈ (relaidLine edit? number start line).content, isLineBreak c = false := by
  intro c hc
  rcases List.mem_append.mp hc with hc | hc
  · exact isLineBreak_of_isBlank (newIndent_blank hedits number line c hc)
  · exact hclean c ((List.dropWhile_sublist _).mem hc)

theorem relaidLine_of_none {number start : Nat} {line : Line} (h : edit? number = none) :
    (relaidLine edit? number start line).content = line.content := by
  rw [relaidLine, newIndent, h]
  exact indentation_append line

/-- What starts with a line feed has neither indentation nor content. -/
theorem relaidLine_eq_nil (hedits : Reindenting text extents options edit?) {number start : Nat}
    {line : Line} (hclean : ∀ c ∈ line.content, isLineBreak c = false) {more out : Text}
    (h : (relaidLine edit? number start line).content ++ more = '\n' :: out) :
    (relaidLine edit? number start line).content = [] ∧ more = '\n' :: out := by
  have hclean' := relaidLine_clean hedits number start hclean
  cases hcontent : (relaidLine edit? number start line).content with
  | nil =>
      rw [hcontent] at h
      exact ⟨rfl, h⟩
  | cons c content =>
      rw [hcontent] at h hclean'
      obtain rfl : c = '\n' := (List.cons.inj h).1
      cases hclean' _ List.mem_cons_self

/-- The lines behind a cut, once more with their new indentation; and if these start with a line
feed, also without it. -/
theorem relaid_of_cut (hedits : Reindenting text extents options edit?) {lines : List Line} :
    ∀ {front rest before}, Text.Cut text front rest before lines → ∀ offset,
      Relaid (LineEdit text edit?) True (Text.byteLength text) true
          (Text.place (Text.byteLength front) rest)
          (Text.place offset (relaid edit? before.length lines)) ∧
        ∀ out, relaid edit? before.length lines = '\n' :: out →
          Relaid (LineEdit text edit?) True (Text.byteLength text) true
            (Text.place (Text.byteLength front) rest) (Text.place offset out) := by
  induction lines with
  | nil => intro _ _ _ hcut; cases hcut.lined
  | cons line after ih =>
      intro front rest before hcut offset
      obtain ⟨rest', hrest, hclean, hmore, hnext⟩ := hcut.exists_next
      rcases hnext with ⟨rfl, hterm, rfl⟩ | ⟨ends, hnext⟩
      · refine ⟨relaid_line hedits hcut hrest hclean hmore ?_ offset, ?_⟩
        · intro o
          rw [hterm]
          exact .done
        · intro out hout
          rw [relaid_cons before.length 0, hterm] at hout
          cases (relaidLine_eq_nil hedits hclean hout).2
      · have hlen : Text.byteLength (front ++ (line.content ++ line.terminator)) =
            Text.byteLength front + Text.byteLength line.content +
              Text.byteLength line.terminator := by
          simp only [Text.byteLength_append, Nat.add_assoc]
        have ih := ih hnext
        rw [hlen, List.length_append, List.length_singleton] at ih
        refine ⟨relaid_line hedits hcut hrest hclean hmore ?_ offset, ?_⟩
        · intro o
          exact .terminator ends (fun o => (ih o).1) fun o => (ih o).2
        · intro out hout
          rw [relaid_cons before.length 0] at hout
          obtain ⟨hnil, hmore'⟩ := relaidLine_eq_nil hedits hclean hout
          have hcontent := indentation_append line
          rw [(List.append_eq_nil_iff.mp hnil).2, List.append_nil] at hcontent
          rw [hrest, Text.place_append, ← (ends.eq_feed hmore').2]
          refine .drop trivial ?_ (afterNewline?_place ends _) (ih offset).1
          rw [← hcontent]
          exact Text.isBlank_of_mem_place fun c hc => isBlank_of_mem_indentation hc

end Layout

end Dockerfile
