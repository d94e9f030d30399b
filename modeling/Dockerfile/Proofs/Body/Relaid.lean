import Dockerfile.Proofs.Argument
import Dockerfile.Proofs.Body.Run

/-!
# Reading indented otherwise

Two texts that have the same lines up to indentation, and up to blank lines that only one of them
has, are read alike: `Relaid` relates their characters, and each reader of `Dockerfile.Body` takes
related characters to related results. The comments are the same, and the lines differ in blanks at
most that stand where the lines of the text begin.
-/

namespace Dockerfile

/-- `chars'` are the lines `chars` with other indentations: at the start of a line (`fresh`) the
blanks `old` may have become `new` if `edit` allows it, and a blank line may be missing if `drops`
does. The first text ends at `stop`. -/
inductive Relaid (edit : Nat → List Placed → List Placed → List Placed → Prop) (drops : Prop)
    (stop : Nat) : Bool → List Placed → List Placed → Prop
  | done : Relaid edit drops stop false [] []
  | char {p p' : Placed} {chars chars' : List Placed} (same : p'.char = p.char)
      (inside : isLineBreak p.char = false) (next : Relaid edit drops stop false chars chars') :
      Relaid edit drops stop false (p :: chars) (p' :: chars')
  | newline {chars chars' rest rest' : List Placed} (after : afterNewline? chars = some rest)
      (after' : afterNewline? chars' = some rest') (next : Relaid edit drops stop true rest rest') :
      Relaid edit drops stop false chars chars'
  | indent {old new chars chars' : List Placed} (old_blank : ∀ p ∈ old, isBlank p.char = true)
      (new_blank : ∀ p ∈ new, isBlank p.char = true)
      (margin : ∀ p ∈ chars.head?, isBlank p.char = false)
      (change : Placed.text new = Placed.text old ∨
        edit (Placed.startOr stop (old ++ chars)) old new chars)
      (next : Relaid edit drops stop false chars chars') :
      Relaid edit drops stop true (old ++ chars) (new ++ chars')
  | drop {blanks chars rest chars' : List Placed} (allowed : drops)
      (blank : ∀ p ∈ blanks, isBlank p.char = true) (after : afterNewline? chars = some rest)
      (next : Relaid edit drops stop true rest chars') :
      Relaid edit drops stop true (blanks ++ chars) chars'

theorem isLineBreak_of_isBlank {c : Char} (h : isBlank c = true) : isLineBreak c = false := by
  simp only [isBlank, Bool.or_eq_true, beq_iff_eq] at h
  rcases h with rfl | rfl <;> rfl

theorem exists_break_of_afterNewline? {chars rest : List Placed}
    (h : afterNewline? chars = some rest) :
    ∃ p tail, chars = p :: tail ∧ isLineBreak p.char = true := by
  cases chars with
  | nil => simp [afterNewline?] at h
  | cons p tail =>
      refine ⟨p, tail, rfl, ?_⟩
      rw [← isSome_afterNewline? p tail, h]
      rfl

theorem dropWhile_blanks {blanks chars : List Placed} (h : ∀ p ∈ blanks, isBlank p.char = true)
    (hm : ∀ p ∈ chars.head?, isBlank p.char = false) :
    ((blanks ++ chars).dropWhile fun p => isBlank p.char) = chars := by
  rw [List.dropWhile_append_of_pos h]
  cases chars with
  | nil => rfl
  | cons p chars => simp [hm p rfl]

theorem text_afterNewline? {chars chars' rest : List Placed}
    (h : Placed.text chars' = Placed.text chars) (hrest : afterNewline? chars = some rest) :
    ∃ rest', afterNewline? chars' = some rest' ∧ Placed.text rest' = Placed.text rest := by
  obtain ⟨p, tail, rfl, hp⟩ := exists_break_of_afterNewline? hrest
  obtain ⟨p', tail', rfl, hp', htail⟩ := List.map_eq_cons_iff.mp h
  have hhead : tail'.head?.map Placed.char = tail.head?.map Placed.char := by
    rw [← List.head?_map, ← List.head?_map, htail]
  rw [afterNewline?_cons, if_pos hp, Option.some.injEq] at hrest
  rw [afterNewline?_cons, hp', if_pos hp, hhead]
  refine ⟨_, rfl, ?_⟩
  rw [← hrest]
  split
  · rw [Placed.text, Placed.text, List.map_tail, List.map_tail, htail]
  · exact htail

namespace Relaid

variable {edit : Nat → List Placed → List Placed → List Placed → Prop} {drops : Prop} {stop : Nat}
  {p : Placed} {chars chars' out : List Placed}

/-! ## Inside a line -/

theorem eq_nil (h : Relaid edit drops stop false [] out) : out = [] := by
  cases h with
  | done => rfl
  | newline after => simp [afterNewline?] at after

theorem uncons (h : Relaid edit drops stop false (p :: chars) out)
    (hp : isLineBreak p.char = false) :
    ∃ p' chars', out = p' :: chars' ∧ p'.char = p.char ∧
      Relaid edit drops stop false chars chars' := by
  cases h with
  | char same _ next => exact ⟨_, _, rfl, same, next⟩
  | newline after =>
      obtain ⟨q, tail, hq, hbreak⟩ := exists_break_of_afterNewline? after
      cases hq
      rw [hp] at hbreak
      cases hbreak

theorem unbreak (h : Relaid edit drops stop false (p :: chars) out)
    (hp : isLineBreak p.char = true) :
    ∃ rest rest', afterNewline? (p :: chars) = some rest ∧ afterNewline? out = some rest' ∧
      Relaid edit drops stop true rest rest' := by
  cases h with
  | char _ inside _ =>
      rw [hp] at inside
      cases inside
  | newline after after' next => exact ⟨_, _, after, after', next⟩

/-- Passing characters within a line passes the same characters on both sides. -/
theorem dropWhile {f : Char → Bool} (hf : ∀ c, isLineBreak c = true → f c = false)
    (h : Relaid edit drops stop false chars out) :
    Placed.text (out.takeWhile fun p => f p.char) = Placed.text (chars.takeWhile fun p => f p.char) ∧
      Relaid edit drops stop false (chars.dropWhile fun p => f p.char)
        (out.dropWhile fun p => f p.char) := by
  induction chars generalizing out with
  | nil =>
      rw [h.eq_nil]
      exact ⟨rfl, .done⟩
  | cons p chars ih =>
      cases hb : isLineBreak p.char with
      | true =>
          obtain ⟨rest, rest', -, hout, -⟩ := h.unbreak hb
          obtain ⟨q, tail, rfl, hq⟩ := exists_break_of_afterNewline? hout
          simp only [List.takeWhile_cons, List.dropWhile_cons, hf _ hb, hf _ hq, Bool.false_eq_true,
            if_false]
          exact ⟨trivial, h⟩
      | false =>
          obtain ⟨p', out', rfl, hp', hnext⟩ := h.uncons hb
          cases hfp : f p.char with
          | true =>
              obtain ⟨htake, hdrop⟩ := ih hnext
              simp only [List.takeWhile_cons, List.dropWhile_cons, hp', hfp, if_true,
                Placed.text_cons, htake]
              exact ⟨trivial, hdrop⟩
          | false =>
              simp only [List.takeWhile_cons, List.dropWhile_cons, hp', hfp, Bool.false_eq_true,
                if_false]
              exact ⟨trivial, h⟩

theorem margin (h : Relaid edit drops stop false chars out)
    (hm : ∀ p ∈ chars.head?, isBlank p.char = false) : ∀ p ∈ out.head?, isBlank p.char = false := by
  cases chars with
  | nil =>
      rw [h.eq_nil]
      exact hm
  | cons p chars =>
      cases hb : isLineBreak p.char with
      | true =>
          obtain ⟨rest, rest', -, hout, -⟩ := h.unbreak hb
          obtain ⟨q, tail, rfl, hq⟩ := exists_break_of_afterNewline? hout
          intro r hr
          cases Option.mem_some.mp hr
          cases hblank : isBlank q.char with
          | false => rfl
          | true => rw [isLineBreak_of_isBlank hblank] at hq; cases hq
      | false =>
          obtain ⟨p', out', rfl, hp', -⟩ := h.uncons hb
          intro r hr
          cases Option.mem_some.mp hr
          rw [hp']
          exact hm p rfl

/-- A line start: the line is on both sides, or it is a blank one that only one side has. -/
theorem fresh_cases (h : Relaid edit drops stop true chars out) :
    (∃ old new tail tail', chars = old ++ tail ∧ out = new ++ tail' ∧
        (∀ p ∈ old, isBlank p.char = true) ∧ (∀ p ∈ new, isBlank p.char = true) ∧
        (chars.dropWhile fun p => isBlank p.char) = tail ∧
        (out.dropWhile fun p => isBlank p.char) = tail' ∧
        (Placed.text new = Placed.text old ∨
          edit (Placed.startOr stop (old ++ tail)) old new tail) ∧
        Relaid edit drops stop false tail tail') ∨
      drops ∧ ∃ p tail rest, (chars.dropWhile fun p => isBlank p.char) = p :: tail ∧
        isLineBreak p.char = true ∧ afterNewline? (p :: tail) = some rest ∧
        Relaid edit drops stop true rest out := by
  cases h with
  | @indent old new tail tail' hold hnew hm change next =>
      exact .inl ⟨old, new, tail, tail', rfl, rfl, hold, hnew, dropWhile_blanks hold hm,
        dropWhile_blanks hnew (next.margin hm), change, next⟩
  | drop allowed blank after next =>
      obtain ⟨q, tail, rfl, hq⟩ := exists_break_of_afterNewline? after
      refine .inr ⟨allowed, q, tail, _, dropWhile_blanks blank ?_, hq, after, next⟩
      intro r hr
      cases Option.mem_some.mp hr
      cases hblank : isBlank q.char with
      | false => rfl
      | true => rw [isLineBreak_of_isBlank hblank] at hq; cases hq

theorem nil : Relaid edit drops stop true [] [] :=
  @indent edit drops stop [] [] [] [] (by simp) (by simp) (by simp) (.inl rfl) .done

/-- Both sides pass the end of the line together. -/
theorem dropNewline (h : Relaid edit drops stop false chars out)
    (hb : ∀ p ∈ chars.head?, isLineBreak p.char = true) :
    Relaid edit drops stop true (dropNewline chars) (Dockerfile.dropNewline out) := by
  cases chars with
  | nil =>
      rw [h.eq_nil]
      exact nil
  | cons p chars =>
      obtain ⟨rest, rest', hrest, hrest', hnext⟩ := h.unbreak (hb p rfl)
      unfold Dockerfile.dropNewline
      rw [hrest, hrest']
      exact hnext

theorem afterContinuation {escape : Char} (he : isLineBreak escape = false)
    (h : Relaid edit drops stop false chars out) :
    afterContinuation? escape chars = none ∧ afterContinuation? escape out = none ∨
      ∃ rest rest', afterContinuation? escape chars = some rest ∧
        afterContinuation? escape out = some rest' ∧ Relaid edit drops stop true rest rest' := by
  cases chars with
  | nil =>
      rw [h.eq_nil]
      exact .inl ⟨rfl, rfl⟩
  | cons p chars =>
      cases hb : isLineBreak p.char with
      | true =>
          obtain ⟨rest, rest', -, hout, -⟩ := h.unbreak hb
          obtain ⟨q, tail, rfl, hq⟩ := exists_break_of_afterNewline? hout
          have hne {r : Placed} (hr : isLineBreak r.char = true) : r.char ≠ escape := by
            intro heq
            rw [heq, he] at hr
            cases hr
          simp only [afterContinuation?, if_neg (hne hb), if_neg (hne hq)]
          exact .inl ⟨trivial, trivial⟩
      | false =>
          obtain ⟨p', out', rfl, hp', hnext⟩ := h.uncons hb
          simp only [afterContinuation?, hp']
          by_cases hescape : p.char = escape
          · simp only [if_pos hescape]
            have hrest := (hnext.dropWhile (f := isBlank) fun c hc => by
              cases hblank : isBlank c with
              | false => rfl
              | true => rw [isLineBreak_of_isBlank hblank] at hc; cases hc).2
            revert hrest
            generalize (chars.dropWhile fun q => isBlank q.char) = rest
            generalize (out'.dropWhile fun q => isBlank q.char) = rest'
            intro hrest
            cases rest with
            | nil =>
                rw [hrest.eq_nil]
                exact .inl ⟨rfl, rfl⟩
            | cons q rest =>
                cases hq : isLineBreak q.char with
                | true => exact .inr (hrest.unbreak hq)
                | false =>
                    obtain ⟨q', rest', rfl, hq', -⟩ := hrest.uncons hq
                    left
                    simp [afterNewline?_cons, hq, hq']
          · simp only [if_neg hescape]
            exact .inl ⟨trivial, trivial⟩

theorem comment (h : Relaid edit drops stop false chars out) (stop' start start' : Nat) :
    (Comment.read stop' start' out).1.text = (Comment.read stop start chars).1.text ∧
      Relaid edit drops stop true (Comment.read stop start chars).2
        (Comment.read stop' start' out).2 := by
  obtain ⟨htake, hdrop⟩ := h.dropWhile (f := fun c => !isLineBreak c) (by simp)
  refine ⟨?_, hdrop.dropNewline ?_⟩
  · show Text.trimBlanks _ = Text.trimBlanks _
    rw [htake]
  · intro p hp
    have hhead := List.head?_dropWhile_not (fun p : Placed => !isLineBreak p.char) chars
    rw [Option.mem_def.mp hp] at hhead
    simpa using hhead

theorem of_text (h : Placed.text out = Placed.text chars) :
    Relaid edit drops stop false chars out ∧ Relaid edit drops stop true chars out := by
  generalize hn : chars.length = n
  induction n using Nat.strongRecOn generalizing chars out with
  | ind n ih =>
  have hinside {chars out : List Placed} (hn : chars.length ≤ n)
      (h : Placed.text out = Placed.text chars) : Relaid edit drops stop false chars out := by
    cases chars with
    | nil =>
        obtain rfl := List.map_eq_nil_iff.mp h
        exact .done
    | cons p chars =>
        cases hb : isLineBreak p.char with
        | true =>
            obtain ⟨rest, hrest⟩ : ∃ rest, afterNewline? (p :: chars) = some rest :=
              Option.isSome_iff_exists.mp (by rw [isSome_afterNewline?, hb])
            obtain ⟨rest', hrest', htext⟩ := text_afterNewline? h hrest
            have hlt := afterNewline?_length hrest
            exact .newline hrest hrest' (ih rest.length (by omega) htext rfl).2
        | false =>
            obtain ⟨p', out, rfl, hp', hout⟩ := List.map_eq_cons_iff.mp h
            rw [List.length_cons] at hn
            exact .char hp' hb (ih chars.length (by omega) hout rfl).1
  refine ⟨hinside (Nat.le_of_eq hn) h, ?_⟩
  have hsplit (cs : List Placed) : cs = cs.takeWhile (fun p => isBlank p.char) ++
      cs.dropWhile fun p => isBlank p.char := List.takeWhile_append_dropWhile.symm
  have hblank (cs : List Placed) : ∀ p ∈ cs.takeWhile (fun p => isBlank p.char),
      isBlank p.char = true := fun p hp => List.all_eq_true.mp List.all_takeWhile p hp
  rw [hsplit chars, hsplit out]
  refine .indent (hblank chars) (hblank out) ?_ (.inl ?_) (hinside ?_ ?_)
  · intro p hp
    have hhead := List.head?_dropWhile_not (fun p : Placed => isBlank p.char) chars
    rw [Option.mem_def.mp hp] at hhead
    simpa using hhead
  · rw [Placed.text_takeWhile isBlank, Placed.text_takeWhile isBlank, h]
  · rw [← hn]
    exact length_dropWhile_le _ chars
  · rw [Placed.text_dropWhile isBlank, Placed.text_dropWhile isBlank, h]

end Relaid

/-! ## Behind a continuation -/

namespace Body

variable {edit : Nat → List Placed → List Placed → List Placed → Prop} {drops : Prop} {stop : Nat}

/-- The same is passed over, and what follows starts a line that has content, or the end. -/
structure SkipsAlike (edit : Nat → List Placed → List Placed → List Placed → Prop) (drops : Prop)
    (stop : Nat) (s s' : Skipped) : Prop where
  comments : s'.comments.map Comment.text = s.comments.map Comment.text
  emptyLines : ¬ drops → s'.emptyLines.length = s.emptyLines.length
  rest : ∃ old new chars chars', s.rest = old ++ chars ∧ s'.rest = new ++ chars' ∧
    (∀ p ∈ old, isBlank p.char = true) ∧ (∀ p ∈ new, isBlank p.char = true) ∧
    (∀ p ∈ chars.head?, isLineBreak p.char = false ∧ p.char ≠ '#') ∧
    (Placed.text new = Placed.text old ∨ edit (Placed.startOr stop (old ++ chars)) old new chars) ∧
    Relaid edit drops stop false chars chars'

theorem skipLines_relaid {chars out : List Placed} (h : Relaid edit drops stop true chars out)
    (stop' : Nat) : SkipsAlike edit drops stop (skipLines stop chars) (skipLines stop' out) := by
  fun_induction skipLines stop chars generalizing out with
  | case1 chars hc =>
      rcases h.fresh_cases with ⟨old, new, tail, tail', rfl, rfl, hold, hnew, htail, htail', change,
        next⟩ | ⟨-, p, tail, rest, htail, -⟩
      · rw [hc] at htail
        subst htail
        obtain rfl := next.eq_nil
        rw [skipLines_of_nil htail']
        exact ⟨rfl, fun _ => rfl, old, new, [], [], rfl, rfl, hold, hnew, by simp, change, next⟩
      · rw [hc] at htail
        cases htail
  | case2 chars p rest hc hp next =>
      rename_i ih
      rcases h.fresh_cases with ⟨old, new, tail, tail', rfl, rfl, hold, hnew, htail, htail', change,
        hnext⟩ | ⟨hdrops, q, tail, after, htail, -, hafter, hnext⟩
      · rw [hc] at htail
        subst htail
        obtain ⟨after, after', hafter, hafter', hfresh⟩ := hnext.unbreak hp
        obtain ⟨p', tail', rfl, hp'⟩ := exists_break_of_afterNewline? hafter'
        have hnext := ih (hnext.dropNewline fun q hq => by cases Option.mem_some.mp hq; exact hp)
        rw [skipLines_of_break htail' hp']
        exact ⟨hnext.comments, fun hd => congrArg (· + 1) (hnext.emptyLines hd), hnext.rest⟩
      · rw [hc] at htail
        cases htail
        have hdrop : dropNewline (p :: rest) = after := by
          unfold dropNewline
          rw [hafter]
          rfl
        have hnext := ih (by rw [hdrop]; exact hnext)
        exact ⟨hnext.comments, fun hd => absurd hdrops hd, hnext.rest⟩
  | case3 chars p rest hc hb hp comment =>
      rename_i next ih
      rcases h.fresh_cases with ⟨old, new, tail, tail', rfl, rfl, hold, hnew, htail, htail', change,
        hnext⟩ | ⟨-, q, tail, after, htail, hq, -⟩
      · rw [hc] at htail
        subst htail
        obtain ⟨p', rest', rfl, hp', hnext⟩ := hnext.uncons (by simpa using hb)
        obtain ⟨htext, hfresh⟩ := hnext.comment stop' p.offset p'.offset
        have hnext := ih hfresh
        rw [skipLines_of_comment htail' (hp'.trans hp)]
        refine ⟨?_, hnext.emptyLines, hnext.rest⟩
        rw [List.map_cons, List.map_cons, htext, hnext.comments]
      · rw [hc] at htail
        cases htail
        exact absurd hq hb
  | case4 chars p rest hc hb hp =>
      rcases h.fresh_cases with ⟨old, new, tail, tail', rfl, rfl, hold, hnew, htail, htail', change,
        hnext⟩ | ⟨-, q, tail, after, htail, hq, -⟩
      · rw [hc] at htail
        subst htail
        have hb : isLineBreak p.char = false := by simpa using hb
        obtain ⟨p', rest', rfl, hp', -⟩ := hnext.uncons hb
        rw [skipLines_of_content htail' (by rw [hp']; exact hb) (by rw [hp']; exact hp)]
        refine ⟨rfl, fun _ => rfl, old, new, p :: rest, p' :: rest', rfl, rfl, hold, hnew, ?_, change,
          hnext⟩
        intro q hq
        cases Option.mem_some.mp hq
        exact ⟨hb, hp⟩
      · rw [hc] at htail
        cases htail
        exact absurd hq hb

/-! ## Lines -/

/-- An edit of blanks that a line keeps: it stands in front of `hi` at the start of a line of the
text that is neither blank nor a comment, and if nothing follows there then nothing is kept behind
it. -/
def KeptEdit (edit : Nat → List Placed → List Placed → List Placed → Prop) (hi offset : Nat)
    (old new tail : List Placed) : Prop :=
  offset ≤ hi ∧ ∃ rest, edit offset old new rest ∧ (rest = [] → tail = []) ∧
    ∀ p ∈ rest.head?, isLineBreak p.char = false ∧ p.char ≠ '#'

/-- Two runs that keep the same up to edited blanks. -/
structure RunsAlike (edit : Nat → List Placed → List Placed → List Placed → Prop) (drops : Prop)
    (stop lo : Nat) (r r' : Run) : Prop where
  chars : Respaced (KeptEdit edit (Placed.startOr stop r.rest)) lo r.chars r'.chars
  comments : r'.comments.map Comment.text = r.comments.map Comment.text
  emptyLines : ¬ drops → r'.emptyLines.length = r.emptyLines.length
  rest : Relaid edit drops stop false r.rest r'.rest

theorem afterContinuation?_of_blank {escape : Char} (he : endsWord escape = false) {p : Placed}
    (hp : isBlank p.char = true) (rest : List Placed) :
    afterContinuation? escape (p :: rest) = none := by
  simp only [afterContinuation?]
  rw [if_neg]
  intro heq
  rw [← heq, endsWord, hp] at he
  cases he

theorem readUntil_blanks {escape : Char} (he : endsWord escape = false) {blanks : List Placed}
    (h : ∀ p ∈ blanks, isBlank p.char = true) (chars : List Placed) :
    readUntil isLineBreak escape stop (blanks ++ chars) =
      { readUntil isLineBreak escape stop chars with
        chars := blanks ++ (readUntil isLineBreak escape stop chars).chars } := by
  induction blanks with
  | nil => rfl
  | cons p blanks ih =>
      have hp := h p List.mem_cons_self
      rw [List.cons_append, readUntil_of_char (afterContinuation?_of_blank he hp _)
        (isLineBreak_of_isBlank hp), ih fun q hq => h q (List.mem_cons_of_mem _ hq)]
      rfl

theorem readUntil_sublist {ends : Char → Bool} (hends : ∀ c, isLineBreak c = true → ends c = true)
    (escape : Char) (stop : Nat) (chars : List Placed) :
    ((readUntil ends escape stop chars).chars ++ (readUntil ends escape stop chars).rest).Sublist
      chars :=
  (readUntil_tiling hends chars).kept_sublist

variable {text : Text} {escape : Char}

theorem RunsAlike.blanks (he : endsWord escape = false) {old new tail tail' : List Placed} {stop' : Nat}
    (hline : old ++ tail <:+ Text.place 0 text) (hold : ∀ p ∈ old, isBlank p.char = true)
    (hnew : ∀ p ∈ new, isBlank p.char = true)
    (hhead : ∀ p ∈ tail.head?, isLineBreak p.char = false ∧ p.char ≠ '#')
    (change : Placed.text new = Placed.text old ∨
      edit (Placed.startOr (Text.byteLength text) (old ++ tail)) old new tail)
    (h : RunsAlike edit drops (Text.byteLength text) (Placed.startOr (Text.byteLength text) tail)
      (readUntil isLineBreak escape (Text.byteLength text) tail)
      (readUntil isLineBreak escape stop' tail')) :
    RunsAlike edit drops (Text.byteLength text)
      (Placed.startOr (Text.byteLength text) (old ++ tail))
      (readUntil isLineBreak escape (Text.byteLength text) (old ++ tail))
      (readUntil isLineBreak escape stop' (new ++ tail')) := by
  have htail := (List.suffix_append old tail).trans hline
  have hresume := Text.startOr_le_startOr hline (List.suffix_append old tail)
  have hkept := readUntil_sublist (fun _ h => h) escape (Text.byteLength text) tail
  rw [readUntil_blanks he hold, readUntil_blanks he hnew]
  refine ⟨?_, h.comments, h.emptyLines, h.rest⟩
  rcases change with hsame | hedit
  · have hordered : old.Pairwise fun p q => p.stop ≤ q.offset := by
      have := (Text.pairwise_place 0 text).sublist hline.sublist
      exact (List.pairwise_append.mp this).1
    refine h.chars.keep_append hsame hordered ?_ hresume
    intro q hq
    exact ⟨Text.startOr_le_offset hline (List.mem_append_left _ hq), Text.stop_le_startOr hline hq⟩
  · refine .edit ⟨?_, tail, hedit, ?_, hhead⟩ hold hnew (Nat.le_refl _) ?_ hresume ?_ h.chars
    · exact Nat.le_trans hresume (Text.startOr_le_startOr htail
        (readUntil_tiling (fun _ h => h) tail).suffix)
    · intro hnil
      rw [hnil, readUntil]
    · intro q hq
      refine Text.startOr_le_offset hline ?_
      rcases List.mem_append.mp hq with hq | hq
      · exact List.mem_append_left _ hq
      · exact List.mem_append_right _ (hkept.mem (List.mem_append_left _ hq))
    · intro q hq
      exact Text.stop_le_startOr hline hq

theorem readUntil_relaid (he : endsWord escape = false) {chars out : List Placed}
    (hc : chars <:+ Text.place 0 text)
    (h : Relaid edit drops (Text.byteLength text) false chars out) (stop' : Nat) :
    RunsAlike edit drops (Text.byteLength text) (Placed.startOr (Text.byteLength text) chars)
      (readUntil isLineBreak escape (Text.byteLength text) chars)
      (readUntil isLineBreak escape stop' out) := by
  -- The recursion resumes behind the blanks that lines passed over end with, so it is on the length.
  generalize hn : chars.length = n
  induction n using Nat.strongRecOn generalizing chars out with
  | ind n ih =>
  have hebreak : isLineBreak escape = false := by
    simp only [endsWord, Bool.or_eq_false_iff] at he
    exact he.2
  cases chars with
  | nil =>
      obtain rfl := h.eq_nil
      rw [readUntil, readUntil]
      exact ⟨.nil _, rfl, fun _ => rfl, .done⟩
  | cons p rest =>
      rcases h.afterContinuation hebreak with ⟨hnone, hnone'⟩ | ⟨after, after', hsome, hsome', hfresh⟩
      · cases hb : isLineBreak p.char with
        | true =>
            obtain ⟨_, _, -, hout, -⟩ := h.unbreak hb
            obtain ⟨q, tail, rfl, hq⟩ := exists_break_of_afterNewline? hout
            rw [readUntil_of_end hnone hb, readUntil_of_end hnone' hq]
            exact ⟨.nil _, rfl, fun _ => rfl, h⟩
        | false =>
            obtain ⟨p', out', rfl, hp', hnext⟩ := h.uncons hb
            have hnext := ih rest.length (by rw [← hn]; simp) ((List.suffix_cons _ _).trans hc) hnext
              rfl
            rw [readUntil_of_char hnone hb, readUntil_of_char hnone' (by rw [hp']; exact hb)]
            refine ⟨.keep (Nat.le_refl _) hp' (hnext.chars.mono ?_), hnext.comments,
              hnext.emptyLines, hnext.rest⟩
            exact Text.stop_le_startOr (a := [p]) hc List.mem_cons_self
      · obtain ⟨p', out', rfl, -, -⟩ := exists_of_afterContinuation? hsome'
        have hskip := skipLines_relaid hfresh stop'
        obtain ⟨old, new, tail, tail', hrest, hrest', hold, hnew, hhead, change, hnext⟩ := hskip.rest
        have hskipped : old ++ tail <:+ p :: rest := by
          rw [← hrest]
          exact (skipLines_tiling after : Tiling escape _ _ _ _ _).suffix.trans
            (afterContinuation?_tiling hsome : Tiling escape 0 _ _ _ _).suffix
        have hlt : tail.length < n := by
          have h1 := afterContinuation?_length hsome
          have h2 := skipLines_length (Text.byteLength text) after
          rw [hrest, List.length_append] at h2
          omega
        have hline := hskipped.trans hc
        have hnext := (ih tail.length hlt ((List.suffix_append old tail).trans hline) hnext rfl).blanks
          he hline hold hnew hhead change
        rw [readUntil_of_continuation hsome, readUntil_of_continuation hsome', hrest, hrest']
        refine ⟨hnext.chars.mono (Text.startOr_le_startOr hc hskipped), ?_, ?_, hnext.rest⟩
        · rw [List.map_append, List.map_append, hskip.comments, hnext.comments]
        · intro hd
          rw [List.length_append, List.length_append, hskip.emptyLines hd, hnext.emptyLines hd]

/-! ## Bodies -/

/-- Lines that keep the same up to edited blanks. Each takes the part of the text between its `lo`
and its `hi`, in order. -/
inductive RelaidLines (edit : Nat → List Placed → List Placed → List Placed → Prop) (drops : Prop) :
    Nat → List Instruction → List Instruction → Prop
  | nil (start : Nat) : RelaidLines edit drops start [] []
  | cons {start lo hi : Nat} {line line' : Instruction} {lines lines' : List Instruction}
      (after : start ≤ lo) (ordered : lo ≤ hi)
      (inside : ∀ p ∈ line.chars, lo ≤ p.offset ∧ p.stop ≤ hi)
      (chars : Respaced (KeptEdit edit hi) lo line.chars line'.chars)
      (emptyLines : ¬ drops → line'.emptyLines.length = line.emptyLines.length)
      (next : RelaidLines edit drops hi lines lines') :
      RelaidLines edit drops start (line :: lines) (line' :: lines')

theorem RelaidLines.mono {start start' : Nat} {lines lines' : List Instruction}
    (h : RelaidLines edit drops start lines lines') (hle : start' ≤ start) :
    RelaidLines edit drops start' lines lines' := by
  cases h with
  | nil => exact .nil _
  | cons after ordered inside chars emptyLines next =>
      exact .cons (Nat.le_trans hle after) ordered inside chars emptyLines next

theorem RelaidLines.start_le {start : Nat} {lines lines' : List Instruction}
    (h : RelaidLines edit drops start lines lines') :
    ∀ line ∈ lines, ∀ p ∈ line.chars, start ≤ p.offset := by
  induction h with
  | nil => simp
  | cons after ordered inside _ _ _ ih =>
      intro line hline p hp
      rcases List.mem_cons.mp hline with rfl | hline
      · exact Nat.le_trans after (inside p hp).1
      · exact Nat.le_trans (Nat.le_trans after ordered) (ih line hline p hp)

/-- Passing blanks and line breaks leads to the same content on both sides. -/
theorem dropWords_relaid {chars out : List Placed} (h : Relaid edit drops stop true chars out) :
    Relaid edit drops stop false (chars.dropWhile fun p => endsWord p.char)
      (out.dropWhile fun p => endsWord p.char) := by
  have hblanks {blanks tail : List Placed} (hb : ∀ p ∈ blanks, isBlank p.char = true) :
      ((blanks ++ tail).dropWhile fun p => endsWord p.char) =
        tail.dropWhile fun p => endsWord p.char :=
    List.dropWhile_append_of_pos fun p hp => by simp [endsWord, hb p hp]
  have hbreaks {tail rest : List Placed} (ha : afterNewline? tail = some rest) :
      (tail.dropWhile fun p => endsWord p.char) = rest.dropWhile fun p => endsWord p.char := by
    obtain ⟨ends, rfl, -, hends⟩ := exists_of_afterNewline? ha
    exact List.dropWhile_append_of_pos fun p hp => endsWord_of_isLineBreak (hends p hp)
  generalize hn : chars.length = n
  induction n using Nat.strongRecOn generalizing chars out with
  | ind n ih =>
  cases h with
  | @indent old new tail tail' hold hnew hm change next =>
      rw [hblanks hold, hblanks hnew]
      cases tail with
      | nil =>
          rw [next.eq_nil]
          exact .done
      | cons p tail =>
          cases hb : isLineBreak p.char with
          | true =>
              obtain ⟨rest, rest', hrest, hrest', hnext⟩ := next.unbreak hb
              have hlt := afterNewline?_length hrest
              rw [List.length_append] at hn
              rw [hbreaks hrest, hbreaks hrest']
              exact ih rest.length (by omega) hnext rfl
          | false =>
              have hword : endsWord p.char = false := by simp [endsWord, hb, hm p rfl]
              obtain ⟨p', tail', rfl, hp', -⟩ := next.uncons hb
              simpa only [List.dropWhile_cons, hp', hword, Bool.false_eq_true, if_false] using next
  | @drop blanks tail rest _ allowed blank after next =>
      have hlt := afterNewline?_length after
      rw [List.length_append] at hn
      rw [hblanks blank, hbreaks after]
      exact ih rest.length (by omega) next rfl

/-- Two bodies with the same lines up to indentation. -/
theorem read_relaid (he : endsWord escape = false) {chars out : List Placed}
    (hc : chars <:+ Text.place 0 text)
    (h : Relaid edit drops (Text.byteLength text) true chars out) (stop' : Nat) :
    (read escape stop' out).comments.map Comment.text =
        (read escape (Text.byteLength text) chars).comments.map Comment.text ∧
      RelaidLines edit drops (Placed.startOr (Text.byteLength text) chars)
        (logicalLines escape (Text.byteLength text) chars) (logicalLines escape stop' out) := by
  fun_induction logicalLines escape (Text.byteLength text) chars generalizing out with
  | case1 chars hd =>
      have hwords := dropWords_relaid h
      rw [hd] at hwords
      rw [(read_of_nil hd).1, (read_of_nil hwords.eq_nil).1, (read_of_nil hwords.eq_nil).2]
      exact ⟨rfl, .nil _⟩
  | case2 chars p rest hd hmark ih =>
      have hwords := dropWords_relaid h
      rw [hd] at hwords
      obtain ⟨p', rest', hd', hp', hnext⟩ := hwords.uncons (by rw [hmark]; rfl)
      obtain ⟨htext, hfresh⟩ := hnext.comment stop' p.offset p'.offset
      have hsuf : (Comment.read (Text.byteLength text) p.offset rest).2 <:+ chars :=
        (Comment.read_suffix (Text.byteLength text) p.offset rest).trans
          ((List.suffix_cons p rest).trans (suffix_of_dropWhile hd))
      obtain ⟨hcomments, hlines⟩ := ih (hsuf.trans hc) hfresh
      rw [(read_of_comment hd hmark).1, (read_of_comment hd' (hp'.trans hmark)).1,
        (read_of_comment hd' (hp'.trans hmark)).2]
      refine ⟨?_, hlines.mono (Text.startOr_le_startOr hc hsuf)⟩
      rw [List.map_cons, List.map_cons, htext, hcomments]
  | case3 chars p rest hd hmark ih =>
      have hwords := dropWords_relaid h
      have hhead := List.head?_dropWhile_not (fun p : Placed => endsWord p.char) chars
      rw [hd] at hwords hhead
      have hb : isLineBreak p.char = false := by
        simp only [List.head?_cons, endsWord, Bool.or_eq_false_iff] at hhead
        exact hhead.2
      have hsuf : p :: rest <:+ chars := suffix_of_dropWhile hd
      obtain ⟨p', rest', hd', hp', -⟩ := hwords.uncons hb
      have hrun := readUntil_relaid he (hsuf.trans hc) hwords stop'
      have htiling := line_tiling escape (Text.byteLength text) (p :: rest)
      rw [hd', readUntil_isLineBreak, readUntil_isLineBreak] at hrun
      have hafter := (htiling.suffix.trans hsuf).trans hc
      obtain ⟨hcomments, hlines⟩ := ih ((dropNewline_suffix _).trans hafter)
        (hrun.rest.dropNewline (isLineBreak_afterLine (p :: rest)))
      have hne : p'.char ≠ '#' := by rw [hp']; exact hmark
      rw [(read_of_line hd hmark).1, (read_of_line hd' hne).1, (read_of_line hd' hne).2]
      refine ⟨?_, .cons (Text.startOr_le_startOr hc hsuf) ?_ ?_ hrun.chars hrun.emptyLines
        (hlines.mono (Text.startOr_le_startOr hafter (dropNewline_suffix _)))⟩
      · rw [List.map_append, List.map_append, hrun.comments, hcomments]
      · exact Text.startOr_le_startOr (hsuf.trans hc) htiling.suffix
      · intro q hq
        have hmem := htiling.kept_sublist.mem (List.mem_append_left _ hq)
        exact ⟨Text.startOr_le_offset (hsuf.trans hc) hmem,
          htiling.kept_stop_le (hsuf.trans hc) hq⟩

end Body

end Dockerfile
