import Dockerfile.Argument
import Dockerfile.Proofs.Text.Bytes

/-!
# Arguments and the blanks between them

Arguments are parts of the characters they are split from. Which arguments there are does not change
if the blanks between them do: `Respaced` relates two lists of characters that differ in blanks only,
and if no argument reaches across a place that was changed, both have the same arguments
(`Argument.splitFrom_respaced`).
-/

namespace Dockerfile

/-- `chars'` has the characters of `chars`, except that at some offsets, from `lo` on, blanks `old`
were replaced by blanks `new`. What `edit` says of such a place includes the characters behind it. -/
inductive Respaced (edit : Nat → List Placed → List Placed → List Placed → Prop) :
    Nat → List Placed → List Placed → Prop
  | nil (lo : Nat) : Respaced edit lo [] []
  | keep {lo : Nat} {p p' : Placed} {chars chars' : List Placed} (after : lo ≤ p.offset)
      (same : p'.char = p.char) (next : Respaced edit p.stop chars chars') :
      Respaced edit lo (p :: chars) (p' :: chars')
  | edit {lo offset resume : Nat} {old new chars chars' : List Placed}
      (edited : edit offset old new chars) (old_blank : ∀ p ∈ old, isBlank p.char = true)
      (new_blank : ∀ p ∈ new, isBlank p.char = true) (after : lo ≤ offset)
      (before : ∀ p ∈ old ++ chars, offset ≤ p.offset) (resumes : offset ≤ resume)
      (old_stop : ∀ p ∈ old, p.stop ≤ resume) (next : Respaced edit resume chars chars') :
      Respaced edit lo (old ++ chars) (new ++ chars')

namespace Respaced

variable {edit edit' : Nat → List Placed → List Placed → List Placed → Prop} {lo lo' : Nat}
  {chars chars' : List Placed}

theorem mono (h : Respaced edit lo chars chars') (hlo : lo' ≤ lo) :
    Respaced edit lo' chars chars' := by
  cases h with
  | nil => exact .nil lo'
  | keep after same next => exact .keep (Nat.le_trans hlo after) same next
  | edit edited ho hn after before hr hs next =>
      exact .edit edited ho hn (Nat.le_trans hlo after) before hr hs next

theorem keep_append {old new : List Placed} (same : Placed.text new = Placed.text old)
    (h : Respaced edit lo' chars chars')
    (ordered : old.Pairwise fun p q => p.stop ≤ q.offset)
    (hlo : ∀ p ∈ old, lo ≤ p.offset ∧ p.stop ≤ lo') (hle : lo ≤ lo') :
    Respaced edit lo (old ++ chars) (new ++ chars') := by
  induction old generalizing lo new with
  | nil =>
      have hnew : new = [] := by simpa [Placed.text] using same
      rw [hnew]
      exact h.mono hle
  | cons p old ih =>
      cases new with
      | nil => simp [Placed.text] at same
      | cons p' new =>
          rw [Placed.text_cons, Placed.text_cons, List.cons.injEq] at same
          rw [List.pairwise_cons] at ordered
          refine .keep (hlo p List.mem_cons_self).1 same.1 (ih same.2 ordered.2 ?_ ?_)
          · intro q hq
            exact ⟨ordered.1 q hq, (hlo q (List.mem_cons_of_mem _ hq)).2⟩
          · exact (hlo p List.mem_cons_self).2

theorem text_eq (h : Respaced edit lo chars chars')
    (hedit : ∀ offset old new tail, ¬ edit offset old new tail) :
    Placed.text chars' = Placed.text chars := by
  induction h with
  | nil => rfl
  | keep _ same _ ih => rw [Placed.text_cons, Placed.text_cons, same, ih]
  | edit edited => exact absurd edited (hedit _ _ _ _)

theorem all_blank (h : Respaced edit lo chars chars') (hb : ∀ p ∈ chars, isBlank p.char = true) :
    ∀ p ∈ chars', isBlank p.char = true := by
  induction h with
  | nil => exact hb
  | @keep _ p p' _ _ _ same _ ih =>
      intro q hq
      rcases List.mem_cons.mp hq with rfl | hq
      · rw [same]
        exact hb p List.mem_cons_self
      · exact ih (fun r hr => hb r (List.mem_cons_of_mem _ hr)) q hq
  | edit _ _ hnew _ _ _ _ _ ih =>
      intro q hq
      rcases List.mem_append.mp hq with hq | hq
      · exact hnew q hq
      · exact ih (fun r hr => hb r (List.mem_append_right _ hr)) q hq

/-- What is known of the places of a whole list may be added to what `edit` says of them. -/
theorem imp {whole front : List Placed} (h : Respaced edit lo chars chars')
    (hwhole : whole = front ++ chars) (hfront : ∀ p ∈ front, p.stop ≤ lo)
    (himp : ∀ {offset old new tail front}, edit offset old new tail →
      whole = front ++ (old ++ tail) → lo ≤ offset →
      (∀ p ∈ front, p.stop ≤ offset) → (∀ p ∈ old ++ tail, offset ≤ p.offset) →
      edit' offset old new tail) :
    Respaced edit' lo chars chars' := by
  suffices key : ∀ {lo' front}, whole = front ++ chars → lo ≤ lo' →
      (∀ p ∈ front, p.stop ≤ lo') → Respaced edit lo' chars chars' →
      Respaced edit' lo' chars chars' from key hwhole (Nat.le_refl _) hfront h
  clear h hwhole hfront front
  intro lo' front hwhole hle hfront h
  induction h generalizing front with
  | nil => exact .nil _
  | @keep lo' p _ tail _ after same _ ih =>
      have hwhole : whole = (front ++ [p]) ++ tail := by simp [hwhole]
      refine .keep after same (ih hwhole ?_ ?_)
      · have := p.offset_lt_stop; omega
      · intro q hq
        have := p.offset_lt_stop
        rcases List.mem_append.mp hq with hq | hq
        · have := hfront q hq; omega
        · exact Nat.le_of_eq (congrArg Placed.stop (List.mem_singleton.mp hq))
  | @edit lo' offset resume old new _ _ edited ho hn after before hr hs _ ih =>
      have hfront' : ∀ p ∈ front, p.stop ≤ offset := fun p hp => by
        have := hfront p hp; omega
      refine .edit (himp edited hwhole (by omega) hfront' before) ho hn after before hr hs
        (ih (by rw [hwhole, List.append_assoc]) ?_ ?_)
      · omega
      · intro p hp
        rcases List.mem_append.mp hp with hp | hp
        · have := hfront' p hp; omega
        · exact hs p hp

/-! ## Separating blanks -/

/-- Blanks that stand in front of something are not replaced by nothing, and nothing is put behind
the last character. -/
def Separating (edited : Nat → Prop) (offset : Nat) (old new tail : List Placed) : Prop :=
  edited offset ∧ old ++ tail ≠ [] ∧ (new ≠ [] ∨ tail = [])

section Separating

variable {edited : Nat → Prop} {p : Placed} {rest out : List Placed}

theorem eq_nil (h : Respaced (Separating edited) lo [] out) : out = [] := by
  generalize hc : ([] : List Placed) = chars at h
  cases h with
  | nil => rfl
  | keep => cases hc
  | edit edited => exact absurd hc.symm edited.2.1

theorem head_blank (h : Respaced (Separating edited) lo (p :: rest) out)
    (hp : isBlank p.char = true) :
    out = [] ∨ ∃ q tail, out = q :: tail ∧ isBlank q.char = true := by
  generalize hc : p :: rest = chars at h
  cases h with
  | nil => cases hc
  | keep _ same _ =>
      cases hc
      exact .inr ⟨_, _, rfl, by rw [same]; exact hp⟩
  | @edit _ offset resume old new tail tail' edited _ hnew _ _ _ _ next =>
      cases new with
      | nil =>
          have htail : tail = [] := edited.2.2.resolve_left (by simp)
          subst htail
          exact .inl next.eq_nil
      | cons q new => exact .inr ⟨q, new ++ tail', rfl, hnew q List.mem_cons_self⟩

/-- The first character is kept behind some blanks, or it is a blank and goes itself. -/
theorem uncons (h : Respaced (Separating edited) lo (p :: rest) out) :
    ∃ blanks tail, out = blanks ++ tail ∧ (∀ q ∈ blanks, isBlank q.char = true) ∧
      ((∃ p' tail', tail = p' :: tail' ∧ p'.char = p.char ∧
          Respaced (Separating edited) p.stop rest tail') ∨
        isBlank p.char = true ∧ ∃ lo', Respaced (Separating edited) lo' rest tail) := by
  generalize hc : p :: rest = chars at h
  induction h with
  | nil => cases hc
  | keep _ same next =>
      cases hc
      exact ⟨[], _, rfl, by simp, .inl ⟨_, _, rfl, same, next⟩⟩
  | @edit lo offset resume old new tail tail' edited hold hnew after before hr hs next ih =>
      cases old with
      | nil =>
          obtain ⟨blanks, tail'', rfl, hblanks, hcases⟩ := ih hc
          refine ⟨new ++ blanks, tail'', by simp, ?_, hcases⟩
          intro q hq
          rcases List.mem_append.mp hq with hq | hq
          · exact hnew q hq
          · exact hblanks q hq
      | cons q old =>
          obtain ⟨rfl, rfl⟩ := List.cons.inj hc
          have hp := hold p List.mem_cons_self
          by_cases hnil : old ++ tail = []
          · obtain ⟨rfl, rfl⟩ := List.append_eq_nil_iff.mp hnil
            exact ⟨new, tail', rfl, hnew, .inr ⟨hp, resume, next⟩⟩
          · refine ⟨[], new ++ tail', rfl, by simp, .inr ⟨hp, lo, ?_⟩⟩
            exact .edit ⟨edited.1, hnil, edited.2.2⟩ (fun q hq => hold q (List.mem_cons_of_mem _ hq))
              hnew after (fun q hq => before q (List.mem_cons_of_mem _ hq)) hr
              (fun q hq => hs q (List.mem_cons_of_mem _ hq)) next

/-- A stretch that nothing was changed in is kept. -/
theorem stretch {word : List Placed} (h : Respaced (Separating edited) lo (word ++ rest) out)
    (hcut : ∀ offset, edited offset → lo ≤ offset → ∀ q ∈ word, q.offset < offset) :
    ∃ word' rest', out = word' ++ rest' ∧ Placed.text word' = Placed.text word ∧
      ∃ lo', Respaced (Separating edited) lo' rest rest' := by
  induction word generalizing lo out with
  | nil => exact ⟨[], out, rfl, rfl, lo, h⟩
  | cons q word ih =>
      generalize hc : (q :: word) ++ rest = chars at h
      cases h with
      | nil => cases hc
      | keep after same next =>
          cases hc
          have := q.offset_lt_stop
          obtain ⟨word', rest', rfl, htext, hrest⟩ :=
            ih next fun o ho hle r hr => hcut o ho (by omega) r (List.mem_cons_of_mem _ hr)
          exact ⟨_ :: word', rest', rfl, by rw [Placed.text_cons, Placed.text_cons, same, htext],
            hrest⟩
      | edit edited _ _ after before =>
          have hq := before q (by rw [← hc]; exact List.mem_cons_self)
          have := hcut _ edited.1 after q List.mem_cons_self
          omega

end Separating

end Respaced

namespace Argument

/-! ## Words -/

namespace Word

theorem read_append (escape : Char) (quote : Option OpenQuote) (chars : List Placed) :
    (read escape quote chars).chars ++ (read escape quote chars).rest = chars := by
  fun_induction read escape quote chars <;> simp_all [prepend]

theorem read_rest (escape : Char) (quote : Option OpenQuote) (chars : List Placed) :
    (read escape quote chars).rest = [] ∨
      ∃ p tail, (read escape quote chars).rest = p :: tail ∧ isBlank p.char = true := by
  fun_induction read escape quote chars <;> simp_all

/-- The same characters are a word again in front of a blank or of the end; in front of the end
only, if it was the end that ended the word. -/
theorem read_congr {escape : Char} {quote quote' : Option OpenQuote} {chars word rest : List Placed}
    (hquote : quote'.map OpenQuote.quote = quote.map OpenQuote.quote)
    (hword : Placed.text word = Placed.text (read escape quote chars).chars)
    (hrest : rest = [] ∨ ∃ p tail, rest = p :: tail ∧ isBlank p.char = true)
    (hend : (read escape quote chars).rest = [] → rest = []) :
    (read escape quote' (word ++ rest)).chars = word ∧
      (read escape quote' (word ++ rest)).rest = rest := by
  fun_induction read escape quote chars generalizing quote' word with
  | case1 =>
      obtain rfl := List.map_eq_nil_iff.mp hword
      rw [hend rfl]
      exact ⟨rfl, rfl⟩
  | case2 p tail hp =>
      obtain rfl := List.map_eq_nil_iff.mp hword
      obtain rfl := Option.map_eq_none_iff.mp hquote
      rcases hrest with rfl | ⟨q, tail, rfl, hq⟩
      · exact ⟨rfl, rfl⟩
      · simp [read.eq_def escape none (q :: tail), hq]
  | case3 p tail hp hmark ih =>
      obtain ⟨p', word, rfl, hp', hword⟩ := List.map_eq_cons_iff.mp hword
      obtain rfl := Option.map_eq_none_iff.mp hquote
      have ih := @ih (some ⟨p'.char, p'.offset⟩) _ (by simp [hp']) hword hend
      rw [← hp'] at hp hmark
      simp [read.eq_def escape none (p' :: (word ++ rest)), hp, hmark, prepend, ih]
  | case4 p hp hmark hescape =>
      obtain ⟨p', word, rfl, hp', hword⟩ := List.map_eq_cons_iff.mp hword
      obtain rfl := Option.map_eq_none_iff.mp hquote
      obtain rfl := List.map_eq_nil_iff.mp hword
      rw [hescape] at hp hmark hp'
      rw [hend rfl]
      simp [read.eq_def escape none [p'], hp, hmark, hp']
  | case5 p hp hmark hescape q tail ih =>
      obtain ⟨p', word, rfl, hp', hword⟩ := List.map_eq_cons_iff.mp hword
      obtain ⟨q', word, rfl, -, hword⟩ := List.map_eq_cons_iff.mp hword
      obtain rfl := Option.map_eq_none_iff.mp hquote
      have ih := @ih none _ rfl hword hend
      rw [hescape] at hp hmark hp'
      simp [read.eq_def escape none (p' :: q' :: (word ++ rest)), hp, hmark, hp', prepend, ih]
  | case6 p tail hp hmark hescape ih =>
      obtain ⟨p', word, rfl, hp', hword⟩ := List.map_eq_cons_iff.mp hword
      obtain rfl := Option.map_eq_none_iff.mp hquote
      have ih := @ih none _ rfl hword hend
      rw [← hp'] at hp hmark hescape
      simp [read.eq_def escape none (p' :: (word ++ rest)), hp, hmark, hescape, prepend, ih]
  | case7 p tail opened hclose ih =>
      obtain ⟨p', word, rfl, hp', hword⟩ := List.map_eq_cons_iff.mp hword
      obtain ⟨opened', rfl, hopened⟩ := Option.map_eq_some_iff.mp hquote
      have ih := @ih none _ rfl hword hend
      rw [← hp', ← hopened] at hclose
      simp [read.eq_def escape (some opened') (p' :: (word ++ rest)), hclose, prepend, ih]
  | case8 p opened hclose hescape =>
      obtain ⟨p', word, rfl, hp', hword⟩ := List.map_eq_cons_iff.mp hword
      obtain ⟨opened', rfl, hopened⟩ := Option.map_eq_some_iff.mp hquote
      obtain rfl := List.map_eq_nil_iff.mp hword
      rw [hescape.1] at hclose hopened
      rw [hescape.2] at hclose hp'
      rw [hend rfl]
      simp [read.eq_def escape (some opened') [p'], hclose, hopened, hp']
  | case9 p opened hclose hescape q tail ih =>
      obtain ⟨p', word, rfl, hp', hword⟩ := List.map_eq_cons_iff.mp hword
      obtain ⟨q', word, rfl, -, hword⟩ := List.map_eq_cons_iff.mp hword
      obtain ⟨opened', rfl, hopened⟩ := Option.map_eq_some_iff.mp hquote
      have ih := @ih (some opened') _ hquote hword hend
      rw [hescape.1] at hclose hopened
      rw [hescape.2] at hclose hp'
      simp [read.eq_def escape (some opened') (p' :: q' :: (word ++ rest)), hclose, hopened, hp',
        prepend, ih]
  | case10 p tail opened hclose hescape ih =>
      obtain ⟨p', word, rfl, hp', hword⟩ := List.map_eq_cons_iff.mp hword
      obtain ⟨opened', rfl, hopened⟩ := Option.map_eq_some_iff.mp hquote
      have ih := @ih (some opened') _ hquote hword hend
      rw [← hp', ← hopened] at hclose hescape
      simp [read.eq_def escape (some opened') (p' :: (word ++ rest)), hclose, hescape, prepend, ih]

end Word

/-! ## Arguments -/

theorem splitFrom_within {text : Text} (escape : Char) {whole : Excerpt} (hw : whole.Within text)
    (index : Nat) (chars : List Placed) (hs : chars <:+ whole.chars) {arg : Argument}
    (harg : arg ∈ splitFrom escape whole index chars) : arg.content.Within text := by
  fun_induction splitFrom escape whole index chars with
  | case1 => simp at harg
  | case2 index p rest hb ih => exact ih ((List.suffix_cons _ _).trans hs) harg
  | case3 index p rest hb word stop ih =>
      have happend : word.chars ++ word.rest = p :: rest := Word.read_append escape none (p :: rest)
      have hrest : word.rest <:+ whole.chars := by
        refine List.IsSuffix.trans ?_ hs
        rw [← happend]
        exact List.suffix_append _ _
      rcases List.mem_cons.mp harg with rfl | harg
      · refine hw.part ?_ hrest.sublist
        refine List.Sublist.trans ?_ hs.sublist
        rw [← happend]
        exact List.sublist_append_left _ _
      · exact ih hrest harg

theorem splitFrom_blanks {escape : Char} {whole : Excerpt} {index : Nat} {blanks rest : List Placed}
    (h : ∀ p ∈ blanks, isBlank p.char = true) :
    splitFrom escape whole index (blanks ++ rest) =
      splitFrom escape whole (index + total Placed.size blanks) rest := by
  induction blanks generalizing index with
  | nil => rfl
  | cons p blanks ih =>
      rw [List.cons_append, splitFrom, if_pos (h p List.mem_cons_self), total_cons,
        ih fun q hq => h q (List.mem_cons_of_mem _ hq), Nat.add_assoc]

theorem splitFrom_dropBlanks (escape : Char) (whole : Excerpt) (index : Nat) (chars : List Placed) :
    splitFrom escape whole index chars = splitFrom escape whole
      (index + total Placed.size (chars.takeWhile fun p => isBlank p.char))
      (chars.dropWhile fun p => isBlank p.char) := by
  induction chars generalizing index with
  | nil => simp [splitFrom]
  | cons p chars ih =>
      by_cases hblank : isBlank p.char = true
      · rw [splitFrom, if_pos hblank, ih]
        simp only [List.takeWhile_cons, List.dropWhile_cons, hblank, if_true, total_cons, Nat.add_assoc]
      · simp only [List.takeWhile_cons, List.dropWhile_cons, hblank, Bool.false_eq_true, if_false,
          total_nil, Nat.add_zero]

theorem splitFrom_word {escape : Char} {whole : Excerpt} {index : Nat} {p : Placed}
    {rest : List Placed} (h : isBlank p.char = false) :
    (splitFrom escape whole index (p :: rest)).map text =
      Placed.text (Word.read escape none (p :: rest)).chars ::
        (splitFrom escape whole
          (index + total Placed.size (Word.read escape none (p :: rest)).chars)
          (Word.read escape none (p :: rest)).rest).map text := by
  rw [splitFrom, if_neg (by simp [h])]
  rfl

theorem Word.exists_read_eq (escape : Char) {p : Placed} (rest : List Placed)
    (h : isBlank p.char = false) :
    ∃ word, (Word.read escape none (p :: rest)).chars = p :: word ∧
      rest = word ++ (Word.read escape none (p :: rest)).rest := by
  have happend := Word.read_append escape none (p :: rest)
  have hlt := Word.read_rest_length_lt escape p rest h
  cases hchars : (Word.read escape none (p :: rest)).chars with
  | nil =>
      rw [hchars, List.nil_append] at happend
      rw [happend] at hlt
      exact absurd hlt (Nat.lt_irrefl _)
  | cons q word =>
      rw [hchars] at happend
      obtain ⟨rfl, happend⟩ := List.cons.inj happend
      exact ⟨word, rfl, happend.symm⟩

/-- A word that nothing was changed in is a word again. -/
theorem Word.read_respaced {edited : Nat → Prop} {escape : Char} {p p' : Placed}
    {rest rest' : List Placed} (hb : isBlank p.char = false) (hp : p'.char = p.char)
    (h : Respaced (Respaced.Separating edited) p.stop rest rest')
    (hcut : ∀ offset, edited offset → p.stop ≤ offset →
      ∀ q ∈ (Word.read escape none (p :: rest)).chars, q.offset < offset) :
    Placed.text (Word.read escape none (p' :: rest')).chars =
        Placed.text (Word.read escape none (p :: rest)).chars ∧
      ∃ lo, Respaced (Respaced.Separating edited) lo (Word.read escape none (p :: rest)).rest
        (Word.read escape none (p' :: rest')).rest := by
  obtain ⟨chars, hchars, hrest⟩ := Word.exists_read_eq escape rest hb
  rw [hrest] at h
  obtain ⟨chars', tail, rfl, htext, lo, hnext⟩ := h.stretch fun offset ho hle q hq =>
    hcut offset ho hle q (by rw [hchars]; exact List.mem_cons_of_mem _ hq)
  have hword : Placed.text (p' :: chars') =
      Placed.text (Word.read escape none (p :: rest)).chars := by
    rw [hchars, Placed.text_cons, Placed.text_cons, hp, htext]
  have hread : (Word.read escape none (p' :: (chars' ++ tail))).chars = p' :: chars' ∧
      (Word.read escape none (p' :: (chars' ++ tail))).rest = tail := by
    refine @Word.read_congr escape none none (p :: rest) (p' :: chars') tail rfl hword ?_ ?_
    · rcases Word.read_rest escape none (p :: rest) with hnil | ⟨b, more, hcons, hblank⟩
      · rw [hnil] at hnext
        exact .inl hnext.eq_nil
      · rw [hcons] at hnext
        exact hnext.head_blank hblank
    · intro hnil
      rw [hnil] at hnext
      exact hnext.eq_nil
  rw [hread.1, hread.2]
  exact ⟨hword, lo, hnext⟩

/-- The arguments stay the same if blanks change only where no argument reaches across. -/
theorem splitFrom_respaced {edited : Nat → Prop} {lo : Nat} {escape : Char} {whole whole' : Excerpt}
    {index index' : Nat} {chars chars' : List Placed}
    (h : Respaced (Respaced.Separating edited) lo chars chars')
    (ordered : chars.Pairwise fun p q => p.stop ≤ q.offset)
    (hcut : ∀ arg ∈ splitFrom escape whole index chars, ∀ offset, edited offset →
      ¬ (arg.span.start < offset ∧ offset < arg.span.stop)) :
    (splitFrom escape whole' index' chars').map text =
      (splitFrom escape whole index chars).map text := by
  fun_induction splitFrom escape whole index chars generalizing lo index' chars' with
  | case1 =>
      rw [h.eq_nil, splitFrom]
  | case2 index p rest hb ih =>
      obtain ⟨blanks, tail, rfl, hblanks, hnext⟩ := h.uncons
      have ordered := (List.pairwise_cons.mp ordered).2
      rw [splitFrom_blanks hblanks]
      rcases hnext with ⟨p', tail', rfl, hp', hnext⟩ | ⟨-, lo', hnext⟩
      · rw [splitFrom, if_pos (by rw [hp']; exact hb)]
        exact ih hnext ordered hcut
      · exact ih hnext ordered hcut
  | case3 index p rest hb word =>
      rename_i stop ih
      have hb : isBlank p.char = false := by simpa using hb
      obtain ⟨blanks, tail, rfl, hblanks, hnext⟩ := h.uncons
      rcases hnext with ⟨p', tail', rfl, hp', hnext⟩ | ⟨hb', -⟩
      · have hparts : word.chars ++ word.rest = p :: rest := Word.read_append escape none (p :: rest)
        have hordered := ordered
        rw [← hparts, List.pairwise_append] at hordered
        -- No edit falls behind the first character of the word and in front of another one.
        have hinside : ∀ offset, edited offset → p.stop ≤ offset →
            ∀ q ∈ word.chars, q.offset < offset := by
          intro offset ho hfirst q hq
          obtain ⟨chars, hchars, -⟩ := Word.exists_read_eq escape rest hb
          have hstart : Placed.startOr (Placed.startOr whole.stop word.rest) word.chars = p.offset := by
            rw [show word.chars = p :: chars from hchars]
            rfl
          have hstop := Placed.stop_le_stopOr hordered.1 hq (Placed.startOr whole.stop word.rest)
          have harg : ¬ (Placed.startOr (Placed.startOr whole.stop word.rest) word.chars < offset ∧
              offset < max (Placed.stopOr (Placed.startOr whole.stop word.rest) word.chars) _) :=
            hcut _ List.mem_cons_self offset ho
          have := p.offset_lt_stop
          have := q.offset_lt_stop
          omega
        obtain ⟨htext, lo', hnext⟩ := Word.read_respaced hb hp' hnext hinside
        have hb' : isBlank p'.char = false := by rw [hp']; exact hb
        rw [splitFrom_blanks hblanks, splitFrom_word hb', List.map_cons]
        refine congr (congrArg List.cons htext) (ih hnext hordered.2.1 ?_)
        exact fun arg harg => hcut arg (List.mem_cons_of_mem _ harg)
      · rw [hb] at hb'
        cases hb'

end Argument

end Dockerfile
