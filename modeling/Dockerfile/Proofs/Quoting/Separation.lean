import Mathlib.Data.List.ModifyLast
import Dockerfile.Instruction
import Dockerfile.Proofs.Quoting.Reading
import Dockerfile.Proofs.Text.Trim

/-!
# Arguments are what separating blanks separate

A text is split at the blanks that are neither quoted nor escaped. `Quoting.Run` is a longest stretch
without such a blank, said without reading words; the arguments are exactly these stretches, in
order, and only the last one can leave a quote open (`Argument.split_tokenizes`).

Nothing is quoted or escaped where an argument starts, so the text from there on is split into that
argument and those behind it. This is how the region behind the flags of an instruction is read
again (`Instruction.arguments_restart`).
-/

namespace Dockerfile

theorem length_modifyLast {α : Type} (f : α → α) (xs : List α) :
    (xs.modifyLast f).length = xs.length := by
  rcases List.eq_nil_or_concat' xs with rfl | ⟨front, last, rfl⟩
  · rfl
  · rw [List.modifyLast_concat, List.length_append, List.length_append]
    rfl

namespace Quoting

def EndsSeparated (escape : Char) (front : List Placed) : Prop :=
  ∃ a p, front = a ++ [p] ∧ (bare.after quoteMarks escape a).Separates p

/-- Behind `front` and in front of `rest`, `word` is a longest stretch in which nothing separates. -/
structure Run (escape : Char) (front word rest : List Placed) : Prop where
  nonempty : word ≠ []
  unbroken : Unbroken escape (bare.after quoteMarks escape front) word
  left : front = [] ∨ EndsSeparated escape front
  right : rest = [] ∨ ∃ p tail, rest = p :: tail ∧
    (bare.after quoteMarks escape (front ++ word)).Separates p

namespace Run

variable {escape : Char} {front front' word word' rest rest' : List Placed}

/-- Of two stretches that start at one place, neither ends first. -/
theorem word_eq_of_le (h : Run escape front word rest) (h' : Run escape front word' rest')
    (hchars : word ++ rest = word' ++ rest') (hle : word.length ≤ word'.length) : word = word' := by
  obtain ⟨more, rfl⟩ : word <+: word' :=
    List.prefix_of_prefix_length_le (List.prefix_append word rest)
      (hchars ▸ List.prefix_append word' rest') hle
  rw [List.append_assoc, List.append_cancel_left_eq] at hchars
  cases more with
  | nil => rw [List.append_nil]
  | cons p more =>
      exfalso
      rcases h.right with rfl | ⟨q, tail, rfl, hsep⟩
      · cases hchars
      · obtain ⟨rfl, -⟩ := List.cons.inj hchars
        rw [after_append] at hsep
        exact h'.unbroken word q more rfl hsep

theorem front_eq_of_inside (h : Run escape front word rest) (h' : Run escape front' word' rest')
    (hchars : front ++ (word ++ rest) = front' ++ (word' ++ rest')) (hle : front.length ≤ front'.length)
    (hlt : front'.length < front.length + word.length) : front = front' := by
  obtain ⟨more, rfl⟩ : front <+: front' :=
    List.prefix_of_prefix_length_le (List.prefix_append front _)
      (hchars ▸ List.prefix_append front' _) hle
  rw [List.append_assoc, List.append_cancel_left_eq] at hchars
  rcases List.eq_nil_or_concat' more with rfl | ⟨more, p, rfl⟩
  · rw [List.append_nil]
  · exfalso
    obtain ⟨inside, rfl⟩ : more ++ [p] <+: word := by
      refine List.prefix_of_prefix_length_le (hchars ▸ List.prefix_append _ _)
        (List.prefix_append word rest) ?_
      rw [List.length_append] at hlt
      omega
    rcases h'.left with hnil | ⟨a, q, hsplit, hsep⟩
    · simp at hnil
    · rw [← List.append_assoc] at hsplit
      obtain ⟨rfl, hq⟩ := List.append_inj' hsplit rfl
      obtain rfl := List.singleton_inj.mp hq
      rw [after_append] at hsep
      exact h.unbroken more p inside (by simp) hsep

/-- Two stretches that share a character are one. -/
theorem eq_of_overlap (h : Run escape front word rest) (h' : Run escape front' word' rest')
    (hchars : front ++ (word ++ rest) = front' ++ (word' ++ rest')) (hle : front.length ≤ front'.length)
    (hlt : front'.length < front.length + word.length) : front = front' ∧ word = word' := by
  obtain rfl := front_eq_of_inside h h' hchars hle hlt
  rw [List.append_cancel_left_eq] at hchars
  rcases Nat.le_total word.length word'.length with hle | hle
  · exact ⟨rfl, h.word_eq_of_le h' hchars hle⟩
  · exact ⟨rfl, (h'.word_eq_of_le h hchars.symm hle).symm⟩

end Run

end Quoting

open Quoting

namespace Argument

variable {escape : Char} {region : Excerpt} {front chars : List Placed} {p : Placed}

/-- A place of a text where no argument has begun: nothing is quoted or escaped there, and what
stands next to it separates. -/
structure Gap (escape : Char) (region : Excerpt) (front chars : List Placed) : Prop where
  split : region.chars = front ++ chars
  bare : bare.after quoteMarks escape front = bare
  separated : front = [] ∨ EndsSeparated escape front ∨ ∀ p ∈ chars.head?, isBlank p.char = true

namespace Gap

theorem start (escape : Char) (region : Excerpt) : Gap escape region [] region.chars :=
  ⟨rfl, rfl, .inl rfl⟩

theorem blank (h : Gap escape region front (p :: chars)) (hescape : isBlank escape = false)
    (hp : isBlank p.char = true) : Gap escape region (front ++ [p]) chars := by
  have hsep : (Quoting.bare.after quoteMarks escape front).Separates p := ⟨hp, h.bare⟩
  refine ⟨by rw [h.split, List.append_assoc]; rfl, ?_, .inr (.inl ⟨front, p, rfl, hsep⟩)⟩
  rw [after_append, after_cons, after_nil, next_separator hsep hescape]

theorem reads (h : Gap escape region front chars) :
    Word.Reads escape (Quoting.bare.after quoteMarks escape front) (Word.read escape none chars) := by
  rw [h.bare]
  exact Word.reads_read escape rfl chars

/-- A word that begins in a gap is a longest stretch without a separating blank. -/
theorem run (h : Gap escape region front (p :: chars)) (hp : isBlank p.char = false) :
    Run escape front (Word.read escape none (p :: chars)).chars
      (Word.read escape none (p :: chars)).rest := by
  obtain ⟨word, hword, -⟩ := Word.exists_read_eq escape chars hp
  refine ⟨by rw [hword]; exact List.cons_ne_nil p word, h.reads.unbroken, ?_, ?_⟩
  · rcases h.separated with hnil | hsep | hblank
    · exact .inl hnil
    · exact .inr hsep
    · rw [hblank p rfl] at hp
      cases hp
  · rw [after_append]
    exact h.reads.rest

/-- Behind a word that the end of the text does not end is another gap. -/
theorem behind (h : Gap escape region front chars) (hne : (Word.read escape none chars).rest ≠ []) :
    Gap escape region (front ++ (Word.read escape none chars).chars)
      (Word.read escape none chars).rest := by
  have hsplit := Word.read_append escape none chars
  rcases h.reads.rest with hnil | ⟨q, rest, hrest, hsep⟩
  · exact absurd hnil hne
  · refine ⟨by rw [h.split, List.append_assoc, hsplit], ?_, .inr (.inr ?_)⟩
    · rw [after_append]
      exact hsep.2
    · rw [hrest]
      rintro r ⟨⟩
      exact hsep.1

end Gap

/-- How an excerpt is split into arguments. -/
structure Tokenizes (escape : Char) (region : Excerpt) (args : List Argument) : Prop where
  /-- Each argument is a longest stretch without a separating blank, and has its bytes, its
  characters and their places. -/
  sound : ∀ arg ∈ args, ∃ front word rest, region.chars = front ++ (word ++ rest) ∧
    Run escape front word rest ∧ arg.start = total Placed.size front ∧
    arg.stop = arg.start + total Placed.size word ∧ arg.content.chars = word ∧
    arg.content = region.slice arg.start arg.stop
  /-- Each such stretch is an argument. -/
  complete : ∀ front word rest, region.chars = front ++ (word ++ rest) →
    Run escape front word rest → ∃ arg ∈ args, arg.start = total Placed.size front ∧
      arg.stop = arg.start + total Placed.size word
  /-- They come in the order of the text. -/
  ordered : args.Pairwise fun a b => a.stop < b.start
  /-- Only the last one can leave a quote open. -/
  closed : ∀ arg ∈ args.dropLast, arg.openQuote = none
  /-- It does so if a quote is open at the end of the text, and tells which one, and where. -/
  openQuote : args.getLast?.bind Argument.openQuote =
    (bare.after quoteMarks escape region.chars).openQuote

namespace Gap

variable (hescape : isBlank escape = false)
include hescape

theorem sound (h : Gap escape region front chars) {arg : Argument}
    (harg : arg ∈ splitFrom escape region (total Placed.size front) chars) :
    ∃ front word rest, region.chars = front ++ (word ++ rest) ∧ Run escape front word rest ∧
      arg.start = total Placed.size front ∧ arg.stop = arg.start + total Placed.size word ∧
      arg.content.chars = word ∧ arg.content = region.slice arg.start arg.stop := by
  generalize hindex : total Placed.size front = index at harg
  fun_induction splitFrom escape region index chars generalizing front with
  | case1 => cases harg
  | case2 index p rest hb ih => exact ih (h.blank hescape hb) (by simp [hindex]) harg
  | case3 index p rest hb word =>
      rename_i stop ih
      have hb : isBlank p.char = false := by simpa using hb
      rcases List.mem_cons.mp harg with rfl | harg
      · have hsplit : region.chars = front ++ (word.chars ++ word.rest) := by
          rw [h.split, Word.read_append]
        refine ⟨front, word.chars, word.rest, hsplit, h.run hb, hindex.symm, rfl, rfl, ?_⟩
        have hslice := Excerpt.slice_eq_part hsplit
        rw [hindex] at hslice
        exact hslice.symm
      · have hne : word.rest ≠ [] := by
          intro hnil
          rw [hnil, splitFrom] at harg
          cases harg
        exact ih (h.behind hne) (by rw [total_append, hindex]) harg

/-- Each longest stretch behind a gap is an argument. -/
theorem complete (h : Gap escape region front chars) {front' word rest : List Placed}
    (hsplit : region.chars = front' ++ (word ++ rest)) (hrun : Run escape front' word rest)
    (hle : front.length ≤ front'.length) :
    ∃ arg ∈ splitFrom escape region (total Placed.size front) chars,
      arg.start = total Placed.size front' ∧ arg.stop = arg.start + total Placed.size word := by
  have hlength := List.length_pos_iff.mpr hrun.nonempty
  generalize hindex : total Placed.size front = index
  fun_induction splitFrom escape region index chars generalizing front with
  | case1 =>
      have hsize := congrArg List.length (h.split.symm.trans hsplit)
      simp only [List.length_append, List.append_nil] at hsize
      omega
  | case2 index p chars hb ih =>
      by_cases hstart : front.length = front'.length
      · -- The stretch would start with the blank.
        obtain ⟨rfl, hword⟩ := List.append_inj (h.split.symm.trans hsplit) hstart
        obtain ⟨q, word, rfl⟩ := List.exists_cons_of_ne_nil hrun.nonempty
        obtain ⟨rfl, -⟩ := List.cons.inj hword
        exact absurd ⟨hb, h.bare⟩ (hrun.unbroken [] p word rfl)
      · refine ih (h.blank hescape hb) ?_ (by simp [hindex])
        rw [List.length_append, List.length_singleton]
        omega
  | case3 index p chars hb word' =>
      rename_i stop ih
      have hb : isBlank p.char = false := by simpa using hb
      have hword : word'.chars ++ word'.rest = p :: chars := Word.read_append escape none _
      by_cases hlt : front'.length < front.length + word'.chars.length
      · obtain ⟨rfl, rfl⟩ := (h.run hb).eq_of_overlap hrun
          (by rw [← hsplit, h.split, Word.read_append]) hle hlt
        exact ⟨_, List.mem_cons_self, hindex.symm, rfl⟩
      · have hne : word'.rest ≠ [] := by
          intro hnil
          have hsize := congrArg List.length (h.split.symm.trans hsplit)
          rw [← hword, hnil] at hsize
          simp only [List.length_append, List.append_nil] at hsize
          omega
        have hbehind : (front ++ word'.chars).length ≤ front'.length := by
          rw [List.length_append]
          omega
        obtain ⟨arg, harg, hplace⟩ := ih (h.behind hne) hbehind (by rw [total_append, hindex])
        exact ⟨arg, List.mem_cons_of_mem _ harg, hplace⟩

/-- The quote that the last argument behind a gap leaves open is the one open at the end. -/
theorem openQuote (h : Gap escape region front chars) (index : Nat) :
    (splitFrom escape region index chars).getLast?.bind Argument.openQuote =
      (Quoting.bare.after quoteMarks escape region.chars).openQuote := by
  fun_induction splitFrom escape region index chars generalizing front with
  | case1 =>
      rw [h.split, List.append_nil, h.bare]
      rfl
  | case2 index p chars hb ih => exact ih (h.blank hescape hb)
  | case3 index p chars hb word =>
      rename_i stop ih
      have hreads : Word.Reads escape (Quoting.bare.after quoteMarks escape front) word := h.reads
      have hword : word.chars ++ word.rest = p :: chars := Word.read_append escape none _
      rw [List.getLast?_cons]
      by_cases hne : word.rest = []
      · rw [hne, splitFrom]
        refine hreads.openQuote.trans ?_
        rw [h.split, ← hword, hne, List.append_nil, after_append]
      · have hlast := ih (h.behind hne)
        cases hmore : (splitFrom escape region stop word.rest).getLast? with
        | none =>
            rw [hmore] at hlast
            exact (hreads.openQuote_eq_none hne).trans hlast
        | some last =>
            rw [hmore] at hlast
            exact hlast

end Gap

theorem le_start_of_splitFrom {index : Nat} {arg : Argument}
    (h : arg ∈ splitFrom escape region index chars) : index ≤ arg.start := by
  fun_induction splitFrom escape region index chars with
  | case1 => cases h
  | case2 index p chars hb ih => exact Nat.le_trans (Nat.le_add_right _ _) (ih h)
  | case3 index p chars hb word =>
      rename_i stop ih
      rcases List.mem_cons.mp h with rfl | h
      · exact Nat.le_refl _
      · exact Nat.le_trans (Nat.le_add_right _ _) (ih h)

/-- Arguments come one behind the other, with something between them. -/
theorem splitFrom_ordered (escape : Char) (region : Excerpt) (index : Nat) (chars : List Placed) :
    (splitFrom escape region index chars).Pairwise fun a b => a.stop < b.start := by
  fun_induction splitFrom escape region index chars with
  | case1 => exact .nil
  | case2 index p chars hb ih => exact ih
  | case3 index p chars hb word =>
      rename_i stop ih
      refine List.pairwise_cons.mpr ⟨fun arg harg => ?_, ih⟩
      rcases Word.read_rest escape none (p :: chars) with hnil | ⟨q, tail, hrest, hblank⟩
      · rw [show word.rest = [] from hnil, splitFrom] at harg
        cases harg
      · rw [show word.rest = q :: tail from hrest, splitFrom, if_pos hblank] at harg
        have := le_start_of_splitFrom harg
        have := q.size_pos
        show stop < arg.start
        omega

theorem splitFrom_closed (escape : Char) (region : Excerpt) (index : Nat) (chars : List Placed) :
    ∀ arg ∈ (splitFrom escape region index chars).dropLast, arg.openQuote = none := by
  fun_induction splitFrom escape region index chars with
  | case1 => simp
  | case2 index p chars hb ih => exact ih
  | case3 index p chars hb word =>
      rename_i stop ih
      by_cases hne : splitFrom escape region stop word.rest = []
      · rw [hne]
        simp
      · rw [List.dropLast_cons_of_ne_nil hne]
        rintro arg (_ | ⟨_, harg⟩)
        · refine (Word.reads_read escape (s := bare) rfl (p :: chars)).openQuote_eq_none ?_
          intro hnil
          rw [show word.rest = [] from hnil, splitFrom] at hne
          exact hne rfl
        · exact ih arg harg

/-- Splitting an excerpt gives its longest stretches without a separating blank, and tells of a quote
that is open at its end. -/
theorem split_tokenizes (escape : Char) (hescape : isBlank escape = false) (region : Excerpt) :
    Tokenizes escape region (split escape region) := by
  have hgap := Gap.start escape region
  exact ⟨fun arg harg => hgap.sound hescape harg,
    fun front word rest hsplit hrun => hgap.complete hescape hsplit hrun (Nat.zero_le _),
    splitFrom_ordered escape region 0 region.chars,
    splitFrom_closed escape region 0 region.chars, hgap.openQuote hescape 0⟩

/-- An escaped blank and a quoted one separate nothing, and the last quote is open. -/
theorem split_tokenizes_quoted :
    let region := Excerpt.ofText 3 " a\\ b \"c d\" 'e f".toList
    isBlank '\\' = false ∧ Tokenizes '\\' region (split '\\' region) ∧
      (split '\\' region).map (fun arg => (arg.text, arg.openQuote)) =
        [("a\\ b".toList, none), ("\"c d\"".toList, none), ("'e f".toList, some ⟨'\x27', 15⟩)] :=
  ⟨by decide, split_tokenizes '\\' (by decide) _, by decide +kernel⟩

/-! ## The text from an argument on -/

/-- Of two words that are read behind the same, the one that has more characters behind it goes on
into these only if the other one is ended by the end of the text. -/
theorem Word.Reads.exists_append {s : Quoting} {word word' : Word} {more : List Placed}
    (h : Reads escape s word) (h' : Reads escape s word')
    (hchars : word'.chars ++ word'.rest = word.chars ++ (word.rest ++ more)) :
    ∃ taken left, more = taken ++ left ∧ word'.chars = word.chars ++ taken ∧
      word'.rest = word.rest ++ left ∧ (word.rest ≠ [] → taken = []) := by
  rcases List.append_eq_append_iff.mp hchars with ⟨c, hword, hrest⟩ | ⟨c, hword, hrest⟩
  · cases c with
    | nil => exact ⟨[], more, rfl, by simpa using hword.symm, by simpa using hrest, fun _ => rfl⟩
    | cons p c =>
        -- The second word would end where nothing separates in the first.
        exfalso
        rcases h'.rest with hnil | ⟨q, tail, hcons, hsep⟩
        · rw [hnil] at hrest
          cases hrest
        · obtain ⟨rfl, -⟩ := List.cons.inj (hcons.symm.trans hrest)
          exact h.unbroken _ q c hword hsep
  · cases c with
    | nil => exact ⟨[], more, rfl, hword, hrest.symm, fun _ => rfl⟩
    | cons p c =>
        have hend : word.rest = [] := by
          rcases h.rest with hnil | ⟨q, tail, hcons, hsep⟩
          · exact hnil
          · rw [hcons] at hrest
            obtain ⟨rfl, -⟩ := List.cons.inj hrest
            exact absurd hsep (h'.unbroken _ q c hword)
        rw [hend, List.nil_append] at hrest
        exact ⟨p :: c, word'.rest, hrest, hword, by rw [hend, List.nil_append],
          fun hne => absurd hend hne⟩

theorem Word.exists_read_append (escape : Char) (chars more : List Placed) :
    ∃ taken left, more = taken ++ left ∧
      (Word.read escape none (chars ++ more)).chars = (Word.read escape none chars).chars ++ taken ∧
      (Word.read escape none (chars ++ more)).rest = (Word.read escape none chars).rest ++ left ∧
      ((Word.read escape none chars).rest ≠ [] → taken = []) := by
  refine (Word.reads_read escape (s := bare) rfl chars).exists_append
    (Word.reads_read escape (s := bare) rfl (chars ++ more)) ?_
  rw [← List.append_assoc]
  exact (Word.read_append escape none _).trans
    (congrArg (· ++ more) (Word.read_append escape none chars).symm)

/-- The argument, with its bytes counted from `n` bytes further in front. -/
def behind (n : Nat) (arg : Argument) : Argument :=
  { arg with start := arg.start + n, stop := arg.stop + n }

/-- Of the text around them, arguments depend on its end only. -/
theorem splitFrom_behind {whole whole' : Excerpt} (h : whole'.stop = whole.stop) (n index : Nat)
    (chars : List Placed) :
    splitFrom escape whole' (index + n) chars = (splitFrom escape whole index chars).map (behind n) := by
  fun_induction splitFrom escape whole index chars with
  | case1 => rw [splitFrom, List.map_nil]
  | case2 index p rest hb ih => rw [splitFrom, if_pos hb, ← ih, Nat.add_right_comm]
  | case3 index p rest hb word =>
      rename_i stop ih
      have hstop : index + n + total Placed.size word.chars = stop + n := Nat.add_right_comm _ _ _
      rw [splitFrom, if_neg hb, List.map_cons, ← ih, ← hstop]
      simp only [behind, Excerpt.part, h, word, stop, Nat.add_right_comm index n]

theorem exists_split_of_getElem? {whole : Excerpt} {index k : Nat} {arg : Argument}
    (h : (splitFrom escape whole index chars)[k]? = some arg) :
    ∃ front rest, chars = front ++ rest ∧ arg.start = index + total Placed.size front ∧
      splitFrom escape whole arg.start rest = (splitFrom escape whole index chars).drop k := by
  fun_induction splitFrom escape whole index chars generalizing k with
  | case1 => simp at h
  | case2 index p rest hb ih =>
      obtain ⟨front, behind, hrest, hstart, hsplit⟩ := ih h
      refine ⟨p :: front, behind, by rw [hrest]; rfl, ?_, hsplit⟩
      rw [hstart, total_cons, Nat.add_assoc]
  | case3 index p rest hb word =>
      rename_i stop ih
      cases k with
      | zero =>
          obtain rfl := Option.some.inj h
          refine ⟨[], p :: rest, rfl, rfl, ?_⟩
          rw [splitFrom, if_neg hb]
          rfl
      | succ k =>
          obtain ⟨front, behind, hrest, hstart, hsplit⟩ := ih h
          refine ⟨word.chars ++ front, behind, ?_, ?_, hsplit⟩
          · rw [List.append_assoc, ← hrest, Word.read_append]
          · rw [hstart, total_append, Nat.add_assoc]

theorem split_slice {k : Nat} {arg : Argument} (h : (split escape region)[k]? = some arg) :
    (split escape (region.slice arg.start region.byteLength)).map (behind arg.start) =
      (split escape region).drop k := by
  obtain ⟨front, rest, hchars, hstart, hsplit⟩ := exists_split_of_getElem? h
  rw [Nat.zero_add] at hstart
  have hslice : region.slice arg.start region.byteLength = region.part rest [] := by
    have hlength : region.byteLength = total Placed.size front + total Placed.size rest := by
      rw [Excerpt.byteLength, hchars, total_append]
    rw [hstart, hlength]
    exact Excerpt.slice_eq_part (by rw [hchars, List.append_nil])
  have hstop : region.stop = (region.part rest []).stop := by
    cases hrest : rest.getLast? with
    | none => simp [Excerpt.stop, Excerpt.part, Placed.stopOr, hrest]
    | some p => simp [Excerpt.stop, Excerpt.part, Placed.stopOr, hchars, hrest]
  rw [split, hslice, ← splitFrom_behind hstop, Nat.zero_add]
  exact hsplit

/-! ## Trimmed excerpts -/

theorem splitFrom_ne_nil {whole : Excerpt} {index : Nat} (hp : p ∈ chars)
    (hblank : isBlank p.char = false) : splitFrom escape whole index chars ≠ [] := by
  fun_induction splitFrom escape whole index chars with
  | case1 => cases hp
  | case2 index q rest hb ih =>
      rcases List.mem_cons.mp hp with rfl | hp
      · rw [hb] at hblank
        cases hblank
      · exact ih hp
  | case3 => exact List.cons_ne_nil _ _

/-- Blanks at the end are part of the last argument or of none. -/
theorem splitFrom_trimmed {whole whole' : Excerpt} {index index' : Nat} {kept tail : List Placed}
    (hlast : ∀ p ∈ kept.getLast?, isBlank p.char = false) (htail : ∀ p ∈ tail, isBlank p.char = true) :
    (splitFrom escape whole index kept).map text =
      ((splitFrom escape whole' index' (kept ++ tail)).map text).modifyLast Text.trimBlanksEnd := by
  fun_induction splitFrom escape whole index kept generalizing index' with
  | case1 =>
      rw [List.nil_append, ← List.append_nil tail, splitFrom_blanks htail, splitFrom]
      rfl
  | case2 index p rest hb ih =>
      have hne : rest ≠ [] := by
        rintro rfl
        rw [hlast p rfl] at hb
        cases hb
      rw [List.cons_append, splitFrom, if_pos hb]
      exact ih fun q hq => hlast q (by rwa [List.getLast?_cons_of_ne_nil hne])
  | case3 index p rest hb word =>
      rename_i stop ih
      obtain ⟨taken, left, rfl, hchars, hrest, htaken⟩ :=
        Word.exists_read_append escape (p :: rest) tail
      have happend : word.chars ++ word.rest = p :: rest := Word.read_append escape none (p :: rest)
      rw [List.cons_append, splitFrom_word (by simpa using hb), ← List.cons_append, hchars, hrest,
        List.map_cons]
      by_cases hend : word.rest = []
      · -- The word goes on into the blanks, or they separate.
        have hword : word.chars = p :: rest := by rw [← happend, hend, List.append_nil]
        have htrim : Text.trimBlanksEnd (Placed.text (word.chars ++ taken)) = Placed.text word.chars := by
          rw [hword, Text.trimBlanksEnd_text_append hlast fun q hq => htail q (by simp [hq])]
        have hleft (n : Nat) : splitFrom escape whole' n left = [] := by
          rw [← List.append_nil left, splitFrom_blanks fun q hq => htail q (by simp [hq]), splitFrom]
        rw [show (Word.read escape none (p :: rest)).rest = [] from hend, List.nil_append, hleft,
          splitFrom]
        exact congrArg (fun x => [x]) htrim.symm
      · obtain rfl := htaken hend
        have hlast : ∀ q ∈ word.rest.getLast?, isBlank q.char = false := fun q hq =>
          hlast q (by rw [← happend, List.getLast?_append, hq]; rfl)
        have hmore (n : Nat) : (splitFrom escape whole' n (word.rest ++ left)).map text ≠ [] := by
          rw [ne_eq, List.map_eq_nil_iff]
          exact splitFrom_ne_nil (List.mem_append_left _ (List.getLast_mem hend))
            (hlast _ (List.getLast?_eq_some_getLast hend))
        rw [ih hlast, List.append_nil]
        exact (List.modifyLast_append_of_right_ne_nil _ [_] _ (hmore _)).symm

/-- Trimming an excerpt takes blanks away from the last argument only. -/
theorem split_trim (escape : Char) (region : Excerpt) :
    (split escape region.trim).map text =
      ((split escape region).map text).modifyLast Text.trimBlanksEnd := by
  obtain ⟨lead, kept, tail, hchars, hbounds, hdrop, hkept, htail⟩ := region.exists_trimmedBounds
  have htrim : region.trim.chars = kept := by rw [Excerpt.chars_trim, hdrop, ← hkept]
  rw [split, split, splitFrom_dropBlanks escape region, hdrop, htrim]
  refine splitFrom_trimmed (fun p hp => ?_) htail
  have hne : (kept ++ tail).rdropWhile (fun p => isBlank p.char) ≠ [] := by
    rw [← hkept]
    rintro rfl
    cases hp
  have hlast := List.rdropWhile_last_not _ _ hne
  rw [hkept, List.getLast?_eq_some_getLast hne] at hp
  rw [Option.some.inj hp] at hlast
  simpa using hlast

end Argument

namespace Instruction

theorem exists_positional_eq (inst : Instruction) : ∃ k, inst.positional = inst.arguments.drop k := by
  unfold positional
  split
  · exact ⟨_, List.dropWhile_eq_drop_findIdx_not⟩
  · exact ⟨0, rfl⟩

/-- The region behind the flags is split into the arguments that are not flags, without the blanks at
the end. -/
theorem split_positionalRegion (inst : Instruction) :
    (Argument.split inst.escape inst.positionalRegion).map Argument.text =
      (inst.positional.map Argument.text).modifyLast Text.trimBlanksEnd := by
  obtain ⟨k, hpositional⟩ := inst.exists_positional_eq
  rw [positionalRegion, Argument.split_trim]
  congr 1
  cases hfirst : inst.positional.head? with
  | none =>
      have hslice : inst.region.slice inst.region.byteLength inst.region.byteLength =
          inst.region.part [] [] :=
        Excerpt.slice_eq_part (b := []) (c := []) (List.append_nil _).symm
      rw [List.head?_eq_none_iff.mp hfirst, hslice, Argument.split]
      simp only [Excerpt.part, Argument.splitFrom, List.map_nil]
  | some arg =>
      rw [hpositional, List.head?_drop] at hfirst
      rw [hpositional, arguments, ← Argument.split_slice hfirst, List.map_map]
      rfl

/-- From the start of an argument on, an excerpt is split into that argument and those behind it: they
have the same texts, places and open quotes. So the region behind the flags of an instruction is split
into as many arguments as are not flags, with the same texts, the last one without blanks at its
end. -/
theorem arguments_restart :
    (∀ (escape : Char) (region : Excerpt) (k : Nat) (arg : Argument),
      (Argument.split escape region)[k]? = some arg →
      (Argument.split escape (region.slice arg.start region.byteLength)).map
          (fun a => (a.text, a.span, a.openQuote)) =
        ((Argument.split escape region).drop k).map fun a => (a.text, a.span, a.openQuote)) ∧
    ∀ inst : Instruction,
      (Argument.split inst.escape inst.positionalRegion).length = inst.positional.length ∧
      (Argument.split inst.escape inst.positionalRegion).map Argument.text =
        (inst.positional.map Argument.text).modifyLast Text.trimBlanksEnd := by
  refine ⟨fun escape region k arg h => ?_, fun inst => ⟨?_, inst.split_positionalRegion⟩⟩
  · rw [← Argument.split_slice h, List.map_map]
    rfl
  · have hlength := congrArg List.length inst.split_positionalRegion
    simpa only [length_modifyLast, List.length_map] using hlength

/-- Behind a flag, a quoted argument and one that ends with an escaped blank. -/
theorem arguments_restart_copy :
    let inst : Instruction := ⟨Excerpt.ofText 0 "COPY".toList,
      Excerpt.ofText 4 " --from=a \"b c\" d\\ ".toList, [], '\\'⟩
    let quoted : Argument := ⟨⟨Text.place 14 "\"b c\"".toList, 19⟩, 10, 15, none⟩
    (Argument.split inst.escape inst.region)[1]? = some quoted ∧
      (Argument.split inst.escape (inst.region.slice 10 inst.region.byteLength)).map
          (fun a => (a.text, a.span, a.openQuote)) =
        [("\"b c\"".toList, ⟨14, 19⟩, none), ("d\\ ".toList, ⟨20, 23⟩, none)] ∧
      inst.bearsFlags = true ∧
      (Argument.split inst.escape inst.positionalRegion).map Argument.text =
        ["\"b c\"".toList, "d\\".toList] := by
  intro inst quoted
  have hquoted : (Argument.split inst.escape inst.region)[1]? = some quoted := by decide +kernel
  have hslice := arguments_restart.1 inst.escape inst.region 1 quoted hquoted
  have htexts := (arguments_restart.2 inst).2
  exact ⟨hquoted, hslice.trans (by decide +kernel), by decide, htexts.trans (by decide +kernel)⟩

end Instruction

end Dockerfile
