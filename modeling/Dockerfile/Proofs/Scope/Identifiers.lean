import Dockerfile.Proofs.Argument
import Dockerfile.Proofs.Body.Respelled
import Dockerfile.Substitution

/-!
# Other names for variables

The characters of a variable's name mean nothing to the readers of a region: they separate no
arguments, open no quotes and start no substitutions. So arguments and substitutions stay what they
are if variables get other names (`Argument.splitFrom_respelled`, `Substitution.scanFrom_respelled`).
-/

namespace Dockerfile

namespace Substitution

theorem ne_of_isNameChar {c d : Char} (hc : isNameChar c = true) (hd : isNameChar d = false) :
    c ≠ d := by
  rintro rfl
  rw [hc] at hd
  cases hd

theorem bne_of_isNameChar {c d : Char} (hd : isNameChar d = false) (hc : isNameChar c = true) :
    (c != d) = true := by
  simpa using ne_of_isNameChar hc hd

theorem isBlank_of_isNameChar {c : Char} (hc : isNameChar c = true) : isBlank c = false := by
  have hspace := ne_of_isNameChar hc (d := ' ') rfl
  have htab := ne_of_isNameChar hc (d := '\t') rfl
  simp [isBlank, hspace, htab]

theorem endsWord_of_isNameChar {c : Char} (hc : isNameChar c = true) : Body.endsWord c = false := by
  have hr := ne_of_isNameChar hc (d := '\r') rfl
  have hn := ne_of_isNameChar hc (d := '\n') rfl
  simp [Body.endsWord, isBlank_of_isNameChar hc, isLineBreak, hr, hn]

theorem isNameChar_of_isNameStart {c : Char} (hc : isNameStart c = true) : isNameChar c = true := by
  simp only [isNameStart, isNameChar, Bool.or_eq_true, Char.isAlphanum] at hc ⊢
  rcases hc with hc | hc
  · exact .inl (.inl hc)
  · exact .inr hc

theorem isNameChar_of_isName {text : Text} (h : isName text = true) :
    ∀ c ∈ text, isNameChar c = true := by
  cases text with
  | nil => simp
  | cons c text =>
      simp only [isName, Bool.and_eq_true, List.all_eq_true] at h
      exact List.forall_mem_cons.mpr ⟨isNameChar_of_isNameStart h.1, h.2⟩

end Substitution

structure Identifiers (names : List (List Placed)) (new : Text) : Prop where
  old : ∀ name ∈ names, Substitution.isName (Placed.text name) = true
  new : Substitution.isName new = true

namespace Identifiers

variable {names : List (List Placed)} {new : Text}

theorem old_char (h : Identifiers names new) {name : List Placed} (hname : name ∈ names) :
    ∀ p ∈ name, Substitution.isNameChar p.char = true := by
  intro p hp
  exact Substitution.isNameChar_of_isName (h.old name hname) p.char (List.mem_map_of_mem hp)

theorem new_char (h : Identifiers names new) {fresh : List Placed} (hfresh : Placed.text fresh = new) :
    ∀ p ∈ fresh, Substitution.isNameChar p.char = true := by
  intro p hp
  refine Substitution.isNameChar_of_isName h.new p.char ?_
  rw [← hfresh]
  exact List.mem_map_of_mem hp

theorem isNameStart_of_begins (h : Identifiers names new) {p : Placed} (hp : Begins names p) :
    Substitution.isNameStart p.char = true := by
  obtain ⟨name, hname, hhead⟩ := hp
  obtain ⟨tail, rfl⟩ := List.head?_eq_some_iff.mp hhead
  have hold := h.old _ hname
  rw [Placed.text_cons, Substitution.isName, Bool.and_eq_true] at hold
  exact hold.1

theorem isNameStart_new (h : Identifiers names new) :
    ∀ c ∈ new.head?, Substitution.isNameStart c = true := by
  have hnew := h.new
  intro c hc
  obtain ⟨tail, rfl⟩ := List.head?_eq_some_iff.mp hc
  rw [Substitution.isName, Bool.and_eq_true] at hnew
  exact hnew.1

theorem spellable (h : Identifiers names new) {escape : Char}
    (he : Substitution.isNameChar escape = false) : Spellable escape names new where
  nonempty := by
    rintro rfl
    cases h.new
  content := by
    intro c hc
    have hchar := Substitution.isNameChar_of_isName h.new c hc
    exact ⟨Substitution.endsWord_of_isNameChar hchar, Substitution.ne_of_isNameChar hchar he⟩
  unmarked := by
    intro c hc
    have hchar := Substitution.isNameChar_of_isName h.new c (List.mem_of_head? hc)
    exact Substitution.ne_of_isNameChar hchar rfl
  heads := by
    intro p hp
    exact Substitution.endsWord_of_isNameChar
      (Substitution.isNameChar_of_isNameStart (h.isNameStart_of_begins hp))

end Identifiers

/-! ## Parts of a region -/

namespace Respelled

variable {escape : Char} {names : List (List Placed)} {new : Text} {chars out : List Placed}

/-- A stretch that no character of a name ends is a stretch of the same kind. -/
theorem span {f : Char → Bool} (hi : Identifiers names new)
    (hf : ∀ c, Substitution.isNameChar c = true → f c = true)
    (h : Respelled InOnePiece names new chars out) :
    Respelled InOnePiece names new (chars.takeWhile fun p => f p.char)
        (out.takeWhile fun p => f p.char) ∧
      Respelled InOnePiece names new (chars.dropWhile fun p => f p.char)
        (out.dropWhile fun p => f p.char) := by
  induction h with
  | nil => exact ⟨.nil, .nil⟩
  | @keep p p' chars chars' kept same next ih =>
      simp only [List.takeWhile_cons, List.dropWhile_cons, same]
      cases hp : f p.char with
      | false => exact ⟨.nil, .keep kept same next⟩
      | true => exact ⟨.keep kept same ih.1, ih.2⟩
  | @name p chars name rest fresh rest' mem spelled written next ih =>
      have hold : ∀ q ∈ p :: name, f q.char = true := fun q hq => hf _ (hi.old_char mem q hq)
      have hnew : ∀ q ∈ fresh, f q.char = true := fun q hq => hf _ (hi.new_char written q hq)
      rw [show p :: chars = (p :: name) ++ rest from spelled, List.takeWhile_append_of_pos hold,
        List.dropWhile_append_of_pos hold, List.takeWhile_append_of_pos hnew,
        List.dropWhile_append_of_pos hnew]
      exact ⟨.name mem rfl written ih.1, ih.2⟩

/-- A name begins where a name can begin, before and after. -/
theorem exists_cons (hi : Identifiers names new) {p : Placed}
    (h : Respelled InOnePiece names new (p :: chars) out) :
    ∃ p' out', out = p' :: out' ∧
      Substitution.isNameStart p'.char = Substitution.isNameStart p.char ∧
      (Substitution.isNameStart p.char = false →
        p'.char = p.char ∧ Respelled InOnePiece names new chars out') := by
  by_cases hp : Begins names p
  · have hs : Spellable '\\' names new := hi.spellable rfl
    obtain ⟨q, out', rfl, hq⟩ := h.exists_head hs hp
    have hstart := hi.isNameStart_of_begins hp
    refine ⟨q, out', rfl, by rw [hstart, hi.isNameStart_new _ hq], ?_⟩
    intro hnot
    rw [hstart] at hnot
    cases hnot
  · obtain ⟨p', out', rfl, hp', hnext⟩ := h.uncons hp
    exact ⟨p', out', rfl, by rw [hp'], fun _ => ⟨hp', hnext⟩⟩

theorem tail {spells : List Placed → List Placed → List Placed → Prop}
    (h : Respelled spells names new chars out) (hhead : ∀ p ∈ chars.head?, ¬ Begins names p) :
    Respelled spells names new chars.tail out.tail := by
  cases chars with
  | nil =>
      rw [h.eq_nil]
      exact .nil
  | cons p chars =>
      obtain ⟨p', out', rfl, -, hnext⟩ := h.uncons (hhead p rfl)
      exact hnext

end Respelled

/-! ## Arguments -/

namespace Argument

variable {escape : Char} {names : List (List Placed)} {new : Text} {chars out : List Placed}

namespace Word

def isPlain (escape c : Char) : Bool :=
  !isBlank c && c != '"' && c != '\x27' && c != escape

theorem read_of_plain {a rest : List Placed} (ha : ∀ p ∈ a, isPlain escape p.char = true) :
    read escape none (a ++ rest) = (read escape none rest).prepend a := by
  induction a with
  | nil => rfl
  | cons p a ih =>
      have hp := ha p List.mem_cons_self
      simp only [isPlain, Bool.and_eq_true, Bool.not_eq_true', bne_iff_ne] at hp
      obtain ⟨⟨⟨hblank, hdouble⟩, hsingle⟩, hescape⟩ := hp
      rw [List.cons_append, read.eq_def]
      simp only [hblank, hdouble, hsingle, hescape, or_self, Bool.false_eq_true, if_false,
        ih fun q hq => ha q (List.mem_cons_of_mem _ hq)]
      rfl

theorem isPlain_of_isNameChar (he : Substitution.isNameChar escape = false) {c : Char}
    (hc : Substitution.isNameChar c = true) : isPlain escape c = true := by
  rw [isPlain, Substitution.isBlank_of_isNameChar hc, Substitution.bne_of_isNameChar rfl hc,
    Substitution.bne_of_isNameChar rfl hc, Substitution.bne_of_isNameChar he hc]
  rfl

theorem read_plain (he : Substitution.isNameChar escape = false) {quote : Option OpenQuote}
    (hquote : ∀ o ∈ quote, Substitution.isNameChar o.quote = false) {a rest : List Placed}
    (ha : ∀ p ∈ a, Substitution.isNameChar p.char = true) :
    read escape quote (a ++ rest) = (read escape quote rest).prepend a := by
  cases quote with
  | none => exact read_of_plain fun p hp => isPlain_of_isNameChar he (ha p hp)
  | some opened =>
      induction a with
      | nil => rfl
      | cons p a ih =>
          have hp := ha p List.mem_cons_self
          have hescape := Substitution.ne_of_isNameChar hp he
          have hclose := Substitution.ne_of_isNameChar hp (hquote opened rfl)
          rw [List.cons_append, read.eq_def]
          simp only [hclose, hescape, and_false, if_false,
            ih fun q hq => ha q (List.mem_cons_of_mem _ hq)]
          rfl

structure Respelled (names : List (List Placed)) (new : Text) (word word' : Word) : Prop where
  chars : Dockerfile.Respelled InOnePiece names new word.chars word'.chars
  rest : Dockerfile.Respelled InOnePiece names new word.rest word'.rest

namespace Respelled

variable {word word' : Word}

theorem keep (h : word.Respelled names new word') {p p' : Placed} (hp : ¬ Begins names p)
    (same : p'.char = p.char) : (word.prepend [p]).Respelled names new (word'.prepend [p']) :=
  ⟨.keep hp same h.chars, h.rest⟩

theorem name (h : word.Respelled names new word') {p : Placed} {name fresh : List Placed}
    (mem : p :: name ∈ names) (written : Placed.text fresh = new) :
    (word.prepend (p :: name)).Respelled names new (word'.prepend fresh) :=
  ⟨.name mem rfl written h.chars, h.rest⟩

end Respelled

/-- What is read behind the escape character: the next character, whatever it is, and the rest of
the word. -/
def readEscaped (escape : Char) (quote : Option OpenQuote) : List Placed → Word
  | [] => ⟨[], [], quote⟩
  | q :: rest => (read escape quote rest).prepend [q]

theorem read_of_escape {quote : Option OpenQuote} {p : Placed} {rest : List Placed}
    (hescape : p.char = escape)
    (hquote : quote = none ∧ isBlank p.char = false ∧ ¬ (p.char = '"' ∨ p.char = '\x27') ∨
      ∃ o, quote = some o ∧ p.char ≠ o.quote ∧ o.quote = '"') :
    read escape quote (p :: rest) = (readEscaped escape quote rest).prepend [p] := by
  rw [read.eq_def]
  rcases hquote with ⟨rfl, hblank, hmark⟩ | ⟨o, rfl, hclose, hdouble⟩
  · simp only [hblank, hmark, Bool.false_eq_true, if_false, if_pos hescape]
    cases rest <;> rfl
  · simp only [if_neg hclose, if_pos (And.intro hdouble hescape)]
    cases rest <;> rfl

/-- Behind the escape character a name loses its first character to it, and is plain anyway. -/
theorem readEscaped_respelled (he : Substitution.isNameChar escape = false)
    (hi : Identifiers names new) {quote quote' : Option OpenQuote}
    (hquote : ∀ o ∈ quote, Substitution.isNameChar o.quote = false)
    (hquote' : ∀ o ∈ quote', Substitution.isNameChar o.quote = false)
    (h : Dockerfile.Respelled InOnePiece names new chars out)
    (hread : ∀ rest rest', rest.length < chars.length →
      Dockerfile.Respelled InOnePiece names new rest rest' →
        (read escape quote rest).Respelled names new (read escape quote' rest')) :
    (readEscaped escape quote chars).Respelled names new (readEscaped escape quote' out) := by
  cases h with
  | nil => exact ⟨.nil, .nil⟩
  | keep kept same next => exact (hread _ _ (Nat.lt_succ_self _) next).keep kept same
  | @name q chars name rest fresh rest' mem spelled written next =>
      have hold := hi.old_char mem
      have hnew := hi.new_char written
      obtain ⟨f, fresh, rfl⟩ := (hi.spellable he).exists_cons written
      rw [show q :: chars = (q :: name) ++ rest from spelled] at hread ⊢
      have hrest := hread rest rest' (by rw [List.length_append, List.length_cons]; omega) next
      simp only [List.cons_append, readEscaped]
      rw [read_plain he hquote fun r hr => hold r (List.mem_cons_of_mem _ hr),
        read_plain he hquote' fun r hr => hnew r (List.mem_cons_of_mem _ hr)]
      exact hrest.name mem written

theorem read_respelled (he : Substitution.isNameChar escape = false) (hi : Identifiers names new)
    (h : Dockerfile.Respelled InOnePiece names new chars out) {quote quote' : Option OpenQuote}
    (hsame : quote'.map OpenQuote.quote = quote.map OpenQuote.quote)
    (hquote : ∀ o ∈ quote, Substitution.isNameChar o.quote = false) :
    (read escape quote chars).Respelled names new (read escape quote' out) := by
  generalize hlength : chars.length = n
  induction n using Nat.strongRecOn generalizing chars out quote quote' with
  | ind n ih =>
  have hquote' : ∀ o ∈ quote', Substitution.isNameChar o.quote = false := by
    intro o ho
    rw [Option.mem_def.mp ho] at hsame
    obtain ⟨o', ho', heq⟩ := Option.map_eq_some_iff.mp hsame.symm
    rw [← heq]
    exact hquote o' ho'
  cases h with
  | nil =>
      rw [read.eq_def, read.eq_def]
      exact ⟨.nil, .nil⟩
  | @name p chars name rest fresh rest' mem spelled written next =>
      rw [show p :: chars = (p :: name) ++ rest from spelled] at hlength ⊢
      rw [read_plain he hquote (hi.old_char mem), read_plain he hquote' (hi.new_char written)]
      refine (ih rest.length ?_ next hsame hquote rfl).name mem written
      rw [← hlength, List.length_append, List.length_cons]
      omega
  | @keep p p' chars chars' kept same next =>
      have hlt : chars.length < n := by
        rw [← hlength]
        exact Nat.lt_succ_self _
      have hskip := readEscaped_respelled he hi hquote hquote' next fun rest rest' hshort hrest =>
        ih rest.length (Nat.lt_trans hshort hlt) hrest hsame hquote rfl
      cases quote with
      | none =>
          obtain rfl := Option.map_eq_none_iff.mp hsame
          by_cases hblank : isBlank p.char = true
          · have hblank' : isBlank p'.char = true := by rw [same]; exact hblank
            rw [read.eq_def, read.eq_def escape none (p' :: chars')]
            simp only [hblank, hblank', if_true]
            exact ⟨.nil, .keep kept same next⟩
          by_cases hmark : p.char = '"' ∨ p.char = '\x27'
          · have hopen : ∀ o ∈ some (OpenQuote.mk p.char p.offset),
                Substitution.isNameChar o.quote = false := by
              rintro o ho
              cases ho
              rcases hmark with hmark | hmark <;> rw [hmark] <;> rfl
            have hword := @ih _ hlt _ _ next (some ⟨p.char, p.offset⟩) (some ⟨p'.char, p'.offset⟩)
              (by simp [same]) hopen rfl
            rw [read.eq_def, read.eq_def escape none (p' :: chars')]
            simp only [same, hblank, hmark, Bool.false_eq_true, if_false, if_true]
            rw [same] at hword
            exact hword.keep kept same
          by_cases hescape : p.char = escape
          · have hstep : isBlank p.char = false ∧ ¬ (p.char = '"' ∨ p.char = '\x27') :=
              ⟨by simpa using hblank, hmark⟩
            rw [read_of_escape hescape (.inl ⟨rfl, hstep⟩),
              read_of_escape (same.trans hescape) (.inl ⟨rfl, by rw [same]; exact hstep⟩)]
            exact hskip.keep kept same
          · rw [read.eq_def, read.eq_def escape none (p' :: chars')]
            simp only [same, hblank, hmark, hescape, Bool.false_eq_true, if_false]
            exact (ih _ hlt next hsame hquote rfl).keep kept same
      | some opened =>
          obtain ⟨opened', rfl, hopened⟩ := Option.map_eq_some_iff.mp hsame
          by_cases hclose : p.char = opened.quote
          · rw [read.eq_def, read.eq_def escape (some opened') (p' :: chars')]
            simp only [same, hopened, hclose, if_true]
            exact (@ih _ hlt _ _ next none none rfl (by simp) rfl).keep kept same
          by_cases hescape : opened.quote = '"' ∧ p.char = escape
          · rw [read_of_escape hescape.2 (.inr ⟨opened, rfl, hclose, hescape.1⟩),
              read_of_escape (same.trans hescape.2)
                (.inr ⟨opened', rfl, by rw [same, hopened]; exact hclose, hopened.trans hescape.1⟩)]
            exact hskip.keep kept same
          · rw [read.eq_def, read.eq_def escape (some opened') (p' :: chars')]
            simp only [same, hopened, hclose, hescape, if_false]
            exact (ih _ hlt next hsame hquote rfl).keep kept same

end Word

def Respelled (names : List (List Placed)) (new : Text) (arg arg' : Argument) : Prop :=
  Dockerfile.Respelled InOnePiece names new arg.content.chars arg'.content.chars

/-- The arguments of a region with other names are its arguments with other names. -/
theorem splitFrom_respelled (he : Substitution.isNameChar escape = false) (hi : Identifiers names new)
    (h : Dockerfile.Respelled InOnePiece names new chars out) (whole whole' : Excerpt)
    (index index' : Nat) :
    List.Forall₂ (Respelled names new) (splitFrom escape whole index chars)
      (splitFrom escape whole' index' out) := by
  have hs := hi.spellable he
  fun_induction splitFrom escape whole index chars generalizing out index' with
  | case1 =>
      rw [h.eq_nil, splitFrom]
      exact .nil
  | case2 index p rest hblank ih =>
      obtain ⟨p', out', rfl, hp', hnext⟩ := h.uncons (hs.not_begins (endsWord_of_isBlank hblank))
      rw [splitFrom, if_pos (by rw [hp']; exact hblank)]
      exact ih hnext _
  | case3 index p rest hblank word =>
      rename_i stop ih
      have hword := @Word.read_respelled _ _ _ _ _ he hi h none none rfl (by simp)
      obtain ⟨p', out', rfl, hblank'⟩ : ∃ p' out', out = p' :: out' ∧ isBlank p'.char = false := by
        by_cases hp : Begins names p
        · obtain ⟨q, out', rfl, hq⟩ := h.exists_head hs hp
          have hend := (hs.content q.char (List.mem_of_head? hq)).1
          exact ⟨q, out', rfl, (Bool.or_eq_false_iff.mp hend).1⟩
        · obtain ⟨p', out', rfl, hp', -⟩ := h.uncons hp
          exact ⟨p', out', rfl, by rw [hp']; simpa using hblank⟩
      rw [splitFrom, if_neg (by simp [hblank'])]
      exact .cons hword.chars (ih hword.rest _)

end Argument

/-! ## Substitutions -/

namespace Substitution

variable {escape : Char} {names : List (List Placed)} {new : Text} {chars out : List Placed}

theorem splitClosing_plain {a rest : List Placed} (ha : ∀ p ∈ a, isNameChar p.char = true)
    (depth : Nat) :
    splitClosing depth (a ++ rest) =
      (a ++ (splitClosing depth rest).1, (splitClosing depth rest).2) := by
  induction a with
  | nil => rfl
  | cons p a ih =>
      have hp := ha p List.mem_cons_self
      have hopen := ne_of_isNameChar hp (d := '\x7b') rfl
      have hclose := ne_of_isNameChar hp (d := '\x7d') rfl
      rw [List.cons_append, splitClosing.eq_def]
      simp only [hopen, hclose, if_false, ih fun q hq => ha q (List.mem_cons_of_mem _ hq)]
      rfl

theorem splitClosing_respelled (hi : Identifiers names new)
    (h : Respelled InOnePiece names new chars out) (depth : Nat) :
    Respelled InOnePiece names new (splitClosing depth chars).1 (splitClosing depth out).1 ∧
      Respelled InOnePiece names new (splitClosing depth chars).2 (splitClosing depth out).2 := by
  induction h generalizing depth with
  | nil => exact ⟨.nil, .nil⟩
  | @keep p p' chars chars' kept same next ih =>
      rw [splitClosing.eq_def, splitClosing.eq_def depth (p' :: chars')]
      simp only [same]
      by_cases hopen : p.char = '\x7b'
      · simp only [if_pos hopen]
        exact ⟨.keep kept same (ih _).1, (ih _).2⟩
      by_cases hclose : p.char = '\x7d'
      · simp only [if_neg hopen, if_pos hclose]
        cases depth with
        | zero => exact ⟨.nil, .keep kept same next⟩
        | succ depth => exact ⟨.keep kept same (ih _).1, (ih _).2⟩
      · simp only [if_neg hopen, if_neg hclose]
        exact ⟨.keep kept same (ih _).1, (ih _).2⟩
  | @name p chars name rest fresh rest' mem spelled written next ih =>
      rw [show p :: chars = (p :: name) ++ rest from spelled,
        splitClosing_plain (hi.old_char mem), splitClosing_plain (hi.new_char written)]
      exact ⟨.name mem rfl written (ih depth).1, (ih depth).2⟩

/-- What the braces enclose ends in front of a closing brace. -/
theorem splitClosing_snd (depth : Nat) (chars : List Placed) :
    ∀ p ∈ (splitClosing depth chars).2.head?, p.char = '\x7d' := by
  fun_induction splitClosing depth chars with
  | case1 => simp
  | case2 _ _ _ _ _ ih => exact ih
  | case3 p rest _ hclose => simpa using hclose
  | case4 _ _ _ _ _ _ ih => exact ih
  | case5 _ _ _ _ _ _ ih => exact ih

theorem scanFrom_plain (he : isNameChar escape = false) {a rest : List Placed}
    (ha : ∀ p ∈ a, isNameChar p.char = true) (quoted : Bool) :
    scanFrom escape quoted (a ++ rest) = scanFrom escape quoted rest := by
  induction a with
  | nil => rfl
  | cons p a ih =>
      have hp := ha p List.mem_cons_self
      have hescape := ne_of_isNameChar hp he
      have hsingle := ne_of_isNameChar hp (d := '\x27') rfl
      have hdollar := ne_of_isNameChar hp (d := '$') rfl
      rw [List.cons_append, scanFrom.eq_def]
      cases quoted with
      | true =>
          have hinside : (p.char != '\x27') = true := by simpa using hsingle
          simpa [hinside] using ih fun q hq => ha q (List.mem_cons_of_mem _ hq)
      | false =>
          simpa [hescape, hsingle, hdollar] using ih fun q hq => ha q (List.mem_cons_of_mem _ hq)

theorem isName_eq {a : List Placed} (ha : ∀ p ∈ a, isNameChar p.char = true) :
    isName (Placed.text a) = a.head?.any fun p => isNameStart p.char := by
  cases a with
  | nil => rfl
  | cons p a =>
      have hall : (Placed.text a).all isNameChar = true := by
        rw [Placed.text, List.all_map, List.all_eq_true]
        exact fun q hq => ha q (List.mem_cons_of_mem _ hq)
      rw [Placed.text_cons, isName, hall, Bool.and_true]
      rfl

theorem isName_respelled (hi : Identifiers names new) (h : Respelled InOnePiece names new chars out)
    (hchars : ∀ p ∈ chars, isNameChar p.char = true) (hout : ∀ p ∈ out, isNameChar p.char = true) :
    isName (Placed.text out) = isName (Placed.text chars) := by
  rw [isName_eq hchars, isName_eq hout]
  cases chars with
  | nil => rw [h.eq_nil]
  | cons p chars =>
      obtain ⟨p', out', rfl, hstart, -⟩ := h.exists_cons hi
      exact hstart

def Respelled (names : List (List Placed)) (new : Text) (s s' : Substitution) : Prop :=
  Dockerfile.Respelled InOnePiece names new s.name s'.name

/-! ### Equations of the scanner -/

section Equations

variable {p q : Placed} {rest body : List Placed}

theorem scanFrom_quoted :
    scanFrom escape true (p :: rest) = scanFrom escape (p.char != '\x27') rest := by
  rw [scanFrom.eq_def]
  rfl

theorem scanFrom_escape (hp : p.char = escape ∧ escape.toNat < 128) :
    scanFrom escape false (p :: rest) = scanFrom escape false rest.tail := by
  rw [scanFrom.eq_def]
  simp only [Bool.false_eq_true, if_false, if_pos hp]

theorem scanFrom_quote (hp : ¬ (p.char = escape ∧ escape.toNat < 128)) (hquote : p.char = '\x27') :
    scanFrom escape false (p :: rest) = scanFrom escape true rest := by
  rw [scanFrom.eq_def]
  simp only [Bool.false_eq_true, if_false, if_neg hp, if_pos hquote]

theorem scanFrom_other (hp : ¬ (p.char = escape ∧ escape.toNat < 128)) (hquote : p.char ≠ '\x27')
    (hdollar : p.char ≠ '$') : scanFrom escape false (p :: rest) = scanFrom escape false rest := by
  rw [scanFrom.eq_def]
  simp only [Bool.false_eq_true, if_false, if_neg hp, if_neg hquote, if_neg hdollar]

variable (hp : ¬ (p.char = escape ∧ escape.toNat < 128)) (hdollar : p.char = '$')

include hp hdollar

theorem scanFrom_dollar_nil : scanFrom escape false [p] = [] := by
  rw [hdollar] at hp
  rw [scanFrom.eq_def]
  simp only [Bool.false_eq_true, if_false, if_neg hp, hdollar, if_neg (by decide : '$' ≠ '\x27'),
    if_true]

theorem scanFrom_braces (hq : q.char = '\x7b') :
    scanFrom escape false (p :: q :: body) =
      (if isName (Placed.text (body.takeWhile fun r => isNameChar r.char)) then
        [⟨body.takeWhile fun r => isNameChar r.char,
          p :: q :: (body.takeWhile fun r => isNameChar r.char) ++
            (splitClosing 0 (body.dropWhile fun r => isNameChar r.char)).1 ++
            (splitClosing 0 (body.dropWhile fun r => isNameChar r.char)).2.take 1⟩] else []) ++
        scanFrom escape false (splitClosing 0 (body.dropWhile fun r => isNameChar r.char)).1 ++
        scanFrom escape false (splitClosing 0 (body.dropWhile fun r => isNameChar r.char)).2.tail := by
  rw [hdollar] at hp
  rw [scanFrom.eq_def]
  simp only [Bool.false_eq_true, if_false, if_neg hp, hdollar, if_neg (by decide : '$' ≠ '\x27'),
    if_true, if_pos hq]

theorem scanFrom_name (hq : isNameStart q.char = true) :
    scanFrom escape false (p :: q :: body) =
      ⟨(q :: body).takeWhile fun r => isNameChar r.char,
          p :: (q :: body).takeWhile fun r => isNameChar r.char⟩ ::
        scanFrom escape false ((q :: body).dropWhile fun r => isNameChar r.char) := by
  have hbrace : q.char ≠ '\x7b' := by
    intro h
    rw [h] at hq
    exact absurd hq (by decide)
  rw [hdollar] at hp
  rw [scanFrom.eq_def]
  simp only [Bool.false_eq_true, if_false, if_neg hp, hdollar, if_neg (by decide : '$' ≠ '\x27'),
    if_true, if_neg hbrace, if_pos hq]

theorem scanFrom_dollar_other (hq : q.char ≠ '\x7b') (hstart : isNameStart q.char = false) :
    scanFrom escape false (p :: q :: body) = scanFrom escape false (q :: body) := by
  rw [hdollar] at hp
  rw [scanFrom.eq_def]
  simp only [Bool.false_eq_true, if_false, if_neg hp, hdollar, if_neg (by decide : '$' ≠ '\x27'),
    if_true, if_neg hq, hstart]

end Equations

/-- Behind the escape character no substitution begins, and the other characters of a name begin
none anyway. -/
theorem exists_scanFrom_tail (he : isNameChar escape = false) (hi : Identifiers names new)
    (h : Dockerfile.Respelled InOnePiece names new chars out) :
    ∃ rest rest', rest.length ≤ chars.length ∧
      Dockerfile.Respelled InOnePiece names new rest rest' ∧
      scanFrom escape false chars.tail = scanFrom escape false rest ∧
      scanFrom escape false out.tail = scanFrom escape false rest' := by
  cases h with
  | nil => exact ⟨[], [], Nat.le_refl _, .nil, rfl, rfl⟩
  | keep _ _ next => exact ⟨_, _, Nat.le_succ _, next, rfl, rfl⟩
  | @name q chars name rest fresh rest' mem spelled written next =>
      have hold := hi.old_char mem
      have hnew := hi.new_char written
      obtain ⟨f, fresh, rfl⟩ := (hi.spellable he).exists_cons written
      rw [show q :: chars = (q :: name) ++ rest from spelled]
      refine ⟨rest, rest', by rw [List.length_append]; omega, next, ?_, ?_⟩
      · exact scanFrom_plain he (fun r hr => hold r (List.mem_cons_of_mem _ hr)) false
      · exact scanFrom_plain he (fun r hr => hnew r (List.mem_cons_of_mem _ hr)) false

/-- A substitution in braces, and those in its default value. -/
theorem scanFrom_braces_respelled (hi : Identifiers names new) {p p' q q' : Placed}
    (hp : ¬ (p.char = escape ∧ escape.toNat < 128)) (hdollar : p.char = '$')
    (hp' : p'.char = p.char) (hq : q.char = '\x7b') (hq' : q'.char = q.char)
    (h : Dockerfile.Respelled InOnePiece names new chars out)
    (hscan : ∀ rest rest', rest.length ≤ chars.length →
      Dockerfile.Respelled InOnePiece names new rest rest' →
        List.Forall₂ (Respelled names new) (scanFrom escape false rest)
          (scanFrom escape false rest')) :
    List.Forall₂ (Respelled names new) (scanFrom escape false (p :: q :: chars))
      (scanFrom escape false (p' :: q' :: out)) := by
  obtain ⟨hname, hrest⟩ := h.span hi (f := isNameChar) fun _ hc => hc
  obtain ⟨hinside, hbehind⟩ := splitClosing_respelled hi hrest 0
  have hlen := splitClosing_length 0 (chars.dropWhile fun r => isNameChar r.char)
  have hle := length_dropWhile_le (fun r : Placed => isNameChar r.char) chars
  have hfound := isName_respelled hi hname (List.all_eq_true.mp List.all_takeWhile)
    (List.all_eq_true.mp List.all_takeWhile)
  have htail := hbehind.tail fun r hr hbegins => by
    have hstart := hi.isNameStart_of_begins hbegins
    rw [splitClosing_snd 0 _ r hr] at hstart
    exact absurd hstart (by decide)
  rw [scanFrom_braces hp hdollar hq, scanFrom_braces (by rwa [hp']) (hp'.trans hdollar) (hq'.trans hq),
    hfound]
  refine List.rel_append (List.rel_append ?_ (hscan _ _ (by omega) hinside)) (hscan _ _ ?_ htail)
  · cases isName (Placed.text (chars.takeWhile fun r => isNameChar r.char)) with
    | false => exact .nil
    | true => exact .cons hname .nil
  · rw [List.length_tail]
    omega

theorem scanFrom_respelled (he : isNameChar escape = false) (hi : Identifiers names new)
    (h : Dockerfile.Respelled InOnePiece names new chars out) (quoted : Bool) :
    List.Forall₂ (Respelled names new) (scanFrom escape quoted chars) (scanFrom escape quoted out) := by
  generalize hlength : chars.length = n
  induction n using Nat.strongRecOn generalizing chars out quoted with
  | ind n ih =>
  cases h with
  | nil =>
      rw [scanFrom]
      exact .nil
  | @name p chars name rest fresh rest' mem spelled written next =>
      rw [show p :: chars = (p :: name) ++ rest from spelled] at hlength ⊢
      rw [scanFrom_plain he (hi.old_char mem), scanFrom_plain he (hi.new_char written)]
      refine ih rest.length ?_ next quoted rfl
      rw [← hlength, List.length_append, List.length_cons]
      omega
  | @keep p p' chars chars' kept same next =>
      have hlt : chars.length < n := by
        rw [← hlength]
        exact Nat.lt_succ_self _
      cases quoted with
      | true =>
          rw [scanFrom_quoted, scanFrom_quoted, same]
          exact ih _ hlt next _ rfl
      | false =>
      by_cases hescape : p.char = escape ∧ escape.toNat < 128
      · rw [scanFrom_escape hescape, scanFrom_escape (by rw [same]; exact hescape)]
        obtain ⟨rest, rest', hle, hrest, hscan, hscan'⟩ := exists_scanFrom_tail he hi next
        rw [hscan, hscan']
        exact ih _ (Nat.lt_of_le_of_lt hle hlt) hrest _ rfl
      have hescape' : ¬ (p'.char = escape ∧ escape.toNat < 128) := by rwa [same]
      by_cases hquote : p.char = '\x27'
      · rw [scanFrom_quote hescape hquote, scanFrom_quote hescape' (same.trans hquote)]
        exact ih _ hlt next _ rfl
      by_cases hdollar : p.char = '$'
      · have hdollar' := same.trans hdollar
        cases chars with
        | nil =>
            rw [next.eq_nil, scanFrom_dollar_nil hescape hdollar, scanFrom_dollar_nil hescape' hdollar']
            exact .nil
        | cons q body =>
            obtain ⟨q', body', rfl, hstart, hcons⟩ := next.exists_cons hi
            by_cases hq : q.char = '\x7b'
            · obtain ⟨hq', hbody⟩ := hcons (by rw [hq]; rfl)
              refine scanFrom_braces_respelled hi hescape hdollar same hq hq' hbody ?_
              intro rest rest' hle hrest
              exact ih _ (Nat.lt_of_le_of_lt hle (Nat.lt_of_succ_lt hlt)) hrest _ rfl
            have hbrace' : q'.char ≠ '\x7b' := by
              intro hq'
              by_cases hname : isNameStart q.char = true
              · rw [hname, hq'] at hstart
                exact absurd hstart (by decide)
              · exact hq ((hcons (by simpa using hname)).1.symm.trans hq')
            by_cases hname : isNameStart q.char = true
            · obtain ⟨htake, hdrop⟩ := next.span hi (f := isNameChar) fun _ hc => hc
              have hle := length_dropWhile_le (fun r : Placed => isNameChar r.char) (q :: body)
              rw [scanFrom_name hescape hdollar hname,
                scanFrom_name hescape' hdollar' (hstart.trans hname)]
              exact .cons htake (ih _ (by omega) hdrop _ rfl)
            · have hname : isNameStart q.char = false := by simpa using hname
              rw [scanFrom_dollar_other hescape hdollar hq hname,
                scanFrom_dollar_other hescape' hdollar' hbrace' (hstart.trans hname)]
              exact ih _ hlt next _ rfl
      · rw [scanFrom_other hescape hquote hdollar,
          scanFrom_other hescape' (by rwa [same]) (by rwa [same])]
        exact ih _ hlt next _ rfl

end Substitution

end Dockerfile
