import Dockerfile.Text.Continuation

/-!
# Arguments

The part of an instruction behind its keyword is split into arguments at runs of spaces and tabs.
Quotes protect blanks: a double-quoted part honours the escape character, a single-quoted part ends
at the next single quote whatever stands before it. Outside quotes the escape character keeps the
next character in the argument.
-/

namespace Dockerfile

/-- A quote that is still open where the arguments end, and its offset in the file. -/
structure OpenQuote where
  quote : Char
  offset : Nat
  deriving DecidableEq, Repr

/-- One argument: its characters, and the bytes it takes of the text it was split from. -/
structure Argument where
  content : Excerpt
  start : Nat
  stop : Nat
  openQuote : Option OpenQuote
  deriving DecidableEq, Repr

namespace Argument

def text (arg : Argument) : Text :=
  arg.content.text

def span (arg : Argument) : Span :=
  arg.content.span

/-- A word: what was read of it, what follows, and the quote left open at the end of the text. -/
structure Word where
  chars : List Placed
  rest : List Placed
  openQuote : Option OpenQuote
  deriving DecidableEq, Repr

namespace Word

def prepend (chars : List Placed) (word : Word) : Word :=
  { word with chars := chars ++ word.chars }

/-- Reads to the next separating blank or the end, inside the given quote if there is one. -/
def read (escape : Char) (quote : Option OpenQuote) : List Placed → Word
  | [] => ⟨[], [], quote⟩
  | p :: rest =>
      match quote with
      | none =>
          if isBlank p.char then ⟨[], p :: rest, none⟩
          else if p.char = '"' ∨ p.char = '\x27' then
            (read escape (some ⟨p.char, p.offset⟩) rest).prepend [p]
          else if p.char = escape then
            match rest with
            | [] => ⟨[p], [], none⟩
            | q :: rest' => (read escape none rest').prepend [p, q]
          else (read escape none rest).prepend [p]
      | some opened =>
          if p.char = opened.quote then (read escape none rest).prepend [p]
          else if opened.quote = '"' ∧ p.char = escape then
            match rest with
            | [] => ⟨[p], [], quote⟩
            | q :: rest' => (read escape quote rest').prepend [p, q]
          else (read escape quote rest).prepend [p]

@[simp] theorem prepend_rest (chars : List Placed) (word : Word) :
    (word.prepend chars).rest = word.rest := rfl

theorem read_rest_length (escape : Char) (quote : Option OpenQuote) (chars : List Placed) :
    (read escape quote chars).rest.length ≤ chars.length := by
  fun_induction read escape quote chars <;> simp_all <;> omega

/-- A word that starts at a character other than a blank is not empty. -/
theorem read_rest_length_lt (escape : Char) (p : Placed) (rest : List Placed)
    (h : isBlank p.char = false) :
    (read escape none (p :: rest)).rest.length < (p :: rest).length := by
  simp only [read.eq_def escape none (p :: rest), h, Bool.false_eq_true, if_false]
  split
  · simpa using Nat.lt_succ_of_le (read_rest_length escape _ rest)
  · split
    · cases rest with
      | nil => simp
      | cons q rest' =>
          have := read_rest_length escape none rest'
          simp
          omega
    · simpa using Nat.lt_succ_of_le (read_rest_length escape none rest)

end Word

/-- The arguments among these characters, the first of which is byte `index` of the whole text;
`whole` is the excerpt they are the end of. -/
def splitFrom (escape : Char) (whole : Excerpt) (index : Nat) : List Placed → List Argument
  | [] => []
  | p :: rest =>
      if isBlank p.char then splitFrom escape whole (index + p.size) rest
      else
        let word := Word.read escape none (p :: rest)
        let stop := index + total Placed.size word.chars
        ⟨whole.part word.chars word.rest, index, stop, word.openQuote⟩ ::
          splitFrom escape whole stop word.rest
termination_by chars => chars.length
decreasing_by
  · simp
  · rename_i h
    exact Word.read_rest_length_lt escape p rest (by simpa using h)

def split (escape : Char) (region : Excerpt) : List Argument :=
  splitFrom escape region 0 region.chars

end Argument

/-- Resolves quoting: each quoted part loses its quotes, and outside single quotes the escape
character stands for the character after it. -/
def unquoteFrom (escape : Char) (quote : Option Char) : Text → Text
  | [] => []
  | c :: rest =>
      if quote = some '\x27' then
        if c = '\x27' then unquoteFrom escape none rest else c :: unquoteFrom escape quote rest
      else if quote = some c then unquoteFrom escape none rest
      else if c = escape then
        match rest with
        | [] => [c]
        | d :: rest' => d :: unquoteFrom escape quote rest'
      else if quote = none ∧ (c = '"' ∨ c = '\x27') then unquoteFrom escape (some c) rest
      else c :: unquoteFrom escape quote rest

def unquote (escape : Char) (text : Text) : Text :=
  unquoteFrom escape none text

end Dockerfile
