import Mathlib.Control.Monad.Basic
import Dockerfile.Proofs.Text.Placement
import Dockerfile.StringArray

/-!
# The grammar of arrays of strings

What an array of strings looks like, said without reading one. `Inside` is what may stand between
two quotes and `decode` what it stands for; `Written` puts strings, commas, brackets and white space
together. Reading accepts exactly the arrays that are written like this, and gives their strings and
places (`StringArray.parse_eq_ok_iff`).
-/

namespace Dockerfile

namespace StringArray

/-! ## What a string stands for -/

def letter? : Char → Option Char
  | 'n' => some '\n'
  | 't' => some '\t'
  | 'r' => some '\r'
  | 'b' => some '\x08'
  | 'f' => some '\x0c'
  | _ => none

def hexDigits : Text :=
  "0123456789abcdef".toList

def isHexDigit (c : Char) : Bool :=
  hexDigits.contains c.toLower

def hexNumber (digits : Text) : Nat :=
  digits.foldl (fun n c => 16 * n + hexDigits.idxOf c.toLower) 0

def charAt (code : Nat) : Char :=
  if code.isValidChar then Char.ofNat code else '\ufffd'

def startsCode (text : Text) : Bool :=
  4 ≤ text.length && (text.take 4).all isHexDigit

/-- What is written between two quotes stands for itself, except behind the escape character: with a
backslash, the letters of `letter?` stand for their control character and `u` with four digits for
the character of that code; any other character loses the escape character. -/
def decode (escape : Char) : Text → Text
  | [] => []
  | c :: rest =>
      if c ≠ escape then c :: decode escape rest
      else
        match rest with
        | [] => []
        | d :: rest =>
            if escape = '\\' ∧ d = 'u' ∧ startsCode rest then
              charAt (hexNumber (rest.take 4)) :: decode escape (rest.drop 4)
            else
              (if escape = '\\' then (letter? d).getD d else d) :: decode escape rest
termination_by text => text.length
decreasing_by
  · simp
  · simp only [List.length_cons, List.length_drop]
    omega
  · simp only [List.length_cons]
    omega

/-! ## The grammar -/

/-- What may stand between two quotes: characters other than the quote and the escape character, and
escape characters with any character behind them. -/
inductive Inside (quote escape : Char) : List Placed → Prop
  | nil : Inside quote escape []
  | plain {p : Placed} {rest : List Placed} (not_quote : p.char ≠ quote)
      (not_escape : p.char ≠ escape) (next : Inside quote escape rest) :
      Inside quote escape (p :: rest)
  | escaped {p q : Placed} {rest : List Placed} (is_escape : p.char = escape)
      (next : Inside quote escape rest) : Inside quote escape (p :: q :: rest)

structure Quoted (quote escape : Char) where
  opening : Placed
  inside : List Placed
  closing : Placed
  opening_char : opening.char = quote
  inside_valid : Inside quote escape inside
  closing_char : closing.char = quote

namespace Quoted

variable {quote escape : Char}

def chars (s : Quoted quote escape) : List Placed :=
  s.opening :: (s.inside ++ [s.closing])

/-- The string that is read: what it stands for, and its place from quote to quote. -/
def literal (s : Quoted quote escape) : Literal :=
  ⟨decode escape (Placed.text s.inside), s.opening.spanTo s.closing⟩

end Quoted

/-- A stretch of spaces, tabs and line breaks. -/
def IsSpace (chars : List Placed) : Prop :=
  ∀ p ∈ chars, p.char ∈ [' ', '\t', '\r', '\n']

/-- Any number of strings, each behind a comma with white space around it. -/
inductive Further (quote escape : Char) : List Placed → List (Quoted quote escape) → Prop
  | nil : Further quote escape [] []
  | cons {before after rest : List Placed} {comma : Placed} {s : Quoted quote escape}
      {strings : List (Quoted quote escape)} (before_space : IsSpace before)
      (comma_char : comma.char = ',') (after_space : IsSpace after)
      (next : Further quote escape rest strings) :
      Further quote escape (before ++ comma :: (after ++ (s.chars ++ rest))) (s :: strings)

/-- An array as it is written, and what it is read as: brackets with white space on either side, and
between them nothing but white space, or strings with commas between them. -/
inductive Written (quote escape : Char) : List Placed → StringArray → Prop
  | empty {front inner back : List Placed} {opening closing : Placed} (front_space : IsSpace front)
      (opening_char : opening.char = '[') (inner_space : IsSpace inner)
      (closing_char : closing.char = ']') (back_space : IsSpace back) :
      Written quote escape (front ++ opening :: (inner ++ closing :: back))
        ⟨[], opening.spanTo closing⟩
  | strings {front inner further space back : List Placed} {opening closing : Placed}
      {first : Quoted quote escape} {others : List (Quoted quote escape)}
      (front_space : IsSpace front) (opening_char : opening.char = '[')
      (inner_space : IsSpace inner) (others_written : Further quote escape further others)
      (space_space : IsSpace space) (closing_char : closing.char = ']')
      (back_space : IsSpace back) :
      Written quote escape
        (front ++ opening :: (inner ++ (first.chars ++ (further ++ (space ++ closing :: back)))))
        ⟨(first :: others).map Quoted.literal, opening.spanTo closing⟩

/-! ## Characters -/

theorem isSpace_iff (c : Char) : isSpace c = true ↔ c ∈ [' ', '\t', '\r', '\n'] := by
  simp [isSpace, or_assoc]

theorem shortEscape_eq (c : Char) : shortEscape c = (letter? c).getD c := by
  unfold shortEscape letter?
  split <;> simp_all

theorem isHexDigit_of_le {c : Char} (h : 128 ≤ c.toNat) : isHexDigit c = false := by
  have hsmall : hexDigits.all (fun d => d.toNat < 128) = true := by decide
  have hlower : c.toLower = c := by
    unfold Char.toLower
    rw [dif_neg]
    rintro ⟨-, hle⟩
    have : c.toNat ≤ 'Z'.toNat := hle
    have : 'Z'.toNat = 90 := rfl
    omega
  unfold isHexDigit
  rw [hlower]
  cases hc : hexDigits.contains c with
  | false => rfl
  | true =>
      have := List.all_eq_true.mp hsmall c (List.contains_iff_mem.mp hc)
      rw [decide_eq_true_eq] at this
      omega

theorem hexValue?_eq (c : Char) :
    hexValue? c = if isHexDigit c then some (hexDigits.idxOf c.toLower) else none := by
  have hascii : ∀ n < 128, hexValue? (Char.ofNat n) =
      if isHexDigit (Char.ofNat n) then some (hexDigits.idxOf (Char.ofNat n).toLower)
      else none := by
    decide +kernel
  by_cases hc : c.toNat < 128
  · have h := hascii c.toNat hc
    rwa [Char.ofNat_toNat] at h
  · have hle : 128 ≤ c.toNat := by omega
    have hout : ∀ d : Char, d.toNat < 128 → ¬ c ≤ d := by
      intro d hd hcd
      have : c.toNat ≤ d.toNat := hcd
      omega
    simp [hexValue?, isHexDigit_of_le hle, hout '9' (by decide), hout 'f' (by decide),
      hout 'F' (by decide)]

theorem idxOf_lt_of_isHexDigit {c : Char} (h : isHexDigit c = true) :
    hexDigits.idxOf c.toLower < 16 :=
  List.idxOf_lt_length_of_mem (List.contains_iff_mem.mp h)

theorem hexCode?_eq (a b c d : Char) :
    hexCode? a b c d =
      if [a, b, c, d].all isHexDigit then some (hexNumber [a, b, c, d]) else none := by
  simp only [hexCode?, hexValue?_eq]
  by_cases ha : isHexDigit a <;> by_cases hb : isHexDigit b <;> by_cases hc : isHexDigit c <;>
    by_cases hd : isHexDigit d <;> simp [ha, hb, hc, hd, hexNumber, Nat.mul_comm]

theorem charOfCode_eq {code : Nat} (h : code < 0x10000) : charOfCode code = charAt code := by
  have hvalid : code.isValidChar ↔ ¬ (0xD800 ≤ code ∧ code ≤ 0xDFFF) := by
    unfold Nat.isValidChar
    omega
  unfold charOfCode charAt
  simp only [hvalid, ite_not]

theorem hexNumber_lt {a b c d : Char} (h : [a, b, c, d].all isHexDigit = true) :
    hexNumber [a, b, c, d] < 0x10000 := by
  simp only [List.all_cons, List.all_nil, Bool.and_true, Bool.and_eq_true] at h
  have ha := idxOf_lt_of_isHexDigit h.1
  have hb := idxOf_lt_of_isHexDigit h.2.1
  have hc := idxOf_lt_of_isHexDigit h.2.2.1
  have hd := idxOf_lt_of_isHexDigit h.2.2.2
  simp only [hexNumber, List.foldl_cons, List.foldl_nil]
  omega

/-- What delimits strings is no white space and no part of a number, and the escape character is
not the quote. -/
structure Delimits (quote escape : Char) : Prop where
  quote_space : isSpace quote = false
  quote_bracket : quote ≠ ']'
  quote_digit : isHexDigit quote = false
  escape_digit : isHexDigit escape = false
  distinct : escape ≠ quote

theorem delimits {quote escape : Char} (hq : quote = '"' ∨ quote = '\x27')
    (he : escape = '\\' ∨ escape = '\x60') : Delimits quote escape := by
  rcases hq with rfl | rfl <;> rcases he with rfl | rfl <;> constructor <;> decide

/-! ## Strings -/

section Strings

variable {quote escape : Char}

theorem startsCode_append {more : Text} (hmore : ∀ c ∈ more.head?, isHexDigit c = false)
    (text : Text) : startsCode (text ++ more) = startsCode text := by
  cases more with
  | nil => rw [List.append_nil]
  | cons c more =>
      have hc : isHexDigit c = false := hmore c rfl
      match text with
      | [] | [_] | [_, _] | [_, _, _] => simp [startsCode, hc]
      | _ :: _ :: _ :: _ :: text => simp [startsCode]

theorem decodeEscape_eq (escape : Char) (q : Placed) (rest : List Placed) :
    decodeEscape escape q rest =
      if escape = '\\' ∧ q.char = 'u' ∧ startsCode (Placed.text rest) then
        (charAt (hexNumber ((Placed.text rest).take 4)), rest.drop 4)
      else (if escape = '\\' then (letter? q.char).getD q.char else q.char, rest) := by
  unfold decodeEscape
  by_cases he : escape = '\\'
  · by_cases hu : q.char = 'u'
    · simp only [he, hu, ne_eq, not_true_eq_false, if_false, if_true, true_and]
      rcases rest with _ | ⟨a, _ | ⟨b, _ | ⟨c, _ | ⟨d, rest⟩⟩⟩⟩
      · simp [startsCode, letter?]
      · simp [startsCode, letter?]
      · simp [startsCode, letter?]
      · simp [startsCode, letter?]
      · have hstarts : startsCode (Placed.text (a :: b :: c :: d :: rest)) =
            [a.char, b.char, c.char, d.char].all isHexDigit := by
          simp [startsCode]
        rw [hstarts]
        by_cases hall : [a.char, b.char, c.char, d.char].all isHexDigit = true
        · simp only [hexCode?_eq, if_pos hall, charOfCode_eq (hexNumber_lt hall)]
          rfl
        · simp only [hexCode?_eq, if_neg hall]
          rfl
    · simp [he, hu, shortEscape_eq]
  · simp [he]

theorem decode_plain {c : Char} (h : c ≠ escape) (text : Text) :
    decode escape (c :: text) = c :: decode escape text := by
  simp [decode.eq_def escape (c :: text), h]

theorem decode_escaped (d : Char) (text : Text) :
    decode escape (escape :: d :: text) =
      if escape = '\\' ∧ d = 'u' ∧ startsCode text then
        charAt (hexNumber (text.take 4)) :: decode escape (text.drop 4)
      else (if escape = '\\' then (letter? d).getD d else d) :: decode escape text := by
  simp [decode.eq_def escape (escape :: d :: text)]

theorem closeLiteral_quote {p : Placed} (h : p.char = quote) (rest : List Placed) :
    closeLiteral quote escape (p :: rest) = some ([], p, rest) := by
  simp [closeLiteral.eq_def quote escape (p :: rest), h]

theorem closeLiteral_plain {p : Placed} (hq : p.char ≠ quote) (he : p.char ≠ escape)
    (rest : List Placed) :
    closeLiteral quote escape (p :: rest) =
      (closeLiteral quote escape rest).map fun r => (p.char :: r.1, r.2) := by
  simp [closeLiteral.eq_def quote escape (p :: rest), hq, he]

theorem closeLiteral_escaped {p q : Placed} (hq : p.char ≠ quote) (he : p.char = escape)
    (rest : List Placed) :
    closeLiteral quote escape (p :: q :: rest) =
      (closeLiteral quote escape (decodeEscape escape q rest).2).map
        fun r => ((decodeEscape escape q rest).1 :: r.1, r.2) := by
  subst he
  simp [closeLiteral.eq_def quote p.char (p :: q :: rest), hq]

/-- A number behind an escape character is made of characters that may stand alone. -/
theorem Inside.append_digits (hd : Delimits quote escape) {digits rest : List Placed}
    (h : (Placed.text digits).all isHexDigit = true) :
    Inside quote escape (digits ++ rest) ↔ Inside quote escape rest := by
  induction digits with
  | nil => rfl
  | cons p digits ih =>
      rw [Placed.text_cons, List.all_cons, Bool.and_eq_true] at h
      have hquote : p.char ≠ quote := by
        intro heq
        rw [heq, hd.quote_digit] at h
        cases h.1
      have hescape : p.char ≠ escape := by
        intro heq
        rw [heq, hd.escape_digit] at h
        cases h.1
      rw [← ih h.2, List.cons_append]
      generalize digits ++ rest = rest
      constructor
      · intro hinside
        cases hinside with
        | plain _ _ next => exact next
        | escaped is_escape _ => exact absurd is_escape hescape
      · exact .plain hquote hescape

/-- What may stand in a string is read before what stands behind it. -/
theorem closeLiteral_append (hd : Delimits quote escape) {inside more : List Placed}
    (h : Inside quote escape inside) (hmore : ∀ p ∈ more.head?, isHexDigit p.char = false) :
    closeLiteral quote escape (inside ++ more) = (closeLiteral quote escape more).map
      fun r => (decode escape (Placed.text inside) ++ r.1, r.2) := by
  generalize hn : inside.length = n
  induction n using Nat.strongRecOn generalizing inside with
  | ind n ih =>
      cases h with
      | nil =>
          simp [decode]
      | @plain p rest not_quote not_escape next =>
          rw [List.length_cons] at hn
          rw [List.cons_append, closeLiteral_plain not_quote not_escape,
            ih rest.length (by omega) next rfl, Placed.text_cons, decode_plain not_escape,
            Option.map_map]
          rfl
      | @escaped p q rest is_escape next =>
          simp only [List.length_cons] at hn
          have hquote : p.char ≠ quote := by
            rw [is_escape]
            exact hd.distinct
          have hstarts : startsCode (Placed.text (rest ++ more)) = startsCode (Placed.text rest) := by
            rw [Placed.text_append, startsCode_append]
            intro c hc
            obtain ⟨p, hp, rfl⟩ := Option.map_eq_some_iff.mp ((List.head?_map ..).symm.trans hc)
            exact hmore p hp
          rw [List.cons_append, List.cons_append, closeLiteral_escaped hquote is_escape,
            decodeEscape_eq, hstarts, Placed.text_cons, Placed.text_cons, is_escape, decode_escaped]
          by_cases hcode : escape = '\\' ∧ q.char = 'u' ∧ startsCode (Placed.text rest) = true
          · have hlen : 4 ≤ rest.length ∧ ((Placed.text rest).take 4).all isHexDigit = true := by
              have := hcode.2.2
              rw [startsCode, Bool.and_eq_true, decide_eq_true_eq] at this
              simpa [Placed.text] using this
            have hdigits : (Placed.text (rest.take 4)).all isHexDigit = true := by
              simpa [Placed.text, List.map_take] using hlen.2
            have hdrop : Inside quote escape (rest.drop 4) := by
              rw [← Inside.append_digits hd hdigits, List.take_append_drop]
              exact next
            have hread := ih (rest.drop 4).length (by rw [List.length_drop]; omega) hdrop rfl
            simp only [if_pos hcode, List.drop_append_of_le_length hlen.1, hread, Option.map_map]
            simp [Placed.text, List.map_drop, List.take_append_of_le_length, hlen.1,
              Function.comp_def]
          · simp only [if_neg hcode, ih rest.length (by omega) next rfl, Option.map_map]
            rfl

theorem closeLiteral_inside (hd : Delimits quote escape) {inside : List Placed}
    (h : Inside quote escape inside) {closing : Placed} (hclosing : closing.char = quote)
    (more : List Placed) :
    closeLiteral quote escape (inside ++ closing :: more) =
      some (decode escape (Placed.text inside), closing, more) := by
  rw [closeLiteral_append hd h (by rintro p ⟨⟩; rw [hclosing, hd.quote_digit]),
    closeLiteral_quote hclosing, Option.map_some, List.append_nil]

theorem Inside.append {a b : List Placed} (ha : Inside quote escape a) (hb : Inside quote escape b) :
    Inside quote escape (a ++ b) := by
  induction ha with
  | nil => exact hb
  | plain not_quote not_escape _ ih => exact .plain not_quote not_escape ih
  | escaped is_escape _ ih => exact .escaped is_escape ih

/-- The parts of a string stand for the parts of what it stands for. -/
theorem decode_append (hd : Delimits quote escape) {a b : List Placed} (ha : Inside quote escape a)
    (hb : Inside quote escape b) (hhead : ∀ p ∈ b.head?, isHexDigit p.char = false) :
    decode escape (Placed.text (a ++ b)) =
      decode escape (Placed.text a) ++ decode escape (Placed.text b) := by
  have hwhole := @closeLiteral_inside _ _ hd _ (ha.append hb) ⟨quote, 0⟩ rfl []
  rw [List.append_assoc, closeLiteral_append hd ha, closeLiteral_inside hd hb rfl] at hwhole
  · simpa using hwhole.symm
  · cases b with
    | nil =>
        rintro p ⟨⟩
        exact hd.quote_digit
    | cons q b => exact hhead

/-- A string that is read ends with its quote, and only what may stand in a string is in front. -/
theorem exists_of_closeLiteral (hd : Delimits quote escape) {chars rest : List Placed}
    {value : Text} {closing : Placed}
    (h : closeLiteral quote escape chars = some (value, closing, rest)) :
    ∃ inside, chars = inside ++ closing :: rest ∧ closing.char = quote ∧
      Inside quote escape inside := by
  fun_induction closeLiteral quote escape chars generalizing value with
  | case1 => cases h
  | case2 p rest hp =>
      cases h
      exact ⟨[], rfl, hp, .nil⟩
  | case3 => cases h
  | case4 p hq he q rest' decoded =>
      rename_i ih
      obtain ⟨⟨inner, r⟩, hr, heq⟩ := Option.map_eq_some_iff.mp h
      cases heq
      obtain ⟨inside, hinside, hclosing, hvalid⟩ := ih hr
      have hdecoded : decoded = decodeEscape escape q rest' := rfl
      rw [decodeEscape_eq] at hdecoded
      split at hdecoded
      · rename_i hcode
        have hdigits : (Placed.text (rest'.take 4)).all isHexDigit = true := by
          have := hcode.2.2
          rw [startsCode, Bool.and_eq_true] at this
          simpa [Placed.text, List.map_take] using this.2
        rw [hdecoded] at hinside
        refine ⟨p :: q :: (rest'.take 4 ++ inside), ?_, hclosing, .escaped he ?_⟩
        · rw [List.cons_append, List.cons_append, List.append_assoc, ← hinside,
            List.take_append_drop]
        · exact (Inside.append_digits hd hdigits).mpr hvalid
      · rw [hdecoded] at hinside
        exact ⟨p :: q :: inside, by rw [show rest' = _ from hinside]; rfl, hclosing,
          .escaped he hvalid⟩
  | case5 p rest' hq he ih =>
      obtain ⟨⟨inner, r⟩, hr, heq⟩ := Option.map_eq_some_iff.mp h
      cases heq
      obtain ⟨inside, rfl, hclosing, hvalid⟩ := ih hr
      exact ⟨p :: inside, rfl, hclosing, .plain hq he hvalid⟩

end Strings

/-! ## Arrays -/

section Arrays

variable {quote escape : Char} {stop : Nat} {expect : Expect}

theorem elements_space {space : List Placed} (h : IsSpace space) (rest : List Placed) :
    elements quote escape stop expect (space ++ rest) =
      elements quote escape stop expect rest := by
  induction space with
  | nil => rfl
  | cons p space ih =>
      have hp : isSpace p.char = true := (isSpace_iff _).mpr (h p List.mem_cons_self)
      rw [List.cons_append, elements.eq_def]
      simp only [if_pos hp]
      exact ih fun q hq => h q (List.mem_cons_of_mem _ hq)

theorem elements_nothing {closing : Placed} {space : List Placed} (h : IsSpace space) :
    elements quote escape stop (.nothing closing) space = .ok ([], closing) := by
  rw [← List.append_nil space, elements_space h, elements]

theorem elements_close {p : Placed} (h : p.char = ']')
    (hexpect : expect = .valueOrClose ∨ expect = .commaOrClose) (rest : List Placed) :
    elements quote escape stop expect (p :: rest) =
      elements quote escape stop (.nothing p) rest := by
  rcases hexpect with rfl | rfl <;> simp [elements.eq_def _ _ _ _ (p :: rest), h, isSpace]

theorem elements_comma {p : Placed} (h : p.char = ',') (rest : List Placed) :
    elements quote escape stop .commaOrClose (p :: rest) =
      elements quote escape stop .value rest := by
  simp [elements.eq_def _ _ _ _ (p :: rest), h, isSpace]

theorem elements_quote (hd : Delimits quote escape) {p : Placed} (hp : p.char = quote)
    (hexpect : expect = .valueOrClose ∨ expect = .value) (rest : List Placed) :
    elements quote escape stop expect (p :: rest) =
      match closeLiteral quote escape rest with
      | none => .error (.unexpected (Span.empty stop) none)
      | some (value, close, rest') =>
          (elements quote escape stop .commaOrClose rest').map
            fun r => (⟨value, p.spanTo close⟩ :: r.1, r.2) := by
  rw [elements.eq_def]
  rcases hexpect with rfl | rfl <;>
  · simp only [hp, hd.quote_space, Bool.false_eq_true, if_false, hd.quote_bracket, false_and, if_true]
    split <;> simp_all

theorem elements_string (hd : Delimits quote escape) (s : Quoted quote escape)
    (hexpect : expect = .valueOrClose ∨ expect = .value) (rest : List Placed) :
    elements quote escape stop expect (s.chars ++ rest) =
      (elements quote escape stop .commaOrClose rest).map fun r => (s.literal :: r.1, r.2) := by
  rw [Quoted.chars, List.cons_append, List.append_assoc, List.singleton_append,
    elements_quote hd s.opening_char hexpect, closeLiteral_inside hd s.inside_valid s.closing_char]
  rfl

theorem IsSpace.nil : IsSpace [] := by
  intro p hp
  cases hp

theorem IsSpace.cons {p : Placed} {chars : List Placed} (hp : isSpace p.char = true)
    (h : IsSpace chars) : IsSpace (p :: chars) := by
  intro q hq
  rcases List.mem_cons.mp hq with rfl | hq
  · exact (isSpace_iff _).mp hp
  · exact h q hq

/-- What may follow while `expect` is expected, with the strings up to the closing bracket and that
bracket: one rule for each character other than white space that `elements` goes on behind. -/
inductive Follows (quote escape : Char) : Expect → List Placed → List Literal → Placed → Prop
  | done {space : List Placed} {closing : Placed} (is_space : IsSpace space) :
      Follows quote escape (.nothing closing) space [] closing
  | close {expect : Expect} {space back : List Placed} {closing : Placed}
      (expected : expect = .valueOrClose ∨ expect = .commaOrClose) (is_space : IsSpace space)
      (closing_char : closing.char = ']') (back_space : IsSpace back) :
      Follows quote escape expect (space ++ closing :: back) [] closing
  | comma {space rest : List Placed} {p closing : Placed} {literals : List Literal}
      (is_space : IsSpace space) (comma_char : p.char = ',')
      (next : Follows quote escape .value rest literals closing) :
      Follows quote escape .commaOrClose (space ++ p :: rest) literals closing
  | string {expect : Expect} {space rest : List Placed} {closing : Placed}
      {s : Quoted quote escape} {literals : List Literal}
      (expected : expect = .valueOrClose ∨ expect = .value) (is_space : IsSpace space)
      (next : Follows quote escape .commaOrClose rest literals closing) :
      Follows quote escape expect (space ++ (s.chars ++ rest)) (s.literal :: literals) closing

theorem elements_of_follows (hd : Delimits quote escape) {chars : List Placed}
    {literals : List Literal} {closing : Placed}
    (h : Follows quote escape expect chars literals closing) :
    elements quote escape stop expect chars = .ok (literals, closing) := by
  induction h with
  | done is_space => exact elements_nothing is_space
  | close expected is_space closing_char back_space =>
      rw [elements_space is_space, elements_close closing_char expected,
        elements_nothing back_space]
  | comma is_space comma_char next ih =>
      rw [elements_space is_space, elements_comma comma_char, ih]
  | string expected is_space next ih =>
      rw [elements_space is_space, elements_string hd _ expected, ih]
      rfl

theorem Follows.space {p : Placed} (hp : isSpace p.char = true) {chars : List Placed}
    {literals : List Literal} {closing : Placed}
    (h : Follows quote escape expect chars literals closing) :
    Follows quote escape expect (p :: chars) literals closing := by
  cases h with
  | done is_space => exact .done (.cons hp is_space)
  | close expected is_space closing_char back_space =>
      exact .close expected (.cons hp is_space) closing_char back_space
  | comma is_space comma_char next => exact .comma (.cons hp is_space) comma_char next
  | string expected is_space next => exact .string expected (.cons hp is_space) next

theorem Follows.close_of_nothing {p closing : Placed} {rest : List Placed}
    {literals : List Literal} (h : Follows quote escape (.nothing p) rest literals closing)
    (hp : p.char = ']') (expected : expect = .valueOrClose ∨ expect = .commaOrClose) :
    Follows quote escape expect (p :: rest) literals closing := by
  cases h with
  | done is_space => exact .close expected .nil hp is_space
  | close expected => simp at expected
  | string expected => simp at expected

theorem follows_of_elements (hd : Delimits quote escape) {chars : List Placed}
    {literals : List Literal} {closing : Placed}
    (h : elements quote escape stop expect chars = .ok (literals, closing)) :
    Follows quote escape expect chars literals closing := by
  fun_induction elements quote escape stop expect chars generalizing literals with
  | case1 =>
      cases h
      exact .done .nil
  | case2 => cases h
  | case3 expect p rest hp ih => exact (ih h).space hp
  | case4 => cases h
  | case5 p rest hp hcomma ih => exact .comma .nil hcomma (ih h)
  | case6 p rest hp hcomma hclose ih => exact (ih h).close_of_nothing hclose (.inr rfl)
  | case7 => cases h
  | case8 expect p rest hp hclose _ _ ih =>
      rw [if_pos hclose] at h
      exact (ih h).close_of_nothing hclose.1 (.inl hclose.2)
  | case9 expect p rest hp hclose hquote hnone =>
      simp only [if_neg hclose, if_pos hquote] at h
      split at h
      · cases h
      · simp_all
  | case10 expect p rest hp hclose hquote value last rest' hread hnothing hcomma ih =>
      have expected : expect = .valueOrClose ∨ expect = .value := by
        cases expect with
        | valueOrClose => exact .inl rfl
        | value => exact .inr rfl
        | commaOrClose => exact absurd rfl hcomma
        | nothing opened => exact absurd rfl (hnothing opened)
      obtain ⟨inside, rfl, hlast, hinside⟩ := exists_of_closeLiteral hd hread
      have hvalue := closeLiteral_inside hd hinside hlast rest'
      rw [hread, Option.some.injEq, Prod.mk.injEq] at hvalue
      simp only [if_neg hclose, if_pos hquote] at h
      split at h
      · simp_all
      · rename_i hread'
        rw [hread] at hread'
        cases hread'
        cases hrest : elements quote escape stop .commaOrClose rest' with
        | error e =>
            rw [hrest] at h
            cases h
        | ok r =>
            rw [hrest] at h
            cases h
            have hnext := Follows.string (s := ⟨p, inside, last, hquote, hinside, hlast⟩) expected
              .nil (ih hrest)
            simpa [Quoted.chars, Quoted.literal, hvalue.1] using hnext
  | case11 expect p rest hp hclose hquote =>
      simp only [if_neg hclose, if_neg hquote] at h
      cases h

/-! ## From the rules to the grammar -/

def Ends (quote escape : Char) (chars : List Placed) (literals : List Literal)
    (closing : Placed) : Prop :=
  ∃ further space back strings, chars = further ++ (space ++ closing :: back) ∧
    Further quote escape further strings ∧ IsSpace space ∧ closing.char = ']' ∧ IsSpace back ∧
    literals = strings.map Quoted.literal

theorem Follows.ends {chars : List Placed} {literals : List Literal} {closing : Placed}
    (h : Follows quote escape expect chars literals closing) :
    (expect = .commaOrClose → Ends quote escape chars literals closing) ∧
      (expect = .value → ∃ (space : List Placed) (s : Quoted quote escape) (rest : List Placed)
        (others : List Literal), chars = space ++ (s.chars ++ rest) ∧ IsSpace space ∧
          literals = s.literal :: others ∧ Ends quote escape rest others closing) := by
  induction h with
  | done => simp
  | close expected is_space closing_char back_space =>
      refine ⟨fun _ => ⟨[], _, _, [], rfl, .nil, is_space, closing_char, back_space, rfl⟩, ?_⟩
      rintro rfl
      simp at expected
  | comma is_space comma_char next ih =>
      refine ⟨fun _ => ?_, by simp⟩
      obtain ⟨after, s, rest, others, rfl, hafter, rfl, further, space, back, strings, rfl,
        hfurther, hends⟩ := ih.2 rfl
      refine ⟨_, space, back, s :: strings, ?_, .cons is_space comma_char hafter hfurther, ?_⟩
      · simp
      · exact ⟨hends.1, hends.2.1, hends.2.2.1, by rw [hends.2.2.2, List.map_cons]⟩
  | string expected is_space next ih =>
      refine ⟨?_, fun _ => ⟨_, _, _, _, rfl, is_space, rfl, ih.1 rfl⟩⟩
      rintro rfl
      simp at expected

theorem Further.follows {further : List Placed} {strings : List (Quoted quote escape)}
    (h : Further quote escape further strings) {space back : List Placed} {closing : Placed}
    (space_space : IsSpace space) (closing_char : closing.char = ']') (back_space : IsSpace back) :
    Follows quote escape .commaOrClose (further ++ (space ++ closing :: back))
      (strings.map Quoted.literal) closing := by
  induction h with
  | nil => exact .close (.inr rfl) space_space closing_char back_space
  | @cons before after rest comma s strings before_space comma_char after_space next ih =>
      have hnext := Follows.comma before_space comma_char
        (.string (s := s) (.inr rfl) after_space ih)
      simpa using hnext

theorem written_of_follows {front rest : List Placed} {opening closing : Placed}
    {literals : List Literal} (front_space : IsSpace front) (opening_char : opening.char = '[')
    (h : Follows quote escape .valueOrClose rest literals closing) :
    Written quote escape (front ++ opening :: rest) ⟨literals, opening.spanTo closing⟩ := by
  cases h with
  | close expected is_space closing_char back_space =>
      exact .empty front_space opening_char is_space closing_char back_space
  | string expected is_space next =>
      obtain ⟨further, space, back, strings, rfl, hfurther, hspace, hclosing, hback, rfl⟩ :=
        next.ends.1 rfl
      exact .strings front_space opening_char is_space hfurther hspace hclosing hback

theorem parse_bracket {e : Excerpt} {front rest : List Placed} {opening : Placed}
    (hchars : e.chars = front ++ opening :: rest) (hfront : IsSpace front)
    (hopening : opening.char = '[') :
    parse quote escape e = (elements quote escape e.stop .valueOrClose rest).map
      fun r => ⟨r.1, opening.spanTo r.2⟩ := by
  have hdrop : (e.chars.dropWhile fun p => isSpace p.char) = opening :: rest := by
    rw [hchars, List.dropWhile_append_of_pos fun p hp => (isSpace_iff _).mpr (hfront p hp),
      List.dropWhile_cons_of_neg]
    simp [hopening, isSpace]
  simp only [parse, hdrop, if_pos hopening]

theorem exists_bracket {e : Excerpt} {array : StringArray} (h : parse quote escape e = .ok array) :
    ∃ front opening rest literals closing, e.chars = front ++ opening :: rest ∧ IsSpace front ∧
      opening.char = '[' ∧
      elements quote escape e.stop .valueOrClose rest = .ok (literals, closing) ∧
      array = ⟨literals, opening.spanTo closing⟩ := by
  unfold parse at h
  have hsplit := @List.takeWhile_append_dropWhile _ (fun p : Placed => isSpace p.char) e.chars
  have hfront : IsSpace (e.chars.takeWhile fun p => isSpace p.char) := fun p hp =>
    (isSpace_iff _).mp (List.all_eq_true.mp List.all_takeWhile p hp)
  split at h
  · rename_i opening rest hdrop
    split at h
    · rename_i hopening
      cases hrest : elements quote escape e.stop .valueOrClose rest with
      | error error =>
          rw [hrest] at h
          cases h
      | ok r =>
          rw [hrest] at h
          cases h
          exact ⟨_, opening, rest, r.1, r.2, by rw [← hdrop, hsplit], hfront, hopening, hrest, rfl⟩
    · cases h
  · cases h

theorem parse_of_written (hd : Delimits quote escape) {e : Excerpt} {array : StringArray}
    (h : Written quote escape e.chars array) : parse quote escape e = .ok array := by
  generalize hchars : e.chars = chars at h
  cases h with
  | empty front_space opening_char inner_space closing_char back_space =>
      rw [parse_bracket hchars front_space opening_char, elements_of_follows hd
        (.close (.inl rfl) inner_space closing_char back_space)]
      rfl
  | strings front_space opening_char inner_space others_written space_space closing_char
      back_space =>
      rw [parse_bracket hchars front_space opening_char, elements_of_follows hd
        (.string (.inl rfl) inner_space
          (others_written.follows space_space closing_char back_space))]
      rfl

theorem written_of_parse (hd : Delimits quote escape) {e : Excerpt} {array : StringArray}
    (h : parse quote escape e = .ok array) : Written quote escape e.chars array := by
  obtain ⟨front, opening, rest, literals, closing, hchars, hfront, hopening, hrest, rfl⟩ :=
    exists_bracket h
  rw [hchars]
  exact written_of_follows hfront hopening (follows_of_elements hd hrest)

end Arrays

/-- Reading accepts exactly what is written as an array of strings, and gives its strings in order
with the characters they stand for and their places, and the place of the array. -/
theorem parse_eq_ok_iff {quote escape : Char} (hq : quote = '"' ∨ quote = '\x27')
    (he : escape = '\\' ∨ escape = '\x60') (e : Excerpt) (array : StringArray) :
    parse quote escape e = .ok array ↔ Written quote escape e.chars array :=
  ⟨written_of_parse (delimits hq he), parse_of_written (delimits hq he)⟩

/-- Two strings at offset 4 of a file: a code and a letter behind backslashes, and a `u` without
digits. -/
theorem parse_eq_ok_iff_escapes :
    parse '"' '\\' (Excerpt.ofText 4 "[ \"\\u0041\\n\" ,\t\"\\u00\"]\n".toList) =
        .ok ⟨[⟨"A\n".toList, ⟨6, 16⟩⟩, ⟨"u00".toList, ⟨19, 25⟩⟩], ⟨4, 26⟩⟩ ∧
      Written '"' '\\' (Excerpt.ofText 4 "[ \"\\u0041\\n\" ,\t\"\\u00\"]\n".toList).chars
        ⟨[⟨"A\n".toList, ⟨6, 16⟩⟩, ⟨"u00".toList, ⟨19, 25⟩⟩], ⟨4, 26⟩⟩ := by
  have hread : parse '"' '\\' (Excerpt.ofText 4 "[ \"\\u0041\\n\" ,\t\"\\u00\"]\n".toList) =
      .ok ⟨[⟨"A\n".toList, ⟨6, 16⟩⟩, ⟨"u00".toList, ⟨19, 25⟩⟩], ⟨4, 26⟩⟩ := by
    decide +kernel
  exact ⟨hread, (parse_eq_ok_iff (.inl rfl) (.inl rfl) _ _).mp hread⟩

end StringArray

end Dockerfile
