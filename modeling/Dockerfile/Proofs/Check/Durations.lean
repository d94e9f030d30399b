import Mathlib.Data.List.TakeWhile
import Dockerfile.Duration
import Dockerfile.Proofs.Text.Placement

/-!
# The grammar of durations

A text falls into pieces: the longest beginning of digits and points, and the longest run of other
characters behind it (`Duration.Piece`). `Duration.Terms` and `Duration.Fault` say of such pieces which
are terms, and what is wrong with one that is not. Reading finds the terms in front and the fault of the
first piece that is none (`Duration.terms_eq_error_iff`), so a text is a duration exactly if it has the
form of one, and what is reported otherwise is wrong with its first bad piece
(`Duration.parse_recognizes`).
-/

namespace Dockerfile

namespace Duration

/-- The names of the units; both letters mu are known. -/
def Unit.names : List Text :=
  ["ns", "us", "\u00b5s", "\u03bcs", "ms", "s", "m", "h"].map String.toList

/-- The piece in front of a text: `number` and `unit` are as long as they can be, and `rest` is what
follows them. -/
structure Piece (text number unit rest : Text) : Prop where
  split : text = number ++ (unit ++ rest)
  numerals : ∀ c ∈ number, isNumeral c = true
  others : ∀ c ∈ unit, isNumeral c = false
  number_longest : ∀ c ∈ (unit ++ rest).head?, isNumeral c = false
  unit_longest : ∀ c ∈ rest.head?, isNumeral c = true

structure IsNumber (number : Text) : Prop where
  digit : ∃ c ∈ number, c.isDigit = true
  point : number.count '.' ≤ 1

/-- The text begins with terms, one behind the other, and goes on with `rest`. -/
inductive Terms : Text → Text → Prop
  | nil (text : Text) : Terms text text
  | cons {text number unit next rest : Text} (piece : Piece text number unit next)
      (isNumber : IsNumber number) (known : unit ∈ Unit.names) (more : Terms next rest) :
      Terms text rest

/-- What is wrong with the piece in front of a text. -/
inductive Fault : Text → Error → Prop
  | invalid {text number unit rest : Text} (piece : Piece text number unit rest)
      (notNumber : ¬ IsNumber number) : Fault text .invalid
  | missingUnit {text number rest : Text} (piece : Piece text number [] rest)
      (isNumber : IsNumber number) : Fault text .missingUnit
  | unknownUnit {text number unit rest : Text} (piece : Piece text number unit rest)
      (isNumber : IsNumber number) (nonempty : unit ≠ []) (unknown : unit ∉ Unit.names) :
      Fault text (.unknownUnit unit)

inductive Signed : Text → Text → Prop
  | plus (body : Text) : Signed ('+' :: body) body
  | minus (body : Text) : Signed ('-' :: body) body
  | bare {body : Text} (unsigned : ∀ c ∈ body.head?, c ≠ '+' ∧ c ≠ '-') : Signed body body

/-- The form of a duration: a sign perhaps, and then a lone zero or at least one term. -/
def IsDuration (text : Text) : Prop :=
  ∃ body, Signed text body ∧ (body = ['0'] ∨ (body ≠ [] ∧ Terms body []))

/-- Nothing follows the sign, or `error` is wrong with the first piece that is no term. -/
def IsFaulty (text : Text) (error : Error) : Prop :=
  ∃ body, Signed text body ∧ body ≠ ['0'] ∧
    ((body = [] ∧ error = .invalid) ∨
      ∃ rest, Terms body rest ∧ rest ≠ [] ∧ Fault rest error)

/-! ## Pieces -/

theorem isNumber_iff (number : Text) : isNumber number = true ↔ IsNumber number := by
  simp only [isNumber, Bool.and_eq_true, List.any_eq_true, decide_eq_true_eq]
  exact ⟨fun h => ⟨h.1, h.2⟩, fun h => ⟨h.digit, h.point⟩⟩

theorem IsNumber.not_eq_false {number : Text} (h : IsNumber number) : ¬ isNumber number = false := by
  rw [(isNumber_iff number).mpr h]
  exact Bool.noConfusion

theorem IsNumber.ne_nil {number : Text} (h : IsNumber number) : number ≠ [] := by
  obtain ⟨c, hc, -⟩ := h.digit
  exact List.ne_nil_of_mem hc

theorem isSome_ofText?_iff (unit : Text) :
    (Unit.ofText? unit).isSome = true ↔ unit ∈ Unit.names := by
  constructor
  · intro h
    unfold Unit.ofText? at h
    split at h
    case h_9 => cases h
    all_goals decide
  · intro h
    simp only [Unit.names, List.map_cons, List.map_nil, List.mem_cons, List.not_mem_nil,
      or_false] at h
    rcases h with rfl | rfl | rfl | rfl | rfl | rfl | rfl | rfl <;> rfl

theorem piece_front (text : Text) :
    Piece text (text.takeWhile isNumeral)
      ((text.dropWhile isNumeral).takeWhile fun c => !isNumeral c)
      ((text.dropWhile isNumeral).dropWhile fun c => !isNumeral c) where
  split := by rw [List.takeWhile_append_dropWhile, List.takeWhile_append_dropWhile]
  numerals := fun _ hc => List.mem_takeWhile_imp hc
  others := fun _ hc => by simpa using List.mem_takeWhile_imp hc
  number_longest := by
    rw [List.takeWhile_append_dropWhile]
    intro c hc
    have hhead := List.head?_dropWhile_not isNumeral text
    rw [Option.mem_def.mp hc] at hhead
    simpa using hhead
  unit_longest := by
    intro c hc
    have hhead := List.head?_dropWhile_not (fun c => !isNumeral c) (text.dropWhile isNumeral)
    rw [Option.mem_def.mp hc] at hhead
    simpa using hhead

section Pieces

variable {text number unit rest : Text}

/-- A text has only one piece in front, the one that reading cuts off. -/
theorem Piece.cut (h : Piece text number unit rest) :
    (text.takeWhile isNumeral = number ∧ text.dropWhile isNumeral = unit ++ rest) ∧
      ((unit ++ rest).takeWhile (fun c => !isNumeral c) = unit ∧
        (unit ++ rest).dropWhile (fun c => !isNumeral c) = rest) := by
  constructor
  · rw [h.split]
    exact Text.spanWhile h.numerals h.number_longest
  · refine Text.spanWhile ?_ ?_
    · intro c hc
      rw [h.others c hc, Bool.not_false]
    · intro c hc
      rw [h.unit_longest c hc, Bool.not_true]

theorem Piece.length_lt (h : Piece text number unit rest) (hnumber : IsNumber number) :
    rest.length < text.length := by
  have hpos := List.length_pos_iff.mpr hnumber.ne_nil
  rw [h.split, List.length_append, List.length_append]
  omega

theorem Piece.ne_nil (h : Piece text number unit rest) (hnumber : IsNumber number) : text ≠ [] := by
  have hlt := h.length_lt hnumber
  exact List.ne_nil_of_length_pos (by omega)

theorem Piece.terms_eq (h : Piece text number unit rest) (hne : text ≠ []) :
    terms text =
      if isNumber number = false then .error .invalid
      else if unit.isEmpty then .error .missingUnit
      else
        match Unit.ofText? unit with
        | none => .error (.unknownUnit unit)
        | some u => (terms rest).map fun ts => ⟨number, u⟩ :: ts := by
  obtain ⟨⟨hnumber, hbehind⟩, hunit, hrest⟩ := h.cut
  obtain ⟨c, tail, rfl⟩ := List.exists_cons_of_ne_nil hne
  have hread := terms.eq_2 c tail
  simp only [hnumber, hbehind, hunit, hrest, dite_eq_ite] at hread
  exact hread

end Pieces

/-! ## Terms and faults -/

theorem Fault.terms_eq {text : Text} {error : Error} (h : Fault text error) (hne : text ≠ []) :
    terms text = .error error := by
  cases h with
  | invalid piece notNumber =>
      rw [piece.terms_eq hne, if_pos (Bool.eq_false_iff.mpr ((isNumber_iff _).not.mpr notNumber))]
  | missingUnit piece isNumber =>
      rw [piece.terms_eq hne, if_neg isNumber.not_eq_false]
      rfl
  | unknownUnit piece isNumber nonempty unknown =>
      have hnone := (isSome_ofText?_iff _).not.mpr unknown
      rw [Option.not_isSome_iff_eq_none] at hnone
      rw [piece.terms_eq hne, if_neg isNumber.not_eq_false,
        if_neg (by simpa using nonempty), hnone]

/-- Reading passes the terms in front of a text, whatever stands behind them. -/
theorem Terms.exists_eq {text rest : Text} (h : Terms text rest) :
    ∃ front, terms text = (terms rest).map fun ts => front ++ ts := by
  induction h with
  | nil text =>
      refine ⟨[], ?_⟩
      cases terms text <;> rfl
  | @cons text number unit next rest piece isNumber known _ ih =>
      obtain ⟨front, hnext⟩ := ih
      obtain ⟨u, hu⟩ := Option.isSome_iff_exists.mp ((isSome_ofText?_iff unit).mpr known)
      have hunit : unit ≠ [] := by
        intro hnil
        rw [hnil] at hu
        cases hu
      refine ⟨⟨number, u⟩ :: front, ?_⟩
      rw [piece.terms_eq (piece.ne_nil isNumber), if_neg isNumber.not_eq_false,
        if_neg (by simpa using hunit), hu, hnext]
      cases terms rest <;> rfl

theorem terms_or_fault (text : Text) :
    Terms text [] ∨ ∃ rest error, Terms text rest ∧ rest ≠ [] ∧ Fault rest error := by
  generalize hn : text.length = n
  induction n using Nat.strongRecOn generalizing text with
  | ind n ih =>
  by_cases hne : text = []
  · exact .inl (hne ▸ .nil text)
  have piece := piece_front text
  by_cases hnumber : IsNumber (text.takeWhile isNumeral)
  · by_cases hknown : ((text.dropWhile isNumeral).takeWhile fun c => !isNumeral c) ∈ Unit.names
    · have hlt := piece.length_lt hnumber
      rcases ih _ (hn ▸ hlt) _ rfl with hterms | ⟨rest, error, hterms, hrest, hfault⟩
      · exact .inl (.cons piece hnumber hknown hterms)
      · exact .inr ⟨rest, error, .cons piece hnumber hknown hterms, hrest, hfault⟩
    · by_cases hunit : ((text.dropWhile isNumeral).takeWhile fun c => !isNumeral c) = []
      · rw [hunit] at piece
        exact .inr ⟨text, _, .nil text, hne, .missingUnit piece hnumber⟩
      · exact .inr ⟨text, _, .nil text, hne, .unknownUnit piece hnumber hunit hknown⟩
  · exact .inr ⟨text, _, .nil text, hne, .invalid piece hnumber⟩

theorem exists_terms_of_terms {text : Text} (h : Terms text []) : ∃ ts, terms text = .ok ts := by
  obtain ⟨front, hterms⟩ := h.exists_eq
  rw [terms] at hterms
  exact ⟨_, hterms⟩

theorem terms_eq_error_of_fault {text rest : Text} {error : Error} (h : Terms text rest)
    (hne : rest ≠ []) (hfault : Fault rest error) : terms text = .error error := by
  obtain ⟨front, hterms⟩ := h.exists_eq
  rw [hterms, hfault.terms_eq hne]
  rfl

theorem exists_terms_eq_ok_iff (text : Text) : (∃ ts, terms text = .ok ts) ↔ Terms text [] := by
  constructor
  · rintro ⟨ts, hts⟩
    rcases terms_or_fault text with h | ⟨rest, error, h, hne, hfault⟩
    · exact h
    · rw [terms_eq_error_of_fault h hne hfault] at hts
      cases hts
  · exact exists_terms_of_terms

theorem terms_eq_error_iff (text : Text) (error : Error) :
    terms text = .error error ↔ ∃ rest, Terms text rest ∧ rest ≠ [] ∧ Fault rest error := by
  constructor
  · intro herror
    rcases terms_or_fault text with h | ⟨rest, error', h, hne, hfault⟩
    · obtain ⟨ts, hts⟩ := exists_terms_of_terms h
      rw [herror] at hts
      cases hts
    · rw [terms_eq_error_of_fault h hne hfault] at herror
      cases herror
      exact ⟨rest, h, hne, hfault⟩
  · rintro ⟨rest, h, hne, hfault⟩
    exact terms_eq_error_of_fault h hne hfault

/-! ## Signs -/

theorem signed_splitSign (text : Text) : Signed text (splitSign text).2 := by
  unfold splitSign
  split
  · exact .minus _
  · exact .plus _
  · rename_i hminus hplus
    refine .bare ?_
    intro c hc
    obtain ⟨rest, rfl⟩ := List.head?_eq_some_iff.mp hc
    exact ⟨fun h => hplus rest (h ▸ rfl), fun h => hminus rest (h ▸ rfl)⟩

theorem Signed.splitSign_eq {text body : Text} (h : Signed text body) :
    (splitSign text).2 = body := by
  cases h with
  | plus => rfl
  | minus => rfl
  | bare unsigned =>
      unfold splitSign
      split
      · exact absurd rfl (unsigned '-' rfl).2
      · exact absurd rfl (unsigned '+' rfl).1
      · rfl

theorem parse_of_signed {text body : Text} (h : Signed text body) :
    parse text =
      if body = ['0'] then .ok 0.0
      else if body.isEmpty then .error .invalid
      else (terms body).map fun ts => if (splitSign text).1 then -(sum ts) else sum ts := by
  unfold parse
  simp only [h.splitSign_eq]

theorem exists_parse_iff {text body : Text} (h : Signed text body) :
    (∃ nanoseconds, parse text = .ok nanoseconds) ↔
      body = ['0'] ∨ (body ≠ [] ∧ Terms body []) := by
  rw [parse_of_signed h, ← exists_terms_eq_ok_iff]
  by_cases hzero : body = ['0']
  · simp [hzero]
  by_cases hnil : body = []
  · simp [hnil]
  rw [if_neg hzero, if_neg (by simpa using hnil)]
  cases terms body <;> simp [hzero, hnil, Except.map]

theorem parse_eq_error_iff {text body : Text} (h : Signed text body) (error : Error) :
    parse text = .error error ↔
      body ≠ ['0'] ∧ ((body = [] ∧ error = .invalid) ∨
        ∃ rest, Terms body rest ∧ rest ≠ [] ∧ Fault rest error) := by
  rw [parse_of_signed h, ← terms_eq_error_iff]
  by_cases hzero : body = ['0']
  · simp [hzero]
  by_cases hnil : body = []
  · simp [hnil, terms, eq_comm]
  rw [if_neg hzero, if_neg (by simpa using hnil)]
  cases terms body <;> simp [hzero, hnil, Except.map]

/-- A text is read as a duration exactly if it has the form of one. Otherwise nothing follows its sign,
which is invalid, or the error is that of the first piece behind the sign that is no term: a number that
is missing or malformed, a unit that is missing, or a unit that is not known. -/
theorem parse_recognizes (text : Text) :
    ((∃ nanoseconds, parse text = .ok nanoseconds) ↔ IsDuration text) ∧
      ∀ error, parse text = .error error ↔ IsFaulty text error := by
  refine ⟨⟨?_, ?_⟩, fun error => ⟨?_, ?_⟩⟩
  · intro h
    exact ⟨_, signed_splitSign text, (exists_parse_iff (signed_splitSign text)).mp h⟩
  · intro ⟨body, hsigned, hform⟩
    exact (exists_parse_iff hsigned).mpr hform
  · intro h
    exact ⟨_, signed_splitSign text, (parse_eq_error_iff (signed_splitSign text) error).mp h⟩
  · intro ⟨body, hsigned, hfault⟩
    exact (parse_eq_error_iff hsigned error).mpr hfault

/-- The second term is the first bad one: its unit is not known. -/
example : terms "1h2.5x3..s".toList = .error (.unknownUnit ['x']) := by cbv

end Duration

end Dockerfile
