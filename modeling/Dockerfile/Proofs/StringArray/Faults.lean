import Dockerfile.Proofs.StringArray.Grammar

/-!
# Where reading an array fails

Reading stops at the first character that no array can have there: what stands in front of it can be
completed to an array, and what ends with it cannot. If reading stops at the end, the whole text can
be completed. Both are said of the rest of an array first (`FailsAt`, `elements_fails`), since each step
of the reader leaves the same question about a shorter rest.
-/

namespace Dockerfile

namespace StringArray

/-- Whether an excerpt is read as an array. -/
def Accepts (quote escape : Char) (e : Excerpt) : Prop :=
  ∃ array, parse quote escape e = .ok array

/-- Characters that some array begins with. -/
def Viable (quote escape : Char) (chars : List Placed) : Prop :=
  ∃ e : Excerpt, chars <+: e.chars ∧ Accepts quote escape e

/-- Among these characters `p` is the first that no array can have there; `before` is in front of it. -/
structure Fault (quote escape : Char) (chars before : List Placed) (p : Placed) : Prop where
  stands : before ++ [p] <+: chars
  viable : Viable quote escape before
  fatal : ¬ Viable quote escape (before ++ [p])

/-- A bracket opens, behind white space at most. -/
def Opens (e : Excerpt) : Prop :=
  ∃ front opening rest, e.chars = front ++ opening :: rest ∧ IsSpace front ∧ opening.char = '['

section Faults

variable {quote escape : Char} {stop : Nat} {expect expect' : Expect}

/-! ## The rest of an array -/

/-- Whether characters are what an array goes on with to its end. -/
def Completes (quote escape : Char) (expect : Expect) (chars : List Placed) : Prop :=
  ∃ literals closing, Follows quote escape expect chars literals closing

theorem completes_iff (hd : Delimits quote escape) (stop : Nat) {chars : List Placed} :
    Completes quote escape expect chars ↔
      ∃ r, elements quote escape stop expect chars = .ok r := by
  constructor
  · rintro ⟨literals, closing, h⟩
    exact ⟨_, elements_of_follows hd h⟩
  · rintro ⟨⟨literals, closing⟩, h⟩
    exact ⟨literals, closing, follows_of_elements hd h⟩

/-- Two rests that are read alike are completed alike. -/
theorem completes_congr (hd : Delimits quote escape) {chars chars' : List Placed}
    (h : elements quote escape 0 expect chars = elements quote escape 0 expect' chars') :
    Completes quote escape expect chars ↔ Completes quote escape expect' chars' := by
  rw [completes_iff hd 0, completes_iff hd 0, h]

theorem completes_string (hd : Delimits quote escape) (s : Quoted quote escape)
    (hexpect : expect = .valueOrClose ∨ expect = .value) (rest : List Placed) :
    Completes quote escape expect (s.chars ++ rest) ↔
      Completes quote escape .commaOrClose rest := by
  rw [completes_iff hd 0, completes_iff hd 0, elements_string hd s hexpect]
  cases elements quote escape 0 .commaOrClose rest <;> simp [Except.map]

theorem exists_completes (quote escape : Char) (expect : Expect) :
    ∃ more, Completes quote escape expect more := by
  have hclose {expect : Expect} (h : expect = .valueOrClose ∨ expect = .commaOrClose) :
      Completes quote escape expect [⟨']', 0⟩] :=
    ⟨[], _, Follows.close h IsSpace.nil rfl IsSpace.nil⟩
  cases expect with
  | valueOrClose => exact ⟨_, hclose (.inl rfl)⟩
  | value =>
      obtain ⟨_, _, hrest⟩ := hclose (.inr rfl)
      let s : Quoted quote escape := ⟨⟨quote, 0⟩, [], ⟨quote, 0⟩, rfl, .nil, rfl⟩
      exact ⟨_, _, _, .string (s := s) (.inr rfl) .nil hrest⟩
  | commaOrClose => exact ⟨_, hclose (.inr rfl)⟩
  | nothing closing => exact ⟨[], _, _, .done .nil⟩

/-- Reading the rest of an array fails at `p`: what is in front of it can be completed, and nothing
can follow that begins with `p`. -/
structure FailsAt (quote escape : Char) (expect : Expect) (front : List Placed) (p : Placed) :
    Prop where
  completes : ∃ more, Completes quote escape expect (front ++ more)
  fatal : ∀ more, ¬ Completes quote escape expect (front ++ p :: more)

theorem FailsAt.step {front skipped : List Placed} {p : Placed}
    (h : FailsAt quote escape expect' front p)
    (hskip : ∀ more, Completes quote escape expect (skipped ++ more) ↔
      Completes quote escape expect' more) :
    FailsAt quote escape expect (skipped ++ front) p := by
  obtain ⟨more, hmore⟩ := h.completes
  refine ⟨⟨more, ?_⟩, fun more => ?_⟩
  · rw [List.append_assoc, hskip]
    exact hmore
  · rw [List.append_assoc, hskip]
    exact h.fatal more

/-- A character at which reading fails whatever follows it. -/
theorem FailsAt.of_error (hd : Delimits quote escape) {p : Placed}
    (h : ∀ more, elements quote escape 0 expect (p :: more) =
      .error (.unexpected p.span (some p.char))) :
    FailsAt quote escape expect [] p := by
  refine ⟨exists_completes quote escape expect, fun more hmore => ?_⟩
  obtain ⟨r, hr⟩ := (completes_iff hd 0).mp hmore
  rw [List.nil_append, h more] at hr
  cases hr

/-- Where reading the rest of an array fails, by what it reports. -/
def Fails (quote escape : Char) (stop : Nat) (expect : Expect) (chars : List Placed) (span : Span) :
    Option Char → Prop
  | some c => ∃ front p, front ++ [p] <+: chars ∧ p.char = c ∧ p.span = span ∧
      FailsAt quote escape expect front p
  | none => span = Span.empty stop ∧ ∃ more, Completes quote escape expect (chars ++ more)

theorem Fails.step {skipped chars : List Placed} {span : Span} {found : Option Char}
    (h : Fails quote escape stop expect' chars span found)
    (hskip : ∀ more, Completes quote escape expect (skipped ++ more) ↔
      Completes quote escape expect' more) :
    Fails quote escape stop expect (skipped ++ chars) span found := by
  cases found with
  | some c =>
      obtain ⟨front, p, hprefix, hchar, hspan, hfails⟩ := h
      refine ⟨skipped ++ front, p, ?_, hchar, hspan, hfails.step hskip⟩
      rw [List.append_assoc]
      exact (List.prefix_append_right_inj skipped).mpr hprefix
  | none =>
      obtain ⟨hspan, more, hmore⟩ := h
      refine ⟨hspan, more, ?_⟩
      rw [List.append_assoc, hskip]
      exact hmore

theorem Fails.of_error (hd : Delimits quote escape) {p : Placed} {rest : List Placed}
    (h : ∀ more, elements quote escape 0 expect (p :: more) =
      .error (.unexpected p.span (some p.char))) :
    Fails quote escape stop expect (p :: rest) p.span (some p.char) :=
  ⟨[], p, List.prefix_append [p] rest, rfl, rfl, .of_error hd h⟩

theorem Fails.skip (hd : Delimits quote escape) {p : Placed} {rest : List Placed} {span : Span}
    {found : Option Char} (h : Fails quote escape stop expect' rest span found)
    (hread : ∀ more, elements quote escape 0 expect (p :: more) =
      elements quote escape 0 expect' more) :
    Fails quote escape stop expect (p :: rest) span found := by
  have hskip : ∀ more, Completes quote escape expect ([p] ++ more) ↔
      Completes quote escape expect' more := fun more => completes_congr hd (hread more)
  exact h.step hskip

/-! ## Strings -/

/-- A string that is not closed holds what may stand in one, perhaps with an escape character behind
it that nothing follows. -/
theorem inside_of_closeLiteral (hd : Delimits quote escape) {chars : List Placed}
    (h : closeLiteral quote escape chars = none) :
    ∃ more, Inside quote escape (chars ++ more) := by
  fun_induction closeLiteral quote escape chars with
  | case1 => exact ⟨[], .nil⟩
  | case2 => cases h
  | case3 p _ hescape => exact ⟨[p], .escaped hescape .nil⟩
  | case4 p _ hescape q rest decoded ih =>
      obtain ⟨more, hmore⟩ := ih (Option.map_eq_none_iff.mp h)
      refine ⟨more, .escaped hescape ?_⟩
      have hdecoded : decoded = decodeEscape escape q rest := rfl
      rw [decodeEscape_eq] at hdecoded
      split at hdecoded
      · rename_i hcode
        have hdigits : (Placed.text (rest.take 4)).all isHexDigit = true := by
          have := hcode.2.2
          rw [startsCode, Bool.and_eq_true] at this
          simpa [Placed.text, List.map_take] using this.2
        rw [hdecoded] at hmore
        have hwhole := (Inside.append_digits hd hdigits).mpr hmore
        rwa [← List.append_assoc, List.take_append_drop] at hwhole
      · rwa [hdecoded] at hmore
  | case5 p rest hquote hescape ih =>
      obtain ⟨more, hmore⟩ := ih (Option.map_eq_none_iff.mp h)
      exact ⟨more, .plain hquote hescape hmore⟩

/-- An array that ends inside a string can be completed. -/
theorem completes_of_closeLiteral (hd : Delimits quote escape) {p : Placed} {rest : List Placed}
    (hp : p.char = quote) (hexpect : expect = .valueOrClose ∨ expect = .value)
    (h : closeLiteral quote escape rest = none) :
    ∃ more, Completes quote escape expect (p :: rest ++ more) := by
  obtain ⟨inside, hinside⟩ := inside_of_closeLiteral hd h
  obtain ⟨more, hmore⟩ := exists_completes quote escape .commaOrClose
  let s : Quoted quote escape := ⟨p, rest ++ inside, ⟨quote, 0⟩, hp, hinside, rfl⟩
  refine ⟨inside ++ ⟨quote, 0⟩ :: more, ?_⟩
  have hwhole := (completes_string hd s hexpect more).mpr hmore
  simpa [s, Quoted.chars] using hwhole

/-! ## Reading -/

/-- Reading fails at the first character that cannot stand there, or at the end of what can be
completed: by induction over the steps of the reader. -/
theorem expects_value (hnothing : ∀ closing, expect = .nothing closing → False)
    (hcomma : expect = .commaOrClose → False) : expect = .valueOrClose ∨ expect = .value := by
  cases expect with
  | valueOrClose => exact .inl rfl
  | value => exact .inr rfl
  | commaOrClose => exact (hcomma rfl).elim
  | nothing closing => exact (hnothing closing rfl).elim

theorem elements_fails (hd : Delimits quote escape) {chars : List Placed} {error : Error}
    (h : elements quote escape stop expect chars = .error error) :
    ∃ span found, error = .unexpected span found ∧
      Fails quote escape stop expect chars span found := by
  fun_induction elements quote escape stop expect chars with
  | case1 => cases h
  | case2 expect =>
      cases h
      exact ⟨_, _, rfl, rfl, exists_completes quote escape expect⟩
  | case3 expect p rest hp ih =>
      obtain ⟨span, found, herror, hfails⟩ := ih h
      have hspace : IsSpace [p] := .cons hp .nil
      exact ⟨span, found, herror, hfails.skip hd (elements_space hspace)⟩
  | case4 p rest hp closing =>
      cases h
      exact ⟨_, _, rfl, .of_error hd fun more => by rw [elements, if_neg hp]⟩
  | case5 p rest hp hcomma ih =>
      obtain ⟨span, found, herror, hfails⟩ := ih h
      exact ⟨span, found, herror, hfails.skip hd (elements_comma hcomma)⟩
  | case6 p rest hp hcomma hclose ih =>
      obtain ⟨span, found, herror, hfails⟩ := ih h
      exact ⟨span, found, herror, hfails.skip hd (elements_close hclose (.inr rfl))⟩
  | case7 p rest hp hcomma hclose =>
      cases h
      refine ⟨_, _, rfl, .of_error hd fun more => ?_⟩
      rw [elements, if_neg hp, if_neg hcomma, if_neg hclose]
  | case8 expect p rest hp hclose _ _ ih =>
      rw [if_pos hclose] at h
      obtain ⟨span, found, herror, hfails⟩ := ih h
      exact ⟨span, found, herror, hfails.skip hd (elements_close hclose.1 (.inl hclose.2))⟩
  | case9 expect p rest hp hclose hquote hnone hnothing hcomma =>
      simp only [if_neg hclose, if_pos hquote] at h
      split at h
      · cases h
        exact ⟨_, _, rfl, rfl,
          completes_of_closeLiteral hd hquote (expects_value hnothing hcomma) hnone⟩
      · simp_all
  | case10 expect p rest hp hclose hquote value last rest' hread hnothing hcomma ih =>
      obtain ⟨inside, rfl, hlast, hinside⟩ := exists_of_closeLiteral hd hread
      simp only [if_neg hclose, if_pos hquote] at h
      split at h
      · simp_all
      · rename_i hread'
        rw [hread] at hread'
        cases hread'
        cases hrest : elements quote escape stop .commaOrClose rest' with
        | ok r =>
            rw [hrest] at h
            cases h
        | error error =>
            rw [hrest] at h
            cases h
            let s : Quoted quote escape := ⟨p, inside, last, hquote, hinside, hlast⟩
            obtain ⟨span, found, herror, hfails⟩ := ih hrest
            have hwhole := hfails.step
              (completes_string hd s (expects_value hnothing hcomma))
            exact ⟨span, found, herror, by simpa [s, Quoted.chars] using hwhole⟩
  | case11 expect p rest hp hclose hquote hnothing hcomma =>
      simp only [if_neg hclose, if_neg hquote] at h
      cases h
      refine ⟨_, _, rfl, .of_error hd fun more => ?_⟩
      rcases expects_value hnothing hcomma with rfl | rfl <;>
        simp_all [elements.eq_def _ _ _ _ (p :: more)]

/-! ## Whole arrays -/

theorem accepts_iff (hd : Delimits quote escape) {e : Excerpt} {front rest : List Placed}
    {opening : Placed} (hchars : e.chars = front ++ opening :: rest) (hfront : IsSpace front)
    (hopening : opening.char = '[') :
    Accepts quote escape e ↔ Completes quote escape .valueOrClose rest := by
  rw [Accepts, parse_bracket hchars hfront hopening, completes_iff hd e.stop]
  cases elements quote escape e.stop .valueOrClose rest <;> simp [Except.map]

theorem opens_of_parse {e : Excerpt} {span : Span} {found : Option Char}
    (h : parse quote escape e = .error (.unexpected span found)) : Opens e := by
  unfold parse at h
  have hsplit := @List.takeWhile_append_dropWhile _ (fun p : Placed => isSpace p.char) e.chars
  split at h
  · rename_i opening rest hdrop
    rw [hdrop] at hsplit
    split at h
    · rename_i hopening
      exact ⟨_, opening, rest, hsplit.symm, fun p hp =>
        (isSpace_iff _).mp (List.all_eq_true.mp List.all_takeWhile p hp), hopening⟩
    · cases h
  · cases h

theorem viable_iff (hd : Delimits quote escape) {front chars : List Placed} {opening : Placed}
    (hfront : IsSpace front) (hopening : opening.char = '[') :
    Viable quote escape (front ++ opening :: chars) ↔
      ∃ more, Completes quote escape .valueOrClose (chars ++ more) := by
  constructor
  · rintro ⟨e, ⟨more, hmore⟩, haccepts⟩
    have hchars : e.chars = front ++ opening :: (chars ++ more) := by simpa using hmore.symm
    exact ⟨more, (accepts_iff hd hchars hfront hopening).mp haccepts⟩
  · rintro ⟨more, hmore⟩
    refine ⟨⟨front ++ opening :: (chars ++ more), 0⟩, ⟨more, by simp⟩, ?_⟩
    exact (accepts_iff hd rfl hfront hopening).mpr hmore

theorem Viable.of_longer {a b : List Placed} (h : Viable quote escape b) (hab : a <+: b) :
    Viable quote escape a := by
  obtain ⟨e, hb, haccepts⟩ := h
  exact ⟨e, hab.trans hb, haccepts⟩

theorem Accepts.viable {e : Excerpt} (h : Accepts quote escape e) : Viable quote escape e.chars :=
  ⟨e, List.prefix_refl _, h⟩

theorem Fault.unique {chars a b : List Placed} {p q : Placed} (hp : Fault quote escape chars a p)
    (hq : Fault quote escape chars b q) : p = q := by
  have hle {a b : List Placed} {p q : Placed} (hp : Fault quote escape chars a p)
      (hq : Fault quote escape chars b q) : b.length ≤ a.length := by
    refine Nat.le_of_not_lt fun hlt => hp.fatal (hq.viable.of_longer ?_)
    exact List.prefix_of_prefix_length_le hp.stands ((List.prefix_append b [q]).trans hq.stands)
      (by rwa [List.length_append])
  have hlen : (a ++ [p]).length = (b ++ [q]).length := by
    have := hle hp hq
    have := hle hq hp
    simp only [List.length_append, List.length_singleton]
    omega
  have heq : a ++ [p] = b ++ [q] :=
    (List.prefix_of_prefix_length_le hp.stands hq.stands (Nat.le_of_eq hlen)).eq_of_length hlen
  exact (List.append_singleton_inj.mp heq).2

/-- What is reported of an array that fails: its first fault, or that it ends too early. -/
def Reports (quote escape : Char) (e : Excerpt) (span : Span) : Option Char → Prop
  | some c => ∃ before p, Fault quote escape e.chars before p ∧ p.char = c ∧ p.span = span
  | none => span = Span.empty e.stop ∧ ¬ Accepts quote escape e ∧ Viable quote escape e.chars

theorem reports_of_elements (hd : Delimits quote escape) {e : Excerpt} {front rest : List Placed}
    {opening : Placed} (hchars : e.chars = front ++ opening :: rest) (hfront : IsSpace front)
    (hopening : opening.char = '[') {error : Error}
    (h : elements quote escape e.stop .valueOrClose rest = .error error) :
    ∃ span found, error = .unexpected span found ∧ Reports quote escape e span found := by
  obtain ⟨span, found, rfl, hfails⟩ := elements_fails hd h
  refine ⟨span, found, rfl, ?_⟩
  cases found with
  | some c =>
      obtain ⟨inner, p, hprefix, hchar, hspan, hfails⟩ := hfails
      refine ⟨front ++ opening :: inner, p, ⟨?_, ?_, ?_⟩, hchar, hspan⟩
      · rw [hchars, List.append_assoc, List.cons_append]
        exact (List.prefix_append_right_inj front).mpr (List.cons_prefix_cons.mpr ⟨rfl, hprefix⟩)
      · exact (viable_iff hd hfront hopening).mpr hfails.completes
      · rw [List.append_assoc, List.cons_append, viable_iff hd hfront hopening]
        rintro ⟨more, hmore⟩
        rw [List.append_assoc] at hmore
        exact hfails.fatal more hmore
  | none =>
      obtain ⟨hspan, hmore⟩ := hfails
      refine ⟨hspan, ?_, ?_⟩
      · rw [accepts_iff hd hchars hfront hopening, completes_iff hd e.stop, h]
        rintro ⟨r, ⟨⟩⟩
      · rw [hchars]
        exact (viable_iff hd hfront hopening).mpr hmore

theorem Reports.unique {e : Excerpt} {span span' : Span} {found found' : Option Char}
    (h : Reports quote escape e span found) (h' : Reports quote escape e span' found') :
    span = span' ∧ found = found' := by
  cases found with
  | some c =>
      obtain ⟨before, p, hp, rfl, rfl⟩ := h
      cases found' with
      | some c' =>
          obtain ⟨before', q, hq, rfl, rfl⟩ := h'
          obtain rfl := hp.unique hq
          exact ⟨rfl, rfl⟩
      | none => exact absurd (h'.2.2.of_longer hp.stands) hp.fatal
  | none =>
      cases found' with
      | some c' =>
          obtain ⟨before', q, hq, -⟩ := h'
          exact absurd (h.2.2.of_longer hq.stands) hq.fatal
      | none => exact ⟨h.1.trans h'.1.symm, rfl⟩

theorem Reports.not_accepts {e : Excerpt} {span : Span} {found : Option Char}
    (h : Reports quote escape e span found) : ¬ Accepts quote escape e := by
  cases found with
  | some c =>
      obtain ⟨before, p, hp, -⟩ := h
      exact fun haccepts => hp.fatal (haccepts.viable.of_longer hp.stands)
  | none => exact h.2.1

theorem parse_unexpected_iff (hd : Delimits quote escape) (e : Excerpt) (span : Span)
    (found : Option Char) :
    parse quote escape e = .error (.unexpected span found) ↔
      Opens e ∧ Reports quote escape e span found := by
  constructor
  · intro h
    have hopens := opens_of_parse h
    refine ⟨hopens, ?_⟩
    obtain ⟨front, opening, rest, hchars, hfront, hopening⟩ := hopens
    rw [parse_bracket hchars hfront hopening] at h
    cases helements : elements quote escape e.stop .valueOrClose rest with
    | ok r =>
        rw [helements] at h
        cases h
    | error error =>
        rw [helements] at h
        cases h
        obtain ⟨_, _, heq, hreports⟩ := reports_of_elements hd hchars hfront hopening helements
        cases heq
        exact hreports
  · rintro ⟨⟨front, opening, rest, hchars, hfront, hopening⟩, hreports⟩
    rw [parse_bracket hchars hfront hopening]
    cases helements : elements quote escape e.stop .valueOrClose rest with
    | ok r =>
        refine absurd ?_ hreports.not_accepts
        rw [accepts_iff hd hchars hfront hopening, completes_iff hd e.stop]
        exact ⟨r, helements⟩
    | error error =>
        obtain ⟨_, _, rfl, hreports'⟩ := reports_of_elements hd hchars hfront hopening helements
        obtain ⟨rfl, rfl⟩ := hreports.unique hreports'
        rfl

end Faults

/-- Reading a text that a bracket opens reports a character exactly if it is the first that no array
can have there: what is in front of it begins an array, and what ends with it does not. It reports
the end of the text exactly if that is no array but begins one. -/
theorem parse_eq_unexpected_iff {quote escape : Char} (hq : quote = '"' ∨ quote = '\x27')
    (he : escape = '\\' ∨ escape = '\x60') (e : Excerpt) (span : Span) :
    (∀ c, parse quote escape e = .error (.unexpected span (some c)) ↔
      Opens e ∧ ∃ before p, Fault quote escape e.chars before p ∧ p.char = c ∧ p.span = span) ∧
    (parse quote escape e = .error (.unexpected span none) ↔
      Opens e ∧ span = Span.empty e.stop ∧ ¬ Accepts quote escape e ∧
        Viable quote escape e.chars) :=
  ⟨fun c => parse_unexpected_iff (delimits hq he) e span (some c),
    parse_unexpected_iff (delimits hq he) e span none⟩

/-- A string in the next line with no comma in front of it, and a string that ends behind the escape
character. -/
theorem parse_eq_unexpected_iff_comma :
    (parse '"' '\\' ⟨Text.place 4 "[\"a\"".toList ++ Text.place 11 "\"b\"]".toList, 4⟩ =
        .error (.unexpected ⟨11, 12⟩ (some '"')) ∧
      ∃ before p, Fault '"' '\\' (Text.place 4 "[\"a\"".toList ++ Text.place 11 "\"b\"]".toList)
        before p ∧ p.char = '"' ∧ p.span = ⟨11, 12⟩) ∧
    (parse '"' '\\' (Excerpt.ofText 4 "[\"a\\".toList) = .error (.unexpected ⟨8, 8⟩ none) ∧
      Viable '"' '\\' (Excerpt.ofText 4 "[\"a\\".toList).chars) := by
  have hcomma : parse '"' '\\' ⟨Text.place 4 "[\"a\"".toList ++ Text.place 11 "\"b\"]".toList, 4⟩ =
      .error (.unexpected ⟨11, 12⟩ (some '"')) := by
    decide +kernel
  have hend : parse '"' '\\' (Excerpt.ofText 4 "[\"a\\".toList) =
      .error (.unexpected ⟨8, 8⟩ none) := by
    decide +kernel
  exact ⟨⟨hcomma, (((parse_eq_unexpected_iff (.inl rfl) (.inl rfl) _ _).1 _).mp hcomma).2⟩, hend,
    ((parse_eq_unexpected_iff (.inl rfl) (.inl rfl) _ _).2.mp hend).2.2.2⟩

end StringArray

end Dockerfile
