import Dockerfile.Proofs.Quoting.Reading
import Dockerfile.Proofs.Scope.Identifiers
import Dockerfile.Proofs.Text.Widening

/-!
# Which dollar signs start a substitution

Substitutions are looked for by a reader of its own, which knows single quotes and escapes and takes
a double quote for an ordinary character. In a text without braces it finds exactly the dollar signs
in front of a name that are neither escaped nor in single quotes, if quotes are read that way
(`Substitution.scanFrom_eq`). Arguments are split with double quotes; both readings agree up to the
first single quote in double quotes (`Quoting.Agrees.after`), and behind it they may not
(`Substitution.scan_apostrophe`).
-/

namespace Dockerfile

namespace Quoting

/-- Nothing keeps a dollar sign from starting a substitution. -/
def Expands (s : Quoting) : Prop :=
  s.escaped = false ∧ ∀ q ∈ s.quote, q.char ≠ '\x27'

instance (s : Quoting) : Decidable s.Expands :=
  inferInstanceAs (Decidable (s.escaped = false ∧ ∀ q ∈ s.quote, q.char ≠ '\x27'))

/-- No single quote stands in double quotes, unless it is escaped. -/
def Unmixed (escape : Char) (s : Quoting) : List Placed → Prop
  | [] => True
  | p :: rest =>
      (p.char = '\x27' → s.escaped = false → ∀ q ∈ s.quote, q.char = '\x27') ∧
        Unmixed escape (s.next quoteMarks escape p) rest

instance decidableUnmixed (escape : Char) : (s : Quoting) → (chars : List Placed) →
    Decidable (Unmixed escape s chars)
  | _, [] => inferInstanceAs (Decidable True)
  | s, p :: rest =>
      have := decidableUnmixed escape (s.next quoteMarks escape p) rest
      inferInstanceAs (Decidable (_ ∧ _))

/-- The second reading is the first without its double quotes. -/
structure Agrees (s t : Quoting) : Prop where
  escaped : t.escaped = s.escaped
  quote : t.quote = s.quote.filter fun q => q.char == '\x27'

theorem Agrees.expands_iff {s t : Quoting} (h : Agrees s t) : t.Expands ↔ s.Expands := by
  rw [Expands, Expands, h.escaped, h.quote]
  cases hquote : s.quote with
  | none => simp
  | some q => by_cases hq : q.char = '\x27' <;> simp [hq]

theorem Agrees.next {escape : Char} (hescape : escape = '\\' ∨ escape = '\x60') {s t : Quoting}
    (h : Agrees s t) (hs : ∀ q ∈ s.quote, q.char ∈ quoteMarks) {p : Placed}
    (hp : p.char = '\x27' → s.escaped = false → ∀ q ∈ s.quote, q.char = '\x27') :
    Agrees (s.next quoteMarks escape p) (t.next ['\x27'] escape p) := by
  have hescape' : '"' ≠ escape := by rcases hescape with rfl | rfl <;> decide
  obtain ⟨open?, mute⟩ := s
  obtain ⟨open?', mute'⟩ := t
  obtain ⟨rfl, rfl⟩ : mute' = mute ∧ open?' = open?.filter fun q => q.char == '\x27' :=
    ⟨h.escaped, h.quote⟩
  cases mute' with
  | true => exact ⟨rfl, rfl⟩
  | false =>
      cases open? with
      | none =>
          by_cases hdouble : p.char = '"'
          · constructor <;> simp [Quoting.next, Option.filter, mem_quoteMarks, hdouble, hescape']
          · by_cases hsingle : p.char = '\x27'
            · constructor <;> simp [Quoting.next, Option.filter, mem_quoteMarks, hsingle]
            · constructor <;> simp [Quoting.next, mem_quoteMarks, hdouble, hsingle]
      | some q =>
          rcases mem_quoteMarks.mp (hs q rfl) with hq | hq
          · -- In double quotes the second reading sees no quote.
            have hsingle : p.char ≠ '\x27' := by
              intro hp'
              have := hp hp' rfl q rfl
              rw [hq] at this
              cases this
            by_cases hclose : p.char = '"'
            · constructor <;> simp [Quoting.next, Option.filter, hq, hclose, hescape', bare]
            · constructor <;> simp [Quoting.next, Option.filter, hq, hclose, hsingle]
          · by_cases hclose : p.char = '\x27'
            · constructor <;> simp [Quoting.next, Option.filter, hq, hclose, bare]
            · constructor <;> simp [Quoting.next, Option.filter, hq, hclose]

/-- Up to the first single quote in double quotes both readings agree. -/
theorem Agrees.after {escape : Char} (hescape : escape = '\\' ∨ escape = '\x60') {s t : Quoting}
    (h : Agrees s t) (hs : ∀ q ∈ s.quote, q.char ∈ quoteMarks) {chars : List Placed}
    (hchars : Unmixed escape s chars) :
    Agrees (s.after quoteMarks escape chars) (t.after ['\x27'] escape chars) := by
  induction chars generalizing s t with
  | nil => exact h
  | cons p chars ih =>
      exact ih (h.next hescape hs hchars.1) (mem_marks_of_quote hs [p]) hchars.2

end Quoting

open Quoting

namespace Substitution

def first? : List Placed → Option Substitution
  | p :: q :: rest =>
      if p.char = '$' ∧ isNameStart q.char = true then
        let name := (q :: rest).takeWhile fun r => isNameChar r.char
        some ⟨name, p :: name⟩
      else none
  | _ => none

/-- The substitutions without braces that start where nothing keeps them from it, if double quotes
mean nothing. -/
def unbraced (escape : Char) (s : Quoting) : List Placed → List Substitution
  | [] => []
  | p :: rest =>
      (if s.Expands then (first? (p :: rest)).toList else []) ++
        unbraced escape (s.next ['\x27'] escape p) rest

theorem mem_unbraced_iff {escape : Char} {s : Quoting} {chars : List Placed} {x : Substitution} :
    x ∈ unbraced escape s chars ↔ ∃ front rest, chars = front ++ rest ∧
      (s.after ['\x27'] escape front).Expands ∧ first? rest = some x := by
  induction chars generalizing s with
  | nil =>
      refine ⟨fun h => absurd h List.not_mem_nil, ?_⟩
      rintro ⟨front, rest, h, -, hfirst⟩
      obtain ⟨rfl, rfl⟩ := List.append_eq_nil_iff.mp h.symm
      cases hfirst
  | cons p chars ih =>
      rw [unbraced, List.mem_append, ih]
      constructor
      · rintro (h | ⟨front, rest, rfl, hexpands, hfirst⟩)
        · split at h
          · rename_i hexpands
            exact ⟨[], p :: chars, rfl, hexpands, Option.mem_toList.mp h⟩
          · cases h
        · exact ⟨p :: front, rest, rfl, hexpands, hfirst⟩
      · rintro ⟨front, rest, h, hexpands, hfirst⟩
        cases front with
        | nil =>
            obtain rfl : p :: chars = rest := h
            refine .inl ?_
            rw [if_pos (show s.Expands from hexpands), hfirst]
            exact List.mem_singleton.mpr rfl
        | cons q front =>
            obtain ⟨rfl, rfl⟩ := List.cons.inj h
            exact .inr ⟨front, rest, rfl, hexpands, hfirst⟩

theorem first?_of_ne {p : Placed} (h : p.char ≠ '$') (rest : List Placed) :
    first? (p :: rest) = none := by
  cases rest with
  | nil => rfl
  | cons q rest => exact if_neg fun hp => h hp.1

theorem span_start_of_first? {offset : Nat} {text : Text} {x : Substitution}
    (h : first? (Text.place offset text) = some x) : x.span.start = offset := by
  unfold first? at h
  split at h
  · rename_i p q rest hchars
    split at h
    · cases h
      cases text with
      | nil => cases hchars
      | cons c text => exact congrArg Placed.offset (List.cons.inj hchars).1.symm
    · cases h
  · cases h

section Scan

variable {escape : Char} (hescape : escape = '\\' ∨ escape = '\x60')
include hescape

theorem plain_of_isNameChar {c : Char} (h : isNameChar c = true) :
    c ≠ '$' ∧ c ∉ ['\x27'] ∧ c ≠ escape := by
  refine ⟨ne_of_isNameChar h rfl, by simpa using ne_of_isNameChar h rfl, ?_⟩
  rcases hescape with rfl | rfl <;> exact ne_of_isNameChar h rfl

theorem unbraced_dropWhile (chars : List Placed) :
    unbraced escape bare (chars.dropWhile fun r => isNameChar r.char) =
      unbraced escape bare chars := by
  induction chars with
  | nil => rfl
  | cons p chars ih =>
      by_cases hname : isNameChar p.char = true
      · obtain ⟨hdollar, hmark, hne⟩ := plain_of_isNameChar hescape hname
        rw [List.dropWhile_cons, if_pos hname, ih, unbraced, first?_of_ne hdollar,
          next_plain hmark hne]
        simp
      · rw [List.dropWhile_cons, if_neg hname]

/-- Without braces the reader finds the substitutions that start where nothing keeps them from it. -/
theorem scanFrom_eq {s : Quoting} (hs : s.escaped = false) (hmark : ∀ q ∈ s.quote, q.char = '\x27')
    {chars : List Placed} (hbrace : ∀ p ∈ chars, p.char ≠ '\x7b') :
    scanFrom escape s.quote.isSome chars = unbraced escape s chars := by
  have hascii : escape.toNat < 128 := by rcases hescape with rfl | rfl <;> decide
  have hquote : escape ≠ '\x27' ∧ escape ≠ '$' := by rcases hescape with rfl | rfl <;> decide
  have hexpands : bare.Expands := ⟨rfl, by simp [bare]⟩
  generalize hquoted : s.quote.isSome = quoted
  fun_induction scanFrom escape quoted chars generalizing s with
  | case1 => rfl
  | case2 p rest ih =>
      obtain ⟨q, hq⟩ := Option.isSome_iff_exists.mp hquoted
      obtain rfl : s = ⟨some q, false⟩ := by rw [← hq, ← hs]
      have hchar : q.char = '\x27' := hmark q rfl
      have hexpands : ¬ (⟨some q, false⟩ : Quoting).Expands := fun h => h.2 q rfl hchar
      have htail : ∀ r ∈ rest, r.char ≠ '\x7b' := fun r hr => hbrace r (List.mem_cons_of_mem _ hr)
      rw [unbraced, if_neg hexpands, List.nil_append]
      by_cases hclose : p.char = '\x27'
      · rw [next_close (hclose.trans hchar.symm)]
        exact ih rfl (by simp [bare]) htail (by simp [hclose, bare])
      · rw [next_quoted_plain (by rwa [hchar]) (by simp [hchar])]
        exact ih rfl hmark htail (by simp [hclose])
  | case3 quoted p rest hq hesc ih =>
      obtain rfl := eq_bare hs (Option.not_isSome_iff_eq_none.mp (hquoted ▸ hq))
      rw [unbraced, first?_of_ne (by rw [hesc.1]; exact hquote.2),
        next_escape (by simpa [hesc.1] using hquote.1) hesc.1]
      cases rest with
      | nil => simp [scanFrom, unbraced]
      | cons r rest =>
          have hexpands : ¬ (⟨none, true⟩ : Quoting).Expands := fun h => Bool.noConfusion h.1
          have hrest := @ih bare rfl (by simp [bare])
            (fun r hr => hbrace r (List.mem_cons_of_mem _ (List.mem_cons_of_mem _ hr))) rfl
          simp only [List.tail_cons] at hrest ⊢
          rw [hrest, unbraced, if_neg hexpands]
          simp only [Option.toList_none, ite_self, List.nil_append]
          rfl
  | case4 quoted p rest hq hesc hp ih =>
      obtain rfl := eq_bare hs (Option.not_isSome_iff_eq_none.mp (hquoted ▸ hq))
      rw [unbraced, first?_of_ne (by rw [hp]; decide), next_mark (by simp [hp])]
      simp only [Option.toList_none, ite_self, List.nil_append]
      exact ih rfl (by rintro q ⟨⟩; exact hp)
        (fun r hr => hbrace r (List.mem_cons_of_mem _ hr)) rfl
  | case5 => simp [unbraced, first?]
  | case6 quoted p hq hesc hp hd q body =>
      exact absurd ‹q.char = '\x7b'› (hbrace q (by simp))
  | case7 quoted p hq hesc hp hd q body =>
      rename_i hstart name ih
      obtain rfl := eq_bare hs (Option.not_isSome_iff_eq_none.mp (hquoted ▸ hq))
      have hrest := @ih bare rfl (by simp [bare])
        (fun r hr => hbrace r (List.mem_cons_of_mem _ (List.dropWhile_subset _ hr))) rfl
      have hnext : bare.next ['\x27'] escape p = bare :=
        next_plain (by simpa using hp) (fun h => hesc ⟨h, hascii⟩)
      rw [hrest, unbraced_dropWhile hescape, unbraced.eq_def escape bare (p :: q :: body)]
      simp only [hnext, if_pos hexpands, first?, if_pos (And.intro hd hstart)]
      rfl
  | case8 quoted p hq hesc hp hd q body hb hstart ih =>
      obtain rfl := eq_bare hs (Option.not_isSome_iff_eq_none.mp (hquoted ▸ hq))
      have hnext : bare.next ['\x27'] escape p = bare :=
        next_plain (by simpa using hp) (fun h => hesc ⟨h, hascii⟩)
      rw [@ih bare rfl (by simp [bare]) (fun r hr => hbrace r (List.mem_cons_of_mem _ hr)) rfl,
        unbraced.eq_def escape bare (p :: q :: body)]
      simp only [hnext, first?, if_neg (fun h : p.char = '$' ∧ isNameStart q.char = true =>
        hstart h.2), Option.toList_none, ite_self, List.nil_append]
  | case9 quoted p rest hq hesc hp hd ih =>
      obtain rfl := eq_bare hs (Option.not_isSome_iff_eq_none.mp (hquoted ▸ hq))
      have hnext : bare.next ['\x27'] escape p = bare :=
        next_plain (by simpa using hp) (fun h => hesc ⟨h, hascii⟩)
      rw [@ih bare rfl (by simp [bare]) (fun r hr => hbrace r (List.mem_cons_of_mem _ hr)) rfl,
        unbraced, first?_of_ne hd, hnext]
      simp only [Option.toList_none, ite_self, List.nil_append]

/-- In a text without braces, a substitution is found at a dollar sign in front of a name if and
only if the dollar sign is neither escaped nor in single quotes. Quotes are read without double
quotes for this; that makes no difference if no single quote in front stands in double quotes. -/
theorem scan_starts_iff {front rest : Text} {c : Char} (hname : isNameStart c = true)
    (hbrace : '\x7b' ∉ front ++ '$' :: c :: rest) :
    let found := ∃ s ∈ scan escape (Text.place 0 (front ++ '$' :: c :: rest)),
      s.span.start = Text.byteLength front
    (found ↔ (bare.after ['\x27'] escape (Text.place 0 front)).Expands) ∧
      (Unmixed escape bare (Text.place 0 front) →
        (found ↔ (bare.after quoteMarks escape (Text.place 0 front)).Expands)) := by
  have hfound : (∃ s ∈ scan escape (Text.place 0 (front ++ '$' :: c :: rest)),
      s.span.start = Text.byteLength front) ↔
        (bare.after ['\x27'] escape (Text.place 0 front)).Expands := by
    have hbrace' : ∀ p ∈ Text.place 0 (front ++ '$' :: c :: rest), p.char ≠ '\x7b' :=
      fun p hp heq => hbrace (heq ▸ Text.char_mem_of_mem_place hp)
    rw [scan, show false = bare.quote.isSome from rfl, scanFrom_eq hescape rfl (by simp [bare]) hbrace']
    constructor
    · rintro ⟨x, hx, hstart⟩
      obtain ⟨a, b, hplace, hexpands, hfirst⟩ := mem_unbraced_iff.mp hx
      obtain ⟨htext, ha, hb⟩ := Text.split_of_place_eq hplace
      rw [hb, Nat.zero_add] at hfirst
      rw [span_start_of_first? hfirst] at hstart
      obtain ⟨rfl, -⟩ := Text.eq_of_byteLength_eq htext hstart.symm
      rwa [← ha]
    · intro hexpands
      have hfirst : first? (Text.place (Text.byteLength front) ('$' :: c :: rest)) = some _ :=
        if_pos ⟨rfl, hname⟩
      refine ⟨_, mem_unbraced_iff.mpr ⟨_, _, ?_, hexpands, hfirst⟩, span_start_of_first? hfirst⟩
      rw [Text.place_append, Nat.zero_add]
  refine ⟨hfound, fun hfree => hfound.trans ?_⟩
  have hagrees : Agrees bare bare := ⟨rfl, rfl⟩
  exact (hagrees.after hescape (by simp [bare]) hfree).expands_iff

end Scan

/-- Behind a part in single quotes, a double quote and an escaped single quote, a dollar sign starts a
substitution. -/
theorem scan_starts_mixed :
    let front := ['\x27', '$', 'u', '\x27', '"', '\\', '\x27']
    '\x7b' ∉ front ++ '$' :: 'x' :: ['"'] ∧ Unmixed '\\' bare (Text.place 0 front) ∧
      ∃ s ∈ scan '\\' (Text.place 0 (front ++ '$' :: 'x' :: ['"'])), s.span.start = 7 :=
  ⟨by decide, by decide,
    ((scan_starts_iff (.inl rfl) (by decide) (by decide)).2 (by decide)).mpr (by decide)⟩

/-- In `"'$x"` the single quote is one that is quoted, so that nothing keeps the dollar sign from
starting a substitution. None is found. -/
theorem scan_apostrophe :
    ¬ ((∃ s ∈ scan '\\' (Text.place 0 ['"', '\x27', '$', 'x', '"']), s.span.start = 2) ↔
      (bare.after quoteMarks '\\' (Text.place 0 ['"', '\x27'])).Expands) := by
  decide +kernel

end Substitution

end Dockerfile
