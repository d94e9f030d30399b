import Dockerfile.Proofs.Scope.Identifiers
import Dockerfile.Proofs.Checked.Instruction

/-!
# Variable substitutions, access by access

Substitutions are found by looking at the bytes of a text one after the other. Behind an escape
character two bytes are passed, which may lead into the middle of a character; but none of the bytes
of such a character has a meaning (`Checked.exists_byteAt`), so it is left behind as one. The numbers
of the bytes that are found are those between which the characters of `Substitution.scan` stand.
-/

namespace Dockerfile

namespace Checked

/-- The bytes of a substitution: those of the name, and all of them. -/
structure RawReference where
  nameStart : Nat
  nameStop : Nat
  start : Nat
  stop : Nat

def nameStop (text : Text) (index limit : Nat) : Checked Nat := do
  if index < limit then
    if Substitution.isNameChar (← byteAt text index) then nameStop text (index + 1) limit
    else return index
  else return index
termination_by limit - index

def closing (text : Text) (depth index limit : Nat) : Checked Nat := do
  if index < limit then
    let c ← byteAt text index
    if c = '\x7b' then closing text (depth + 1) (index + 1) limit
    else if c = '\x7d' then
      if depth = 0 then return index else closing text (depth - 1) (index + 1) limit
    else closing text depth (index + 1) limit
  else return index
termination_by limit - index

def byteBefore? (text : Text) (index limit : Nat) : Checked (Option Char) := do
  if index < limit then return some (← byteAt text index) else return none

def scanFrom (text : Text) (escape : Char) (quoted : Bool) (index limit : Nat) :
    Checked (List RawReference) := do
  if index < limit then
    let c ← byteAt text index
    if quoted then scanFrom text escape (c != '\x27') (index + 1) limit
    else if c = escape ∧ escape.toNat < 128 then scanFrom text escape false (index + 2) limit
    else if c = '\x27' then scanFrom text escape true (index + 1) limit
    else if c = '$' then
      match ← byteBefore? text (index + 1) limit with
      | some d =>
          if d = '\x7b' then
            let nameStop ← nameStop text (index + 2) limit
            let named := (← byteBefore? text (index + 2) nameStop).any Substitution.isNameStart
            let close ← closing text 0 nameStop limit
            let stop := if close < limit then close + 1 else limit
            let inside ← onward limit index nameStop
            let inner ← scanFrom text escape false inside.1 (min close limit)
            let next ← onward limit index stop
            let later ← scanFrom text escape false next.1 limit
            return (if named then [⟨index + 2, nameStop, index, stop⟩] else []) ++ inner ++ later
          else if Substitution.isNameStart d then
            let nameStop ← nameStop text (index + 1) limit
            let next ← onward limit index nameStop
            let later ← scanFrom text escape false next.1 limit
            return ⟨index + 1, nameStop, index, nameStop⟩ :: later
          else scanFrom text escape false (index + 1) limit
      | none => scanFrom text escape false (index + 1) limit
    else scanFrom text escape false (index + 1) limit
  else return []
termination_by limit - index
decreasing_by
  · omega
  · omega
  · omega
  · have := inside.2
    omega
  · have := next.2
    omega
  · have := next.2
    omega
  all_goals omega

/-! ## Bytes with a meaning -/

theorem utf8Size_of_lt {c : Char} (h : c.toNat < 128) : c.utf8Size = 1 :=
  Char.utf8Size_eq_one_iff.mpr (UInt32.le_iff_toNat_le.mpr (Nat.le_of_lt_succ h))

theorem lt_of_isNameChar {c : Char} (h : Substitution.isNameChar c = true) : c.toNat < 128 := by
  delta Substitution.isNameChar Char.isAlphanum Char.isAlpha Char.isUpper Char.isLower
    Char.isDigit at h
  simp only [Bool.or_eq_true, Bool.and_eq_true, decide_eq_true_eq, beq_iff_eq,
    UInt32.le_iff_toNat_le, ge_iff_le] at h
  have htoNat : c.toNat = c.val.toNat := rfl
  have hZ : 'Z'.val.toNat = 90 := rfl
  have hz : 'z'.val.toNat = 122 := rfl
  have h9 : '9'.val.toNat = 57 := rfl
  rcases h with h | rfl
  · omega
  · decide

section Steps

variable {whole a b : List Placed} {p : Placed}

theorem exists_byteAt_placed (h : whole = a ++ p :: b) {i : Nat} (hi : i < p.size) :
    ∃ d, byteAt (Placed.text whole) (total Placed.size a + i) = .ok d ∧
      (p.size = 1 ∧ d = p.char ∨ p.size ≠ 1 ∧ 128 ≤ d.toNat) := by
  have hbyte := exists_byteAt (Placed.text a) p.char (Placed.text b) hi
  rw [h, Placed.text_append, Placed.text_cons, Placed.total_size]
  exact hbyte

theorem byteAt_placed (h : whole = a ++ p :: b) (hsize : p.size = 1) :
    byteAt (Placed.text whole) (total Placed.size a) = .ok p.char := by
  obtain ⟨d, hd, ⟨-, rfl⟩ | ⟨hne, -⟩⟩ := exists_byteAt_placed h p.size_pos
  · exact hd
  · exact absurd hsize hne

/-- If each byte of a character is passed alone, the character is passed. -/
theorem steps_to_end {α : Type} {f : Nat → α} {start size first : Nat} (hle : first ≤ size)
    (hstep : ∀ i, first ≤ i → i < size → f (start + i) = f (start + i + 1)) :
    f (start + first) = f (start + size) := by
  suffices key : ∀ rest i, first ≤ i → i + rest = size → f (start + i) = f (start + size) from
    key (size - first) first (Nat.le_refl _) (by omega)
  intro rest
  induction rest with
  | zero =>
      intro i _ hi
      rw [← hi, Nat.add_zero]
  | succ rest ih =>
      intro i hfirst hi
      rw [hstep i hfirst (by omega)]
      exact ih (i + 1) (by omega) (by omega)

end Steps

/-! ## The bytes of a name -/

section Loops

variable {whole a b c : List Placed} {p : Placed} {limit : Nat}

theorem nameStop_eq {chars : List Placed} (h : whole = a ++ (chars ++ c))
    (hlimit : limit = total Placed.size a + total Placed.size chars) :
    nameStop (Placed.text whole) (total Placed.size a) limit = .ok (total Placed.size a +
      total Placed.size (chars.takeWhile fun p => Substitution.isNameChar p.char)) := by
  induction chars generalizing a with
  | nil =>
      rw [nameStop, if_neg (by rw [hlimit]; simp)]
      rfl
  | cons p rest ih =>
      have hpos := p.size_pos
      obtain ⟨d, hd, hcases⟩ := exists_byteAt_placed (i := 0) h hpos
      rw [Nat.add_zero] at hd
      rw [nameStop, if_pos (by rw [hlimit, total_cons]; omega), hd, ok_bind]
      cases hp : Substitution.isNameChar p.char with
      | true =>
          have hsize : p.size = 1 := utf8Size_of_lt (lt_of_isNameChar hp)
          obtain ⟨-, rfl⟩ | ⟨hne, -⟩ := hcases
          · have hnext := ih (a := a ++ [p]) (by rw [h]; simp) (by rw [hlimit]; simp; omega)
            rw [total_append, total_cons, total_nil, hsize] at hnext
            rw [hp, if_pos rfl, List.takeWhile_cons_of_pos (by simpa using hp), total_cons, hsize,
              hnext, Nat.add_assoc]
          · exact absurd hsize hne
      | false =>
          have hd' : Substitution.isNameChar d = false := by
            obtain ⟨-, rfl⟩ | ⟨-, hle⟩ := hcases
            · exact hp
            · exact Bool.eq_false_iff.mpr fun hname => absurd (lt_of_isNameChar hname) (by omega)
          rw [hd', List.takeWhile_cons_of_neg (by simp [hp])]
          rfl

theorem closing_of_other (h : whole = a ++ (p :: b)) (depth : Nat)
    (hlimit : total Placed.size a + p.size ≤ limit) (hopen : p.char ≠ '\x7b')
    (hclose : p.char ≠ '\x7d') :
    closing (Placed.text whole) depth (total Placed.size a) limit =
      closing (Placed.text whole) depth (total Placed.size a + p.size) limit := by
  refine steps_to_end (f := fun i => closing (Placed.text whole) depth i limit) (Nat.zero_le _) ?_
  intro i _ hi
  obtain ⟨d, hd, hcases⟩ := exists_byteAt_placed h hi
  have hother : d ≠ '\x7b' ∧ d ≠ '\x7d' := by
    obtain ⟨-, rfl⟩ | ⟨-, hle⟩ := hcases
    · exact ⟨hopen, hclose⟩
    · constructor <;> rintro rfl <;> exact absurd hle (by decide)
  show closing _ _ _ _ = closing _ _ _ _
  rw [closing, if_pos (by omega), hd, ok_bind, if_neg hother.1, if_neg hother.2]

theorem closing_eq {chars : List Placed} (h : whole = a ++ (chars ++ c)) (depth : Nat)
    (hlimit : limit = total Placed.size a + total Placed.size chars) :
    closing (Placed.text whole) depth (total Placed.size a) limit =
      .ok (total Placed.size a +
        total Placed.size (Substitution.splitClosing depth chars).1) := by
  have hbyte {p : Placed} {rest : List Placed} {a : List Placed}
      (h : whole = a ++ (p :: rest ++ c)) (hp : p.char.toNat < 128) :
      byteAt (Placed.text whole) (total Placed.size a) = .ok p.char ∧ p.size = 1 :=
    ⟨byteAt_placed h (utf8Size_of_lt hp), utf8Size_of_lt hp⟩
  have hnext {p : Placed} {rest a : List Placed} (h : whole = a ++ (p :: rest ++ c))
      (hlimit : limit = total Placed.size a + total Placed.size (p :: rest)) :
      whole = (a ++ [p]) ++ (rest ++ c) ∧
        limit = total Placed.size (a ++ [p]) + total Placed.size rest ∧
        total Placed.size (a ++ [p]) = total Placed.size a + p.size ∧
        total Placed.size a < limit :=
    ⟨by rw [h]; simp, by rw [hlimit]; simp; omega, by simp,
      by have := p.size_pos; rw [hlimit, total_cons]; omega⟩
  fun_induction Substitution.splitClosing depth chars generalizing a with
  | case1 =>
      rw [closing, if_neg (by rw [hlimit]; simp)]
      rfl
  | case2 depth p rest hp =>
      rename_i next ih
      obtain ⟨hwhole, hlimit', hsize', hlt⟩ := hnext h hlimit
      obtain ⟨hd, hsize⟩ := hbyte h (by rw [hp]; decide)
      have hlater := ih hwhole hlimit'
      rw [hsize', hsize] at hlater
      rw [closing, if_pos hlt, hd, ok_bind, if_pos hp, hlater]
      simp only [next, total_cons, hsize, Nat.add_assoc]
  | case3 p rest hp hq =>
      obtain ⟨-, -, -, hlt⟩ := hnext h hlimit
      obtain ⟨hd, hsize⟩ := hbyte h (by rw [hq]; decide)
      rw [closing, if_pos hlt, hd, ok_bind, if_neg hp, if_pos hq, if_pos rfl]
      rfl
  | case4 p rest hp hq depth =>
      rename_i next ih
      obtain ⟨hwhole, hlimit', hsize', hlt⟩ := hnext h hlimit
      obtain ⟨hd, hsize⟩ := hbyte h (by rw [hq]; decide)
      have hlater := ih hwhole hlimit'
      rw [hsize', hsize] at hlater
      rw [closing, if_pos hlt, hd, ok_bind, if_neg hp, if_pos hq, if_neg (Nat.succ_ne_zero _),
        Nat.succ_sub_one, hlater]
      simp only [next, total_cons, hsize, Nat.add_assoc]
  | case5 depth p rest hp hq =>
      rename_i next ih
      obtain ⟨hwhole, hlimit', hsize', -⟩ := hnext h hlimit
      have hlater := ih hwhole hlimit'
      rw [hsize'] at hlater
      rw [closing_of_other h depth (by rw [hlimit, total_cons]; omega) hp hq, hlater]
      simp only [next, total_cons, Nat.add_assoc]

end Loops

/-! ## All bytes -/

/-- The bytes are those of the characters, in the text of `whole`. -/
structure Refers (whole : List Placed) (raw : RawReference) (s : Substitution) : Prop where
  name : ∃ a c, whole = a ++ (s.name ++ c) ∧ raw.nameStart = total Placed.size a ∧
    raw.nameStop = total Placed.size a + total Placed.size s.name
  all : ∃ a c, whole = a ++ (s.whole ++ c) ∧ raw.start = total Placed.size a ∧
    raw.stop = total Placed.size a + total Placed.size s.whole
  name_ne_nil : s.name ≠ []
  all_ne_nil : s.whole ≠ []

section Scan

variable {whole a b c : List Placed} {p : Placed} {escape : Char} {limit : Nat}

/-- The bytes without a meaning: all but a quote in quotes, and outside all but the escape character,
the quote and the dollar sign. -/
def IsPlain (escape : Char) (quoted : Bool) (c : Char) : Prop :=
  c ≠ '\x27' ∧ (quoted = false → ¬(c = escape ∧ escape.toNat < 128) ∧ c ≠ '$')

theorem isPlain_of_le {d : Char} (h : 128 ≤ d.toNat) (escape : Char) (quoted : Bool) :
    IsPlain escape quoted d := by
  refine ⟨?_, fun _ => ⟨?_, ?_⟩⟩
  · rintro rfl
    exact absurd h (by decide)
  · rintro ⟨rfl, hlt⟩
    omega
  · rintro rfl
    exact absurd h (by decide)

theorem scanFrom_of_plain {text : Text} {quoted : Bool} {index : Nat} {d : Char}
    (hlt : index < limit) (hbyte : byteAt text index = .ok d) (hd : IsPlain escape quoted d) :
    scanFrom text escape quoted index limit = scanFrom text escape quoted (index + 1) limit := by
  rw [scanFrom, if_pos hlt, hbyte, ok_bind]
  cases quoted with
  | true =>
      have hquote : (d != '\x27') = true := by simpa using hd.1
      rw [if_pos rfl, hquote]
  | false =>
      obtain ⟨hescape, hdollar⟩ := hd.2 rfl
      rw [if_neg (by decide), if_neg hescape, if_neg hd.1, if_neg hdollar]

/-- Inside a character nothing is found. -/
theorem scanFrom_inside (h : whole = a ++ (p :: b)) (quoted : Bool)
    (hlimit : total Placed.size a + p.size ≤ limit) :
    scanFrom (Placed.text whole) escape quoted (total Placed.size a + 1) limit =
      scanFrom (Placed.text whole) escape quoted (total Placed.size a + p.size) limit := by
  refine steps_to_end (f := fun i => scanFrom (Placed.text whole) escape quoted i limit)
    p.size_pos ?_
  intro i hpos hi
  obtain ⟨d, hd, ⟨hone, -⟩ | ⟨-, hle⟩⟩ := exists_byteAt_placed h hi
  · omega
  · exact scanFrom_of_plain (by omega) hd (isPlain_of_le hle escape quoted)

/-- A character without a meaning is passed. -/
theorem scanFrom_of_char (h : whole = a ++ (p :: b)) {quoted : Bool}
    (hlimit : total Placed.size a + p.size ≤ limit) (hp : IsPlain escape quoted p.char) :
    scanFrom (Placed.text whole) escape quoted (total Placed.size a) limit =
      scanFrom (Placed.text whole) escape quoted (total Placed.size (a ++ [p])) limit := by
  have hpos := p.size_pos
  obtain ⟨d, hd, hcases⟩ := exists_byteAt_placed (i := 0) h hpos
  rw [Nat.add_zero] at hd
  have hplain : IsPlain escape quoted d := by
    obtain ⟨-, rfl⟩ | ⟨-, hle⟩ := hcases
    · exact hp
    · exact isPlain_of_le hle escape quoted
  rw [scanFrom_of_plain (by omega) hd hplain, scanFrom_inside h quoted hlimit, total_append,
    total_cons, total_nil, Nat.add_zero]

theorem behind_char {rest : List Placed} (h : whole = a ++ (p :: rest ++ c))
    (hlimit : limit = total Placed.size a + total Placed.size (p :: rest)) :
    whole = (a ++ [p]) ++ (rest ++ c) ∧
      limit = total Placed.size (a ++ [p]) + total Placed.size rest ∧
      total Placed.size (a ++ [p]) = total Placed.size a + p.size ∧ total Placed.size a < limit := by
  have hpos := p.size_pos
  have hsize : total Placed.size (a ++ [p]) = total Placed.size a + p.size := by simp
  rw [total_cons] at hlimit
  exact ⟨by rw [h]; simp, by omega, hsize, by omega⟩

theorem scanFrom_of_dollar (h : whole = a ++ (p :: b)) (hlimit : total Placed.size a < limit)
    (hdollar : p.char = '$') (hescape : ¬(p.char = escape ∧ escape.toNat < 128)) :
    scanFrom (Placed.text whole) escape false (total Placed.size a) limit = (do
      match ← byteBefore? (Placed.text whole) (total Placed.size a + 1) limit with
      | some d =>
          if d = '\x7b' then
            let nameStop ← nameStop (Placed.text whole) (total Placed.size a + 2) limit
            let named := (← byteBefore? (Placed.text whole) (total Placed.size a + 2) nameStop).any
              Substitution.isNameStart
            let close ← closing (Placed.text whole) 0 nameStop limit
            let stop := if close < limit then close + 1 else limit
            let inside ← onward limit (total Placed.size a) nameStop
            let inner ← scanFrom (Placed.text whole) escape false inside.1 (min close limit)
            let next ← onward limit (total Placed.size a) stop
            let later ← scanFrom (Placed.text whole) escape false next.1 limit
            return (if named then
              [⟨total Placed.size a + 2, nameStop, total Placed.size a, stop⟩] else []) ++ inner ++ later
          else if Substitution.isNameStart d then
            let nameStop ← nameStop (Placed.text whole) (total Placed.size a + 1) limit
            let next ← onward limit (total Placed.size a) nameStop
            let later ← scanFrom (Placed.text whole) escape false next.1 limit
            return ⟨total Placed.size a + 1, nameStop, total Placed.size a, nameStop⟩ :: later
          else scanFrom (Placed.text whole) escape false (total Placed.size a + 1) limit
      | none => scanFrom (Placed.text whole) escape false (total Placed.size a + 1) limit) := by
  have hone : p.size = 1 := utf8Size_of_lt (by rw [hdollar]; decide)
  rw [scanFrom, if_pos hlimit, byteAt_placed h hone, ok_bind, if_neg (by decide), if_neg hescape,
    if_neg (by rw [hdollar]; decide), if_pos hdollar]

theorem byteBefore?_name {name : List Placed} (h : whole = a ++ (name ++ c))
    (hname : ∀ p ∈ name, Substitution.isNameChar p.char = true) :
    ∃ d, byteBefore? (Placed.text whole) (total Placed.size a)
        (total Placed.size a + total Placed.size name) = .ok d ∧
      d.any Substitution.isNameStart = Substitution.isName (Placed.text name) := by
  cases name with
  | nil => exact ⟨none, if_neg (by simp), rfl⟩
  | cons p rest =>
      have hone : p.size = 1 := utf8Size_of_lt (lt_of_isNameChar (hname p List.mem_cons_self))
      have hbyte := byteAt_placed h hone
      refine ⟨some p.char, ?_, ?_⟩
      · rw [byteBefore?, if_pos (by rw [total_cons]; omega), hbyte]
        rfl
      · have hall : ((Placed.text rest).all Substitution.isNameChar) = true := by
          rw [List.all_eq_true]
          intro c hc
          obtain ⟨q, hq, rfl⟩ := List.mem_map.mp hc
          exact hname q (List.mem_cons_of_mem p hq)
        rw [Placed.text_cons, Substitution.isName, hall, Bool.and_true]
        rfl

theorem scanFrom_of_name {q : Placed} {body : List Placed}
    (h : whole = a ++ (p :: q :: body ++ c))
    (hlimit : limit = total Placed.size a + total Placed.size (p :: q :: body))
    (hdollar : p.char = '$') (hescape : ¬(p.char = escape ∧ escape.toNat < 128))
    (hbrace : q.char ≠ '\x7b') (hstart : Substitution.isNameStart q.char = true)
    {name : List Placed} (hname : name = (q :: body).takeWhile fun r => Substitution.isNameChar r.char)
    {raws : List RawReference}
    (hraws : scanFrom (Placed.text whole) escape false (total Placed.size (a ++ p :: name)) limit =
      .ok raws) :
    scanFrom (Placed.text whole) escape false (total Placed.size a) limit =
      .ok (⟨total Placed.size (a ++ [p]), total Placed.size (a ++ p :: name), total Placed.size a,
        total Placed.size (a ++ p :: name)⟩ :: raws) := by
  have hp : p.size = 1 := utf8Size_of_lt (by rw [hdollar]; decide)
  have hq : q.size = 1 :=
    utf8Size_of_lt (lt_of_isNameChar (Substitution.isNameChar_of_isNameStart hstart))
  obtain ⟨hwhole, hrest, hsize, hlt⟩ := behind_char h hlimit
  have hlt' := (behind_char hwhole hrest).2.2.2
  have hbyte : byteBefore? (Placed.text whole) (total Placed.size (a ++ [p])) limit =
      .ok (some q.char) := by
    rw [byteBefore?, if_pos hlt', byteAt_placed hwhole hq]
    rfl
  have hstop : total Placed.size (a ++ p :: name) =
      total Placed.size (a ++ [p]) + total Placed.size name := by
    simp only [total_append, total_cons, total_nil, Nat.add_zero, Nat.add_assoc]
  have hname' : nameStop (Placed.text whole) (total Placed.size (a ++ [p])) limit =
      .ok (total Placed.size (a ++ p :: name)) := by
    rw [nameStop_eq hwhole hrest, hstop, hname]
  have hle : total Placed.size name ≤ total Placed.size (q :: body) := by
    have happend := @List.takeWhile_append_dropWhile _
      (fun r : Placed => Substitution.isNameChar r.char) (q :: body)
    rw [← hname] at happend
    rw [← happend, total_append]
    exact Nat.le_add_right _ _
  have hnext : onward limit (total Placed.size a) (total Placed.size (a ++ p :: name)) = .ok ⟨_, _⟩ :=
    onward_eq (by omega) (by omega)
  rw [scanFrom_of_dollar h hlt hdollar hescape, ← hp, ← hsize]
  simp only [hbyte, ok_bind, if_neg hbrace, hstart, if_true, hname', hnext, hraws, pure_eq]

theorem scanFrom_of_braces {q : Placed} {name inside behind : List Placed}
    (h : whole = a ++ (p :: q :: (name ++ (inside ++ behind)) ++ c))
    (hlimit : limit = total Placed.size a + total Placed.size (p :: q :: (name ++ (inside ++ behind))))
    (hdollar : p.char = '$') (hescape : ¬(p.char = escape ∧ escape.toNat < 128))
    (hbrace : q.char = '\x7b')
    (hname : name = (name ++ (inside ++ behind)).takeWhile fun r => Substitution.isNameChar r.char)
    (hcut : Substitution.splitClosing 0 (inside ++ behind) = (inside, behind))
    {raws₁ raws₂ : List RawReference}
    (hinner : scanFrom (Placed.text whole) escape false (total Placed.size (a ++ p :: q :: name))
      (total Placed.size (a ++ p :: q :: name) + total Placed.size inside) = .ok raws₁)
    (hlater : scanFrom (Placed.text whole) escape false
      (total Placed.size (a ++ p :: q :: name ++ inside ++ behind.take 1)) limit = .ok raws₂) :
    scanFrom (Placed.text whole) escape false (total Placed.size a) limit =
      .ok ((if Substitution.isName (Placed.text name) then
          [⟨total Placed.size (a ++ [p, q]), total Placed.size (a ++ p :: q :: name),
            total Placed.size a, total Placed.size (a ++ p :: q :: name ++ inside ++ behind.take 1)⟩]
        else []) ++ raws₁ ++ raws₂) := by
  have hp : p.size = 1 := utf8Size_of_lt (by rw [hdollar]; decide)
  have hq : q.size = 1 := utf8Size_of_lt (by rw [hbrace]; decide)
  obtain ⟨hwhole, hrest, hsize, hlt⟩ := behind_char h hlimit
  obtain ⟨hwhole', hrest', hsize', hlt'⟩ := behind_char hwhole hrest
  rw [show a ++ [p] ++ [q] = a ++ [p, q] by simp] at hwhole' hrest' hsize'
  have hbyte : byteBefore? (Placed.text whole) (total Placed.size a + 1) limit =
      .ok (some q.char) := by
    rw [← hp, ← hsize, byteBefore?, if_pos hlt', byteAt_placed hwhole hq]
    rfl
  have hsize'' : total Placed.size (a ++ [p, q]) = total Placed.size a + 2 := by omega
  have hstop : total Placed.size (a ++ p :: q :: name) =
      total Placed.size (a ++ [p, q]) + total Placed.size name := by
    simp only [total_append, total_cons, total_nil, Nat.add_zero, Nat.add_assoc]
  have hname' : nameStop (Placed.text whole) (total Placed.size (a ++ [p, q])) limit =
      .ok (total Placed.size (a ++ p :: q :: name)) := by
    rw [nameStop_eq hwhole' hrest', hstop, ← hname]
  -- Behind the name, what the braces enclose.
  have hbehind : whole = (a ++ p :: q :: name) ++ ((inside ++ behind) ++ c) := by
    rw [hwhole']
    simp only [List.append_assoc, List.cons_append, List.nil_append]
  have hlimit' : limit = total Placed.size (a ++ p :: q :: name) +
      total Placed.size (inside ++ behind) := by
    rw [hrest', hstop, total_append _ name, Nat.add_assoc]
  have hclose := closing_eq hbehind 0 hlimit'
  rw [hcut] at hclose
  have hnamed : ∀ r ∈ name, Substitution.isNameChar r.char = true := by
    intro r hr
    rw [hname] at hr
    exact List.mem_takeWhile_imp (p := fun r : Placed => Substitution.isNameChar r.char) hr
  obtain ⟨first, hfirst, hstart⟩ := byteBefore?_name (a := a ++ [p, q])
    (hwhole'.trans (congrArg _ (List.append_assoc _ _ _))) hnamed
  rw [← hstop] at hfirst
  have hinside : onward limit (total Placed.size a) (total Placed.size (a ++ p :: q :: name)) =
      .ok ⟨_, _⟩ := onward_eq (by omega) (by omega)
  have hend : (if total Placed.size (a ++ p :: q :: name) + total Placed.size inside < limit then
      total Placed.size (a ++ p :: q :: name) + total Placed.size inside + 1 else limit) =
        total Placed.size (a ++ p :: q :: name ++ inside ++ behind.take 1) := by
    have hclosing := Substitution.splitClosing_snd 0 (inside ++ behind)
    rw [hcut] at hclosing
    rw [total_append _ inside] at hlimit'
    cases behind with
    | nil =>
        rw [total_nil] at hlimit'
        rw [if_neg (by omega), List.take_nil, List.append_nil, total_append, hlimit', Nat.add_zero]
    | cons r behind =>
        have hr : r.size = 1 := utf8Size_of_lt (by rw [hclosing r rfl]; decide)
        rw [total_cons] at hlimit'
        rw [if_pos (by omega), List.take_succ_cons, List.take_zero, total_append _ _ [r],
          total_append _ _ inside, total_cons, total_nil, hr]
  have hle : total Placed.size (a ++ p :: q :: name) + total Placed.size inside ≤ limit := by
    rw [hlimit', total_append _ inside]
    omega
  have hnext : total Placed.size a <
        total Placed.size (a ++ p :: q :: name ++ inside ++ behind.take 1) ∧
      total Placed.size (a ++ p :: q :: name ++ inside ++ behind.take 1) ≤ limit := by
    have htake : total Placed.size (behind.take 1) ≤ total Placed.size behind := by
      cases behind with
      | nil => exact Nat.le_refl _
      | cons r behind => simp
    rw [total_append _ inside] at hlimit'
    rw [total_append _ _ (behind.take 1), total_append _ _ inside]
    omega
  rw [scanFrom_of_dollar h hlt hdollar hescape]
  simp only [hbyte, ok_bind, hbrace, if_true, ← hsize'', hname', hfirst, hstart, hclose, hinside, hend,
    onward_eq hnext.1 hnext.2, Nat.min_eq_left hle, hinner, hlater, pure_eq]

theorem behind_part {chars x rest : List Placed} (h : whole = a ++ (chars ++ c))
    (hlimit : limit = total Placed.size a + total Placed.size chars) (hchars : x ++ rest = chars) :
    whole = (a ++ x) ++ (rest ++ c) ∧
      limit = total Placed.size (a ++ x) + total Placed.size rest := by
  subst hchars
  constructor
  · rw [h]
    simp only [List.append_assoc]
  · rw [hlimit, total_append, total_append, Nat.add_assoc]

/-- In quotes a character is passed, and the quote ends them. -/
theorem scanFrom_of_quoted {rest : List Placed} (h : whole = a ++ (p :: rest ++ c))
    (hlimit : limit = total Placed.size a + total Placed.size (p :: rest)) :
    scanFrom (Placed.text whole) escape true (total Placed.size a) limit =
      scanFrom (Placed.text whole) escape (p.char != '\x27') (total Placed.size (a ++ [p])) limit := by
  obtain ⟨-, -, hsize, hlt⟩ := behind_char h hlimit
  by_cases hp : p.char = '\x27'
  · have hone : p.size = 1 := utf8Size_of_lt (by rw [hp]; decide)
    rw [scanFrom, if_pos hlt, byteAt_placed h hone, ok_bind, if_pos rfl, hsize, hone]
  · have hquote : (p.char != '\x27') = true := by simpa using hp
    have hle : total Placed.size a + p.size ≤ limit := by
      rw [hlimit, total_cons]
      omega
    rw [scanFrom_of_char h hle ⟨hp, by simp⟩, hquote]

theorem scanFrom_of_escape {rest : List Placed} (h : whole = a ++ (p :: rest ++ c))
    (hlimit : limit = total Placed.size a + total Placed.size (p :: rest))
    (hescape : p.char = escape ∧ escape.toNat < 128) :
    scanFrom (Placed.text whole) escape false (total Placed.size a) limit =
      scanFrom (Placed.text whole) escape false (total Placed.size (a ++ p :: rest.take 1)) limit := by
  obtain ⟨hwhole, hrest, hsize, hlt⟩ := behind_char h hlimit
  have hone : p.size = 1 := utf8Size_of_lt (by rw [hescape.1]; exact hescape.2)
  rw [scanFrom, if_pos hlt, byteAt_placed h hone, ok_bind, if_neg (by decide), if_pos hescape]
  cases rest with
  | nil =>
      have hend : limit = total Placed.size (a ++ [p]) := by simpa using hrest
      rw [List.take_nil, scanFrom, if_neg (by omega), scanFrom, if_neg (by omega)]
  | cons q rest =>
      have hinside := @scanFrom_inside _ _ _ _ escape limit hwhole false (by
        rw [hrest, total_cons]
        omega)
      have hbehind : total Placed.size (a ++ p :: (q :: rest).take 1) =
          total Placed.size (a ++ [p]) + q.size := by
        simp only [total_append, total_cons, total_nil, Nat.add_assoc, Nat.add_zero]
        rfl
      rw [hbehind, ← hinside, hsize, hone]

theorem scanFrom_of_quote {rest : List Placed} (h : whole = a ++ (p :: rest ++ c))
    (hlimit : limit = total Placed.size a + total Placed.size (p :: rest))
    (hescape : ¬(p.char = escape ∧ escape.toNat < 128)) (hquote : p.char = '\x27') :
    scanFrom (Placed.text whole) escape false (total Placed.size a) limit =
      scanFrom (Placed.text whole) escape true (total Placed.size (a ++ [p])) limit := by
  obtain ⟨-, -, hsize, hlt⟩ := behind_char h hlimit
  have hone : p.size = 1 := utf8Size_of_lt (by rw [hquote]; decide)
  rw [scanFrom, if_pos hlt, byteAt_placed h hone, ok_bind, if_neg (by decide), if_neg hescape,
    if_pos hquote, hsize, hone]

/-- A dollar sign with nothing behind it is no substitution. -/
theorem scanFrom_of_last (h : whole = a ++ ([p] ++ c))
    (hlimit : limit = total Placed.size a + total Placed.size [p]) (hdollar : p.char = '$')
    (hescape : ¬(p.char = escape ∧ escape.toNat < 128)) :
    scanFrom (Placed.text whole) escape false (total Placed.size a) limit = .ok [] := by
  obtain ⟨-, -, -, hlt⟩ := behind_char h hlimit
  have hone : p.size = 1 := utf8Size_of_lt (by rw [hdollar]; decide)
  have hend : ¬ total Placed.size a + 1 < limit := by
    rw [hlimit, total_cons, total_nil]
    omega
  rw [scanFrom_of_dollar h hlt hdollar hescape, byteBefore?, if_neg hend]
  simp only [pure_eq, ok_bind]
  rw [scanFrom, if_neg hend]
  rfl

/-- Nor is one in front of something else than a brace and a name. -/
theorem scanFrom_of_bare {q : Placed} {body : List Placed} (h : whole = a ++ (p :: q :: body ++ c))
    (hlimit : limit = total Placed.size a + total Placed.size (p :: q :: body))
    (hdollar : p.char = '$') (hescape : ¬(p.char = escape ∧ escape.toNat < 128))
    (hbrace : q.char ≠ '\x7b') (hstart : ¬Substitution.isNameStart q.char = true) :
    scanFrom (Placed.text whole) escape false (total Placed.size a) limit =
      scanFrom (Placed.text whole) escape false (total Placed.size (a ++ [p])) limit := by
  have hp : p.size = 1 := utf8Size_of_lt (by rw [hdollar]; decide)
  obtain ⟨hwhole, hrest, hsize, hlt⟩ := behind_char h hlimit
  rw [hp] at hsize
  have hlt' := (behind_char hwhole hrest).2.2.2
  obtain ⟨d, hd, hcases⟩ := exists_byteAt_placed (i := 0) hwhole q.size_pos
  rw [Nat.add_zero, hsize] at hd
  rw [hsize] at hlt'
  have hother : d ≠ '\x7b' ∧ Substitution.isNameStart d = false := by
    obtain ⟨-, rfl⟩ | ⟨-, hle⟩ := hcases
    · exact ⟨hbrace, Bool.eq_false_iff.mpr hstart⟩
    · refine ⟨?_, Bool.eq_false_iff.mpr fun hname => ?_⟩
      · rintro rfl
        exact absurd hle (by decide)
      · exact absurd (lt_of_isNameChar (Substitution.isNameChar_of_isNameStart hname)) (by omega)
  rw [scanFrom_of_dollar h hlt hdollar hescape, byteBefore?, if_pos hlt', hd]
  simp only [ok_bind, pure_eq, if_neg hother.1, hother.2, hsize]
  rfl

/-- The bytes of a name right behind a dollar sign. -/
theorem refers_of_name {name rest : List Placed} (h : whole = a ++ (p :: name ++ rest))
    (hname : name ≠ []) :
    Refers whole ⟨total Placed.size (a ++ [p]), total Placed.size (a ++ p :: name),
      total Placed.size a, total Placed.size (a ++ p :: name)⟩ ⟨name, p :: name⟩ where
  name := ⟨a ++ [p], rest, by rw [h]; simp, rfl, by
    rw [← total_append, List.append_assoc, List.singleton_append]⟩
  all := ⟨a, rest, h, rfl, total_append _ a _⟩
  name_ne_nil := hname
  all_ne_nil := by simp

theorem refers_of_braces {q : Placed} {name inside close rest : List Placed}
    (h : whole = a ++ (p :: q :: name ++ inside ++ close) ++ rest) (hname : name ≠ []) :
    Refers whole ⟨total Placed.size (a ++ [p, q]), total Placed.size (a ++ p :: q :: name),
      total Placed.size a, total Placed.size (a ++ p :: q :: name ++ inside ++ close)⟩
      ⟨name, p :: q :: name ++ inside ++ close⟩ where
  name := ⟨a ++ [p, q], inside ++ close ++ rest, by rw [h]; simp, rfl,
    (congrArg (total Placed.size) (by simp : a ++ p :: q :: name = (a ++ [p, q]) ++ name)).trans
      (total_append _ (a ++ [p, q]) name)⟩
  all := ⟨a, rest, by rw [h]; simp, rfl, by
    rw [← total_append]
    simp only [List.append_assoc]⟩
  name_ne_nil := hname
  all_ne_nil := by simp

def Finds (whole : List Placed) (escape : Char) (quoted : Bool) (index limit : Nat)
    (found : List Substitution) : Prop :=
  ∃ raws, scanFrom (Placed.text whole) escape quoted index limit = .ok raws ∧
    List.Forall₂ (Refers whole) raws found

theorem Finds.of_step {quoted quoted' : Bool} {index index' : Nat} {found : List Substitution}
    (h : Finds whole escape quoted' index' limit found)
    (hstep : scanFrom (Placed.text whole) escape quoted index limit =
      scanFrom (Placed.text whole) escape quoted' index' limit) :
    Finds whole escape quoted index limit found := by
  rwa [Finds, hstep]

/-- A name right behind a dollar sign, and what is found behind it. -/
theorem finds_of_name {q : Placed} {body rest : List Placed}
    (h : whole = a ++ (p :: q :: body ++ c))
    (hlimit : limit = total Placed.size a + total Placed.size (p :: q :: body))
    (hdollar : p.char = '$') (hescape : ¬(p.char = escape ∧ escape.toNat < 128))
    (hbrace : q.char ≠ '\x7b') (hstart : Substitution.isNameStart q.char = true)
    {name : List Placed} (hname : name = (q :: body).takeWhile fun r => Substitution.isNameChar r.char)
    (hrest : name ++ rest = q :: body) {found : List Substitution}
    (hlater : whole = (a ++ p :: name) ++ (rest ++ c) →
      limit = total Placed.size (a ++ p :: name) + total Placed.size rest →
        Finds whole escape false (total Placed.size (a ++ p :: name)) limit found) :
    Finds whole escape false (total Placed.size a) limit (⟨name, p :: name⟩ :: found) := by
  have hne : name ≠ [] := by
    simp [hname, Substitution.isNameChar_of_isNameStart hstart]
  have hparts : (p :: name) ++ rest = p :: q :: body := congrArg (p :: ·) hrest
  obtain ⟨hwhole, hlimit'⟩ := behind_part h hlimit hparts
  obtain ⟨raws, hraws, hrefers⟩ := hlater hwhole hlimit'
  exact ⟨_, scanFrom_of_name h hlimit hdollar hescape hbrace hstart hname hraws,
    .cons (refers_of_name (hwhole.trans (List.append_assoc _ _ _)) hne) hrefers⟩

/-- A name in braces, what is found in them and what is found behind them. -/
theorem finds_of_braces {q : Placed} {name inside behind : List Placed}
    (h : whole = a ++ (p :: q :: (name ++ (inside ++ behind)) ++ c))
    (hlimit : limit = total Placed.size a + total Placed.size (p :: q :: (name ++ (inside ++ behind))))
    (hdollar : p.char = '$') (hescape : ¬(p.char = escape ∧ escape.toNat < 128))
    (hbrace : q.char = '\x7b')
    (hname : name = (name ++ (inside ++ behind)).takeWhile fun r => Substitution.isNameChar r.char)
    (hcut : Substitution.splitClosing 0 (inside ++ behind) = (inside, behind))
    {inner later : List Substitution}
    (hinner : whole = (a ++ p :: q :: name) ++ (inside ++ (behind ++ c)) →
      Finds whole escape false (total Placed.size (a ++ p :: q :: name))
        (total Placed.size (a ++ p :: q :: name) + total Placed.size inside) inner)
    (hlater : whole = (a ++ (p :: q :: name ++ inside ++ behind.take 1)) ++ (behind.tail ++ c) →
      limit = total Placed.size (a ++ (p :: q :: name ++ inside ++ behind.take 1)) +
          total Placed.size behind.tail →
        Finds whole escape false (total Placed.size (a ++ (p :: q :: name ++ inside ++ behind.take 1)))
          limit later) :
    Finds whole escape false (total Placed.size a) limit
      ((if Substitution.isName (Placed.text name) then
        [⟨name, p :: q :: name ++ inside ++ behind.take 1⟩] else []) ++ inner ++ later) := by
  have htake : behind.take 1 ++ behind.tail = behind := by cases behind <;> rfl
  have hparts : (p :: q :: name ++ inside ++ behind.take 1) ++ behind.tail =
      p :: q :: (name ++ (inside ++ behind)) := by
    rw [List.append_assoc, htake]
    simp only [List.append_assoc, List.cons_append]
  obtain ⟨hwhole, hlimit'⟩ := behind_part h hlimit hparts
  obtain ⟨raws₁, hraws₁, hrefers₁⟩ := hinner (by rw [h]; simp)
  obtain ⟨raws₂, hraws₂, hrefers₂⟩ := hlater hwhole hlimit'
  have hassoc : a ++ (p :: q :: name ++ inside ++ behind.take 1) =
      a ++ p :: q :: name ++ inside ++ behind.take 1 := by
    simp only [List.append_assoc]
  rw [hassoc] at hraws₂
  refine ⟨_, scanFrom_of_braces h hlimit hdollar hescape hbrace hname hcut hraws₁ hraws₂,
    List.rel_append (List.rel_append ?_ hrefers₁) hrefers₂⟩
  cases hnamed : Substitution.isName (Placed.text name) with
  | false => exact .nil
  | true =>
      have hne : name ≠ [] := by
        rintro rfl
        cases hnamed
      exact .cons (refers_of_braces hwhole hne) .nil

theorem scanFrom_eq {quoted : Bool} {chars : List Placed} (h : whole = a ++ (chars ++ c))
    (hlimit : limit = total Placed.size a + total Placed.size chars) :
    Finds whole escape quoted (total Placed.size a) limit
      (Substitution.scanFrom escape quoted chars) := by
  fun_induction Substitution.scanFrom escape quoted chars generalizing a c limit with
  | case1 quoted =>
      refine ⟨[], ?_, .nil⟩
      rw [scanFrom, if_neg (by rw [hlimit]; simp)]
      rfl
  | case2 p rest ih =>
      obtain ⟨hwhole, hrest, -⟩ := behind_char h hlimit
      exact (ih hwhole hrest).of_step (scanFrom_of_quoted h hlimit)
  | case3 quoted p rest hquoted hescape ih =>
      obtain rfl := Bool.eq_false_iff.mpr hquoted
      have htake : p :: rest.take 1 ++ rest.tail = p :: rest := by cases rest <;> rfl
      obtain ⟨hwhole, hrest⟩ := behind_part h hlimit htake
      exact (ih hwhole hrest).of_step (scanFrom_of_escape h hlimit hescape)
  | case4 quoted p rest hquoted hescape hquote ih =>
      obtain rfl := Bool.eq_false_iff.mpr hquoted
      obtain ⟨hwhole, hrest, -⟩ := behind_char h hlimit
      exact (ih hwhole hrest).of_step (scanFrom_of_quote h hlimit hescape hquote)
  | case5 quoted p hquoted hescape hquote hdollar =>
      obtain rfl := Bool.eq_false_iff.mpr hquoted
      exact ⟨[], scanFrom_of_last h hlimit hdollar hescape, .nil⟩
  | case6 quoted p hquoted hescape hquote hdollar q body hbrace =>
      rename_i name cut all ih2 ih1
      obtain rfl := Bool.eq_false_iff.mpr hquoted
      have happend : name ++ (cut.1 ++ cut.2) = body := by
        rw [Substitution.splitClosing_append]
        exact List.takeWhile_append_dropWhile
      have hcut : Substitution.splitClosing 0 (cut.1 ++ cut.2) = (cut.1, cut.2) := by
        rw [Substitution.splitClosing_append]
      rw [← happend] at h hlimit
      exact finds_of_braces h hlimit hdollar hescape hbrace (by rw [happend]) hcut
        (fun hwhole => ih2 hwhole rfl) fun hwhole hrest => ih1 hwhole hrest
  | case7 quoted p hquoted hescape hquote hdollar q body hbrace hstart =>
      rename_i name ih
      obtain rfl := Bool.eq_false_iff.mpr hquoted
      exact finds_of_name h hlimit hdollar hescape hbrace hstart rfl List.takeWhile_append_dropWhile
        fun hwhole hrest => ih hwhole hrest
  | case8 quoted p hquoted hescape hquote hdollar q body hbrace hstart ih =>
      obtain rfl := Bool.eq_false_iff.mpr hquoted
      obtain ⟨hwhole, hrest, -⟩ := behind_char h hlimit
      exact (ih hwhole hrest).of_step (scanFrom_of_bare h hlimit hdollar hescape hbrace hstart)
  | case9 quoted p rest hquoted hescape hquote hdollar ih =>
      obtain rfl := Bool.eq_false_iff.mpr hquoted
      obtain ⟨hwhole, hrest, -⟩ := behind_char h hlimit
      have hle : total Placed.size a + p.size ≤ limit := by
        rw [hlimit, total_cons]
        omega
      exact (ih hwhole hrest).of_step
        (scanFrom_of_char h hle ⟨hquote, fun _ => ⟨hescape, hdollar⟩⟩)

def scan (escape : Char) (text : Text) : Checked (List RawReference) :=
  scanFrom text escape false 0 (Text.byteLength text)

theorem scan_eq (escape : Char) (chars : List Placed) :
    ∃ raws, scan escape (Placed.text chars) = .ok raws ∧
      List.Forall₂ (Refers chars) raws (Substitution.scan escape chars) := by
  have hlimit : Text.byteLength (Placed.text chars) = 0 + total Placed.size chars := by
    rw [Nat.zero_add, Placed.total_size]
  exact scanFrom_eq (a := []) (c := []) (List.append_nil chars).symm hlimit

end Scan

end Checked

end Dockerfile
