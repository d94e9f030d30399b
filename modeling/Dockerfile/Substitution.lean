import Dockerfile.Text.Continuation

/-!
# Variable substitutions

`$name` and `${name}` stand for a variable. In braces more may follow the name, and it may hold
substitutions of its own: `${a:-$b}`. Nothing is substituted in single quotes, nor behind the escape
character. Braces are matched by counting, whatever is quoted between them.
-/

namespace Dockerfile

/-- One substitution: the characters of the variable's name, and all its characters from the dollar
sign on. -/
structure Substitution where
  name : List Placed
  whole : List Placed
  deriving DecidableEq, Repr

namespace Substitution

def isNameStart (c : Char) : Bool :=
  c.isAlpha || c == '_'

def isNameChar (c : Char) : Bool :=
  c.isAlphanum || c == '_'

def isName : Text → Bool
  | [] => false
  | c :: rest => isNameStart c && rest.all isNameChar

/-- Splits in front of the brace that closes the one behind us, when `depth` more are open. The
second part is empty if no brace closes it. -/
def splitClosing : Nat → List Placed → List Placed × List Placed
  | _, [] => ([], [])
  | depth, p :: rest =>
      if p.char = '\x7b' then
        let next := splitClosing (depth + 1) rest
        (p :: next.1, next.2)
      else if p.char = '\x7d' then
        match depth with
        | 0 => ([], p :: rest)
        | depth + 1 =>
            let next := splitClosing depth rest
            (p :: next.1, next.2)
      else
        let next := splitClosing depth rest
        (p :: next.1, next.2)

theorem splitClosing_append (depth : Nat) (chars : List Placed) :
    (splitClosing depth chars).1 ++ (splitClosing depth chars).2 = chars := by
  fun_induction splitClosing depth chars <;> simp_all <;> assumption

theorem splitClosing_length (depth : Nat) (chars : List Placed) :
    (splitClosing depth chars).1.length + (splitClosing depth chars).2.length = chars.length := by
  rw [← List.length_append, splitClosing_append]

/-- Finds the substitutions among these characters, the first of which are in single quotes if
`quoted` holds. -/
def scanFrom (escape : Char) (quoted : Bool) : List Placed → List Substitution
  | [] => []
  | p :: rest =>
      if quoted then scanFrom escape (p.char != '\x27') rest
      else if p.char = escape ∧ escape.toNat < 128 then scanFrom escape false rest.tail
      else if p.char = '\x27' then scanFrom escape true rest
      else if p.char = '$' then
        match rest with
        | [] => []
        | q :: body =>
            if q.char = '\x7b' then
              let name := body.takeWhile fun r => isNameChar r.char
              let cut := splitClosing 0 (body.dropWhile fun r => isNameChar r.char)
              let whole := p :: q :: name ++ cut.1 ++ cut.2.take 1
              (if isName (Placed.text name) then [⟨name, whole⟩] else []) ++
                scanFrom escape false cut.1 ++ scanFrom escape false cut.2.tail
            else if isNameStart q.char then
              let name := (q :: body).takeWhile fun r => isNameChar r.char
              ⟨name, p :: name⟩ ::
                scanFrom escape false ((q :: body).dropWhile fun r => isNameChar r.char)
            else scanFrom escape false (q :: body)
      else scanFrom escape false rest
termination_by chars => chars.length
decreasing_by
  · simp
  · simp only [List.length_cons, List.length_tail]
    omega
  · simp
  · have h1 := splitClosing_length 0 (body.dropWhile fun r => isNameChar r.char)
    have h2 := length_dropWhile_le (fun r : Placed => isNameChar r.char) body
    simp only [List.length_cons]
    omega
  · have h1 := splitClosing_length 0 (body.dropWhile fun r => isNameChar r.char)
    have h2 := length_dropWhile_le (fun r : Placed => isNameChar r.char) body
    simp only [List.length_cons, List.length_tail]
    omega
  · have h2 := length_dropWhile_le (fun r : Placed => isNameChar r.char) (q :: body)
    simp only [List.length_cons] at h2 ⊢
    omega
  · simp
  · simp

def scan (escape : Char) (chars : List Placed) : List Substitution :=
  scanFrom escape false chars

def nameSpan (s : Substitution) : Span :=
  (⟨s.name, 0⟩ : Excerpt).span

def span (s : Substitution) : Span :=
  (⟨s.whole, 0⟩ : Excerpt).span

end Substitution

end Dockerfile
