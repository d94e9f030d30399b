import Dockerfile.Editor.Highlighting
import Dockerfile.Proofs.Checked.Navigation

/-!
# Highlighting, access by access

The quoted parts of an argument are looked for byte by byte, so their ends are bytes of the argument.
What is selected is cut at the ends of lines, and each piece is measured from the position of its
start to that of its end.
-/

namespace Dockerfile

namespace Checked

/-! ## Candidates -/

def wordTokens (k : Keyword) (inst : Instruction) : Checked (List Token) := do
  match k with
  | .FROM =>
      match ← positional inst with
      | _ :: as :: _ :: _ =>
          return if Text.sameIgnoringCase as.text "as".toList then [⟨as.span, .keyword, .none⟩] else []
      | _ => return []
  | .HEALTHCHECK =>
      match ← positional inst with
      | first :: _ =>
          return if Text.sameIgnoringCase first.text "cmd".toList ||
              Text.sameIgnoringCase first.text "none".toList then
            [⟨first.span, .keyword, .none⟩]
          else []
      | _ => return []
  | _ => return []

def keywordTokens (inst : Instruction) : Checked (List Token) := do
  match inst.kind with
  | none => return []
  | some k =>
      let own := ⟨inst.keywordSpan, .keyword, if k = .MAINTAINER then .deprecated else .none⟩
      match ← deferred? inst with
      | none => return own :: (← wordTokens k inst)
      | some t => return own :: (← keywordTokens t.1) ++ (← wordTokens k inst)
termination_by inst.region.chars.length
decreasing_by exact t.2

def quotedFrom (e : Excerpt) (index : Nat) (opened : Option (Char × Nat)) : Text → Checked (List Span)
  | [] =>
      match opened with
      | some (_, start) => return [← spanAt e start e.byteLength]
      | none => return []
  | c :: rest =>
      match opened with
      | some (quote, start) => do
          if c = quote then
            let place ← spanAt e start (index + 1)
            return place :: (← quotedFrom e (index + c.utf8Size) none rest)
          else quotedFrom e (index + c.utf8Size) opened rest
      | none =>
          if c = '"' ∨ c = '\x27' then quotedFrom e (index + c.utf8Size) (some (c, index)) rest
          else quotedFrom e (index + c.utf8Size) none rest

def argumentTokens (inst : Instruction) : Checked (List Token) := do
  let flags ← (← flags inst).mapM fun f => do
    return ⟨← span f.span.start f.name.span.stop, .flag, .none⟩
  let quoted ← flatMap (fun arg => quotedFrom arg.content 0 none arg.text) inst.arguments
  return flags ++ quoted.map fun place => ⟨place, .string, .none⟩

def candidates (a : Analysis) : Checked (List Token) := do
  let comments := a.file.comments.filter fun c => !a.file.directives.any fun d => d.span == c.span
  let keywords ← flatMap keywordTokens a.file.instructions
  let arguments ← flatMap argumentTokens a.file.instructions
  return a.file.directives.flatMap (fun d =>
      [⟨d.name.span, .directive, .none⟩, ⟨d.valueSpan, .string, .none⟩]) ++ keywords ++
    (a.scopes.stages.filterMap Stage.name).map (fun n => ⟨n.span, .stage, .declaration⟩) ++
    a.scopes.stageReferences.map (fun r => ⟨r.span, .stage, .none⟩) ++
    a.scopes.bindings.map (fun b => ⟨b.nameSpan, .var, .declaration⟩) ++
    a.scopes.references.map (fun r => ⟨r.fullSpan, .var, .none⟩) ++ arguments ++
    comments.map (fun c => ⟨c.span, .comment, .none⟩)

theorem wordTokens_eq (k : Keyword) (inst : Instruction) :
    wordTokens k inst = .ok (match k, inst.positional with
      | .FROM, _ :: as :: _ :: _ =>
          if Text.sameIgnoringCase as.text "as".toList then [⟨as.span, .keyword, .none⟩] else []
      | .HEALTHCHECK, first :: _ =>
          if Text.sameIgnoringCase first.text "cmd".toList ||
              Text.sameIgnoringCase first.text "none".toList then
            [⟨first.span, .keyword, .none⟩]
          else []
      | _, _ => []) := by
  unfold wordTokens
  simp only [positional_eq, ok_bind]
  rcases inst.positional with _ | ⟨first, _ | ⟨second, _ | ⟨third, rest⟩⟩⟩ <;> cases k <;> rfl

@[simp] theorem keywordTokens_eq (inst : Instruction) :
    keywordTokens inst = .ok (Token.ofKeywords inst) := by
  rw [keywordTokens, Token.ofKeywords]
  cases inst.kind with
  | none => rfl
  | some k =>
      cases htrigger : inst.trigger? with
      | none =>
          simp only [deferred?_none htrigger, wordTokens_eq, ok_bind]
          rfl
      | some t =>
          obtain ⟨hlt, hdeferred⟩ := deferred?_some htrigger
          simp only [hdeferred, wordTokens_eq, keywordTokens_eq t, ok_bind]
          rfl
termination_by inst.region.chars.length
decreasing_by exact hlt

/-- Where a quote was opened: the quote, and the number of its byte among those in front. -/
inductive Opens (front : List Placed) : Option (Char × Nat) → Option Placed → Prop where
  | none : Opens front none none
  | some {before mid : List Placed} {q : Placed} (quote : q.char = '"' ∨ q.char = '\x27')
      (split : front = before ++ q :: mid) :
      Opens front (some (q.char, total Placed.size before)) (some q)

theorem spanAt_stretch {e : Excerpt} {before mid rest : List Placed} {p q : Placed}
    (h : e.chars = before ++ (q :: mid ++ [p]) ++ rest) :
    e.spanAt (total Placed.size before) (total Placed.size (before ++ (q :: mid ++ [p]))) =
      q.spanTo p := by
  rw [total_append, spanAt_part (by rw [h, List.append_assoc])]
  exact Excerpt.span_eq_spanTo rfl List.getLast?_concat

theorem Opens.snoc {front : List Placed} {opened : Option (Char × Nat)} {quote : Option Placed}
    (h : Opens front opened quote) (p : Placed) : Opens (front ++ [p]) opened quote := by
  cases h with
  | none => exact .none
  | some hquote hsplit => exact .some hquote (by rw [hsplit, List.append_assoc, List.cons_append])

theorem quotedFrom_eq {e : Excerpt} {front chars : List Placed} (h : e.chars = front ++ chars)
    {opened : Option (Char × Nat)} {quote : Option Placed} (hopens : Opens front opened quote) :
    quotedFrom e (total Placed.size front) opened (Placed.text chars) =
      .ok (Token.quotedSpans e.stop quote chars) := by
  induction chars generalizing front opened quote with
  | nil =>
      cases hopens with
      | none => rfl
      | @some before mid q hquote hsplit =>
          rw [List.append_nil] at h
          obtain ⟨q', hq'⟩ : ∃ q', (q :: mid).getLast? = some q' :=
            ⟨_, List.getLast?_eq_some_getLast (List.cons_ne_nil q mid)⟩
          have hlast : e.chars.getLast? = some q' := by
            rw [h, hsplit, List.getLast?_append, hq']
            rfl
          have hspan : e.spanAt (total Placed.size before) e.byteLength = q.spanTo q' := by
            have hpart := spanAt_part (e := e) (a := before) (b := q :: mid) (c := [])
              (by rw [h, hsplit, List.append_nil])
            rw [← total_append, ← hsplit, ← h] at hpart
            exact hpart.trans (Excerpt.span_eq_spanTo rfl hq')
          have hstop : e.stop = q'.stop := by rw [Excerpt.stop, Placed.stopOr, hlast]
          simp only [Placed.text, List.map_nil, quotedFrom, spanAt_eq, hspan, hstop, ok_bind,
            Token.quotedSpans, pure_eq]
          rfl
  | cons p rest ih =>
      have hnext : e.chars = (front ++ [p]) ++ rest := by rw [h, List.append_assoc]; rfl
      have hindex : total Placed.size front + p.char.utf8Size = total Placed.size (front ++ [p]) := by
        rw [total_append, total_cons, total_nil]
        rfl
      have hlater {opened quote} (hopens : Opens (front ++ [p]) opened quote) :
          quotedFrom e (total Placed.size front + p.char.utf8Size) opened (Placed.text rest) =
            .ok (Token.quotedSpans e.stop quote rest) := by
        rw [hindex]
        exact ih hnext hopens
      rw [Placed.text_cons]
      cases hopens with
      | none =>
          rw [quotedFrom, Token.quotedSpans]
          split
          · rename_i hquote
            exact hlater (.some hquote rfl)
          · exact hlater .none
      | @some before mid q hquote hsplit =>
          have hkept : Opens front (some (q.char, total Placed.size before)) (some q) :=
            .some hquote hsplit
          rw [quotedFrom, Token.quotedSpans]
          split
          · rename_i hchar
            have hone : p.char.utf8Size = 1 := by
              rcases hquote with hquote | hquote <;> rw [hchar, hquote] <;> rfl
            have hfront : front ++ [p] = before ++ (q :: mid ++ [p]) := by
              rw [hsplit, List.append_assoc]
            have hspan := spanAt_stretch (hfront ▸ hnext)
            rw [← hfront, ← hindex, hone] at hspan
            rw [spanAt_eq, hspan, ok_bind, hlater .none, ok_bind]
            rfl
          · exact hlater (hkept.snoc p)

theorem argumentTokens_eq {text : Text} {inst : Instruction} (h : inst.Within text) :
    argumentTokens inst = .ok (Token.ofArguments inst) := by
  have hflags : (inst.flags.mapM fun f => do
      return Token.mk (← span f.span.start f.name.span.stop) .flag .none) =
      .ok (inst.flags.map fun f => ⟨⟨f.span.start, f.name.span.stop⟩, .flag, .none⟩) :=
    mapM_eq fun f hf => by rw [span_eq (Token.flag_within h hf).ordered]; rfl
  have hquoted : flatMap (fun arg => quotedFrom arg.content 0 none arg.text) inst.arguments =
      .ok (inst.arguments.flatMap fun arg =>
        Token.quotedSpans arg.content.stop none arg.content.chars) :=
    flatMap_eq fun arg _ => quotedFrom_eq (List.nil_append arg.content.chars).symm .none
  rw [argumentTokens, flags_eq, ok_bind, hflags, ok_bind, hquoted, ok_bind, Token.ofArguments,
    List.map_flatMap]
  rfl

theorem candidates_eq {a : Analysis} (h : ∀ inst ∈ a.file.instructions, inst.Within a.text) :
    candidates a = .ok (Token.candidates a) := by
  rw [candidates, flatMap_eq fun inst _ => keywordTokens_eq inst, ok_bind,
    flatMap_eq fun inst hinst => argumentTokens_eq (h inst hinst), ok_bind]
  rfl

/-! ## Pieces -/

def pieceOn (text : Text) (t : Token) (number : Nat) : Checked (Option LineToken) := do
  let line ← lineSpan text number
  let start := max t.span.start line.start
  let stop := min t.span.stop line.stop
  if stop ≤ start then return none
  else
    let first ← positionAt text start
    let last ← positionAt text stop
    let length := last.character - first.character
    if length = 0 then return none
    else return some ⟨first.line, first.character, length, t.type, t.modifier⟩

def pieces (text : Text) (t : Token) : Checked (List LineToken) := do
  let first ← lineOf text t.span.start
  let last ← lineOf text t.span.stop
  filterMap (pieceOn text t) (List.range' first (last + 1 - first))

def tokens (a : Analysis) : Checked (List TokenDelta) := do
  let selected := (Token.select [] (← candidates a)).mergeSort fun s t => s.span.start ≤ t.span.start
  return LineToken.deltas 0 0 (← flatMap (pieces a.text) selected)

theorem pieceOn_eq (text : Text) (t : Token) (number : Nat) :
    pieceOn text t number = .ok (Token.onLine text t number) := by
  simp only [pieceOn, lineSpan_eq, positionAt_eq, ok_bind, pure_eq, Token.onLine]
  split
  · rfl
  · split <;> rfl

theorem pieces_eq (text : Text) (t : Token) : pieces text t = .ok (Token.cut text t) := by
  rw [pieces, lineOf_eq, ok_bind, lineOf_eq, ok_bind]
  exact filterMap_eq fun number _ => pieceOn_eq text t number

theorem tokens_eq {a : Analysis} (h : ∀ inst ∈ a.file.instructions, inst.Within a.text) :
    tokens a = .ok a.tokens := by
  rw [tokens, candidates_eq h, ok_bind]
  dsimp only
  rw [flatMap_eq fun t _ => pieces_eq a.text t]
  rfl

end Checked

end Dockerfile
