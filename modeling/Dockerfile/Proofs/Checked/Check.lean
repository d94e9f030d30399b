import Dockerfile.Check.File
import Dockerfile.Proofs.Checked.Scope

/-!
# Checks, access by access

The checks cut ports, protocols and durations out of arguments, look at the first positional argument
and at those behind it, and cover two arguments by one place. What is found is then placed: an empty
place is widened over a character of the text.
-/

namespace Dockerfile

namespace Checked

/-! ## Durations -/

def shorter (text rest : Text) : Checked { t : Text // t.length < text.length } :=
  if h : rest.length < text.length then .ok ⟨rest, h⟩
  else .error (.stuck (Text.byteLength text) (Text.byteLength rest))

def cutBehind (p : Char → Bool) (text : Text) : Checked (Text × Text) := do
  let length := Text.byteLength (text.takeWhile p)
  return (← sliceTo text length, ← sliceFrom text length)

def terms (text : Text) : Checked (Except Duration.Error (List Duration.Term)) := do
  if text = [] then return .ok []
  else
    let (number, afterNumber) ← cutBehind Duration.isNumeral text
    if Duration.isNumber number = false then return .error .invalid
    else
      let (unit, afterUnit) ← cutBehind (fun c => !Duration.isNumeral c) afterNumber
      if unit.isEmpty then return .error .missingUnit
      else
        match Duration.Unit.ofText? unit with
        | none => return .error (.unknownUnit unit)
        | some u =>
            let rest ← shorter text afterUnit
            return (← terms rest.1).map fun ts => ⟨number, u⟩ :: ts
termination_by text.length
decreasing_by exact rest.2

def splitSign (text : Text) : Checked (Bool × Text) := do
  match text.head? with
  | some '-' => return (true, ← sliceFrom text 1)
  | some '+' => return (false, ← sliceFrom text 1)
  | _ => return (false, text)

def duration (text : Text) : Checked (Except Duration.Error Float) := do
  let signed ← splitSign text
  if signed.2 = ['0'] then return .ok 0.0
  else if signed.2.isEmpty then return .error .invalid
  else
    return (← terms signed.2).map fun ts =>
      if signed.1 then -(Duration.sum ts) else Duration.sum ts

theorem cutBehind_eq (p : Char → Bool) (text : Text) :
    cutBehind p text = .ok (text.takeWhile p, text.dropWhile p) := by
  have hsplit : text = text.takeWhile p ++ text.dropWhile p :=
    List.takeWhile_append_dropWhile.symm
  rw [cutBehind, sliceTo_eq hsplit rfl, ok_bind, sliceFrom_eq hsplit rfl]
  rfl

theorem shorter_eq {text rest : Text} (h : rest.length < text.length) :
    shorter text rest = .ok ⟨rest, h⟩ :=
  dif_pos h

theorem length_afterUnit_lt {text : Text}
    (h : ¬ Duration.isNumber (text.takeWhile Duration.isNumeral) = false) :
    ((text.dropWhile Duration.isNumeral).dropWhile fun c => !Duration.isNumeral c).length <
      text.length := by
  have hne : text.takeWhile Duration.isNumeral ≠ [] := by
    intro hnil
    rw [hnil] at h
    exact h rfl
  have hlen := congrArg List.length (List.takeWhile_append_dropWhile
    (p := Duration.isNumeral) (l := text))
  have hpos := List.length_pos_iff.mpr hne
  have hle := length_dropWhile_le (fun c => !Duration.isNumeral c)
    (text.dropWhile Duration.isNumeral)
  rw [List.length_append] at hlen
  omega

@[simp] theorem terms_eq (text : Text) : terms text = .ok (Duration.terms text) := by
  fun_induction Duration.terms text with
  | case1 => rw [terms, if_pos rfl]; rfl
  | case2 c rest number h =>
      rw [terms, if_neg (List.cons_ne_nil _ _), cutBehind_eq, ok_bind]
      exact if_pos h
  | case3 c rest number after unit hn hunit =>
      rw [terms, if_neg (List.cons_ne_nil _ _), cutBehind_eq, ok_bind]
      simp only [cutBehind_eq, ok_bind]
      rw [if_neg hn]
      exact if_pos hunit
  | case4 c rest number after unit hn hunit hnone =>
      rw [terms, if_neg (List.cons_ne_nil _ _), cutBehind_eq, ok_bind]
      simp only [cutBehind_eq, ok_bind]
      rw [if_neg hn, if_neg hunit, hnone]
      rfl
  | case5 c rest number after unit afterUnit hn hunit u hu ih =>
      rw [terms, if_neg (List.cons_ne_nil _ _), cutBehind_eq, ok_bind]
      simp only [cutBehind_eq, ok_bind, shorter_eq (length_afterUnit_lt hn)]
      rw [if_neg hn, if_neg hunit, hu]
      simp only
      rw [show terms _ = _ from ih]
      rfl

@[simp] theorem splitSign_eq (text : Text) : splitSign text = .ok (Duration.splitSign text) := by
  have hfrom (c : Char) (h : c.utf8Size = 1) (rest : Text) : sliceFrom (c :: rest) 1 = .ok rest :=
    sliceFrom_eq (a := [c]) rfl (by rw [Text.byteLength_cons, h]; rfl)
  unfold splitSign Duration.splitSign
  split
  · rename_i h
    obtain ⟨rest, rfl⟩ := List.head?_eq_some_iff.mp h
    rw [hfrom '-' rfl]
    rfl
  · rename_i h
    obtain ⟨rest, rfl⟩ := List.head?_eq_some_iff.mp h
    rw [hfrom '+' rfl]
    rfl
  · rename_i hminus hplus
    split
    · exact absurd rfl hminus
    · exact absurd rfl hplus
    · rfl

@[simp] theorem duration_eq (text : Text) : duration text = .ok (Duration.parse text) := by
  rw [duration, splitSign_eq, ok_bind, Duration.parse]
  simp only [terms_eq, ok_bind, pure_eq]
  split
  · rfl
  · split <;> rfl

/-! ## Arguments -/

def quotes (inst : Instruction) : Checked (List Finding) :=
  filterMap (fun arg => do
    match arg.openQuote with
    | none => return none
    | some opened =>
        let place ← span opened.offset (max (← fullSpan arg.content).stop opened.offset)
        return some
          ⟨if opened.quote = '\x27' then .missingSingleQuote else .missingDoubleQuote, place⟩)
    inst.arguments

@[simp] theorem quotes_eq (inst : Instruction) : quotes inst = .ok (Check.quotes inst) := by
  refine filterMap_eq fun arg _ => ?_
  cases arg.openQuote with
  | none => rfl
  | some opened =>
      simp only [fullSpan_eq, span_max, ok_bind, pure_eq]
      rfl

def pairs (keyword : Keyword) (inst : Instruction) : Checked (List Finding) := do
  match ← properties inst with
  | [p] =>
      if !p.name.isEmpty && p.value.isNone then
        return [⟨.argumentRequiresTwo inst.keyword.text, p.span⟩]
      else return Check.pair keyword p
  | properties => return properties.flatMap (Check.pair keyword)

@[simp] theorem pairs_eq (keyword : Keyword) (inst : Instruction) :
    pairs keyword inst = .ok (Check.pairs keyword inst) := by
  unfold pairs Check.pairs
  rw [properties_eq, ok_bind]
  cases inst.properties with
  | nil => rfl
  | cons p rest =>
      cases rest with
      | nil =>
          dsimp only
          split <;> rfl
      | cons q rest => rfl

def exposedPort (arg : Argument) (stop : Nat) : Checked (List Finding) := do
  let port ← sliceTo arg.text stop
  if isValidPort port then return []
  else return [⟨.invalidPort port, ← spanAt arg.content 0 stop⟩]

def exposedProtocol (arg : Argument) (start : Nat) : Checked (List Finding) := do
  let protocol ← sliceFrom arg.text start
  if isValidProtocol protocol then return []
  else return [⟨.invalidProtocol protocol, ← spanAt arg.content start (Text.byteLength arg.text)⟩]

def exposed (arg : Argument) : Checked (List Finding) := do
  if arg.text.contains '$' then return []
  else
    let slash := Text.byteLength (arg.text.takeWhile fun c => c != '/')
    if arg.text.contains '/' then
      return (← exposedPort arg slash) ++ (← exposedProtocol arg (slash + 1))
    else exposedPort arg slash

theorem exposedPort_eq {arg : Argument} {port after : List Placed}
    (h : arg.content.chars = port ++ after) :
    exposedPort arg (total Placed.size port) =
      .ok (if isValidPort (Placed.text port) then []
        else [⟨.invalidPort (Placed.text port), (arg.content.part port after).span⟩]) := by
  have hplace := spanAt_part (a := []) h
  have htext := slice_text (a := []) h
  rw [total_nil, Nat.zero_add] at hplace htext
  rw [exposedPort, show sliceTo arg.text _ = _ from htext, spanAt_eq, hplace]
  simp only [ok_bind, pure_eq]
  split <;> rfl

theorem exposedProtocol_eq {arg : Argument} {front rest : List Placed} {start : Nat}
    (h : arg.content.chars = front ++ rest) (hstart : start = total Placed.size front) :
    exposedProtocol arg start =
      .ok (if isValidProtocol (Placed.text rest) then []
        else [⟨.invalidProtocol (Placed.text rest), (arg.content.part rest []).span⟩]) := by
  have h : arg.content.chars = front ++ (rest ++ []) := by rw [h, List.append_nil]
  have hlen : Text.byteLength arg.text = total Placed.size front + total Placed.size rest := by
    rw [Argument.text, Excerpt.text, ← Placed.total_size, h]
    simp
  rw [exposedProtocol, sliceFrom, hstart, hlen, show slice arg.text _ _ = _ from slice_text h,
    spanAt_eq, spanAt_part h]
  simp only [ok_bind, pure_eq]
  split <;> rfl

@[simp] theorem exposed_eq (arg : Argument) : exposed arg = .ok (Check.exposed arg) := by
  obtain ⟨hlen, hcases⟩ := search_cases '/' arg.content.chars
  have happend := @List.takeWhile_append_dropWhile _ (fun p : Placed => p.char != '/')
    arg.content.chars
  have hport := exposedPort_eq happend.symm
  unfold exposed Check.exposed
  dsimp only
  split
  · rfl
  rw [show Text.byteLength (arg.text.takeWhile _) = _ from hlen]
  rcases hcases with ⟨hslash, -, hnone⟩ | ⟨p, rest, hslash, hchar, hsome, hchars⟩
  · rw [if_neg (by rw [show arg.text.contains '/' = false from hslash]; exact Bool.false_ne_true)]
    rw [hnone] at hport ⊢
    rw [hport, List.append_nil]
    rfl
  · have hsize : p.size = 1 := by rw [Placed.size, hchar]; rfl
    rw [List.append_cons] at hchars
    have hstart : total Placed.size (arg.content.chars.takeWhile fun p => p.char != '/') + 1 =
        total Placed.size ((arg.content.chars.takeWhile fun p => p.char != '/') ++ [p]) := by
      rw [total_append, total_cons, hsize]
      rfl
    have hprotocol := exposedProtocol_eq hchars hstart
    rw [if_pos (show arg.text.contains '/' = true from hslash)]
    rw [hsome] at hport ⊢
    rw [hport, ok_bind, hprotocol]
    rfl

def fromImage (inst : Instruction) : Checked (List Finding) := do
  match ← positional inst with
  | [] => return [⟨.argumentMissing inst.keyword.text, inst.keywordSpan⟩]
  | [_] => return []
  | [_, as, name] =>
      if !Check.isAs as then return [⟨.invalidAs, as.span⟩]
      else if !isValidStageName name.text then
        return [⟨.invalidStageName name.text, name.span⟩]
      else return []
  | first :: second :: rest =>
      let oneOrThree : Checked (List Finding) := do
        let last := rest.getLast?.getD second
        return [⟨.argumentRequiresOneOrThree, ← cover first.span last.span⟩]
      match rest with
      | name :: extra =>
          if Check.isAs second && isValidStageName name.text then
            return extra.map fun arg => ⟨.argumentExtra arg.text, arg.span⟩
          else oneOrThree
      | [] => oneOrThree

@[simp] theorem fromImage_eq (inst : Instruction) :
    fromImage inst = .ok (Check.fromImage inst) := by
  unfold fromImage Check.fromImage
  rw [positional_eq, ok_bind]
  rcases inst.positional with _ | ⟨first, _ | ⟨second, rest⟩⟩
  · rfl
  · rfl
  have hcover (b : Span) : cover first.span b = .ok (first.span.cover b) :=
    cover_eq (Nat.le_max_right _ _)
  rcases rest with _ | ⟨name, _ | ⟨next, extra⟩⟩
  · simp only [hcover, ok_bind, pure_eq]
  · dsimp only
    split
    · rfl
    · split <;> rfl
  · simp only [hcover, ok_bind, pure_eq]
    split <;> rfl

def shell (inst : Instruction) : Checked (List Finding) := do
  match StringArray.parse '"' inst.escape inst.region with
  | .ok array => return if array.strings.isEmpty then [⟨.shellRequiresOne, array.span⟩] else []
  | .error _ => return [⟨.shellArrayForm, ← fullSpan (← trim inst.region)⟩]

@[simp] theorem shell_eq (inst : Instruction) : shell inst = .ok (Check.shell inst) := by
  unfold shell Check.shell
  simp only [trim_eq, fullSpan_eq, ok_bind, pure_eq]
  cases StringArray.parse '"' inst.escape inst.region <;> rfl

def copy (inst : Instruction) : Checked (List Finding) := do
  let region ← positionalRegion inst
  let count ←
    match StringArray.parse '"' inst.escape region with
    | .ok array => pure array.strings.length
    | .error _ => List.length <$> positional inst
  if 2 ≤ count then return []
  else
    let place ← if region.isEmpty then pure inst.keywordSpan else fullSpan region
    return [⟨.argumentRequiresAtLeastTwo inst.keyword.text, place⟩]

@[simp] theorem copy_eq (inst : Instruction) : copy inst = .ok (Check.copy inst) := by
  unfold copy Check.copy
  simp only [positionalRegion_eq, positional_eq, fullSpan_eq, map_ok, ok_bind, pure_eq]
  cases StringArray.parse '"' inst.escape inst.positionalRegion with
  | ok | error =>
      dsimp only
      split
      · rfl
      · cases inst.positionalRegion.isEmpty <;> rfl

/-! ## Health checks -/

def durationProblem? (name value : Text) : Checked (Option Problem) := do
  match ← duration value with
  | .ok nanoseconds =>
      return if nanoseconds < Check.shortestDuration then some (.durationTooShort name) else none
  | .error .invalid => return some (.durationInvalid value)
  | .error .missingUnit => return some (.durationMissingUnit value)
  | .error (.unknownUnit unit) => return some (.durationUnknownUnit unit value)

def healthcheckFlag (f : Flag) : Checked (List Finding) := do
  match f.value with
  | none => return []
  | some value =>
      if value.isEmpty then return []
      else
        let name := f.name.text
        let problem ←
          if Check.durationFlags.any fun n => n.toList == name then durationProblem? name value.text
          else if name = "retries".toList then pure (Check.retries value.text)
          else pure none
        return problem.toList.map fun p => ⟨p, value.span⟩

def healthcheckCommand (inst : Instruction) : Checked (List Finding) := do
  let positional ← positional inst
  match positional.head? with
  | none => return [⟨.healthcheckCommandMissing, inst.keywordSpan⟩]
  | some first =>
      if Text.sameIgnoringCase first.text "NONE".toList then
        return (← items positional 1 positional.length).map fun arg =>
          ⟨.argumentUnnecessary, arg.span⟩
      else if !Text.sameIgnoringCase first.text "CMD".toList || positional.length == 1 then
        return [⟨.healthcheckCommandMissing, first.span⟩]
      else return []

def healthcheck (inst : Instruction) : Checked (List Finding) := do
  return (← flatMap healthcheckFlag (← flags inst)) ++ (← healthcheckCommand inst)

theorem durationProblem?_eq (name value : Text) :
    durationProblem? name value = .ok (Check.duration name value) := by
  unfold durationProblem? Check.duration
  rw [duration_eq, ok_bind]
  rcases Duration.parse value with (_ | _ | unit) | nanoseconds <;> rfl

theorem healthcheckFlag_eq (f : Flag) : healthcheckFlag f = .ok (Check.healthcheckFlag f) := by
  unfold healthcheckFlag Check.healthcheckFlag
  cases f.value with
  | none => rfl
  | some value =>
      simp only [durationProblem?_eq, pure_eq]
      split
      · rfl
      · split
        · rfl
        · split <;> rfl

theorem healthcheckCommand_eq (inst : Instruction) :
    healthcheckCommand inst = .ok (Check.healthcheckCommand inst) := by
  unfold healthcheckCommand Check.healthcheckCommand
  rw [positional_eq, ok_bind]
  cases inst.positional with
  | nil => rfl
  | cons first rest =>
      have hrest : items (first :: rest) 1 (first :: rest).length = .ok rest :=
        items_length (Nat.succ_le_succ (Nat.zero_le _))
      have hone : ((first :: rest).length == 1) = rest.isEmpty := by cases rest <;> rfl
      simp only [List.head?_cons, hrest, hone, ok_bind]
      split
      · rfl
      · split <;> rfl

@[simp] theorem healthcheck_eq (inst : Instruction) :
    healthcheck inst = .ok (Check.healthcheck inst) := by
  rw [healthcheck, flags_eq, ok_bind, flatMap_eq fun f _ => healthcheckFlag_eq f, ok_bind,
    healthcheckCommand_eq]
  rfl

/-! ## Single instructions -/

def ofKeyword (keyword : Keyword) (inst : Instruction) : Checked (List Finding) :=
  match keyword with
  | .ADD | .COPY => copy inst
  | .ENV | .LABEL => pairs keyword inst
  | .EXPOSE => flatMap exposed inst.arguments
  | .FROM => fromImage inst
  | .HEALTHCHECK => healthcheck inst
  | .SHELL => shell inst
  | .ARG | .CMD | .ENTRYPOINT | .RUN | .STOPSIGNAL | .USER | .VOLUME | .MAINTAINER | .ONBUILD |
    .WORKDIR => return Check.ofKeyword keyword inst

@[simp] theorem ofKeyword_eq (keyword : Keyword) (inst : Instruction) :
    ofKeyword keyword inst = .ok (Check.ofKeyword keyword inst) := by
  cases keyword <;> simp only [ofKeyword, Check.ofKeyword, copy_eq, pairs_eq, fromImage_eq,
    healthcheck_eq, shell_eq, pure_eq, flatMap_eq fun arg _ => exposed_eq arg]

/-- The quotes that are not closed, where the kind of the instruction is looked at for them. -/
def quotesOf (k : Keyword) (inst : Instruction) : Checked (List Finding) :=
  if k.checksQuotes && !(k = .VOLUME && Check.isArrayVolume inst) then quotes inst else return []

@[simp] theorem quotesOf_eq (k : Keyword) (inst : Instruction) :
    quotesOf k inst =
      .ok (if k.checksQuotes && !(k = .VOLUME && Check.isArrayVolume inst) then Check.quotes inst
        else []) := by
  rw [quotesOf, quotes_eq]
  split <;> rfl

def instructionFindings (inst : Instruction) : Checked (List Finding) := do
  match inst.kind with
  | none => return [⟨.unknownInstruction inst.keyword.text, inst.keywordSpan⟩]
  | some k =>
      if inst.arguments.isEmpty then
        return Check.keyword k inst ++ [⟨.argumentMissing inst.keyword.text, inst.keywordSpan⟩]
      else
        let opened ← quotesOf k inst
        let flags ← flags inst
        let front := Check.keyword k inst ++ (opened ++ if k.bearsFlags then Check.flags k flags else [])
        match ← deferred? inst with
        | none => return front ++ (← ofKeyword k inst)
        | some trigger =>
            match trigger.1.kind with
            | some .ONBUILD => return front ++ [⟨.onbuildChaining, trigger.1.keywordSpan⟩]
            | some .FROM | some .MAINTAINER =>
                return front ++ [⟨.onbuildTrigger trigger.1.keyword.text, trigger.1.keywordSpan⟩]
            | _ => return front ++ (← instructionFindings trigger.1)
termination_by inst.region.chars.length
decreasing_by exact trigger.2

@[simp] theorem instructionFindings_eq (inst : Instruction) :
    instructionFindings inst = .ok (Check.instruction inst) := by
  rw [instructionFindings, Check.instruction]
  cases inst.kind with
  | none => rfl
  | some k =>
      dsimp only
      split
      · rfl
      rw [quotesOf_eq, ok_bind, flags_eq, ok_bind]
      cases htrigger : inst.trigger? with
      | none =>
          simp only [deferred?_none htrigger, ofKeyword_eq, ok_bind, pure_eq, List.append_assoc]
      | some t =>
          obtain ⟨hlt, hdeferred⟩ := deferred?_some htrigger
          simp only [hdeferred, ok_bind, instructionFindings_eq t, pure_eq, List.append_assoc]
          cases t.kind with
          | none => rfl
          | some k => cases k <;> rfl
termination_by inst.region.chars.length
decreasing_by exact hlt

/-! ## Whole files -/

def fileFindings (file : File) (scopes : ScopeTable) : Checked (List Finding) := do
  let single ← flatMap (fun inst => do
    return (← instructionFindings inst) ++ inst.emptyLines.map fun line =>
      ⟨.emptyContinuationLine, line⟩) file.instructions
  return file.directives.flatMap Check.directive ++ Check.sourceImage file.instructions ++ single ++
    Check.duplicateStages scopes.stages ++ Check.overridden .CMD scopes.sites ++
    Check.overridden .ENTRYPOINT scopes.sites ++ Check.overridden .HEALTHCHECK scopes.sites

@[simp] theorem fileFindings_eq (file : File) (scopes : ScopeTable) :
    fileFindings file scopes = .ok (Check.file file scopes) := by
  have hsingle : flatMap (fun inst => do
      return (← instructionFindings inst) ++ inst.emptyLines.map fun line =>
        ⟨.emptyContinuationLine, line⟩) file.instructions =
      .ok (file.instructions.flatMap Check.withEmptyLines) :=
    flatMap_eq fun inst _ => by rw [instructionFindings_eq]; rfl
  rw [fileFindings, hsingle]
  rfl

def report? (text : Text) (settings : Settings) (f : Finding) : Checked (Option Diagnostic) := do
  match settings.severity? f.problem with
  | none => return none
  | some severity =>
      let length := Text.byteLength text
      let start := min f.span.start length
      let place ← widen text (← span start (max (min f.span.stop length) start))
      return some ⟨place, ← rangeOf text place, severity, f.problem.code, f.problem.message⟩

/-- The reports about a file, ordered by place. -/
def diagnostics (text : Text) (f : File) (scopes : ScopeTable) (settings : Settings) :
    Checked (List Diagnostic) := do
  return (← filterMap (report? text settings) (← fileFindings f scopes)).mergeSort Diagnostic.le

theorem floorBoundary_max (text : Text) (a b : Nat) :
    Text.floorBoundary text (max a b) = max (Text.floorBoundary text a) (Text.floorBoundary text b) := by
  rcases Nat.le_total a b with h | h
  · rw [Nat.max_eq_right h, Nat.max_eq_right (Text.floorBoundary_mono text h)]
  · rw [Nat.max_eq_left h, Nat.max_eq_left (Text.floorBoundary_mono text h)]

/-- Nothing is lost by cutting a place off at the end of the text before it is widened. -/
theorem widen_min (text : Text) (s : Span) :
    Text.widen text ⟨min s.start (Text.byteLength text),
      max (min s.stop (Text.byteLength text)) (min s.start (Text.byteLength text))⟩ =
        Text.widen text s := by
  have hclamp : Text.clampSpan text ⟨min s.start (Text.byteLength text),
      max (min s.stop (Text.byteLength text)) (min s.start (Text.byteLength text))⟩ =
        Text.clampSpan text s := by
    simp only [Text.clampSpan, floorBoundary_max, floorBoundary_min, Span.mk.injEq, true_and]
    omega
  simp only [Text.widen, hclamp]

@[simp] theorem report?_eq (text : Text) (settings : Settings) (f : Finding) :
    report? text settings f = .ok (Diagnostic.ofFinding? text settings f) := by
  unfold report? Diagnostic.ofFinding?
  simp only [span_max, widen_eq, widen_min, rangeOf_eq, ok_bind, pure_eq]
  cases settings.severity? f.problem <;> rfl

@[simp] theorem diagnostics_eq (text : Text) (f : File) (scopes : ScopeTable) (settings : Settings) :
    diagnostics text f scopes settings = .ok (Check.diagnostics text f scopes settings) := by
  rw [diagnostics, fileFindings_eq, ok_bind, filterMap_eq fun f _ => report?_eq text settings f]
  rfl

end Checked

end Dockerfile
