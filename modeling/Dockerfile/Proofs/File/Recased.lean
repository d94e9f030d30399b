import Dockerfile.Proofs.Body.Recased
import Dockerfile.Proofs.Directive.Entry
import Dockerfile.Proofs.File.Respelled

/-!
# Keywords in other cases

If letters of keywords are changed in case, a text has the same directives and the same instructions,
up to the spelling of the keywords (`File.parse_recased`): no reader of a body looks at case, and no
keyword stands in a directive or in a comment.
-/

namespace Dockerfile

/-! ## The change as a map -/

/-- Related lists are related by a function on the members of the first, if none occurs twice. -/
theorem exists_map_of_forall₂ {α β : Type} [DecidableEq α] {R : α → β → Prop} (other : α → β)
    {xs : List α} {ys : List β} (h : List.Forall₂ R xs ys) (hnodup : xs.Nodup) :
    ∃ g : α → β, ys = xs.map g ∧ (∀ x ∈ xs, R x (g x)) ∧ ∀ x, x ∉ xs → g x = other x := by
  induction h with
  | nil => exact ⟨other, rfl, by simp, fun _ _ => rfl⟩
  | @cons x y xs ys hxy _ ih =>
      obtain ⟨hx, hnodup⟩ := List.nodup_cons.mp hnodup
      obtain ⟨g, rfl, hmem, hother⟩ := ih hnodup
      have hsame : ∀ z ∈ xs, Function.update g x y z = g z := by
        intro z hz
        refine Function.update_of_ne ?_ y g
        rintro rfl
        exact hx hz
      refine ⟨Function.update g x y, ?_, ?_, ?_⟩
      · rw [List.map_cons, Function.update_self, List.map_congr_left hsame]
      · intro z hz
        rcases List.mem_cons.mp hz with rfl | hz
        · rwa [Function.update_self]
        · rw [hsame z hz]
          exact hmem z hz
      · intro z hz
        obtain ⟨hne, hz⟩ := not_or.mp (mt List.mem_cons.mpr hz)
        rw [Function.update_of_ne hne]
        exact hother z hz

namespace Text

/-- Characters changed for others of their size stay in their places. -/
theorem place_map {g : Placed → Char} {offset : Nat} {text : Text}
    (h : ∀ p ∈ place offset text, (g p).utf8Size = p.size) :
    place offset ((place offset text).map g) =
      (place offset text).map fun p => ⟨g p, p.offset⟩ := by
  induction text generalizing offset with
  | nil => rfl
  | cons c text ih =>
      have hhead : (g ⟨c, offset⟩).utf8Size = c.utf8Size := h _ List.mem_cons_self
      rw [place_cons, List.map_cons, place_cons, List.map_cons, hhead,
        ih fun p hp => h p (List.mem_cons_of_mem _ hp)]

end Text

/-! ## The same directives -/

namespace Directive

variable {f : Placed → Placed} (hf : Recasing f) {escape : Char} {stop offset : Nat}
  {body body' : Text} {line : Line} {tail : List Line}
include hf

/-- The first line of a body stays no directive if letters of its keywords change in case. -/
theorem exists_line_recased (hbody : Text.place offset body' = (Text.place offset body).map f)
    (hfixed : ∀ p ∈ Text.place offset body,
      (∀ line ∈ Body.logicalLines escape stop (Text.place offset body), p ∉ line.chars) → f p = p)
    (hfrom : Text.linesFrom offset offset body = line :: tail) (hline : ofLine? line = none) :
    ∃ line' tail', Text.linesFrom offset offset body' = line' :: tail' ∧ ofLine? line' = none := by
  have hlower : Text.lowercase body' = Text.lowercase body := by
    rw [← Text.text_place offset body', hbody, hf.lowercase_text, Text.text_place]
  obtain ⟨line', tail', hfrom', hsame⟩ : ∃ line' tail',
      Text.linesFrom offset offset body' = line' :: tail' ∧ line'.lowercase = line.lowercase := by
    have hlines := Text.linesFrom_lowercase offset offset body'
    rw [hlower, Text.linesFrom_lowercase, hfrom, List.map_cons] at hlines
    obtain ⟨line', tail', hcons, hhead, -⟩ := List.map_eq_cons_iff.mp hlines.symm
    exact ⟨line', tail', hcons, hhead⟩
  refine ⟨line', tail', hfrom', ?_⟩
  have hlined := lined_linesFrom offset body
  rw [hfrom] at hlined
  obtain ⟨rest, hrest, -, hclean, -⟩ := hlined.exists_head
  have hcontent : Text.lowercase line'.content = Text.lowercase line.content :=
    congrArg Line.content hsame
  by_cases hmark : (line.content.dropWhile isBlank).head? = some '#'
  · -- No keyword stands in a comment, so the line is the same.
    have hkept : ∀ p ∈ Text.place offset line.content, f p = p := by
      obtain ⟨blanks, text, more, hsplit, hblanks, htext, hmore⟩ := Text.exists_comment hmark
      have hmore : more = [] := by
        cases more with
        | nil => rfl
        | cons c more =>
            have hbreak := hclean c (by rw [hsplit]; simp)
            rw [hmore c rfl] at hbreak
            cases hbreak
      rw [hmore, List.append_nil] at hsplit
      intro p hp
      refine hfixed p ?_ fun other hother hmem => ?_
      · rw [hrest, Text.place_append]
        exact List.mem_append_left _ hp
      · rw [hrest, hsplit] at hother
        rw [hsplit] at hp
        exact Body.not_mem_of_comment hblanks htext hother hmem hp
    have hbody' := congrArg Placed.text hbody
    rw [Text.text_place, hrest, Text.place_append, List.map_append, List.map_congr_left hkept,
      List.map_id', Placed.text_append, Text.text_place] at hbody'
    have hlined' := lined_linesFrom offset body'
    rw [hfrom'] at hlined'
    obtain ⟨rest', hrest', -⟩ := hlined'.exists_head
    have hsame : line'.content = line.content :=
      (List.append_inj (hrest'.symm.trans hbody') (Text.length_eq_of_lowercase hcontent)).1
    exact ofLine?_eq_none_congr (by rw [hsame]) hline
  · refine ofLine?_eq_none fun c hc hmark' => hmark ?_
    have hhead := Text.head?_eq_of_lowercase (Text.trimBlanksStart_eq_of_lowercase hcontent)
      (by decide : Caseless '#')
    exact hhead.mp (by rw [← hmark']; exact hc)

end Directive

/-! ## The same instructions -/

def Placed.capitalized (p : Placed) : Placed :=
  ⟨p.char.toUpper, p.offset⟩

def Instruction.capitalized (inst : Instruction) : Instruction :=
  { inst with keyword := inst.keyword.mapChars Placed.capitalized }

theorem Instruction.capitalized_recased {f : Placed → Placed} (hf : Recasing f) (inst : Instruction) :
    capitalized { inst with keyword := inst.keyword.mapChars f } = inst.capitalized := by
  have hchars : ∀ p, (f p).capitalized = p.capitalized := by
    intro p
    rw [Placed.capitalized, Placed.capitalized, ← toUpper_toLower, hf.lower, toUpper_toLower,
      hf.offset]
  simp only [capitalized, Excerpt.mapChars, List.map_map, Function.comp_def, hchars]

namespace File

/-- The text differs only in the case of letters of its keywords. -/
def Recased (text text' : Text) : Prop :=
  List.Forall₂ (fun p c => c = p.char ∨
      c.toLower = p.char.toLower ∧ ∃ inst ∈ (parse text).instructions, p ∈ inst.keyword.chars)
    (Text.place 0 text) text'

instance (text text' : Text) : Decidable (Recased text text') :=
  decidable_of_iff
    ((Text.place 0 text).length = text'.length ∧ ∀ q ∈ (Text.place 0 text).zip text',
      q.2 = q.1.char ∨ q.2.toLower = q.1.char.toLower ∧
        ∃ inst ∈ (parse text).instructions, q.1 ∈ inst.keyword.chars)
    ⟨fun h => List.forall₂_iff_zip.mpr ⟨h.1, fun {_ _} hmem => h.2 _ hmem⟩,
      fun h => ⟨h.length_eq, fun _ hmem => (List.forall₂_iff_zip.mp h).2 hmem⟩⟩

theorem exists_recasing {text text' : Text} (h : Recased text text') :
    ∃ f, Recasing f ∧ Text.place 0 text' = (Text.place 0 text).map f ∧
      ∀ p, (∀ inst ∈ (parse text).instructions, p ∉ inst.keyword.chars) → f p = p := by
  obtain ⟨g, htext', hmem, hother⟩ :=
    exists_map_of_forall₂ Placed.char h (Text.nodup_place 0 text)
  have hlower : ∀ p, (g p).toLower = p.char.toLower := by
    intro p
    by_cases hp : p ∈ Text.place 0 text
    · rcases hmem p hp with hsame | ⟨hlower, -⟩
      · rw [hsame]
      · exact hlower
    · rw [hother p hp]
  refine ⟨fun p => ⟨g p, p.offset⟩, ⟨fun _ => rfl, hlower⟩, ?_, ?_⟩
  · rw [htext', Text.place_map]
    intro p _
    rw [← utf8Size_toLower, hlower, utf8Size_toLower]
    rfl
  · intro p hfixed
    have hchar : g p = p.char := by
      by_cases hp : p ∈ Text.place 0 text
      · rcases hmem p hp with hsame | ⟨-, inst, hinst, hkeyword⟩
        · exact hsame
        · exact absurd hkeyword (hfixed inst hinst)
      · exact hother p hp
    exact congrArg (Placed.mk · p.offset) hchar

theorem caseless_escape (directives : List Directive) : Caseless (escapeUnder directives) := by
  rcases escapeUnder_eq directives with h | h <;> rw [h] <;> decide

theorem not_mem_keyword_of_region {text : Text} {inst : Instruction}
    (h : inst ∈ (parse text).instructions) {p : Placed} (hp : p ∈ inst.region.chars) :
    ∀ other ∈ (parse text).instructions, p ∉ other.keyword.chars := by
  intro other hother hp'
  obtain rfl := eq_of_mem_chars (mem_logicalLines h) (mem_logicalLines hother)
    (List.mem_append_right _ hp) (List.mem_append_left _ hp')
  have hnodup := (Text.nodup_place 0 text).sublist (instruction_within h).chars
  exact (List.nodup_append.mp hnodup).2.2 p hp' p hp rfl

/-- Changing the case of letters in keywords changes neither the directives nor the lines of the
body, but for these letters. -/
theorem logicalLines_recased {text text' : Text} {f : Placed → Placed} (hf : Recasing f)
    (hplace : Text.place 0 text' = (Text.place 0 text).map f)
    (hfixed : ∀ p, (∀ inst ∈ (parse text).instructions, p ∉ inst.keyword.chars) → f p = p) :
    (parse text').directives = (parse text).directives ∧
      logicalLines text' = (logicalLines text).map (Instruction.mapChars f) := by
  have hlower : Text.lowercase text' = Text.lowercase text := by
    rw [← Text.text_place 0 text', hplace, hf.lowercase_text, Text.text_place]
  have hstop : Text.byteLength text' = Text.byteLength text := by
    rw [← Text.byteLength_lowercase, hlower, Text.byteLength_lowercase]
  obtain ⟨taken, found, last, htaken, hends⟩ := Directive.exists_taken text
  rcases hends with hall | ⟨front, body, line, tail, ⟨rfl, hleading, hlined, -⟩, hnone, hclosed⟩
  · -- Without a body nothing changes.
    have hread := (Directive.readAll_of_taken htaken).1 hall
    have hnil : logicalLines text = [] := by
      rw [(parse_of_readAll hread).2.2, Directive.bodyChars_byteLength, (Body.read_of_nil rfl).2]
    have hsame : text' = text := by
      have hid : ∀ p ∈ Text.place 0 text, f p = p := by
        intro p _
        refine hfixed p fun inst hinst => ?_
        have hline := mem_logicalLines hinst
        rw [hnil] at hline
        cases hline
      rw [← Text.text_place 0 text', hplace, List.map_congr_left hid, List.map_id', Text.text_place]
    rw [hsame, hnil]
    exact ⟨rfl, rfl⟩
  · have hfrom := hlined.linesFrom_eq
    have hread := (Directive.readAll_of_taken htaken).2 rfl hleading hfrom hnone hclosed
    obtain ⟨hd, -, hl⟩ := parse_of_readAll hread
    rw [Directive.bodyChars_append] at hl
    have hfront : ∀ p ∈ Text.place 0 front, f p = p := by
      intro p hp
      refine hfixed p fun inst hinst hkeyword => ?_
      have hline := mem_logicalLines hinst
      rw [hl] at hline
      have hbehind := Body.mem_of_mem_logicalLines hline (List.mem_append_left _ hkeyword)
      have := (Text.offset_of_mem_place hp).2
      have := (Text.offset_of_mem_place hbehind).1
      have := p.offset_lt_stop
      omega
    rw [Text.place_append, List.map_append, List.map_congr_left hfront, List.map_id', Nat.zero_add]
      at hplace
    obtain ⟨htext', -, hbody'⟩ := Text.split_of_place_eq hplace
    rw [Text.text_place] at htext' hbody'
    rw [Nat.zero_add] at hbody'
    generalize Placed.text ((Text.place (Text.byteLength front) body).map f) = body' at htext' hbody'
    subst htext'
    have hlower' : Text.lowercase body' = Text.lowercase body := by
      rw [← Text.text_place (Text.byteLength front) body', ← hbody', hf.lowercase_text,
        Text.text_place]
    obtain ⟨line', tail', hfrom', hnone'⟩ := Directive.exists_line_recased hf hbody'.symm
      (fun p _ hfree => hfixed p fun inst hinst hkeyword =>
        hfree inst (hl ▸ mem_logicalLines hinst) (List.mem_append_left _ hkeyword)) hfrom hnone
    have hleading' : Text.Leading front body' taken :=
      ⟨fun h => hleading.eq fun h' =>
        (Text.head?_eq_of_lowercase hlower' (by decide)).mp (h h'), hleading.start_lt⟩
    have hread' := (Directive.readAll_of_taken htaken).2 rfl hleading' hfrom' hnone' hclosed
    obtain ⟨hd', -, hl'⟩ := parse_of_readAll hread'
    rw [Directive.bodyChars_append, ← hbody', hstop,
      Body.logicalLines_recased hf (caseless_escape found), ← hl] at hl'
    exact ⟨hd'.trans hd.symm, hl'⟩

/-- Changing the case of letters in keywords changes only how these keywords are spelled. -/
theorem parse_recased {text text' : Text} (h : Recased text text') :
    Text.lowercase text' = Text.lowercase text ∧
      (parse text').directives = (parse text).directives ∧
      (parse text').instructions.map Instruction.capitalized =
        (parse text).instructions.map Instruction.capitalized := by
  obtain ⟨f, hf, hplace, hfixed⟩ := exists_recasing h
  obtain ⟨hd, hlines⟩ := logicalLines_recased hf hplace hfixed
  refine ⟨?_, hd, ?_⟩
  · rw [← Text.text_place 0 text', hplace, hf.lowercase_text, Text.text_place]
  · have hnamed : Instruction.isNamed ∘ Instruction.mapChars f = Instruction.isNamed :=
      funext fun _ => congrArg not List.isEmpty_map
    rw [instructions_parse, hlines, List.filter_map, hnamed, ← instructions_parse, List.map_map]
    refine List.map_congr_left fun inst hinst => ?_
    have hregion : inst.region.mapChars f = inst.region := by
      have hid : ∀ p ∈ inst.region.chars, f p = p := fun p hp =>
        hfixed p (not_mem_keyword_of_region hinst hp)
      rw [Excerpt.mapChars, List.map_congr_left hid, List.map_id']
    simp only [Function.comp_apply, Instruction.mapChars, hregion]
    exact Instruction.capitalized_recased hf inst

end File

end Dockerfile
