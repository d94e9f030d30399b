import Dockerfile.Proofs.Scope.Occurrences
import Dockerfile.Proofs.Scope.Renamed
import Dockerfile.Proofs.Scope.Resolution

/-!
# The mentions of a file

The tables of a file list its mentions of variables one by one: a declaration for each property that
declares one, a reference for each substitution (`ScopeTable.bindings_eq`, `references_eq`). Where the
mentions of one variable get a new name, the tables of the file get it at these places, and are
otherwise the same (`File.tables_respelled`).
-/

namespace Dockerfile

def Binding.ofProperty (site : Site) (p : Property) : Binding where
  name := p.name.text
  value := p.unquotedValue site.instruction.escape
  nameSpan := p.name.span
  span := p.span
  scope := site.scope
  kind := if site.instruction.isKind .ARG then .arg else .env
  instruction := site.index

def VariableReference.ofUse (bindings : List Binding) (site : Site) (s : Substitution) :
    VariableReference where
  name := Placed.text s.name
  span := s.nameSpan
  fullSpan := s.span
  instruction := site.index
  scope := site.scope
  inFrom := site.instruction.effective.isKind .FROM
  binding := Binding.resolve? bindings (Placed.text s.name) site.index site.scope
    (site.instruction.effective.isKind .FROM)

/-- A variable that is mentioned by an instruction: declared or substituted. -/
inductive Mention where
  | declaration (site : Site) (property : Property)
  | use (site : Site) (substitution : Substitution)

namespace Mention

def chars : Mention → List Placed
  | declaration _ p => p.name.chars
  | use _ s => s.name

def isDeclaration : Mention → Bool
  | declaration _ _ => true
  | use _ _ => false

def isOf (bindings : List Binding) (name : Text) (scope : Scope) : Mention → Bool
  | declaration site p => p.name.text == name && site.scope == scope
  | use site s => Placed.text s.name == name &&
      Binding.scopeFound bindings (Placed.text s.name) site.index site.scope
        (site.instruction.effective.isKind .FROM) == scope

theorem isOf_declaration {bindings : List Binding} {name : Text} {scope : Scope} {site : Site}
    {p : Property} : (declaration site p).isOf bindings name scope = true ↔
      (Binding.ofProperty site p).name = name ∧ (Binding.ofProperty site p).scope = scope := by
  simp only [isOf, Bool.and_eq_true, beq_iff_eq]
  rfl

theorem isOf_use {table : ScopeTable} {name : Text} {scope : Scope} {site : Site}
    {s : Substitution} : (use site s).isOf table.bindings name scope = true ↔
      (VariableReference.ofUse table.bindings site s).name = name ∧
        table.symbolScope (VariableReference.ofUse table.bindings site s) = scope := by
  have hscope := table.symbolScope_eq (VariableReference.ofUse table.bindings site s) rfl
  rw [hscope]
  simp only [isOf, Bool.and_eq_true, beq_iff_eq]
  rfl

theorem text_of_isOf {bindings : List Binding} {name : Text} {scope : Scope} {m : Mention}
    (h : m.isOf bindings name scope = true) : Placed.text m.chars = name := by
  cases m <;> exact eq_of_beq (Bool.and_eq_true_iff.mp h).1

end Mention

namespace Site

def declarations (sites : List Site) : List (Site × Property) :=
  sites.flatMap fun site => site.instruction.declared.map (Prod.mk site)

def uses (sites : List Site) : List (Site × Substitution) :=
  sites.flatMap fun site => site.instruction.uses.map (Prod.mk site)

def mentions (sites : List Site) : List Mention :=
  ((declarations sites).map fun d => .declaration d.1 d.2) ++ (uses sites).map fun u => .use u.1 u.2

theorem mem_declarations {sites : List Site} {d : Site × Property} :
    d ∈ declarations sites ↔ d.1 ∈ sites ∧ d.2 ∈ d.1.instruction.declared := by
  simp only [declarations, List.mem_flatMap, List.mem_map]
  constructor
  · rintro ⟨site, hsite, p, hp, rfl⟩
    exact ⟨hsite, hp⟩
  · rintro ⟨hsite, hp⟩
    exact ⟨d.1, hsite, d.2, hp, rfl⟩

theorem mem_uses {sites : List Site} {u : Site × Substitution} (h : u ∈ uses sites) :
    u.1 ∈ sites ∧ u.2 ∈ u.1.instruction.uses := by
  obtain ⟨site, hsite, hu⟩ := List.mem_flatMap.mp h
  obtain ⟨s, hs, rfl⟩ := List.mem_map.mp hu
  exact ⟨hsite, hs⟩

theorem map_instruction (index : Nat) (scope : Scope) (insts : List Instruction) :
    (ofInstructions index scope insts).map Site.instruction = insts := by
  induction insts generalizing index scope with
  | nil => rfl
  | cons inst insts ih => exact congrArg (inst :: ·) (ih _ _)

theorem instruction_mem {index : Nat} {scope : Scope} {insts : List Instruction} {site : Site}
    (h : site ∈ ofInstructions index scope insts) : site.instruction ∈ insts := by
  rw [← map_instruction index scope insts]
  exact List.mem_map_of_mem h

/-- The mentions of a file are those of its instructions, in another order. -/
theorem mentions_perm (sites : List Site) :
    ((mentions sites).map Mention.chars).Perm
      ((sites.map Site.instruction).flatMap Instruction.mentions) := by
  have hsplit : (mentions sites).map Mention.chars =
      (sites.flatMap fun site => site.instruction.declared.map fun p => p.name.chars) ++
        sites.flatMap fun site => site.instruction.uses.map Substitution.name := by
    simp only [mentions, declarations, uses, List.map_append, List.map_flatMap, List.map_map]
    rfl
  rw [hsplit, List.flatMap_map]
  exact List.flatMap_append_perm _ _ _

end Site

/-! ## Tables -/

theorem Binding.ofSite_eq (site : Site) :
    ofSite site = site.instruction.declared.map (ofProperty site) := by
  have hmake (kind : BindingKind) (ps : List Property)
      (hkind : (if site.instruction.isKind .ARG then .arg else .env) = kind) :
      ps.map (fun p : Property => (⟨p.name.text, p.unquotedValue site.instruction.escape, p.name.span,
        p.span, site.scope, kind, site.index⟩ : Binding)) = ps.map (ofProperty site) := by
    refine List.map_congr_left fun p _ => ?_
    rw [ofProperty, hkind]
  simp only [ofSite, Instruction.declared]
  cases hkind : site.instruction.kind with
  | none => rfl
  | some k =>
      cases k
      case ARG => exact hmake .arg _ (by simp [Instruction.isKind, hkind])
      case ENV => exact hmake .env _ (by simp [Instruction.isKind, hkind])
      all_goals rfl

theorem VariableReference.ofSite_eq (bindings : List Binding) (site : Site) :
    ofSite bindings site = site.instruction.uses.map (ofUse bindings site) := by
  unfold ofSite Instruction.uses
  rw [List.map_flatMap]
  rfl

namespace ScopeTable

theorem bindings_eq (insts : List Instruction) :
    (ofInstructions insts).bindings =
      (Site.declarations (Site.ofInstructions 0 .global insts)).map fun d =>
        Binding.ofProperty d.1 d.2 := by
  simp only [ofInstructions, Site.declarations, List.map_flatMap, List.map_map]
  congr 1
  funext site
  exact Binding.ofSite_eq site

theorem references_eq (insts : List Instruction) :
    (ofInstructions insts).references =
      (Site.uses (Site.ofInstructions 0 .global insts)).map fun u =>
        VariableReference.ofUse (ofInstructions insts).bindings u.1 u.2 := by
  simp only [Site.uses, List.map_flatMap, List.map_map]
  show (Site.ofInstructions 0 .global insts).flatMap _ = _
  congr 1
  funext site
  exact VariableReference.ofSite_eq _ site

theorem occurrences_var (insts : List Instruction) (name : Text) (scope : Scope) :
    (ofInstructions insts).occurrences (.var name scope) = sortByStart
      (((Site.mentions (Site.ofInstructions 0 .global insts)).filter
        (Mention.isOf (ofInstructions insts).bindings name scope)).map fun m =>
          ⟨Placed.reach m.chars, m.isDeclaration⟩) := by
  show sortByStart (((ofInstructions insts).bindings.filter _).map _ ++
    ((ofInstructions insts).references.filter _).map _) = _
  rw [Site.mentions, List.filter_append, List.map_append, List.filter_map, List.filter_map,
    List.map_map, List.map_map]
  congr 2
  · rw [bindings_eq, List.filter_map, List.map_map]
    refine List.map_congr_left fun d hd => ?_
    have hdeclared := (Site.mem_declarations.mp (List.mem_filter.mp hd).1).2
    exact congrArg (Occurrence.mk · true)
      (Excerpt.span_eq_reach (Instruction.mem_properties_of_mem_declared hdeclared).2.1)
  · rw [references_eq, List.filter_map, List.map_map]
    have hscope (u : Site × Substitution) := @symbolScope_eq (ofInstructions insts)
      (VariableReference.ofUse (ofInstructions insts).bindings u.1 u.2) (Placed.text u.2.name) u.1.index
      rfl
    simp only [Function.comp_def, hscope]
    rfl

end ScopeTable

/-! ## Places of mentions -/

namespace File

variable {text : Text}

def mentions (text : Text) : List Mention :=
  Site.mentions (Site.ofInstructions 0 .global (parse text).instructions)

theorem mentioned (text : Text) :
    Mentioned text Mention.chars Instruction.mentions (mentions text) where
  listed := by
    have hperm := Site.mentions_perm (Site.ofInstructions 0 .global (parse text).instructions)
    rwa [Site.map_instruction] at hperm
  placed _ _ := Instruction.infix_of_mem_mentions
  disjoint _ := Instruction.mentions_disjoint

theorem mem_occurrences {m : Mention} (h : m ∈ mentions text) (name : Text) (scope : Scope) :
    (⟨Placed.reach m.chars, m.isDeclaration⟩ : Occurrence) ∈
      (ScopeTable.ofFile (parse text)).occurrences (.var name scope) ↔
        m.isOf (ScopeTable.ofFile (parse text)).bindings name scope = true := by
  rw [ScopeTable.ofFile, ScopeTable.occurrences_var]
  exact mem_sortByStart (fun _ => (mentioned text).nonempty) (mentioned text).apart h

theorem mem_occurrences_binding {b : Binding} (h : b ∈ (ScopeTable.ofFile (parse text)).bindings)
    (name : Text) (scope : Scope) :
    (⟨b.nameSpan, true⟩ : Occurrence) ∈
      (ScopeTable.ofFile (parse text)).occurrences (.var name scope) ↔
        b.name = name ∧ b.scope = scope := by
  rw [ScopeTable.ofFile, ScopeTable.bindings_eq] at h
  obtain ⟨⟨site, p⟩, hd, rfl⟩ := List.mem_map.mp h
  have hmention : Mention.declaration site p ∈ mentions text :=
    List.mem_append_left _ (List.mem_map.mpr ⟨_, hd, rfl⟩)
  have hiff := mem_occurrences hmention name scope
  have hspan : p.name.span = Placed.reach p.name.chars :=
    Excerpt.span_eq_reach ((mentioned text).nonempty hmention)
  rw [Mention.isOf_declaration, Mention.chars, ← hspan] at hiff
  exact hiff

theorem mem_occurrences_reference {r : VariableReference}
    (h : r ∈ (ScopeTable.ofFile (parse text)).references) (name : Text) (scope : Scope) :
    (⟨r.span, false⟩ : Occurrence) ∈
      (ScopeTable.ofFile (parse text)).occurrences (.var name scope) ↔
        r.name = name ∧ (ScopeTable.ofFile (parse text)).symbolScope r = scope := by
  rw [ScopeTable.ofFile, ScopeTable.references_eq] at h
  obtain ⟨⟨site, s⟩, hu, rfl⟩ := List.mem_map.mp h
  have hmention : Mention.use site s ∈ mentions text :=
    List.mem_append_right _ (List.mem_map.mpr ⟨_, hu, rfl⟩)
  have hiff := mem_occurrences hmention name scope
  rw [Mention.isOf_use] at hiff
  exact hiff

section Selected

variable {isSelected : Mention → Bool} {names : List (List Placed)}
  (hselected : Selected Mention.chars isSelected (mentions text) names) {inst : Instruction}
  (hinst : inst ∈ (parse text).instructions)

include hselected hinst

/-- The names in the instruction that an `ONBUILD` defers stand behind its keyword. -/
theorem not_begins_trigger {t : Instruction} (ht : inst.trigger? = some t) :
    ∀ p ∈ t.keyword.chars, ¬ Begins names p := by
  intro p hp hbegins
  have hsuffix := Instruction.trigger?_region_suffix ht
  obtain ⟨name, -, hname, hpn⟩ := (mentioned text).exists_of_begins hselected hinst
    (hsuffix.mem (List.mem_append_left _ hp)) hbegins
  have hnodup := (region_nodup hinst).sublist hsuffix.sublist
  exact (List.nodup_append.mp hnodup).2.2 p hp p
    ((Instruction.mentions_of_trigger ht hname).mem hpn) rfl

theorem dollar_of_begins {p : Property} (hp : p ∈ inst.declared) {v : Excerpt}
    (hv : p.value = some v) {q : Placed} (hq : q ∈ v.chars) (hbegins : Begins names q) :
    '$' ∈ v.text := by
  obtain ⟨name, -, hname, hqn⟩ := (mentioned text).exists_of_begins hselected hinst
    (Instruction.mem_region_of_mem_value hp hv hq) hbegins
  exact Instruction.dollar_of_mem_value (region_nodup hinst) hp hv hname hq hqn

end Selected

end File

/-! ## Tables with a new name -/

structure Site.Respelled (names : List (List Placed)) (new : Text) (site site' : Site) : Prop where
  index : site'.index = site.index
  scope : site'.scope = site.scope
  instruction : Instruction.Respelled names new site.instruction site'.instruction

namespace Site

variable {names : List (List Placed)} {new : Text}

theorem ofInstructions_respelled {insts insts' : List Instruction}
    (h : List.Forall₂ (Instruction.Respelled names new) insts insts') (index : Nat) (scope : Scope) :
    List.Forall₂ (Site.Respelled names new) (ofInstructions index scope insts)
      (ofInstructions index scope insts') := by
  induction h generalizing index scope with
  | nil => exact .nil
  | cons hinst _ ih =>
      unfold ofInstructions
      rw [hinst.isKind]
      exact .cons ⟨rfl, rfl, hinst⟩ (ih _ _)

section Identifiers

variable {sites sites' : List Site} (hi : Identifiers names new)
  (hsites : List.Forall₂ (Site.Respelled names new) sites sites')
  (he : ∀ site ∈ sites, Substitution.isNameChar site.instruction.escape = false)

include hi hsites he

theorem declarations_respelled :
    List.Forall₂ (fun d d' => Site.Respelled names new d.1 d'.1 ∧
      Property.Respelled names new d.2 d'.2) (declarations sites) (declarations sites') := by
  refine List.rel_flatMap (forall₂_mem hsites) ?_
  rintro site site' ⟨hin, -, hsite⟩
  exact forall₂_map (hsite.instruction.declared hi (he site hin)) fun _ _ hp => ⟨hsite, hp⟩

theorem uses_respelled (hkeyword : ∀ site ∈ sites, ∀ t, site.instruction.trigger? = some t →
      ∀ p ∈ t.keyword.chars, ¬ Begins names p) :
    List.Forall₂ (fun u u' => Site.Respelled names new u.1 u'.1 ∧
      Instruction.Respelled names new u.1.instruction.effective u'.1.instruction.effective ∧
      Substitution.Respelled names new u.2 u'.2) (uses sites) (uses sites') := by
  refine List.rel_flatMap (forall₂_mem hsites) ?_
  rintro site site' ⟨hin, -, hsite⟩
  have heffective := hsite.instruction.effective hi (he site hin) (hkeyword site hin)
  exact forall₂_map (hsite.instruction.uses hi (he site hin) (hkeyword site hin))
    fun _ _ hs => ⟨hsite, heffective, hs⟩

end Identifiers

end Site

/-- The reference under its new name, if it is known as the old one in the scope `within`. -/
structure VariableReference.Renamed (table : ScopeTable) (old : Text) (within : Scope) (new : Text)
    (r r' : VariableReference) : Prop where
  scope : r'.scope = r.scope
  instruction : r'.instruction = r.instruction
  inFrom : r'.inFrom = r.inFrom
  binding : r'.binding = r.binding
  name : r'.name = if r.name = old ∧ table.symbolScope r = within then new else r.name

/-- The tables with a new name for the variable `old` of the scope `within`. -/
structure ScopeTable.Renamed (old : Text) (within : Scope) (new : Text)
    (table table' : ScopeTable) : Prop where
  bindings : List.Forall₂ (Binding.Renamed old within new) table.bindings table'.bindings
  references : List.Forall₂ (VariableReference.Renamed table old within new) table.references
    table'.references

/-- The name can be given to a variable, and the tables do not have it. -/
structure ScopeTable.IsFreshName (table : ScopeTable) (new : Text) : Prop where
  isName : Substitution.isName new = true
  bindings : ∀ b ∈ table.bindings, b.name ≠ new
  references : ∀ r ∈ table.references, r.name ≠ new

namespace File

variable {text old new : Text} {within : Scope} {names : List (List Placed)}

theorem escape_plain (text : Text) :
    Substitution.isNameChar (parse text).escape = false ∧ (parse text).escape ≠ '$' := by
  rcases escapeUnder_eq (parse text).directives with h | h <;> rw [escape, h] <;> decide

section Selected

variable (hselected : Selected Mention.chars
  (Mention.isOf (ScopeTable.ofFile (parse text)).bindings old within) (mentions text) names)

include hselected

theorem binding_respelled {site site' : Site} {p p' : Property}
    (hd : (site, p) ∈ Site.declarations (Site.ofInstructions 0 .global (parse text).instructions))
    (hsite : Site.Respelled names new site site') (hp : Property.Respelled names new p p') :
    Binding.Renamed old within new (Binding.ofProperty site p) (Binding.ofProperty site' p') := by
  have hmention : Mention.declaration site p ∈ mentions text :=
    List.mem_append_left _ (List.mem_map.mpr ⟨_, hd, rfl⟩)
  have htext := hselected.text_of_respelled hmention hp.name
  simp only [Mention.isOf_declaration] at htext
  refine ⟨hsite.scope, ?_, hsite.index, htext, fun hplain => ?_⟩
  · rw [Binding.ofProperty, Binding.ofProperty, hsite.instruction.isKind]
  · obtain ⟨hin, hdeclared⟩ := Site.mem_declarations.mp hd
    have hinst := Site.instruction_mem hin
    have hvalue : p'.value.map Excerpt.text = p.value.map Excerpt.text := by
      refine hp.value fun v hv q hq hbegins => ?_
      have hraw := dollar_of_begins hselected hinst hdeclared hv hq hbegins
      refine hplain _ (Option.mem_map_of_mem _ hv) (dollar_mem_unquoteFrom ?_ (by simp) hraw)
      rw [escape_of_mem hinst]
      exact (escape_plain text).2
    have hunquoted (p : Property) (escape : Char) :
        p.unquotedValue escape = (p.value.map Excerpt.text).map (unquote escape) := by
      rw [Option.map_map]
      rfl
    show p'.unquotedValue site'.instruction.escape = p.unquotedValue site.instruction.escape
    rw [hunquoted, hunquoted, hvalue, hsite.instruction.escape]

theorem reference_respelled (hnew : (ScopeTable.ofFile (parse text)).IsFreshName new)
    {bindings : List Binding} (hbindings : List.Forall₂ (Binding.Renamed old within new)
      (ScopeTable.ofFile (parse text)).bindings bindings)
    {site site' : Site} {s s' : Substitution}
    (hu : (site, s) ∈ Site.uses (Site.ofInstructions 0 .global (parse text).instructions))
    (hsite : Site.Respelled names new site site')
    (heffective : Instruction.Respelled names new site.instruction.effective site'.instruction.effective)
    (hs : Substitution.Respelled names new s s') :
    VariableReference.Renamed (ScopeTable.ofFile (parse text)) old within new
      (VariableReference.ofUse (ScopeTable.ofFile (parse text)).bindings site s)
      (VariableReference.ofUse bindings site' s') := by
  have hmention : Mention.use site s ∈ mentions text :=
    List.mem_append_right _ (List.mem_map.mpr ⟨_, hu, rfl⟩)
  have htext := hselected.text_of_respelled hmention hs
  have hunused : Placed.text s.name ≠ new := by
    refine hnew.references (VariableReference.ofUse (ScopeTable.ofFile (parse text)).bindings site s) ?_
    rw [ScopeTable.ofFile, ScopeTable.references_eq]
    exact List.mem_map.mpr ⟨_, hu, rfl⟩
  have hinFrom := heffective.isKind .FROM
  refine ⟨hsite.scope, hsite.index, hinFrom, ?_, ?_⟩
  · have hresolve := Binding.resolve?_renamed hbindings hnew.bindings hunused site.index site.scope
      (site.instruction.effective.isKind .FROM)
    simp only [Mention.isOf, Bool.and_eq_true, beq_iff_eq] at htext
    show Binding.resolve? _ (Placed.text s'.name) site'.index site'.scope
      (site'.instruction.effective.isKind .FROM) = _
    rw [hsite.index, hsite.scope, hinFrom, htext]
    exact hresolve
  · simp only [Mention.isOf_use] at htext
    exact htext

/-- Where the mentions of a variable get a new name, so does the variable in the tables. -/
theorem tables_respelled (hm : Mentions text names) (hold : Substitution.isName old = true)
    (hnew : (ScopeTable.ofFile (parse text)).IsFreshName new) :
    ScopeTable.Renamed old within new (ScopeTable.ofFile (parse text))
      (ScopeTable.ofFile (parse (TextEdit.applyAll text (TextEdit.respell text names new)))) := by
  have hi : Identifiers names new := by
    refine ⟨fun name hname => ?_, hnew.isName⟩
    obtain ⟨m, -, hof, rfl⟩ := (hselected.mem name).mp hname
    rw [Mention.text_of_isOf hof]
    exact hold
  have hinsts := instructions_respelled hm (hi.spellable (escape_plain text).1)
  have hsites := Site.ofInstructions_respelled hinsts 0 .global
  have he : ∀ site ∈ Site.ofInstructions 0 .global (parse text).instructions,
      Substitution.isNameChar site.instruction.escape = false := by
    intro site hsite
    rw [escape_of_mem (Site.instruction_mem hsite)]
    exact (escape_plain text).1
  have hbindings : List.Forall₂ (Binding.Renamed old within new) (ScopeTable.ofFile (parse text)).bindings
      (ScopeTable.ofFile (parse (TextEdit.applyAll text
        (TextEdit.respell text names new)))).bindings := by
    rw [ScopeTable.ofFile, ScopeTable.ofFile, ScopeTable.bindings_eq, ScopeTable.bindings_eq]
    refine forall₂_map (forall₂_mem (Site.declarations_respelled hi hsites he)) ?_
    rintro d d' ⟨hd, -, hsite, hp⟩
    exact binding_respelled hselected hd hsite hp
  refine ⟨hbindings, ?_⟩
  rw [ScopeTable.ofFile, ScopeTable.references_eq, ScopeTable.ofFile, ScopeTable.references_eq]
  refine forall₂_map (forall₂_mem (Site.uses_respelled hi hsites he fun site hsite _ ht =>
    not_begins_trigger hselected (Site.instruction_mem hsite) ht)) ?_
  rintro u u' ⟨hu, -, hsite, heffective, hs⟩
  exact reference_respelled hselected hnew hbindings hu hsite heffective hs

end Selected

end File

end Dockerfile
