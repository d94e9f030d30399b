import Mathlib.Data.List.Find
import Dockerfile.Proofs.Scope.Values

/-!
# Variables by environments

What a variable means can also be said without tables of a whole file: by going through the
instructions once, with the variables of the file and those of the current stage at hand. A `FROM`
begins a stage without variables, an instruction sees what was declared in front of it, and then adds
its own declarations. `Environment.run` does this, and the tables record for each reference the
declaration and the value that it finds (`ScopeTable.references_interpreted`).
-/

namespace Dockerfile

/-- What is known of a variable: which declaration of the file it was, how and where it was declared,
whether in a stage, and its value. -/
structure Declared where
  number : Nat
  kind : BindingKind
  nameSpan : Span
  inStage : Bool
  value : Option Text
  deriving DecidableEq, Repr

structure Lookup where
  name : Text
  span : Span
  declared : Option Declared
  value : Option Text
  deriving DecidableEq, Repr

/-- The variables that are known at an instruction. -/
structure Environment where
  /-- The number of declarations so far. -/
  count : Nat
  /-- The variables of the whole file. -/
  global : Text → Option Declared
  /-- The variables of the stage, if one has begun. -/
  stage : Option (Text → Option Declared)

namespace Environment

/-- No variable is known in front of the first instruction. -/
def start : Environment :=
  ⟨0, fun _ => none, none⟩

def enter (env : Environment) (inst : Instruction) : Environment :=
  if inst.isKind .FROM then { env with stage := some fun _ => none } else env

def declare (env : Environment) (name : Text) (kind : BindingKind) (nameSpan : Span)
    (value : Option Text) : Environment :=
  let declared : Declared := ⟨env.count, kind, nameSpan, env.stage.isSome, value⟩
  match env.stage with
  | none =>
      { env with count := env.count + 1, global := Function.update env.global name (some declared) }
  | some locals =>
      { env with
        count := env.count + 1
        stage := some (Function.update locals name (some declared)) }

def declareAll (env : Environment) (inst : Instruction) : Environment :=
  inst.declared.foldl (fun env p => env.declare p.name.text
    (if inst.isKind .ARG then .arg else .env) p.name.span (p.unquotedValue inst.escape)) env

/-- The variable of a name: that of the stage before that of the file, but in a `FROM` only the
latter. -/
def find? (env : Environment) (inFrom : Bool) (name : Text) : Option Declared :=
  match env.stage with
  | none => env.global name
  | some locals => if inFrom then env.global name else (locals name).or (env.global name)

/-- The value of a variable. An `ARG` of a stage that has none takes that of the file. -/
def valueOf? (env : Environment) (name : Text) (d : Declared) : Option Text :=
  d.value.or (if d.kind == .arg && d.inStage then (env.global name).bind Declared.value else none)

def lookUp (env : Environment) (inFrom : Bool) (s : Substitution) : Lookup where
  name := Placed.text s.name
  span := s.nameSpan
  declared := env.find? inFrom (Placed.text s.name)
  value := (env.find? inFrom (Placed.text s.name)).bind (env.valueOf? (Placed.text s.name))

def lookUpAll (env : Environment) (inst : Instruction) : List Lookup :=
  inst.uses.map (env.lookUp (inst.effective.isKind .FROM))

/-- Goes through instructions and looks up their references. -/
def run (env : Environment) : List Instruction → List Lookup
  | [] => []
  | inst :: rest =>
      let env := env.enter inst
      env.lookUpAll inst ++ run (env.declareAll inst) rest

end Environment

/-! ## Order of scopes -/

def Scope.opened : Scope → Nat
  | global => 0
  | stage index => index + 1

theorem Scope.opened_next (scope : Scope) : scope.next.opened = scope.opened + 1 := by
  cases scope <;> rfl

theorem Site.le_of_mem {index : Nat} {scope : Scope} {insts : List Instruction} {site : Site}
    (h : site ∈ ofInstructions index scope insts) :
    index ≤ site.index ∧ scope.opened ≤ site.scope.opened := by
  induction insts generalizing index scope with
  | nil => cases h
  | cons inst insts ih =>
      have hscope : scope.opened ≤
          (if inst.isKind .FROM then scope.next else scope).opened := by
        split
        · rw [Scope.opened_next]
          exact Nat.le_succ _
        · exact Nat.le_refl _
      rcases List.mem_cons.mp h with rfl | h
      · exact ⟨Nat.le_refl _, hscope⟩
      · obtain ⟨hindex, hopened⟩ := ih h
        exact ⟨Nat.le_of_succ_le hindex, Nat.le_trans hscope hopened⟩

theorem Binding.of_mem_ofSite {site : Site} {b : Binding} (h : b ∈ ofSite site) :
    b.instruction = site.index ∧ b.scope = site.scope := by
  rw [ofSite_eq] at h
  obtain ⟨p, -, rfl⟩ := List.mem_map.mp h
  exact ⟨rfl, rfl⟩

/-! ## The last declaration of a name -/

def Declared.ofBinding (number : Nat) (b : Binding) : Declared :=
  ⟨number, b.kind, b.nameSpan, b.scope != .global, b.value⟩

namespace Binding

def declaresIn (scope : Scope) (name : Text) (b : Binding) : Bool :=
  b.scope == scope && b.name == name

def known? (bindings : List Binding) (scope : Scope) (name : Text) : Option Declared :=
  (bindings.zipIdx.reverse.find? fun b => declaresIn scope name b.1).map fun b =>
    .ofBinding b.2 b.1

variable {bindings more : List Binding} {scope : Scope} {name : Text}

theorem known?_concat (bindings : List Binding) (b : Binding) (scope : Scope) (name : Text) :
    known? (bindings ++ [b]) scope name =
      if declaresIn scope name b then some (.ofBinding bindings.length b)
      else known? bindings scope name := by
  rw [known?, List.zipIdx_append, List.reverse_append, Nat.zero_add]
  simp only [List.zipIdx_singleton, List.reverse_singleton, List.singleton_append, List.find?_cons]
  cases declaresIn scope name b <;> rfl

theorem exists_of_known? {d : Declared} (h : known? bindings scope name = some d) :
    ∃ b ∈ bindings, bindings[d.number]? = some b ∧ d = .ofBinding d.number b ∧ b.scope = scope ∧
      b.name = name := by
  obtain ⟨⟨b, i⟩, hfind, rfl⟩ := Option.map_eq_some_iff.mp h
  have hget := List.mem_zipIdx_iff_getElem?.mp (List.mem_reverse.mp (List.mem_of_find?_eq_some hfind))
  have hdeclares := List.find?_some hfind
  simp only [declaresIn, Bool.and_eq_true, beq_iff_eq] at hdeclares
  exact ⟨b, List.mem_of_getElem? hget, hget, rfl, hdeclares⟩

theorem known?_eq_none (h : ∀ b ∈ bindings, b.scope ≠ scope) : known? bindings scope name = none := by
  cases hknown : known? bindings scope name with
  | none => rfl
  | some d =>
      obtain ⟨b, hb, -, -, hscope, -⟩ := exists_of_known? hknown
      exact absurd hscope (h b hb)

theorem latest?_append {limit : Nat} (hearlier : ∀ b ∈ bindings, b.instruction < limit)
    (hlater : ∀ b ∈ more, limit ≤ b.instruction) :
    latest? (bindings ++ more) name scope limit =
      (known? bindings scope name).map Declared.number := by
  have hnone : (more.zipIdx (0 + bindings.length)).reverse.find?
      (fun b => isSought name scope limit b.1) = none := by
    refine List.find?_eq_none.mpr fun b hb => ?_
    have := hlater b.1 (List.fst_mem_of_mem_zipIdx (List.mem_reverse.mp hb))
    simp [isSought, Nat.not_lt.mpr this]
  have hsame : bindings.zipIdx.reverse.find? (fun b => isSought name scope limit b.1) =
      bindings.zipIdx.reverse.find? fun b => declaresIn scope name b.1 := by
    refine List.find?_congr fun b hb => ?_
    have := hearlier b.1 (List.fst_mem_of_mem_zipIdx (List.mem_reverse.mp hb))
    simp [isSought, declaresIn, this]
  rw [latest?_eq, known?, List.zipIdx_append, List.reverse_append, List.find?_append, hnone,
    Option.none_or, hsame, Option.map_map]
  rfl

theorem globalValue?_append (hlater : ∀ b ∈ more, b.scope ≠ .global) :
    globalValue? (bindings ++ more) name =
      (known? bindings .global name).bind Declared.value := by
  have hnone : more.reverse.find? (declaresIn .global name) = none := by
    refine List.find?_eq_none.mpr fun b hb => ?_
    simp [declaresIn, hlater b (List.mem_reverse.mp hb)]
  show ((bindings ++ more).reverse.find? (declaresIn .global name)).bind value = _
  rw [List.reverse_append, List.find?_append, hnone, Option.none_or, reverse_eq_map_fst,
    List.find?_map, known?]
  simp only [Option.bind_map]
  rfl

end Binding

/-! ## Environments and declarations -/

namespace Environment

/-- The environment knows these declarations: those of the file and those of the scope that was
reached. -/
structure Knows (env : Environment) (bindings : List Binding) (scope : Scope) : Prop where
  count : env.count = bindings.length
  inStage : env.stage.isSome = (scope != .global)
  global : ∀ name, env.global name = Binding.known? bindings .global name
  stage : ∀ locals ∈ env.stage, ∀ name, locals name = Binding.known? bindings scope name
  reached : ∀ b ∈ bindings, b.scope.opened ≤ scope.opened

variable {env : Environment} {bindings : List Binding} {scope : Scope}

theorem knows_start : start.Knows [] .global where
  count := rfl
  inStage := rfl
  global _ := rfl
  stage _ h := nomatch h
  reached _ h := nomatch h

theorem Knows.enter (h : env.Knows bindings scope) (inst : Instruction) :
    (env.enter inst).Knows bindings (if inst.isKind .FROM then scope.next else scope) := by
  unfold Environment.enter
  by_cases hfrom : inst.isKind .FROM = true
  · rw [if_pos hfrom, if_pos hfrom]
    have hopened := scope.opened_next
    refine ⟨h.count, ?_, h.global, ?_, ?_⟩
    · cases scope <;> rfl
    · intro locals hlocals name
      obtain rfl := Option.some.inj hlocals
      refine (Binding.known?_eq_none fun b hb hscope => ?_).symm
      have := h.reached b hb
      rw [hscope] at this
      omega
    · intro b hb
      have := h.reached b hb
      omega
  · rw [if_neg hfrom, if_neg hfrom]
    exact h

theorem Knows.declare (h : env.Knows bindings scope) {b : Binding} (hb : b.scope = scope) :
    (env.declare b.name b.kind b.nameSpan b.value).Knows (bindings ++ [b]) scope := by
  have hdeclared : (⟨env.count, b.kind, b.nameSpan, env.stage.isSome, b.value⟩ : Declared) =
      .ofBinding bindings.length b := by
    rw [h.count, h.inStage, ← hb]
    rfl
  have hother (other : Scope) (hne : scope ≠ other) (name : Text) :
      Binding.known? (bindings ++ [b]) other name = Binding.known? bindings other name := by
    rw [Binding.known?_concat, if_neg]
    simp [Binding.declaresIn, hb, hne]
  have hown (locals : Text → Option Declared)
      (hlocals : ∀ name, locals name = Binding.known? bindings scope name) (name : Text) :
      Function.update locals b.name (some (.ofBinding bindings.length b)) name =
        Binding.known? (bindings ++ [b]) scope name := by
    rw [Binding.known?_concat, Function.update_apply, hlocals]
    refine if_congr ?_ rfl rfl
    simp only [Binding.declaresIn, hb, Bool.and_eq_true, beq_iff_eq, true_and]
    exact eq_comm
  have hcount : env.count + 1 = (bindings ++ [b]).length := by
    rw [h.count, List.length_append, List.length_singleton]
  have hreached : ∀ c ∈ bindings ++ [b], c.scope.opened ≤ scope.opened := by
    intro c hc
    rcases List.mem_append.mp hc with hc | hc
    · exact h.reached c hc
    · rw [List.mem_singleton.mp hc, hb]
  have hinStage := h.inStage
  unfold Environment.declare
  simp only [hdeclared]
  cases hstage : env.stage with
  | none =>
      have hscope : scope = .global := by simpa [hstage] using hinStage
      subst hscope
      exact ⟨hcount, rfl, hown _ h.global, fun _ hv => (nomatch hv), hreached⟩
  | some locals =>
      have hscope : scope ≠ .global := by simpa [hstage] using hinStage
      refine ⟨hcount, ?_, fun name => ?_, ?_, hreached⟩
      · rw [← hinStage, hstage]
        rfl
      · rw [hother .global hscope]
        exact h.global name
      · rintro _ hv
        obtain rfl := Option.some.inj hv
        exact hown locals (h.stage locals hstage)

theorem Knows.declareAll {site : Site} (h : env.Knows bindings site.scope) :
    (env.declareAll site.instruction).Knows (bindings ++ Binding.ofSite site) site.scope := by
  rw [Binding.ofSite_eq]
  unfold Environment.declareAll
  generalize site.instruction.declared = ps
  induction ps generalizing env bindings with
  | nil =>
      rw [List.map_nil, List.append_nil]
      exact h
  | cons p ps ih =>
      have hnext := ih (h.declare (b := Binding.ofProperty site p) rfl)
      rw [List.append_assoc, List.singleton_append] at hnext
      exact hnext

end Environment

/-! ## References -/

/-- A reference is recorded as it was looked up: it has the declaration that was found, and its value
is the one that was found. -/
structure ScopeTable.Records (table : ScopeTable) (r : VariableReference) (found : Lookup) : Prop where
  name : r.name = found.name
  span : r.span = found.span
  binding : r.binding = found.declared.map Declared.number
  declared : ∀ d ∈ found.declared, ∃ b, table.bindings[d.number]? = some b ∧ b.name = found.name ∧
    d = .ofBinding d.number b
  value : table.effectiveValue? r = found.value

namespace Environment

variable {env : Environment} {bindings more : List Binding} {site : Site}

/-- The declarations around an instruction: what stands in front of it is known, and what follows is
declared neither earlier nor in an earlier scope. -/
structure Sees (env : Environment) (bindings more : List Binding) (site : Site) : Prop where
  knows : env.Knows bindings site.scope
  earlier : ∀ b ∈ bindings, b.instruction < site.index
  later : ∀ b ∈ more, site.index ≤ b.instruction ∧ site.scope.opened ≤ b.scope.opened

theorem Sees.resolve?_eq (h : env.Sees bindings more site) (name : Text) (inFrom : Bool) :
    Binding.resolve? (bindings ++ more) name site.index site.scope inFrom =
      (env.find? inFrom name).map Declared.number := by
  have hlatest (scope : Scope) := @Binding.latest?_append bindings more scope name _ h.earlier
    fun b hb => (h.later b hb).1
  have hinStage := h.knows.inStage
  unfold Binding.resolve? find?
  rw [hlatest, hlatest]
  cases hstage : env.stage with
  | none =>
      have hscope : site.scope = .global := by simpa [hstage] using hinStage
      simp [hscope, h.knows.global]
  | some locals =>
      have hscope : site.scope ≠ .global := by simpa [hstage] using hinStage
      cases inFrom with
      | true => simp [h.knows.global]
      | false => simp [hscope, h.knows.global, h.knows.stage locals hstage, Option.map_or]

theorem Sees.exists_of_find? (h : env.Sees bindings more site) {name : Text} {inFrom : Bool}
    {d : Declared} (hd : env.find? inFrom name = some d) :
    ∃ b ∈ bindings, (bindings ++ more)[d.number]? = some b ∧ b.name = name ∧
      d = .ofBinding d.number b := by
  have hfound {scope : Scope} (hknown : Binding.known? bindings scope name = some d) :
      ∃ b ∈ bindings, (bindings ++ more)[d.number]? = some b ∧ b.name = name ∧
        d = .ofBinding d.number b := by
    obtain ⟨b, hb, hget, hdeclared, -, hname⟩ := Binding.exists_of_known? hknown
    refine ⟨b, hb, ?_, hname, hdeclared⟩
    rw [List.getElem?_append_left (List.getElem?_eq_some_iff.mp hget).1, hget]
  unfold find? at hd
  split at hd
  · rw [h.knows.global] at hd
    exact hfound hd
  · rename_i locals hstage
    rw [h.knows.global, h.knows.stage locals hstage] at hd
    split at hd
    · exact hfound hd
    · rcases Option.or_eq_some_iff.mp hd with hd | ⟨-, hd⟩
      · exact hfound hd
      · exact hfound hd

/-- An `ARG` of a stage takes its value where the environment looks for it. -/
theorem Sees.valueOf?_eq (h : env.Sees bindings more site) {b : Binding} (hb : b ∈ bindings)
    (number : Nat) :
    env.valueOf? b.name (.ofBinding number b) =
      if b.inherits then Binding.globalValue? (bindings ++ more) b.name else b.value := by
  unfold valueOf? Binding.inherits Declared.ofBinding
  cases hvalue : b.value with
  | some value => rfl
  | none =>
      by_cases hinherits : (b.kind == .arg && b.scope != .global) = true
      · have hlater : ∀ c ∈ more, c.scope ≠ .global := by
          intro c hc hglobal
          have hle := (h.later c hc).2
          have hreached := h.knows.reached b hb
          have hscope : b.scope ≠ .global := by
            simp only [Bool.and_eq_true, bne_iff_ne] at hinherits
            exact hinherits.2
          cases hscope' : b.scope with
          | global => exact hscope hscope'
          | stage index =>
              rw [hscope'] at hreached
              rw [hglobal] at hle
              simp only [Scope.opened] at hreached hle
              omega
        simp [hinherits, Binding.globalValue?_append hlater, h.knows.global]
      · simp [hinherits]

theorem Sees.records (h : env.Sees bindings more site) {table : ScopeTable}
    (htable : table.bindings = bindings ++ more) :
    List.Forall₂ table.Records (VariableReference.ofSite table.bindings site)
      (env.lookUpAll site.instruction) := by
  rw [VariableReference.ofSite_eq, lookUpAll, htable]
  refine List.forall₂_map_left_iff.mpr (List.forall₂_map_right_iff.mpr (List.forall₂_same.mpr ?_))
  intro s _
  have hbinding := h.resolve?_eq (Placed.text s.name) (site.instruction.effective.isKind .FROM)
  refine ⟨rfl, rfl, hbinding, ?_, ?_⟩
  · intro d hd
    obtain ⟨b, -, hget, hname, hdeclared⟩ := h.exists_of_find? hd
    rw [htable]
    exact ⟨b, hget, hname, hdeclared⟩
  · rw [ScopeTable.effectiveValue?_eq, ScopeTable.bindingOf?, htable]
    show (Option.bind (Binding.resolve? _ _ _ _ _) _).bind _ = _
    rw [hbinding, lookUp]
    cases hfind : env.find? (site.instruction.effective.isKind .FROM) (Placed.text s.name) with
    | none => rfl
    | some d =>
        obtain ⟨b, hb, hget, hname, hdeclared⟩ := h.exists_of_find? hfind
        rw [Option.map_some, Option.bind_some, hget, Option.bind_some, Option.bind_some, ← hname,
          hdeclared, h.valueOf?_eq hb]

/-- Going through instructions finds what the tables record for them. -/
theorem Knows.run {table : ScopeTable} {index : Nat} {scope : Scope} (insts : List Instruction)
    (h : env.Knows bindings scope) (hearlier : ∀ b ∈ bindings, b.instruction < index)
    (htable : table.bindings =
      bindings ++ (Site.ofInstructions index scope insts).flatMap Binding.ofSite) :
    List.Forall₂ table.Records
      ((Site.ofInstructions index scope insts).flatMap (VariableReference.ofSite table.bindings))
      (env.run insts) := by
  induction insts generalizing env bindings index scope with
  | nil => exact .nil
  | cons inst insts ih =>
      let site : Site := ⟨index, if inst.isKind .FROM then scope.next else scope, inst⟩
      have hentered : (env.enter inst).Knows bindings site.scope := h.enter inst
      have hsites : Site.ofInstructions index scope (inst :: insts) =
          site :: Site.ofInstructions (index + 1) site.scope insts := rfl
      rw [hsites, List.flatMap_cons] at htable ⊢
      have hsees : (env.enter inst).Sees bindings (Binding.ofSite site ++
          (Site.ofInstructions (index + 1) site.scope insts).flatMap Binding.ofSite) site := by
        refine ⟨hentered, hearlier, fun b hb => ?_⟩
        rcases List.mem_append.mp hb with hb | hb
        · obtain ⟨hindex, hscope⟩ := Binding.of_mem_ofSite hb
          exact ⟨hindex.ge, by rw [hscope]⟩
        · obtain ⟨other, hother, hb⟩ := List.mem_flatMap.mp hb
          obtain ⟨hindex, hscope⟩ := Binding.of_mem_ofSite hb
          rw [hindex, hscope]
          exact (Site.le_of_mem hother).imp Nat.le_of_succ_le id
      refine List.rel_append (hsees.records htable) (ih hentered.declareAll ?_ ?_)
      · intro b hb
        rcases List.mem_append.mp hb with hb | hb
        · exact Nat.lt_succ_of_lt (hearlier b hb)
        · rw [(Binding.of_mem_ofSite hb).1]
          exact Nat.lt_succ_self _
      · rw [htable, List.append_assoc]

end Environment

/-- Resolution is a matter of environments: each reference has the declaration and the value that
are found for it by going through the instructions one after the other. -/
theorem ScopeTable.references_interpreted (text : Text) :
    List.Forall₂ (ScopeTable.ofFile (File.parse text)).Records
      (ScopeTable.ofFile (File.parse text)).references
      (Environment.start.run (File.parse text).instructions) :=
  Environment.knows_start.run _ (fun _ h => nomatch h) rfl

/-- An `ARG` of a stage without a value has that of the file, but not in the next stage. -/
example :
    (Environment.start.run (File.parse
      "ARG v=1\nFROM a:$v\nARG v\nRUN $v\nFROM b\nENV w=$v\nRUN $w".toList).instructions).map
        (fun found => (found.declared.map Declared.number, found.value)) =
      [(some 0, some "1".toList), (some 1, some "1".toList), (some 0, some "1".toList),
        (some 2, some "$v".toList)] := by
  decide +kernel

end Dockerfile
