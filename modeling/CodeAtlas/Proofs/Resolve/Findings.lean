import Mathlib
import CodeAtlas.Enrich.Standard
import CodeAtlas.Proofs.Scope
import CodeAtlas.Proofs.SortedMap

/-!
# What resolution finds

Every branch of the resolver makes an edge to a symbol or to a placeholder, chooses a score for it,
and adds facts, some of which mark the edge as a guess or as inherited. `Finding.Resolved` lists what
can come of it, once for all that follows.

Main results:

* `View.findings_resolved`: what resolution finds in a file is one of these.
* `Finding.Resolved.leads`: such an edge is its owner's own, and leads to a definition of the project
  or to a placeholder that comes with it.
* `Finding.Resolved.sound`: it starts at its origin, and its score fits its mark.
* `View.findings_agrees`: an edge to a type or a value that is not guessed either leads to a symbol
  that the project defines and has the full score, or to a placeholder for a name that the project
  does not define and has half of it.
-/

namespace CodeAtlas

open SortedMap SymbolLookup

variable {name key : String} {filter : LookupFilter}

/-- Edges that lead to a type or a value. -/
def EdgeType.leadsToTypeOrValue : EdgeType → Bool
  | extendsType | implements | usesMixin | instantiates | throws | returnsType | acceptsType
  | reads | writes => true
  | _ => false

/-! ## Look-ups -/

theorem findDefined?_eq_some {s : Snapshot} {fqn : String} {x : Symbol} :
    findDefined? s fqn = some x ↔ s.symbols.get? fqn = some x ∧ x.isExternal = false := by
  rw [findDefined?, Option.filter_eq_some_iff]
  simp [findFqn?]

/-- What a name stands for is defined in the project. -/
theorem internal_of_resolve? {s : Snapshot} {c : Scope} {x : Symbol}
    (h : resolve? s name c filter = some x) :
    ∃ fqn, s.symbols.get? fqn = some x ∧ x.isExternal = false := by
  unfold resolve? at h
  split at h
  · cases h
  split at h
  · next y hy =>
    cases h
    obtain ⟨fqn, -, hfqn⟩ := List.exists_of_findSome?_eq_some hy
    exact ⟨fqn, findDefined?_eq_some.1 hfqn⟩
  split at h
  · cases h
  · -- a look-up by short name answers no placeholder
    have hmem : x ∈ (SymbolLookup.named s name).filter fun x => isGlobal filter x.kind := by
      unfold findGlobal? at h
      rcases Option.or_eq_some_iff.1 h with h | ⟨-, h⟩
      · exact List.mem_of_find?_eq_some h
      · exact List.mem_of_head? h
    obtain ⟨hnamed, hglobal⟩ := List.mem_filter.1 hmem
    obtain ⟨fqn, hfqn⟩ := mem_values.1 (List.mem_filter.1 hnamed).1
    refine ⟨fqn, hfqn, ?_⟩
    cases hk : x.kind <;> simp_all [isGlobal, Symbol.isExternal]

/-- The name of the placeholder is one of those that were looked up. -/
theorem placeholderName_mem_candidates (c : Scope) (name : String) :
    c.placeholderName name ∈ candidates c name := by
  unfold Scope.placeholderName candidates
  cases c.imports.expand? name c.separator <;> simp

theorem findDefined?_placeholderName {s : Snapshot} {c : Scope} (hne : name ≠ "")
    (h : resolve? s name c filter = none) : findDefined? s (c.placeholderName name) = none := by
  unfold resolve? at h
  rw [if_neg (by simpa using hne)] at h
  split at h
  · cases h
  · next hnone => exact List.findSome?_eq_none_iff.1 hnone _ (placeholderName_mem_candidates c name)

/-! ## Marks -/

/-- Whether the target is marked as a member of a supertype. -/
def Edge.isInherited (e : Edge) : Bool :=
  match e.metadata.get? "inherited" with
  | some (.bool b) => b
  | _ => false

namespace Finding

variable {s : Snapshot} {o : Origin} {f base : Finding} {score : Float} {dynamic inherited : Bool}

@[simp] theorem isDynamic_withMeta_dynamic (f : Finding) (b : Bool) :
    (f.withMeta "dynamic" (.bool b)).edge.isDynamic = b := by
  unfold withMeta Edge.withMeta Edge.isDynamic
  simp only [get?_insert_eq, if_true]

theorem isDynamic_withMeta (hk : "dynamic" ≠ key) (f : Finding) (value : Json) :
    (f.withMeta key value).edge.isDynamic = f.edge.isDynamic := by
  unfold withMeta Edge.withMeta Edge.isDynamic
  simp only [get?_insert_eq, if_neg hk]

theorem isInherited_withMeta (hk : "inherited" ≠ key) (f : Finding) (value : Json) :
    (f.withMeta key value).edge.isInherited = f.edge.isInherited := by
  unfold withMeta Edge.withMeta Edge.isInherited
  simp only [get?_insert_eq, if_neg hk]

theorem isInherited_withMeta_inherited (f : Finding) (b : Bool) :
    (f.withMeta "inherited" (.bool b)).edge.isInherited = b := by
  unfold withMeta Edge.withMeta Edge.isInherited
  simp only [get?_insert_eq, if_true]

/-- The finding is another one with further facts, and is marked as a guess and as inherited or
not. -/
structure Annotated (f base : Finding) (dynamic inherited : Bool) : Prop where
  same : { f.edge with metadata := base.edge.metadata } = base.edge
  placeholder : f.placeholder = base.placeholder
  dynamic : f.edge.isDynamic = dynamic
  inherited : f.edge.isInherited = inherited

namespace Annotated

section

variable (h : f.Annotated base dynamic inherited)

include h

/-- Other facts do not change the marks. -/
theorem withMeta (value : Json) (hk : key ∉ ["dynamic", "inherited"]) :
    (f.withMeta key value).Annotated base dynamic inherited := by
  simp only [List.mem_cons, List.not_mem_nil, or_false, not_or] at hk
  exact ⟨h.same, h.placeholder, (isDynamic_withMeta (Ne.symm hk.1) f value).trans h.dynamic,
    (isInherited_withMeta (Ne.symm hk.2) f value).trans h.inherited⟩

theorem withDynamic : (f.withMeta "dynamic" (.bool true)).Annotated base true inherited :=
  ⟨h.same, h.placeholder, isDynamic_withMeta_dynamic f true,
    (isInherited_withMeta (by decide) f _).trans h.inherited⟩

theorem withInherited : (f.withMeta "inherited" (.bool true)).Annotated base dynamic true :=
  ⟨h.same, h.placeholder, (isDynamic_withMeta (by decide) f _).trans h.dynamic,
    isInherited_withMeta_inherited f true⟩

theorem confidence : f.edge.confidence = base.edge.confidence :=
  (congrArg Edge.confidence h.same :)

theorem target : f.edge.target = base.edge.target :=
  (congrArg Edge.target h.same :)

end

end Annotated

/-! ## Targets and scores -/

/-- The edge belongs to an owner, and leads to a symbol that the project defines or to the
placeholder that the finding needs. -/
structure Leads (s : Snapshot) (owner : String) (f : Finding) : Prop where
  owner : f.edge.owner = owner
  target : (f.placeholder = none ∧ ∃ fqn x, s.symbols.get? fqn = some x ∧ x.isExternal = false ∧
      f.edge.target = x.id) ∨
    ∃ fqn, f.placeholder = some (.placeholder fqn (shortName fqn)) ∧ f.edge.target = .ofFqn fqn

/-- The edge leads to a frozen symbol, or to the placeholder that comes with it. -/
def Lands (s : Snapshot) (f : Finding) : Prop :=
  (∃ fqn x, s.symbols.get? fqn = some x ∧ f.edge.target = x.id) ∨
    ∃ x, f.placeholder = some x ∧ f.edge.target = .ofFqn x.fqn

/-- The score is positive, and the edge is marked as a guess exactly if the score is low. -/
def Telling (f : Finding) : Prop :=
  0 < f.edge.confidence ∧ (f.edge.isDynamic = true ↔ f.edge.confidence ≤ 0.3)

/-- The edge leads to a definition of the project. -/
def Defined (s : Snapshot) (f : Finding) : Prop :=
  ∃ fqn x, findDefined? s fqn = some x ∧ f.edge.target = x.id

/-- The edge starts at an origin, leads to what is frozen or comes with it, and has a score that fits
its mark. -/
structure Sound (s : Snapshot) (o : Origin) (f : Finding) : Prop where
  type : f.edge.type = o.type
  source : f.edge.source = o.source
  owner : f.edge.owner = o.owner
  lands : f.Lands s
  telling : f.Telling

theorem Sound.withMeta (h : f.Sound s o) (value : Json) (hd : "dynamic" ≠ key) :
    (f.withMeta key value).Sound s o := by
  refine ⟨h.type, h.source, h.owner, h.lands, ?_⟩
  rw [Telling, isDynamic_withMeta hd]
  exact h.telling

namespace Annotated

variable {x : Symbol} {fqn : String}

theorem telling (of : f.Annotated base dynamic inherited) (hscore : 0 < base.edge.confidence ∧
    (dynamic = true ↔ base.edge.confidence ≤ 0.3)) : f.Telling := by
  rw [Telling, of.dynamic, of.confidence]
  exact hscore

theorem sound_symbol (of : f.Annotated (o.toSymbol x score) dynamic inherited)
    (found : s.symbols.get? fqn = some x)
    (hscore : 0 < Edge.clamp score ∧ (dynamic = true ↔ Edge.clamp score ≤ 0.3)) : f.Sound s o where
  type := congrArg Edge.type of.same
  source := congrArg Edge.source of.same
  owner := congrArg Edge.owner of.same
  lands := .inl ⟨fqn, x, found, of.target⟩
  telling := of.telling hscore

theorem sound_template (of : f.Annotated (o.toTemplate x score) dynamic inherited)
    (hid : x.id = .ofFqn x.fqn)
    (hscore : 0 < Edge.clamp score ∧ (dynamic = true ↔ Edge.clamp score ≤ 0.3)) : f.Sound s o where
  type := congrArg Edge.type of.same
  source := congrArg Edge.source of.same
  owner := congrArg Edge.owner of.same
  lands := .inr ⟨x, of.placeholder, of.target.trans hid⟩
  telling := of.telling hscore

theorem leads_symbol (of : f.Annotated (o.toSymbol x score) dynamic inherited)
    (found : findDefined? s fqn = some x) : f.Leads s o.owner :=
  have ⟨hfqn, hint⟩ := findDefined?_eq_some.1 found
  ⟨congrArg Edge.owner of.same, .inl ⟨of.placeholder, fqn, x, hfqn, hint, of.target⟩⟩

theorem leads_placeholder (of : f.Annotated (o.toPlaceholder fqn score) dynamic inherited) :
    f.Leads s o.owner :=
  ⟨congrArg Edge.owner of.same, .inr ⟨fqn, of.placeholder, of.target⟩⟩

end Annotated

end Finding

namespace Origin

variable (o : Origin) (score : Float)

theorem toSymbol_annotated (x : Symbol) :
    (o.toSymbol x score).Annotated (o.toSymbol x score) false false :=
  ⟨rfl, rfl, rfl, rfl⟩

theorem toTemplate_annotated (x : Symbol) :
    (o.toTemplate x score).Annotated (o.toTemplate x score) false false :=
  ⟨rfl, rfl, rfl, rfl⟩

theorem toPlaceholder_annotated (fqn : String) :
    (o.toPlaceholder fqn score).Annotated (o.toPlaceholder fqn score) false false :=
  o.toTemplate_annotated score _

theorem toComputed_annotated (text : String) : (o.toComputed text).Annotated
    (o.toPlaceholder (dynamicMark ++ text) Confidence.computed) true false :=
  (o.toPlaceholder_annotated _ _).withDynamic.withMeta _ (by decide)

end Origin

/-! ## References -/

/-- What resolution makes of an import or a reference. The full score and that of an inherited member
need a definition, a placeholder has half the score unless it is imported, and everything below is
marked as a guess. -/
inductive Finding.Resolved (s : Snapshot) (o : Origin) (f : Finding) : Prop
  | exact {fqn : String} {x : Symbol} (found : findDefined? s fqn = some x)
      (of : f.Annotated (o.toSymbol x Confidence.exact) false false)
  | inherited {fqn : String} {x : Symbol} (found : findDefined? s fqn = some x)
      (of : f.Annotated (o.toSymbol x Confidence.inherited) false true)
  | only {fqn : String} {x : Symbol} (found : findDefined? s fqn = some x)
      (of : f.Annotated (o.toSymbol x Confidence.dynamicReceiver) true false)
  | imported {fqn : String} (type : o.type = .imports)
      (of : f.Annotated (o.toPlaceholder fqn Confidence.exact) false false)
  | placeholder {fqn : String}
      (of : f.Annotated (o.toPlaceholder fqn Confidence.placeholder) false false)
  | guessed {fqn : String} {score : Float}
      (low : score = Confidence.propagationMiss ∨ score = Confidence.computed)
      (of : f.Annotated (o.toPlaceholder fqn score) true false)

namespace Finding.Resolved

variable {s : Snapshot} {o : Origin} {f : Finding}

theorem withMeta (h : f.Resolved s o) (value : Json) (hk : key ∉ ["dynamic", "inherited"]) :
    (f.withMeta key value).Resolved s o := by
  cases h with
  | exact found of => exact .exact found (of.withMeta value hk)
  | inherited found of => exact .inherited found (of.withMeta value hk)
  | only found of => exact .only found (of.withMeta value hk)
  | imported type of => exact .imported type (of.withMeta value hk)
  | placeholder of => exact .placeholder (of.withMeta value hk)
  | guessed low of => exact .guessed low (of.withMeta value hk)

theorem leads (h : f.Resolved s o) : f.Leads s o.owner := by
  cases h with
  | exact found of | inherited found of | only found of => exact of.leads_symbol found
  | imported type of | placeholder of | guessed low of => exact of.leads_placeholder

theorem sound (h : f.Resolved s o) : f.Sound s o := by
  cases h with
  | exact found of | inherited found of | only found of =>
    exact of.sound_symbol (findDefined?_eq_some.1 found).1 (by decide)
  | imported type of | placeholder of => exact of.sound_template rfl (by decide)
  | guessed low of => rcases low with rfl | rfl <;> exact of.sound_template rfl (by decide)

end Finding.Resolved

namespace View

variable (v : View) (o : Origin) (c : Scope)

theorem named_resolved (filter : LookupFilter) (name : String) :
    (v.named o c filter name).Resolved v.snapshot o := by
  unfold named
  split
  · next x hx =>
    obtain ⟨fqn, hx⟩ := internal_of_resolve? hx
    exact .exact (findDefined?_eq_some.2 hx) (o.toSymbol_annotated _ x)
  · exact .placeholder (o.toPlaceholder_annotated _ _)

theorem typed_resolved (filter : LookupFilter) (target : Target) :
    (v.typed o c filter target).Resolved v.snapshot o := by
  cases target with
  | name name => exact v.named_resolved o c filter name
  | viaVariable x =>
    unfold typed
    dsimp only
    split
    · exact ((v.named_resolved o c filter _).withMeta _ (by decide)).withMeta _ (by decide)
    · exact .guessed (.inl rfl)
        ((o.toPlaceholder_annotated _ _).withDynamic.withMeta _ (by decide))
  | dynamic text => exact .guessed (.inr rfl) (o.toComputed_annotated text)

/-- What a search finds is a member of a type that it visited. -/
theorem found_visitAll {member : String} {depth : Nat} {l : List Symbol} {s : Search} {m : Symbol}
    (h : (s.visitAll v member depth l).found = some m) :
    s.found = some m ∨ ∃ parent ∈ l, v.memberOf? parent member = some m := by
  induction l generalizing s with
  | nil => exact .inl h
  | cons parent rest ih =>
    rcases ih h with h | ⟨x, hx, hm⟩
    · unfold Search.visit at h
      dsimp only at h
      split at h
      · exact .inl h
      · split at h
        · next hm => exact .inr ⟨parent, List.mem_cons_self .., hm.trans h⟩
        · split at h <;> exact .inl h
    · exact .inr ⟨x, List.mem_cons_of_mem _ hx, hm⟩

theorem exists_of_search {member : String} {seen : StringSet} {queue : List (List Symbol × Nat)}
    {m : Symbol} (h : v.search member seen queue = some m) :
    ∃ parent, v.memberOf? parent member = some m := by
  fun_induction search v member seen queue with
  | case1 => cases h
  | case2 seen parents depth queue s m' hm =>
    cases h
    rcases v.found_visitAll hm with hm | ⟨parent, -, hm⟩
    · cases hm
    · exact ⟨parent, hm⟩
  | case3 seen parents depth queue s hm ih => exact ih h

variable {v o} in
theorem methodOf?_resolved {owner : Symbol} {f : Finding} (h : v.methodOf? o owner name = some f) :
    f.Resolved v.snapshot o := by
  unfold methodOf? at h
  split at h
  · next m hm =>
    cases h
    exact .exact hm (o.toSymbol_annotated _ m)
  · obtain ⟨m, hm, rfl⟩ := Option.map_eq_some_iff.1 h
    obtain ⟨parent, hm⟩ := v.exists_of_search hm
    exact .inherited hm (o.toSymbol_annotated _ m).withInherited

theorem unresolvedCall_resolved (fqn : String) : (unresolvedCall o fqn).Resolved v.snapshot o :=
  .placeholder ((o.toPlaceholder_annotated _ fqn).withMeta _ (by decide))

theorem ownCall_resolved (onSelf : Bool) (name : String) :
    (v.ownCall o c onSelf name).Resolved v.snapshot o := by
  unfold ownCall
  dsimp only
  split
  · next f hf =>
    obtain ⟨t, -, ht⟩ := Option.bind_eq_some_iff.1 hf
    exact methodOf?_resolved ht
  · split
    · next x hx =>
      split at hx
      · cases hx
      · obtain ⟨fqn, hx⟩ := internal_of_resolve? (Option.filter_eq_some_iff.1 hx).1
        exact .exact (findDefined?_eq_some.2 hx) (o.toSymbol_annotated _ x)
    · exact v.unresolvedCall_resolved o _
    · exact v.unresolvedCall_resolved o _

theorem staticCall_resolved (typeName name : String) :
    (v.staticCall o c typeName name).Resolved v.snapshot o := by
  unfold staticCall
  split
  · next owner _ =>
    cases h : v.methodOf? o owner name with
    | none => exact v.unresolvedCall_resolved o _
    | some f => exact methodOf?_resolved h
  · exact v.unresolvedCall_resolved o _

/-- A call on an expression is a guess, whether or not there is a method of the name. -/
theorem dynamicCall_resolved (expression name : String) :
    (v.dynamicCall o expression name).Resolved v.snapshot o := by
  have hmarks : ∀ {f base : Finding} {count : Json}, f.Annotated base false false →
      (((f.withMeta "candidates" count).withMeta "dynamic" (.bool true)).withMeta "receiver"
        (.string expression)).Annotated base true false := fun h =>
    (h.withMeta _ (by decide)).withDynamic.withMeta _ (by decide)
  unfold dynamicCall
  dsimp only
  split
  · next only hfound =>
    have hmem : only ∈ (SymbolLookup.named v.snapshot name).filter fun s => s.kind == .method := by
      rw [hfound]
      exact List.mem_singleton_self only
    obtain ⟨hnamed, hkind⟩ := List.mem_filter.1 hmem
    obtain ⟨fqn, hfqn⟩ := mem_values.1 (List.mem_filter.1 hnamed).1
    refine .only (findDefined?_eq_some.2 ⟨hfqn, ?_⟩) (hmarks (o.toSymbol_annotated _ only))
    rw [Symbol.isExternal, beq_iff_eq.1 hkind]
    rfl
  · have hmiss := o.toPlaceholder_annotated Confidence.propagationMiss (dynamicMark ++ name)
    exact .guessed (.inl rfl)
      (hmarks ⟨hmiss.same, hmiss.placeholder, hmiss.dynamic, hmiss.inherited⟩)

theorem call_resolved (receiver : Receiver) (target : Target) :
    ∃ type ∈ [EdgeType.calls, .callsStatic],
      (v.call o c receiver target).Resolved v.snapshot { o with type } := by
  have hcomputed (text : String) : ∃ type ∈ [EdgeType.calls, .callsStatic],
      ({ o with type := .calls }.toComputed text).Resolved v.snapshot { o with type } :=
    ⟨.calls, by decide, .guessed (.inr rfl) (Origin.toComputed_annotated _ text)⟩
  cases target with
  | name name =>
    cases receiver with
    | unqualified => exact ⟨.calls, by decide, v.ownCall_resolved _ c false name⟩
    | selfRef => exact ⟨.calls, by decide, v.ownCall_resolved _ c true name⟩
    | typeName t => exact ⟨.callsStatic, by decide, v.staticCall_resolved _ c t name⟩
    | expression text => exact ⟨.calls, by decide, v.dynamicCall_resolved _ text name⟩
  | viaVariable text | dynamic text => exact hcomputed text

theorem edgeTypeOf_ne {kind : ReferenceKind} {type : EdgeType}
    (h : edgeTypeOf kind = some (type, filter)) : type ≠ .imports := by
  rintro rfl
  cases kind <;> cases h

/-- No reference has an edge like that of an import. -/
theorem referenceEdge_resolved (f : FileSketch) (r : ReferenceSketch) :
    ∃ type ≠ EdgeType.imports, (v.referenceEdge f c r).Resolved v.snapshot
      ⟨type, f.sourceId r.source, f.path, r.line⟩ := by
  unfold referenceEdge
  dsimp only
  split
  · next type filter htype => exact ⟨type, edgeTypeOf_ne htype, v.typed_resolved _ _ filter _⟩
  · obtain ⟨type, htype, h⟩ := v.call_resolved ⟨.calls, f.sourceId r.source, f.path, r.line⟩
      (c.enter f r.source) r.receiver r.target
    exact ⟨type, by rintro rfl; revert htype; decide, h⟩

/-- An import has the full score, also if it leads out of the project. -/
theorem importEdge_resolved (f : FileSketch) (i : ImportSketch) :
    (v.importEdge f i).Resolved v.snapshot ⟨.imports, .ofFqn f.path, f.path, i.line⟩ := by
  unfold importEdge
  extract_lets o e e'
  have he : e.Resolved v.snapshot o := by
    dsimp only [e]
    split
    · next x hx => exact .exact hx (o.toSymbol_annotated _ x)
    · exact .imported rfl (o.toPlaceholder_annotated _ _)
  have he' : e'.Resolved v.snapshot o := by
    dsimp only [e']
    split
    · exact he.withMeta _ (by decide)
    · exact he
  split
  · exact he'.withMeta _ (by decide)
  · exact he'

theorem importEdge_type (f : FileSketch) (i : ImportSketch) :
    (v.importEdge f i).edge.type = .imports :=
  (v.importEdge_resolved f i).sound.type

theorem findings_resolved {f : FileSketch} {found : Finding} (h : found ∈ v.findings f) :
    ∃ o source, found.Resolved v.snapshot o ∧ o.owner = f.path ∧ o.source = f.sourceId source := by
  unfold findings at h
  rcases List.mem_append.1 h with h | h
  · obtain ⟨i, -, rfl⟩ := List.mem_map.1 h
    exact ⟨_, none, v.importEdge_resolved f i, rfl, rfl⟩
  · obtain ⟨r, -, rfl⟩ := List.mem_map.1 h
    obtain ⟨type, -, hr⟩ := v.referenceEdge_resolved (scopeOf f) f r
    exact ⟨_, r.source, hr, rfl, rfl⟩

/-- Every edge that resolution finds in a file is the file's own, and leads to a definition of the
project or to a placeholder that comes with it. -/
theorem findings_leads {f : FileSketch} {found : Finding} (h : found ∈ v.findings f) :
    found.Leads v.snapshot f.path := by
  obtain ⟨o, -, hr, howner, -⟩ := v.findings_resolved h
  exact howner ▸ hr.leads

end View

/-! ## Agreement -/

/-- An edge with its score: a defined symbol with the full score, or a placeholder for an undefined
name with half of it. -/
inductive Finding.Agrees (s : Snapshot) (f : Finding) : Prop
  | defined {fqn : String} {x : Symbol} (found : s.symbols.get? fqn = some x)
      (internal : x.isExternal = false) (target : f.edge.target = x.id)
      (score : f.edge.confidence = 1.0)
  | missing {fqn : String} {x : Symbol} (undefined : findDefined? s fqn = none)
      (needs : f.placeholder = some x) (name : x.fqn = fqn) (target : f.edge.target = .ofFqn fqn)
      (score : f.edge.confidence = 0.5)

theorem Finding.Agrees.withMeta {s : Snapshot} {f : Finding} (h : f.Agrees s) (key : String)
    (value : Json) : (f.withMeta key value).Agrees s := by
  cases h with
  | defined hx hint ht hs => exact .defined hx hint ht hs
  | missing hu hn hname ht hs => exact .missing hu hn hname ht hs

/-- Neither the names of references nor the literals of a file are empty. -/
structure FileSketch.Spelled (f : FileSketch) : Prop where
  names : ∀ r ∈ f.references, ∀ name, r.target = .name name → name ≠ ""
  literals : ∀ a ∈ f.assignments, a.literal ≠ ""

theorem clamp_exact : Edge.clamp Confidence.exact = 1.0 := by decide

theorem clamp_placeholder : Edge.clamp Confidence.placeholder = 0.5 := by decide

namespace View

theorem named_agrees (v : View) (o : Origin) (c : Scope) (filter : LookupFilter)
    (hne : name ≠ "") : (v.named o c filter name).Agrees v.snapshot := by
  unfold named
  split
  · next x hx =>
    obtain ⟨fqn, hfqn, hint⟩ := internal_of_resolve? hx
    exact .defined hfqn hint rfl clamp_exact
  · next hx => exact .missing (findDefined?_placeholderName hne hx) rfl rfl rfl clamp_placeholder

/-- A variable holds a literal that was assigned. -/
theorem mem_assignments_of_literal? {f : FileSketch} {source : Option String} {x literal : String}
    {line : UInt32} (h : ((scopeOf f).enter f source).literal? x line = some literal) :
    ∃ a ∈ f.assignments, a.literal = literal := by
  obtain ⟨w, hw, -, rfl, -⟩ := LiteralBindings.lookup?_eq_some_iff.1 h
  obtain ⟨a, ha, -, -, rfl⟩ := LiteralBindings.mem_valuesOf.1 hw
  exact ⟨a, ha, rfl⟩

theorem typed_agrees (v : View) (o : Origin) (c : Scope) (filter : LookupFilter) {target : Target}
    (hname : ∀ name, target = .name name → name ≠ "")
    (hliteral : ∀ x literal, c.literal? x o.line = some literal → literal ≠ "")
    (hd : (v.typed o c filter target).edge.isDynamic = false) :
    (v.typed o c filter target).Agrees v.snapshot := by
  cases target with
  | name name => exact v.named_agrees o c filter (hname name rfl)
  | viaVariable x =>
    unfold typed at hd ⊢
    dsimp only at hd ⊢
    split at hd
    · next literal hl =>
      exact ((v.named_agrees o c filter (hliteral x literal hl)).withMeta _ _).withMeta _ _
    · rw [Finding.isDynamic_withMeta (by decide), Finding.isDynamic_withMeta_dynamic] at hd
      cases hd
  | dynamic text =>
    rw [show v.typed o c filter (.dynamic text) = o.toComputed text from rfl,
      (o.toComputed_annotated text).dynamic] at hd
    cases hd

/-- An edge to a type or a value that is not guessed agrees with its score. -/
theorem findings_agrees {v : View} {f : FileSketch} (hf : f.Spelled) {found : Finding}
    (h : found ∈ v.findings f) (ht : found.edge.type.leadsToTypeOrValue = true)
    (hd : found.edge.isDynamic = false) : found.Agrees v.snapshot := by
  unfold findings at h
  rcases List.mem_append.1 h with h | h
  · obtain ⟨i, -, rfl⟩ := List.mem_map.1 h
    rw [importEdge_type] at ht
    cases ht
  · obtain ⟨r, hr, rfl⟩ := List.mem_map.1 h
    have hr := (List.mem_filter.1 hr).1
    unfold referenceEdge at ht hd ⊢
    dsimp only at ht hd ⊢
    split at ht
    · next type filter hty =>
      rw [hty] at hd
      refine v.typed_agrees _ _ _ (hf.names r hr) (fun x literal hl => ?_) hd
      obtain ⟨a, ha, rfl⟩ := mem_assignments_of_literal? hl
      exact hf.literals a ha
    · -- a call is no edge to a type or a value
      obtain ⟨type, htype, hr⟩ := v.call_resolved ⟨.calls, f.sourceId r.source, f.path, r.line⟩
        ((scopeOf f).enter f r.source) r.receiver r.target
      rw [hr.sound.type] at ht
      rcases List.mem_pair.1 htype with rfl | rfl <;> cases ht

end View

end CodeAtlas
