import CodeAtlas.Collector.JavaSketches
import CodeAtlas.Proofs.SortedMap

/-!
# What a walk over a Java file comes across

The notes of a walk have a shape: a definition stands under the enclosing type, the references of
its own signature stand right before it, and what stands right after it was seen inside of it.
Everything else in the notes belongs to the definition that the walk is in. `Shaped` is that
grammar, with the enclosing type and callable as its state, and the walk into any node keeps to it.

Main results:

* `shaped_extract`: the notes of a walk have the shape of its position;
* `Shaped.grounded`: what the notes name as a scope is where the walk began or is defined in them;
* `Shaped.plain`: no definition among the notes has been counted yet.
-/

namespace CodeAtlas.JavaSketches

open Syntax

/-! ## The shape of notes -/

namespace Note

/-- The definition of a note. -/
def definition? : Note → Option SymbolSketch
  | .definition s => some s
  | _ => none

/-- The relative path under which a note was taken. -/
def scope? : Note → Option String
  | .definition s => s.parent
  | .reference r => r.source
  | .assignment a => a.scope
  | .package _ | .imported _ => none

end Note

/-- The definitions among notes, in order. -/
def definitions (notes : List Note) : List SymbolSketch := notes.filterMap Note.definition?

@[simp] theorem mem_definitions {notes : List Note} {s : SymbolSketch} :
    s ∈ definitions notes ↔ .definition s ∈ notes := by
  constructor
  · intro h
    obtain ⟨note, hnote, hs⟩ := List.mem_filterMap.mp h
    cases note with
    | definition x =>
      cases hs
      exact hnote
    | package _ | imported _ | reference _ | assignment _ => cases hs
  · intro h
    exact List.mem_filterMap.mpr ⟨_, h, rfl⟩

/-- A definition inside a type, and the notes of its signature. -/
structure Declares (type : Option String) (s : SymbolSketch) (signature : List Note) : Prop where
  parent : s.parent = type
  plain : s.metadata.get? "overloads" = none
  signature : ∀ note ∈ signature, ∃ r, note = .reference r ∧ r.source = some (s.relativePath ".")

/-- The enclosing type and callable in the body of a definition: a type, or a member of a type. -/
inductive Inside (type : Option String) (s : SymbolSketch) : Option String → Option String → Prop
  | typeBody : Inside type s (some (s.relativePath ".")) none
  | memberBody : Inside type s type (some (s.relativePath "."))

/-- The notes that a walk inside a type and a callable can take. -/
inductive Shaped : Option String → Option String → List Note → Prop
  | nil {type callable} : Shaped type callable []
  | append {type callable l l'} :
      Shaped type callable l → Shaped type callable l' → Shaped type callable (l ++ l')
  | package {type callable} (name : Option String) : Shaped type callable [.package name]
  | imported {type callable} (i : ImportSketch) : Shaped type callable [.imported i]
  | reference {type callable r} :
      r.source = callable.or type → Shaped type callable [.reference r]
  | assignment {type callable a} :
      a.scope = callable.or type ∨ a.scope = type → Shaped type callable [.assignment a]
  | definition {type callable s signature type' callable' body} :
      Declares type s signature → Inside type s type' callable' → Shaped type' callable' body →
      Shaped type callable (signature ++ .definition s :: body)

namespace Shaped

variable {type callable : Option String} {notes : List Note}

theorem flatMap {α : Type} {l : List α} {g : α → List Note}
    (h : ∀ a ∈ l, Shaped type callable (g a)) : Shaped type callable (l.flatMap g) := by
  induction l with
  | nil => exact .nil
  | cons a l ih =>
    rw [List.flatMap_cons]
    exact .append (h a List.mem_cons_self) (ih fun b hb => h b (List.mem_cons_of_mem a hb))

theorem map {α : Type} {l : List α} {g : α → Note} (h : ∀ a ∈ l, Shaped type callable [g a]) :
    Shaped type callable (l.map g) := by
  rw [List.map_eq_flatMap]
  exact flatMap h

/-- A definition without a signature, and what follows it. -/
theorem member {s : SymbolSketch} {rest : List Note} (h : Declares type s [])
    (hrest : Shaped type callable rest) : Shaped type callable (.definition s :: rest) :=
  .append (.definition h .memberBody .nil) hrest

/-- A scope that notes name is where their walk began, or they define it. -/
theorem grounded (h : Shaped type callable notes) {note : Note} (hnote : note ∈ notes) {x : String}
    (hx : note.scope? = some x) :
    type = some x ∨ callable = some x ∨ ∃ s ∈ definitions notes, s.relativePath "." = x := by
  induction h with
  | nil => cases hnote
  | @append _ _ l l' _ _ ih ih' =>
    simp only [definitions, List.filterMap_append, List.mem_append] at ih ih' ⊢
    obtain hnote | hnote := List.mem_append.mp hnote
    · obtain h | h | ⟨s, hs, e⟩ := ih hnote
      · exact .inl h
      · exact .inr (.inl h)
      · exact .inr (.inr ⟨s, .inl hs, e⟩)
    · obtain h | h | ⟨s, hs, e⟩ := ih' hnote
      · exact .inl h
      · exact .inr (.inl h)
      · exact .inr (.inr ⟨s, .inr hs, e⟩)
  | package name | imported i =>
    cases List.mem_singleton.mp hnote
    cases hx
  | reference hr =>
    cases List.mem_singleton.mp hnote
    obtain h | ⟨_, h⟩ := Option.or_eq_some_iff.mp (hr.symm.trans hx)
    · exact .inr (.inl h)
    · exact .inl h
  | assignment ha =>
    cases List.mem_singleton.mp hnote
    obtain ha | ha := ha
    · obtain h | ⟨_, h⟩ := Option.or_eq_some_iff.mp (ha.symm.trans hx)
      · exact .inr (.inl h)
      · exact .inl h
    · exact .inl (ha.symm.trans hx)
  | @definition _ _ s signature _ _ body hs hinside _ ih =>
    have hself : s ∈ definitions (signature ++ .definition s :: body) := by simp
    obtain hnote | hnote | hnote := (List.mem_append.mp hnote).imp_right List.mem_cons.mp
    · obtain ⟨r, rfl, hr⟩ := hs.signature note hnote
      exact .inr (.inr ⟨s, hself, Option.some.inj (hr.symm.trans hx)⟩)
    · subst hnote
      exact .inl (hs.parent.symm.trans hx)
    · obtain h | h | ⟨s', hs', e⟩ := ih hnote
      · cases hinside with
        | typeBody => exact .inr (.inr ⟨s, hself, Option.some.inj h⟩)
        | memberBody => exact .inl h
      · cases hinside with
        | typeBody => cases h
        | memberBody => exact .inr (.inr ⟨s, hself, Option.some.inj h⟩)
      · exact .inr (.inr ⟨s', by simp [mem_definitions.mp hs'], e⟩)

/-- No definition among notes has been counted. -/
theorem plain (h : Shaped type callable notes) {s : SymbolSketch} (hs : s ∈ definitions notes) :
    s.metadata.get? "overloads" = none := by
  induction h with
  | nil => cases hs
  | append _ _ ih ih' =>
    rw [definitions, List.filterMap_append] at hs
    exact (List.mem_append.mp hs).elim ih ih'
  | package name | imported i | reference hr | assignment ha => simp at hs
  | definition hs' _ _ ih =>
    obtain hs | hs | hs :=
      (List.mem_append.mp (mem_definitions.mp hs)).imp_right List.mem_cons.mp
    · obtain ⟨r, h, _⟩ := hs'.signature _ hs
      cases h
    · cases hs
      exact hs'.plain
    · exact ih (mem_definitions.mpr hs)

end Shaped

/-! ## Definitions and their signatures -/

theorem get?_facts {l : List (String × Json)} {key : String} (h : key ∉ l.map (·.1)) :
    (SortedMap.ofList l).get? key = none := by
  rw [Option.eq_none_iff_forall_ne_some]
  intro a ha
  exact h (List.mem_map.mpr ⟨_, SortedMap.mem_of_get?_ofList ha, rfl⟩)

section

variable {p : Position} {n : Node}

/-- A reference that the reader of a signature gives its definition as the source. -/
theorem refer_source (kind : ReferenceKind) (target : Target) (source : String) :
    ∃ r, refer p kind target (some source) n = .reference r ∧ r.source = some source :=
  ⟨_, rfl, rfl⟩

theorem referTypes_source {kind : ReferenceKind} {source : String} {note : Note}
    (h : note ∈ referTypes p kind source n) :
    ∃ r, note = .reference r ∧ r.source = some source := by
  obtain ⟨name, _, rfl⟩ := List.mem_map.mp h
  exact refer_source kind (.name name) source

theorem readSignature_source {name source : String} {note : Note}
    (h : note ∈ readSignature p n name source) :
    ∃ r, note = .reference r ∧ r.source = some source := by
  simp only [readSignature, List.mem_append, List.mem_flatMap, List.mem_map] at h
  obtain (((⟨param, _, t, _, rfl⟩ | ⟨t, _, rfl⟩) | ⟨clause, _, h⟩) | h) | ⟨a, _, h⟩ := h
  · exact refer_source ..
  · exact refer_source ..
  · exact referTypes_source h
  · obtain ⟨route, _, rfl⟩ := List.mem_map.mp h
    exact ⟨_, rfl, rfl⟩
  · rw [readListener] at h
    split at h
    · cases h
    · obtain ⟨target, _, rfl⟩ := List.mem_map.mp h
      exact refer_source ..

theorem declares_type (nameNode : Node) :
    Declares p.type (typeSketch p n nameNode) ((supertypeClauses n).flatMap fun (k, c) =>
      referTypes p k ((typeSketch p n nameNode).relativePath ".") c) where
  parent := rfl
  plain := by
    have hfacts : (if n.kind == "enum_declaration" then SortedMap.ofList [("enum", .bool true)]
        else ∅ : Metadata).get? "overloads" = none := by
      split
      · exact get?_facts (by decide)
      · rfl
    simp only [typeSketch]
    split
    · exact hfacts
    · rw [SortedMap.get?_insert_eq, if_neg (by decide)]
      exact hfacts
  signature := by
    intro note h
    obtain ⟨clause, _, h⟩ := List.mem_flatMap.mp h
    exact referTypes_source h

theorem declares_callable (nameNode : Node) : Declares p.type (callableSketch p n nameNode)
      (readSignature p n (callableSketch p n nameNode).name
        ((callableSketch p n nameNode).relativePath ".")) where
  parent := rfl
  plain := by
    apply get?_facts
    split <;> split <;> simp
  signature := fun _ => readSignature_source

theorem declares_field (declarator nameNode : Node) :
    Declares p.type (fieldSketch p n declarator nameNode) [] where
  parent := rfl
  plain := by
    simp only [fieldSketch]
    split
    · exact get?_facts (by simp)
    · rfl
  signature := by simp

theorem declares_constant (nameNode : Node) : Declares p.type (constantSketch p n nameNode) [] where
  parent := rfl
  plain := rfl
  signature := by simp

end

/-! ## Calls -/

section

variable {p : Position} {n : Node} {args : List Node} {r : ReferenceSketch}

theorem routeRegistration?_source {verb : String} (h : routeRegistration? p verb args n = some r) :
    r.source = p.within := by
  unfold routeRegistration? at h
  split at h
  · obtain ⟨route, _, rfl⟩ := Option.map_eq_some_iff.mp h
    rfl
  · cases h

/-- A well-known call is a reference from the innermost definition. -/
theorem wellKnownCall?_source {name : String} {object : Option Node}
    (h : wellKnownCall? p name object args n = some r) : r.source = p.within := by
  have hservice (h : (args.head?.bind fun a => if a.kind == "class_literal" then none else
      some (referenceAt n .serviceLookup (valueTarget p a) p.within)) = some r) :
      r.source = p.within := by
    obtain ⟨a, _, h⟩ := Option.bind_eq_some_iff.mp h
    split at h
    · cases h
    · cases h
      rfl
  have hevent {kind : ReferenceKind} (h : (args.head?.map fun a =>
      referenceAt n kind (eventTarget p a) p.within) = some r) : r.source = p.within := by
    obtain ⟨a, _, rfl⟩ := Option.map_eq_some_iff.mp h
    rfl
  simp only [wellKnownCall?] at h
  split at h
  · cases h
    rfl
  split at h
  · exact hservice h
  split at h
  · exact hservice h
  split at h
  · exact hevent h
  split at h
  · exact hevent h
  split at h
  · exact routeRegistration?_source h
  · cases h

end

/-! ## The walk -/

section

variable {walk : Walk} (hwalk : ∀ p n, Shaped p.type p.callable (walk p n))
include hwalk

theorem shaped_walkAll (p : Position) (nodes : List Node) :
    Shaped p.type p.callable (nodes.flatMap (walk p)) :=
  .flatMap fun n _ => hwalk p n

theorem shaped_readType (p : Position) (n : Node) :
    Shaped p.type p.callable (readType walk p n) := by
  rw [readType]
  split
  · exact .nil
  · exact .definition (declares_type _) .typeBody
      (.flatMap fun body _ => shaped_walkAll hwalk
        { p with type := some _, callable := none, member := true, routePrefix := _ }
        body.namedChildren)

theorem shaped_readEnumConstant (p : Position) (n : Node) :
    Shaped p.type p.callable (readEnumConstant walk p n) :=
  .append (.map fun name _ => .member (declares_constant name) .nil)
    (shaped_walkAll hwalk p n.namedChildren)

theorem shaped_readCallable (p : Position) (n : Node) :
    Shaped p.type p.callable (readCallable walk p n) := by
  rw [readCallable]
  split
  · exact .nil
  · exact .definition (declares_callable _) .memberBody
      (shaped_walkAll hwalk { p with callable := some _, member := false } _)

theorem shaped_readField (p : Position) (n declarator : Node) :
    Shaped p.type p.callable (readField walk p n declarator) := by
  rw [readField]
  split
  · exact .nil
  · refine .member (declares_field declarator _) (.flatMap fun value _ => ?_)
    exact .append (.map fun literal _ => .assignment (.inr rfl)) (hwalk p value)

theorem shaped_readLocal (p : Position) (declarator : Node) :
    Shaped p.type p.callable (readLocal walk p declarator) := by
  rw [readLocal]
  split
  · exact .nil
  · refine .append ?_ (hwalk p _)
    split
    · exact .assignment (.inl rfl)
    · exact .nil

theorem shaped_readFieldAccess (p : Position) (kind : ReferenceKind) (n : Node) :
    Shaped p.type p.callable (readFieldAccess walk p kind n) := by
  rw [readFieldAccess]
  split
  · split
    · exact .reference rfl
    · exact hwalk p _
  · exact hwalk p _
  · exact .nil

theorem shaped_readAssignment (p : Position) (n : Node) :
    Shaped p.type p.callable (readAssignment walk p n) := by
  unfold readAssignment
  extract_lets left written
  have hwritten : Shaped p.type p.callable written := by
    dsimp only [written, left]
    split
    · split
      · exact shaped_readFieldAccess hwalk p .writes _
      · exact hwalk p _
    · exact .nil
  split
  · exact hwritten
  · refine .append (.append hwritten ?_) (hwalk p _)
    dsimp only [left]
    split
    · split
      · exact .assignment (.inl rfl)
      · exact .nil
    · exact .nil

theorem shaped_readCreation (p : Position) (n : Node) :
    Shaped p.type p.callable (readCreation walk p n) :=
  .append (.map fun _ _ => .reference rfl) (shaped_walkAll hwalk p n.namedChildren)

theorem shaped_readInvocation (p : Position) (n : Node) :
    Shaped p.type p.callable (readInvocation walk p n) := by
  rw [readInvocation]
  split
  · exact shaped_walkAll hwalk p n.namedChildren
  · refine .append (l := [_]) (.reference ?_)
      (.append (shaped_walkAll hwalk p _) (shaped_walkAll hwalk p _))
    split
    · next h => exact wellKnownCall?_source h
    · rfl

/-- One step of the walk keeps the shape if the walk further down does. -/
theorem shaped_step (p : Position) (n : Node) : Shaped p.type p.callable (step walk p n) := by
  rw [step]
  split
  · exact .package _
  · rw [readImport]
    split
    · exact .nil
    · exact .imported _
  · exact shaped_readType hwalk { p with member := false } n
  · exact shaped_readType hwalk { p with member := false } n
  · exact shaped_readType hwalk { p with member := false } n
  · exact shaped_readCallable hwalk { p with member := false } n
  · exact shaped_readCallable hwalk { p with member := false } n
  · exact .flatMap fun declarator _ =>
      shaped_readField hwalk { p with member := false } n declarator
  · exact .flatMap fun declarator _ => shaped_readLocal hwalk { p with member := false } declarator
  · exact shaped_readInvocation hwalk { p with member := false } n
  · exact shaped_readCreation hwalk { p with member := false } n
  · exact shaped_readAssignment hwalk { p with member := false } n
  · exact shaped_readFieldAccess hwalk { p with member := false } .reads n
  · split
    · exact shaped_readEnumConstant hwalk { p with member := false } n
    · exact shaped_walkAll hwalk { p with member := false } n.namedChildren
  · split
    · exact shaped_walkAll hwalk p n.namedChildren
    · exact shaped_walkAll hwalk { p with member := false } n.namedChildren
  · exact shaped_walkAll hwalk { p with member := false } n.namedChildren

end

/-- The notes of a walk have the shape of its position. -/
theorem shaped_extract (fuel : Nat) (p : Position) (n : Node) :
    Shaped p.type p.callable (extract fuel p n) := by
  induction fuel generalizing p n with
  | zero => exact .nil
  | succ fuel ih => exact shaped_step ih p n

end CodeAtlas.JavaSketches
