import CodeAtlas.Collector.GoSketches
import CodeAtlas.Proofs.Collector.Overloads

/-!
# Scopes

The extractors note for every reference and every literal in which definition it stands, long before
or after the definition itself is recorded. In the end every scope is there: it is the relative path
of a symbol of the file.

Main results:

* `GoSketches.extends_extract`: what a walk over a Go file adds names only scopes that it knows or
  adds;
* `scopes_known`: the scopes of Java and Go files are symbols, and so are the parents in Java files.
-/

namespace CodeAtlas

open Syntax

variable {r : ReferenceSketch}

/-! ## Scopes and paths -/

namespace FileSketch

variable {f : FileSketch}

/-- The scopes that references and literals name. -/
def scopes (f : FileSketch) : List String :=
  f.references.filterMap (·.source) ++ f.assignments.filterMap (·.scope)

/-- The paths of the symbols, with points between their segments. -/
def paths (f : FileSketch) : List String := f.symbols.map (·.relativePath ".")

theorem mem_scopes_addReference {x : String} :
    x ∈ (f.addReference r).scopes ↔ x ∈ f.scopes ∨ r.source = some x := by
  simp only [scopes, addReference, List.filterMap_append, List.mem_append, List.mem_filterMap,
    List.mem_singleton, exists_eq_left]
  exact or_right_comm

theorem mem_scopes_addAssignment {a : LiteralAssignment} {x : String} :
    x ∈ (f.addAssignment a).scopes ↔ x ∈ f.scopes ∨ a.scope = some x := by
  simp only [scopes, addAssignment, List.filterMap_append, List.mem_append, List.mem_filterMap,
    List.mem_singleton, exists_eq_left]
  exact or_assoc.symm

/-- Every scope is the path of a symbol. -/
structure ScopesKnown (f : FileSketch) : Prop where
  references : ∀ r ∈ f.references, ∀ x, r.source = some x → (f.symbolAt? x).isSome
  assignments : ∀ a ∈ f.assignments, ∀ x, a.scope = some x → (f.symbolAt? x).isSome

theorem isSome_symbolAt? (h : f.separator = ".") {x : String} (hx : x ∈ f.paths) :
    (f.symbolAt? x).isSome := by
  obtain ⟨s, hs, rfl⟩ := List.mem_map.mp hx
  rw [symbolAt?, List.find?_isSome]
  exact ⟨s, List.mem_reverse.mpr hs, by rw [h]; exact beq_self_eq_true _⟩

theorem scopesKnown_of_subset (h : f.separator = ".") (hf : f.scopes ⊆ f.paths) :
    f.ScopesKnown where
  references r hr _ hx := isSome_symbolAt? h
    (hf (List.mem_append_left _ (List.mem_filterMap.mpr ⟨r, hr, hx⟩)))
  assignments a ha _ hx := isSome_symbolAt? h
    (hf (List.mem_append_right _ (List.mem_filterMap.mpr ⟨a, ha, hx⟩)))

/-- A walk inside some scopes took a file on: it kept the symbols, and a scope that it named is one
of those or the path of a symbol by now. -/
structure Extends (inside : Set String) (f f' : FileSketch) : Prop where
  separator : f'.separator = f.separator
  paths : f.paths ⊆ f'.paths
  scopes : ∀ x ∈ f'.scopes, x ∈ f.scopes ∨ x ∈ inside ∨ x ∈ f'.paths

namespace Extends

variable {inside inside' : Set String} {f f' f'' : FileSketch}

theorem refl : Extends inside f f := ⟨rfl, List.Subset.refl _, fun _ => .inl⟩

theorem trans (h : Extends inside f f') (h' : Extends inside f' f'') : Extends inside f f'' where
  separator := h'.separator.trans h.separator
  paths := List.Subset.trans h.paths h'.paths
  scopes x hx := by
    obtain hx | hx := h'.scopes x hx
    · obtain hx | hx | hx := h.scopes x hx
      · exact .inl hx
      · exact .inr (.inl hx)
      · exact .inr (.inr (h'.paths hx))
    · exact .inr hx

theorem mono (h : Extends inside f f') (hi : inside ⊆ inside') : Extends inside' f f' :=
  ⟨h.separator, h.paths, fun x hx => (h.scopes x hx).imp_right (.imp_left fun hx => hi hx)⟩

/-- A scope that has been added is no longer owed. -/
theorem settle {x : String} (h : Extends (insert x inside) f f') (hx : x ∈ f'.paths) :
    Extends inside f f' where
  separator := h.separator
  paths := h.paths
  scopes y hy := by
    obtain hy | (rfl | hy) | hy := h.scopes y hy
    · exact .inl hy
    · exact .inr (.inr hx)
    · exact .inr (.inl hy)
    · exact .inr (.inr hy)

theorem inOrder {α : Type} {step : α → FileSketch → FileSketch} {l : List α}
    (h : ∀ a ∈ l, ∀ f, Extends inside f (step a f)) (f : FileSketch) :
    Extends inside f (inOrder step l f) := by
  induction l generalizing f with
  | nil => exact refl
  | cons a l ih =>
    exact (h a List.mem_cons_self f).trans (ih (fun b hb => h b (List.mem_cons_of_mem a hb)) _)

theorem of_same (hsep : f'.separator = f.separator) (hsym : f'.symbols = f.symbols)
    (hscopes : f'.scopes = f.scopes) : Extends inside f f' :=
  ⟨hsep, by rw [FileSketch.paths, FileSketch.paths, hsym]; exact List.Subset.refl _,
    fun _ hx => .inl (hscopes ▸ hx)⟩

theorem addSymbol (s : SymbolSketch) : Extends inside f (f.addSymbol s) where
  separator := rfl
  paths := List.map_subset _ (List.subset_append_left _ _)
  scopes _ hx := .inl hx

theorem addReference (h : ∀ x, r.source = some x → x ∈ inside) :
    Extends inside f (f.addReference r) :=
  ⟨rfl, List.Subset.refl _, fun x hx => (mem_scopes_addReference.mp hx).imp_right (.inl ∘ h x)⟩

theorem addAssignment {a : LiteralAssignment} (h : ∀ x, a.scope = some x → x ∈ inside) :
    Extends inside f (f.addAssignment a) :=
  ⟨rfl, List.Subset.refl _, fun x hx => (mem_scopes_addAssignment.mp hx).imp_right (.inl ∘ h x)⟩

end Extends

end FileSketch

/-! ## Go files -/

namespace GoSketches

open FileSketch

/-- The callable that the walk is in. -/
def Position.scope (p : Position) : Set String := { x | p.callable = some x }

variable {p : Position} {f : FileSketch} {inside : Set String}

theorem extends_refer (kind : ReferenceKind) (target : Target) (source : String) (n : Node) :
    Extends {source} f (refer p kind target (some source) n f) :=
  .addReference fun _ hx => (Option.some.inj hx).symm

theorem extends_bindLiterals (names values : List Node) (line : UInt32) :
    Extends p.scope f (bindLiterals p names values line f) := by
  refine .inOrder (fun ⟨name, value⟩ _ f => ?_) f
  dsimp only
  split
  · exact .addAssignment fun _ hx => hx
  · exact .refl

theorem extends_readImport (n : Node) : Extends inside f (readImport p n f) := by
  have hadd (i : ImportSketch) : Extends inside f (f.addImport i) := .of_same rfl rfl rfl
  unfold readImport
  split
  · exact .refl
  · dsimp only
    split
    · exact hadd _
    · split
      · exact hadd _
      · exact .refl
      · exact hadd _

theorem extends_readField (owner : String) (field : Node) :
    Extends {owner} f (readField p owner field f) := by
  rw [readField]
  split
  · split
    · exact extends_refer ..
    · exact .refl
  · exact .inOrder (fun _ _ _ => .addSymbol _) f

theorem extends_readElement (owner : String) (element : Node) :
    Extends {owner} f (readElement p owner element f) := by
  rw [readElement]
  split
  · split
    · exact .refl
    · exact .addSymbol _
  · split
    · exact .inOrder (fun _ _ _ => extends_refer ..) f
    · exact .refl

/-- A type that is put before its members settles what they owe. -/
theorem Extends.insertBeforeMembers {f₀ : FileSketch} {s : SymbolSketch} (hs : s.parent = none)
    (h : Extends {s.name} f₀ f) : Extends inside f₀ (insertBeforeMembers s f) := by
  have hmem : ∀ x ∈ f.symbols, x ∈ (GoSketches.insertBeforeMembers s f).symbols := by
    intro x hx
    rw [← List.takeWhile_append_dropWhile (p := fun x => !(x.parent == some s.name))
      (l := f.symbols)] at hx
    simp only [GoSketches.insertBeforeMembers, List.mem_append, List.mem_cons] at hx ⊢
    tauto
  have hput : Extends {s.name} f (GoSketches.insertBeforeMembers s f) :=
    ⟨rfl, List.map_subset _ hmem, fun _ hx => .inl hx⟩
  have hself : s.name ∈ (GoSketches.insertBeforeMembers s f).paths :=
    List.mem_map.mpr ⟨s, by simp [GoSketches.insertBeforeMembers], by
      rw [SymbolSketch.relativePath, hs]⟩
  exact ((h.trans hput).mono (Set.singleton_subset_iff.mpr (Set.mem_insert _ inside))).settle hself

theorem extends_readType (n : Node) : Extends inside f (readType p n f) := by
  unfold readType
  split
  · next nameNode type _ _ =>
    apply Extends.insertBeforeMembers rfl
    dsimp only
    split
    · exact .inOrder (fun _ _ _ => extends_readField ..) f
    · exact .inOrder (fun _ _ _ => extends_readElement ..) f
    · exact .refl
  · exact .refl

theorem routeRegistration?_source {method : String} {args : List Node} {n : Node}
    (h : routeRegistration? p f method args n = some r) : r.source = p.callable := by
  unfold routeRegistration? at h
  split at h
  · obtain ⟨route, _, rfl⟩ := Option.map_eq_some_iff.mp h
    rfl
  · cases h

/-- A well-known call is a reference from the callable that the walk is in. -/
theorem wellKnownCall?_source {operand method : String} {args : List Node} {n : Node}
    (h : wellKnownCall? p f operand method args n = some r) : r.source = p.callable := by
  have hfirst {kind : ReferenceKind} {target : Node → Target} (h : (args.head?.map fun a =>
      referenceAt n kind (target a) p.callable) = some r) : r.source = p.callable := by
    obtain ⟨a, _, rfl⟩ := Option.map_eq_some_iff.mp h
    rfl
  simp only [wellKnownCall?] at h
  split at h
  · exact hfirst h
  split at h
  · exact hfirst h
  split at h
  · exact hfirst h
  split at h
  · exact routeRegistration?_source h
  split at h
  · exact routeRegistration?_source h
  · cases h

theorem selectorReference_source (operand method : String) (args : List Node) (n at' : Node) :
    ((wellKnownCall? p f operand method args n).getD (selectorCall p f operand method at')).source =
      p.callable := by
  cases h : wellKnownCall? p f operand method args n with
  | some r => exact wellKnownCall?_source h
  | none =>
    rw [Option.getD_none, selectorCall]
    split <;> rfl

section

variable {walk : Walk} (hwalk : ∀ p n f, Extends (Position.scope p) f (walk p n f))
include hwalk

theorem extends_walkAll (nodes : List Node) : Extends p.scope f (inOrder (walk p) nodes f) :=
  .inOrder (fun n _ f => hwalk p n f) f

/-- The references of a signature stand before the definition that they belong to. -/
theorem extends_readCallable (n : Node) (sketch : SymbolSketch) (receiver : Option String) :
    Extends p.scope f (readCallable walk p n sketch receiver f) := by
  unfold readCallable
  extract_lets relative declared f₁ names sketch' f₂ f₃
  have hinside : {relative} ⊆ insert relative p.scope :=
    Set.singleton_subset_iff.mpr (Set.mem_insert _ _)
  have hparameters : Extends (insert relative p.scope) f f₁ := by
    refine .inOrder (fun ⟨_, type, params⟩ _ f => ?_) f
    dsimp only
    split
    · exact (extends_refer ..).mono hinside
    · exact .refl
  have hresults : Extends (insert relative p.scope) f₁ f₂ := by
    dsimp only [f₂]
    split
    · exact .inOrder (fun _ _ _ => (extends_refer ..).mono hinside) f₁
    · exact .refl
  have hsignature := (hparameters.trans hresults).trans (.addSymbol sketch')
  have hself : relative ∈ f₃.paths := List.mem_map.mpr ⟨sketch', by simp [f₃, addSymbol], rfl⟩
  split
  · next body _ =>
    have hbody : Extends {relative} f₃
        (walk { p with callable := some relative, receiver } body f₃) :=
      (hwalk _ body f₃).mono fun _ hx => (Option.some.inj hx).symm
    exact (hsignature.trans (hbody.mono hinside)).settle (hbody.paths hself)
  · exact hsignature.settle hself

theorem extends_readConstants (n : Node) : Extends p.scope f (readConstants walk p n f) := by
  unfold readConstants
  refine .trans (.inOrder (fun ⟨nameNode, index⟩ _ f => ?_) f) (extends_walkAll hwalk _)
  dsimp only
  have hdefined (s : SymbolSketch) :
      Extends p.scope f (if p.callable.isNone then f.addSymbol s else f) := by
    split
    · exact .addSymbol s
    · exact .refl
  split
  · exact (hdefined _).trans (.addAssignment fun _ hx => hx)
  · exact hdefined _

theorem extends_readVariables (n : Node) : Extends p.scope f (readVariables walk p n f) := by
  unfold readVariables
  extract_lets values f₁ f₂
  have hbound : Extends p.scope f f₁ := extends_bindLiterals ..
  refine (hbound.trans ?_).trans (extends_walkAll hwalk values)
  dsimp only [f₂]
  split
  · exact hwalk ..
  · exact .refl

theorem extends_readAssignment (n : Node) : Extends p.scope f (readAssignment walk p n f) := by
  unfold readAssignment
  refine .trans ?_ (extends_walkAll hwalk _)
  split
  · exact extends_bindLiterals ..
  · exact .refl

theorem extends_readCall (n : Node) : Extends p.scope f (readCall walk p n f) := by
  unfold readCall
  split
  · exact extends_walkAll hwalk _
  · refine .trans ?_ (extends_walkAll hwalk _)
    dsimp only
    split
    · split
      · exact .refl
      · exact .addReference fun _ hx => hx
    · split
      · refine .trans (.addReference fun x hx => ?_) (hwalk ..)
        exact (selectorReference_source ..).symm.trans hx
      · exact .refl
    · exact hwalk ..

theorem extends_readComposite (n : Node) : Extends p.scope f (readComposite walk p n f) := by
  unfold readComposite
  extract_lets f₁
  have htype : Extends p.scope f f₁ := by
    dsimp only [f₁]
    split
    · split
      · exact .refl
      · exact .addReference fun _ hx => hx
    · exact .refl
  split
  · exact htype.trans (hwalk ..)
  · exact htype

/-- One step of the walk names only scopes that it knows or adds, if the walk further down does. -/
theorem extends_step (p : Position) (n : Node) (f : FileSketch) :
    Extends p.scope f (step walk p n f) := by
  unfold step
  split
  · exact .of_same rfl rfl rfl
  · exact extends_readImport n
  · unfold readFunction
    split
    · exact .refl
    · exact extends_readCallable hwalk ..
  · unfold readMethod
    split
    · exact .refl
    · exact extends_readCallable hwalk ..
  · exact extends_readType n
  · exact extends_readConstants hwalk n
  · exact extends_readVariables hwalk n
  · exact extends_readAssignment hwalk n
  · exact extends_readAssignment hwalk n
  · exact extends_readCall hwalk n
  · exact extends_readComposite hwalk n
  · exact extends_walkAll hwalk _

end

theorem extends_extract (fuel : Nat) (p : Position) (n : Node) (f : FileSketch) :
    Extends p.scope f (extract fuel p n f) := by
  induction fuel generalizing p n f with
  | zero => exact .refl
  | succ fuel ih => exact extends_step ih p n f

end GoSketches

/-! ## Java files -/

namespace JavaSketches

theorem separator_foldl_record (notes : List Note) (d : Draft) :
    (notes.foldl Draft.record d).file.separator = d.file.separator := by
  induction notes generalizing d with
  | nil => rfl
  | cons note rest ih =>
    rw [List.foldl_cons, ih]
    cases note with
    | definition s =>
      rw [Draft.record, Draft.define]
      split <;> rfl
    | package _ | imported _ | reference _ | assignment _ => rfl

/-- A scope of a file was noted, unless it was there before. -/
theorem scopes_foldl_record {notes : List Note} {d : Draft} {x : String}
    (hx : x ∈ (notes.foldl Draft.record d).file.scopes) :
    x ∈ d.file.scopes ∨ ∃ note ∈ notes, note.scope? = some x := by
  induction notes generalizing d with
  | nil => exact .inl hx
  | cons note rest ih =>
    obtain hx | ⟨note', hnote', hx⟩ := ih hx
    · have hrecorded : x ∈ d.file.scopes ∨ note.scope? = some x := by
        cases note with
        | reference r => exact FileSketch.mem_scopes_addReference.mp hx
        | assignment a => exact FileSketch.mem_scopes_addAssignment.mp hx
        | definition s =>
          rw [Draft.record, Draft.define] at hx
          split at hx <;> exact .inl hx
        | package _ | imported _ => exact .inl hx
      exact hrecorded.imp_right fun h => ⟨note, List.mem_cons_self, h⟩
    · exact .inr ⟨note', List.mem_cons_of_mem _ hnote', hx⟩

/-- What a file names as a scope is a path that the walk has defined. -/
theorem mem_paths_of_noted {path : String} {source : Source} {root : Node} {note : Note}
    (h : note ∈ extract root.height { source } root) {x : String} (hx : note.scope? = some x) :
    x ∈ (ofTree path source root).paths := by
  obtain h | h | ⟨s, hs, rfl⟩ := (shaped_extract ..).grounded h hx
  · cases h
  · cases h
  · obtain ⟨places, hfolded⟩ := folded_ofTree path source root
    exact hfolded.paths s hs

end JavaSketches

/-- Every scope of a Java or a Go file is the path of a symbol, and so is every parent in a Java
file. -/
theorem scopes_known (path : String) (source : Source) (root : Node) :
    let java := JavaSketches.ofTree path source root
    java.ScopesKnown ∧
      (∀ s ∈ java.symbols, ∀ x, s.parent = some x → (java.symbolAt? x).isSome) ∧
      (GoSketches.ofTree path source root).ScopesKnown := by
  have hjava : (JavaSketches.ofTree path source root).separator = "." :=
    JavaSketches.separator_foldl_record ..
  refine ⟨FileSketch.scopesKnown_of_subset hjava fun x hx => ?_, fun s hs x hx => ?_, ?_⟩
  · obtain hx | ⟨note, hnote, hx⟩ := JavaSketches.scopes_foldl_record hx
    · cases hx
    · exact JavaSketches.mem_paths_of_noted hnote hx
  · obtain ⟨places, hfolded⟩ := JavaSketches.folded_ofTree path source root
    obtain ⟨c, hc, rfl⟩ := hfolded.symbols s hs
    rw [JavaSketches.parent_tally] at hx
    exact FileSketch.isSome_symbolAt? hjava
      (JavaSketches.mem_paths_of_noted (JavaSketches.mem_definitions.mp hc) hx)
  · have hgo := GoSketches.extends_extract root.height { source } root
      { path, language := "go", separator := "." }
    refine FileSketch.scopesKnown_of_subset hgo.separator fun x hx => ?_
    obtain hx | hx | hx := hgo.scopes x hx
    · cases hx
    · cases hx
    · exact hx

end CodeAtlas
